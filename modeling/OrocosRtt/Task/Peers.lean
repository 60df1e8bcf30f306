import Mathlib.Data.List.Sort
import Mathlib.Data.List.Count
import Mathlib.Logic.Function.Basic

/-! Who is whose peer: each task maps aliases to its peers, and lists the tasks that it is a peer
of. -/
namespace OrocosRtt.Task

/-- All tasks, with the two sides of the relation. -/
structure Peers (T : Type) where
  alive : T → Bool
  taskMap : T → List (String × T)
  musers : T → List T

namespace Peers

/-- What can be done to living tasks; an address can be used for a new task again. -/
inductive Action (T : Type) where
  | construct (a : T)
  | addPeer (a peer : T) (aliasName : String)
  | removePeerNamed (a : T) (name : String)
  | removePeer (a peer : T)
  | connectPeers (a peer : T)
  | disconnectPeers (a : T) (name : String)
  | disconnect (a : T)
  | destruct (a : T)

variable {T : Type}

/-- The first entry that is found comes out of the list. -/
theorem perm_eraseP {f : String × T → Bool} {l : List (String × T)} {e : String × T}
    (h : l.find? f = some e) : l.Perm (e :: l.eraseP f) := by
  induction l with
  | nil => simp at h
  | cons x l ih =>
    cases hx : f x with
    | true =>
      obtain rfl : x = e := by simpa [hx] using h
      simp [hx]
    | false =>
      have hl : l.find? f = some e := by simpa [hx] using h
      rw [List.eraseP_cons, hx]
      exact ((ih hl).cons x).trans (List.Perm.swap e x _)

variable [DecidableEq T] (name : T → String)

def start : Peers T where
  alive := fun _ => false
  taskMap := fun _ => []
  musers := fun _ => []

/-- A peer is forgotten: the map of `a` loses an entry for `p`, and the users of `p` lose `a`. -/
def unlink (a p : T) (rest : List (String × T)) (s : Peers T) : Peers T :=
  { s with
    musers := Function.update s.musers p ((s.musers p).erase a)
    taskMap := Function.update s.taskMap a rest }

def hasPeer (a : T) (n : String) (s : Peers T) : Bool := (s.taskMap a).any fun e => e.1 = n

/-- The map is sorted by alias. -/
def addPeer (a peer : T) (aliasName : String) (s : Peers T) : Peers T :=
  let n := if aliasName = "" then name peer else aliasName
  if s.hasPeer a n then s
  else
    { s with
      taskMap := Function.update s.taskMap a
        ((s.taskMap a).orderedInsert (fun x y => x.1 ≤ y.1) (n, peer))
      musers := Function.update s.musers peer (s.musers peer ++ [a]) }

def removePeerNamed (a : T) (n : String) (s : Peers T) : Peers T :=
  match (s.taskMap a).find? fun e => e.1 = n with
  | none => s
  | some e => s.unlink a e.2 ((s.taskMap a).eraseP fun e => e.1 = n)

/-- The first alias of the peer goes. -/
def removePeer (a peer : T) (s : Peers T) : Peers T :=
  if (s.taskMap a).any fun e => e.2 = peer then
    s.unlink a peer ((s.taskMap a).eraseP fun e => e.2 = peer)
  else s

def connectPeers (a peer : T) (s : Peers T) : Peers T :=
  if s.hasPeer a (name peer) || s.hasPeer peer (name a) then s
  else (s.addPeer name a peer "").addPeer name peer a ""

def disconnectPeers (a : T) (n : String) (s : Peers T) : Peers T :=
  match (s.taskMap a).find? fun e => e.1 = n with
  | none => s
  | some e => (s.removePeer a e.2).removePeer e.2 a

/-- The loop that removes `a` from all its users, for as long as the fuel lasts. -/
def releaseUsers (a : T) (fuel : ℕ) (s : Peers T) : Option (Peers T) :=
  match s.musers a with
  | [] => some s
  | u :: _ =>
    match fuel with
    | 0 => none
    | fuel + 1 => releaseUsers a fuel (s.removePeer u a)

/-- The loop over the map of `a`. -/
def releasePeers (a : T) (fuel : ℕ) (s : Peers T) : Option (Peers T) :=
  match s.taskMap a with
  | [] => some s
  | e :: rest =>
    match fuel with
    | 0 => none
    | fuel + 1 => releasePeers a fuel (s.unlink a e.2 rest)

/-- The part of `disconnect` that is about peers. -/
def disconnect (a : T) (fuel : ℕ) (s : Peers T) : Option (Peers T) :=
  (s.releaseUsers a fuel).bind (releasePeers a fuel)

def destruct (a : T) (fuel : ℕ) (s : Peers T) : Option (Peers T) :=
  (s.disconnect a fuel).map fun s => { s with alive := Function.update s.alive a false }

/-- Nothing is done with tasks that do not live. -/
def step (fuel : ℕ) (s : Peers T) (act : Action T) : Option (Peers T) :=
  match act with
  | .construct a =>
    if s.alive a then some s else some { s with alive := Function.update s.alive a true }
  | .addPeer a p n => if s.alive a && s.alive p then some (s.addPeer name a p n) else some s
  | .removePeerNamed a n => if s.alive a then some (s.removePeerNamed a n) else some s
  | .removePeer a p => if s.alive a && s.alive p then some (s.removePeer a p) else some s
  | .connectPeers a p => if s.alive a && s.alive p then some (s.connectPeers name a p) else some s
  | .disconnectPeers a n => if s.alive a then some (s.disconnectPeers a n) else some s
  | .disconnect a => if s.alive a then s.disconnect a fuel else some s
  | .destruct a => if s.alive a then s.destruct a fuel else some s

def run (fuel : ℕ) (acts : List (Action T)) (s : Peers T) : Option (Peers T) :=
  match acts with
  | [] => some s
  | act :: acts => (s.step name fuel act).bind (run fuel acts)

/-- The number of aliases that `a` has for `b`. -/
def aliases (s : Peers T) (a b : T) : ℕ := (s.taskMap a).countP fun e => e.2 = b

/-- Both sides agree, and a task that does not live has no part in the relation. -/
structure Consistent (s : Peers T) : Prop where
  counts : ∀ a b, (s.musers b).count a = s.aliases a b
  dead : ∀ a, s.alive a = false → s.musers a = [] ∧ s.taskMap a = []

theorem consistent_start : (start : Peers T).Consistent where
  counts := fun _ _ => rfl
  dead := fun _ _ => ⟨rfl, rfl⟩

variable {s : Peers T}

/-- Both sides lose one. -/
theorem Consistent.unlink (h : s.Consistent) {a p : T} {n : String} {rest : List (String × T)}
    (hp : (s.taskMap a).Perm ((n, p) :: rest)) : (s.unlink a p rest).Consistent where
  counts := by
    intro c d
    have hcount := h.counts c d
    have hold := hp.countP_eq fun e => e.2 = d
    simp only [Peers.unlink, aliases] at hcount ⊢
    by_cases hd : d = p <;> by_cases hc : c = a
    · subst hd hc
      simp only [Function.update_self, List.count_erase_self, hcount, hold]
      simp
    · subst hd
      simp only [Function.update_self, Function.update_of_ne hc, hcount,
        List.count_erase_of_ne hc]
    · subst hc
      simp only [Function.update_self, Function.update_of_ne hd, hcount, hold]
      simp [Ne.symm hd]
    · simp only [Function.update_of_ne hd, Function.update_of_ne hc, hcount]
  dead := by
    intro c hc
    obtain ⟨hm, ht⟩ := h.dead c hc
    have hca : c ≠ a := by
      rintro rfl
      rw [ht] at hp
      exact absurd hp.length_eq (by simp)
    constructor
    · simp only [Peers.unlink]
      by_cases hcp : c = p
      · subst hcp
        simp [hm]
      · rwa [Function.update_of_ne hcp]
    · simpa [Peers.unlink, Function.update_of_ne hca] using ht

/-- Both sides gain one. -/
theorem Consistent.addPeer (h : s.Consistent) {a p : T} (n : String) (ha : s.alive a)
    (hp : s.alive p) : (s.addPeer name a p n).Consistent := by
  unfold Peers.addPeer
  simp only
  generalize (if n = "" then name p else n) = m
  split
  · exact h
  · constructor
    · intro c d
      have hcount := h.counts c d
      simp only [aliases] at hcount ⊢
      by_cases hd : d = p <;> by_cases hc : c = a
      · subst hd hc
        rw [Function.update_self, Function.update_self,
          (List.perm_orderedInsert _ _ _).countP_eq]
        simp [hcount]
      · subst hd
        rw [Function.update_self, Function.update_of_ne hc, List.count_append,
          List.count_singleton, hcount]
        simp [Ne.symm hc]
      · subst hc
        rw [Function.update_self, Function.update_of_ne hd,
          (List.perm_orderedInsert _ _ _).countP_eq, hcount]
        simp [Ne.symm hd]
      · rw [Function.update_of_ne hd, Function.update_of_ne hc, hcount]
    · intro c hc
      have hca : c ≠ a := by
        rintro rfl
        exact absurd (hc.symm.trans ha) (by decide)
      have hcp : c ≠ p := by
        rintro rfl
        exact absurd (hc.symm.trans hp) (by decide)
      simpa [Function.update_of_ne hca, Function.update_of_ne hcp] using h.dead c hc

theorem Consistent.removePeerNamed (h : s.Consistent) (a : T) (n : String) :
    (s.removePeerNamed a n).Consistent := by
  unfold Peers.removePeerNamed
  split
  · exact h
  · next e he => exact h.unlink (perm_eraseP he)

theorem find_of_any {p : T} {l : List (String × T)} (h : l.any fun e => e.2 = p) :
    ∃ n, (l.find? fun e => e.2 = p) = some (n, p) := by
  obtain ⟨e, he, hp⟩ := List.any_eq_true.mp h
  cases hf : l.find? fun e => e.2 = p with
  | none => exact absurd hp (by simpa using List.find?_eq_none.mp hf e he)
  | some e' =>
    have hp' : e'.2 = p := by simpa using List.find?_some hf
    exact ⟨e'.1, by rw [← hp']⟩

theorem Consistent.removePeer (h : s.Consistent) (a p : T) : (s.removePeer a p).Consistent := by
  unfold Peers.removePeer
  split
  · next hany =>
    obtain ⟨n, hn⟩ := find_of_any hany
    exact h.unlink (perm_eraseP hn)
  · exact h

theorem alive_addPeer {a p : T} {n : String} : (s.addPeer name a p n).alive = s.alive := by
  unfold Peers.addPeer
  simp only
  generalize (if n = "" then name p else n) = m
  split <;> rfl

theorem alive_removePeer {a p : T} : (s.removePeer a p).alive = s.alive := by
  unfold Peers.removePeer
  split <;> rfl

theorem Consistent.connectPeers (h : s.Consistent) {a p : T} (ha : s.alive a) (hp : s.alive p) :
    (s.connectPeers name a p).Consistent := by
  unfold Peers.connectPeers
  split
  · exact h
  · exact (h.addPeer name "" ha hp).addPeer name "" (by rwa [alive_addPeer])
      (by rwa [alive_addPeer])

theorem Consistent.disconnectPeers (h : s.Consistent) (a : T) (n : String) :
    (s.disconnectPeers a n).Consistent := by
  unfold Peers.disconnectPeers
  split
  · exact h
  · exact (h.removePeer _ _).removePeer _ _

/-! ## The loops -/

/-- A user has an alias, so that a turn of the loop takes it from the list. -/
theorem musers_removePeer (h : s.Consistent) {a u : T} {us : List T} (hu : s.musers a = u :: us) :
    (s.removePeer u a).musers a = us := by
  have hpos : 0 < s.aliases u a := by
    rw [← h.counts u a, hu]
    simp
  have hany : (s.taskMap u).any fun e => e.2 = a := by
    obtain ⟨e, he, heq⟩ := List.countP_pos_iff.mp hpos
    exact List.any_eq_true.mpr ⟨e, he, heq⟩
  simp [Peers.removePeer, hany, Peers.unlink, hu]

/-- The loop ends, with the same state for all fuel that suffices. -/
theorem releaseUsers_spec (a : T) : ∀ (us : List T) (s : Peers T), s.Consistent →
    s.musers a = us → ∃ s', s'.Consistent ∧ s'.alive = s.alive ∧ s'.musers a = [] ∧
      ∀ fuel, us.length ≤ fuel → s.releaseUsers a fuel = some s' := by
  intro us
  induction us with
  | nil =>
    intro s h hu
    refine ⟨s, h, rfl, hu, fun fuel _ => ?_⟩
    unfold releaseUsers
    rw [hu]
  | cons u us ih =>
    intro s h hu
    obtain ⟨s', hs', halive, hm, hr⟩ :=
      ih (s.removePeer u a) (h.removePeer u a) (musers_removePeer h hu)
    refine ⟨s', hs', halive.trans alive_removePeer, hm, fun fuel hf => ?_⟩
    match fuel, hf with
    | fuel + 1, hf =>
      unfold releaseUsers
      rw [hu]
      exact hr fuel (Nat.le_of_succ_le_succ hf)

/-- The users of others do not come back. -/
theorem releasePeers_spec (a : T) : ∀ (es : List (String × T)) (s : Peers T), s.Consistent →
    s.taskMap a = es → s.musers a = [] → ∃ s', s'.Consistent ∧ s'.alive = s.alive ∧
      s'.musers a = [] ∧ s'.taskMap a = [] ∧
        ∀ fuel, es.length ≤ fuel → s.releasePeers a fuel = some s' := by
  intro es
  induction es with
  | nil =>
    intro s h he hm
    refine ⟨s, h, rfl, hm, he, fun fuel _ => ?_⟩
    unfold releasePeers
    rw [he]
  | cons e es ih =>
    intro s h he hm
    have hc : (s.unlink a e.2 es).Consistent := h.unlink (n := e.1) (by rw [he])
    have hm' : (s.unlink a e.2 es).musers a = [] := by
      by_cases hea : a = e.2
      · simp [Peers.unlink, ← hea, hm]
      · simpa [Peers.unlink, Function.update_of_ne hea] using hm
    obtain ⟨s', hs', halive, hm, ht, hr⟩ := ih _ hc (by simp [Peers.unlink]) hm'
    refine ⟨s', hs', halive, hm, ht, fun fuel hf => ?_⟩
    match fuel, hf with
    | fuel + 1, hf =>
      unfold releasePeers
      rw [he]
      exact hr fuel (Nat.le_of_succ_le_succ hf)

theorem disconnect_spec (h : s.Consistent) (a : T) : ∃ s' bound, s'.Consistent ∧
    s'.alive = s.alive ∧ s'.musers a = [] ∧ s'.taskMap a = [] ∧
      ∀ fuel, bound ≤ fuel → s.disconnect a fuel = some s' := by
  obtain ⟨s₁, h₁, ha₁, hm₁, hr₁⟩ := releaseUsers_spec a (s.musers a) s h rfl
  obtain ⟨s₂, h₂, ha₂, hm₂, ht₂, hr₂⟩ := releasePeers_spec a (s₁.taskMap a) s₁ h₁ rfl hm₁
  refine ⟨s₂, max (s.musers a).length (s₁.taskMap a).length, h₂, ha₂.trans ha₁, hm₂, ht₂, ?_⟩
  intro fuel hf
  rw [disconnect, hr₁ fuel ((le_max_left _ _).trans hf)]
  exact hr₂ fuel ((le_max_right _ _).trans hf)

theorem Consistent.bury (h : s.Consistent) {a : T} (hm : s.musers a = []) (ht : s.taskMap a = []) :
    ({ s with alive := Function.update s.alive a false } : Peers T).Consistent where
  counts := h.counts
  dead := by
    intro c hc
    by_cases hca : c = a
    · subst hca
      exact ⟨hm, ht⟩
    · exact h.dead c (by simpa [Function.update_of_ne hca] using hc)

theorem Consistent.construct (h : s.Consistent) (a : T) :
    ({ s with alive := Function.update s.alive a true } : Peers T).Consistent where
  counts := h.counts
  dead := by
    intro c hc
    by_cases hca : c = a
    · subst hca
      simp at hc
    · exact h.dead c (by simpa [Function.update_of_ne hca] using hc)

/-- Every step ends, and keeps both sides in agreement. -/
theorem step_spec (h : s.Consistent) (act : Action T) : ∃ s' bound, s'.Consistent ∧
    ∀ fuel, bound ≤ fuel → s.step name fuel act = some s' := by
  have hskip : ∃ s' bound, s'.Consistent ∧ ∀ fuel, bound ≤ fuel → some s = some s' :=
    ⟨s, 0, h, fun _ _ => rfl⟩
  have hdone {s' : Peers T} (h' : s'.Consistent) :
      ∃ t bound, t.Consistent ∧ ∀ fuel, bound ≤ fuel → some s' = some t :=
    ⟨s', 0, h', fun _ _ => rfl⟩
  cases act with
  | construct a =>
    simp only [step]
    split
    · exact hskip
    · exact hdone (h.construct a)
  | addPeer a p n =>
    simp only [step]
    split
    · next hl =>
      rw [Bool.and_eq_true] at hl
      exact hdone (h.addPeer name n hl.1 hl.2)
    · exact hskip
  | removePeerNamed a n =>
    simp only [step]
    split
    · exact hdone (h.removePeerNamed a n)
    · exact hskip
  | removePeer a p =>
    simp only [step]
    split
    · exact hdone (h.removePeer a p)
    · exact hskip
  | connectPeers a p =>
    simp only [step]
    split
    · next hl =>
      rw [Bool.and_eq_true] at hl
      exact hdone (h.connectPeers name hl.1 hl.2)
    · exact hskip
  | disconnectPeers a n =>
    simp only [step]
    split
    · exact hdone (h.disconnectPeers a n)
    · exact hskip
  | disconnect a =>
    simp only [step]
    split
    · obtain ⟨s', bound, hs', -, -, -, hr⟩ := disconnect_spec h a
      exact ⟨s', bound, hs', hr⟩
    · exact hskip
  | destruct a =>
    simp only [step]
    split
    · obtain ⟨s', bound, hs', -, hm, ht, hr⟩ := disconnect_spec h a
      refine ⟨_, bound, hs'.bury hm ht, fun fuel hf => ?_⟩
      rw [destruct, hr fuel hf]
      rfl
    · exact hskip

theorem run_spec (acts : List (Action T)) (h : s.Consistent) : ∃ s' bound, s'.Consistent ∧
    ∀ fuel, bound ≤ fuel → run name fuel acts s = some s' := by
  induction acts generalizing s with
  | nil => exact ⟨s, 0, h, fun _ _ => rfl⟩
  | cons act acts ih =>
    obtain ⟨s₁, b₁, h₁, hr₁⟩ := step_spec name h act
    obtain ⟨s₂, b₂, h₂, hr₂⟩ := ih h₁
    refine ⟨s₂, max b₁ b₂, h₂, fun fuel hf => ?_⟩
    rw [run, hr₁ fuel ((le_max_left _ _).trans hf)]
    exact hr₂ fuel ((le_max_right _ _).trans hf)

/-- No task refers to one that does not live. -/
theorem Consistent.alive_of_mem (h : s.Consistent) {a : T} :
    (∀ e ∈ s.taskMap a, s.alive e.2) ∧ ∀ u ∈ s.musers a, s.alive u := by
  constructor
  · intro e he
    by_contra hd
    have hm := (h.dead e.2 (by simpa using hd)).1
    have hpos : 0 < s.aliases a e.2 := List.countP_pos_iff.mpr ⟨e, he, by simp⟩
    rw [← h.counts, hm] at hpos
    simp at hpos
  · intro u hu
    by_contra hd
    have ht := (h.dead u (by simpa using hd)).2
    have hpos : 0 < (s.musers a).count u := List.count_pos_iff.mpr hu
    rw [h.counts, aliases, ht] at hpos
    simp at hpos

/-- Whatever is done, all clean-up loops end, for any two living tasks the users of the one count the
aliases of the other, and no living task refers to a destroyed one. -/
theorem peers_agree (acts : List (Action T)) :
    ∃ s bound, (∀ fuel, bound ≤ fuel → run name fuel acts start = some s) ∧
      (∀ a b, s.alive a → s.alive b → (s.musers b).count a = s.aliases a b) ∧
      (∀ a, s.alive a → (∀ e ∈ s.taskMap a, s.alive e.2) ∧ ∀ u ∈ s.musers a, s.alive u) ∧
      ∀ a, ∃ s' bound', ∀ fuel, bound' ≤ fuel → s.disconnect a fuel = some s' := by
  obtain ⟨s, bound, h, hr⟩ := run_spec name acts consistent_start
  refine ⟨s, bound, hr, fun a b _ _ => h.counts a b, fun a _ => h.alive_of_mem, fun a => ?_⟩
  obtain ⟨s', bound', -, -, -, -, hd⟩ := disconnect_spec h a
  exact ⟨s', bound', hd⟩

end Peers

end OrocosRtt.Task
