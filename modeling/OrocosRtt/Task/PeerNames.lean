import OrocosRtt.Task.Peers
import Mathlib.Data.String.Basic

/-! Removing a peer by its name: which aliases still lead where they led before. -/
namespace OrocosRtt.Task.Peers

variable {T : Type}

/-! ### Entries with ascending keys -/

/-- The entries of a map are in the order of their keys, and no key comes twice. -/
def Ascending (l : List (String × T)) : Prop := (l.map Prod.fst).Pairwise (· < ·)

/-- The value of a key. -/
def entry (n : String) (l : List (String × T)) : Option T :=
  (l.find? fun e => e.1 = n).map Prod.snd

theorem entry_cons (n : String) (e : String × T) (l : List (String × T)) :
    entry n (e :: l) = if e.1 = n then some e.2 else entry n l := by
  unfold entry
  by_cases h : e.1 = n <;> simp [h]

theorem Ascending.of_sublist {l l' : List (String × T)} (h : Ascending l) (hsub : l'.Sublist l) :
    Ascending l' :=
  List.Pairwise.sublist (hsub.map Prod.fst) h

theorem ascending_cons {e : String × T} {l : List (String × T)} :
    Ascending (e :: l) ↔ (∀ e' ∈ l, e.1 < e'.1) ∧ Ascending l := by
  simp [Ascending, List.pairwise_cons]

theorem entry_none {n : String} {l : List (String × T)} (h : ∀ e ∈ l, e.1 ≠ n) :
    entry n l = none := by
  rw [entry, Option.map_eq_none_iff, List.find?_eq_none]
  intro e he
  simpa using h e he

theorem mem_of_entry {n : String} {p : T} {l : List (String × T)} (h : entry n l = some p) :
    (n, p) ∈ l := by
  rw [entry, Option.map_eq_some_iff] at h
  obtain ⟨e, he, rfl⟩ := h
  have hn : e.1 = n := by simpa using List.find?_some he
  rw [← hn]
  exact List.mem_of_find?_eq_some he

/-- Removing an entry by its key leaves all others. -/
theorem Ascending.entry_erase {l : List (String × T)} (h : Ascending l) (n m : String) :
    entry m (l.eraseP fun e => e.1 = n) = if m = n then none else entry m l := by
  induction l with
  | nil => simp [entry]
  | cons e l ih =>
    obtain ⟨hlt, htail⟩ := ascending_cons.mp h
    by_cases hn : e.1 = n
    · rw [List.eraseP_cons_of_pos (by simpa using hn)]
      by_cases hm : m = n
      · rw [if_pos hm]
        exact entry_none fun e' he' => by rw [hm, ← hn]; exact ne_of_gt (hlt e' he')
      · rw [if_neg hm, entry_cons, if_neg fun he => hm (he.symm.trans hn)]
    · rw [List.eraseP_cons_of_neg (by simpa using hn), entry_cons, entry_cons, ih htail]
      by_cases hm : m = n
      · rw [if_pos hm, if_neg (hm ▸ hn), if_pos hm]
      · rw [if_neg hm, if_neg hm]

theorem Ascending.insert {l : List (String × T)} (h : Ascending l) {n : String} (p : T)
    (hnew : ∀ e ∈ l, e.1 ≠ n) :
    Ascending (l.orderedInsert (fun x y => x.1 ≤ y.1) (n, p)) := by
  induction l with
  | nil => simp [Ascending]
  | cons e l ih =>
    obtain ⟨hlt, htail⟩ := ascending_cons.mp h
    rw [List.orderedInsert_cons]
    by_cases hle : n ≤ e.1
    · rw [if_pos hle, ascending_cons]
      have hn : n < e.1 := lt_of_le_of_ne hle fun he => hnew e List.mem_cons_self he.symm
      refine ⟨fun e' he' => ?_, h⟩
      rcases List.mem_cons.mp he' with rfl | he'
      · exact hn
      · exact hn.trans (hlt e' he')
    · rw [if_neg hle, ascending_cons]
      refine ⟨fun e' he' => ?_, ih htail fun e' he' => hnew e' (List.mem_cons_of_mem e he')⟩
      rcases (List.mem_orderedInsert _).mp he' with rfl | he'
      · exact lt_of_not_ge hle
      · exact hlt e' he'

variable [DecidableEq T]

/-- The first key that has this value. -/
def firstKey (p : T) (l : List (String × T)) : Option String :=
  (l.find? fun e => e.2 = p).map Prod.fst

theorem firstKey_none {p : T} {l : List (String × T)} (h : firstKey p l = none) (n : String) :
    entry n l ≠ some p := by
  intro hn
  rw [firstKey, Option.map_eq_none_iff, List.find?_eq_none] at h
  simpa using h (n, p) (mem_of_entry hn)

/-- The first key of a value is that of an entry, and no later than any other. -/
theorem Ascending.firstKey_spec {l : List (String × T)} (h : Ascending l) {p : T} {n : String}
    (hn : firstKey p l = some n) :
    entry n l = some p ∧ (∀ m, entry m l = some p → n ≤ m) ∧
      (l.eraseP fun e => e.2 = p) = l.eraseP fun e => e.1 = n := by
  induction l with
  | nil => simp [firstKey] at hn
  | cons e l ih =>
    obtain ⟨hlt, htail⟩ := ascending_cons.mp h
    by_cases hp : e.2 = p
    · have hkey : e.1 = n := by simpa [firstKey, hp] using hn
      refine ⟨by rw [entry_cons, if_pos hkey, hp], fun m hm => ?_, ?_⟩
      · rcases List.mem_cons.mp (mem_of_entry hm) with heq | hmem
        · exact le_of_eq (hkey.symm.trans (congrArg Prod.fst heq).symm)
        · exact hkey ▸ le_of_lt (hlt _ hmem)
      · rw [List.eraseP_cons_of_pos (by simpa using hp),
          List.eraseP_cons_of_pos (by simpa using hkey)]
    · have hn' : firstKey p l = some n := by simpa [firstKey, hp] using hn
      obtain ⟨hget, hle, herase⟩ := ih htail hn'
      have hkey : e.1 ≠ n := ne_of_lt (hlt _ (mem_of_entry hget))
      refine ⟨by rw [entry_cons, if_neg hkey, hget], fun m hm => ?_, ?_⟩
      · rw [entry_cons] at hm
        by_cases hem : e.1 = m
        · rw [if_pos hem] at hm
          exact absurd (Option.some.inj hm) hp
        · rw [if_neg hem] at hm
          exact hle m hm
      · rw [List.eraseP_cons_of_neg (by simpa using hp),
          List.eraseP_cons_of_neg (by simpa using hkey), herase]

/-! ### The maps of all tasks -/

/-- `TaskContext::getPeer` -/
def getPeer (a : T) (n : String) (s : Peers T) : Option T :=
  if s.hasPeer a n then ((s.taskMap a).find? fun e => e.1 = n).map Prod.snd else none

/-- The map of each task is in the order of the aliases. -/
def Ordered (s : Peers T) : Prop := ∀ a, Ascending (s.taskMap a)

variable {s : Peers T}

omit [DecidableEq T] in
theorem hasPeer_eq (s : Peers T) (a : T) (n : String) :
    s.hasPeer a n = (entry n (s.taskMap a)).isSome := by
  rw [Bool.eq_iff_iff, hasPeer, entry, Option.isSome_map, List.any_eq_true, List.find?_isSome]

omit [DecidableEq T] in
theorem getPeer_eq (s : Peers T) (a : T) (n : String) :
    s.getPeer a n = entry n (s.taskMap a) := by
  rw [getPeer, hasPeer_eq]
  cases h : entry n (s.taskMap a) with
  | none => rfl
  | some p => exact h

omit [DecidableEq T] in
theorem ordered_start : (start : Peers T).Ordered := fun _ => List.Pairwise.nil

theorem Ordered.unlink (h : s.Ordered) {a : T} (p : T) {rest : List (String × T)}
    (hsub : rest.Sublist (s.taskMap a)) : (s.unlink a p rest).Ordered := by
  intro b
  dsimp only [Peers.unlink]
  by_cases hb : b = a
  · subst hb
    rw [Function.update_self]
    exact (h b).of_sublist hsub
  · rw [Function.update_of_ne hb]
    exact h b

theorem Ordered.addPeer (h : s.Ordered) (name : T → String) (a p : T) (n : String) :
    (s.addPeer name a p n).Ordered := by
  unfold Peers.addPeer
  dsimp only
  generalize (if n = "" then name p else n) = m
  by_cases hhas : s.hasPeer a m = true
  · rw [if_pos hhas]
    exact h
  · rw [if_neg hhas]
    intro b
    by_cases hb : b = a
    · subst hb
      dsimp only
      rw [Function.update_self]
      refine (h b).insert p fun e he hem => hhas ?_
      exact List.any_eq_true.mpr ⟨e, he, by simpa using hem⟩
    · dsimp only
      rw [Function.update_of_ne hb]
      exact h b

theorem Ordered.removePeerNamed (h : s.Ordered) (a : T) (n : String) :
    (s.removePeerNamed a n).Ordered := by
  unfold Peers.removePeerNamed
  cases (s.taskMap a).find? fun e => e.1 = n with
  | none => exact h
  | some e => exact h.unlink e.2 List.eraseP_sublist

theorem Ordered.removePeer (h : s.Ordered) (a p : T) : (s.removePeer a p).Ordered := by
  unfold Peers.removePeer
  by_cases hany : ((s.taskMap a).any fun e => e.2 = p) = true
  · rw [if_pos hany]
    exact h.unlink p List.eraseP_sublist
  · rw [if_neg hany]
    exact h

theorem Ordered.connectPeers (h : s.Ordered) (name : T → String) (a p : T) :
    (s.connectPeers name a p).Ordered := by
  unfold Peers.connectPeers
  by_cases hhas : (s.hasPeer a (name p) || s.hasPeer p (name a)) = true
  · rw [if_pos hhas]
    exact h
  · rw [if_neg hhas]
    exact (h.addPeer name a p "").addPeer name p a ""

theorem Ordered.disconnectPeers (h : s.Ordered) (a : T) (n : String) :
    (s.disconnectPeers a n).Ordered := by
  unfold Peers.disconnectPeers
  cases (s.taskMap a).find? fun e => e.1 = n with
  | none => exact h
  | some e => exact (h.removePeer a e.2).removePeer e.2 a

theorem Ordered.releaseUsers {a : T} {fuel : ℕ} {s s' : Peers T} (h : s.Ordered)
    (hr : s.releaseUsers a fuel = some s') : s'.Ordered := by
  induction fuel generalizing s with
  | zero =>
    unfold Peers.releaseUsers at hr
    cases hu : s.musers a with
    | nil =>
      rw [hu] at hr
      exact Option.some.inj hr ▸ h
    | cons u us => simp [hu] at hr
  | succ fuel ih =>
    unfold Peers.releaseUsers at hr
    cases hu : s.musers a with
    | nil =>
      rw [hu] at hr
      exact Option.some.inj hr ▸ h
    | cons u us =>
      rw [hu] at hr
      exact ih (h.removePeer u a) hr

theorem Ordered.releasePeers {a : T} {fuel : ℕ} {s s' : Peers T} (h : s.Ordered)
    (hr : s.releasePeers a fuel = some s') : s'.Ordered := by
  induction fuel generalizing s with
  | zero =>
    unfold Peers.releasePeers at hr
    cases ht : s.taskMap a with
    | nil =>
      rw [ht] at hr
      exact Option.some.inj hr ▸ h
    | cons e rest => simp [ht] at hr
  | succ fuel ih =>
    unfold Peers.releasePeers at hr
    cases ht : s.taskMap a with
    | nil =>
      rw [ht] at hr
      exact Option.some.inj hr ▸ h
    | cons e rest =>
      rw [ht] at hr
      exact ih (h.unlink e.2 (ht ▸ List.sublist_cons_self e rest)) hr

theorem Ordered.disconnect {a : T} {fuel : ℕ} {s' : Peers T} (h : s.Ordered)
    (hd : s.disconnect a fuel = some s') : s'.Ordered := by
  rw [Peers.disconnect, Option.bind_eq_some_iff] at hd
  obtain ⟨s₁, hr₁, hr₂⟩ := hd
  exact (h.releaseUsers hr₁).releasePeers hr₂

theorem Ordered.step {name : T → String} {fuel : ℕ} {act : Action T} {s' : Peers T}
    (h : s.Ordered) (hs : s.step name fuel act = some s') : s'.Ordered := by
  have hkeep {c : Bool} {t : Peers T} (ht : t.Ordered)
      (hst : (if c then some t else some s) = some s') : s'.Ordered := by
    cases c with
    | true => exact Option.some.inj hst ▸ ht
    | false => exact Option.some.inj hst ▸ h
  cases act with
  | construct a =>
    rw [Peers.step] at hs
    by_cases ha : s.alive a = true
    · rw [if_pos ha] at hs
      exact Option.some.inj hs ▸ h
    · rw [if_neg ha] at hs
      exact Option.some.inj hs ▸ h
  | addPeer a p n => exact hkeep (h.addPeer name a p n) hs
  | removePeerNamed a n => exact hkeep (h.removePeerNamed a n) hs
  | removePeer a p => exact hkeep (h.removePeer a p) hs
  | connectPeers a p => exact hkeep (h.connectPeers name a p) hs
  | disconnectPeers a n => exact hkeep (h.disconnectPeers a n) hs
  | disconnect a =>
    rw [Peers.step] at hs
    by_cases ha : s.alive a = true
    · rw [if_pos ha] at hs
      exact h.disconnect hs
    · rw [if_neg ha] at hs
      exact Option.some.inj hs ▸ h
  | destruct a =>
    rw [Peers.step] at hs
    by_cases ha : s.alive a = true
    · rw [if_pos ha, destruct, Option.map_eq_some_iff] at hs
      obtain ⟨t, hd, rfl⟩ := hs
      have ht : t.Ordered := h.disconnect hd
      exact ht
    · rw [if_neg ha] at hs
      exact Option.some.inj hs ▸ h

theorem Ordered.run {name : T → String} {fuel : ℕ} {acts : List (Action T)} {s s' : Peers T}
    (h : s.Ordered) (hr : Peers.run name fuel acts s = some s') : s'.Ordered := by
  induction acts generalizing s with
  | nil => exact Option.some.inj hr ▸ h
  | cons act acts ih =>
    rw [Peers.run, Option.bind_eq_some_iff] at hr
    obtain ⟨t, ht, hr⟩ := hr
    exact ih (h.step ht) hr

/-! ### What is removed -/

/-- The alias `n` of `a` is gone and the others lead where they led, and of the aliases of the other
tasks at most some of the peer for `a` are gone. -/
structure RemovedOnly (s s' : Peers T) (a : T) (n : String) : Prop where
  gone : s'.hasPeer a n = false
  kept : ∀ m, m ≠ n → s'.getPeer a m = s.getPeer a m
  others : ∀ b m, b ≠ a → s'.getPeer b m = s.getPeer b m ∨
    (s.getPeer a n = some b ∧ s.getPeer b m = some a ∧ s'.getPeer b m = none)

/-- The alias is the first one that `a` has for the peer, and the only one if the peer is `a`. -/
def FirstAlias (s : Peers T) (a : T) (n : String) : Prop :=
  ∀ p, s.getPeer a n = some p → ∀ m, s.getPeer a m = some p → m = n ∨ (n < m ∧ p ≠ a)

/-- One alias of `a` is gone, and nothing else. -/
theorem Ordered.getPeer_removePeerNamed (h : s.Ordered) (a b : T) (n m : String) :
    (s.removePeerNamed a n).getPeer b m = if b = a ∧ m = n then none else s.getPeer b m := by
  rw [getPeer_eq, getPeer_eq]
  unfold Peers.removePeerNamed
  cases hf : (s.taskMap a).find? fun e => e.1 = n with
  | none =>
    dsimp only
    by_cases hbm : b = a ∧ m = n
    · obtain ⟨rfl, rfl⟩ := hbm
      rw [if_pos ⟨rfl, rfl⟩, entry, hf]
      rfl
    · rw [if_neg hbm]
  | some e =>
    dsimp only [Peers.unlink]
    by_cases hb : b = a
    · subst hb
      rw [Function.update_self, (h b).entry_erase]
      simp
    · rw [Function.update_of_ne hb, if_neg fun hbm => hb hbm.1]

/-- Removing a peer removes its first alias. -/
theorem Ordered.removePeer_eq (h : s.Ordered) {a p : T} {n : String}
    (hn : firstKey p (s.taskMap a) = some n) : s.removePeer a p = s.removePeerNamed a n := by
  obtain ⟨hget, -, herase⟩ := (h a).firstKey_spec hn
  have hmem := mem_of_entry hget
  have hany : ((s.taskMap a).any fun e => e.2 = p) = true :=
    List.any_eq_true.mpr ⟨(n, p), hmem, by simp⟩
  rw [entry, Option.map_eq_some_iff] at hget
  obtain ⟨e, he, rfl⟩ := hget
  rw [Peers.removePeer, if_pos hany, herase, Peers.removePeerNamed, he]

theorem removePeer_of_none {a p : T} (hn : firstKey p (s.taskMap a) = none) :
    s.removePeer a p = s := by
  rw [Peers.removePeer, if_neg]
  intro hany
  obtain ⟨e, he, hp⟩ := List.any_eq_true.mp hany
  rw [firstKey, Option.map_eq_none_iff, List.find?_eq_none] at hn
  exact hn e he hp

/-- The same for the entry that is found by its peer. -/
theorem Ordered.getPeer_removePeer (h : s.Ordered) (a p b : T) (m : String) :
    (s.removePeer a p).getPeer b m =
      if b = a ∧ firstKey p (s.taskMap a) = some m then none else s.getPeer b m := by
  cases hn : firstKey p (s.taskMap a) with
  | none => rw [removePeer_of_none hn, if_neg (by simp)]
  | some n =>
    rw [h.removePeer_eq hn, h.getPeer_removePeerNamed]
    simp only [Option.some.injEq, eq_comm]

theorem disconnectPeers_of_none {a : T} {n : String} (hn : s.getPeer a n = none) :
    s.disconnectPeers a n = s := by
  rw [getPeer_eq, entry, Option.map_eq_none_iff] at hn
  rw [Peers.disconnectPeers, hn]

theorem disconnectPeers_of_some {a p : T} {n : String} (hn : s.getPeer a n = some p) :
    s.disconnectPeers a n = (s.removePeer a p).removePeer p a := by
  rw [getPeer_eq, entry, Option.map_eq_some_iff] at hn
  obtain ⟨e, he, rfl⟩ := hn
  rw [Peers.disconnectPeers, he]

omit [DecidableEq T] in
theorem hasPeer_false_iff (s : Peers T) (a : T) (n : String) :
    s.hasPeer a n = false ↔ s.getPeer a n = none := by
  rw [hasPeer_eq, getPeer_eq, Option.isSome_eq_false_iff, Option.isNone_iff_eq_none]

/-- `removePeer` with a name removes what it is called for. -/
theorem Ordered.removed_named (h : s.Ordered) (a : T) (n : String) :
    RemovedOnly s (s.removePeerNamed a n) a n where
  gone := by rw [hasPeer_false_iff, h.getPeer_removePeerNamed, if_pos ⟨rfl, rfl⟩]
  kept := fun m hm => by rw [h.getPeer_removePeerNamed, if_neg fun hbm => hm hbm.2]
  others := fun b m hb => .inl (by rw [h.getPeer_removePeerNamed, if_neg fun hbm => hb hbm.1])

/-- What is left when the first alias for the peer was removed, and the first of the peer for this
task after it. -/
theorem Ordered.getPeer_disconnectPeers (h : s.Ordered) {a p : T} {n k : String}
    (hn : s.getPeer a n = some p) (hk : firstKey p (s.taskMap a) = some k) (b : T) (m : String) :
    (s.disconnectPeers a n).getPeer b m =
      if b = p ∧ firstKey a ((s.removePeer a p).taskMap p) = some m then none
      else if b = a ∧ m = k then none else s.getPeer b m := by
  rw [disconnectPeers_of_some hn, (h.removePeer a p).getPeer_removePeer, h.getPeer_removePeer, hk]
  simp only [Option.some.injEq, eq_comm]

/-- The first alias for the peer is gone. -/
theorem Ordered.disconnectPeers_first (h : s.Ordered) {a p : T} {n k : String}
    (hn : s.getPeer a n = some p) (hk : firstKey p (s.taskMap a) = some k) :
    (s.disconnectPeers a n).getPeer a k = none := by
  have hrest : (if a = a ∧ k = k then none else s.getPeer a k) = none := if_pos ⟨rfl, rfl⟩
  rw [h.getPeer_disconnectPeers hn hk, hrest, ite_self]

theorem firstKey_of_getPeer {a p : T} {n : String} (hn : s.getPeer a n = some p) :
    ∃ k, firstKey p (s.taskMap a) = some k := by
  cases hk : firstKey p (s.taskMap a) with
  | some k => exact ⟨k, rfl⟩
  | none =>
    rw [getPeer_eq] at hn
    exact absurd hn (firstKey_none hk n)

/-- An alias that is still there after another was removed was there before. -/
theorem Ordered.firstKey_removePeer (h : s.Ordered) {a p b q : T} {m : String}
    (hm : firstKey q ((s.removePeer a p).taskMap b) = some m) :
    s.getPeer b m = some q ∧ ¬ (b = a ∧ firstKey p (s.taskMap a) = some m) := by
  have hget := ((h.removePeer a p) b).firstKey_spec hm |>.1
  rw [← getPeer_eq, h.getPeer_removePeer] at hget
  by_cases hgone : b = a ∧ firstKey p (s.taskMap a) = some m
  · rw [if_pos hgone] at hget
    cases hget
  · rw [if_neg hgone] at hget
    exact ⟨hget, hgone⟩

theorem Ordered.firstAlias_of_removed (h : s.Ordered) {a : T} {n : String}
    (hr : RemovedOnly s (s.disconnectPeers a n) a n) : FirstAlias s a n := by
  intro p hp m hm
  obtain ⟨k, hk⟩ := firstKey_of_getPeer hp
  obtain ⟨hget, hle, -⟩ := (h a).firstKey_spec hk
  rw [← getPeer_eq] at hget
  have hkn : k = n := by
    by_contra hne
    have hkept := hr.kept k hne
    rw [h.disconnectPeers_first hp hk, hget] at hkept
    cases hkept
  subst hkn
  by_cases hmk : m = k
  · exact .inl hmk
  · refine .inr ⟨lt_of_le_of_ne (hle m (by rwa [← getPeer_eq])) (Ne.symm hmk), ?_⟩
    rintro rfl
    -- the second search finds another alias that this task has for itself
    have hstill : (s.removePeer p p).getPeer p m = some p := by
      rw [h.getPeer_removePeer, if_neg fun hgone => hmk (Option.some.inj (hk ▸ hgone.2)).symm, hm]
    obtain ⟨k', hk'⟩ := firstKey_of_getPeer hstill
    obtain ⟨hget', hother⟩ := h.firstKey_removePeer hk'
    have hne : k' ≠ k := fun he => hother ⟨rfl, he ▸ hk⟩
    have hkept := hr.kept k' hne
    rw [h.getPeer_disconnectPeers hp hk, hget', if_pos ⟨rfl, hk'⟩] at hkept
    cases hkept

theorem Ordered.removed_of_firstAlias (h : s.Ordered) {a : T} {n : String}
    (hfirst : FirstAlias s a n) : RemovedOnly s (s.disconnectPeers a n) a n := by
  cases hn : s.getPeer a n with
  | none =>
    rw [disconnectPeers_of_none hn]
    exact ⟨(hasPeer_false_iff s a n).mpr hn, fun _ _ => rfl, fun _ _ _ => .inl rfl⟩
  | some p =>
    obtain ⟨k, hk⟩ := firstKey_of_getPeer hn
    obtain ⟨hget, hle, -⟩ := (h a).firstKey_spec hk
    rw [← getPeer_eq] at hget
    obtain rfl : k = n := by
      rcases hfirst p hn k hget with heq | ⟨hlt, -⟩
      · exact heq
      · exact absurd (hle n (by rwa [← getPeer_eq])) (not_le_of_gt hlt)
    constructor
    · rw [hasPeer_false_iff, h.disconnectPeers_first hn hk]
    · intro m hm
      rw [h.getPeer_disconnectPeers hn hk, if_neg, if_neg fun hak => hm hak.2]
      rintro ⟨rfl, hself⟩
      rcases hfirst a hn m (h.firstKey_removePeer hself).1 with heq | ⟨-, hne⟩
      · exact hm heq
      · exact hne rfl
    · intro b m hb
      rw [h.getPeer_disconnectPeers hn hk]
      by_cases hback : b = p ∧ firstKey a ((s.removePeer a p).taskMap p) = some m
      · obtain ⟨rfl, hm⟩ := hback
        exact .inr ⟨hn, (h.firstKey_removePeer hm).1, if_pos ⟨rfl, hm⟩⟩
      · rw [if_neg hback, if_neg fun hak => hb hak.1]
        exact .inl rfl

/-- In every network that is reached, `removePeer` removes the alias it is called with and nothing
else, and `disconnectPeers` does so exactly when it is the first alias for that peer. -/
theorem relation_removed_iff (name : T → String) (acts : List (Action T)) :
    ∃ s bound, (∀ fuel, bound ≤ fuel → run name fuel acts start = some s) ∧
      ∀ a n, RemovedOnly s (s.removePeerNamed a n) a n ∧
        (∀ b, b ≠ a → (s.removePeerNamed a n).taskMap b = s.taskMap b) ∧
        (RemovedOnly s (s.disconnectPeers a n) a n ↔ FirstAlias s a n) := by
  obtain ⟨s, bound, -, hr⟩ := run_spec name acts consistent_start
  have h : s.Ordered := ordered_start.run (hr bound (Nat.le_refl _))
  refine ⟨s, bound, hr, fun a n => ⟨h.removed_named a n, fun b hb => ?_,
    h.firstAlias_of_removed, h.removed_of_firstAlias⟩⟩
  unfold Peers.removePeerNamed
  cases (s.taskMap a).find? fun e => e.1 = n with
  | none => rfl
  | some e => exact Function.update_of_ne hb _ _

/-- A task has the aliases `a` and `b` for another one, and disconnects `b`. -/
theorem other_alias_removed : ∃ s, run (fun _ : Bool => "") 0
      [.construct true, .construct false, .addPeer true false "a", .addPeer true false "b"] start =
        some s ∧
    s.getPeer true "a" = some false ∧ (s.disconnectPeers true "b").hasPeer true "b" = true ∧
      (s.disconnectPeers true "b").getPeer true "a" = none := by
  refine ⟨_, rfl, ?_⟩
  decide

end OrocosRtt.Task.Peers
