import OrocosRtt.Os.Timer

/-! The slots of a timer object follow what happened to its timers, in the runs in which nothing
falls between the selection of a timer and its timeout. -/
namespace OrocosRtt.Os.Timer

open Alarms

variable {τ : Type} [DecidableEq τ]

/-- A section of a call: the timer exists, it is not armed for time zero, and it is not the one
whose `timeout` is about to be called. -/
def Call.clear (s : State τ) : Call → Prop
  | .write id start wait _ => id < s.mtimers.length ∧ 0 < start + wait ∧ s.place ≠ .call id
  | .killTimer id => id ≠ s.mtimers.length ∧ s.place ≠ .call id.toNat
  | .setMaxTimers max => ∀ id, s.place = .call id → id < max
  | _ => True

/-- When the loop takes the mutex again, the timer it selected is still armed and due. -/
def Clear (s : State τ) : Act τ → Prop
  | .loop => ∀ id, s.place = .reprogram id →
      ∃ t, s.mtimers[id]? = some t ∧ t.first ≠ 0 ∧ t.first ≤ s.clock
  | .call t => (s.calls t).clear s
  | _ => True

instance decidableClearLoop (s : State τ) : Decidable (Clear s .loop) :=
  match hp : s.place with
  | .reprogram id =>
    decidable_of_iff (∃ t ∈ s.mtimers[id]?, t.first ≠ 0 ∧ t.first ≤ s.clock)
      ⟨fun h _ hj => Place.reprogram.inj (hp.symm.trans hj) ▸ h, fun h => h id hp⟩
  | .select | .test _ _ | .wait _ | .call _ | .timeout _ =>
    .isTrue fun _ hj => nomatch hp.symm.trans hj

instance decidableCallClear (s : State τ) : ∀ k, Decidable (Call.clear s k)
  | .write _ _ _ _ => inferInstanceAs (Decidable (_ ∧ _ ∧ _))
  | .killTimer _ => inferInstanceAs (Decidable (_ ∧ _))
  | .setMaxTimers max =>
    match hp : s.place with
    | .call id =>
      decidable_of_iff (id < max)
        ⟨fun h _ hj => Place.call.inj (hp.symm.trans hj) ▸ h, fun h => h id hp⟩
    | .select | .test _ _ | .wait _ | .reprogram _ | .timeout _ =>
      .isTrue fun _ hj => nomatch hp.symm.trans hj
  | .idle | .startTimer _ _ | .arm _ _ | .readClock _ _ _ | .signal => .isTrue trivial

instance decidableClear (s : State τ) : ∀ a, Decidable (Clear s a)
  | .loop => decidableClearLoop s
  | .call t => decidableCallClear s (s.calls t)
  | .begins _ _ | .tick _ => .isTrue trivial

/-- The slot holds what the timer is armed for. -/
def Agrees : Option Arming → Option Slot → Prop
  | some a, some t => t.first = a.due ∧ t.second = a.period ∧ a.due ≠ 0
  | some _, none => False
  | none, some t => t.first = 0
  | none, none => True

/-- Between the second section of the loop and the call of `timeout` the slot is ahead. -/
structure Sync (s : State τ) : Prop where
  inside : s.outside = false
  legal : Legal s.log
  kept : ∀ i, s.place ≠ .call i → Agrees (pending i s.log) s.mtimers[i]?
  called : ∀ i, s.place = .call i →
    ∃ a, pending i s.log = some a ∧ a.due ≤ s.clock ∧ Agrees a.next s.mtimers[i]?

theorem Agrees.of_armed {p : Option Arming} {t : Slot} (h : Agrees p (some t))
    (ht : t.first ≠ 0) :
    ∃ a, p = some a ∧ t.first = a.due ∧ t.second = a.period := by
  cases p with
  | none => exact absurd h ht
  | some a => exact ⟨a, rfl, h.1, h.2.1⟩

theorem Agrees.of_pending {a : Arming} {o : Option Slot} (h : Agrees (some a) o) :
    ∃ t, o = some t ∧ t.first = a.due ∧ t.second = a.period ∧ t.first ≠ 0 := by
  cases o with
  | none => exact absurd h id
  | some t => exact ⟨t, rfl, h.1, h.2.1, by rw [h.1]; exact h.2.2⟩

/-- The slot of an expired timer and the timer go on alike. -/
theorem Agrees.next {a : Arming} {t : Slot} (h : Agrees (some a) (some t)) :
    Agrees a.next (some t.next) := by
  obtain ⟨hfirst, hsecond, hdue⟩ := h
  unfold Arming.next Slot.next
  by_cases hp : a.period = 0
  · rw [if_pos hp, if_neg (by rw [hsecond]; exact fun h => h hp)]
    rfl
  · rw [if_neg hp, if_pos (by rw [hsecond]; exact hp)]
    have hnext : ({ a with fired := a.fired + 1 } : Arming).due = a.due + a.period := by
      simp only [Arming.due, Nat.add_mul, Nat.one_mul]
      omega
    refine ⟨?_, hsecond, ?_⟩
    · rw [hnext, ← hfirst, ← hsecond]
    · rw [hnext]
      omega

omit [DecidableEq τ] in
theorem create_sync (n : ℕ) : Sync (create (τ := τ) n) where
  inside := rfl
  legal := trivial
  kept i _ := by
    show Agrees none (List.replicate n (⟨0, 0⟩ : Slot))[i]?
    rw [List.getElem?_replicate]
    by_cases hi : i < n
    · rw [if_pos hi]
      rfl
    · rw [if_neg hi]
      trivial
  called _ hp := by cases hp

omit [DecidableEq τ] in
/-- Time passes, or the loop or a call moves without a look at the slots. -/
theorem Sync.frame {s : State τ} (h : Sync s) {p : Place} {n c : ℕ} {f : τ → Call}
    (hp : ∀ i, p = .call i ↔ s.place = .call i) (hc : s.clock ≤ c) :
    Sync { s with place := p, sem := n, clock := c, calls := f } where
  inside := h.inside
  legal := h.legal
  kept i hi := h.kept i fun hs => hi ((hp i).mpr hs)
  called i hi := by
    obtain ⟨a, ha, hdue, hnext⟩ := h.called i ((hp i).mp hi)
    exact ⟨a, ha, Nat.le_trans hdue hc, hnext⟩

omit [DecidableEq τ] in
/-- A section under the mutex that changes the slots as the event `e` tells. -/
theorem Sync.edit {s : State τ} (h : Sync s) {e : Event} {l : List Slot} {f : τ → Call}
    (he : ∀ i, e.isTimeout i = false)
    (hcall : ∀ i, s.place = .call i → e.disturbs i = false)
    (hsame : ∀ i, e.disturbs i = false → ∀ p, Agrees p s.mtimers[i]? → Agrees p l[i]?)
    (hnew : ∀ i, e.disturbs i = true → Agrees (pending i (e :: s.log)) l[i]?) :
    Sync { s with mtimers := l, log := e :: s.log, calls := f } where
  inside := h.inside
  legal := by
    cases e with
    | timeout id now => exact absurd (he id) (by simp [Event.isTimeout])
    | armed | killed | resized => exact h.legal
  kept i hi := by
    cases hd : e.disturbs i with
    | true => exact hnew i hd
    | false =>
      have hkept := h.kept i hi
      rw [← pending_cons hd (he i) s.log] at hkept
      exact hsame i hd _ hkept
  called i hi := by
    obtain ⟨a, ha, hdue, hnext⟩ := h.called i hi
    have hd := hcall i hi
    rw [← pending_cons hd (he i) s.log] at ha
    exact ⟨a, ha, hdue, hsame i hd _ hnext⟩

omit [DecidableEq τ] in
theorem loopMove_sync {s : State τ} (h : Sync s) (hc : ∀ id, s.place = .reprogram id →
    ∃ t, s.mtimers[id]? = some t ∧ t.first ≠ 0 ∧ t.first ≤ s.clock) : Sync (loopMove s) := by
  unfold loopMove
  cases hp : s.place with
  | select => exact h.frame (by simp [hp]) (Nat.le_refl _)
  | test wake id =>
    dsimp only
    split
    · exact h.frame (by simp [hp]) (Nat.le_refl _)
    · exact h.frame (by simp [hp]) (Nat.le_refl _)
  | wait wake =>
    dsimp only
    split
    · exact h.frame (by simp [hp]) (Nat.le_refl _)
    · split
      · exact h.frame (by simp [hp]) (Nat.le_refl _)
      · exact h
  | timeout id => exact h.frame (by simp [hp]) (Nat.le_refl _)
  | reprogram id =>
    obtain ⟨t, ht, hfirst, hdue⟩ := hc id hp
    have hkept := h.kept id (by rw [hp]; nofun)
    rw [ht] at hkept
    obtain ⟨a, ha, hat, -⟩ := hkept.of_armed hfirst
    rw [ha] at hkept
    have hlt : id < s.mtimers.length := by
      by_contra hge
      rw [List.getElem?_eq_none (by omega)] at ht
      cases ht
    dsimp only
    rw [ht]
    refine ⟨h.inside, h.legal, ?_, ?_⟩
    · intro i hi
      have hne : id ≠ i := fun he => hi (congrArg Place.call he)
      have hold := h.kept i (by rw [hp]; nofun)
      show Agrees _ (s.mtimers.set id t.next)[i]?
      rwa [List.getElem?_set_ne hne]
    · intro i hi
      obtain rfl : id = i := Place.call.inj hi
      refine ⟨a, ha, hat ▸ hdue, ?_⟩
      show Agrees _ (s.mtimers.set id t.next)[id]?
      rw [List.getElem?_set_self hlt]
      exact hkept.next
  | call id =>
    obtain ⟨a, ha, hdue, hnext⟩ := h.called id hp
    refine ⟨h.inside, ⟨⟨a, ha, hdue⟩, h.legal⟩, ?_, nofun⟩
    intro i _
    by_cases hi : id = i
    · subst hi
      show Agrees (pending id (.timeout id s.clock :: s.log)) _
      rw [pending_timeout, ha]
      exact hnext
    · have hold := h.kept i (by rw [hp]; exact fun he => hi (Place.call.inj he))
      rwa [← pending_cons (i := i) (e := .timeout id s.clock) rfl (by simpa [Event.isTimeout] using hi)]
        at hold

theorem resize_getElem? {l : List Slot} {max i : ℕ} (h : i < max) (p : Option Arming)
    (hp : Agrees p l[i]?) : Agrees p (resize l max)[i]? := by
  unfold resize
  by_cases hi : i < l.length
  · rw [List.getElem?_append_left (by rw [List.length_take]; omega), List.getElem?_take_of_lt h]
    exact hp
  · rw [List.getElem?_eq_none (by omega)] at hp
    have hlen : (l.take max).length = l.length := by
      rw [List.length_take]
      omega
    have hlt : i - l.length < max - l.length := by omega
    rw [List.getElem?_append_right (by omega), hlen, List.getElem?_replicate, if_pos hlt]
    cases p with
    | none => rfl
    | some a => exact absurd hp id

theorem resize_removed {l : List Slot} {max i : ℕ} (h : max ≤ i) : (resize l max)[i]? = none := by
  apply List.getElem?_eq_none
  unfold resize
  rw [List.length_append, List.length_take, List.length_replicate]
  omega

theorem Sync.call {s : State τ} (h : Sync s) (t : τ) (k : Call) : Sync (s.call t k) :=
  h.frame (fun _ => Iff.rfl) (Nat.le_refl _)

theorem callMove_sync {s : State τ} {t : τ} (h : Sync s) (hc : (s.calls t).clear s) :
    Sync (callMove s t) := by
  unfold callMove
  cases hk : s.calls t with
  | idle => exact h
  | startTimer id period =>
    dsimp only
    split
    · exact h.call t _
    · exact h.call t _
  | arm id wait =>
    dsimp only
    split
    · exact h.call t _
    · exact h.call t _
  | readClock id wait period => exact h.call t _
  | write id start wait period =>
    rw [hk] at hc
    obtain ⟨hid, hpos, hplace⟩ := hc
    dsimp only [State.write]
    rw [if_pos hid]
    refine h.edit (e := .armed id start wait period) (fun _ => rfl) ?_ ?_ ?_
    · intro i hi
      have hne : id ≠ i := fun he => hplace (by rw [hi, he])
      simpa [Event.disturbs] using hne
    · intro i hd p hp
      have hne : id ≠ i := by simpa [Event.disturbs] using hd
      rwa [List.getElem?_set_ne hne]
    · intro i hd
      obtain rfl : id = i := by simpa [Event.disturbs] using hd
      have hdue : (⟨start, wait, period, 0⟩ : Arming).due = start + wait := by
        simp [Arming.due]
      rw [List.getElem?_set_self hid, pending, if_pos rfl]
      exact ⟨hdue.symm, rfl, by rw [hdue]; omega⟩
  | signal => exact h.frame (fun _ => Iff.rfl) (Nat.le_refl _)
  | killTimer id =>
    rw [hk] at hc
    dsimp only
    split
    · exact h.call t _
    · rename_i hvalid
      have hne : id ≠ s.mtimers.length := hc.1
      have hid : id.toNat < s.mtimers.length := by omega
      unfold State.write
      rw [if_pos hid]
      refine h.edit (e := .killed id.toNat) (fun _ => rfl) ?_ ?_ ?_
      · intro i hi
        have hne : id.toNat ≠ i := fun he => hc.2 (by rw [hi, he])
        simpa [Event.disturbs] using hne
      · intro i hd p hp
        have hne : id.toNat ≠ i := by simpa [Event.disturbs] using hd
        rwa [List.getElem?_set_ne hne]
      · intro i hd
        obtain rfl : id.toNat = i := by simpa [Event.disturbs] using hd
        rw [List.getElem?_set_self hid, pending, if_pos rfl]
        rfl
  | setMaxTimers max =>
    rw [hk] at hc
    refine h.edit (e := .resized max) (fun _ => rfl) ?_ ?_ ?_
    · intro i hi
      simpa [Event.disturbs] using hc i hi
    · intro i hd p hp
      exact resize_getElem? (by simpa [Event.disturbs] using hd) p hp
    · intro i hd
      have hmax : max ≤ i := by simpa [Event.disturbs] using hd
      rw [resize_removed hmax, pending, if_pos hmax]
      trivial

theorem step_sync {s : State τ} {a : Act τ} (h : Sync s) (hc : Clear s a) : Sync (step s a) := by
  cases a with
  | loop => exact loopMove_sync h hc
  | call t => exact callMove_sync h hc
  | begins t k =>
    dsimp only [step]
    split
    · exact h.call t k
    · exact h
  | tick n => exact h.frame (fun _ => Iff.rfl) (Nat.le_add_right _ _)

/-! ### The loop does not sleep through a timer -/

/-- The earliest expiry is that of an armed timer or `best`, and none is earlier. -/
theorem earliest_spec (l : List Slot) : ∀ (k : ℕ) (best : ℕ × ℕ),
    (earliest l k best).1 ≤ best.1 ∧
      (∀ (i : ℕ) (t : Slot), l[i]? = some t → t.first ≠ 0 → (earliest l k best).1 ≤ t.first) ∧
      (earliest l k best = best ∨
        ∃ i t, l[i]? = some t ∧ t.first ≠ 0 ∧ earliest l k best = (t.first, k + i)) := by
  induction l with
  | nil => exact fun k best => ⟨Nat.le_refl _, nofun, .inl rfl⟩
  | cons u l ih =>
    intro k best
    obtain ⟨hle, hall, hone⟩ :=
      ih (k + 1) (if u.first ≠ 0 ∧ u.first < best.1 then (u.first, k) else best)
    rw [earliest]
    by_cases hu : u.first ≠ 0 ∧ u.first < best.1
    · rw [if_pos hu] at hle hall hone ⊢
      refine ⟨by omega, ?_, ?_⟩
      · rintro (_ | i) t ht h0
        · cases ht
          exact hle
        · exact hall i t ht h0
      · rcases hone with heq | ⟨i, t, ht, h0, heq⟩
        · exact .inr ⟨0, u, rfl, hu.1, heq⟩
        · exact .inr ⟨i + 1, t, ht, h0, by rw [heq, Nat.add_right_comm, Nat.add_assoc]⟩
    · rw [if_neg hu] at hle hall hone ⊢
      refine ⟨hle, ?_, ?_⟩
      · rintro (_ | i) t ht h0
        · cases ht
          have hge : ¬ u.first < best.1 := fun hlt => hu ⟨h0, hlt⟩
          omega
        · exact hall i t ht h0
      · rcases hone with heq | ⟨i, t, ht, h0, heq⟩
        · exact .inl heq
        · exact .inr ⟨i + 1, t, ht, h0, by rw [heq, Nat.add_right_comm, Nat.add_assoc]⟩

/-- A loop that is going to wait waits for no longer than any timer, or has been signalled, or a
call is about to signal it. -/
def Awake (s : State τ) : Prop :=
  ∀ wake, (s.place = .wait wake ∨ ∃ id, s.place = .test wake id) →
    (∀ (i : ℕ) (t : Slot), s.mtimers[i]? = some t → t.first ≠ 0 → wake ≤ t.first) ∨ 0 < s.sem ∨
      ∃ t, s.calls t = .signal

omit [DecidableEq τ] in
/-- No timer becomes earlier. -/
theorem Awake.frame {s s' : State τ} (h : Awake s) (hp : s'.place = s.place)
    (hs : s.sem ≤ s'.sem)
    (hl : ∀ (i : ℕ) (t : Slot), s'.mtimers[i]? = some t → t.first ≠ 0 → s.mtimers[i]? = some t)
    (hcalls : ∀ u, s.calls u = .signal → s'.calls u = .signal) : Awake s' := by
  intro wake hw
  rw [hp] at hw
  rcases h wake hw with hall | hsem | ⟨u, hu⟩
  · exact .inl fun i t ht h0 => hall i t (hl i t ht h0) h0
  · exact .inr (.inl (by omega))
  · exact .inr (.inr ⟨u, hcalls u hu⟩)

theorem Awake.call {s : State τ} (h : Awake s) {t : τ} {k : Call} (hk : s.calls t ≠ .signal) :
    Awake (s.call t k) := by
  refine h.frame rfl (Nat.le_refl _) (fun _ _ ht _ => ht) fun u hu => ?_
  have hut : u ≠ t := by
    rintro rfl
    exact hk hu
  rw [State.call_other s k hut]
  exact hu

theorem set_cleared {l : List Slot} {id i : ℕ} {t : Slot}
    (ht : (l.set id ⟨0, 0⟩)[i]? = some t) (h0 : t.first ≠ 0) : l[i]? = some t := by
  by_cases hi : id = i
  · subst hi
    rw [List.getElem?_set_self'] at ht
    cases hl : l[id]? with
    | none => rw [hl] at ht; cases ht
    | some u =>
      rw [hl] at ht
      cases ht
      exact absurd rfl h0
  · rwa [List.getElem?_set_ne hi] at ht

theorem resize_armed {l : List Slot} {max i : ℕ} {t : Slot} (ht : (resize l max)[i]? = some t)
    (h0 : t.first ≠ 0) : l[i]? = some t := by
  unfold resize at ht
  by_cases hi : i < (l.take max).length
  · rw [List.getElem?_append_left hi] at ht
    rwa [List.getElem?_take_of_lt (by rw [List.length_take] at hi; omega)] at ht
  · rw [List.getElem?_append_right (by omega), List.getElem?_replicate] at ht
    split at ht
    · cases ht
      exact absurd rfl h0
    · cases ht

omit [DecidableEq τ] in
theorem loopMove_awake {s : State τ} (h : Awake s) : Awake (loopMove s) := by
  unfold loopMove
  cases hp : s.place with
  | select =>
    rintro wake (hw | ⟨id, hw⟩)
    · cases hw
    · obtain ⟨hwake, -⟩ := Place.test.inj hw
      refine .inl fun i t ht h0 => ?_
      rw [← hwake]
      exact (earliest_spec s.mtimers 0 (infinite, 0)).2.1 i t ht h0
  | test wake id =>
    dsimp only
    split
    · rintro wake' (hw | ⟨id', hw⟩)
      · cases hw
        exact h wake (.inr ⟨id, hp⟩)
      · cases hw
    · rintro wake' (hw | ⟨id', hw⟩) <;> cases hw
  | wait wake =>
    dsimp only
    split
    · rintro wake' (hw | ⟨id', hw⟩) <;> cases hw
    · split
      · rintro wake' (hw | ⟨id', hw⟩) <;> cases hw
      · exact h
  | reprogram id =>
    dsimp only
    split
    · rintro wake' (hw | ⟨id', hw⟩) <;> cases hw
    · rintro wake' (hw | ⟨id', hw⟩) <;> cases hw
  | call id => rintro wake' (hw | ⟨id', hw⟩) <;> cases hw
  | timeout id => rintro wake' (hw | ⟨id', hw⟩) <;> cases hw

omit [DecidableEq τ] in
/-- `write` changes the slots, or notes that it is outside of them. -/
theorem State.write_mtimers (s : State τ) (id : ℕ) (slot : Slot) :
    (s.write id slot).mtimers = s.mtimers.set id slot ∧ (s.write id slot).place = s.place ∧
      (s.write id slot).sem = s.sem ∧ (s.write id slot).calls = s.calls := by
  unfold State.write
  split
  · exact ⟨rfl, rfl, rfl, rfl⟩
  · rename_i hge
    exact ⟨(List.set_eq_of_length_le (Nat.le_of_not_lt hge)).symm, rfl, rfl, rfl⟩

theorem callMove_awake {s : State τ} {t : τ} (h : Awake s) : Awake (callMove s t) := by
  unfold callMove
  cases hk : s.calls t with
  | idle => exact h
  | startTimer id period =>
    dsimp only
    split
    · exact h.call (by rw [hk]; nofun)
    · exact h.call (by rw [hk]; nofun)
  | arm id wait =>
    dsimp only
    split
    · exact h.call (by rw [hk]; nofun)
    · exact h.call (by rw [hk]; nofun)
  | readClock id wait period => exact h.call (by rw [hk]; nofun)
  | write id start wait period =>
    intro wake _
    exact .inr (.inr ⟨t, State.call_self _ t _⟩)
  | signal =>
    intro wake _
    exact .inr (.inl (Nat.succ_pos _))
  | killTimer id =>
    dsimp only
    split
    · exact h.call (by rw [hk]; nofun)
    · obtain ⟨hl, hp, hs, hc⟩ := s.write_mtimers id.toNat ⟨0, 0⟩
      refine Awake.call (s := { s.write id.toNat ⟨0, 0⟩ with log := .killed id.toNat :: s.log }) ?_
        (by show (s.write id.toNat ⟨0, 0⟩).calls t ≠ _; rw [hc, hk]; nofun)
      refine h.frame hp (Nat.le_of_eq hs.symm) ?_ ?_
      · intro i u hu h0
        rw [show _ = _ from hl] at hu
        exact set_cleared hu h0
      · intro u hu
        rw [show _ = _ from hc]
        exact hu
  | setMaxTimers max =>
    refine Awake.call (s := { s with mtimers := resize s.mtimers max, log := .resized max :: s.log })
      ?_ (by show s.calls t ≠ _; rw [hk]; nofun)
    exact h.frame rfl (Nat.le_refl _) (fun _ _ ht h0 => resize_armed ht h0) fun _ hu => hu

theorem step_awake {s : State τ} {a : Act τ} (h : Awake s) : Awake (step s a) := by
  cases a with
  | loop => exact loopMove_awake h
  | call t => exact callMove_awake h
  | begins t k =>
    dsimp only [step]
    split
    · rename_i hk
      exact h.call (by rw [hk.1]; nofun)
    · exact h
  | tick n => exact h.frame rfl (Nat.le_refl _) (fun _ _ ht _ => ht) fun _ hu => hu

omit [DecidableEq τ] in
/-- When a timer is due, the loop is blocked only as long as a call has yet to signal it. -/
theorem Sync.not_blocked {s : State τ} (h : Sync s) (ha : Awake s) {i : ℕ} {a : Arming}
    (hi : pending i s.log = some a) (hdue : a.due ≤ s.clock)
    (hb : s.blocked = true) :
    ∃ t, s.calls t = .signal := by
  obtain ⟨wake, hp, hsem, hlt⟩ := s.blocked_iff.mp hb
  have hkept := h.kept i (by rw [hp]; nofun)
  rw [hi] at hkept
  obtain ⟨t, ht, hfirst, -, h0⟩ := hkept.of_pending
  rcases ha wake (.inl hp) with hall | hpos | hsig
  · have hwake := hall i t ht h0
    omega
  · omega
  · exact hsig

end OrocosRtt.Os.Timer
