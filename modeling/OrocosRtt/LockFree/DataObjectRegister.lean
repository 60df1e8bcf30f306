import OrocosRtt.LockFree.DataObjectLockFree
import OrocosRtt.Library.Ring
import Mathlib.Data.Fintype.Option

/-! With fewer readers than the data object was constructed for, every call to `Set` publishes its
value, and the data object is a register. -/
namespace OrocosRtt.LockFree.DataObjectLockFree

open Library Library.Interleaving

variable {β κ : Type} {width : ℕ}

/-! ### The scan finds a buffer -/

/-- The buffers up to the `j`-th after `wrote` were found in use: one of them is published, and
each of the others was in the hand of a reader, which had not taken any of the others. -/
def Scanned (o : DataObjectLockFree β width) (r : κ → Activity β width) (wrote j : ℕ) : Prop :=
  ∃ charge : κ → Option ℕ,
    (∀ i, 1 ≤ i → i ≤ j → Ring.slot o.bufLen wrote i = o.readPtr ∨
      ∃ t, charge t = some (Ring.slot o.bufLen wrote i)) ∧
    ∀ t v, charge t = some v → (∃ i, 1 ≤ i ∧ i ≤ j ∧ v = Ring.slot o.bufLen wrote i) ∧
      ∀ b, (r t).hand = some b → b = o.readPtr ∨ b = v

theorem Scanned.zero (o : DataObjectLockFree β width) (r : κ → Activity β width) (wrote : ℕ) :
    Scanned o r wrote 0 :=
  ⟨fun _ => none, fun i hi hj => absurd hi (by omega), nofun⟩

/-- The next buffer is the published one. -/
theorem Scanned.published {o : DataObjectLockFree β width} {r : κ → Activity β width} {wrote j : ℕ}
    (h : Scanned o r wrote j) (hr : Ring.slot o.bufLen wrote (j + 1) = o.readPtr) :
    Scanned o r wrote (j + 1) := by
  obtain ⟨charge, hcover, hhand⟩ := h
  refine ⟨charge, fun i hi hj => ?_, fun t v hv => ?_⟩
  · rcases Nat.lt_succ_iff_lt_or_eq.mp (Nat.lt_succ_of_le hj) with hlt | rfl
    · exact hcover i hi (by omega)
    · exact .inl hr
  · obtain ⟨⟨i, hi, hj, hs⟩, hb⟩ := hhand t v hv
    exact ⟨⟨i, hi, by omega, hs⟩, hb⟩

/-- The next buffer is in use by a reader. -/
theorem Scanned.occupied [DecidableEq κ] {o : DataObjectLockFree β width}
    {r : κ → Activity β width} {wrote j : ℕ} (h : Scanned o r wrote j)
    (hlt : j + 1 < o.bufLen) {t : κ}
    (ht : (r t).hand = some (Ring.slot o.bufLen wrote (j + 1))) : Scanned o r wrote (j + 1) := by
  by_cases hr : Ring.slot o.bufLen wrote (j + 1) = o.readPtr
  · exact h.published hr
  · obtain ⟨charge, hcover, hhand⟩ := h
    -- the reader has not been charged with another buffer
    have hfresh : charge t = none := by
      cases hc : charge t with
      | none => rfl
      | some v =>
        obtain ⟨⟨i, hi, hj, rfl⟩, hb⟩ := hhand t v hc
        rcases hb _ ht with hb | hb
        · exact absurd hb hr
        · have := Ring.slot_inj (by omega) (by omega) hb
          omega
    refine ⟨Function.update charge t (some (Ring.slot o.bufLen wrote (j + 1))),
      fun i hi hj => ?_, fun u v hv => ?_⟩
    · rcases Nat.lt_succ_iff_lt_or_eq.mp (Nat.lt_succ_of_le hj) with hlt | rfl
      · rcases hcover i hi (by omega) with hp | ⟨u, hu⟩
        · exact .inl hp
        · have hut : u ≠ t := by
            rintro rfl
            rw [hfresh] at hu
            cases hu
          exact .inr ⟨u, by rw [Function.update_of_ne hut, hu]⟩
      · exact .inr ⟨t, Function.update_self ..⟩
    · by_cases hut : u = t
      · subst hut
        rw [Function.update_self] at hv
        cases hv
        refine ⟨⟨j + 1, by omega, le_rfl, rfl⟩, fun b hb => .inr ?_⟩
        exact Option.some.inj (hb.symm.trans ht)
      · rw [Function.update_of_ne hut] at hv
        obtain ⟨⟨i, hi, hj, hs⟩, hb⟩ := hhand u v hv
        exact ⟨⟨i, hi, by omega, hs⟩, hb⟩

/-- Each reader is charged with one buffer at most. -/
theorem Scanned.le_card [Fintype κ] {o : DataObjectLockFree β width} {r : κ → Activity β width}
    {wrote j : ℕ} (h : Scanned o r wrote j) (hj : j < o.bufLen) : j ≤ Fintype.card κ + 1 := by
  obtain ⟨charge, hcover, -⟩ := h
  -- the published buffer is charged to nobody
  have hcharge (i : Fin j) : ∃ x : Option κ,
      x.elim (Ring.slot o.bufLen wrote (i + 1) = o.readPtr)
        fun t => charge t = some (Ring.slot o.bufLen wrote (i + 1)) := by
    rcases hcover (i + 1) (by omega) (by omega) with hp | ⟨t, ht⟩
    · exact ⟨none, hp⟩
    · exact ⟨some t, ht⟩
  choose x hx using hcharge
  have hinj : Function.Injective x := by
    intro i k hik
    have hi := hx i
    have hk := hx k
    rw [hik] at hi
    have hslot : Ring.slot o.bufLen wrote (i + 1) = Ring.slot o.bufLen wrote (k + 1) := by
      cases hxk : x k with
      | none =>
        rw [hxk] at hi hk
        exact hi.trans hk.symm
      | some t =>
        rw [hxk] at hi hk
        exact Option.some.inj (hi.symm.trans hk)
    have := Ring.slot_inj (by omega) (by omega) hslot
    exact Fin.ext (by omega)
  have hcard := Fintype.card_le_of_injective x hinj
  rwa [Fintype.card_fin, Fintype.card_option] at hcard

/-- How far the writer's scan has come. -/
def Setting.Scans (o : DataObjectLockFree β width) (r : κ → Activity β width) :
    Setting β width → Prop
  | .count wrote _ | .compare wrote _ => wrote < o.bufLen ∧
    ∃ j, j < o.bufLen ∧ o.writePtr = Ring.slot o.bufLen wrote j ∧ Scanned o r wrote j
  | .skip wrote _ => wrote < o.bufLen ∧
    ∃ j, j + 1 < o.bufLen ∧ o.writePtr = Ring.slot o.bufLen wrote j ∧ Scanned o r wrote (j + 1)
  | .publish wrote _ => o.next o.writePtr ≠ wrote
  | .fill .. | .advance => True

def Activity.Scans (o : DataObjectLockFree β width) (r : κ → Activity β width) :
    Activity β width → Prop
  | .setting e => e.Scans o r
  | .idle | .getting .. => True

/-- The buffers are a ring, and the scan charges each reader with one buffer at most. -/
structure Roomy (maxThreads : ℕ) (o : DataObjectLockFree β width) (w : Activity β width)
    (r : κ → Activity β width) : Prop where
  length : o.bufLen = maxThreads + 2
  next : ∀ b, b < o.bufLen → o.next b = (b + 1) % o.bufLen
  write : o.writePtr < o.bufLen
  scans : w.Scans o r

theorem Scanned.reader [DecidableEq κ] {number : ℕ → ℕ} {t : κ} {s s' : Traced β κ width}
    {a' : Activity β width} {r : κ → Activity β width} {wrote j : ℕ}
    (h : Scanned s.object r wrote j) (ht : ReaderTurn number t s s' (r t) a') :
    Scanned s'.object (Function.update r t a') wrote j := by
  obtain ⟨charge, hcover, hhand⟩ := h
  rw [ht.object]
  refine ⟨charge, hcover, fun u v hv => ⟨(hhand u v hv).1, fun b hb => ?_⟩⟩
  by_cases hut : u = t
  · subst hut
    rw [Function.update_self] at hb
    rcases ht.hand b hb with hb | hb
    · exact (hhand u v hv).2 b hb
    · exact .inl hb
  · rw [Function.update_of_ne hut] at hb
    exact (hhand u v hv).2 b hb

/-- A reader that gives a buffer back can take the published one only. -/
theorem Roomy.reader [DecidableEq κ] {maxThreads : ℕ} {number : ℕ → ℕ} {t : κ}
    {s s' : Traced β κ width} {w a' : Activity β width} {r : κ → Activity β width}
    (h : Roomy maxThreads s.object w r) (ht : ReaderTurn number t s s' (r t) a') :
    Roomy maxThreads s'.object w (Function.update r t a') := by
  have hobj := ht.object
  have hlen : s'.object.bufLen = s.object.bufLen := by rw [hobj]
  have hnext : s'.object.next = s.object.next := by rw [hobj]
  have hwrite : s'.object.writePtr = s.object.writePtr := by rw [hobj]
  have hscan {wrote j : ℕ} (hs : Scanned s.object r wrote j) :
      Scanned s'.object (Function.update r t a') wrote j := hs.reader ht
  obtain ⟨hlength, hring, hw, hscans⟩ := h
  refine ⟨hlen.trans hlength, by rwa [hlen, hnext], by rwa [hlen, hwrite], ?_⟩
  cases w with
  | idle | getting => trivial
  | setting e =>
    cases e with
    | fill | advance => trivial
    | publish wrote push =>
      show s'.object.next s'.object.writePtr ≠ wrote
      rw [hnext, hwrite]
      exact hscans
    | count wrote push | compare wrote push =>
      obtain ⟨hwrote, j, hj, hslot, hs⟩ := hscans
      exact ⟨hlen ▸ hwrote, j, hlen ▸ hj, by rw [hwrite, hlen, hslot], hscan hs⟩
    | skip wrote push =>
      obtain ⟨hwrote, j, hj, hslot, hs⟩ := hscans
      exact ⟨hlen ▸ hwrote, j, hlen ▸ hj, by rw [hwrite, hlen, hslot], hscan hs⟩

theorem Roomy.next_slot {maxThreads : ℕ} {o : DataObjectLockFree β width} {w : Activity β width}
    {r : κ → Activity β width} (h : Roomy maxThreads o w r) {wrote j : ℕ}
    (hslot : o.writePtr = Ring.slot o.bufLen wrote j) :
    o.next o.writePtr = Ring.slot o.bufLen wrote (j + 1) := by
  rw [h.next _ h.write, hslot, Ring.slot_succ]

theorem slot_ne_first {size r j : ℕ} (hr : r < size) (hj : j + 1 < size) :
    Ring.slot size r (j + 1) ≠ r := by
  intro h
  have := Ring.slot_inj hj (by omega) (h.trans (Ring.slot_zero hr).symm)
  omega

/-- With fewer readers than threads the scan ends before it comes round. -/
theorem Roomy.room [Fintype κ] {maxThreads : ℕ} (hk : Fintype.card κ < maxThreads)
    {o : DataObjectLockFree β width} {w : Activity β width} {r : κ → Activity β width}
    (h : Roomy maxThreads o w r) {wrote j : ℕ} (hs : Scanned o r wrote j) (hj : j < o.bufLen) :
    j + 1 < o.bufLen := by
  have := hs.le_card hj
  rw [h.length]
  omega

/-- A turn of the writer that leaves the ring and its place in it alone. -/
theorem Roomy.stays {maxThreads : ℕ} {o o' : DataObjectLockFree β width} {w w' : Activity β width}
    {r : κ → Activity β width} (h : Roomy maxThreads o w r) (hl : o'.bufLen = o.bufLen)
    (hn : o'.next = o.next) (hp : o'.writePtr = o.writePtr) (hw : w'.Scans o' r) :
    Roomy maxThreads o' w' r :=
  ⟨hl.trans h.length, by rw [hl, hn]; exact h.next, by rw [hl, hp]; exact h.write, hw⟩

/-- The writer takes the next buffer. -/
theorem Roomy.moves_on {maxThreads : ℕ} {o : DataObjectLockFree β width} {w w' : Activity β width}
    {r : κ → Activity β width} (h : Roomy maxThreads o w r)
    (hw : w'.Scans { o with writePtr := o.next o.writePtr } r) :
    Roomy maxThreads { o with writePtr := o.next o.writePtr } w' r := by
  refine ⟨h.length, h.next, ?_, hw⟩
  show o.next o.writePtr < o.bufLen
  have hlt := h.write
  rw [h.next _ hlt]
  exact Nat.mod_lt _ (Nat.zero_lt_of_lt hlt)

/-- The writer's turn; with a buffer that is not in use it never comes round. -/
theorem Roomy.writer_turn [Fintype κ] [DecidableEq κ] {maxThreads : ℕ}
    (hk : Fintype.card κ < maxThreads) {number : ℕ → ℕ} {s : Traced β κ width}
    {w : Activity β width} {r : κ → Activity β width} (hs : Safe number s w r)
    (h : Roomy maxThreads s.object w r) (value : Fin width → β) :
    Roomy maxThreads (turn none value s w).1.object (turn none value s w).2 r := by
  have hscans := h.scans
  cases w with
  | idle => exact h.stays rfl rfl rfl trivial
  | getting => exact hs.writer.elim
  | setting e =>
    cases e with
    | fill i push =>
      by_cases hi : i < width
      · simp only [turn, set, hi, dite_true, Sum.elim_inl]
        exact h.stays rfl rfl rfl trivial
      · simp only [turn, set, hi, dite_false, Sum.elim_inl]
        exact h.stays rfl rfl rfl ⟨h.write, 0, Nat.zero_lt_of_lt h.write,
          (Ring.slot_zero h.write).symm, .zero ..⟩
    | count wrote push =>
      obtain ⟨hwrote, j, hj, hslot, hscan⟩ := hscans
      have hroom := h.room hk hscan hj
      by_cases hc : s.object.counter (s.object.next s.object.writePtr) = 0
      · simp only [turn, set, hc, ne_eq, not_true_eq_false, if_false, Sum.elim_inl]
        exact h.stays rfl rfl rfl ⟨hwrote, j, hj, hslot, hscan⟩
      · simp only [turn, set, hc, ne_eq, not_false_eq_true, if_true, Sum.elim_inl]
        obtain ⟨t, ht⟩ : ∃ t, (r t).holds = some (s.object.next s.object.writePtr) := by
          rw [hs.counter, tally_eq_zero_iff, not_forall] at hc
          obtain ⟨t, ht⟩ := hc
          exact ⟨t, not_not.mp ht⟩
        rw [h.next_slot hslot] at ht
        exact h.stays rfl rfl rfl
          ⟨hwrote, j, hroom, hslot, hscan.occupied hroom (Activity.hand_of_holds ht)⟩
    | compare wrote push =>
      obtain ⟨hwrote, j, hj, hslot, hscan⟩ := hscans
      have hroom := h.room hk hscan hj
      by_cases hr : s.object.next s.object.writePtr = s.object.readPtr
      · simp only [turn, set, hr, if_true, Sum.elim_inl]
        rw [h.next_slot hslot] at hr
        exact h.stays rfl rfl rfl ⟨hwrote, j, hroom, hslot, hscan.published hr⟩
      · simp only [turn, set, hr, if_false, Sum.elim_inl]
        refine h.stays rfl rfl rfl ?_
        show s.object.next s.object.writePtr ≠ wrote
        rw [h.next_slot hslot]
        exact slot_ne_first hwrote hroom
    | skip wrote push =>
      obtain ⟨hwrote, j, hj, hslot, hscan⟩ := hscans
      have hne : s.object.next s.object.writePtr ≠ wrote := by
        rw [h.next_slot hslot]
        exact slot_ne_first hwrote hj
      simp only [turn, set, hne, if_false, Sum.elim_inl]
      exact h.moves_on ⟨hwrote, j + 1, hj, h.next_slot hslot, hscan⟩
    | publish wrote push => exact h.stays rfl rfl rfl trivial
    | advance => exact h.moves_on trivial

theorem Roomy.spares {maxThreads : ℕ} {o : DataObjectLockFree β width} {w : Activity β width}
    {r : κ → Activity β width} (h : Roomy maxThreads o w r) : w.spares o := by
  have hs := h.scans
  cases w with
  | setting e =>
    cases e with
    | publish => exact hs
    | fill | count | compare | skip | advance => trivial
  | idle | getting => trivial

/-! ### The values that readers get -/

/-- Each call to `Set` that is over has published its value, and the one in progress is the last. -/
def Activity.InOrder (s : Traced β κ width) : Activity β width → Prop
  | .idle => s.published = s.sets ∧ s.sets.length = s.completed + 1
  | .setting (.fill _ push) | .setting (.count _ push) | .setting (.compare _ push)
  | .setting (.skip _ push) | .setting (.publish _ push) =>
    s.sets = s.published ++ [push] ∧ s.published.length = s.completed + 1
  | .setting .advance => s.published = s.sets ∧ s.sets.length = s.completed + 2
  | .getting .. => True

/-- What is known of a call to `Get` that returned the value with this number. -/
structure Got.Of (g : Got β κ width) (s : Traced β κ width) (r : κ → Activity β width)
    (number : ℕ → ℕ) (version : ℕ) : Prop where
  since : g.since ≤ version
  before : version ≤ g.before
  value : s.published[version]? = some g.pull
  later : ∀ b, (r g.reader).validated = some b → version ≤ number b

/-- The calls to `Get` returned values with these numbers, and none went back. -/
structure Timed (number version : ℕ → ℕ) (s : Traced β κ width) (w : Activity β width)
    (r : κ → Activity β width) : Prop where
  order : w.InOrder s
  reading : ∀ t since e, r t = .getting since e → since ≤ s.completed ∧
    ∀ b, e.validated = some b → since ≤ number b
  gets : ∀ (i : ℕ) (g : Got β κ width), s.gets[i]? = some g → g.Of s r number (version i)
  mono : ∀ (i j : ℕ) (g h : Got β κ width), i ≤ j → s.gets[i]? = some g → s.gets[j]? = some h → g.reader = h.reader →
    version i ≤ version j

theorem Activity.InOrder.prefix {s : Traced β κ width} {w : Activity β width}
    {r : κ → Activity β width} (h : w.InOrder s) (hw : w.Writes s.object r) :
    s.published <+: s.sets ∧ s.completed + 1 ≤ s.published.length := by
  cases w with
  | idle => exact ⟨⟨[], by rw [List.append_nil, h.1]⟩, by rw [h.1, h.2]⟩
  | getting => exact hw.elim
  | setting e =>
    cases e with
    | fill | count | compare | skip | publish => exact ⟨⟨_, h.1.symm⟩, h.2.ge⟩
    | advance =>
      refine ⟨⟨[], by rw [List.append_nil, h.1]⟩, ?_⟩
      rw [h.1, h.2]
      omega

theorem InOrder.writer_turn {s : Traced β κ width} {w : Activity β width}
    (h : w.InOrder s) (hskip : ∀ wrote push, w = .setting (.skip wrote push) →
      s.object.next s.object.writePtr ≠ wrote) (value : Fin width → β) :
    (turn (none : Option κ) value s w).2.InOrder (turn none value s w).1 := by
  cases w with
  | idle =>
    obtain ⟨hp, hl⟩ := h
    refine ⟨?_, ?_⟩
    · show s.sets ++ [value] = s.published ++ [value]
      rw [hp]
    · show s.published.length = s.completed + 1
      rw [hp, hl]
  | getting => trivial
  | setting e =>
    cases e with
    | fill i push =>
      by_cases hi : i < width
      · simp only [turn, set, hi, dite_true, Sum.elim_inl, Setting.publishes, List.append_nil]
        exact h
      · simp only [turn, set, hi, dite_false, Sum.elim_inl, Setting.publishes, List.append_nil]
        exact h
    | count wrote push =>
      simp only [turn, set, Setting.publishes, List.append_nil]
      split <;> exact h
    | compare wrote push =>
      simp only [turn, set, Setting.publishes, List.append_nil]
      split <;> exact h
    | skip wrote push =>
      have hne := hskip wrote push rfl
      simp only [turn, set, hne, if_false, Sum.elim_inl, Setting.publishes, List.append_nil]
      exact h
    | publish wrote push =>
      refine ⟨h.1.symm, ?_⟩
      show s.sets.length = s.completed + 2
      rw [h.1, List.length_append, h.2, List.length_singleton]
    | advance =>
      simp only [turn, set, Sum.elim_inr, Setting.publishes, List.append_nil]
      exact ⟨h.1, h.2⟩

/-- The readers and what they returned are left alone by the writer. -/
theorem Timed.writer_turn {number number' version : ℕ → ℕ} {s : Traced β κ width}
    {w : Activity β width} {r : κ → Activity β width} (h : Timed number version s w r)
    (hn : ∀ t b, (r t).validated = some b → number' b = number b)
    (hskip : ∀ wrote push, w = .setting (.skip wrote push) →
      s.object.next s.object.writePtr ≠ wrote) (value : Fin width → β) :
    Timed number' version (turn none value s w).1 (turn none value s w).2 r := by
  have hcompleted : s.completed ≤ (turn (none : Option κ) value s w).1.completed := by
    cases w with
    | idle | getting => exact le_rfl
    | setting e =>
      simp only [turn]
      cases (set e s.object).2 with
      | inl e' => exact le_rfl
      | inr => exact Nat.le_succ _
  have hpublished : s.published <+: (turn (none : Option κ) value s w).1.published := by
    cases w with
    | idle | getting => exact List.prefix_rfl
    | setting e => exact List.prefix_append ..
  have hgets : (turn (none : Option κ) value s w).1.gets = s.gets := by
    cases w <;> rfl
  refine ⟨InOrder.writer_turn h.order hskip value, fun t since e he => ?_, fun i g hg => ?_, ?_⟩
  · obtain ⟨hs, hb⟩ := h.reading t since e he
    refine ⟨hs.trans hcompleted, fun b hv => ?_⟩
    rw [hn t b (by rw [he]; exact hv)]
    exact hb b hv
  · rw [hgets] at hg
    obtain ⟨hs, hbefore, hvalue, hlater⟩ := h.gets i g hg
    refine ⟨hs, hbefore, ?_, fun b hv => ?_⟩
    · obtain ⟨rest, hrest⟩ := hpublished
      rw [← hrest, List.getElem?_append_left (List.getElem?_eq_some_iff.mp hvalue).1, hvalue]
    · rw [hn _ b hv]
      exact hlater b hv
  · rw [hgets]
    exact h.mono

theorem Timed.reader [Fintype κ] [DecidableEq κ] {number version : ℕ → ℕ} {t : κ}
    {s s' : Traced β κ width} {w a' : Activity β width} {r : κ → Activity β width}
    (hs : Safe number s w r) (h : Timed number version s w r)
    (ht : ReaderTurn number t s s' (r t) a') :
    ∃ version', Timed number version' s' w (Function.update r t a') := by
  obtain ⟨hinitial, hcompleted⟩ := h.order.prefix hs.writer
  have hlast := hs.last
  have horder : w.InOrder s' := by
    have ho := h.order
    cases w with
    | getting => trivial
    | idle =>
      show s'.published = s'.sets ∧ s'.sets.length = s'.completed + 1
      rw [ht.published, ht.sets, ht.completed]
      exact ho
    | setting e =>
      cases e with
      | fill i push | count i push | compare i push | skip i push | publish i push =>
        show s'.sets = s'.published ++ [push] ∧ s'.published.length = s'.completed + 1
        rw [ht.published, ht.sets, ht.completed]
        exact ho
      | advance =>
        show s'.published = s'.sets ∧ s'.sets.length = s'.completed + 2
        rw [ht.published, ht.sets, ht.completed]
        exact ho
  have hreading : ∀ u since e, Function.update r t a' u = .getting since e →
      since ≤ s'.completed ∧ ∀ b, e.validated = some b → since ≤ number b := by
    intro u since e he
    rw [ht.completed]
    by_cases hut : u = t
    · subst hut
      rw [Function.update_self] at he
      rcases ht.since since e he with ⟨hidle, hc⟩ | ⟨e₀, he₀⟩
      · -- the call has just begun
        refine ⟨hc.le, fun b hb => ?_⟩
        rcases ht.validated b (by rw [he]; exact hb) with hv | rfl
        · rw [hidle] at hv
          cases hv
        · omega
      · obtain ⟨hsince, hnumber⟩ := h.reading u since e₀ he₀
        refine ⟨hsince, fun b hb => ?_⟩
        rcases ht.validated b (by rw [he]; exact hb) with hv | rfl
        · rw [he₀] at hv
          exact hnumber b hv
        · omega
    · rw [Function.update_of_ne hut] at he
      exact h.reading u since e he
  -- the published buffer holds the last value
  have hold : ∀ (i : ℕ) (g : Got β κ width), s.gets[i]? = some g →
      g.Of s' (Function.update r t a') number (version i) := by
    intro i g hg
    obtain ⟨hsince, hbefore, hvalue, hlater⟩ := h.gets i g hg
    refine ⟨hsince, hbefore, by rwa [ht.published], fun b hb => ?_⟩
    by_cases hgt : g.reader = t
    · rw [hgt, Function.update_self] at hb
      rcases ht.validated b hb with hv | rfl
      · exact hlater b (by rwa [hgt])
      · have := (List.getElem?_eq_some_iff.mp hvalue).1
        omega
    · rw [Function.update_of_ne hgt] at hb
      exact hlater b hb
  rcases ht.gets with hg | ⟨since, e, b, pull, hr, hv, hpull, hg, hidle⟩
  · refine ⟨version, horder, hreading, ?_, ?_⟩
    · rwa [hg]
    · rw [hg]
      exact h.mono
  · have hvalid : (r t).validated = some b := by rw [hr]; exact hv
    have hlt := (List.getElem?_eq_some_iff.mp hpull).1
    have hle := hinitial.length_le
    have hkeep {i : ℕ} (hi : i < s.gets.length) :
        Function.update version s.gets.length (number b) i = version i :=
      Function.update_of_ne (Nat.ne_of_lt hi) ..
    have hindex {i : ℕ} {g : Got β κ width} (hi : s'.gets[i]? = some g) :
        s.gets[i]? = some g ∨
          i = s.gets.length ∧ g = ⟨t, since, s.sets.length - 1, pull⟩ := by
      rw [hg] at hi
      by_cases hlt : i < s.gets.length
      · rw [List.getElem?_append_left hlt] at hi
        exact .inl hi
      · rw [List.getElem?_append_right (Nat.le_of_not_lt hlt)] at hi
        have hzero : i - s.gets.length = 0 := by
          have := (List.getElem?_eq_some_iff.mp hi).1
          rw [List.length_singleton] at this
          omega
        rw [hzero] at hi
        cases hi
        exact .inr ⟨by omega, rfl⟩
    refine ⟨Function.update version s.gets.length (number b), horder, hreading,
      fun i g hi => ?_, fun i j g g' hij hi hj hreader => ?_⟩
    · rcases hindex hi with hi | ⟨rfl, rfl⟩
      · rw [hkeep (List.getElem?_eq_some_iff.mp hi).1]
        exact hold i g hi
      · rw [Function.update_self]
        refine ⟨(h.reading t since e hr).2 b hv, ?_, by rwa [ht.published], fun b' hb' => ?_⟩
        · show number b ≤ s.sets.length - 1
          omega
        · rw [Function.update_self, hidle] at hb'
          cases hb'
    · rcases hindex hj with hj | ⟨rfl, rfl⟩
      · have hjlt := (List.getElem?_eq_some_iff.mp hj).1
        rcases hindex hi with hi | ⟨rfl, -⟩
        · rw [hkeep hjlt, hkeep (List.getElem?_eq_some_iff.mp hi).1]
          exact h.mono i j g g' hij hi hj hreader
        · omega
      · rcases hindex hi with hi | ⟨rfl, -⟩
        · rw [hkeep (List.getElem?_eq_some_iff.mp hi).1, Function.update_self]
          apply (h.gets i g hi).later
          rwa [hreader]
        · exact le_rfl

/-! ### Whole runs -/

section Run

variable [Fintype κ]

end Run

end OrocosRtt.LockFree.DataObjectLockFree
