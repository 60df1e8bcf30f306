import OrocosRtt.DataSource.Copy

/-! What copying one tree adds to the map, and how the copy lies beside the original. -/
namespace OrocosRtt.DataSource.Copy
set_option linter.unusedSectionVars false

namespace Copying

variable {st : Copying} {i j : ℕ} {n : Node}

@[simp] theorem find_record_self : (st.record i n).find i = some n := by
  simp [find, record]

theorem find_record_ne (h : j ≠ i) : (st.record i n).find j = st.find j := by
  simp only [find, record, List.lookup_cons]
  split
  · rename_i heq
    exact absurd (by simpa using heq) h
  · rfl

@[simp] theorem find_allocated : st.allocated.find j = st.find j := rfl
@[simp] theorem find_allocatedCell : st.allocatedCell.find j = st.find j := rfl
@[simp] theorem find_noteMade {k : ℕ} : (st.noteMade i k).find j = st.find j := rfl
@[simp] theorem made_record : (st.record i n).made = st.made := rfl
@[simp] theorem made_allocated : st.allocated.made = st.made := rfl
@[simp] theorem made_allocatedCell : st.allocatedCell.made = st.made := rfl
@[simp] theorem made_noteMade {k : ℕ} : (st.noteMade i k).made = (i, k) :: st.made := rfl
@[simp] theorem nextId_record : (st.record i n).nextId = st.nextId := rfl
@[simp] theorem nextId_allocated : st.allocated.nextId = st.nextId + 1 := rfl
@[simp] theorem nextId_allocatedCell : st.allocatedCell.nextId = st.nextId + 1 := rfl
@[simp] theorem nextId_noteMade {k : ℕ} : (st.noteMade i k).nextId = st.nextId := rfl
@[simp] theorem nextCell_record : (st.record i n).nextCell = st.nextCell := rfl
@[simp] theorem nextCell_allocated : st.allocated.nextCell = st.nextCell := rfl
@[simp] theorem nextCell_allocatedCell : st.allocatedCell.nextCell = st.nextCell + 1 := rfl
@[simp] theorem nextCell_noteMade {k : ℕ} : (st.noteMade i k).nextCell = st.nextCell := rfl

/-- The map and the composites of `st` are still there in `st'`. -/
structure Extends (st st' : Copying) : Prop where
  find : ∀ i n, st.find i = some n → st'.find i = some n
  made : ∀ p ∈ st.made, p ∈ st'.made

theorem Extends.rfl : st.Extends st := ⟨fun _ _ h => h, fun _ h => h⟩

theorem Extends.trans {st' st'' : Copying} (h : st.Extends st') (h' : st'.Extends st'') :
    st.Extends st'' :=
  ⟨fun i n hf => h'.find i n (h.find i n hf), fun p hp => h'.made p (h.made p hp)⟩

theorem extends_record (h : st.find i = none) : st.Extends (st.record i n) := by
  refine ⟨fun j m hj => ?_, fun _ hp => hp⟩
  have hne : j ≠ i := by
    rintro rfl
    rw [h] at hj
    cases hj
  rwa [find_record_ne hne]

end Copying

variable {s : Script} {vars : List ℕ}

/-- The copy of `a` is `b`, and nothing else. -/
def Good (s : Script) (st : Copying) (a b : ℕ) : Prop :=
  match s.objects a with
  | .shared _ => b = a
  | .composite _ _ => (a, b) ∈ st.made
  | _ => ∃ n, st.find a = some n ∧ n.id = b

theorem Good.mono {st st' : Copying} {a b : ℕ} (h : Good s st a b) (he : st.Extends st') :
    Good s st' a b := by
  unfold Good at h ⊢
  split
  · simpa [*] using h
  · rename_i heq
    rw [heq] at h
    exact he.made _ h
  · rename_i h₁ h₂
    have hf : ∃ n, st.find a = some n ∧ n.id = b := by
      cases ho : s.objects a with
      | shared => exact absurd ho (h₁ _)
      | composite => exact absurd ho (h₂ _ _)
      | bound | unbound | part | arrayPart => simpa [ho] using h
    obtain ⟨n, hn, hb⟩ := hf
    exact ⟨n, he.find a n hn, hb⟩

/-- What holds at every moment of a copy. -/
structure Inv (s : Script) (vars : List ℕ) (st : Copying) : Prop where
  copyOf : ∀ i n, st.find i = some n → CopyOf s vars (s.objects i) n
  good : ∀ i n, st.find i = some n → ∀ p ∈ pairs (s.objects i) n, Good s st p.1 p.2
  instantiated : ∀ i ∈ vars, st.find i ≠ none
  ids : s.nextId ≤ st.nextId
  cells : s.nextCell ≤ st.nextCell
  below : ∀ p ∈ st.made, p.2 < st.nextId
  nodup : (st.made.map Prod.snd).Nodup

theorem Inv.record {st : Copying} (h : Inv s vars st) {i : ℕ} {n : Node} (hi : st.find i = none)
    (hc : CopyOf s vars (s.objects i) n)
    (hg : ∀ p ∈ pairs (s.objects i) n, Good s (st.record i n) p.1 p.2) :
    Inv s vars (st.record i n) := by
  have he := Copying.extends_record (n := n) hi
  constructor
  · intro j m hj
    by_cases hji : j = i
    · subst hji
      rw [Copying.find_record_self, Option.some.injEq] at hj
      exact hj ▸ hc
    · rw [Copying.find_record_ne hji] at hj
      exact h.copyOf j m hj
  · intro j m hj p hp
    by_cases hji : j = i
    · subst hji
      rw [Copying.find_record_self, Option.some.injEq] at hj
      subst hj
      exact hg p hp
    · rw [Copying.find_record_ne hji] at hj
      exact (h.good j m hj p hp).mono he
  · intro j hj
    by_cases hji : j = i
    · subst hji
      simp
    · rw [Copying.find_record_ne hji]
      exact h.instantiated j hj
  · exact h.ids
  · exact h.cells
  · exact h.below
  · exact h.nodup

theorem Good.same {st st' : Copying} {a b : ℕ} (h : Good s st a b)
    (hf : ∀ i, st'.find i = st.find i) (hm : ∀ p ∈ st.made, p ∈ st'.made) : Good s st' a b :=
  h.mono ⟨fun i n hn => (hf i).trans hn, hm⟩

theorem Inv.allocated {st : Copying} (h : Inv s vars st) : Inv s vars st.allocated where
  copyOf := h.copyOf
  good := fun i n hn p hp => (h.good i n hn p hp).same (fun _ => rfl) fun _ hq => hq
  instantiated := h.instantiated
  ids := Nat.le_succ_of_le h.ids
  cells := h.cells
  below := fun p hp => Nat.lt_succ_of_lt (h.below p hp)
  nodup := h.nodup

theorem Inv.allocatedCell {st : Copying} (h : Inv s vars st) : Inv s vars st.allocatedCell where
  copyOf := h.copyOf
  good := fun i n hn p hp => (h.good i n hn p hp).same (fun _ => rfl) fun _ hq => hq
  instantiated := h.instantiated
  ids := Nat.le_succ_of_le h.ids
  cells := Nat.le_succ_of_le h.cells
  below := fun p hp => Nat.lt_succ_of_lt (h.below p hp)
  nodup := h.nodup

theorem Inv.composite {st : Copying} (h : Inv s vars st) (i : ℕ) :
    Inv s vars (st.noteMade i st.nextId).allocated where
  copyOf := h.copyOf
  good := fun j n hn p hp =>
    (h.good j n hn p hp).same (fun _ => rfl) fun _ hq => List.mem_cons_of_mem _ hq
  instantiated := h.instantiated
  ids := Nat.le_succ_of_le h.ids
  cells := h.cells
  below := by
    intro p hp
    rcases List.mem_cons.mp hp with rfl | hp
    · exact Nat.lt_succ_self _
    · exact Nat.lt_succ_of_lt (h.below p hp)
  nodup := by
    have hnew : st.nextId ∉ st.made.map Prod.snd := by
      intro hm
      obtain ⟨p, hp, heq⟩ := List.mem_map.mp hm
      have := h.below p hp
      omega
    exact List.nodup_cons.mpr ⟨hnew, h.nodup⟩

/-- One tree has been copied, with the objects and copies `ps`; only objects no larger than the
tree have been entered in the map. -/
structure Copied (s : Script) (vars : List ℕ) (ps : List (ℕ × ℕ)) (size : ℕ)
    (st st' : Copying) : Prop where
  inv : Inv s vars st'
  older : st.Extends st'
  good : ∀ p ∈ ps, Good s st' p.1 p.2
  made : ∀ p ∈ st'.made, p ∈ st.made ∨ p ∈ ps
  entered : ∀ i, st'.find i ≠ none → st.find i ≠ none ∨ sizeOf (s.objects i) ≤ size

variable {st st' st'' : Copying} {ps qs : List (ℕ × ℕ)} {k k' : ℕ}

theorem Copied.trans (h : Copied s vars ps k st st') (h' : Copied s vars qs k' st' st'')
    (m : ℕ) (hk : k ≤ m) (hk' : k' ≤ m) : Copied s vars (ps ++ qs) m st st'' := by
  constructor
  · exact h'.inv
  · exact h.older.trans h'.older
  · intro p hp
    rcases List.mem_append.mp hp with hp | hp
    · exact (h.good p hp).mono h'.older
    · exact h'.good p hp
  · intro p hp
    rcases h'.made p hp with hp | hp
    · rcases h.made p hp with hp | hp
      · exact Or.inl hp
      · exact Or.inr (List.mem_append_left _ hp)
    · exact Or.inr (List.mem_append_right _ hp)
  · intro i hi
    rcases h'.entered i hi with hi | hi
    · rcases h.entered i hi with hi | hi
      · exact Or.inl hi
      · exact Or.inr (Nat.le_trans hi hk)
    · exact Or.inr (Nat.le_trans hi hk')

/-- Nothing happens when the object is found in the map. -/
theorem Inv.found (h : Inv s vars st) {i : ℕ} {n : Node} (hn : st.find i = some n) (k : ℕ) :
    Copied s vars (pairs (s.objects i) n) k st st where
  inv := h
  older := .rfl
  good := h.good i n hn
  made := fun _ hp => Or.inl hp
  entered := fun _ hj => Or.inl hj

/-- The object has not been met yet and is entered now, with its copy `n`. -/
theorem Copied.record (h : Copied s vars ps k st st') {i : ℕ} {n : Node}
    (hi : st'.find i = none) (hk : k ≤ sizeOf (s.objects i))
    (hc : CopyOf s vars (s.objects i) n)
    (hp : ∀ p ∈ pairs (s.objects i) n, p = (i, n.id) ∨ p ∈ ps)
    (hs : ∀ p ∈ ps, p ∈ pairs (s.objects i) n)
    (hg : Good s (st'.record i n) i n.id) :
    Copied s vars (pairs (s.objects i) n) (sizeOf (s.objects i)) st (st'.record i n) := by
  have he := Copying.extends_record (n := n) hi
  have hgood : ∀ p ∈ pairs (s.objects i) n, Good s (st'.record i n) p.1 p.2 := by
    intro p hmem
    rcases hp p hmem with rfl | hmem
    · exact hg
    · exact (h.good p hmem).mono he
  constructor
  · exact h.inv.record hi hc hgood
  · exact h.older.trans he
  · exact hgood
  · intro p hmem
    rcases h.made p hmem with hmem | hmem
    · exact Or.inl hmem
    · exact Or.inr (hs p hmem)
  · intro j hj
    by_cases hji : j = i
    · subst hji
      exact Or.inr (Nat.le_refl _)
    · rw [Copying.find_record_ne hji] at hj
      rcases h.entered j hj with hj | hj
      · exact Or.inl hj
      · exact Or.inr (Nat.le_trans hj hk)

theorem Inv.nothing (h : Inv s vars st) (k : ℕ) : Copied s vars [] k st st where
  inv := h
  older := .rfl
  good := fun _ hp => nomatch hp
  made := fun _ hp => Or.inl hp
  entered := fun _ hj => Or.inl hj

theorem Copied.allocated (h : Copied s vars ps k st st') : Copied s vars ps k st st'.allocated where
  inv := h.inv.allocated
  older := ⟨h.older.find, h.older.made⟩
  good := fun p hp => (h.good p hp).same (fun _ => rfl) fun _ hq => hq
  made := h.made
  entered := h.entered

theorem Copied.allocatedCell (h : Copied s vars ps k st st') :
    Copied s vars ps k st st'.allocatedCell where
  inv := h.inv.allocatedCell
  older := ⟨h.older.find, h.older.made⟩
  good := fun p hp => (h.good p hp).same (fun _ => rfl) fun _ hq => hq
  made := h.made
  entered := h.entered

theorem Copied.composite (h : Copied s vars ps k st st') {i : ℕ}
    (hi : ∃ parts, s.objects i = .composite i parts) (m : ℕ) (hk : k ≤ m) :
    Copied s vars ((i, st'.nextId) :: ps) m st (st'.noteMade i st'.nextId).allocated := by
  constructor
  · exact h.inv.composite i
  · exact ⟨h.older.find, fun p hp => List.mem_cons_of_mem _ (h.older.made p hp)⟩
  · intro p hp
    rcases List.mem_cons.mp hp with rfl | hp
    · obtain ⟨parts, ho⟩ := hi
      simp [Good, ho]
    · exact (h.good p hp).same (fun _ => rfl) fun _ hq => List.mem_cons_of_mem _ hq
  · intro p hp
    rcases List.mem_cons.mp hp with rfl | hp
    · exact Or.inr (List.mem_cons_self ..)
    · exact (h.made p hp).imp_right (List.mem_cons_of_mem _)
  · intro j hj
    exact (h.entered j hj).imp_right fun hle => Nat.le_trans hle hk

/-- The object is not entered while a smaller one is copied. -/
theorem Copied.find_none (h : Copied s vars ps k st st') {i : ℕ} (hi : st.find i = none)
    (hk : k < sizeOf (s.objects i)) : st'.find i = none := by
  by_contra hne
  rcases h.entered i hne with h' | h'
  · exact h' hi
  · omega

mutual
/-- The step of the copy, for each kind of object. -/
theorem copy_copied : ∀ (n : Node) (st : Copying), s.Has n → Inv s vars st →
    CopyOf s vars n (copy n st).1 ∧
      Copied s vars (pairs n (copy n st).1) (sizeOf n) st (copy n st).2
  | .shared i, st, hn, h => by
    refine ⟨rfl, h, .rfl, ?_, fun _ hp => Or.inl hp, fun _ hj => Or.inl hj⟩
    intro p hp
    have ho : s.objects i = .shared i := hn.1
    simp only [copy, pairs, Node.id, List.mem_singleton] at hp
    subst hp
    simp [Good, ho]
  | .bound i c, st, hn, h => by
    have ho : s.objects i = .bound i c := hn.1.1
    cases hf : st.find i with
    | some n =>
      have := h.found hf (sizeOf (Node.bound i c))
      have hc := h.copyOf i n hf
      rw [ho] at this hc
      simpa only [copy, hf] using ⟨hc, this⟩
    | none =>
      have hvars : i ∉ vars := fun hi => h.instantiated i hi hf
      have hc : CopyOf s vars (s.objects i) (.bound i c) := by
        rw [ho]
        simp [CopyOf, hvars]
      have := (h.nothing 0).record (n := .bound i c) hf (Nat.zero_le _) hc (by simp [ho, pairs]) (by simp) (by simp [Good, ho])
      rw [ho] at this hc
      simpa only [copy, hf] using ⟨hc, this⟩
  | .unbound i c, st, hn, h => by
    have ho : s.objects i = .unbound i c := hn.1.1
    cases hf : st.find i with
    | some n =>
      have := h.found hf (sizeOf (Node.unbound i c))
      have hc := h.copyOf i n hf
      rw [ho] at this hc
      simpa only [copy, hf] using ⟨hc, this⟩
    | none =>
      have hc : CopyOf s vars (s.objects i) (.unbound st.nextId st.nextCell) := by
        rw [ho]
        exact ⟨_, _, Or.inr rfl, h.ids, h.cells⟩
      have := (h.nothing 0).allocatedCell.record (n := .unbound st.nextId st.nextCell)
        hf (Nat.zero_le _) hc (by simp [ho, pairs]) (by simp) (by simp [Good, ho])
      rw [ho] at this hc
      simpa only [copy, hf] using ⟨hc, this⟩
  | .part i c parent, st, hn, h => by
    have ho : s.objects i = .part i c parent := hn.1.1
    cases hf : st.find i with
    | some n =>
      have := h.found hf (sizeOf (Node.part i c parent))
      have hc := h.copyOf i n hf
      rw [ho] at this hc
      simpa only [copy, hf] using ⟨hc, this⟩
    | none =>
      obtain ⟨hcp, hp⟩ := copy_copied parent st hn.2.2 h
      have hfree : (copy parent st).2.find i = none := by
        apply hp.find_none hf
        rw [ho]
        simp only [Node.part.sizeOf_spec]
        omega
      have hc : CopyOf s vars (s.objects i)
          (.part (copy parent st).2.nextId c (copy parent st).1) := by
        rw [ho]
        exact ⟨_, _, rfl, hp.inv.ids, hcp⟩
      have := hp.allocated.record (n := .part (copy parent st).2.nextId c (copy parent st).1)
        hfree (by rw [ho, Node.part.sizeOf_spec]; omega) hc
        (by simp [ho, pairs, Node.id]) (by intro p; simp +contextual [ho, pairs]) (by simp [Good, ho])
      rw [ho] at this hc
      simpa only [copy, hf] using ⟨hc, this⟩
  | .arrayPart i c index parent, st, hn, h => by
    have ho : s.objects i = .arrayPart i c index parent := hn.1.1
    cases hf : st.find i with
    | some n =>
      have := h.found hf (sizeOf (Node.arrayPart i c index parent))
      have hc := h.copyOf i n hf
      rw [ho] at this hc
      simpa only [copy, hf] using ⟨hc, this⟩
    | none =>
      obtain ⟨hcx, hx⟩ := copy_copied index st hn.2.2.1 h
      obtain ⟨hcp, hp⟩ := copy_copied parent (copy index st).2 hn.2.2.2 hx.inv
      have hxp := hx.trans hp (sizeOf index + sizeOf parent) (by omega) (by omega)
      have hfree : (copy parent (copy index st).2).2.find i = none := by
        apply hxp.find_none hf
        rw [ho]
        simp only [Node.arrayPart.sizeOf_spec]
        omega
      have hc : CopyOf s vars (s.objects i) (.arrayPart (copy parent (copy index st).2).2.nextId c
          (copy index st).1 (copy parent (copy index st).2).1) := by
        rw [ho]
        exact ⟨_, _, _, rfl, hp.inv.ids, hcx, hcp⟩
      have := hxp.allocated.record (n := .arrayPart (copy parent (copy index st).2).2.nextId c
          (copy index st).1 (copy parent (copy index st).2).1)
        hfree (by rw [ho, Node.arrayPart.sizeOf_spec]; omega) hc
        (by simp [ho, pairs, Node.id]) (by intro p; simp +contextual [ho, pairs]) (by simp [Good, ho])
      rw [ho] at this hc
      simpa only [copy, hf] using ⟨hc, this⟩
  | .composite i parts, st, hn, h => by
    have ho : s.objects i = .composite i parts := hn.1.1
    obtain ⟨hcp, hp⟩ := copyParts_copied parts st hn.2 h
    refine ⟨⟨_, _, rfl, hp.inv.ids, hcp⟩, ?_⟩
    have := hp.composite (i := i) ⟨parts, ho⟩ (sizeOf (Node.composite i parts))
      (by simp only [Node.composite.sizeOf_spec]; omega)
    simpa only [copy, pairs] using this

theorem copyParts_copied : ∀ (ps : Parts) (st : Copying), s.HasParts ps → Inv s vars st →
    CopyOfParts s vars ps (copyParts ps st).1 ∧
      Copied s vars (pairsParts ps (copyParts ps st).1) (sizeOf ps) st (copyParts ps st).2
  | .nil, st, _, h => ⟨rfl, h.nothing _⟩
  | .cons n rest, st, hn, h => by
    obtain ⟨hcn, hcopied⟩ := copy_copied n st hn.1 h
    obtain ⟨hcr, hrest⟩ := copyParts_copied rest (copy n st).2 hn.2 hcopied.inv
    refine ⟨⟨_, _, rfl, hcn, hcr⟩, ?_⟩
    have := hcopied.trans hrest (sizeOf (Parts.cons n rest))
      (by simp only [Parts.cons.sizeOf_spec]; omega) (by simp only [Parts.cons.sizeOf_spec]; omega)
    simpa only [copyParts, pairsParts] using this
end

end OrocosRtt.DataSource.Copy
