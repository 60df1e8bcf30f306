import OrocosRtt.DataSource.Copied

/-! When an instance of a script and the script itself leave each other's variables alone. -/
namespace OrocosRtt.DataSource.Copy
set_option linter.unusedSectionVars false

variable {s : Script} {vars : List ℕ}

/-- The map after the variables `done` have been instantiated. -/
structure Begun (s : Script) (done : List ℕ) (st : Copying) : Prop where
  renewed : ∀ i n, st.find i = some n → i ∈ done ∧ s.Renewed n
  instantiated : ∀ i ∈ done, st.find i ≠ none
  ids : s.nextId ≤ st.nextId
  cells : s.nextCell ≤ st.nextCell
  made : st.made = []

theorem Begun.instantiate {done : List ℕ} {st : Copying} (h : Begun s done st) (i : ℕ) :
    Begun s (done ++ [i]) (st.instantiate i) := by
  constructor
  · intro j n hn
    by_cases hji : j = i
    · subst hji
      rw [Copying.instantiate, Copying.find_record_self, Option.some.injEq] at hn
      exact ⟨by simp, _, _, Or.inl hn.symm, h.ids, h.cells⟩
    · rw [Copying.instantiate, Copying.find_record_ne hji] at hn
      obtain ⟨hj, hr⟩ := h.renewed j n hn
      exact ⟨List.mem_append_left _ hj, hr⟩
  · intro j hj
    by_cases hji : j = i
    · subst hji
      simp [Copying.instantiate]
    · rw [Copying.instantiate, Copying.find_record_ne hji]
      exact h.instantiated j (by simpa [hji] using hj)
  · exact Nat.le_succ_of_le h.ids
  · exact Nat.le_succ_of_le h.cells
  · exact h.made

theorem Begun.foldl {done : List ℕ} {st : Copying} (h : Begun s done st) (vars : List ℕ) :
    Begun s (done ++ vars) (vars.foldl Copying.instantiate st) := by
  induction vars generalizing done st with
  | nil => simpa using h
  | cons i vars ih => simpa using ih (h.instantiate i)

theorem begun_start (s : Script) : Begun s [] s.start where
  renewed := fun _ _ hn => nomatch hn
  instantiated := fun _ hi => nomatch hi
  ids := Nat.le_refl _
  cells := Nat.le_refl _
  made := rfl

theorem begun (s : Script) (vars : List ℕ) : Begun s vars (s.begin vars) := by
  simpa [Script.begin] using (begun_start s).foldl vars

theorem Begun.inv {st : Copying} (h : Begun s vars st) (hv : ∀ i ∈ vars, s.IsVariable i) :
    Inv s vars st := by
  constructor
  · intro i n hn
    obtain ⟨hi, hr⟩ := h.renewed i n hn
    obtain ⟨c, ho | ho⟩ := hv i hi
    · rw [ho, CopyOf, if_pos hi]
      exact hr
    · rw [ho]
      exact hr
  · intro i n hn p hp
    obtain ⟨hi, -⟩ := h.renewed i n hn
    obtain ⟨c, ho | ho⟩ := hv i hi
    all_goals
      simp only [ho, pairs, List.mem_singleton] at hp
      subst hp
      simpa [Good, ho] using ⟨n, hn, rfl⟩
  · exact h.instantiated
  · exact h.ids
  · exact h.cells
  · simp [h.made]
  · simp [h.made]

/-- The parts that have been entered in the map are those that have been seen. -/
def Seen (s : Script) (seen : List ℕ) (st : Copying) : Prop :=
  ∀ i, s.IsPart i → (i ∈ seen ↔ st.find i ≠ none)

theorem Seen.record {seen : List ℕ} {st : Copying} (h : Seen s seen st) (i : ℕ) (n : Node) :
    Seen s (i :: seen) (st.record i n) := by
  intro j hj
  by_cases hji : j = i
  · subst hji
    simp
  · rw [List.mem_cons, Copying.find_record_ne hji, ← h j hj]
    simp [hji]

theorem Seen.record_variable {seen : List ℕ} {st : Copying} (h : Seen s seen st) {i : ℕ}
    (hi : s.IsVariable i) (n : Node) : Seen s seen (st.record i n) := by
  intro j hj
  have hji : j ≠ i := by
    rintro rfl
    obtain ⟨c, ho | ho⟩ := hi <;> rcases hj with ⟨c', p, ho'⟩ | ⟨c', x, p, ho'⟩ <;>
      simp [ho] at ho'
  rw [Copying.find_record_ne hji, h j hj]

mutual
/-- The composites that are copied are those that are visited. -/
theorem copy_visits : ∀ (n : Node) (st : Copying) (seen : List ℕ), s.Has n → Seen s seen st →
    Seen s (visits n seen).2 (copy n st).2 ∧
      (copy n st).2.made.map Prod.fst = (visits n seen).1.reverse ++ st.made.map Prod.fst
  | .shared i, st, seen, _, h => by simpa [copy, visits] using h
  | .bound i c, st, seen, hn, h => by
    cases hf : st.find i with
    | some n => simpa [copy, visits, hf] using h
    | none =>
      have hi : s.IsVariable i := ⟨c, Or.inl hn.1.1⟩
      simpa [copy, visits, hf] using h.record_variable hi _
  | .unbound i c, st, seen, hn, h => by
    cases hf : st.find i with
    | some n => simpa [copy, visits, hf] using h
    | none =>
      have hi : s.IsVariable i := ⟨c, Or.inr hn.1.1⟩
      have h' : Seen s seen st.allocatedCell := h
      simpa [copy, visits, hf] using h'.record_variable hi _
  | .part i c parent, st, seen, hn, h => by
    have hi := h i (Or.inl ⟨c, parent, hn.1.1⟩)
    cases hf : st.find i with
    | some n => simpa [copy, visits, hf, hi] using h
    | none =>
      obtain ⟨hs, hm⟩ := copy_visits parent st seen hn.2.2 h
      have hs' : Seen s (visits parent seen).2 (copy parent st).2.allocated := hs
      have hni : i ∉ seen := by simp [hi, hf]
      simp only [copy, visits, hf, hni, if_false]
      exact ⟨hs'.record i _, hm⟩
  | .arrayPart i c index parent, st, seen, hn, h => by
    have hi := h i (Or.inr ⟨c, index, parent, hn.1.1⟩)
    cases hf : st.find i with
    | some n => simpa [copy, visits, hf, hi] using h
    | none =>
      obtain ⟨hsx, hmx⟩ := copy_visits index st seen hn.2.2.1 h
      obtain ⟨hs, hm⟩ := copy_visits parent (copy index st).2 (visits index seen).2 hn.2.2.2 hsx
      have hs' : Seen s (visits parent (visits index seen).2).2
        (copy parent (copy index st).2).2.allocated := hs
      have hni : i ∉ seen := by simp [hi, hf]
      simp only [copy, visits, hf, hni, if_false]
      refine ⟨hs'.record i _, ?_⟩
      simp only [Copying.made_record, Copying.made_allocated, hm, hmx, List.reverse_append,
        List.append_assoc]
  | .composite i parts, st, seen, hn, h => by
    obtain ⟨hs, hm⟩ := copyParts_visits parts st seen hn.2 h
    refine ⟨hs, ?_⟩
    simp [copy, visits, hm]

theorem copyParts_visits : ∀ (ps : Parts) (st : Copying) (seen : List ℕ), s.HasParts ps →
    Seen s seen st → Seen s (visitsParts ps seen).2 (copyParts ps st).2 ∧
      (copyParts ps st).2.made.map Prod.fst =
        (visitsParts ps seen).1.reverse ++ st.made.map Prod.fst
  | .nil, st, seen, _, h => by simpa [copyParts, visitsParts] using h
  | .cons n rest, st, seen, hn, h => by
    obtain ⟨hs, hm⟩ := copy_visits n st seen hn.1 h
    obtain ⟨hs', hm'⟩ := copyParts_visits rest (copy n st).2 (visits n seen).2 hn.2 hs
    refine ⟨hs', ?_⟩
    simp only [copyParts, visitsParts, hm', hm, List.reverse_append, List.append_assoc]
end

/-- What the script knows about a use of storage in one of its trees. -/
structure Script.Uses (s : Script) (u : Use) : Prop where
  object : u.object < s.nextId
  cell : u.cell < s.nextCell
  bound : u.kind = .bound → s.objects u.object = .bound u.object u.cell
  unbound : u.kind = .unbound → s.objects u.object = .unbound u.object u.cell

mutual
theorem uses_of_mem : ∀ n : Node, s.Has n → ∀ u ∈ storage n, s.Uses u
  | .shared i, _, u, hu => nomatch hu
  | .bound i c, hn, u, hu => by
    obtain rfl := List.mem_singleton.mp hu
    exact ⟨hn.1.2, hn.2, fun _ => hn.1.1, nofun⟩
  | .unbound i c, hn, u, hu => by
    obtain rfl := List.mem_singleton.mp hu
    exact ⟨hn.1.2, hn.2, nofun, fun _ => hn.1.1⟩
  | .part i c parent, hn, u, hu => by
    rcases List.mem_cons.mp hu with rfl | hu
    · exact ⟨hn.1.2, hn.2.1, nofun, nofun⟩
    · exact uses_of_mem parent hn.2.2 u hu
  | .arrayPart i c index parent, hn, u, hu => by
    rcases List.mem_cons.mp hu with rfl | hu
    · exact ⟨hn.1.2, hn.2.1, nofun, nofun⟩
    · rcases List.mem_append.mp hu with hu | hu
      · exact uses_of_mem index hn.2.2.1 u hu
      · exact uses_of_mem parent hn.2.2.2 u hu
  | .composite i parts, hn, u, hu => usesParts_of_mem parts hn.2 u hu

theorem usesParts_of_mem : ∀ ps : Parts, s.HasParts ps → ∀ u ∈ storageParts ps, s.Uses u
  | .nil, _, u, hu => nomatch hu
  | .cons n rest, hn, u, hu => by
    rcases List.mem_append.mp hu with hu | hu
    · exact uses_of_mem n hn.1 u hu
    · exact usesParts_of_mem rest hn.2 u hu
end

/-- Where the storage of a copy comes from: it is new, that of a part, or that of a variable that
is not renewed. -/
def Origin (s : Script) (vars : List ℕ) (us : List Use) (w : Use) : Prop :=
  (s.nextCell ≤ w.cell ∧ w.kind ≠ .part) ∨
    (w.kind = .part ∧ ∃ u ∈ us, u.kind = .part ∧ u.cell = w.cell) ∨
    (w.kind = .bound ∧ w.object ∉ vars ∧ w ∈ us)

theorem Origin.mono {us us' : List Use} {w : Use} (h : Origin s vars us w)
    (hs : ∀ u ∈ us, u ∈ us') : Origin s vars us' w := by
  rcases h with h | ⟨hk, u, hu, hp⟩ | ⟨hk, hv, hw⟩
  · exact Or.inl h
  · exact Or.inr (Or.inl ⟨hk, u, hs u hu, hp⟩)
  · exact Or.inr (Or.inr ⟨hk, hv, hs w hw⟩)

theorem Script.Renewed.origin {n : Node} (h : s.Renewed n) (us : List Use) :
    ∀ w ∈ storage n, Origin s vars us w := by
  obtain ⟨j, d, rfl | rfl, hj, hd⟩ := h <;>
  · intro w hw
    obtain rfl := List.mem_singleton.mp hw
    exact Or.inl ⟨hd, nofun⟩

mutual
theorem copyOf_origin : ∀ n n' : Node, CopyOf s vars n n' → ∀ w ∈ storage n',
    Origin s vars (storage n) w
  | .shared i, _, h, w, hw => by
    obtain rfl := h
    exact nomatch hw
  | .bound i c, n', h, w, hw => by
    by_cases hi : i ∈ vars
    · rw [CopyOf, if_pos hi] at h
      exact h.origin _ w hw
    · rw [CopyOf, if_neg hi] at h
      subst h
      obtain rfl := List.mem_singleton.mp hw
      exact Or.inr (Or.inr ⟨rfl, hi, hw⟩)
  | .unbound i c, n', h, w, hw => Script.Renewed.origin h _ w hw
  | .part i c parent, _, h, w, hw => by
    obtain ⟨j, parent', rfl, -, hp⟩ := h
    rcases List.mem_cons.mp hw with rfl | hw
    · exact Or.inr (Or.inl ⟨rfl, _, List.mem_cons_self .., rfl, rfl⟩)
    · exact (copyOf_origin parent parent' hp w hw).mono fun u hu => List.mem_cons_of_mem _ hu
  | .arrayPart i c index parent, _, h, w, hw => by
    obtain ⟨j, index', parent', rfl, -, hx, hp⟩ := h
    rcases List.mem_cons.mp hw with rfl | hw
    · exact Or.inr (Or.inl ⟨rfl, _, List.mem_cons_self .., rfl, rfl⟩)
    · rcases List.mem_append.mp hw with hw | hw
      · exact (copyOf_origin index index' hx w hw).mono fun u hu =>
          List.mem_cons_of_mem _ (List.mem_append_left _ hu)
      · exact (copyOf_origin parent parent' hp w hw).mono fun u hu =>
          List.mem_cons_of_mem _ (List.mem_append_right _ hu)
  | .composite i parts, _, h, w, hw => by
    obtain ⟨j, parts', rfl, -, hp⟩ := h
    exact copyOfParts_origin parts parts' hp w hw

theorem copyOfParts_origin : ∀ ps ps' : Parts, CopyOfParts s vars ps ps' →
    ∀ w ∈ storageParts ps', Origin s vars (storageParts ps) w
  | .nil, _, h, w, hw => by
    obtain rfl := h
    exact nomatch hw
  | .cons n rest, _, h, w, hw => by
    obtain ⟨n', rest', rfl, hn, hr⟩ := h
    rcases List.mem_append.mp hw with hw | hw
    · exact (copyOf_origin n n' hn w hw).mono fun u hu => List.mem_append_left _ hu
    · exact (copyOfParts_origin rest rest' hr w hw).mono fun u hu => List.mem_append_right _ hu
end

/-- A variable that the copy renews. -/
def Fresh (vars : List ℕ) (u : Use) : Prop :=
  u.kind = .unbound ∨ (u.kind = .bound ∧ u.object ∈ vars)

/-- The counterpart in the copy of a use of storage: a part refers where it referred, a variable
that is not renewed stands for itself. -/
def Counterpart (s : Script) (vars : List ℕ) (ps : List (ℕ × ℕ)) (ws : List Use) (u : Use) : Prop :=
  (u.kind = .part ∧ ∃ w ∈ ws, w.cell = u.cell) ∨
    (Fresh vars u ∧ ∃ b, (u.object, b) ∈ ps ∧ s.nextId ≤ b) ∨
    (u.kind = .bound ∧ u.object ∉ vars)

theorem Counterpart.mono {ps ps' : List (ℕ × ℕ)} {ws ws' : List Use} {u : Use}
    (h : Counterpart s vars ps ws u) (hp : ∀ p ∈ ps, p ∈ ps') (hw : ∀ w ∈ ws, w ∈ ws') :
    Counterpart s vars ps' ws' u := by
  rcases h with ⟨hk, w, hmem, hc⟩ | ⟨hf, b, hmem, hb⟩ | h
  · exact Or.inl ⟨hk, w, hw w hmem, hc⟩
  · exact Or.inr (Or.inl ⟨hf, b, hp _ hmem, hb⟩)
  · exact Or.inr (Or.inr h)

theorem Script.Renewed.id_le {n : Node} (h : s.Renewed n) : s.nextId ≤ n.id := by
  obtain ⟨j, d, rfl | rfl, hj, -⟩ := h <;> exact hj

mutual
theorem copyOf_counterpart : ∀ n n' : Node, CopyOf s vars n n' → ∀ u ∈ storage n,
    Counterpart s vars (pairs n n') (storage n') u
  | .shared i, _, _, u, hu => nomatch hu
  | .bound i c, n', h, u, hu => by
    obtain rfl := List.mem_singleton.mp hu
    by_cases hi : i ∈ vars
    · rw [CopyOf, if_pos hi] at h
      exact Or.inr (Or.inl ⟨Or.inr ⟨rfl, hi⟩, n'.id, by simp [pairs], h.id_le⟩)
    · exact Or.inr (Or.inr ⟨rfl, hi⟩)
  | .unbound i c, n', h, u, hu => by
    obtain rfl := List.mem_singleton.mp hu
    exact Or.inr (Or.inl ⟨Or.inl rfl, n'.id, by simp [pairs], Script.Renewed.id_le h⟩)
  | .part i c parent, _, h, u, hu => by
    obtain ⟨j, parent', rfl, -, hp⟩ := h
    rcases List.mem_cons.mp hu with rfl | hu
    · exact Or.inl ⟨rfl, _, List.mem_cons_self .., rfl⟩
    · exact (copyOf_counterpart parent parent' hp u hu).mono
        (fun p hp => List.mem_cons_of_mem _ hp) fun w hw => List.mem_cons_of_mem _ hw
  | .arrayPart i c index parent, _, h, u, hu => by
    obtain ⟨j, index', parent', rfl, -, hx, hp⟩ := h
    rcases List.mem_cons.mp hu with rfl | hu
    · exact Or.inl ⟨rfl, _, List.mem_cons_self .., rfl⟩
    · rcases List.mem_append.mp hu with hu | hu
      · exact (copyOf_counterpart index index' hx u hu).mono
          (fun p hp => List.mem_cons_of_mem _ (List.mem_append_left _ hp))
          fun w hw => List.mem_cons_of_mem _ (List.mem_append_left _ hw)
      · exact (copyOf_counterpart parent parent' hp u hu).mono
          (fun p hp => List.mem_cons_of_mem _ (List.mem_append_right _ hp))
          fun w hw => List.mem_cons_of_mem _ (List.mem_append_right _ hw)
  | .composite i parts, _, h, u, hu => by
    obtain ⟨j, parts', rfl, -, hp⟩ := h
    exact (copyOfParts_counterpart parts parts' hp u hu).mono
      (fun p hp => List.mem_cons_of_mem _ hp) fun w hw => hw

theorem copyOfParts_counterpart : ∀ ps ps' : Parts, CopyOfParts s vars ps ps' →
    ∀ u ∈ storageParts ps, Counterpart s vars (pairsParts ps ps') (storageParts ps') u
  | .nil, _, _, u, hu => nomatch hu
  | .cons n rest, _, h, u, hu => by
    obtain ⟨n', rest', rfl, hn, hr⟩ := h
    rcases List.mem_append.mp hu with hu | hu
    · exact (copyOf_counterpart n n' hn u hu).mono
        (fun p hp => List.mem_append_left _ hp) fun w hw => List.mem_append_left _ hw
    · exact (copyOfParts_counterpart rest rest' hr u hu).mono
        (fun p hp => List.mem_append_right _ hp) fun w hw => List.mem_append_right _ hw
end

/-- An object of a copy is the original or a new one. -/
def Either (s : Script) (p : ℕ × ℕ) : Prop := p.2 = p.1 ∨ s.nextId ≤ p.2

mutual
theorem pairs_either : ∀ n n' : Node, CopyOf s vars n n' → ∀ p ∈ pairs n n', Either s p
  | .shared i, _, h, p, hp => by
    obtain rfl := h
    obtain rfl := List.mem_singleton.mp hp
    exact Or.inl rfl
  | .bound i c, n', h, p, hp => by
    obtain rfl := List.mem_singleton.mp hp
    by_cases hi : i ∈ vars
    · rw [CopyOf, if_pos hi] at h
      exact Or.inr h.id_le
    · rw [CopyOf, if_neg hi] at h
      exact Or.inl (h ▸ rfl)
  | .unbound i c, n', h, p, hp => by
    obtain rfl := List.mem_singleton.mp hp
    exact Or.inr (Script.Renewed.id_le h)
  | .part i c parent, _, h, p, hp => by
    obtain ⟨j, parent', rfl, hj, hc⟩ := h
    rcases List.mem_cons.mp hp with rfl | hp
    · exact Or.inr hj
    · exact pairs_either parent parent' hc p hp
  | .arrayPart i c index parent, _, h, p, hp => by
    obtain ⟨j, index', parent', rfl, hj, hx, hc⟩ := h
    rcases List.mem_cons.mp hp with rfl | hp
    · exact Or.inr hj
    · rcases List.mem_append.mp hp with hp | hp
      · exact pairs_either index index' hx p hp
      · exact pairs_either parent parent' hc p hp
  | .composite i parts, _, h, p, hp => by
    obtain ⟨j, parts', rfl, hj, hc⟩ := h
    rcases List.mem_cons.mp hp with rfl | hp
    · exact Or.inr hj
    · exact pairsParts_either parts parts' hc p hp

theorem pairsParts_either : ∀ ps ps' : Parts, CopyOfParts s vars ps ps' →
    ∀ p ∈ pairsParts ps ps', Either s p
  | .nil, _, _, p, hp => nomatch hp
  | .cons n rest, _, h, p, hp => by
    obtain ⟨n', rest', rfl, hn, hr⟩ := h
    rcases List.mem_append.mp hp with hp | hp
    · exact pairs_either n n' hn p hp
    · exact pairsParts_either rest rest' hr p hp
end

/-- Equal originals have one and the same copy. -/
def Single (t t' : Node) : Prop :=
  ∀ a b b', (a, b) ∈ pairs t t' → (a, b') ∈ pairs t t' → b = b'

/-- The variables of `t` that are un-bound, or for which `t'` has another object. -/
def Replaced (t t' : Node) (u : Use) : Prop :=
  u ∈ storage t ∧ u.kind ≠ .part ∧
    (u.kind = .unbound ∨ ∃ b, (u.object, b) ∈ pairs t t' ∧ b ≠ u.object)

/-- The variables of `t'` that are un-bound, or that stand for another object of `t`. -/
def Replacing (t t' : Node) (u : Use) : Prop :=
  u ∈ storage t' ∧ u.kind ≠ .part ∧
    (u.kind = .unbound ∨ ∃ a, (a, u.object) ∈ pairs t t' ∧ a ≠ u.object)

/-- No node of `n` reads or writes the storage of these variables. -/
def Untouched (us : Use → Prop) (n : Node) : Prop :=
  ∀ u, us u → ∀ w ∈ storage n, w.cell ≠ u.cell

/-- The storage after these writes. -/
def write {V : Type} (σ : ℕ → V) (ws : List (ℕ × V)) : ℕ → V :=
  ws.foldl (fun σ w c => if c = w.1 then w.2 else σ c) σ

/-- What an execution of `n` may write. -/
def Writes {V : Type} (n : Node) (ws : List (ℕ × V)) : Prop :=
  ∀ w ∈ ws, ∃ u ∈ storage n, u.cell = w.1

/-- Executing `n` leaves these variables unchanged. -/
def Unchanged (us : Use → Prop) (n : Node) : Prop :=
  ∀ (V : Type) (σ : ℕ → V) (ws : List (ℕ × V)), Writes n ws →
    ∀ u, us u → write σ ws u.cell = σ u.cell

/-- `t'` is an instance of `t` of its own. -/
structure Separate (t t' : Node) : Prop where
  single : Single t t'
  copy_untouched : Untouched (Replaced t t') t'
  original_untouched : Untouched (Replacing t t') t
  copy_executed : Unchanged (Replaced t t') t'
  original_executed : Unchanged (Replacing t t') t

theorem write_of_notMem {V : Type} {c : ℕ} : ∀ (ws : List (ℕ × V)) (σ : ℕ → V),
    (∀ w ∈ ws, w.1 ≠ c) → write σ ws c = σ c
  | [], _, _ => rfl
  | w :: ws, σ, h => by
    have hw : c ≠ w.1 := fun hc => h w (List.mem_cons_self ..) hc.symm
    have ih := write_of_notMem ws (fun c => if c = w.1 then w.2 else σ c)
      fun w' hw' => h w' (List.mem_cons_of_mem _ hw')
    rw [write, List.foldl_cons]
    exact ih.trans (if_neg hw)

theorem Untouched.unchanged {us : Use → Prop} {n : Node} (h : Untouched us n) :
    Unchanged us n := by
  intro V σ ws hws u hu
  apply write_of_notMem
  intro w hw heq
  obtain ⟨u', hu', hc⟩ := hws w hw
  exact h u hu u' hu' (hc.trans heq)

/-- No part lies in a variable that the copy renews. -/
def PartsOutside (vars : List ℕ) (t : Node) : Prop :=
  ∀ u ∈ storage t, u.kind = .part → ∀ v ∈ storage t, Fresh vars v → u.cell ≠ v.cell

variable {t t' : Node} {st st' : Copying}

theorem single_of_nodup (h : Copied s vars (pairs t t') (sizeOf t) st st')
    (hd : (st'.made.map Prod.fst).Nodup) : Single t t' := by
  intro a b b' hb hb'
  have hg := h.good _ hb
  have hg' := h.good _ hb'
  unfold Good at hg hg'
  cases ho : s.objects a with
  | shared i =>
    simp only [ho] at hg hg'
    exact hg.trans hg'.symm
  | composite i parts =>
    simp only [ho] at hg hg'
    have := List.inj_on_of_nodup_map hd hg hg' rfl
    exact congrArg Prod.snd this
  | bound | unbound | part | arrayPart =>
    simp only [ho] at hg hg'
    obtain ⟨n, hn, rfl⟩ := hg
    obtain ⟨n', hn', rfl⟩ := hg'
    rw [hn, Option.some.injEq] at hn'
    rw [hn']

theorem nodup_of_single (h : Copied s vars (pairs t t') (sizeOf t) st st') (hst : st.made = [])
    (hs : Single t t') : (st'.made.map Prod.fst).Nodup := by
  have hmem : ∀ p ∈ st'.made, p ∈ pairs t t' := by
    intro p hp
    rcases h.made p hp with hp | hp
    · rw [hst] at hp
      exact nomatch hp
    · exact hp
  apply List.Nodup.map_on
  · rintro ⟨a, b⟩ hp ⟨a', b'⟩ hq heq
    obtain rfl : a = a' := heq
    rw [hs a b b' (hmem _ hp) (hmem _ hq)]
  · exact List.Nodup.of_map _ h.inv.nodup

theorem replaced_iff (ht : s.Has t) (hc : CopyOf s vars t t')
    (h : Copied s vars (pairs t t') (sizeOf t) st st') (u : Use) :
    Replaced t t' u ↔ u ∈ storage t ∧ Fresh vars u := by
  constructor
  · rintro ⟨hu, hk, hr⟩
    refine ⟨hu, ?_⟩
    by_contra hf
    rw [Fresh, not_or] at hf
    obtain ⟨b, hb, hne⟩ := hr.resolve_left hf.1
    have hbound : u.kind = .bound := by
      cases hkind : u.kind with
      | bound => rfl
      | unbound => exact absurd hkind hf.1
      | part => exact absurd hkind hk
    have hv : u.object ∉ vars := fun hv => hf.2 ⟨hbound, hv⟩
    have ho := (uses_of_mem t ht u hu).bound hbound
    have hg := h.good _ hb
    simp only [Good, ho] at hg
    obtain ⟨n, hn, rfl⟩ := hg
    have hcn := h.inv.copyOf _ n hn
    rw [ho, CopyOf, if_neg hv] at hcn
    exact hne (hcn ▸ rfl)
  · rintro ⟨hu, hf⟩
    have hlt := (uses_of_mem t ht u hu).object
    rcases copyOf_counterpart t t' hc u hu with ⟨hk, -⟩ | ⟨-, b, hb, hle⟩ | ⟨hk, hv⟩
    · simp [Fresh, hk] at hf
    · refine ⟨hu, ?_, Or.inr ⟨b, hb, by omega⟩⟩
      rintro hk
      simp [Fresh, hk] at hf
    · simp [Fresh, hk, hv] at hf

theorem Script.Uses.held {u : Use} (h : s.Uses u) (hk : u.kind ≠ .part) :
    (s.objects u.object).held = some u.cell := by
  cases hkind : u.kind with
  | bound => rw [h.bound hkind, Node.held]
  | unbound => rw [h.unbound hkind, Node.held]
  | part => exact absurd hkind hk

theorem Fresh.ne_part {u : Use} (h : Fresh vars u) : u.kind ≠ .part := by
  rcases h with h | ⟨h, -⟩ <;> simp [h]

theorem untouched_iff (ht : s.Has t) (hc : CopyOf s vars t t')
    (h : Copied s vars (pairs t t') (sizeOf t) st st') :
    Untouched (Replaced t t') t' ↔ PartsOutside vars t := by
  constructor
  · intro hu u hmem hk v hv hf heq
    rcases copyOf_counterpart t t' hc u hmem with ⟨-, w, hw, hwc⟩ | ⟨hfu, -⟩ | ⟨hku, -⟩
    · exact hu v ((replaced_iff ht hc h v).mpr ⟨hv, hf⟩) w hw (hwc.trans heq)
    · exact hfu.ne_part hk
    · rw [hk] at hku
      cases hku
  · intro hp v hr w hw heq
    obtain ⟨hv, hf⟩ := (replaced_iff ht hc h v).mp hr
    have huv := uses_of_mem t ht v hv
    rcases copyOf_origin t t' hc w hw with ⟨hle, -⟩ | ⟨-, u, hu, hk, huc⟩ | ⟨hk, hnv, hwt⟩
    · have := huv.cell
      omega
    · exact hp u hu hk v hv hf (huc.trans heq)
    · -- another variable cannot hold the same storage
      have huw := uses_of_mem t ht w hwt
      have hobj : w.object = v.object := by
        apply s.apart _ _ w.cell (huw.held (by simp [hk]))
        rw [heq]
        exact huv.held hf.ne_part
      rcases hf with hfk | ⟨-, hfv⟩
      · have hw' := huw.bound hk
        rw [hobj, huv.unbound hfk] at hw'
        cases hw'
      · exact hnv (hobj ▸ hfv)

theorem original_untouched (ht : s.Has t) (hc : CopyOf s vars t t') :
    Untouched (Replacing t t') t := by
  rintro u ⟨hu, hk, hr⟩ w hw heq
  have huw := uses_of_mem t ht w hw
  rcases copyOf_origin t t' hc u hu with ⟨hle, -⟩ | ⟨hkp, -⟩ | ⟨hkb, -, hut⟩
  · have := huw.cell
    omega
  · exact hk hkp
  · have hlt := (uses_of_mem t ht u hut).object
    rcases hr with hku | ⟨a, ha, hne⟩
    · rw [hkb] at hku
      cases hku
    · rcases pairs_either t t' hc _ ha with h | h
      · exact hne h.symm
      · exact absurd hlt (Nat.not_lt.mpr h)

theorem instance_separate_iff (s : Script) (vars : List ℕ) (t : Node) (ht : s.Has t)
    (hv : ∀ i ∈ vars, s.IsVariable i) :
    Separate t (copy t (s.begin vars)).1 ↔
      (visits t []).1.Nodup ∧ PartsOutside vars t := by
  have hb := begun s vars
  obtain ⟨hc, h⟩ := copy_copied t (s.begin vars) ht (hb.inv hv)
  have hseen : Seen s [] (s.begin vars) := by
    intro i hi
    simp only [List.not_mem_nil, false_iff, not_not]
    by_contra hne
    obtain ⟨n, hn⟩ := Option.ne_none_iff_exists'.mp hne
    obtain ⟨c, ho⟩ := hv i (hb.renewed i n hn).1
    rcases ho with ho | ho <;> rcases hi with ⟨c', p, ho'⟩ | ⟨c', x, p, ho'⟩ <;>
      simp [ho] at ho'
  have hmade : ((copy t (s.begin vars)).2.made.map Prod.fst).Nodup ↔ (visits t []).1.Nodup := by
    rw [(copy_visits t (s.begin vars) [] ht hseen).2, hb.made, List.map_nil, List.append_nil,
      List.nodup_reverse]
  constructor
  · intro hs
    exact ⟨hmade.mp (nodup_of_single h hb.made hs.single),
      (untouched_iff ht hc h).mp hs.copy_untouched⟩
  · rintro ⟨hd, hp⟩
    have hu := (untouched_iff ht hc h).mpr hp
    have ho := original_untouched ht hc
    exact ⟨single_of_nodup h (hmade.mpr hd), hu, ho, hu.unchanged, ho.unchanged⟩

/-- The objects of `x = x + 1`. -/
def increment : ℕ → Node
  | 0 => .unbound 0 0
  | 2 => .composite 2 (.cons (.unbound 0 0) (.cons (.shared 1) .nil))
  | 3 => .composite 3 (.cons (.unbound 0 0) (.cons
      (.composite 2 (.cons (.unbound 0 0) (.cons (.shared 1) .nil))) .nil))
  | i => .shared i

def incrementScript : Script where
  objects := increment
  nextId := 4
  nextCell := 1
  apart := by
    have only : ∀ i c, (increment i).held = some c → i = 0 := by
      intro i c h
      unfold increment at h
      split at h <;> simp_all [Node.held]
    intro i j c hi hj
    rw [only i c hi, only j c hj]

theorem increment_separate :
    Separate (increment 3) (copy (increment 3) (incrementScript.begin [0])).1 := by
  apply (instance_separate_iff incrementScript [0] (increment 3)
    (by simp [increment, Script.Has, Script.HasParts, Script.Holds, incrementScript, Node.id])
    (by simp [Script.IsVariable, incrementScript, increment])).mpr
  refine ⟨by decide, ?_⟩
  simp [PartsOutside, increment, storage, storageParts]

/-- The objects of `p.x = 1`, which writes a part of the variable `p`, and of `q[0] = 1`, where an
item is both the left side of the assignment and its value. -/
def members : ℕ → Node
  | 0 => .unbound 0 0
  | 1 => .part 1 0 (.unbound 0 0)
  | 2 => .composite 2 (.cons (.part 1 0 (.unbound 0 0)) (.cons (.shared 4) .nil))
  | 5 => .composite 5 (.cons (.shared 4) .nil)
  | 6 => .composite 6 (.cons (.composite 5 (.cons (.shared 4) .nil))
      (.cons (.composite 5 (.cons (.shared 4) .nil)) .nil))
  | i => .shared i

def membersScript : Script where
  objects := members
  nextId := 7
  nextCell := 1
  apart := by
    have only : ∀ i c, (members i).held = some c → i = 0 := by
      intro i c h
      unfold members at h
      split at h <;> simp_all [Node.held]
    intro i j c hi hj
    rw [only i c hi, only j c hj]

/-- The part in the copy still writes to the variable of the original, and the item is copied
twice. -/
theorem members_not_separate :
    (membersScript.Has (members 2) ∧
      ¬ Separate (members 2) (copy (members 2) (membersScript.begin [])).1) ∧
    (membersScript.Has (members 6) ∧
      ¬ Separate (members 6) (copy (members 6) (membersScript.begin [])).1) := by
  refine ⟨⟨?_, ?_⟩, ?_, ?_⟩
  · simp [members, Script.Has, Script.HasParts, Script.Holds, membersScript, Node.id]
  · intro h
    exact h.copy_untouched ⟨.unbound, 0, 0⟩ ⟨by decide, by decide, Or.inl rfl⟩ ⟨.part, 8, 0⟩
      (by decide) rfl
  · simp [members, Script.Has, Script.HasParts, Script.Holds, membersScript, Node.id]
  · intro h
    exact absurd (h.single 5 7 8 (by decide) (by decide)) (by decide)

end OrocosRtt.DataSource.Copy
