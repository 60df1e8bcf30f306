import Mathlib.Data.List.Basic

/-! Scanning a list for the first element that passes a test which may change the state. -/
namespace Library.Scan

variable {A S : Type*}

/-- The first element that passes the test, and the state after the tests made. -/
def scan (test : A → S → Bool × S) : List A → S → Option A × S
  | [], s => (none, s)
  | a :: as, s =>
    match test a s with
    | (true, s) => (some a, s)
    | (false, s) => scan test as s

/-- All elements were tested, one after the other, and did not pass. -/
inductive Refused (test : A → S → Bool × S) : List A → S → S → Prop where
  | nil (s : S) : Refused test [] s s
  | cons {a : A} {as : List A} {s s₁ s₂ : S} :
      test a s = (false, s₁) → Refused test as s₁ s₂ → Refused test (a :: as) s s₂

/-- `a` passed the test, after everything before it in the list did not. -/
def First (test : A → S → Bool × S) (as : List A) (a : A) (s s' : S) : Prop :=
  ∃ pre post s₁, as = pre ++ a :: post ∧ Refused test pre s s₁ ∧ test a s₁ = (true, s')

variable {test : A → S → Bool × S} {as : List A} {s s' : S}

theorem Refused.snoc {a : A} {s₁ s₂ : S} (h : Refused test as s s₁)
    (ha : test a s₁ = (false, s₂)) : Refused test (as ++ [a]) s s₂ := by
  induction h with
  | nil s => exact .cons ha (.nil s₂)
  | cons hb _ ih => exact .cons hb (ih ha)

theorem Refused.split {bs : List A} (h : Refused test (as ++ bs) s s') :
    ∃ s₁, Refused test as s s₁ ∧ Refused test bs s₁ s' := by
  induction as generalizing s with
  | nil => exact ⟨s, .nil s, h⟩
  | cons a as ih =>
    cases h with
    | cons ha h =>
      obtain ⟨s₁, h₁, h₂⟩ := ih h
      exact ⟨s₁, .cons ha h₁, h₂⟩

/-- What every test keeps is kept by a list of them. -/
theorem Refused.keeps_of_mem {R : S → Prop} (hR : ∀ a ∈ as, ∀ s, R s → R (test a s).2)
    (h : Refused test as s s') (hs : R s) : R s' := by
  induction h with
  | nil s => exact hs
  | @cons a as s s₁ s₂ ha _ ih =>
    have := hR a List.mem_cons_self s hs
    rw [ha] at this
    exact ih (fun b hb => hR b (List.mem_cons_of_mem a hb)) this

theorem Refused.keeps {R : S → Prop} (hR : ∀ a s, R s → R (test a s).2)
    (h : Refused test as s s') (hs : R s) : R s' :=
  h.keeps_of_mem (fun a _ => hR a) hs

theorem First.keeps {R : S → Prop} (hR : ∀ a s, R s → R (test a s).2) {a : A}
    (h : First test as a s s') (hs : R s) : R s' := by
  obtain ⟨pre, post, s₁, -, hr, ha⟩ := h
  have := hR a s₁ (hr.keeps hR hs)
  rwa [ha] at this

/-- The first of the list is tested first. -/
theorem Refused.head {a : A} (h : Refused test (a :: as) s s') :
    Refused test as (test a s).2 s' := by
  cases h with
  | cons ha h => exact (congrArg Prod.snd ha) ▸ h

theorem First.head {a b : A} (h : First test (a :: as) b s s') :
    (test a s).2 = s' ∨ First test as b (test a s).2 s' := by
  obtain ⟨pre, post, s₁, he, hr, hb⟩ := h
  cases pre with
  | nil =>
    cases hr
    simp only [List.nil_append, List.cons.injEq] at he
    rw [he.1, hb]
    exact .inl rfl
  | cons c pre =>
    simp only [List.cons_append, List.cons.injEq] at he
    obtain ⟨rfl, rfl⟩ := he
    exact .inr ⟨pre, post, s₁, rfl, hr.head, hb⟩

theorem scan_pass {a : A} (h : test a s = (true, s')) :
    scan test (a :: as) s = (some a, s') := by
  simp only [scan, h]

theorem scan_next {a : A} (h : test a s = (false, s')) :
    scan test (a :: as) s = scan test as s' := by
  simp only [scan, h]

theorem refused_of_scan (h : scan test as s = (none, s')) : Refused test as s s' := by
  induction as generalizing s with
  | nil =>
    cases h
    exact .nil _
  | cons a as ih =>
    cases ht : test a s with
    | mk b s₁ =>
      cases b with
      | true =>
        rw [scan_pass ht] at h
        cases h
      | false =>
        rw [scan_next ht] at h
        exact .cons ht (ih h)

theorem first_of_scan {a : A} (h : scan test as s = (some a, s')) :
    First test as a s s' := by
  induction as generalizing s with
  | nil => cases h
  | cons b as ih =>
    cases ht : test b s with
    | mk c s₁ =>
      cases c with
      | true =>
        rw [scan_pass ht] at h
        cases h
        exact ⟨[], as, s, rfl, .nil s, ht⟩
      | false =>
        rw [scan_next ht] at h
        obtain ⟨pre, post, s₂, rfl, hr, hp⟩ := ih h
        exact ⟨b :: pre, post, s₂, rfl, .cons ht hr, hp⟩

/-- A scan whose tests depend on a part of the state only can be made on that part. -/
theorem scan_project {T : Type*} {g : S → T} {test' : A → T → Bool × T}
    (hg : ∀ a s, test' a (g s) = ((test a s).1, g (test a s).2)) (as : List A) (s : S) :
    scan test' as (g s) = ((scan test as s).1, g (scan test as s).2) := by
  induction as generalizing s with
  | nil => rfl
  | cons a as ih =>
    have hg := hg a s
    cases ht : test a s with
    | mk b s₁ =>
      rw [ht] at hg
      cases b with
      | true => rw [scan_pass ht, scan_pass hg]
      | false => rw [scan_next ht, scan_next hg, ih s₁]

/-- A change of the state that no test looks at can be made before or after the scan. -/
theorem scan_comm {f : S → S} (hf : ∀ a s, test a (f s) = ((test a s).1, f (test a s).2))
    (as : List A) (s : S) :
    scan test as (f s) = ((scan test as s).1, f (scan test as s).2) :=
  scan_project hf as s

theorem scan_keeps {R : S → Prop} (hR : ∀ a s, R s → R (test a s).2) (as : List A) {s : S}
    (hs : R s) : R (scan test as s).2 := by
  cases h : scan test as s with
  | mk o s' =>
    cases o with
    | none => exact (refused_of_scan h).keeps hR hs
    | some a => exact (first_of_scan h).keeps hR hs

/-- A scan goes on after what was refused. -/
theorem scan_append {bs : List A} (h : Refused test as s s') :
    scan test (as ++ bs) s = scan test bs s' := by
  induction h with
  | nil s => rfl
  | cons ha _ ih => exact (scan_next ha).trans ih

theorem scan_of_refused (h : Refused test as s s') : scan test as s = (none, s') := by
  induction h with
  | nil s => rfl
  | cons ha _ ih => exact (scan_next ha).trans ih

theorem scan_of_first {a : A} (h : First test as a s s') : scan test as s = (some a, s') := by
  obtain ⟨pre, post, s₁, rfl, hr, ha⟩ := h
  rw [scan_append hr, scan_pass ha]

end Library.Scan
