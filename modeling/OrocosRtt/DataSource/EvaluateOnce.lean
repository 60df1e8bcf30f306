import OrocosRtt.DataSource.Evaluate

/-! Which calls and assignments of an expression are executed once, in their order, and with
the values that the rest of the expression uses. -/
namespace OrocosRtt.DataSource.Evaluate
set_option linter.unusedSectionVars false

variable {V L W : Type} {M : Machine V L W}

/-- All entry points agree, and none changes anything. -/
structure Still (M : Machine V L W) (e : Expr V L W) (s : Run V L W) : Prop where
  evaluate : (evaluate M e s).2 = s
  rvalue : rvalue M e (Evaluate.evaluate M e s).1 s = meaning M e s
  get : get M e s = meaning M e s
  set : set M e s = place M e s
  meaning : (meaning M e s).2 = s
  place : (place M e s).2 = s

/-- An expression without calls and assignments may be evaluated any number of times. -/
theorem still_of_quiet : ∀ e : Expr V L W, Quiet e → ∀ s, Still M e s
  | .const v, _, s => ⟨rfl, rfl, rfl, rfl, rfl, rfl⟩
  | .var l, _, s => ⟨rfl, rfl, rfl, rfl, rfl, rfl⟩
  | .part l parent, h, s => by
    have hp := still_of_quiet parent h s
    constructor <;> simp [evaluate, rvalue, get, set, meaning, place, hp.meaning]
  | .arrayPart l parent index, h, s => by
    have hp := still_of_quiet parent h.1 s
    have hi := still_of_quiet index h.2 s
    constructor <;>
      simp [evaluate, rvalue, get, set, meaning, place, hp.meaning, hi.get, hi.meaning]
  | .containerItem cont index, h, s => by
    have hc := still_of_quiet cont h.1 s
    have hi := still_of_quiet index h.2 s
    constructor <;>
      simp [evaluate, rvalue, get, set, meaning, place, hc.set, hc.place, hi.evaluate, hi.rvalue,
        hi.meaning, Ret.get]
  | .unary f a, h, s => by
    have ha := still_of_quiet a h s
    constructor <;> simp [evaluate, rvalue, get, set, meaning, place, ha.get, ha.meaning, Ret.get]
  | .binary f a b, h, s => by
    have ha := still_of_quiet a h.1 s
    have hb := still_of_quiet b h.2 s
    constructor <;>
      simp [evaluate, rvalue, get, set, meaning, place, ha.get, ha.meaning, hb.get, hb.meaning,
        Ret.get]
  | .call n ff args, h, _ => h.elim
  | .assign n lhs rhs, h, _ => h.elim

/-- The entry points that a parent uses do what the expression means. -/
def Same (M : Machine V L W) (u : Use) (e : Expr V L W) (s : Run V L W) : Prop :=
  match u with
  | .statement => (evaluate M e s).2 = (meaning M e s).2
  | .value => rvalue M e (evaluate M e s).1 (evaluate M e s).2 = meaning M e s
  | .get => get M e s = meaning M e s
  | .reference => set M e s = place M e s

mutual
theorem same_of_once : ∀ (e : Expr V L W) (u : Use) (s : Run V L W), Once u e →
    Steady M u e s → Same M u e s
  | .const v, u, s, _, _ => by cases u <;> rfl
  | .var l, u, s, _, _ => by cases u <;> rfl
  | .part l parent, u, s, h, _ => by
    have hp : Still M parent s := still_of_quiet parent h s
    cases u <;> simp [Same, evaluate, rvalue, get, set, meaning, place, hp.meaning]
  | .arrayPart l parent index, u, s, h, hs => by
    obtain ⟨hparent, hvalue, hindex⟩ := h
    have hp : Still M parent s := still_of_quiet parent hparent s
    have hi : get M index s = meaning M index s := same_of_once index .get s hindex hs
    cases u with
    | value =>
      have hq : Still M index s := still_of_quiet index (hvalue rfl) s
      simp [Same, evaluate, rvalue, meaning, hp.meaning, hi, hq.meaning]
    | statement => simp [Same, evaluate, meaning, hp.meaning, hi]
    | get => simp [Same, get, meaning, hp.meaning, hi]
    | reference => simp [Same, set, place, hp.meaning, hi]
  | .containerItem cont index, u, s, h, hs => by
    have hc : set M cont s = place M cont s := same_of_once cont .reference s h.1 hs.1
    have hi := same_of_once index .value (place M cont s).2 h.2 hs.2
    unfold Same at hi
    dsimp only at hi
    cases u <;> simp [Same, evaluate, rvalue, get, set, meaning, place, hc, hi, Ret.get]
  | .unary f a, u, s, h, hs => by
    have ha : get M a s = meaning M a s := same_of_once a .get s h.2 hs
    cases u with
    | reference =>
      have hq : Still M a s := still_of_quiet a (h.1 rfl) s
      simp [Same, set, place, hq.meaning]
    | statement => simp [Same, evaluate, meaning, ha]
    | value => simp [Same, evaluate, rvalue, meaning, ha, Ret.get]
    | get => simp [Same, get, meaning, ha]
  | .binary f a b, u, s, h, hs => by
    have ha : get M a s = meaning M a s := same_of_once a .get s h.2.1 hs.1
    have hb : get M b (meaning M a s).2 = meaning M b (meaning M a s).2 :=
      same_of_once b .get _ h.2.2 hs.2
    cases u with
    | reference =>
      obtain ⟨hqa, hqb⟩ := h.1 rfl
      have hqa : Still M a s := still_of_quiet a hqa s
      have hqb : Still M b s := still_of_quiet b hqb s
      simp [Same, set, place, hqa.meaning, hqb.meaning]
    | statement => simp [Same, evaluate, meaning, ha, hb]
    | value => simp [Same, evaluate, rvalue, meaning, ha, hb, Ret.get]
    | get => simp [Same, get, meaning, ha, hb]
  | .call n ff args, u, s, h, hs => by
    have ha : data M args s = arguments M args s := data_of_once args s h.2 hs
    cases u with
    | reference => exact absurd rfl h.1
    | statement => simp [Same, evaluate, meaning, ha]
    | value => simp [Same, evaluate, rvalue, meaning, ha, Ret.get]
    | get => simp [Same, get, meaning, ha]
  | .assign n lhs rhs, u, s, h, hs => by
    obtain ⟨href, hlhs, hrhs⟩ := h
    have hr := same_of_once rhs .value s hrhs hs.1
    unfold Same at hr
    dsimp only at hr
    have hl : ∀ s, Still M lhs s := still_of_quiet lhs hlhs
    have hread := hs.2
    cases u with
    | reference => exact absurd rfl href
    | statement => simp [Same, evaluate, meaning, hr, (hl _).set, (hl _).evaluate]
    | value =>
      have hread := hread (by simp)
      simp only [Same, evaluate, rvalue, meaning, hr, (hl _).set, (hl _).evaluate, (hl _).rvalue]
      exact Prod.ext hread (hl _).meaning
    | get =>
      have hread := hread (by simp)
      simp only [Same, get, meaning, hr, (hl _).set, (hl _).get]
      exact Prod.ext hread (hl _).meaning

theorem data_of_once : ∀ (args : Args V L W) (s : Run V L W), OnceArgs args →
    SteadyArgs M args s → data M args s = arguments M args s
  | .nil, s, _, _ => rfl
  | .value e rest, s, h, hs => by
    have he := same_of_once e .value s h.1 hs.1
    unfold Same at he
    dsimp only at he
    have hr : data M rest (meaning M e s).2 = arguments M rest (meaning M e s).2 :=
      data_of_once rest _ h.2 hs.2
    simp [data, arguments, he, hr]
  | .reference e rest, s, h, hs => by
    have he : set M e s = place M e s := same_of_once e .reference s h.1 hs.1
    have hr : data M rest (place M e s).2 = arguments M rest (place M e s).2 :=
      data_of_once rest _ h.2 hs.2
    simp [data, arguments, he, hr]
end

mutual
/-- The calls and assignments that `evaluate()` carries out. -/
def evaluateOrder : Expr V L W → List ℕ
  | .const _ => []
  | .var _ => []
  | .part _ _ => []
  | .arrayPart _ _ index => getOrder index
  | .containerItem cont index => setOrder cont ++ (evaluateOrder index ++ rvalueOrder index)
  | .unary _ a => getOrder a
  | .binary _ a b => getOrder a ++ getOrder b
  | .call n _ args => dataOrder args ++ [n]
  | .assign n lhs rhs =>
    evaluateOrder rhs ++ rvalueOrder rhs ++ setOrder lhs ++ [n] ++ evaluateOrder lhs

/-- Those of `value()` and `rvalue()`. -/
def rvalueOrder : Expr V L W → List ℕ
  | .const _ => []
  | .var _ => []
  | .part _ _ => []
  | .arrayPart _ _ index => getOrder index
  | .containerItem _ _ => []
  | .unary _ _ => []
  | .binary _ _ _ => []
  | .call _ _ _ => []
  | .assign _ lhs _ => rvalueOrder lhs

/-- Those of `get()`. -/
def getOrder : Expr V L W → List ℕ
  | .const _ => []
  | .var _ => []
  | .part _ _ => []
  | .arrayPart _ _ index => getOrder index
  | .containerItem cont index => setOrder cont ++ (evaluateOrder index ++ rvalueOrder index)
  | .unary _ a => getOrder a
  | .binary _ a b => getOrder a ++ getOrder b
  | .call n _ args => dataOrder args ++ [n]
  | .assign n lhs rhs =>
    evaluateOrder rhs ++ rvalueOrder rhs ++ setOrder lhs ++ [n] ++ getOrder lhs

/-- Those of `set()`. -/
def setOrder : Expr V L W → List ℕ
  | .const _ => []
  | .var _ => []
  | .part _ _ => []
  | .arrayPart _ _ index => getOrder index
  | .containerItem cont index => setOrder cont ++ (evaluateOrder index ++ rvalueOrder index)
  | .unary _ _ => []
  | .binary _ _ _ => []
  | .call _ _ _ => []
  | .assign _ lhs _ => setOrder lhs

def dataOrder : Args V L W → List ℕ
  | .nil => []
  | .value e rest => evaluateOrder e ++ rvalueOrder e ++ dataOrder rest
  | .reference e rest => setOrder e ++ dataOrder rest
end

def useOrder (u : Use) (e : Expr V L W) : List ℕ :=
  match u with
  | .statement => evaluateOrder e
  | .value => evaluateOrder e ++ rvalueOrder e
  | .get => getOrder e
  | .reference => setOrder e

def Run.labels (s : Run V L W) : List ℕ := s.log.map Event.label

@[simp] theorem labels_invoke (n : ℕ) (ff : List (V ⊕ L) → W → V × W) (args : List (V ⊕ L))
    (s : Run V L W) : (invoke n ff args s).2.labels = s.labels ++ [n] := by
  simp [invoke, Run.labels, Event.label]

@[simp] theorem labels_assignTo (n : ℕ) (l : L) (v : V) (s : Run V L W) :
    (assignTo M n l v s).labels = s.labels ++ [n] := by
  simp [assignTo, Run.labels, Event.label]

/-- What the entry points of an expression add to the log. -/
structure Logs (M : Machine V L W) (e : Expr V L W) : Prop where
  evaluate : ∀ s, (evaluate M e s).2.labels = s.labels ++ evaluateOrder e
  rvalue : ∀ c s, (rvalue M e c s).2.labels = s.labels ++ rvalueOrder e
  get : ∀ s, (get M e s).2.labels = s.labels ++ getOrder e
  set : ∀ s, (set M e s).2.labels = s.labels ++ setOrder e
  meaning : ∀ s, (meaning M e s).2.labels = s.labels ++ order e
  place : ∀ s, (place M e s).2.labels = s.labels ++ order e

mutual
theorem logs : ∀ e : Expr V L W, Logs M e
  | .const v => by
    constructor <;> intros <;>
      simp [evaluate, rvalue, get, set, meaning, place, evaluateOrder, rvalueOrder, getOrder,
        setOrder, order]
  | .var l => by
    constructor <;> intros <;>
      simp [evaluate, rvalue, get, set, meaning, place, evaluateOrder, rvalueOrder, getOrder,
        setOrder, order]
  | .part l parent => by
    have hp : Logs M parent := logs parent
    constructor <;> intros <;>
      simp [evaluate, rvalue, get, set, meaning, place, evaluateOrder, rvalueOrder, getOrder,
        setOrder, order, hp.meaning]
  | .arrayPart l parent index => by
    have hp : Logs M parent := logs parent
    have hi : Logs M index := logs index
    constructor <;> intros <;>
      simp [evaluate, rvalue, get, set, meaning, place, evaluateOrder, rvalueOrder, getOrder,
        setOrder, order, hp.meaning, hi.get, hi.meaning]
  | .containerItem cont index => by
    have hc : Logs M cont := logs cont
    have hi : Logs M index := logs index
    constructor <;> intros <;>
      simp [evaluate, rvalue, get, set, meaning, place, evaluateOrder, rvalueOrder, getOrder,
        setOrder, order, hc.set, hc.place, hi.evaluate, hi.rvalue, hi.meaning]
  | .unary f a => by
    have ha : Logs M a := logs a
    constructor <;> intros <;>
      simp [evaluate, rvalue, get, set, meaning, place, evaluateOrder, rvalueOrder, getOrder,
        setOrder, order, ha.get, ha.meaning]
  | .binary f a b => by
    have ha : Logs M a := logs a
    have hb : Logs M b := logs b
    constructor <;> intros <;>
      simp [evaluate, rvalue, get, set, meaning, place, evaluateOrder, rvalueOrder, getOrder,
        setOrder, order, ha.get, ha.meaning, hb.get, hb.meaning]
  | .call n ff args => by
    have ha := logs_data args
    constructor <;> intros <;>
      simp [evaluate, rvalue, get, set, meaning, place, evaluateOrder, rvalueOrder, getOrder,
        setOrder, order, ha]
  | .assign n lhs rhs => by
    have hl : Logs M lhs := logs lhs
    have hr : Logs M rhs := logs rhs
    constructor <;> intros <;>
      simp [evaluate, rvalue, get, set, meaning, place, evaluateOrder, rvalueOrder, getOrder,
        setOrder, order, hl.evaluate, hl.rvalue, hl.get, hl.set, hl.place, hr.evaluate,
        hr.rvalue, hr.meaning]

theorem logs_data : ∀ args : Args V L W,
    (∀ s, (data M args s).2.labels = s.labels ++ dataOrder args) ∧
      (∀ s, (arguments M args s).2.labels = s.labels ++ orderArgs args)
  | .nil => by constructor <;> intro s <;> simp [data, arguments, dataOrder, orderArgs]
  | .value e rest => by
    have he : Logs M e := logs e
    have hr := logs_data rest
    constructor <;> intro s <;>
      simp [data, arguments, dataOrder, orderArgs, he.evaluate, he.rvalue, he.meaning, hr]
  | .reference e rest => by
    have he : Logs M e := logs e
    have hr := logs_data rest
    constructor <;> intro s <;>
      simp [data, arguments, dataOrder, orderArgs, he.set, he.place, hr]
end

theorem append_subset_append {xs ys xs' ys' : List ℕ} (hx : xs ⊆ xs') (hy : ys ⊆ ys') :
    xs ++ ys ⊆ xs' ++ ys' := by
  intro a ha
  rcases List.mem_append.mp ha with ha | ha
  · exact List.mem_append_left _ (hx ha)
  · exact List.mem_append_right _ (hy ha)

mutual
/-- Only what is in an expression is carried out. -/
theorem useOrder_subset : ∀ (e : Expr V L W) (u : Use), useOrder u e ⊆ order e
  | .const v, u => by cases u <;> simp [useOrder, evaluateOrder, rvalueOrder, getOrder, setOrder]
  | .var l, u => by cases u <;> simp [useOrder, evaluateOrder, rvalueOrder, getOrder, setOrder]
  | .part l parent, u => by
    cases u <;> simp [useOrder, evaluateOrder, rvalueOrder, getOrder, setOrder]
  | .arrayPart l parent index, u => by
    have hi : getOrder index ⊆ order index := useOrder_subset index .get
    have hi' := List.Subset.trans hi (List.subset_append_right (order parent) (order index))
    cases u <;>
      simp [useOrder, evaluateOrder, rvalueOrder, getOrder, setOrder, order, hi']
  | .containerItem cont index, u => by
    have hc : setOrder cont ⊆ order cont := useOrder_subset cont .reference
    have hi : evaluateOrder index ++ rvalueOrder index ⊆ order index :=
      useOrder_subset index .value
    have hboth := append_subset_append hc hi
    cases u <;> simpa [useOrder, evaluateOrder, rvalueOrder, getOrder, setOrder, order] using hboth
  | .unary f a, u => by
    have ha : getOrder a ⊆ order a := useOrder_subset a .get
    cases u <;> simp [useOrder, evaluateOrder, rvalueOrder, getOrder, setOrder, order, ha]
  | .binary f a b, u => by
    have ha : getOrder a ⊆ order a := useOrder_subset a .get
    have hb : getOrder b ⊆ order b := useOrder_subset b .get
    have hboth := append_subset_append ha hb
    cases u with
    | reference => simp [useOrder, setOrder]
    | _ => simpa [useOrder, evaluateOrder, rvalueOrder, getOrder, order] using hboth
  | .call n ff args, u => by
    have ha := append_subset_append (dataOrder_subset args) (List.Subset.refl [n])
    cases u with
    | reference => simp [useOrder, setOrder]
    | _ => simpa [useOrder, evaluateOrder, rvalueOrder, getOrder, order] using ha
  | .assign n lhs rhs, u => by
    have hr : evaluateOrder rhs ++ rvalueOrder rhs ⊆ order rhs := useOrder_subset rhs .value
    have hs : setOrder lhs ⊆ order lhs := useOrder_subset lhs .reference
    have hv : evaluateOrder lhs ++ rvalueOrder lhs ⊆ order lhs := useOrder_subset lhs .value
    have hg : getOrder lhs ⊆ order lhs := useOrder_subset lhs .get
    intro x hx
    have hall : x ∈ evaluateOrder rhs ++ rvalueOrder rhs ∨ x ∈ setOrder lhs ∨ x = n ∨
        x ∈ evaluateOrder lhs ++ rvalueOrder lhs ∨ x ∈ getOrder lhs := by
      cases u <;>
        simp only [useOrder, evaluateOrder, rvalueOrder, getOrder, setOrder, List.mem_append,
          List.mem_singleton] at hx ⊢ <;> tauto
    simp only [order, List.mem_append, List.mem_singleton]
    rcases hall with h | h | h | h | h
    · exact .inl (.inl (hr h))
    · exact .inl (.inr (hs h))
    · exact .inr h
    · exact .inl (.inr (hv h))
    · exact .inl (.inr (hg h))

theorem dataOrder_subset : ∀ args : Args V L W, dataOrder args ⊆ orderArgs args
  | .nil => by simp [dataOrder]
  | .value e rest => append_subset_append (useOrder_subset e .value) (dataOrder_subset rest)
  | .reference e rest =>
    append_subset_append (useOrder_subset e .reference) (dataOrder_subset rest)
end

theorem order_eq_nil_iff : ∀ e : Expr V L W, order e = [] ↔ Quiet e
  | .const v => by simp [order, Quiet]
  | .var l => by simp [order, Quiet]
  | .part l parent => order_eq_nil_iff parent
  | .arrayPart l parent index => by
    simp [order, Quiet, order_eq_nil_iff parent, order_eq_nil_iff index]
  | .containerItem cont index => by
    simp [order, Quiet, order_eq_nil_iff cont, order_eq_nil_iff index]
  | .unary f a => order_eq_nil_iff a
  | .binary f a b => by simp [order, Quiet, order_eq_nil_iff a, order_eq_nil_iff b]
  | .call n ff args => by simp [order, Quiet]
  | .assign n lhs rhs => by simp [order, Quiet]

theorem useOrder_of_quiet {e : Expr V L W} (h : Quiet e) (u : Use) : useOrder u e = [] := by
  have hsub := useOrder_subset e u
  rw [(order_eq_nil_iff e).mpr h] at hsub
  exact List.subset_nil.mp hsub

/-- Two lists over separate labels are put together in one way only. -/
theorem append_eq_append_of_subset {xs ys xs' ys' : List ℕ} (hx : xs ⊆ xs') (hy : ys ⊆ ys')
    (hd : (xs' ++ ys').Nodup) : xs ++ ys = xs' ++ ys' ↔ xs = xs' ∧ ys = ys' := by
  constructor
  · intro h
    have hdisjoint := List.disjoint_of_nodup_append hd
    rcases List.append_eq_append_iff.mp h with ⟨as, rfl, rfl⟩ | ⟨as, rfl, rfl⟩
    · have has : as = [] := by
        rw [List.eq_nil_iff_forall_not_mem]
        intro a ha
        exact hdisjoint (List.mem_append_right _ ha) (hy (List.mem_append_left _ ha))
      subst has
      simp
    · have has : as = [] := by
        rw [List.eq_nil_iff_forall_not_mem]
        intro a ha
        exact hdisjoint (hx (List.mem_append_right _ ha)) (List.mem_append_left _ ha)
      subst has
      simp
  · rintro ⟨rfl, rfl⟩
    rfl

/-- Nothing comes after the label that is due last. -/
theorem append_eq_concat {xs ys zs : List ℕ} {n : ℕ} (hn : n ∉ ys) :
    xs ++ [n] ++ ys = zs ++ [n] ↔ xs = zs ∧ ys = [] := by
  constructor
  · intro h
    rcases List.eq_nil_or_concat ys with rfl | ⟨as, a, rfl⟩
    · simpa using h
    · have hlast : xs ++ [n] ++ as ++ [a] = zs ++ [n] := by simpa using h
      have ha : a = n := (List.append_inj' hlast rfl).2 |> List.singleton_injective
      exact absurd (by simp [ha]) hn
  · rintro ⟨rfl, rfl⟩
    simp

/-- Where the target of an assignment is looked for a second time without a call or an
assignment, there is none in it. -/
theorem quiet_of_again {e : Expr V L W} {u : Use} (hu : u ≠ .reference)
    (hagain : useOrder u e = []) (hset : setOrder e = order e) : Quiet e := by
  rw [← order_eq_nil_iff, ← hset]
  cases e with
  | arrayPart l parent index =>
    cases u <;> simp_all [useOrder, evaluateOrder, rvalueOrder, getOrder, setOrder]
  | containerItem cont index =>
    cases u <;> simp_all [useOrder, evaluateOrder, rvalueOrder, getOrder, setOrder]
  | assign n lhs rhs =>
    cases u <;> simp_all [useOrder, evaluateOrder, rvalueOrder, getOrder, setOrder]
  | _ => simp [setOrder]

mutual
/-- The calls and assignments of an expression are carried out as they are due exactly when
`Once` holds. -/
theorem useOrder_eq_iff : ∀ (e : Expr V L W) (u : Use), (order e).Nodup →
    (useOrder u e = order e ↔ Once u e)
  | .const v, u, _ => by
    cases u <;> simp [useOrder, evaluateOrder, rvalueOrder, getOrder, setOrder, order, Once]
  | .var l, u, _ => by
    cases u <;> simp [useOrder, evaluateOrder, rvalueOrder, getOrder, setOrder, order, Once]
  | .part l parent, u, _ => by
    have hp : [] = order parent ↔ Quiet parent := eq_comm.trans (order_eq_nil_iff parent)
    cases u <;>
      simp [useOrder, evaluateOrder, rvalueOrder, getOrder, setOrder, order, Once, hp]
  | .arrayPart l parent index, u, hd => by
    have hp := order_eq_nil_iff parent
    have hq := order_eq_nil_iff index
    have hi : getOrder index = order index ↔ Once .get index :=
      useOrder_eq_iff index .get hd.of_append_right
    have hsub : getOrder index ⊆ order index := useOrder_subset index .get
    have hone : getOrder index = order parent ++ order index ↔
        Quiet parent ∧ Once .get index := by
      rw [← List.nil_append (getOrder index),
        append_eq_append_of_subset (List.nil_subset _) hsub hd, hi, eq_comm, hp]
    cases u with
    | value =>
      simp only [useOrder, evaluateOrder, rvalueOrder, order, Once, forall_const]
      constructor
      · intro h
        have hnil : getOrder index = [] := by
          have hd : (getOrder index ++ getOrder index).Nodup := by rw [h]; exact hd
          have hdisjoint := List.disjoint_of_nodup_append hd
          rw [List.eq_nil_iff_forall_not_mem]
          intro x hx
          exact hdisjoint hx hx
        rw [hnil] at h
        have hboth : order parent = [] ∧ order index = [] := by simpa using h.symm
        exact ⟨hp.mp hboth.1, hq.mp hboth.2, hi.mp (hnil.trans hboth.2.symm)⟩
      · rintro ⟨hparent, hindex, -⟩
        have hnil : getOrder index = [] := useOrder_of_quiet hindex .get
        rw [hnil, hp.mpr hparent, hq.mpr hindex]
    | statement => simpa [useOrder, evaluateOrder, order, Once] using hone
    | get => simpa [useOrder, getOrder, order, Once] using hone
    | reference => simpa [useOrder, setOrder, order, Once] using hone
  | .containerItem cont index, u, hd => by
    have hc : setOrder cont = order cont ↔ Once .reference cont :=
      useOrder_eq_iff cont .reference hd.of_append_left
    have hi : evaluateOrder index ++ rvalueOrder index = order index ↔ Once .value index :=
      useOrder_eq_iff index .value hd.of_append_right
    have hboth : setOrder cont ++ (evaluateOrder index ++ rvalueOrder index) =
        order cont ++ order index ↔ Once .reference cont ∧ Once .value index := by
      have hsub : setOrder cont ⊆ order cont := useOrder_subset cont .reference
      have hsub' : evaluateOrder index ++ rvalueOrder index ⊆ order index :=
        useOrder_subset index .value
      rw [append_eq_append_of_subset hsub hsub' hd, hc, hi]
    cases u <;>
      simpa [useOrder, evaluateOrder, rvalueOrder, getOrder, setOrder, order, Once] using hboth
  | .unary f a, u, hd => by
    have ha : getOrder a = order a ↔ Once .get a := useOrder_eq_iff a .get hd
    cases u with
    | reference =>
      have hq := order_eq_nil_iff a
      simp only [useOrder, setOrder, order, Once, forall_const]
      constructor
      · intro h
        have hquiet := hq.mp h.symm
        have hget : getOrder a = [] := useOrder_of_quiet hquiet .get
        exact ⟨hquiet, ha.mp (hget.trans h)⟩
      · intro h
        exact (hq.mpr h.1).symm
    | statement => simpa [useOrder, evaluateOrder, order, Once] using ha
    | value => simpa [useOrder, evaluateOrder, rvalueOrder, order, Once] using ha
    | get => simpa [useOrder, getOrder, order, Once] using ha
  | .binary f a b, u, hd => by
    have ha : getOrder a = order a ↔ Once .get a := useOrder_eq_iff a .get hd.of_append_left
    have hb : getOrder b = order b ↔ Once .get b := useOrder_eq_iff b .get hd.of_append_right
    have hboth : getOrder a ++ getOrder b = order a ++ order b ↔ Once .get a ∧ Once .get b := by
      have hsub : getOrder a ⊆ order a := useOrder_subset a .get
      have hsub' : getOrder b ⊆ order b := useOrder_subset b .get
      rw [append_eq_append_of_subset hsub hsub' hd, ha, hb]
    cases u with
    | reference =>
      have hqa := order_eq_nil_iff a
      have hqb := order_eq_nil_iff b
      simp only [useOrder, setOrder, order, Once, forall_const]
      constructor
      · intro h
        obtain ⟨hoa, hob⟩ : order a = [] ∧ order b = [] := by simpa using h.symm
        have hga : getOrder a = [] := useOrder_of_quiet (hqa.mp hoa) .get
        have hgb : getOrder b = [] := useOrder_of_quiet (hqb.mp hob) .get
        exact ⟨⟨hqa.mp hoa, hqb.mp hob⟩, ha.mp (hga.trans hoa.symm), hb.mp (hgb.trans hob.symm)⟩
      · intro h
        rw [hqa.mpr h.1.1, hqb.mpr h.1.2]
        rfl
    | statement => simpa [useOrder, evaluateOrder, order, Once] using hboth
    | value => simpa [useOrder, evaluateOrder, rvalueOrder, order, Once] using hboth
    | get => simpa [useOrder, getOrder, order, Once] using hboth
  | .call n ff args, u, hd => by
    have ha := dataOrder_eq_iff args hd.of_append_left
    cases u <;>
      simp [useOrder, evaluateOrder, rvalueOrder, getOrder, setOrder, order, Once, ha]
  | .assign n lhs rhs, u, hd => by
    have hdsub := hd.of_append_left
    have hn : n ∉ order lhs := fun hn => List.disjoint_of_nodup_append hd
      (List.mem_append_right _ hn) (List.mem_singleton_self n)
    have hr : evaluateOrder rhs ++ rvalueOrder rhs = order rhs ↔ Once .value rhs :=
      useOrder_eq_iff rhs .value hdsub.of_append_left
    have hboth : evaluateOrder rhs ++ rvalueOrder rhs ++ setOrder lhs = order rhs ++ order lhs ↔
        Once .value rhs ∧ setOrder lhs = order lhs := by
      have hsub : evaluateOrder rhs ++ rvalueOrder rhs ⊆ order rhs := useOrder_subset rhs .value
      have hsub' : setOrder lhs ⊆ order lhs := useOrder_subset lhs .reference
      rw [append_eq_append_of_subset hsub hsub' hdsub, hr]
    -- what is carried out after the assignment comes too late
    have hagain : ∀ v : Use, v ≠ .reference →
        (evaluateOrder rhs ++ rvalueOrder rhs ++ setOrder lhs ++ [n] ++ useOrder v lhs =
          order rhs ++ order lhs ++ [n] ↔ Quiet lhs ∧ Once .value rhs) := by
      intro v hv
      rw [append_eq_concat fun h => hn (useOrder_subset lhs v h), hboth]
      constructor
      · rintro ⟨⟨hrhs, hset⟩, hnil⟩
        exact ⟨quiet_of_again hv hnil hset, hrhs⟩
      · rintro ⟨hquiet, hrhs⟩
        have hset : setOrder lhs = [] := useOrder_of_quiet hquiet .reference
        exact ⟨⟨hrhs, hset.trans ((order_eq_nil_iff lhs).mpr hquiet).symm⟩,
          useOrder_of_quiet hquiet v⟩
    cases u with
    | reference =>
      simp only [useOrder, setOrder, order, Once, ne_eq, not_true_eq_false, false_and, iff_false]
      intro h
      have hmem : n ∈ setOrder lhs := by rw [h]; simp
      exact hn (useOrder_subset lhs .reference hmem)
    | statement =>
      simpa [useOrder, evaluateOrder, order, Once] using hagain .statement (by simp)
    | value =>
      simpa [useOrder, evaluateOrder, rvalueOrder, order, Once] using hagain .value (by simp)
    | get => simpa [useOrder, evaluateOrder, getOrder, order, Once] using hagain .get (by simp)

theorem dataOrder_eq_iff : ∀ args : Args V L W, (orderArgs args).Nodup →
    (dataOrder args = orderArgs args ↔ OnceArgs args)
  | .nil, _ => by simp [dataOrder, orderArgs, OnceArgs]
  | .value e rest, hd => by
    have he : evaluateOrder e ++ rvalueOrder e = order e ↔ Once .value e :=
      useOrder_eq_iff e .value hd.of_append_left
    have hsub : evaluateOrder e ++ rvalueOrder e ⊆ order e := useOrder_subset e .value
    unfold dataOrder orderArgs OnceArgs
    rw [append_eq_append_of_subset hsub (dataOrder_subset rest) hd, he,
      dataOrder_eq_iff rest hd.of_append_right]
  | .reference e rest, hd => by
    have he : setOrder e = order e ↔ Once .reference e :=
      useOrder_eq_iff e .reference hd.of_append_left
    have hsub : setOrder e ⊆ order e := useOrder_subset e .reference
    unfold dataOrder orderArgs OnceArgs
    rw [append_eq_append_of_subset hsub (dataOrder_subset rest) hd, he,
      dataOrder_eq_iff rest hd.of_append_right]
end

/-- A memory of numbers; an item of the container at `l` lies behind `l`. -/
def memory : Machine ℕ ℕ (List ℕ) where
  read l w := w.getD l 0
  write l v w := w.set l v
  item l v w := if l + v < w.length then l + v else w.length
  na := 0

/-- An operation that returns a counter and increments it. -/
def next (n : ℕ) : Expr ℕ ℕ (List ℕ) :=
  .call n (fun _ w => (w.getD 0 0, w.set 0 (w.getD 0 0 + 1))) .nil

end OrocosRtt.DataSource.Evaluate
