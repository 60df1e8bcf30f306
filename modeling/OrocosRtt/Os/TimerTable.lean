import OrocosRtt.Os.TimerRuns

/-! The indexes at which the functions of a timer object use its table, and what they do with an
index that is not in it. -/
namespace OrocosRtt.Os.Timer

variable {τ : Type}

/-- What a function that only reads the table has: it refused the index and returned its default, it
read a slot, or it read behind the end. -/
inductive Reading (α : Type) where
  | refused (value : α)
  | outside
  | read (value : α)
deriving DecidableEq, Repr

/-- The test in `isArmed`, `timeRemaining` and `killTimer`, under the mutex. -/
def badId (s : State τ) (id : ℤ) : Bool := id < 0 || id > s.mtimers.length

def isArmed (s : State τ) (id : ℤ) : Reading Bool :=
  if badId s id then .refused false
  else
    match s.mtimers[id.toNat]? with
    | some t => .read (t.first ≠ 0)
    | none => .outside

/-- In nanoseconds. -/
def timeRemaining (s : State τ) (id : ℤ) : Reading ℤ :=
  if badId s id then .refused 0
  else
    match s.mtimers[id.toNat]? with
    | some t => .read (if (t.first : ℤ) - s.clock < 0 then 0 else t.first - s.clock)
    | none => .outside

/-- A step of a run with all functions: those that only read the table take the mutex once. -/
inductive Move (τ : Type)
  | act (a : Act τ)
  | isArmed (id : ℤ)
  | timeRemaining (id : ℤ)

def move [DecidableEq τ] (s : State τ) : Move τ → State τ
  | .act a => step s a
  | .isArmed _ | .timeRemaining _ => s

/-- The indexes at which a call uses the table in its next step. -/
def callUses (s : State τ) : Call → List ℕ
  | .write id _ _ _ => [id]
  | .killTimer id => if badId s id then [] else [id.toNat]
  | _ => []

/-- The indexes at which the loop does. The selection goes over the whole vector. -/
def loopUses (s : State τ) : List ℕ :=
  match s.place with
  | .select => List.range s.mtimers.length
  | .reprogram id => if id < s.mtimers.length then [id] else []
  | _ => []

def uses (s : State τ) : Move τ → List ℕ
  | .act .loop => loopUses s
  | .act (.call t) => callUses s (s.calls t)
  | .act _ => []
  | .isArmed id | .timeRemaining id => if badId s id then [] else [id.toNat]

/-- The id that the call tests in its next step. -/
def Call.tested : Call → Option ℤ
  | .startTimer id _ | .arm id _ | .killTimer id => some id
  | _ => none

/-- What the call returns in its next step. -/
def returned (s : State τ) : Call → Option Bool
  | .startTimer id time | .arm id time => if invalid s id time then some false else none
  | .signal => some true
  | .killTimer id => some (!badId s id)
  | _ => none

/-- The id is that of no slot. -/
def Strange (s : State τ) (id : ℤ) : Prop := id < 0 ∨ (s.mtimers.length : ℤ) ≤ id

/-- The call returns false and changes nothing besides. -/
def Refused [DecidableEq τ] (s : State τ) (t : τ) : Prop :=
  returned s (s.calls t) = some false ∧ callMove s t = s.call t .idle

/-- A call with an id outside the table is refused. -/
def Refuses [DecidableEq τ] (s : State τ) : Move τ → Prop
  | .act (.call t) => ∀ id, (s.calls t).tested = some id → Strange s id → Refused s t
  | .act _ => True
  | .isArmed id => Strange s id → isArmed s id = .refused false
  | .timeRemaining id => Strange s id → timeRemaining s id = .refused 0

/-- The step uses no index outside the table, and refuses one that it is called with. -/
structure InTable [DecidableEq τ] (s : State τ) (m : Move τ) : Prop where
  inside : ∀ i ∈ uses s m, i < s.mtimers.length
  refuses : Refuses s m

/-- A call has tested its id, and has not yet written its slot. -/
def Call.underway (id : ℕ) : Call → Prop
  | .readClock i _ _ | .write i _ _ _ => i = id
  | _ => False

/-- The id that is tested is not the size of the table, and the table is not made smaller for an id
between its test and its use. -/
def Call.fits (s : State τ) : Call → Prop
  | .startTimer id time | .arm id time => 0 ≤ time → id ≠ s.mtimers.length
  | .killTimer id => id ≠ s.mtimers.length
  | .setMaxTimers max => ∀ u id, (s.calls u).underway id → id < max
  | _ => True

def Fits (s : State τ) : Move τ → Prop
  | .act (.call t) => (s.calls t).fits s
  | .act _ => True
  | .isArmed id | .timeRemaining id => id ≠ s.mtimers.length

/-- The ids on the way to their slots are those of slots. -/
def Underway (s : State τ) : Prop := ∀ u id, (s.calls u).underway id → id < s.mtimers.length

/-! ### The tests -/

theorem badId_of_ne {s : State τ} {id : ℤ} (h : id ≠ s.mtimers.length) :
    badId s id = true ↔ Strange s id := by
  unfold badId Strange
  simp only [Bool.or_eq_true, decide_eq_true_eq]
  omega

theorem badId_eq (s : State τ) : badId s s.mtimers.length = false := by
  unfold badId
  simp only [Bool.or_eq_false_iff, decide_eq_false_iff_not]
  omega

theorem toNat_lt_of_good {s : State τ} {id : ℤ} (hne : id ≠ s.mtimers.length)
    (h : badId s id = false) : id.toNat < s.mtimers.length := by
  unfold badId at h
  simp only [Bool.or_eq_false_iff, decide_eq_false_iff_not] at h
  omega

theorem invalid_eq (s : State τ) (id time : ℤ) :
    invalid s id time = (badId s id || decide (time < 0)) := rfl

theorem toNat_lt_of_valid {s : State τ} {id time : ℤ} (hne : 0 ≤ time → id ≠ s.mtimers.length)
    (h : invalid s id time = false) : id.toNat < s.mtimers.length := by
  rw [invalid_eq, Bool.or_eq_false_iff, decide_eq_false_iff_not] at h
  exact toNat_lt_of_good (hne (by omega)) h.1

theorem invalid_of_strange {s : State τ} {id time : ℤ} (hne : 0 ≤ time → id ≠ s.mtimers.length)
    (h : Strange s id) : invalid s id time = true := by
  rw [invalid_eq, Bool.or_eq_true, decide_eq_true_eq]
  by_cases htime : time < 0
  · exact .inr htime
  · exact .inl ((badId_of_ne (hne (by omega))).mpr h)

theorem resize_length (l : List Slot) (max : ℕ) : (resize l max).length = max := by
  unfold resize
  rw [List.length_append, List.length_take, List.length_replicate]
  omega

/-! ### The ids on their way -/

theorem Underway.frame {s s' : State τ} (h : Underway s) (hcalls : s'.calls = s.calls)
    (hlen : s'.mtimers.length = s.mtimers.length) : Underway s' := by
  intro u id hu
  rw [hcalls] at hu
  rw [hlen]
  exact h u id hu

/-- The loop clears and reprograms slots, and leaves the size as it is. -/
theorem loopMove_frame (s : State τ) : (loopMove s).calls = s.calls ∧
    (loopMove s).mtimers.length = s.mtimers.length ∧ (loopMove s).outside = s.outside := by
  unfold loopMove
  cases s.place with
  | wait wake =>
    dsimp only
    by_cases hsem : 0 < s.sem
    · rw [if_pos hsem]
      exact ⟨rfl, rfl, rfl⟩
    · rw [if_neg hsem]
      by_cases hwake : wake ≤ s.clock
      · rw [if_pos hwake]
        exact ⟨rfl, rfl, rfl⟩
      · rw [if_neg hwake]
        exact ⟨rfl, rfl, rfl⟩
  | test wake id =>
    dsimp only
    by_cases hwake : s.clock < wake
    · rw [if_pos hwake]
      exact ⟨rfl, rfl, rfl⟩
    · rw [if_neg hwake]
      exact ⟨rfl, rfl, rfl⟩
  | reprogram id =>
    dsimp only
    cases s.mtimers[id]? with
    | some t => exact ⟨rfl, List.length_set, rfl⟩
    | none => exact ⟨rfl, rfl, rfl⟩
  | select => exact ⟨rfl, rfl, rfl⟩
  | call => exact ⟨rfl, rfl, rfl⟩
  | timeout => exact ⟨rfl, rfl, rfl⟩

variable [DecidableEq τ]

omit [DecidableEq τ] in
theorem Underway.write {s : State τ} (h : Underway s) (id : ℕ) (slot : Slot) :
    Underway (s.write id slot) := by
  obtain ⟨hmtimers, -, -, hcalls⟩ := s.write_mtimers id slot
  exact h.frame hcalls (by rw [hmtimers, List.length_set])

theorem Underway.call {s : State τ} (h : Underway s) (t : τ) {k : Call}
    (hk : ∀ id, k.underway id → id < s.mtimers.length) : Underway (s.call t k) := by
  intro u id hu
  by_cases hut : u = t
  · subst hut
    rw [State.call_self] at hu
    exact hk id hu
  · rw [State.call_other s k hut] at hu
    exact h u id hu

theorem callMove_underway {s : State τ} {t : τ} (h : Underway s) (hfit : (s.calls t).fits s) :
    Underway (callMove s t) := by
  unfold callMove
  cases hk : s.calls t with
  | idle => exact h
  | startTimer id period =>
    rw [hk] at hfit
    dsimp only
    cases hv : invalid s id period with
    | true => exact h.call t nofun
    | false =>
      refine h.call t ?_
      rintro _ rfl
      exact toNat_lt_of_valid hfit hv
  | arm id wait =>
    rw [hk] at hfit
    dsimp only
    cases hv : invalid s id wait with
    | true => exact h.call t nofun
    | false =>
      refine h.call t ?_
      rintro _ rfl
      exact toNat_lt_of_valid hfit hv
  | readClock id wait period =>
    refine h.call t ?_
    rintro _ rfl
    exact h t id (by rw [hk]; rfl)
  | write id start wait period =>
    have hw : Underway { s.write id ⟨start + wait, period⟩ with
        log := .armed id start wait period :: s.log } :=
      (h.write id _).frame rfl rfl
    exact hw.call t nofun
  | signal =>
    have hsignalled : Underway { s with sem := s.sem + 1 } := h.frame rfl rfl
    exact hsignalled.call t nofun
  | killTimer id =>
    dsimp only
    by_cases hid : id < 0 ∨ id > s.mtimers.length
    · rw [if_pos hid]
      exact h.call t nofun
    · rw [if_neg hid]
      have hw : Underway { s.write id.toNat ⟨0, 0⟩ with log := .killed id.toNat :: s.log } :=
        (h.write id.toNat _).frame rfl rfl
      exact hw.call t nofun
  | setMaxTimers max =>
    rw [hk] at hfit
    have hw : Underway
        { s with mtimers := resize s.mtimers max, log := .resized max :: s.log } := by
      intro u id hu
      rw [resize_length]
      exact hfit u id hu
    exact hw.call t nofun

theorem move_underway (s : State τ) (m : Move τ) (h : Underway s) (hfit : Fits s m) :
    Underway (move s m) := by
  cases m with
  | act a =>
    cases a with
    | loop => exact h.frame (loopMove_frame s).1 (loopMove_frame s).2.1
    | call t => exact callMove_underway h hfit
    | begins t k =>
      rw [move, step]
      by_cases hk : s.calls t = .idle ∧ k.isRequest = true
      · rw [if_pos hk]
        refine h.call t fun id hid => ?_
        cases k <;> first | exact hid.elim | cases hk.2
      · rw [if_neg hk]
        exact h
    | tick n => exact h
  | isArmed id => exact h
  | timeRemaining id => exact h

/-! ### One step -/

theorem refused_of_invalid {s : State τ} {t : τ} {id time : ℤ}
    (hk : s.calls t = .startTimer id time ∨ s.calls t = .arm id time)
    (h : invalid s id time = true) : Refused s t := by
  unfold Refused callMove returned
  rcases hk with hk | hk <;> simp [hk, h]

theorem refused_of_badId {s : State τ} {t : τ} {id : ℤ} (hk : s.calls t = .killTimer id)
    (h : badId s id = true) : Refused s t := by
  have hid : id < 0 ∨ id > s.mtimers.length := by
    simpa [badId] using h
  unfold Refused callMove returned
  simp [hk, h, hid]

omit [DecidableEq τ] in
theorem callUses_inside {s : State τ} {t : τ} (h : Underway s) (hfit : (s.calls t).fits s) :
    ∀ i ∈ callUses s (s.calls t), i < s.mtimers.length := by
  intro i hi
  cases hk : s.calls t with
  | write id start wait period =>
    rw [hk] at hi
    rw [List.mem_singleton.mp hi]
    exact h t id (by rw [hk]; rfl)
  | killTimer id =>
    rw [hk] at hi hfit
    rw [callUses] at hi
    cases hb : badId s id with
    | true => simp [hb] at hi
    | false =>
      rw [hb, if_neg Bool.false_ne_true] at hi
      rw [List.mem_singleton.mp hi]
      exact toNat_lt_of_good hfit hb
  | idle => simp [hk, callUses] at hi
  | startTimer => simp [hk, callUses] at hi
  | arm => simp [hk, callUses] at hi
  | readClock => simp [hk, callUses] at hi
  | signal => simp [hk, callUses] at hi
  | setMaxTimers => simp [hk, callUses] at hi

theorem call_refuses {s : State τ} {t : τ} (hfit : (s.calls t).fits s) :
    Refuses s (.act (.call t)) := by
  intro id htested hstrange
  cases hk : s.calls t with
  | startTimer i time =>
    rw [hk] at htested hfit
    obtain rfl : i = id := Option.some.inj htested
    exact refused_of_invalid (.inl hk) (invalid_of_strange hfit hstrange)
  | arm i time =>
    rw [hk] at htested hfit
    obtain rfl : i = id := Option.some.inj htested
    exact refused_of_invalid (.inr hk) (invalid_of_strange hfit hstrange)
  | killTimer i =>
    rw [hk] at htested hfit
    obtain rfl : i = id := Option.some.inj htested
    exact refused_of_badId hk ((badId_of_ne hfit).mpr hstrange)
  | idle => simp [hk, Call.tested] at htested
  | readClock => simp [hk, Call.tested] at htested
  | write => simp [hk, Call.tested] at htested
  | signal => simp [hk, Call.tested] at htested
  | setMaxTimers => simp [hk, Call.tested] at htested

omit [DecidableEq τ] in
theorem loopUses_inside (s : State τ) : ∀ i ∈ loopUses s, i < s.mtimers.length := by
  intro i hi
  unfold loopUses at hi
  cases hp : s.place with
  | select =>
    rw [hp] at hi
    exact List.mem_range.mp hi
  | reprogram id =>
    rw [hp] at hi
    dsimp only at hi
    by_cases hid : id < s.mtimers.length
    · rw [if_pos hid] at hi
      rw [List.mem_singleton.mp hi]
      exact hid
    · rw [if_neg hid] at hi
      exact absurd hi List.not_mem_nil
  | test => simp [hp] at hi
  | wait => simp [hp] at hi
  | call => simp [hp] at hi
  | timeout => simp [hp] at hi

omit [DecidableEq τ] in
theorem read_inside {s : State τ} {id : ℤ} (hne : id ≠ s.mtimers.length) :
    ∀ i ∈ (if badId s id then [] else [id.toNat]), i < s.mtimers.length := by
  intro i hi
  cases hb : badId s id with
  | true => simp [hb] at hi
  | false =>
    rw [hb, if_neg Bool.false_ne_true] at hi
    rw [List.mem_singleton.mp hi]
    exact toNat_lt_of_good hne hb

theorem fits_inTable (s : State τ) (m : Move τ) (h : Underway s) (hfit : Fits s m) :
    InTable s m := by
  cases m with
  | act a =>
    cases a with
    | loop => exact ⟨loopUses_inside s, trivial⟩
    | call t => exact ⟨callUses_inside h hfit, call_refuses hfit⟩
    | begins => exact ⟨nofun, trivial⟩
    | tick => exact ⟨nofun, trivial⟩
  | isArmed id =>
    refine ⟨read_inside hfit, fun hs => ?_⟩
    rw [isArmed, if_pos ((badId_of_ne hfit).mpr hs)]
  | timeRemaining id =>
    refine ⟨read_inside hfit, fun hs => ?_⟩
    rw [timeRemaining, if_pos ((badId_of_ne hfit).mpr hs)]

omit [DecidableEq τ] in
theorem State.write_inside {s : State τ} {id : ℕ} (slot : Slot) (h : s.outside = false)
    (hid : id < s.mtimers.length) : (s.write id slot).outside = false := by
  rw [State.write, if_pos hid]
  exact h

/-- The vector is not written outside its bounds. -/
theorem InTable.not_outside {s : State τ} {m : Move τ} (h : InTable s m)
    (hs : s.outside = false) : (move s m).outside = false := by
  cases m with
  | act a =>
    cases a with
    | loop => exact (loopMove_frame s).2.2.trans hs
    | call t =>
      have hin := h.inside
      rw [move, step, callMove]
      rw [uses] at hin
      cases hk : s.calls t with
      | write id start wait period =>
        rw [hk, callUses] at hin
        exact State.write_inside _ hs (hin id (List.mem_singleton_self id))
      | killTimer id =>
        rw [hk, callUses] at hin
        dsimp only
        by_cases hid : id < 0 ∨ id > s.mtimers.length
        · rw [if_pos hid]
          exact hs
        · rw [if_neg hid]
          have hb : badId s id = false := by simpa [badId] using hid
          rw [hb, if_neg Bool.false_ne_true] at hin
          exact State.write_inside _ hs (hin id.toNat (List.mem_singleton_self _))
      | startTimer id period =>
        dsimp only
        cases invalid s id period <;> exact hs
      | arm id wait =>
        dsimp only
        cases invalid s id wait <;> exact hs
      | idle => exact hs
      | readClock => exact hs
      | signal => exact hs
      | setMaxTimers => exact hs
    | begins t k =>
      rw [move, step]
      by_cases hk : s.calls t = .idle ∧ k.isRequest = true
      · rw [if_pos hk]
        exact hs
      · rw [if_neg hk]
        exact hs
    | tick n => exact hs
  | isArmed id => exact hs
  | timeRemaining id => exact hs

theorem run_not_outside {moves : List (Move τ)} {s : State τ}
    (h : Library.Run.Along move InTable s moves) (hs : s.outside = false) :
    (Library.Run.run move s moves).outside = false :=
  Library.Run.run_invariant (I := fun s => s.outside = false)
    (fun _ _ hs h => h.not_outside hs) hs h

/-! ### Steps that do not fit -/

omit [DecidableEq τ] in
theorem strange_size (s : State τ) : Strange s s.mtimers.length := .inr (Int.le_refl _)

/-- The id that is equal to the size is not refused. -/
theorem tested_size {s : State τ} {t : τ} {k : Call} (hk : s.calls t = k)
    (htested : k.tested = some (s.mtimers.length : ℤ)) (hreturned : returned s k ≠ some false) :
    ¬ InTable s (.act (.call t)) := by
  intro h
  have hrefused := h.refuses _ (by rw [hk]; exact htested) (strange_size s)
  rw [Refused, hk] at hrefused
  exact hreturned hrefused.1

omit [DecidableEq τ] in
theorem not_invalid_size {s : State τ} {time : ℤ} (h : 0 ≤ time) :
    invalid s s.mtimers.length time = false := by
  rw [invalid_eq, badId_eq, Bool.false_or, decide_eq_false_iff_not]
  omega

/-- A call whose slot is gone when it takes the mutex writes outside of the table. -/
theorem write_outside {s : State τ} {u : τ} {id : ℕ} (hu : (s.calls u).underway id)
    (hlen : s.mtimers.length ≤ id) :
    ∃ more, Library.Run.Along move Fits s more ∧ ¬ Library.Run.Along move InTable s more := by
  have hwrite : ∀ {s' : State τ} {start wait period : ℕ}, s'.calls u = .write id start wait period →
      s'.mtimers.length ≤ id → ¬ InTable s' (.act (.call u)) := by
    intro s' start wait period hk hlen' h
    have hin := h.inside id (by rw [uses, hk, callUses]; exact List.mem_singleton_self id)
    omega
  cases hk : s.calls u with
  | write i start wait period =>
    rw [hk] at hu
    obtain rfl : i = id := hu
    refine ⟨[.act (.call u)], ⟨?_, trivial⟩, fun h => hwrite hk hlen h.1⟩
    rw [Fits, hk]
    trivial
  | readClock i wait period =>
    rw [hk] at hu
    obtain rfl : i = id := hu
    have hnext : move s (.act (.call u)) = s.call u (.write i s.clock wait period) := by
      rw [move, step, callMove, hk]
    have hk' : (s.call u (.write i s.clock wait period)).calls u = .write i s.clock wait period :=
      s.call_self u _
    refine ⟨[.act (.call u), .act (.call u)], ⟨?_, ?_, trivial⟩, fun h => ?_⟩
    · rw [Fits, hk]
      trivial
    · rw [hnext, Fits, hk']
      trivial
    · have hsecond := h.2.1
      rw [hnext] at hsecond
      exact hwrite hk' hlen hsecond
  | idle => rw [hk] at hu; exact hu.elim
  | startTimer => rw [hk] at hu; exact hu.elim
  | arm => rw [hk] at hu; exact hu.elim
  | signal => rw [hk] at hu; exact hu.elim
  | killTimer => rw [hk] at hu; exact hu.elim
  | setMaxTimers => rw [hk] at hu; exact hu.elim

theorem shrunk_outside {s : State τ} {t : τ} {max : ℕ} (hk : s.calls t = .setMaxTimers max)
    (hfit : ¬ (s.calls t).fits s) :
    ∃ more, Library.Run.Along move Fits (move s (.act (.call t))) more ∧
      ¬ Library.Run.Along move InTable s (.act (.call t) :: more) := by
  have hlost : ∃ u id, (s.calls u).underway id ∧ ¬ id < max := by
    by_contra hnone
    refine hfit ?_
    rw [hk]
    intro u id hu
    by_contra hlt
    exact hnone ⟨u, id, hu, hlt⟩
  obtain ⟨u, id, hu, hlt⟩ := hlost
  have hne : u ≠ t := by
    rintro rfl
    rw [hk] at hu
    exact hu
  have hnext : move s (.act (.call t)) =
      { s with mtimers := resize s.mtimers max, log := .resized max :: s.log }.call t .idle := by
    rw [move, step, callMove, hk]
  have hu' : ((move s (.act (.call t))).calls u).underway id := by
    rw [hnext, State.call_other _ _ hne]
    exact hu
  have hlen : (move s (.act (.call t))).mtimers.length ≤ id := by
    rw [hnext]
    exact Nat.le_trans (Nat.le_of_eq (resize_length s.mtimers max)) (Nat.le_of_not_lt hlt)
  obtain ⟨more, hmore, hfails⟩ := write_outside hu' hlen
  exact ⟨more, hmore, fun h => hfails h.2⟩

/-- After a step that does not fit, or in it, the table can be used outside its bounds. -/
theorem not_fits_breach (s : State τ) (m : Move τ) (_ : Underway s) (hfit : ¬ Fits s m) :
    ∃ more, Library.Run.Along move Fits (move s m) more ∧
      ¬ Library.Run.Along move InTable s (m :: more) := by
  have hnow (h : ¬ InTable s m) : ∃ more, Library.Run.Along move Fits (move s m) more ∧
      ¬ Library.Run.Along move InTable s (m :: more) :=
    ⟨[], trivial, fun hall => h hall.1⟩
  cases m with
  | act a =>
    cases a with
    | loop => exact absurd trivial hfit
    | begins => exact absurd trivial hfit
    | tick => exact absurd trivial hfit
    | call t =>
      rw [Fits] at hfit
      cases hk : s.calls t with
      | startTimer id time =>
        rw [hk, Call.fits, Classical.not_imp, not_not] at hfit
        obtain ⟨htime, rfl⟩ := hfit
        refine hnow (tested_size hk rfl ?_)
        rw [returned, not_invalid_size htime]
        nofun
      | arm id time =>
        rw [hk, Call.fits, Classical.not_imp, not_not] at hfit
        obtain ⟨htime, rfl⟩ := hfit
        refine hnow (tested_size hk rfl ?_)
        rw [returned, not_invalid_size htime]
        nofun
      | killTimer id =>
        rw [hk, Call.fits, not_not] at hfit
        subst hfit
        refine hnow (tested_size hk rfl ?_)
        rw [returned, badId_eq]
        nofun
      | setMaxTimers max =>
        exact shrunk_outside hk hfit
      | idle => rw [hk] at hfit; exact absurd trivial hfit
      | readClock => rw [hk] at hfit; exact absurd trivial hfit
      | write => rw [hk] at hfit; exact absurd trivial hfit
      | signal => rw [hk] at hfit; exact absurd trivial hfit
  | isArmed id =>
    rw [Fits, not_not] at hfit
    subst hfit
    refine hnow fun h => ?_
    have hrefused := h.refuses (strange_size s)
    simp [isArmed, badId_eq] at hrefused
  | timeRemaining id =>
    rw [Fits, not_not] at hfit
    subst hfit
    refine hnow fun h => ?_
    have hrefused := h.refuses (strange_size s)
    simp [timeRemaining, badId_eq] at hrefused

omit [DecidableEq τ] in
theorem create_underway (max_timers : ℕ) : Underway (create (τ := τ) max_timers) := by
  rintro u id ⟨⟩

/-- A run in which each step fits uses the table within its bounds and refuses the ids outside of
it. The condition is needed: a step that does not fit is wrong itself, or can be followed by such
that fit to a use of the table outside its bounds. -/
theorem in_table_iff (max_timers : ℕ) (moves : List (Move τ)) :
    Library.Run.Along move Fits (create max_timers) moves ↔
      ∀ begun rest more, moves = begun ++ rest →
        Library.Run.Along move Fits (Library.Run.run move (create max_timers) begun) more →
          Library.Run.Along move InTable (create max_timers) (begun ++ more) :=
  Library.Run.along_iff_safe move_underway fits_inTable not_fits_breach
    (create_underway max_timers)

/-- With one timer, timer 1 is killed. -/
theorem killed_behind_end : ¬ Library.Run.Along move InTable (create (τ := Unit) 1)
    [.act (.begins () (.killTimer 1)), .act (.call ())] := by
  rintro ⟨-, h, -⟩
  have hinside := h.inside 1
  simp [uses, move, step, create, Call.isRequest, callUses, badId, State.call] at hinside

end OrocosRtt.Os.Timer
