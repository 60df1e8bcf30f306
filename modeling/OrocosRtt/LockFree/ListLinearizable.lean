import OrocosRtt.LockFree.ListLedger

/-! Each operation on the list takes effect in one moment between its call and its return, and no
buffer that is locked is written. -/
namespace OrocosRtt.LockFree.ListLockFree

open Library.Linearize Library.Interleaving

variable {α τ : Type} [DecidableEq α]

section Turns

variable [Fintype τ] {g : Ledger α τ} {m : System (Traced α τ) τ (Activity α)} {t : τ}

/-- The turn of a thread in an operation keeps the accounts. -/
def Moved (g : Ledger α τ) (m : System (Traced α τ) τ (Activity α)) (t : τ) (op : Operation α)
    (x : ListLockFree α × Next α) : Prop :=
  ∃ es, Moves m t (resume t m.shared.history op x).1 (resume t m.shared.history op x).2 g.log es

variable {op : Operation α} {towrite : ℤ}

/-- Between two attempts nothing is known. -/
theorem moved_read (hm : Holds Accounts Plays g m) (ha : m.locals t = .running op towrite .read) :
    Moved g m t op (advance op towrite .read m.shared.list) := by
  have hp := hm.locals t
  rw [ha] at hp
  refine ⟨[], .local hm ?_ ?_ ?_ ?_ ⟨hp.knows.1, trivial⟩⟩ <;> rw [ha] <;> rfl

theorem moved_lock {orig : ℕ} (hm : Holds Accounts Plays g m)
    (ha : m.locals t = .running op towrite (.lock orig)) :
    Moved g m t op (advance op towrite (.lock orig) m.shared.list) := by
  have hp := hm.locals t
  rw [ha] at hp
  refine ⟨[], .quiet hm ?_ rfl rfl rfl (fun _ => nofun) (fun _ _ => rfl) (fun _ => nofun) ?_
    ⟨hp.knows.1, trivial⟩⟩
  · rw [ha]
    exact inc_balance m.shared.list (.refl _)
  · rw [ha]
    rfl

theorem moved_unlock {orig : ℕ} (hm : Holds Accounts Plays g m)
    (ha : m.locals t = .running op towrite (.unlock orig)) :
    Moved g m t op (advance op towrite (.unlock orig) m.shared.list) := by
  have hp := hm.locals t
  rw [ha] at hp
  refine ⟨[], .dec hm ?_ (fun _ => nofun) (fun _ => nofun) ?_ ⟨hp.knows.1, trivial⟩⟩
  · rw [ha]
    exact .refl _
  · rw [ha]
    rfl

theorem length_active (hm : Holds Accounts Plays g m) :
    (m.shared.list.data m.shared.list.active).length ≤ m.shared.list.capacity := by
  apply hm.shared.legal.invariant (I := fun items => items.length ≤ m.shared.list.capacity)
  · exact Nat.zero_le _
  · exact fun _ op _ _ items h => perform_bounded m.shared.list.capacity items op h

/-- The active buffer is locked: an operation that will not change it takes effect. -/
theorem moves_locked (hm : Holds Accounts Plays g m)
    (ha : m.locals t = .running op towrite (.check m.shared.list.active)) :
    ∃ es, Moves m t m.shared (.running op towrite (.locked m.shared.list.active)) g.log es := by
  have hs := hm.shared
  have hp := hm.locals t
  rw [ha] at hp
  have hfollows := hp.follows
  have hmoves (es : List (Entry τ (Operation α) (Result α)))
      (hlegal : Legal (perform m.shared.list.capacity) [] (g.log ++ es)
        (m.shared.list.data m.shared.list.active))
      (hvisible : es.filter Entry.visible = []) (hthread : ∀ e ∈ es, e.thread = t)
      (hf : Follows t (g.log ++ es) (settled m.shared.list.capacity op
        (m.shared.list.data m.shared.list.active))) :
      Moves m t m.shared (.running op towrite (.locked m.shared.list.active)) g.log es := by
    constructor
    · intro b
      rw [ha]
      rfl
    · rfl
    · exact fun _ => nofun
    · exact fun _ _ => rfl
    · exact ⟨nofun, .inl rfl⟩
    · rintro _ ⟨⟩
      exact ⟨nofun, .inr rfl⟩
    · exact hlegal
    · rw [hvisible, List.append_nil]
    · exact hthread
    · exact hf
    · exact ⟨hp.knows.1, length_active hm⟩
  cases hsettles : settles m.shared.list.capacity op
      (m.shared.list.data m.shared.list.active) with
  | false =>
    refine ⟨[], hmoves [] ?_ rfl (fun _ => nofun) ?_⟩
    · rw [List.append_nil]
      exact hs.legal
    · rw [List.append_nil, settled, hsettles]
      exact hfollows
  | true =>
    have hlegal := hs.legal.effect t op
    rw [perform_settled hsettles] at hlegal
    refine ⟨_, hmoves _ hlegal rfl ?_ ?_⟩
    · intro e he
      rw [List.mem_singleton.mp he]
      rfl
    · rw [settled, hsettles]
      exact hfollows.effect _

theorem moved_check {orig : ℕ} (hm : Holds Accounts Plays g m)
    (ha : m.locals t = .running op towrite (.check orig)) :
    Moved g m t op (advance op towrite (.check orig) m.shared.list) := by
  by_cases he : m.shared.list.active = orig
  · subst he
    rw [advance, if_pos rfl]
    exact moves_locked hm ha
  · rw [advance, if_neg he]
    have hp := hm.locals t
    rw [ha] at hp
    refine ⟨[], .local hm ?_ ?_ ?_ ?_ ⟨hp.knows.1, trivial⟩⟩ <;> rw [ha] <;> rfl

/-- What the first use of the active buffer leads to. -/
theorem moved_entered {orig : ℕ} {p : Place α} {towrite' : ℤ} (hm : Holds Accounts Plays g m)
    (ha : m.locals t = .running op towrite (.locked orig))
    (hn : entered op towrite orig m.shared.list = .go towrite' p) (hheld : p.held = [orig])
    (hclaim : p.claim = none) (hwatches : p.watches = some orig)
    (hstatus : p.status m.shared.list op =
      settled m.shared.list.capacity op (m.shared.list.data orig))
    (hlimits : op.limits towrite') (hknows : p.Knows m.shared.list op towrite') :
    Moved g m t op (advance op towrite (.locked orig) m.shared.list) := by
  rw [advance, hn]
  refine ⟨[], .local hm ?_ ?_ ?_ ?_ ⟨hlimits, hknows⟩⟩ <;> rw [ha]
  · exact hheld
  · exact hclaim
  · exact hwatches
  · exact hstatus

/-- An `append` of several elements does not begin again with less than there is room for. -/
def Operation.fits (op : Operation α) (towrite : ℤ) (room : ℕ) : Prop :=
  match op with
  | .appendAll items => items.length < 2147483648 ∧ room < 2147483648 ∧
    (towrite = items.length ∨ room ≤ towrite)
  | .append _ | .erase _ | .clear | .deleteIf _ | .apply | .findIf .. => True

theorem moved_locked {orig : ℕ} (hm : Holds Accounts Plays g m)
    (ha : m.locals t = .running op towrite (.locked orig))
    (hfits : op.fits towrite (m.shared.list.capacity - (m.shared.list.data orig).length)) :
    Moved g m t op (advance op towrite (.locked orig) m.shared.list) := by
  have hp := hm.locals t
  rw [ha] at hp
  obtain ⟨hlimits, hbound⟩ := hp.knows
  have hbound : (m.shared.list.data orig).length ≤ m.shared.list.capacity := hbound
  cases op with
  | erase item | clear | deleteIf pred =>
    exact moved_entered hm ha rfl rfl rfl rfl rfl trivial trivial
  | apply => exact moved_entered hm ha rfl rfl rfl rfl rfl trivial ⟨rfl, rfl⟩
  | findIf func blank =>
    exact moved_entered hm ha rfl rfl rfl rfl rfl trivial ⟨Nat.zero_le _, func, blank, rfl, rfl⟩
  | append item =>
    by_cases hfull : (m.shared.list.data orig).length = m.shared.list.capacity
    · apply moved_entered hm ha (if_pos hfull) rfl rfl rfl _ trivial trivial
      simp [Place.status, settled, settles, perform, hfull]
    · exact moved_entered hm ha (if_neg hfull) rfl rfl rfl rfl trivial hfull
  | appendAll items =>
    obtain ⟨-, hroom, hwrite⟩ := hfits
    have hlimits : towrite ≤ items.length := hlimits
    have hmax : toInt (m.shared.list.capacity - (m.shared.list.data orig).length) =
        (m.shared.list.capacity - (m.shared.list.data orig).length : ℕ) := by
      have hsub : (m.shared.list.capacity : ℤ) - (m.shared.list.data orig).length =
          (m.shared.list.capacity - (m.shared.list.data orig).length : ℕ) := by
        omega
      rw [hsub]
      exact toInt_eq hroom
    by_cases hfull : (m.shared.list.data orig).length = m.shared.list.capacity
    · have hn : entered (.appendAll items) towrite orig m.shared.list =
          .go towrite (.release orig (.count 0)) := by
        rw [entered, hmax]
        simp [hfull]
      apply moved_entered hm ha hn rfl rfl rfl _ hlimits trivial
      simp [Place.status, settled, settles, perform, hfull]
    · obtain ⟨room, hr⟩ : ∃ room, m.shared.list.capacity - (m.shared.list.data orig).length = room :=
        ⟨_, rfl⟩
      rw [hr] at hmax hwrite
      have hne : (room : ℤ) ≠ 0 := by omega
      have hleast : (if (room : ℤ) < towrite then (room : ℤ) else towrite) =
          (min items.length room : ℕ) := by
        split <;> omega
      have hn : entered (.appendAll items) towrite orig m.shared.list =
          .go (min items.length room : ℕ) (.scan orig 0) := by
        rw [entered, hmax]
        simp only [if_neg hne, hleast]
      apply moved_entered hm ha hn rfl rfl rfl rfl
      · show ((min items.length room : ℕ) : ℤ) ≤ items.length
        omega
      · exact ⟨hfull, by rw [hr]⟩

/-- An unused buffer is claimed, and any other one is left alone. -/
theorem moved_scan {orig start : ℕ} (hm : Holds Accounts Plays g m)
    (ha : m.locals t = .running op towrite (.scan orig start))
    (hreads : m.shared.list.count start = -1 → ∀ u, (m.locals u).reads ≠ some start) :
    Moved g m t op (advance op towrite (.scan orig start) m.shared.list) := by
  have hp := hm.locals t
  rw [ha] at hp
  have hperm : [orig, start].Perm (start :: [orig]) := .swap start orig []
  by_cases hcount : m.shared.list.count start = -1
  · rw [advance, if_pos hcount]
    refine ⟨[], .quiet hm ?_ rfl rfl rfl ?_ (fun _ _ => rfl) ?_ ?_ hp.knows⟩
    · rw [ha]
      exact inc_balance m.shared.list hperm
    · rintro _ ⟨⟩
      exact .inr ⟨hcount, hreads hcount⟩
    · rintro _ ⟨⟩
      refine ⟨?_, .inl (by rw [ha]; rfl)⟩
      rintro ⟨⟩
      apply (unused hm hcount).2.1 t
      rw [ha]
      exact List.mem_cons_self
    · rw [ha]
      rfl
  · rw [advance, if_neg hcount]
    refine ⟨[], .quiet hm ?_ rfl rfl rfl (fun _ => nofun) (fun _ _ => rfl) ?_ ?_ hp.knows⟩
    · rw [ha]
      exact inc_balance m.shared.list hperm
    · rintro _ ⟨⟩
      exact ⟨nofun, .inl (by rw [ha]; rfl)⟩
    · rw [ha]
      rfl

theorem moved_skip {orig start : ℕ} (hm : Holds Accounts Plays g m)
    (ha : m.locals t = .running op towrite (.skip orig start)) :
    Moved g m t op (advance op towrite (.skip orig start) m.shared.list) := by
  have hp := hm.locals t
  rw [ha] at hp
  refine ⟨[], .dec hm ?_ (fun _ => nofun) ?_ ?_ hp.knows⟩
  · rw [ha]
    exact .swap start orig []
  · rw [ha]
    exact fun _ h => h
  · rw [ha]
    rfl

/-- A turn that writes the claimed buffer, with another one locked. -/
theorem moved_write {orig b : ℕ} {p : Place α} (p' : Place α) {items : List α} (hm : Holds Accounts Plays g m)
    (ha : m.locals t = .running op towrite p) (hheld : p'.held = p.held)
    (hclaim : p.claim = some b) (hclaim' : p'.claim = some b) (hwatches : p.watches = some orig)
    (hwatches' : p'.watches = some orig)
    (hrest : (m.shared.list.write b items).data orig = m.shared.list.data orig →
      p'.status (m.shared.list.write b items) op = p.status m.shared.list op ∧
        p'.Knows (m.shared.list.write b items) op towrite) :
    Moved g m t op (m.shared.list.write b items, .go towrite p') := by
  have hp := hm.locals t
  rw [ha] at hp
  obtain ⟨hstatus, hknows⟩ := hrest (hp.data_write hwatches hclaim items)
  refine ⟨[], .write hm ?_ ?_ ?_ ?_ ?_ ⟨hp.knows.1, hknows⟩⟩ <;> rw [ha]
  · exact hclaim
  · exact hheld
  · exact hclaim'.trans hclaim.symm
  · exact hwatches'.trans hwatches.symm
  · exact hstatus

theorem moved_clean {orig b : ℕ} (hm : Holds Accounts Plays g m)
    (ha : m.locals t = .running op towrite (.clean orig b)) :
    Moved g m t op (advance op towrite (.clean orig b) m.shared.list) := by
  have hp := hm.locals t
  rw [ha] at hp
  obtain ⟨-, hready⟩ := hp.knows
  have hready : Ready m.shared.list.capacity (m.shared.list.data orig) op towrite := hready
  have hcopy (hop : op ≠ .clear) : Moved g m t op
      (m.shared.list.write b [], .go towrite (.copy orig b 0 false)) := by
    apply moved_write (.copy orig b 0 false) hm ha rfl rfl rfl rfl rfl
    intro horig
    simp only [Place.status, Place.Knows, Copied, horig, data_written]
    exact ⟨rfl, hready, hop, Nat.zero_le _, rfl⟩
  cases op with
  | clear =>
    apply moved_write (.extend orig b) hm ha rfl rfl rfl rfl rfl
    intro horig
    simp only [Place.status, Place.Knows, horig]
    exact ⟨rfl, trivial, trivial, fun h => absurd rfl h⟩
  | append | appendAll | erase | deleteIf | apply | findIf => exact hcopy (by simp)

/-- An element is looked at, and copied unless the operation leaves it out. -/
theorem moved_element {orig b it : ℕ} {hit : Bool} {a : α} (hm : Holds Accounts Plays g m)
    (ha : m.locals t = .running op towrite (.copy orig b it hit))
    (hget : (m.shared.list.data orig)[it]? = some a) :
    Moved g m t op (advance op towrite (.copy orig b it hit) m.shared.list) := by
  have hp := hm.locals t
  rw [ha] at hp
  obtain ⟨hlimits, hready, hop, -, hcopied⟩ := hp.knows
  have hlt := (List.getElem?_eq_some_iff.mp hget).1
  have htake : (m.shared.list.data orig).take (it + 1) = (m.shared.list.data orig).take it ++ [a] := by
    rw [List.take_add_one, hget]
    rfl
  have hnext := copies_append op ((m.shared.list.data orig).take it) a
  rw [← htake, ← hcopied] at hnext
  rw [advance, hget]
  cases hk : keeps op hit a with
  | true =>
    simp only [hk, if_true] at hnext ⊢
    apply moved_write (.copy orig b (it + 1) hit) hm ha rfl rfl rfl rfl rfl
    intro horig
    simp only [Place.status, Place.Knows, Copied, horig, data_written]
    exact ⟨rfl, hready, hop, hlt, hnext.symm⟩
  | false =>
    simp only [hk, Bool.false_eq_true, if_false] at hnext ⊢
    refine ⟨[], .local hm ?_ ?_ ?_ ?_ ⟨hlimits, hready, hop, hlt, hnext.symm⟩⟩ <;> rw [ha] <;> rfl

/-- All elements were looked at. -/
theorem moved_copied {orig b it : ℕ} {hit : Bool} (hm : Holds Accounts Plays g m)
    (ha : m.locals t = .running op towrite (.copy orig b it hit))
    (hget : (m.shared.list.data orig)[it]? = none) :
    Moved g m t op (advance op towrite (.copy orig b it hit) m.shared.list) := by
  have hp := hm.locals t
  rw [ha] at hp
  obtain ⟨hlimits, hready, hop, -, hcopied⟩ := hp.knows
  rw [List.take_of_length_le (List.getElem?_eq_none_iff.mp hget)] at hcopied
  have hmoves (p : Place α) (hheld : p.held = [orig, b]) (hclaim : p.claim = some b)
      (hwatches : p.watches = some orig) (hstatus : p.status m.shared.list op =
        settled m.shared.list.capacity op (m.shared.list.data orig))
      (hknows : p.Knows m.shared.list op towrite) :
      Moved g m t op (m.shared.list, .go towrite p) := by
    refine ⟨[], .local hm ?_ ?_ ?_ ?_ ⟨hlimits, hknows⟩⟩ <;> rw [ha]
    · exact hheld
    · exact hclaim
    · exact hwatches
    · exact hstatus
  rw [advance, hget]
  have hextend (hall : ∀ hit a, keeps op hit a = true) (hop' : op.extends)
      (hsettles : settles m.shared.list.capacity op (m.shared.list.data orig) = false) :
      Moved g m t op (m.shared.list, .go towrite (.extend orig b)) := by
    rw [copies_all hall] at hcopied
    obtain ⟨hdata, -⟩ := Prod.mk.inj hcopied
    exact hmoves (.extend orig b) rfl rfl rfl (settled_false hsettles).symm
      ⟨hready, hop', fun _ => hdata⟩
  cases op with
  | clear => exact absurd rfl hop
  | apply | findIf => exact hready.elim
  | append item =>
    have hready : (m.shared.list.data orig).length ≠ m.shared.list.capacity := hready
    exact hextend (fun _ _ => rfl) trivial (by simpa [settles] using hready)
  | appendAll items =>
    have hready : (m.shared.list.data orig).length ≠ m.shared.list.capacity := hready.1
    exact hextend (fun _ _ => rfl) trivial (by simpa [settles] using hready)
  | erase item =>
    rw [copies_erase] at hcopied
    obtain ⟨hdata, rfl⟩ := Prod.mk.inj hcopied
    by_cases hmem : item ∈ m.shared.list.data orig
    · have hsettles : settles m.shared.list.capacity (.erase item) (m.shared.list.data orig) =
          false := by
        simp [settles, hmem]
      simp only [copied, hmem, decide_true, if_true]
      apply hmoves (.cas orig b) rfl rfl rfl (settled_false hsettles).symm
      refine ⟨hsettles, ?_⟩
      simp [success, perform, hdata, hmem]
    · have hsettles : settles m.shared.list.capacity (.erase item) (m.shared.list.data orig) =
          true := by
        simp [settles, hmem]
      simp only [copied, hmem, decide_false, Bool.false_eq_true, if_false]
      apply hmoves (.giveUp orig b) rfl rfl rfl _ trivial
      rw [settled_true hsettles]
      simp [Place.status, perform, hmem]
  | deleteIf pred =>
    rw [copies_deleteIf] at hcopied
    obtain ⟨hdata, rfl⟩ := Prod.mk.inj hcopied
    cases hany : (m.shared.list.data orig).any pred with
    | true =>
      have hsettles : settles m.shared.list.capacity (.deleteIf pred) (m.shared.list.data orig) =
          false := by
        simp only [settles, hany, Bool.not_true]
      simp only [copied, if_true]
      apply hmoves (.cas orig b) rfl rfl rfl (settled_false hsettles).symm
      refine ⟨hsettles, ?_⟩
      simp only [success, perform, hdata, hany]
    | false =>
      have hsettles : settles m.shared.list.capacity (.deleteIf pred) (m.shared.list.data orig) =
          true := by
        simp only [settles, hany, Bool.not_false]
      simp only [copied, Bool.false_eq_true, if_false]
      apply hmoves (.giveUp orig b) rfl rfl rfl _ trivial
      rw [settled_true hsettles]
      simp only [Place.status, perform, hany]

/-- The copy is changed, and becomes what the operation makes of the list. -/
theorem moved_extend {orig b : ℕ} (hm : Holds Accounts Plays g m)
    (ha : m.locals t = .running op towrite (.extend orig b)) :
    Moved g m t op (advance op towrite (.extend orig b) m.shared.list) := by
  have hp := hm.locals t
  rw [ha] at hp
  obtain ⟨-, hready, hextends, hdata⟩ := hp.knows
  have hwrite {items : List α} (hsettles : settles m.shared.list.capacity op
      (m.shared.list.data orig) = false)
      (hperform : (items, success op towrite) =
        perform m.shared.list.capacity (m.shared.list.data orig) op) :
      Moved g m t op (m.shared.list.write b items, .go towrite (.cas orig b)) := by
    apply moved_write (.cas orig b) hm ha rfl rfl rfl rfl rfl
    intro horig
    simp only [Place.status, Place.Knows, horig, data_written]
    exact ⟨trivial, hsettles, hperform⟩
  cases op with
  | erase | deleteIf | apply | findIf => exact hextends.elim
  | clear => exact hwrite rfl rfl
  | append item =>
    have hready : (m.shared.list.data orig).length ≠ m.shared.list.capacity := hready
    apply hwrite
    · simpa [settles] using hready
    · rw [perform, if_neg hready, hdata (by simp)]
      rfl
  | appendAll items =>
    obtain ⟨hfull, rfl⟩ := hready
    have hneg : ¬ ((min items.length
        (m.shared.list.capacity - (m.shared.list.data orig).length) : ℕ) : ℤ) < 0 := by
      omega
    rw [advance, extended, if_neg hneg]
    apply hwrite
    · simpa [settles] using hfull
    · have htake : items.take (min items.length
          (m.shared.list.capacity - (m.shared.list.data orig).length)) =
            items.take (m.shared.list.capacity - (m.shared.list.data orig).length) :=
        List.take_eq_take_iff.mpr (by omega)
      rw [hdata (by simp), perform, Int.toNat_natCast, htake, success]

/-- The copy becomes the active buffer, and with this the operation takes effect. -/
theorem moved_published {b : ℕ} (hm : Holds Accounts Plays g m)
    (ha : m.locals t = .running op towrite (.cas m.shared.list.active b)) :
    Moved g m t op (advance op towrite (.cas m.shared.list.active b) m.shared.list) := by
  have hs := hm.shared
  have hp := hm.locals t
  rw [ha] at hp
  obtain ⟨hlimits, -, hperform⟩ := hp.knows
  have hperform : (m.shared.list.data b, success op towrite) =
    perform m.shared.list.capacity (m.shared.list.data m.shared.list.active) op := hperform
  have hlegal := hs.legal.effect t op
  have hfollows := hp.follows
  rw [← hperform] at hlegal
  rw [advance, if_pos rfl]
  refine ⟨[.effect t op (success op towrite)], ?_⟩
  constructor
  · intro c
    rw [ha]
    show m.shared.list.count c - (if b = c then 0 else -1) -
      (([m.shared.list.active, m.shared.list.active] : List ℕ).count c : ℤ) =
        m.shared.list.count c - (if m.shared.list.active = c then 0 else -1) -
          (([m.shared.list.active, b] : List ℕ).count c : ℤ)
    simp only [List.count_cons, List.count_nil, beq_iff_eq]
    split <;> split <;> omega
  · rfl
  · exact fun _ => nofun
  · exact fun _ _ => rfl
  · rw [ha]
    exact ⟨nofun, .inr rfl⟩
  · rintro _ ⟨⟩
    exact ⟨nofun, .inr rfl⟩
  · exact hlegal
  · exact (List.append_nil _).symm
  · intro e he
    rw [List.mem_singleton.mp he]
    rfl
  · exact hfollows.effect _
  · exact ⟨hlimits, trivial⟩

theorem moved_cas {orig b : ℕ} (hm : Holds Accounts Plays g m)
    (ha : m.locals t = .running op towrite (.cas orig b)) :
    Moved g m t op (advance op towrite (.cas orig b) m.shared.list) := by
  by_cases he : m.shared.list.active = orig
  · subst he
    exact moved_published hm ha
  · have hp := hm.locals t
    rw [ha] at hp
    rw [advance, if_neg he]
    refine ⟨[], .local hm ?_ ?_ ?_ ?_ ⟨hp.knows.1, trivial⟩⟩ <;> rw [ha] <;> rfl

/-- A turn that gives up a use of a buffer. -/
theorem moved_dec {b : ℕ} {p p' : Place α} (hm : Holds Accounts Plays g m)
    (ha : m.locals t = .running op towrite p) (hheld : p.held.Perm (b :: p'.held))
    (hclaim : ∀ c, p'.claim = some c → p.claim = some c)
    (hwatches : ∀ c, p'.watches = some c → p.watches = some c)
    (hstatus : p'.status m.shared.list op = p.status m.shared.list op)
    (hknows : p'.Knows (m.shared.list.dec b) op towrite) :
    Moved g m t op (m.shared.list.dec b, .go towrite p') := by
  have hp := hm.locals t
  rw [ha] at hp
  refine ⟨[], .dec hm ?_ ?_ ?_ ?_ ⟨hp.knows.1, hknows⟩⟩ <;> rw [ha]
  · exact hheld
  · exact hclaim
  · exact hwatches
  · exact hstatus

/-- A turn that returns, and gives up the last use of a buffer. -/
theorem moved_return {b : ℕ} {p : Place α} {r : Result α} (hm : Holds Accounts Plays g m)
    (ha : m.locals t = .running op towrite p) (hheld : p.held = [b])
    (hstatus : p.status m.shared.list op = .done op r) :
    Moved g m t op (m.shared.list.dec b, .done r) := by
  have hdone : (m.locals t).status m.shared.list = .done op r := by
    rw [ha]
    exact hstatus
  refine ⟨_, .returned hm hdone ?_ rfl rfl rfl⟩
  · intro c
    have hbalance := dec_balance m.shared.list (List.Perm.refl [b]) c
    rw [ha]
    show _ = m.shared.list.count c - (p.held.count c : ℤ)
    rw [hheld, ← hbalance]
    exact (Int.sub_zero _).symm

/-- An element is read without a lock, and nobody has claimed the buffer since. -/
theorem moved_seekRead {orig it : ℕ} (hm : Holds Accounts Plays g m)
    (ha : m.locals t = .running op towrite (.seekRead orig it)) :
    Moved g m t op (advance op towrite (.seekRead orig it) m.shared.list) := by
  have hdone : (m.locals t).status m.shared.list =
      .done op (.found (m.shared.list.data orig)[it]?) := by
    rw [ha]
    rfl
  refine ⟨_, .returned hm hdone ?_ rfl rfl rfl⟩
  · intro c
    rw [ha]
    exact (Int.sub_zero _).symm

theorem moved_traverse {orig : ℕ} {items : List α} (hm : Holds Accounts Plays g m)
    (ha : m.locals t = .running op towrite (.traverse orig items)) :
    Moved g m t op (advance op towrite (.traverse orig items) m.shared.list) := by
  have hp := hm.locals t
  rw [ha] at hp
  obtain ⟨hlimits, rfl, hitems⟩ := hp.knows
  cases hget : (m.shared.list.data orig)[items.length]? with
  | some a =>
    rw [advance, hget]
    have hnext : items ++ [a] = (m.shared.list.data orig).take (items ++ [a]).length := by
      rw [List.length_append, List.length_singleton, List.take_add_one, hget, ← hitems]
      rfl
    refine ⟨[], .local hm ?_ ?_ ?_ ?_ ⟨hlimits, rfl, hnext⟩⟩ <;> rw [ha] <;> rfl
  | none =>
    rw [advance, hget]
    have hall : items = m.shared.list.data orig := by
      rw [hitems]
      exact List.take_of_length_le (List.getElem?_eq_none_iff.mp hget)
    refine ⟨[], .local hm ?_ ?_ ?_ ?_ ⟨hlimits, trivial⟩⟩ <;> rw [ha]
    · rfl
    · rfl
    · rfl
    · rw [hall]
      rfl

/-- `find_if` goes on, and has found nothing so far. -/
theorem moved_seek {orig it : ℕ} (hm : Holds Accounts Plays g m)
    (ha : m.locals t = .running op towrite (.seek orig it)) :
    Moved g m t op (advance op towrite (.seek orig it) m.shared.list) := by
  have hp := hm.locals t
  rw [ha] at hp
  obtain ⟨hlimits, hle, func, blank, rfl, hnone⟩ := hp.knows
  have hmoves (p : Place α) (hheld : p.held = [orig]) (hclaim : p.claim = none)
      (hwatches : p.watches = some orig) (hstatus : p.status m.shared.list (.findIf func blank) =
        .done (.findIf func blank)
          (.found (some (((m.shared.list.data orig).find? func).getD blank))))
      (hknows : p.Knows m.shared.list (.findIf func blank) towrite) :
      Moved g m t (.findIf func blank) (m.shared.list, .go towrite p) := by
    refine ⟨[], .local hm ?_ ?_ ?_ ?_ ⟨hlimits, hknows⟩⟩ <;> rw [ha]
    · exact hheld
    · exact hclaim
    · exact hwatches
    · exact hstatus
  cases hget : (m.shared.list.data orig)[it]? with
  | none =>
    rw [advance, sought_end hget]
    rw [List.take_of_length_le (List.getElem?_eq_none_iff.mp hget)] at hnone
    apply hmoves (.release orig _) rfl rfl rfl _ trivial
    rw [hnone]
    rfl
  | some a =>
    obtain ⟨hlt, -⟩ := List.getElem?_eq_some_iff.mp hget
    have htake : (m.shared.list.data orig).take (it + 1) =
        (m.shared.list.data orig).take it ++ [a] := by
      rw [List.take_add_one, hget]
      rfl
    have hfind : ((m.shared.list.data orig).take (it + 1)).find? func =
        if func a then some a else none := by
      rw [htake, List.find?_append, hnone, List.find?_singleton]
      rfl
    rw [advance, sought_element hget]
    cases hfunc : func a with
    | true =>
      simp only [hfunc, if_true] at hfind ⊢
      apply hmoves (.seekRelease orig it) rfl rfl rfl _ trivial
      have hfound : (m.shared.list.data orig).find? func = some a := by
        rw [← List.take_append_drop (it + 1) (m.shared.list.data orig), List.find?_append, hfind]
        rfl
      rw [hfound]
      show Status.done _ (Result.found (m.shared.list.data orig)[it]?) = _
      rw [hget]
      rfl
    | false =>
      simp only [hfunc, Bool.false_eq_true, if_false] at hfind ⊢
      exact hmoves (.seek orig (it + 1)) rfl rfl rfl rfl ⟨hlt, func, blank, rfl, hfind⟩

/-- A thread calls an operation. -/
theorem moves_called (hm : Holds Accounts Plays g m) (ha : m.locals t = .idle) (op : Operation α) :
    Moves m t ⟨m.shared.list, m.shared.history ++ [.call t op]⟩ (.running op op.towrite .read) g.log
      [.call t op] := by
  have hfollows := (hm.locals t).follows
  rw [ha] at hfollows
  constructor
  · intro b
    rw [ha]
    rfl
  · rfl
  · exact fun _ => nofun
  · exact fun _ _ => rfl
  · exact ⟨nofun, .inl rfl⟩
  · exact fun _ => nofun
  · exact hm.shared.legal.visible rfl
  · rfl
  · intro e he
    rw [List.mem_singleton.mp he]
    rfl
  · exact hfollows.call op
  · exact ⟨limits_start op, trivial⟩

end Turns

/-! ### Runs -/

def Place.orderly (m : System (Traced α τ) τ (Activity α)) (op : Operation α) (towrite : ℤ) :
    Place α → Prop
  | .locked orig => op.fits towrite (m.shared.list.capacity - (m.shared.list.data orig).length)
  | .scan _ start => m.shared.list.count start = -1 → ∀ u, (m.locals u).reads ≠ some start
  | .read | .lock _ | .check _ | .unlock _ | .skip .. | .clean .. | .copy .. | .extend .. | .cas ..
  | .retryOrig .. | .retryNext _ | .dropLock .. | .dropRef .. | .giveUp .. | .giveBack _ | .release ..
  | .traverse .. | .seek .. | .seekRelease .. | .seekRead .. => True

def Activity.orderly (m : System (Traced α τ) τ (Activity α)) : Activity α → Prop
  | .running op towrite p => p.orderly m op towrite
  | .idle | .undefined => True

/-- No buffer is claimed that `find_if` is going to read; and an `append` of several elements does not
begin again with less than there is room for. -/
def orderly (m : System (Traced α τ) τ (Activity α)) (e : τ × Operation α) : Prop :=
  (m.locals e.1).orderly m

def start (lsize threads : ℕ) : System (Traced α τ) τ (Activity α) where
  shared := ⟨create lsize threads, []⟩
  locals := fun _ => .idle

instance (op : Operation α) (towrite : ℤ) (room : ℕ) : Decidable (op.fits towrite room) :=
  match op with
  | .appendAll _ => inferInstanceAs (Decidable (_ ∧ _))
  | .append _ | .erase _ | .clear | .deleteIf _ | .apply | .findIf .. => .isTrue trivial

instance [Fintype τ] (m : System (Traced α τ) τ (Activity α)) (op : Operation α) (towrite : ℤ)
    (p : Place α) : Decidable (p.orderly m op towrite) :=
  match p with
  | .locked _ => inferInstanceAs (Decidable (op.fits ..))
  | .scan .. => inferInstanceAs (Decidable (_ → _))
  | .read | .lock _ | .check _ | .unlock _ | .skip .. | .clean .. | .copy .. | .extend .. | .cas ..
  | .retryOrig .. | .retryNext _ | .dropLock .. | .dropRef .. | .giveUp .. | .giveBack _ | .release ..
  | .traverse .. | .seek .. | .seekRelease .. | .seekRead .. => .isTrue trivial

instance [Fintype τ] (m : System (Traced α τ) τ (Activity α)) (a : Activity α) :
    Decidable (a.orderly m) :=
  match a with
  | .running op towrite p => inferInstanceAs (Decidable (p.orderly m op towrite))
  | .idle | .undefined => .isTrue trivial

instance [Fintype τ] (m : System (Traced α τ) τ (Activity α)) (e : τ × Operation α) :
    Decidable (orderly m e) :=
  inferInstanceAs (Decidable ((m.locals e.1).orderly m))

section Step

variable [Fintype τ] {g : Ledger α τ} {m : System (Traced α τ) τ (Activity α)} {t : τ}

theorem moved_advance {op : Operation α} {towrite : ℤ} {p : Place α} (hm : Holds Accounts Plays g m)
    (ha : m.locals t = .running op towrite p) (hok : p.orderly m op towrite) :
    Moved g m t op (advance op towrite p m.shared.list) := by
  cases p with
  | read => exact moved_read hm ha
  | lock orig => exact moved_lock hm ha
  | check orig => exact moved_check hm ha
  | unlock orig => exact moved_unlock hm ha
  | locked orig => exact moved_locked hm ha hok
  | scan orig start => exact moved_scan hm ha hok
  | skip orig start => exact moved_skip hm ha
  | clean orig b => exact moved_clean hm ha
  | copy orig b it hit =>
    cases hget : (m.shared.list.data orig)[it]? with
    | some a => exact moved_element hm ha hget
    | none => exact moved_copied hm ha hget
  | extend orig b => exact moved_extend hm ha
  | cas orig b => exact moved_cas hm ha
  | retryOrig orig b =>
    exact moved_dec hm ha (.refl _) (fun _ h => h) (fun _ => nofun) rfl trivial
  | retryNext b => exact moved_dec hm ha (.refl _) (fun _ => nofun) (fun _ => nofun) rfl trivial
  | dropLock orig r => exact moved_dec hm ha (.refl _) (fun _ h => h) (fun _ h => h) rfl trivial
  | dropRef orig r => exact moved_return hm ha rfl rfl
  | giveUp orig b => exact moved_dec hm ha (.refl _) (fun _ h => h) (fun _ => nofun) rfl trivial
  | giveBack b => exact moved_return hm ha rfl rfl
  | release orig r => exact moved_return hm ha rfl rfl
  | traverse orig items => exact moved_traverse hm ha
  | seek orig it => exact moved_seek hm ha
  | seekRelease orig it =>
    exact moved_dec hm ha (.refl _) (fun _ => nofun) (fun _ h => h) rfl trivial
  | seekRead orig it => exact moved_seekRead hm ha

theorem holds_step [DecidableEq τ] {op : Operation α} (hm : Holds Accounts Plays g m)
    (hok : orderly m (t, op)) : ∃ g', Holds Accounts Plays g' (m.step turn (t, op)) := by
  have hok : (m.locals t).orderly m := hok
  cases ha : m.locals t with
  | idle =>
    apply Moves.holds hm _ (moves_called hm ha op)
    rw [ha]
    rfl
  | running op' towrite p =>
    rw [ha] at hok
    obtain ⟨es, hmoves⟩ := moved_advance hm ha hok
    apply Moves.holds hm _ hmoves
    rw [ha]
    rfl
  | undefined =>
    have hknows := (hm.locals t).knows
    rw [ha] at hknows
    exact hknows.elim

theorem start_holds (lsize threads : ℕ) :
    Holds Accounts Plays ⟨fun _ => [], fun _ => none, []⟩
      (start lsize threads : System (Traced α τ) τ (Activity α)) := by
  constructor
  · constructor
    · intro b
      show (if b = 0 then (0 : ℤ) else -1) = (if 0 = b then 0 else -1) + ∑ _ : τ, (0 : ℤ)
      rw [Finset.sum_const_zero, Int.add_zero]
      exact if_congr eq_comm rfl rfl
    · rfl
    · exact .start
    · rfl
  · intro t
    constructor
    · rfl
    · exact fun b => iff_of_false nofun nofun
    · exact fun _ => nofun
    · exact .start
    · trivial

end Step

section Run

/-- A turn keeps the capacity, and writes no buffer but the claimed one. -/
theorem advance_frame (op : Operation α) (towrite : ℤ) (p : Place α) (l : ListLockFree α) :
    (advance op towrite p l).1.capacity = l.capacity ∧
      ∀ c, p.claim ≠ some c → (advance op towrite p l).1.data c = l.data c := by
  have hwrite (b : ℕ) (items : List α) (hp : p.claim = some b) :
      (l.write b items).capacity = l.capacity ∧
        ∀ c, p.claim ≠ some c → (l.write b items).data c = l.data c := by
    refine ⟨rfl, fun c hc => ?_⟩
    apply Function.update_of_ne
    rintro rfl
    exact hc hp
  cases p with
  | clean orig b => exact hwrite b [] rfl
  | copy orig b it hit =>
    rw [advance]
    split
    · split
      · exact hwrite b _ rfl
      · exact ⟨rfl, fun _ _ => rfl⟩
    · exact ⟨rfl, fun _ _ => rfl⟩
  | extend orig b =>
    cases op with
    | append item => exact hwrite b _ rfl
    | appendAll items =>
      rw [advance, extended]
      split
      · exact ⟨rfl, fun _ _ => rfl⟩
      · exact hwrite b _ rfl
    | erase | clear | deleteIf | apply | findIf => exact hwrite b [] rfl
  | cas orig b =>
    rw [advance]
    split <;> exact ⟨rfl, fun _ _ => rfl⟩
  | traverse orig items =>
    rw [advance]
    split <;> exact ⟨rfl, fun _ _ => rfl⟩
  | read | lock | check | unlock | locked | scan | skip | retryOrig | retryNext | dropLock | dropRef
  | giveUp | giveBack | release | seek | seekRelease | seekRead =>
    exact ⟨rfl, fun _ _ => rfl⟩

theorem turn_frame (t : τ) (op : Operation α) (s : Traced α τ) (a : Activity α) :
    (turn t op s a).1.list.capacity = s.list.capacity ∧
      ∀ c, a.claim ≠ some c → (turn t op s a).1.list.data c = s.list.data c := by
  cases a with
  | idle | undefined => exact ⟨rfl, fun _ _ => rfl⟩
  | running op' towrite p =>
    have hlist (x : ListLockFree α × Next α) : (resume t s.history op' x).1.list = x.1 := by
      obtain ⟨l, n⟩ := x
      cases n <;> rfl
    rw [turn, hlist]
    exact advance_frame op' towrite p s.list

variable [DecidableEq τ]

theorem capacity_run (lsize threads : ℕ) (es : List (τ × Operation α)) :
    ((start lsize threads).run turn es).shared.list.capacity = lsize := by
  have hkeeps : ∀ (m : System (Traced α τ) τ (Activity α)) (e : τ × Operation α),
      m.shared.list.capacity = lsize → True → (m.step turn e).shared.list.capacity = lsize := by
    intro m e hm _
    exact (turn_frame e.1 e.2 m.shared (m.locals e.1)).1.trans hm
  exact Library.Run.run_invariant hkeeps rfl (Library.Run.along_trivial _ _ es)

/-- In every orderly run of any number of threads, each operation behaves as if it took place in one
moment between its call and its return; and a buffer that a thread has locked is neither claimed
nor written by another one. -/
theorem operations_linearizable [Fintype τ] {lsize threads : ℕ} {es : List (τ × Operation α)}
    (hok : (start lsize threads).Schedule turn orderly es) :
    let m : System (Traced α τ) τ (Activity α) := (start lsize threads).run turn es
    Linearizable (perform lsize) [] m.shared.history (m.shared.list.data m.shared.list.active) ∧
      ∀ u b, (m.locals u).locks = some b → ∀ t, (m.locals t).claim ≠ some b ∧
        ∀ op, (m.step turn (t, op)).shared.list.data b = m.shared.list.data b := by
  intro m
  obtain ⟨g, hm⟩ : ∃ g, Holds Accounts Plays g m :=
    holds_run (fun g m t op hg ho => holds_step hg ho) ⟨_, start_holds lsize threads⟩ hok
  constructor
  · have hlegal := hm.shared.legal
    rw [capacity_run] at hlegal
    exact ⟨g.log, hm.shared.history, hlegal, fun t => ⟨_, (hm.locals t).follows⟩⟩
  · intro u b hb t
    have hwatched : (m.locals u).watches = some b := Activity.locks_watches hb
    have hclaim : (m.locals t).claim ≠ some b := by
      intro hc
      have hmine := ((hm.locals t).claim b).mp hc
      rw [(hm.locals u).watches b hwatched] at hmine
      cases hmine
    exact ⟨hclaim, fun op => (turn_frame t op m.shared (m.locals t)).2 b hclaim⟩

end Run

theorem operations_linearizable_erased :
    let turns (n : ℕ) (t : Fin 2) (op : Operation ℕ) := List.replicate n (t, op)
    let m : System (Traced ℕ (Fin 2)) (Fin 2) (Activity ℕ) := (start 2 2).run turn
      (turns 14 1 (.appendAll [1]) ++ turns 7 0 (.findIf (fun a => a == 1) 0) ++
        turns 11 1 (.erase 1) ++ turns 1 0 .clear)
    Linearizable (perform 2) [] m.shared.history (m.shared.list.data m.shared.list.active) ∧
      ∀ u b, (m.locals u).locks = some b → ∀ t, (m.locals t).claim ≠ some b ∧
        ∀ op, (m.step turn (t, op)).shared.list.data b = m.shared.list.data b :=
  operations_linearizable (by decide)

/-- `find_if` has found 1 and unlocked the buffer; another thread erases 1 and appends 2, which is
written to this buffer, and `find_if` returns 2. And an `append` of 7 and 8 finds room for one of
them; the list is cleared before it writes that one, and it writes no more to the empty list. -/
theorem operations_not_linearizable :
    let turns (n : ℕ) (t : Fin 2) (op : Operation ℕ) := List.replicate n (t, op)
    let m : System (Traced ℕ (Fin 2)) (Fin 2) (Activity ℕ) := (start 2 2).run turn
      (turns 14 1 (.append 1) ++ turns 7 0 (.findIf (fun a => a == 1) 0) ++
        turns 11 1 (.erase 1) ++ turns 15 1 (.append 2) ++ turns 1 0 .clear)
    let m' : System (Traced ℕ (Fin 2)) (Fin 2) (Activity ℕ) := (start 3 2).run turn
      (turns 14 1 (.appendAll [1, 2]) ++ turns 8 0 (.appendAll [7, 8]) ++ turns 15 1 .clear ++
        turns 17 0 .clear)
    ¬ Linearizable (perform 2) [] m.shared.history (m.shared.list.data m.shared.list.active) ∧
      ¬ Linearizable (perform 3) [] m'.shared.history
        (m'.shared.list.data m'.shared.list.active) := by
  intro turns m m'
  constructor
  · intro h
    have hhistory : m.shared.history = [.call 1 (.append 1), .returned 1 (.done true),
        .call 0 (.findIf (fun a => a == 1) 0), .call 1 (.erase 1), .returned 1 (.done true),
        .call 1 (.append 2), .returned 1 (.done true), .returned 0 (.found (some 2))] := rfl
    rw [hhistory] at h
    obtain ⟨op, items, rfl, hresult⟩ := h.result (t := 0)
      (P := fun op => op = .findIf (fun a => a == 1) 0) (by simp) (r := .found (some 2)) (by simp)
    -- an element that was found is 1
    have hfound : (items.find? fun a => a == 1).getD 0 = 2 :=
      Option.some.inj (Result.found.inj hresult)
    cases hfind : items.find? fun a => a == 1 with
    | none =>
      rw [hfind] at hfound
      cases hfound
    | some a =>
      have ha := List.find?_some hfind
      rw [hfind] at hfound
      cases hfound
      cases ha
  · intro h
    have hhistory : m'.shared.history = [.call 1 (.appendAll [1, 2]), .returned 1 (.count 2),
        .call 0 (.appendAll [7, 8]), .call 1 .clear, .returned 1 .cleared,
        .returned 0 (.count 1)] := rfl
    have hdata : m'.shared.list.data m'.shared.list.active = [7] := rfl
    rw [hhistory, hdata] at h
    -- the operations that are called never lead to a list with one element
    have hlength := h.invariant (I := fun items => items.length ≠ 1) (by simp) (by
      intro t op hop items hitems
      simp only [List.mem_cons, List.not_mem_nil, or_false, false_or, reduceCtorEq,
        Entry.call.injEq] at hop
      rcases hop with ⟨-, rfl⟩ | ⟨-, rfl⟩ | ⟨-, rfl⟩
      · simp [perform]
        omega
      · simp [perform]
        omega
      · exact Nat.zero_ne_one)
    exact hlength rfl

end OrocosRtt.LockFree.ListLockFree
