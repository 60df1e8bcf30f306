import Mathlib.Data.List.TakeWhile
import OrocosRtt.Marsh.CpfElements

/-! The bags that can be written to a file, and what becomes of the text of a value. -/
namespace OrocosRtt.Marsh.Cpf
open TinyXml

variable {F D : Type}

/-! ### What can be written -/

/-- Bytes that a file can hold and that come back from it -/
def Clean (t : Text) : Prop := ∀ c ∈ t, c ≠ '\x00' ∧ c ≠ '\r'

theorem clean_of_all (t : Text) (h : (t.all fun c => c ≠ '\x00' && c ≠ '\r') = true) : Clean t := by
  intro c hc
  have h := List.all_eq_true.mp h c hc
  simpa using h

structure Readable (s : Text) : Prop where
  utf8 : Utf8 s
  clean : Clean s

/-- Names and types are attributes; a double quote is not escaped. -/
structure Name (s : Text) : Prop extends Readable s where
  quote : '"' ∉ s

/-- An octet is not escaped. -/
def Value.Writable : Value F D → Prop
  | .char c => utf8Length c = 1 ∧ c ≠ '\r'
  | .octet c => utf8Length c = 1 ∧ c ≠ '\x00' ∧ c ≠ '\r' ∧ c ≠ '<'
  | .string s => Readable s
  | _ => True

mutual

def Property.Writable : Property F D → Prop
  | .simple name description value => Name name ∧ Readable description ∧ value.Writable
  | .struct name description type properties =>
    Name name ∧ Readable description ∧ Name type ∧ AllWritable properties
  | .other _ _ => True

def AllWritable : List (Property F D) → Prop
  | [] => True
  | p :: ps => p.Writable ∧ AllWritable ps

end

/-! ### What is read back -/

def Value.normal : Value F D → Value F D
  | .char c => .char (if isWhiteSpace c then '\x00' else c)
  | .octet c => .octet (if isWhiteSpace c ∨ c = '&' then '\x00' else c)
  | .string s => .string (condense s)
  | v => v

mutual

/-- Nothing of a property that is of another type. -/
def Property.normal : Property F D → List (Property F D)
  | .simple name description value => [.simple name (condense description) value.normal]
  | .struct name description type properties =>
    [.struct name (condense description) type (normal properties)]
  | .other _ _ => []

def normal : List (Property F D) → List (Property F D)
  | [] => []
  | p :: ps => p.normal ++ normal ps

end

/-! ### Numbers -/

theorem digitChar_value {d : ℕ} (h : d < 10) :
    (Nat.digitChar d).isDigit = true ∧ (Nat.digitChar d).toNat - '0'.toNat = d := by
  revert d
  decide

theorem decimal_digits (n : ℕ) : (decimal n).takeWhile Char.isDigit = decimal n ∧
    decimal n ≠ [] ∧
      Nat.ofDigits 10 ((decimal n).reverse.map fun c => c.toNat - '0'.toNat) = n := by
  unfold decimal
  by_cases hn : n = 0
  · subst hn
    decide
  · rw [if_neg hn]
    have hlt : ∀ d ∈ Nat.digits 10 n, d < 10 := fun d hd => Nat.digits_lt_base (by decide) hd
    refine ⟨?_, ?_, ?_⟩
    · rw [List.takeWhile_eq_self_iff]
      intro c hc
      rw [List.mem_reverse, List.mem_map] at hc
      obtain ⟨d, hd, rfl⟩ := hc
      exact (digitChar_value (hlt d hd)).1
    · simp [hn, Nat.digits_ne_nil_iff_ne_zero]
    · rw [List.reverse_reverse, List.map_map]
      have hmap : (Nat.digits 10 n).map ((fun c => c.toNat - '0'.toNat) ∘ Nat.digitChar) =
          Nat.digits 10 n := by
        refine (List.map_congr_left fun d hd => ?_).trans (List.map_id _)
        exact (digitChar_value (hlt d hd)).2
      rw [hmap, Nat.ofDigits_digits]

theorem scanNat_decimal (n : ℕ) : scanNat (decimal n) = some n := by
  obtain ⟨htake, hne, hvalue⟩ := decimal_digits n
  unfold scanNat
  rw [htake, if_neg hne, hvalue]

theorem decimal_plain (n : ℕ) : ∀ c ∈ decimal n, c.isDigit = true := by
  intro c hc
  have htake := (decimal_digits n).1
  rw [List.takeWhile_eq_self_iff] at htake
  exact htake c hc

theorem scanInt_writeInt (z : ℤ) : scanInt (writeInt z) = some z := by
  have hdigit : ∀ {c : Char}, c.isDigit = true → isWhiteSpace c = false ∧ c ≠ '-' ∧ c ≠ '+' := by
    intro c hc
    refine ⟨?_, ?_, ?_⟩
    · simp only [Char.isDigit, Bool.and_eq_true, decide_eq_true_eq] at hc
      cases hs : isWhiteSpace c with
      | false => rfl
      | true =>
        simp only [isWhiteSpace, Bool.or_eq_true, Bool.and_eq_true, decide_eq_true_eq] at hs
        have h0 : '0'.val.toNat = 48 := rfl
        have hn : c.toNat = c.val.toNat := rfl
        simp only [UInt32.le_iff_toNat_le, ge_iff_le] at hc
        rcases hs with rfl | hs
        · exact absurd hc.1 (by decide)
        · omega
    · rintro rfl
      exact absurd hc (by decide)
    · rintro rfl
      exact absurd hc (by decide)
  have hplain := decimal_plain z.natAbs
  have hscan := scanNat_decimal z.natAbs
  obtain ⟨c, p, hcp⟩ : ∃ c p, decimal z.natAbs = c :: p := by
    cases h : decimal z.natAbs with
    | nil => exact absurd h (decimal_digits z.natAbs).2.1
    | cons c p => exact ⟨c, p, rfl⟩
  obtain ⟨hspace, hminus, hplus⟩ := hdigit (hplain c (by rw [hcp]; exact List.mem_cons_self))
  unfold writeInt scanInt
  by_cases hz : z < 0
  · rw [if_pos hz]
    have hdrop : ('-' :: decimal z.natAbs).dropWhile isWhiteSpace = '-' :: decimal z.natAbs := by
      rw [List.dropWhile_cons_of_neg (by decide)]
    rw [hdrop]
    show (scanNat (decimal z.natAbs)).map _ = _
    rw [hscan, Option.map_some]
    congr 1
    omega
  · rw [if_neg hz]
    have hdrop : (decimal z.natAbs).dropWhile isWhiteSpace = decimal z.natAbs := by
      rw [hcp, List.dropWhile_cons_of_neg (by rw [hspace]; exact Bool.false_ne_true)]
    rw [hdrop]
    split
    · next h =>
      rw [hcp] at h
      exact absurd (List.cons.inj h).1 hminus
    · next h =>
      rw [hcp] at h
      exact absurd (List.cons.inj h).1 hplus
    · rw [hscan, Option.map_some]
      congr 1
      omega

theorem isPlain_iff {c : Char} : isPlain c = true ↔
    33 ≤ c.toNat ∧ c.toNat < 127 ∧ c ≠ '<' ∧ c ≠ '>' ∧ c ≠ '&' := by
  simp [isPlain, and_assoc]

/-- Text of characters that are neither white space nor escaped is read as it is. -/
theorem plain_text {t : Text} (hplain : t.all isPlain = true) :
    Utf8 t ∧ Clean t ∧ escape t = t ∧ condense t = t := by
  have h : ∀ c ∈ t, 33 ≤ c.toNat ∧ c.toNat < 127 ∧ c ≠ '<' ∧ c ≠ '>' ∧ c ≠ '&' :=
    fun c hc => isPlain_iff.mp (List.all_eq_true.mp hplain c hc)
  have hspace : ∀ c ∈ t, isWhiteSpace c = false := by
    intro c hc
    have hc := h c hc
    have hne : c ≠ ' ' := by
      rintro rfl
      exact absurd hc.1 (by decide)
    simp only [isWhiteSpace, hne, decide_false, Bool.false_or, Bool.and_eq_false_iff,
      decide_eq_false_iff_not]
    omega
  refine ⟨?_, ?_, ?_, ?_⟩
  · exact utf8_ascii fun c hc => Nat.lt_succ_of_lt (h c hc).2.1
  · intro c hc
    have hc := h c hc
    constructor
    · rintro rfl
      exact absurd hc.1 (by decide)
    · rintro rfl
      exact absurd hc.1 (by decide)
  · exact escape_plain fun c hc => ⟨(h c hc).2.2.2.2, (h c hc).2.2.1, (h c hc).2.2.2.1⟩
  · have hdrop : dropSpace .utf8 t = t := by
      cases t with
      | nil => rfl
      | cons c t =>
        have hc := h c List.mem_cons_self
        exact dropSpace_stop (hspace c List.mem_cons_self) (by omega) _ _
    unfold condense
    rw [hdrop]
    clear h hplain hdrop
    induction t with
    | nil => rfl
    | cons c t ih =>
      show (if isWhiteSpace c then _ else _) = _
      rw [hspace c List.mem_cons_self, if_neg Bool.false_ne_true,
        ih fun d hd => hspace d (List.mem_cons_of_mem c hd)]
      rfl

theorem writeInt_plain (z : ℤ) : (writeInt z).all isPlain = true := by
  rw [List.all_eq_true]
  have hdigit : ∀ c ∈ decimal z.natAbs, isPlain c = true := by
    intro c hc
    rw [isPlain_iff]
    have hd := decimal_plain _ c hc
    simp only [Char.isDigit, Bool.and_eq_true, decide_eq_true_eq, UInt32.le_iff_toNat_le,
      ge_iff_le] at hd
    have h0 : '0'.val.toNat = 48 := rfl
    have h9 : '9'.val.toNat = 57 := rfl
    have hn : c.toNat = c.val.toNat := rfl
    refine ⟨by omega, by omega, ?_, ?_, ?_⟩
    all_goals
      rintro rfl
      exact absurd hd (by decide)
  unfold writeInt
  split
  · intro c hc
    rcases List.mem_cons.mp hc with rfl | hc
    · decide
    · exact hdigit c hc
  · exact hdigit

/-! ### Values -/

section Values
variable (fl : FloatFormat F) (db : FloatFormat D)

/-- What is between the tags of a value, before it is escaped. The reader leaves out an ampersand of
its own. -/
def Value.text : Value F D → Text
  | .boolean b => if b then ['1'] else ['0']
  | .char c => if c = '\x00' then [] else [c]
  | .octet c => if c = '&' then [] else [c]
  | .long z => writeInt z.toInt
  | .ulong n => writeInt n.toNat
  | .float x => fl.write x
  | .double x => db.write x
  | .string s => s

theorem condense_single (c : Char) : condense [c] = if isWhiteSpace c then [] else [c] := by
  unfold condense
  cases hspace : isWhiteSpace c with
  | true => simp [dropSpace, hspace, squeeze]
  | false => simp [dropSpace, hspace, squeeze]

theorem content_octet {c : Char} (hc : utf8Length c = 1) (hlt : c ≠ '<') :
    ContentOk [c] (textNodes (condense (if c = '&' then [] else [c]))) := by
  by_cases hamp : c = '&'
  · subst hamp
    intro n rest hn
    obtain ⟨n, rfl⟩ := Nat.exists_eq_add_of_le' (Nat.one_le_of_lt hn)
    exact readValue_text (c := '&') (q := '<' :: '/' :: rest) (v := []) (e := rest) (by decide) rfl
      rfl n (by
        simp only [List.length_append, List.length_cons] at hn ⊢
        omega)
  · rw [if_neg hamp]
    by_cases hgt : c = '>'
    · subst hgt
      intro n rest hn
      obtain ⟨n, rfl⟩ := Nat.exists_eq_add_of_le' (Nat.one_le_of_lt hn)
      exact readValue_text (c := '>') (q := '<' :: '/' :: rest) (v := ['>']) (e := rest)
        (by decide) rfl rfl n (by
          simp only [List.length_append, List.length_cons] at hn ⊢
          omega)
    · have h := content_text (.single hc .nil)
      rw [escape_singleton, escapeChar_plain ⟨hamp, hlt, hgt⟩] at h
      exact h

theorem content_plain {t : Text} (h : t.all isPlain = true) :
    ContentOk t (textNodes (condense t)) := by
  obtain ⟨hutf8, -, hescape, -⟩ := plain_text h
  have hcontent := content_text hutf8
  rw [hescape] at hcontent
  exact hcontent

theorem content_value {v : Value F D} (hv : v.Writable) :
    ContentOk (v.write fl db) (textNodes (condense (v.text fl db))) := by
  cases v with
  | boolean b =>
    cases b with
    | true => exact content_plain (show ['1'].all isPlain = true by decide)
    | false => exact content_plain (show ['0'].all isPlain = true by decide)
  | char c =>
    unfold Value.write Value.text
    dsimp only
    by_cases hc : c = '\x00'
    · rw [if_pos hc, if_pos hc]
      exact content_text .nil
    · rw [if_neg hc, if_neg hc]
      exact content_text (.single hv.1 .nil)
  | octet c => exact content_octet hv.1 hv.2.2.2
  | long z => exact content_plain (writeInt_plain _)
  | ulong n => exact content_plain (writeInt_plain _)
  | float x => exact content_plain (fl.plain x).2
  | double x => exact content_plain (db.plain x).2
  | string s => exact content_text hv.utf8

theorem readValue_value {v : Value F D} (hv : v.Writable) :
    readValue fl db v.type (condense (v.text fl db)) = some (some v.normal) := by
  cases v with
  | boolean b => cases b <;> rfl
  | char c =>
    show readValue fl db "char".toList (condense (if c = '\x00' then [] else [c])) = _
    by_cases hc : c = '\x00'
    · subst hc
      rfl
    · rw [if_neg hc, condense_single c]
      unfold Value.normal
      dsimp only
      cases isWhiteSpace c <;> rfl
  | octet c =>
    show readValue fl db "octet".toList (condense (if c = '&' then [] else [c])) = _
    by_cases hc : c = '&'
    · subst hc
      rfl
    · rw [if_neg hc, condense_single c]
      unfold Value.normal
      dsimp only
      cases isWhiteSpace c with
      | true => rfl
      | false =>
        rw [if_neg (show ¬(false = true ∨ c = '&') by simp [hc])]
        rfl
  | long z =>
    show readValue fl db "long".toList (condense (writeInt z.toInt)) = _
    rw [(plain_text (writeInt_plain _)).2.2.2]
    show (scanInt (writeInt z.toInt)).map _ = _
    rw [scanInt_writeInt, Option.map_some, Int32.ofInt_toInt]
    rfl
  | ulong n =>
    show readValue fl db "ulong".toList (condense (writeInt n.toNat)) = _
    rw [(plain_text (writeInt_plain _)).2.2.2]
    show (scanInt (writeInt n.toNat)).map _ = _
    rw [scanInt_writeInt, Option.map_some]
    have hn : UInt32.ofInt (n.toNat : ℤ) = n := by
      have hlt := n.toNat_lt
      have hmod : ((n.toNat : ℤ) % 2 ^ 32).toNat = n.toNat := by omega
      unfold UInt32.ofInt
      rw [hmod]
      exact UInt32.ofNat_toNat
    rw [hn]
    rfl
  | float x =>
    show readValue fl db "float".toList (condense (fl.write x)) = _
    rw [(plain_text (fl.plain x).2).2.2.2]
    show (fl.scan (fl.write x)).map _ = _
    rw [fl.scan_write]
    rfl
  | double x =>
    show readValue fl db "double".toList (condense (db.write x)) = _
    rw [(plain_text (db.plain x).2).2.2.2]
    show (db.scan (db.write x)).map _ = _
    rw [db.scan_write]
    rfl
  | string s => rfl

end Values

end OrocosRtt.Marsh.Cpf
