import Mathlib.Data.List.TakeDrop
import OrocosRtt.Marsh.CpfText

/-! What the reader makes of the elements that the marshaller writes. -/
namespace OrocosRtt.Marsh.Cpf
open TinyXml

/-! ### Names and attributes -/

/-- A name of letters only, as all those that are written. -/
def Plain (name : Text) : Prop := name ≠ [] ∧ ∀ c ∈ name, c.isAlpha = true

theorem isAlpha_bounds {c : Char} (h : c.isAlpha = true) :
    65 ≤ c.toNat ∧ c.toNat ≤ 90 ∨ 97 ≤ c.toNat ∧ c.toNat ≤ 122 := by
  delta Char.isAlpha Char.isUpper Char.isLower at h
  simp only [Bool.or_eq_true, Bool.and_eq_true, decide_eq_true_eq] at h
  exact h

theorem isAlpha_lt {c : Char} (h : c.isAlpha = true) : c.toNat < 127 := by
  have h := isAlpha_bounds h
  omega

theorem isAlpha_ne {c d : Char} (h : c.isAlpha = true) (hd : d.isAlpha = false) : c ≠ d := by
  rintro rfl
  rw [h] at hd
  cases hd

theorem isNameChar_of_isAlpha {c : Char} (h : c.isAlpha = true) : isNameChar c = true := by
  unfold isNameChar isAlphaNum
  rw [if_pos (isAlpha_lt h)]
  simp [Char.isAlphanum, h]

theorem isAlpha_of_isAlpha {c : Char} (h : c.isAlpha = true) : TinyXml.isAlpha c = true := by
  unfold TinyXml.isAlpha
  rw [if_pos (isAlpha_lt h)]
  exact h

theorem isWhiteSpace_of_isAlpha {c : Char} (h : c.isAlpha = true) : isWhiteSpace c = false := by
  have h := isAlpha_bounds h
  have hspace : c ≠ ' ' := by
    rintro rfl
    exact absurd h (by decide)
  simp only [isWhiteSpace, hspace, decide_false, Bool.false_or, Bool.and_eq_false_iff,
    decide_eq_false_iff_not]
  omega

theorem dropSpace_alpha {c : Char} (h : c.isAlpha = true) (enc : Encoding) (p : Text) :
    dropSpace enc (c :: p) = c :: p :=
  dropSpace_stop (isWhiteSpace_of_isAlpha h) (by have := isAlpha_lt h; omega) enc p

theorem span_append {name p : Text} {d : Char} (hname : ∀ c ∈ name, isNameChar c = true)
    (hd : isNameChar d = false) : (name ++ d :: p).span isNameChar = (name, d :: p) := by
  rw [List.span_eq_takeWhile_dropWhile, List.takeWhile_append_of_pos hname,
    List.dropWhile_append_of_pos hname]
  simp [hd]

theorem readName_append {name p : Text} {d : Char} (hname : Plain name)
    (hd : isNameChar d = false) : readName (name ++ d :: p) = some (name, d :: p) := by
  have hspan := span_append (p := p) (fun c hc => isNameChar_of_isAlpha (hname.2 c hc)) hd
  cases name with
  | nil => exact absurd rfl hname.1
  | cons c name =>
    have hc := isAlpha_of_isAlpha (hname.2 c List.mem_cons_self)
    rw [List.cons_append] at hspan ⊢
    show (if TinyXml.isAlpha c || decide (c = '_') then some _ else none) = _
    rw [hc, Bool.true_or, if_pos rfl, hspan]

/-- What may be the value of an attribute. -/
def Quotable (s : Text) : Prop := Utf8 s ∧ '"' ∉ s

theorem quoted_escape {v : Text} (hv : Quotable v) (name rest : Text) :
    quoted .utf8 name '"' (escape v ++ '"' :: rest) = ⟨(name, v), some rest, false⟩ := by
  have hread : readText .utf8 false ['"'] (escape v ++ '"' :: rest) = some (v, '"' :: rest) := by
    unfold readText
    rw [if_neg Bool.false_ne_true]
    exact keepText_escape hv.1 hv.2 rest _ (Nat.le_refl _)
  unfold quoted
  rw [hread]

/-- As it is written after the name of the element, or after another attribute. -/
def attributeText (a : Text × Text) : Text := a.1 ++ '=' :: '"' :: (escape a.2 ++ ['"'])

theorem parseAttribute_text {a : Text × Text} (hname : Plain a.1) (hv : Quotable a.2)
    (rest : Text) :
    parseAttribute .utf8 (attributeText a ++ rest) = ⟨a, some rest, false⟩ := by
  obtain ⟨name, v⟩ := a
  have hshape : attributeText (name, v) ++ rest =
      name ++ '=' :: '"' :: (escape v ++ '"' :: rest) := by simp [attributeText]
  have hskip : skipWhiteSpace .utf8 (name ++ '=' :: '"' :: (escape v ++ '"' :: rest)) =
      some (name ++ '=' :: '"' :: (escape v ++ '"' :: rest)) := by
    cases name with
    | nil => exact absurd rfl hname.1
    | cons c name =>
      unfold skipWhiteSpace
      rw [if_neg (by simp), List.cons_append,
        dropSpace_alpha (hname.2 c List.mem_cons_self)]
  have heq : skipWhiteSpace .utf8 ('=' :: '"' :: (escape v ++ '"' :: rest)) =
      some ('=' :: '"' :: (escape v ++ '"' :: rest)) := by
    unfold skipWhiteSpace
    rw [if_neg (by simp), dropSpace_stop (by decide) (by decide)]
  have hquote : skipWhiteSpace .utf8 ('"' :: (escape v ++ '"' :: rest)) =
      some ('"' :: (escape v ++ '"' :: rest)) := by
    unfold skipWhiteSpace
    rw [if_neg (by simp), dropSpace_stop (by decide) (by decide)]
  unfold parseAttribute
  rw [hshape, hskip]
  dsimp only
  rw [readName_append hname (by decide)]
  dsimp only
  split
  · next h =>
    rw [heq] at h
    cases h
    rw [hquote]
    split
    · next h => cases h
    · next h => cases h
    · next h => exact absurd (List.cons.inj (Option.some.inj h)).1 (by decide)
    · next h =>
      cases h
      exact quoted_escape hv name rest
    · next hne h =>
      cases h
      exact absurd rfl (hne _)
  · next h => exact absurd heq (h _)

/-! ### Tags -/

def attributesText (attributes : List (Text × Text)) : Text :=
  attributes.flatMap fun a => ' ' :: attributeText a

theorem skipWhiteSpace_space {ws : Text} (hws : ∀ c ∈ ws, isWhiteSpace c = true) {c : Char}
    (hc : isWhiteSpace c = false) (hmark : c.toNat ≠ 0xef) (p : Text) :
    skipWhiteSpace .utf8 (ws ++ c :: p) = some (c :: p) := by
  unfold skipWhiteSpace
  rw [if_neg (by simp), dropSpace_spaces hws, dropSpace_stop hc hmark]

theorem no_space : ∀ c ∈ ([] : Text), isWhiteSpace c = true := by simp

theorem newline_space : ∀ c ∈ ['\n'], isWhiteSpace c = true :=
  List.all_eq_true.mp (by decide)

theorem parseTag_end (n : ℕ) (attributes : List (Text × Text)) (rest : Text) :
    parseTag .utf8 (n + 1) attributes ('>' :: rest) = ⟨(attributes, false), some rest, false⟩ := by
  have hskip : skipWhiteSpace .utf8 ('>' :: rest) = some ('>' :: rest) :=
    skipWhiteSpace_space no_space (by decide) (by decide) rest
  unfold parseTag
  rw [hskip]
  rfl

theorem parseTag_attribute {a : Text × Text} (hname : Plain a.1) (hv : Quotable a.2) (n : ℕ)
    {attributes : List (Text × Text)} (hnew : ∀ b ∈ attributes, b.1 ≠ a.1) (d : Char)
    (rest : Text) :
    parseTag .utf8 (n + 1) attributes (' ' :: attributeText a ++ d :: rest) =
      parseTag .utf8 n (attributes ++ [a]) (d :: rest) := by
  have hparse := parseAttribute_text hname hv (d :: rest)
  obtain ⟨name, v⟩ := a
  cases name with
  | nil => exact absurd rfl hname.1
  | cons c name =>
    have hc := hname.2 c List.mem_cons_self
    have htext : attributeText (c :: name, v) ++ d :: rest =
        c :: (name ++ '=' :: '"' :: (escape v ++ ['"']) ++ d :: rest) := rfl
    have hskip : skipWhiteSpace .utf8 (' ' :: attributeText (c :: name, v) ++ d :: rest) =
        some (attributeText (c :: name, v) ++ d :: rest) := by
      rw [List.cons_append, htext]
      exact skipWhiteSpace_space
        (List.all_eq_true.mp (show [' '].all isWhiteSpace = true by decide))
        (isWhiteSpace_of_isAlpha hc) (by have := isAlpha_lt hc; omega) _
    have hfresh : (attributes.any fun b => decide (b.1 = c :: name)) = false := by
      rw [List.any_eq_false]
      intro b hb
      simp [hnew b hb]
    have hslash : c ≠ '/' := isAlpha_ne hc (by decide)
    have hclose : c ≠ '>' := isAlpha_ne hc (by decide)
    conv_lhs => unfold parseTag
    rw [hskip]
    rw [htext] at hparse ⊢
    split
    · next h => cases h
    · next h => cases h
    · next h => exact absurd (List.cons.inj (Option.some.inj h)).1 hslash
    · next h => exact absurd (List.cons.inj (Option.some.inj h)).1 hslash
    · next h => exact absurd (List.cons.inj (Option.some.inj h)).1 hclose
    · next h =>
      cases h
      dsimp only
      rw [hparse]
      dsimp only
      rw [hfresh, if_neg Bool.false_ne_true]

theorem length_attributesText (attributes : List (Text × Text)) :
    attributes.length ≤ (attributesText attributes).length := by
  induction attributes with
  | nil => exact Nat.le_refl 0
  | cons a attributes ih =>
    have htext : attributesText (a :: attributes) =
        ' ' :: (attributeText a ++ attributesText attributes) := rfl
    rw [htext, List.length_cons, List.length_cons, List.length_append]
    omega

/-- The attributes of an element are read as they were written. -/
theorem parseTag_attributes (attributes : List (Text × Text)) :
    ∀ (before : List (Text × Text)) (n : ℕ) (rest : Text), attributes.length < n →
      (∀ a ∈ attributes, Plain a.1 ∧ Quotable a.2) →
      ((before ++ attributes).map Prod.fst).Nodup →
      parseTag .utf8 n before (attributesText attributes ++ '>' :: rest) =
        ⟨(before ++ attributes, false), some rest, false⟩ := by
  induction attributes with
  | nil =>
    intro before n rest hn _ _
    obtain ⟨n, rfl⟩ := Nat.exists_eq_add_of_le' (Nat.one_le_of_lt hn)
    rw [List.append_nil]
    exact parseTag_end n before rest
  | cons a attributes ih =>
    intro before n rest hn hok hnodup
    obtain ⟨n, rfl⟩ := Nat.exists_eq_add_of_le' (Nat.one_le_of_lt hn)
    obtain ⟨hname, hv⟩ := hok a List.mem_cons_self
    have hnew : ∀ b ∈ before, b.1 ≠ a.1 := by
      intro b hb heq
      rw [List.map_append, List.nodup_append] at hnodup
      exact hnodup.2.2 b.1 (List.mem_map_of_mem hb) a.1 (by simp) heq
    have hrest : ∃ d p, attributesText attributes ++ '>' :: rest = d :: p := by
      cases attributes with
      | nil => exact ⟨'>', rest, rfl⟩
      | cons b bs => exact ⟨' ', _, rfl⟩
    have hih := ih (before ++ [a]) n rest (by simpa using hn)
      (fun b hb => hok b (List.mem_cons_of_mem a hb)) (by simpa using hnodup)
    have htext : attributesText (a :: attributes) ++ '>' :: rest =
        ' ' :: attributeText a ++ (attributesText attributes ++ '>' :: rest) := by
      simp [attributesText]
    obtain ⟨d, p, hd⟩ := hrest
    rw [hd] at hih htext
    rw [htext, parseTag_attribute hname hv n hnew d p, hih, List.append_assoc,
      List.singleton_append]

/-! ### Elements -/

/-- Text that is read as the node, if there is enough fuel for it and what follows. -/
structure ElementOk (t : Text) (node : Node) : Prop where
  head : ∃ c p, t = '<' :: c :: p ∧ c.isAlpha = true
  parse : ∀ (n : ℕ) (rest : Text), 2 * (t ++ rest).length ≤ n →
    parseElement .utf8 n (t ++ rest) = ⟨node, some rest, false⟩

/-- Text in an element that is read as the nodes, up to the end tag. -/
def ContentOk (t : Text) (nodes : List Node) : Prop :=
  ∀ (n : ℕ) (rest : Text), 2 * (t ++ '<' :: '/' :: rest).length < n →
    TinyXml.readValue .utf8 n (some (t ++ '<' :: '/' :: rest)) =
      ⟨nodes, some ('<' :: '/' :: rest), false⟩

def elementText (name : Text) (attributes : List (Text × Text)) (content : Text) : Text :=
  '<' :: name ++ attributesText attributes ++ '>' :: content ++ '<' :: '/' :: name ++ ['>']

theorem no_attributes : ∀ a ∈ ([] : List (Text × Text)), Plain a.1 ∧ Quotable a.2 := by simp

theorem element_ok {name content : Text} {attributes : List (Text × Text)} {nodes : List Node}
    (hname : Plain name) (hok : ∀ a ∈ attributes, Plain a.1 ∧ Quotable a.2)
    (hnodup : (attributes.map Prod.fst).Nodup) (hcontent : ContentOk content nodes) :
    ElementOk (elementText name attributes content) (.element name attributes nodes) where
  head := by
    cases name with
    | nil => exact absurd rfl hname.1
    | cons c name => exact ⟨c, _, rfl, hname.2 c List.mem_cons_self⟩
  parse := by
    intro n rest hn
    have hshape : elementText name attributes content ++ rest = '<' :: (name ++
        (attributesText attributes ++
          '>' :: (content ++ '<' :: '/' :: (name ++ '>' :: rest)))) := by simp [elementText]
    rw [hshape] at hn ⊢
    obtain ⟨n, rfl⟩ := Nat.exists_eq_add_of_le' (show 1 ≤ n from
      Nat.le_trans (by simp only [List.length_cons]; omega) hn)
    generalize hafter : attributesText attributes ++
      '>' :: (content ++ '<' :: '/' :: (name ++ '>' :: rest)) = after at hn ⊢
    obtain ⟨d, p, hd, hdn⟩ : ∃ d p, after = d :: p ∧ isNameChar d = false := by
      cases attributes with
      | nil => exact ⟨'>', _, hafter.symm, by decide⟩
      | cons a as => exact ⟨' ', _, hafter.symm, by decide⟩
    have hlt : skipWhiteSpace .utf8 ('<' :: (name ++ after)) = some ('<' :: (name ++ after)) :=
      skipWhiteSpace_space no_space (by decide) (by decide) _
    have hread : (skipWhiteSpace .utf8 (name ++ after)).bind readName = some (name, after) := by
      have hskip : skipWhiteSpace .utf8 (name ++ after) = some (name ++ after) := by
        cases name with
        | nil => exact absurd rfl hname.1
        | cons c name =>
          unfold skipWhiteSpace
          rw [if_neg (by simp), List.cons_append,
            dropSpace_alpha (hname.2 c List.mem_cons_self)]
      rw [hskip, hd]
      exact readName_append hname hdn
    have htag : parseTag .utf8 (after.length + 1) [] after =
        ⟨(attributes, false), some (content ++ '<' :: '/' :: (name ++ '>' :: rest)), false⟩ := by
      have hlen : attributes.length < after.length + 1 := by
        have hle := length_attributesText attributes
        rw [← hafter, List.length_append]
        omega
      have h := parseTag_attributes attributes [] (after.length + 1)
        (content ++ '<' :: '/' :: (name ++ '>' :: rest)) hlen hok hnodup
      rw [hafter] at h
      exact h
    have hvalue := hcontent n (name ++ '>' :: rest) (by
      rw [← hafter] at hn
      simp only [List.length_cons, List.length_append] at hn ⊢
      omega)
    have hend : ("</".toList ++ name ++ ">".toList).isPrefixOf
        ('<' :: '/' :: (name ++ '>' :: rest)) = true := by
      rw [List.isPrefixOf_iff_prefix]
      exact ⟨rest, by simp⟩
    have hdrop : ('<' :: '/' :: (name ++ '>' :: rest)).drop
        ("</".toList ++ name ++ ">".toList).length = rest := by
      have happ : '<' :: '/' :: (name ++ '>' :: rest) =
          ("</".toList ++ name ++ ">".toList) ++ rest := by simp
      rw [happ, List.drop_left]
    unfold parseElement
    rw [hlt]
    split
    · next h =>
      cases h
      rw [hread]
      subst hd
      dsimp only
      rw [htag]
      dsimp only
      rw [if_neg Bool.false_ne_true, hvalue]
      dsimp only
      rw [if_pos hend, hdrop]
    · next h => exact absurd rfl (h _)

theorem identify_element {c : Char} (hc : c.isAlpha = true) (p : Text) :
    TinyXml.identify .utf8 ('<' :: c :: p) = some .element := by
  have hskip : skipWhiteSpace .utf8 ('<' :: c :: p) = some ('<' :: c :: p) :=
    skipWhiteSpace_space no_space (by decide) (by decide) _
  have hquestion : startsWith "<?xml" ('<' :: (c :: p).map Char.toLower) = false := by
    have hne : '?' ≠ c.toLower := by
      intro h
      have hlt := isAlpha_lt hc
      have hall : ∀ n < 127, '?' = (Char.ofNat n).toLower → Char.ofNat n = '?' := by decide
      have hq := hall c.toNat hlt (by rw [Char.ofNat_toNat]; exact h)
      rw [Char.ofNat_toNat] at hq
      exact isAlpha_ne hc (show Char.isAlpha '?' = false by decide) hq
    simp [startsWith, List.isPrefixOf, hne]
  have hbang : ∀ tag : Text, (('<' :: '!' :: tag).isPrefixOf ('<' :: c :: p)) = false := by
    intro tag
    have hne := isAlpha_ne hc (show Char.isAlpha '!' = false by decide)
    simp [List.isPrefixOf, Ne.symm hne]
  unfold TinyXml.identify
  rw [hskip]
  show (if startsWith "<?xml" ('<' :: (c :: p).map Char.toLower) then _ else _) = _
  rw [hquestion, if_neg Bool.false_ne_true]
  have hcomment : startsWith "<!--" ('<' :: c :: p) = false := hbang _
  have hcdata : startsWith "<![CDATA[" ('<' :: c :: p) = false := hbang _
  have hdtd : startsWith "<!" ('<' :: c :: p) = false := hbang _
  rw [hcomment, if_neg Bool.false_ne_true, hcdata, if_neg Bool.false_ne_true, hdtd,
    if_neg Bool.false_ne_true]
  show (if TinyXml.isAlpha c || decide (c = '_') then _ else _) = _
  rw [isAlpha_of_isAlpha hc, Bool.true_or, if_pos rfl]

theorem content_nil {ws : Text} (hws : ∀ c ∈ ws, isWhiteSpace c = true) : ContentOk ws [] := by
  intro n rest hn
  obtain ⟨n, rfl⟩ := Nat.exists_eq_add_of_le' (Nat.one_le_of_lt hn)
  have hskip := skipWhiteSpace_space hws (show isWhiteSpace '<' = false by decide) (by decide)
    ('/' :: rest)
  unfold TinyXml.readValue
  rw [hskip]
  rfl

/-- An element after white space, and what comes after it -/
theorem content_element {ws t content : Text} {node : Node} {nodes : List Node}
    (hws : ∀ c ∈ ws, isWhiteSpace c = true) (ht : ElementOk t node)
    (hcontent : ContentOk content nodes) : ContentOk (ws ++ t ++ content) (node :: nodes) := by
  intro n rest hn
  obtain ⟨n, rfl⟩ := Nat.exists_eq_add_of_le' (Nat.one_le_of_lt hn)
  have happ : ws ++ t ++ content ++ '<' :: '/' :: rest =
      ws ++ (t ++ (content ++ '<' :: '/' :: rest)) := by simp
  have hparse := ht.parse n (content ++ '<' :: '/' :: rest) (by
    rw [happ] at hn
    simp only [List.length_append, List.length_cons] at hn ⊢
    omega)
  obtain ⟨c, p, rfl, hc⟩ := ht.head
  have hvalue := hcontent n rest (by
    rw [happ] at hn
    simp only [List.length_append, List.length_cons] at hn ⊢
    omega)
  have hskip := skipWhiteSpace_space hws (show isWhiteSpace '<' = false by decide) (by decide)
    (c :: p ++ (content ++ '<' :: '/' :: rest))
  have htag : startsWith "</" ('<' :: (c :: p ++ (content ++ '<' :: '/' :: rest))) = false := by
    have hne := isAlpha_ne hc (show Char.isAlpha '/' = false by decide)
    simp [startsWith, List.isPrefixOf, Ne.symm hne]
  have hkind := identify_element hc (p ++ (content ++ '<' :: '/' :: rest))
  rw [happ]
  unfold TinyXml.readValue
  rw [show ws ++ ('<' :: c :: p ++ (content ++ '<' :: '/' :: rest)) =
    ws ++ '<' :: (c :: p ++ (content ++ '<' :: '/' :: rest)) from rfl, hskip]
  show (if startsWith "</" ('<' :: (c :: p ++ (content ++ '<' :: '/' :: rest))) then _ else _) = _
  rw [htag, if_neg Bool.false_ne_true, List.cons_append]
  dsimp only
  rw [hkind]
  dsimp only
  rw [List.cons_append, List.cons_append] at hparse
  rw [hparse]
  dsimp only
  rw [hvalue]
  rfl

/-- A text up to the end tag, after its white space -/
theorem readValue_text {c : Char} {p q v : Text} (hc : c ≠ '<')
    (hskip : skipWhiteSpace .utf8 p = some (c :: q)) {e : Text}
    (hread : parseText .utf8 (c :: q) = ⟨v, some ('<' :: '/' :: e), false⟩) (n : ℕ)
    (hn : 2 * ('<' :: '/' :: e).length < n) :
    TinyXml.readValue .utf8 (n + 1) (some p) =
      ⟨if blank v then [] else [.text v], some ('<' :: '/' :: e), false⟩ := by
  have hvalue := content_nil no_space n e (by simpa using hn)
  rw [List.nil_append] at hvalue
  unfold TinyXml.readValue
  rw [hskip]
  split
  · next h => cases h
  · next h => cases h
  · next h => exact absurd (List.cons.inj (Option.some.inj h)).1 hc
  · next h =>
    cases h
    rw [hread]
    dsimp only
    rw [hvalue]
    rfl

/-- The node of a text, if there is one. -/
def textNodes (s : Text) : List Node := if s = [] then [] else [.text s]

theorem content_text {s : Text} (hs : Utf8 s) : ContentOk (escape s) (textNodes (condense s)) := by
  intro n rest hn
  obtain ⟨hdrop, hutf8, hhead⟩ := dropSpace_escape hs ('/' :: rest)
  have hskip : skipWhiteSpace .utf8 (escape s ++ '<' :: '/' :: rest) =
      some (escape (dropSpace .utf8 s) ++ '<' :: '/' :: rest) := by
    unfold skipWhiteSpace
    rw [if_neg (by simp), hdrop]
  obtain ⟨n, rfl⟩ := Nat.exists_eq_add_of_le' (Nat.one_le_of_lt hn)
  rcases hhead with hempty | ⟨q, q', hq, hopen⟩
  · have hcondense : condense s = [] := by
      unfold condense
      rw [hempty]
      rfl
    unfold TinyXml.readValue
    rw [hskip, hempty, hcondense]
    rfl
  · obtain ⟨c, r, rfl, hspace⟩ := hopen.head
    have hc : dropSpace .utf8 s = c :: (r ++ q') := hq
    have hread : parseText .utf8 (escape (dropSpace .utf8 s) ++ '<' :: '/' :: rest) =
        ⟨condense s, some ('<' :: '/' :: rest), false⟩ := by
      unfold parseText
      rw [show "<".toList = ['<'] from rfl, readText_escape hutf8]
      dsimp only
      unfold condense
      rw [dropSpace_idem hs]
    have hne : condense s ≠ [] := by
      unfold condense squeeze
      rw [hc]
      simp [hspace]
    obtain ⟨d, p, hd, -, hlt⟩ := escapeChar_head c
    rw [hc, escape_cons, hd] at hread hskip
    simp only [List.cons_append] at hread hskip
    have hpos : 1 ≤ (escape s).length := by
      cases s with
      | nil => cases hc
      | cons a s =>
        obtain ⟨a', b, hab, -⟩ := escapeChar_head a
        rw [escape_cons, hab]
        simp
    rw [readValue_text hlt hskip hread n (by
      simp only [List.length_append, List.length_cons] at hn ⊢
      omega), if_neg (mt (condense_blank hs).mp hne)]
    unfold textNodes
    rw [if_neg hne]

end OrocosRtt.Marsh.Cpf
