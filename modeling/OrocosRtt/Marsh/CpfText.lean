import OrocosRtt.Marsh.Cpf

/-! What the reader makes of text that the marshaller escaped. -/
namespace OrocosRtt.Marsh.Cpf
open TinyXml

/-! ### Bytes of characters -/

/-- A character of several bytes -/
structure Sequence (q : Text) : Prop where
  two : 2 ≤ q.length
  length : ∀ c ∈ q.head?, utf8Length c = q.length
  high : ∀ c ∈ q, 128 ≤ c.toNat

/-- UTF-8, as far as the table of the reader tells. -/
inductive Utf8 : Text → Prop
  | nil : Utf8 []
  | single {c : Char} {p : Text} (hc : utf8Length c = 1) (hp : Utf8 p) : Utf8 (c :: p)
  | sequence {q p : Text} (hq : Sequence q) (hp : Utf8 p) : Utf8 (q ++ p)

theorem utf8_ascii {t : Text} (h : ∀ c ∈ t, c.toNat < 128) : Utf8 t := by
  induction t with
  | nil => exact .nil
  | cons c t ih =>
    have hc := h c List.mem_cons_self
    refine .single ?_ (ih fun d hd => h d (List.mem_cons_of_mem c hd))
    unfold utf8Length
    rw [if_pos (by omega)]

/-! ### Escaping -/

def escapeChar (c : Char) : Text :=
  if c = '&' then "&amp;".toList
  else if c = '<' then "&lt;".toList
  else if c = '>' then "&gt;".toList
  else [c]

@[simp] theorem escape_nil : escape [] = [] := rfl

theorem escape_append (s t : Text) : escape (s ++ t) = escape s ++ escape t := by
  simp only [escape, List.flatMap_append]

theorem escape_singleton (c : Char) : escape [c] = escapeChar c := by
  unfold escape escapeChar
  by_cases hamp : c = '&'
  · subst hamp
    decide
  · by_cases hlt : c = '<'
    · subst hlt
      decide
    · by_cases hgt : c = '>'
      · subst hgt
        decide
      · simp [hamp, hlt, hgt]

theorem escape_cons (c : Char) (s : Text) : escape (c :: s) = escapeChar c ++ escape s := by
  rw [← escape_singleton, ← escape_append]
  rfl

theorem escapeChar_plain {c : Char} (h : c ≠ '&' ∧ c ≠ '<' ∧ c ≠ '>') : escapeChar c = [c] := by
  unfold escapeChar
  rw [if_neg h.1, if_neg h.2.1, if_neg h.2.2]

theorem escape_plain {s : Text} (h : ∀ c ∈ s, c ≠ '&' ∧ c ≠ '<' ∧ c ≠ '>') : escape s = s := by
  induction s with
  | nil => rfl
  | cons c s ih =>
    rw [escape_cons, escapeChar_plain (h c List.mem_cons_self),
      ih fun d hd => h d (List.mem_cons_of_mem c hd)]
    rfl

theorem ne_of_high {c d : Char} (h : 128 ≤ c.toNat) (hd : d.toNat < 128) : c ≠ d := by
  rintro rfl
  omega

theorem Sequence.escape {q : Text} (hq : Sequence q) : escape q = q :=
  escape_plain fun c hc => ⟨ne_of_high (hq.high c hc) (by decide),
    ne_of_high (hq.high c hc) (by decide), ne_of_high (hq.high c hc) (by decide)⟩

theorem Sequence.cons {q : Text} (hq : Sequence q) : ∃ c p, q = c :: p := by
  cases q with
  | nil => exact absurd hq.two (by simp)
  | cons c p => exact ⟨c, p, rfl⟩

/-! ### Reading characters -/

theorem getChar_utf8 (c : Char) (p : Text) :
    getChar .utf8 (c :: p) =
      if utf8Length c = 1 then if c = '&' then getEntity .utf8 (c :: p) else some ([c], p)
      else if (c :: p).length < utf8Length c then none
      else some ((c :: p).take (utf8Length c), (c :: p).drop (utf8Length c)) := rfl

theorem getChar_escapeChar {c : Char} (hc : utf8Length c = 1) (p : Text) :
    getChar .utf8 (escapeChar c ++ p) = some ([c], p) := by
  unfold escapeChar
  split
  · next h =>
    subst h
    rfl
  · split
    · next h =>
      subst h
      rfl
    · split
      · next h =>
        subst h
        rfl
      · next h _ _ =>
        rw [List.singleton_append, getChar_utf8, if_pos hc, if_neg h]

theorem getChar_sequence {q : Text} (hq : Sequence q) (p : Text) :
    getChar .utf8 (q ++ p) = some (q, p) := by
  obtain ⟨c, r, rfl⟩ := hq.cons
  have hlen : utf8Length c = (c :: r).length := hq.length c rfl
  have htwo := hq.two
  rw [List.cons_append, getChar_utf8, hlen, if_neg (by omega), ← List.cons_append,
    if_neg (by simp), List.take_left, List.drop_left]

/-- The first byte of a character as it is written, and what it is not. -/
theorem escapeChar_head (c : Char) :
    ∃ d p, escapeChar c = d :: p ∧ (d = c ∨ d = '&') ∧ d ≠ '<' := by
  unfold escapeChar
  split
  · exact ⟨'&', _, rfl, .inr rfl, by decide⟩
  · split
    · exact ⟨'&', _, rfl, .inr rfl, by decide⟩
    · split
      · exact ⟨'&', _, rfl, .inr rfl, by decide⟩
      · next h _ => exact ⟨c, [], rfl, .inl rfl, h⟩

/-! ### Texts that keep their white space -/

theorem keepText_end {enc : Encoding} {endTag : Text} {c : Char} {p : Text}
    (h : endTag.isPrefixOf (c :: p) = true) (n : ℕ) :
    keepText enc endTag (n + 1) (c :: p) = some ([], c :: p) := if_pos h

theorem keepText_char {endTag q p v : Text} {c : Char} (hq : getChar .utf8 (c :: q) = some (v, p))
    (h : endTag.isPrefixOf (c :: q) = false) (n : ℕ) :
    keepText .utf8 endTag (n + 1) (c :: q) =
      (keepText .utf8 endTag n p).map fun r => (v ++ r.1, r.2) := by
  show (if endTag.isPrefixOf (c :: q) then _ else _) = _
  rw [h, if_neg Bool.false_ne_true, hq]
  rfl

/-- An attribute is read up to its quote. -/
theorem keepText_escape {s : Text} (hs : Utf8 s) (hquote : '"' ∉ s) :
    ∀ (rest : Text) (n : ℕ), (escape s ++ '"' :: rest).length ≤ n →
      keepText .utf8 ['"'] n (escape s ++ '"' :: rest) = some (s, '"' :: rest) := by
  induction hs with
  | nil =>
    intro rest n hn
    obtain ⟨n, rfl⟩ := Nat.exists_eq_add_of_le' (show 1 ≤ n from Nat.le_trans (by simp) hn)
    exact keepText_end (by simp [List.isPrefixOf]) n
  | @single c p hc _ ih =>
    intro rest n hn
    obtain ⟨d, q, he, hd, -⟩ := escapeChar_head c
    have hne : d ≠ '"' := by
      rcases hd with rfl | rfl
      · rintro rfl
        exact hquote List.mem_cons_self
      · decide
    have hread := getChar_escapeChar hc (escape p ++ '"' :: rest)
    rw [escape_cons, he] at hn ⊢
    rw [he] at hread
    simp only [List.cons_append, List.append_assoc, List.length_cons, List.length_append] at hn
    obtain ⟨n, rfl⟩ := Nat.exists_eq_add_of_le' (show 1 ≤ n by omega)
    simp only [List.cons_append, List.append_assoc] at hread ⊢
    rw [keepText_char hread (by simp [List.isPrefixOf, Ne.symm hne]) n,
      ih (fun h => hquote (List.mem_cons_of_mem c h)) rest n
        (by simp only [List.length_append, List.length_cons]; omega)]
    rfl
  | @sequence q p hq _ ih =>
    intro rest n hn
    have hread := getChar_sequence hq (escape p ++ '"' :: rest)
    rw [escape_append, hq.escape, List.append_assoc] at hn ⊢
    obtain ⟨c, r, rfl⟩ := hq.cons
    have hne : c ≠ '"' := ne_of_high (hq.high c List.mem_cons_self) (by decide)
    rw [List.length_append, List.length_cons] at hn
    obtain ⟨n, rfl⟩ := Nat.exists_eq_add_of_le' (show 1 ≤ n by omega)
    rw [List.cons_append] at hread ⊢
    rw [keepText_char hread (by simp [List.isPrefixOf, Ne.symm hne]) n,
      ih (fun h => hquote (List.mem_append_right _ h)) rest n (by omega)]
    rfl

/-! ### Texts whose white space is condensed -/

/-- Each run of white space becomes a space before the next character. -/
def squeeze : Bool → Text → Text
  | _, [] => []
  | whitespace, c :: p =>
    if isWhiteSpace c then squeeze true p
    else (if whitespace then [' '] else []) ++ c :: squeeze false p

theorem isWhiteSpace_high {c : Char} (h : 128 ≤ c.toNat) : isWhiteSpace c = false := by
  have hspace : c ≠ ' ' := ne_of_high h (by decide)
  unfold isWhiteSpace
  rw [decide_eq_false hspace, Bool.false_or, Bool.and_eq_false_iff]
  right
  exact decide_eq_false (by omega)

theorem escapeChar_space {c : Char} (h : isWhiteSpace c = true) : escapeChar c = [c] := by
  refine escapeChar_plain ⟨?_, ?_, ?_⟩
  all_goals
    rintro rfl
    exact absurd h (by decide)

theorem squeeze_high {q : Text} (hq : ∀ c ∈ q, 128 ≤ c.toNat) (p : Text) :
    squeeze false (q ++ p) = q ++ squeeze false p := by
  induction q with
  | nil => rfl
  | cons c q ih =>
    show (if isWhiteSpace c then _ else _ ++ c :: squeeze false (q ++ p)) = _
    rw [isWhiteSpace_high (hq c List.mem_cons_self), if_neg Bool.false_ne_true,
      if_neg Bool.false_ne_true, ih fun d hd => hq d (List.mem_cons_of_mem c hd)]
    rfl

theorem squeeze_sequence {q : Text} (hq : Sequence q) (whitespace : Bool) (p : Text) :
    squeeze whitespace (q ++ p) = (if whitespace then [' '] else []) ++ q ++ squeeze false p := by
  obtain ⟨c, r, rfl⟩ := hq.cons
  show (if isWhiteSpace c then _ else _) = _
  rw [isWhiteSpace_high (hq.high c List.mem_cons_self), if_neg Bool.false_ne_true]
  show _ ++ c :: squeeze false (r ++ p) = _
  rw [squeeze_high (fun d hd => hq.high d (List.mem_cons_of_mem c hd))]
  simp

theorem condenseText_char {endTag q p v : Text} {c : Char}
    (hq : getChar .utf8 (c :: q) = some (v, p)) (h : endTag.isPrefixOf (c :: q) = false)
    (hc : isWhiteSpace c = false) (n : ℕ) (whitespace : Bool) :
    condenseText .utf8 endTag (n + 1) whitespace (c :: q) =
      (condenseText .utf8 endTag n false p).map fun r =>
        ((if whitespace then [' '] else []) ++ v ++ r.1, r.2) := by
  show (if endTag.isPrefixOf (c :: q) then _ else if isWhiteSpace c then _ else _) = _
  rw [h, if_neg Bool.false_ne_true, hc, if_neg Bool.false_ne_true, hq]
  rfl

theorem condenseText_space {endTag q : Text} {c : Char}
    (h : endTag.isPrefixOf (c :: q) = false) (hc : isWhiteSpace c = true) (n : ℕ)
    (whitespace : Bool) : condenseText .utf8 endTag (n + 1) whitespace (c :: q) =
      condenseText .utf8 endTag n true q := by
  show (if endTag.isPrefixOf (c :: q) then _ else if isWhiteSpace c then _ else _) = _
  rw [h, if_neg Bool.false_ne_true, if_pos hc]

/-- A text is read up to the next tag. -/
theorem condenseText_escape {s : Text} (hs : Utf8 s) :
    ∀ (whitespace : Bool) (rest : Text) (n : ℕ), (escape s ++ '<' :: rest).length ≤ n →
      condenseText .utf8 ['<'] n whitespace (escape s ++ '<' :: rest) =
        some (squeeze whitespace s, '<' :: rest) := by
  induction hs with
  | nil =>
    intro whitespace rest n hn
    obtain ⟨n, rfl⟩ := Nat.exists_eq_add_of_le' (show 1 ≤ n from Nat.le_trans (by simp) hn)
    exact if_pos (by simp [List.isPrefixOf])
  | @single c p hc _ ih =>
    intro whitespace rest n hn
    rw [escape_cons] at hn ⊢
    by_cases hspace : isWhiteSpace c = true
    · rw [escapeChar_space hspace] at hn ⊢
      have hne : c ≠ '<' := by
        rintro rfl
        exact absurd hspace (by decide)
      simp only [List.cons_append, List.nil_append, List.length_cons] at hn ⊢
      obtain ⟨n, rfl⟩ := Nat.exists_eq_add_of_le' (show 1 ≤ n by omega)
      rw [condenseText_space (by simp [List.isPrefixOf, Ne.symm hne]) hspace,
        ih true rest n (by omega)]
      show _ = some (if isWhiteSpace c then _ else _, _)
      rw [if_pos hspace]
    · have hspace : isWhiteSpace c = false := by simpa using hspace
      obtain ⟨d, q, he, hd, hne⟩ := escapeChar_head c
      have hspace' : isWhiteSpace d = false := by
        rcases hd with rfl | rfl
        · exact hspace
        · decide
      have hread := getChar_escapeChar hc (escape p ++ '<' :: rest)
      rw [he] at hn hread ⊢
      simp only [List.cons_append, List.append_assoc, List.length_cons, List.length_append] at hn
      obtain ⟨n, rfl⟩ := Nat.exists_eq_add_of_le' (show 1 ≤ n by omega)
      simp only [List.cons_append, List.append_assoc] at hread ⊢
      rw [condenseText_char hread (by simp [List.isPrefixOf, Ne.symm hne]) hspace',
        ih false rest n (by simp only [List.length_append, List.length_cons]; omega)]
      show _ = some (if isWhiteSpace c then _ else _, _)
      rw [hspace, if_neg Bool.false_ne_true]
      simp
  | @sequence q p hq _ ih =>
    intro whitespace rest n hn
    have hread := getChar_sequence hq (escape p ++ '<' :: rest)
    rw [escape_append, hq.escape, List.append_assoc] at hn ⊢
    rw [squeeze_sequence hq]
    obtain ⟨c, r, rfl⟩ := hq.cons
    have hhigh := hq.high c List.mem_cons_self
    have hne : c ≠ '<' := ne_of_high hhigh (by decide)
    rw [List.length_append, List.length_cons] at hn
    obtain ⟨n, rfl⟩ := Nat.exists_eq_add_of_le' (show 1 ≤ n by omega)
    rw [List.cons_append] at hread ⊢
    rw [condenseText_char hread (by simp [List.isPrefixOf, Ne.symm hne]) (isWhiteSpace_high hhigh),
      ih false rest n (by omega)]
    rfl

/-! ### White space before a text -/

theorem dropSpace_stop {c : Char} (hspace : isWhiteSpace c = false) (hmark : c.toNat ≠ 0xef)
    (enc : Encoding) (p : Text) : dropSpace enc (c :: p) = c :: p := by
  have hmark' : ∀ a b, isMark c a b = false := fun a b => by simp [isMark, hmark]
  match p with
  | [] => simp [dropSpace, hspace]
  | [a] => simp [dropSpace, hspace]
  | a :: b :: p => simp [dropSpace, hspace, hmark']

theorem dropSpace_space {c : Char} (hspace : isWhiteSpace c = true) (enc : Encoding) (p : Text) :
    dropSpace enc (c :: p) = dropSpace enc p := by
  have hmark : c.toNat ≠ 0xef := by
    intro h
    rw [isWhiteSpace_high (by omega)] at hspace
    cases hspace
  have hmark' : ∀ a b, isMark c a b = false := fun a b => by simp [isMark, hmark]
  match p with
  | [] => simp [dropSpace, hspace]
  | [a] => simp [dropSpace, hspace]
  | a :: b :: p => simp [dropSpace, hspace, hmark']

theorem dropSpace_spaces {ws : Text} (hws : ∀ c ∈ ws, isWhiteSpace c = true) (enc : Encoding)
    (p : Text) : dropSpace enc (ws ++ p) = dropSpace enc p := by
  induction ws with
  | nil => rfl
  | cons c ws ih =>
    rw [List.cons_append, dropSpace_space (hws c List.mem_cons_self),
      ih fun d hd => hws d (List.mem_cons_of_mem c hd)]

/-- A character of several bytes is a byte order mark, or stays. -/
theorem dropSpace_sequence {q : Text} (hq : Sequence q) :
    (∀ p, dropSpace .utf8 (q ++ p) = dropSpace .utf8 p) ∨
      ∀ p, dropSpace .utf8 (q ++ p) = q ++ p := by
  obtain ⟨c, r, rfl⟩ := hq.cons
  have hspace := isWhiteSpace_high (hq.high c List.mem_cons_self)
  by_cases hmark : c.toNat = 0xef
  · have hlen : (c :: r).length = 3 := by
      rw [← hq.length c rfl]
      simp [utf8Length, hmark]
    match r, hlen with
    | [a, b], _ =>
      cases hab : isMark c a b with
      | true => exact .inl fun p => by simp [dropSpace, hab]
      | false => exact .inr fun p => by simp [dropSpace, hab, hspace]
  · exact .inr fun p => dropSpace_stop hspace hmark .utf8 (r ++ p)

/-- What of a text comes after a parse: it begins with its first character that is no white
space. -/
def condense (s : Text) : Text := squeeze false (dropSpace .utf8 s)

/-- How a text begins once its first white space is left out. -/
structure Opening (q : Text) : Prop where
  head : ∃ c r, q = c :: r ∧ isWhiteSpace c = false
  stays : ∀ p, dropSpace .utf8 (q ++ p) = q ++ p
  squeeze : ∀ p, squeeze false (q ++ p) = q ++ squeeze false p

theorem dropSpace_escape {s : Text} (hs : Utf8 s) (rest : Text) :
    dropSpace .utf8 (escape s ++ '<' :: rest) = escape (dropSpace .utf8 s) ++ '<' :: rest ∧
      Utf8 (dropSpace .utf8 s) ∧
      (dropSpace .utf8 s = [] ∨ ∃ q p, dropSpace .utf8 s = q ++ p ∧ Opening q) := by
  induction hs with
  | nil => exact ⟨dropSpace_stop (by decide) (by decide) _ _, .nil, .inl rfl⟩
  | @single c p hc hp ih =>
    by_cases hspace : isWhiteSpace c = true
    · rw [escape_cons, escapeChar_space hspace, dropSpace_space hspace, List.append_assoc,
        List.singleton_append, dropSpace_space hspace]
      exact ih
    · have hspace : isWhiteSpace c = false := by simpa using hspace
      have hmark : c.toNat ≠ 0xef := by
        intro h
        simp [utf8Length, h] at hc
      obtain ⟨d, q, he, hd, -⟩ := escapeChar_head c
      have hspace' : isWhiteSpace d = false := by
        rcases hd with rfl | rfl
        · exact hspace
        · decide
      have hmark' : d.toNat ≠ 0xef := by
        rcases hd with rfl | rfl
        · exact hmark
        · decide
      rw [dropSpace_stop hspace hmark, escape_cons, he, List.cons_append, List.cons_append,
        dropSpace_stop hspace' hmark']
      refine ⟨rfl, .single hc hp, .inr ⟨[c], p, rfl, ⟨c, [], rfl, hspace⟩, ?_, ?_⟩⟩
      · exact fun p => dropSpace_stop hspace hmark .utf8 p
      · intro p
        show (if isWhiteSpace c then _ else _) = _
        rw [hspace, if_neg Bool.false_ne_true]
        rfl
  | @sequence q p hq hp ih =>
    rcases dropSpace_sequence hq with hdrop | hstop
    · rw [hdrop, escape_append, hq.escape, List.append_assoc, hdrop]
      exact ih
    · rw [hstop, escape_append, hq.escape, List.append_assoc, hstop]
      refine ⟨rfl, .sequence hq hp, .inr ⟨q, p, rfl, ?_, hstop, squeeze_high hq.high⟩⟩
      obtain ⟨c, r, rfl⟩ := hq.cons
      exact ⟨c, r, rfl, isWhiteSpace_high (hq.high c List.mem_cons_self)⟩

theorem dropSpace_idem {s : Text} (hs : Utf8 s) :
    dropSpace .utf8 (dropSpace .utf8 s) = dropSpace .utf8 s := by
  obtain ⟨-, -, hempty | ⟨q, p, hp, hq⟩⟩ := dropSpace_escape hs []
  · rw [hempty]
    rfl
  · rw [hp, hq.stays]

theorem condense_blank {s : Text} (hs : Utf8 s) : blank (condense s) = true ↔ condense s = [] := by
  constructor
  · intro h
    unfold condense at h ⊢
    obtain ⟨-, -, hempty | ⟨q, p, hp, hq⟩⟩ := dropSpace_escape hs []
    · rw [hempty]
      rfl
    · obtain ⟨c, r, rfl, hc⟩ := hq.head
      rw [hp, hq.squeeze] at h
      simp [hc, blank] at h
  · intro h
    rw [h]
    rfl

theorem squeeze_squeeze (s : Text) :
    ∀ whitespace, squeeze false (squeeze whitespace s) = squeeze whitespace s := by
  induction s with
  | nil => exact fun _ => rfl
  | cons c s ih =>
    intro whitespace
    by_cases hc : isWhiteSpace c = true
    · have h : squeeze whitespace (c :: s) = squeeze true s := if_pos hc
      rw [h]
      exact ih true
    · have h : ∀ w, ∀ t, squeeze w (c :: t) = (if w then [' '] else []) ++ c :: squeeze false t :=
        fun w t => if_neg hc
      rw [h]
      cases whitespace with
      | false =>
        show squeeze false (c :: squeeze false s) = _
        rw [h, ih]
      | true =>
        show squeeze true (c :: squeeze false s) = _
        rw [h, ih]

/-- What was read once is read as it is. -/
theorem condense_condense {s : Text} (hs : Utf8 s) : condense (condense s) = condense s := by
  have hdrop : dropSpace .utf8 (condense s) = condense s := by
    unfold condense
    obtain ⟨-, -, hempty | ⟨q, p, hp, hq⟩⟩ := dropSpace_escape hs []
    · rw [hempty]
      rfl
    · rw [hp, hq.squeeze, hq.stays]
  show squeeze false (dropSpace .utf8 (condense s)) = _
  rw [hdrop]
  exact squeeze_squeeze _ false

theorem squeeze_utf8 {s : Text} (hs : Utf8 s) : ∀ whitespace, Utf8 (squeeze whitespace s) := by
  have hspace : ∀ (whitespace : Bool) {t : Text}, Utf8 t →
      Utf8 ((if whitespace then [' '] else []) ++ t) := by
    intro whitespace t ht
    cases whitespace with
    | false => exact ht
    | true => exact .single (by decide) ht
  induction hs with
  | nil => exact fun _ => .nil
  | @single c p hc _ ih =>
    intro whitespace
    unfold squeeze
    split
    · exact ih true
    · exact hspace whitespace (.single hc (ih false))
  | @sequence q p hq _ ih =>
    intro whitespace
    rw [squeeze_sequence hq, List.append_assoc]
    exact hspace whitespace (.sequence hq (ih false))

theorem condense_utf8 {s : Text} (hs : Utf8 s) : Utf8 (condense s) :=
  squeeze_utf8 (dropSpace_escape hs []).2.1 false

theorem mem_squeeze {s : Text} {c : Char} : ∀ {whitespace : Bool}, c ∈ squeeze whitespace s →
    c ∈ s ∨ c = ' ' := by
  induction s with
  | nil => intro whitespace h; cases h
  | cons d s ih =>
    intro whitespace h
    unfold squeeze at h
    split at h
    · exact (ih h).imp_left (List.mem_cons_of_mem d)
    · rcases List.mem_append.mp h with h | h
      · cases whitespace with
        | false => cases h
        | true => exact .inr (List.mem_singleton.mp h)
      · rcases List.mem_cons.mp h with rfl | h
        · exact .inl List.mem_cons_self
        · exact (ih h).imp_left (List.mem_cons_of_mem d)

theorem mem_dropSpace {enc : Encoding} {s : Text} {c : Char} (h : c ∈ dropSpace enc s) : c ∈ s := by
  induction s using dropSpace.induct enc with
  | case1 a b d rest hmark ih =>
    rw [dropSpace, if_pos hmark] at h
    exact List.mem_cons_of_mem a (List.mem_cons_of_mem b (List.mem_cons_of_mem d (ih h)))
  | case2 a b d rest hmark hspace ih =>
    rw [dropSpace, if_neg hmark, if_pos hspace] at h
    exact List.mem_cons_of_mem a (ih h)
  | case3 a b d rest hmark hspace =>
    rw [dropSpace, if_neg hmark, if_neg hspace] at h
    exact h
  | case4 a b hspace ih =>
    rw [dropSpace, if_pos hspace] at h
    exact List.mem_cons_of_mem a (ih h)
  | case5 a b hspace =>
    rw [dropSpace, if_neg hspace] at h
    exact h
  | case6 a hspace =>
    rw [dropSpace, if_pos hspace] at h
    cases h
  | case7 a hspace =>
    rw [dropSpace, if_neg hspace] at h
    exact h
  | case8 => cases h

theorem mem_condense {s : Text} {c : Char} (h : c ∈ condense s) : c ∈ s ∨ c = ' ' :=
  (mem_squeeze h).imp_left mem_dropSpace

/-- Text in an element is read up to the next tag, and condensed. -/
theorem readText_escape {s : Text} (hs : Utf8 s) (rest : Text) :
    readText .utf8 true ['<'] (escape s ++ '<' :: rest) = some (condense s, '<' :: rest) := by
  obtain ⟨hdrop, hutf8, -⟩ := dropSpace_escape hs rest
  unfold readText skipWhiteSpace
  rw [if_pos rfl, if_neg (by simp), hdrop]
  exact condenseText_escape hutf8 false rest _ (Nat.le_refl _)

end OrocosRtt.Marsh.Cpf
