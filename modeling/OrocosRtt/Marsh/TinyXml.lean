import Mathlib.Data.List.Basic

/-! The part of TinyXML that reads a file: text of bytes, in which white space is condensed, into a
tree of nodes. A null pointer is told apart from an error of the document, which not every failure
sets. -/
namespace OrocosRtt.Marsh.TinyXml

/-- A C string; its characters are bytes. -/
abbrev Text := List Char

inductive Encoding where
  | unknown | utf8 | legacy
  deriving DecidableEq, Repr

/-- `isspace` -/
def isWhiteSpace (c : Char) : Bool := c = ' ' || 9 ≤ c.toNat && c.toNat ≤ 13

def isAlpha (c : Char) : Bool := if c.toNat < 127 then c.isAlpha else true

def isAlphaNum (c : Char) : Bool := if c.toNat < 127 then c.isAlphanum else true

/-- The byte order marks of UTF-8 count as white space. -/
def isMark (a b c : Char) : Bool :=
  a.toNat = 0xef && (b.toNat = 0xbb && c.toNat = 0xbf ||
    b.toNat = 0xbf && (c.toNat = 0xbe || c.toNat = 0xbf))

def dropSpace (enc : Encoding) : Text → Text
  | a :: b :: c :: rest =>
    if enc = .utf8 ∧ isMark a b c then dropSpace enc rest
    else if isWhiteSpace a then dropSpace enc (b :: c :: rest)
    else a :: b :: c :: rest
  | [a, b] => if isWhiteSpace a then dropSpace enc [b] else [a, b]
  | [a] => if isWhiteSpace a then [] else [a]
  | [] => []

/-- Null at the end of the text. -/
def skipWhiteSpace (enc : Encoding) (p : Text) : Option Text :=
  if p = [] then none else some (dropSpace enc p)

def isNameChar (c : Char) : Bool :=
  isAlphaNum c || c = '_' || c = '-' || c = '.' || c = ':'

def readName : Text → Option (Text × Text)
  | [] => none
  | c :: p => if isAlpha c || c = '_' then some ((c :: p).span isNameChar) else none

/-! ### Characters -/

def entity : List (Text × Char) :=
  [("&amp;".toList, '&'), ("&lt;".toList, '<'), ("&gt;".toList, '>'), ("&quot;".toList, '"'),
    ("&apos;".toList, '\'')]

/-- `ConvertUTF32ToUTF8`: nothing for a number that is too large. -/
def convertUTF32ToUTF8 (input : ℕ) : Text :=
  let tail (unit : ℕ) := Char.ofNat (0x80 + input / unit % 0x40)
  if input < 0x80 then [Char.ofNat input]
  else if input < 0x800 then [Char.ofNat (0xc0 + input / 0x40), tail 1]
  else if input < 0x10000 then [Char.ofNat (0xe0 + input / 0x1000), tail 0x40, tail 1]
  else if input < 0x200000 then
    [Char.ofNat (0xf0 + input / 0x40000), tail 0x1000, tail 0x40, tail 1]
  else []

def digit (hex : Bool) (c : Char) : Option ℕ :=
  if '0' ≤ c ∧ c ≤ '9' then some (c.toNat - '0'.toNat)
  else if hex ∧ 'a' ≤ c ∧ c ≤ 'f' then some (c.toNat - 'a'.toNat + 10)
  else if hex ∧ 'A' ≤ c ∧ c ≤ 'F' then some (c.toNat - 'A'.toNat + 10)
  else none

/-- The digits, last one first. The factor has 32 bits and the number 64. -/
def ucsOf (hex : Bool) : Text → ℕ → ℕ → Option ℕ
  | [], _, ucs => some ucs
  | c :: cs, mult, ucs =>
    (digit hex c).bind fun d =>
      ucsOf hex cs (mult * (if hex then 16 else 10) % 2 ^ 32) ((ucs + mult * d % 2 ^ 32) % 2 ^ 64)

/-- The number of a reference, from its first digit on. Digits are read from the semicolon back to
the nearest mark. -/
def getReference (hex : Bool) (enc : Encoding) (p : Text) : Option (Text × Text) :=
  match p.span (· != ';') with
  | (_, []) => none
  | (ds, _ :: rest) =>
    (ucsOf hex (ds.reverse.takeWhile (· != if hex then 'x' else '#')) 1 0).map fun ucs =>
      (if enc = .utf8 then convertUTF32ToUTF8 ucs else [Char.ofNat (ucs % 256)], rest)

/-- An ampersand that begins no entity is left out. -/
def getEntity (enc : Encoding) (p : Text) : Option (Text × Text) :=
  match p with
  | _ :: '#' :: 'x' :: q => if q = [] then none else getReference true enc q
  | _ :: '#' :: c :: q => getReference false enc (c :: q)
  | _ =>
    match entity.find? fun e => e.1.isPrefixOf p with
    | some e => some ([e.2], p.drop e.1.length)
    | none => some ([], p.drop 1)

/-- `utf8ByteTable` -/
def utf8Length (c : Char) : ℕ :=
  if c.toNat < 0xc2 then 1
  else if c.toNat < 0xe0 then 2
  else if c.toNat < 0xf0 then 3
  else if c.toNat < 0xf5 then 4
  else 1

/-- Not beyond the end of the text, where the source reads on. -/
def getChar (enc : Encoding) : Text → Option (Text × Text)
  | [] => none
  | c :: p =>
    let length := if enc = .utf8 then utf8Length c else 1
    if length = 1 then if c = '&' then getEntity enc (c :: p) else some ([c], p)
    else if (c :: p).length < length then none
    else some ((c :: p).take length, (c :: p).drop length)

/-! ### Texts: up to their end tag, or the end -/

def keepText (enc : Encoding) (endTag : Text) : ℕ → Text → Option (Text × Text)
  | _, [] => some ([], [])
  | 0, _ :: _ => none
  | n + 1, c :: p =>
    if endTag.isPrefixOf (c :: p) then some ([], c :: p)
    else (getChar enc (c :: p)).bind fun r =>
      (keepText enc endTag n r.2).map fun r' => (r.1 ++ r'.1, r'.2)

def condenseText (enc : Encoding) (endTag : Text) : ℕ → Bool → Text → Option (Text × Text)
  | _, _, [] => some ([], [])
  | 0, _, _ :: _ => none
  | n + 1, whitespace, c :: p =>
    if endTag.isPrefixOf (c :: p) then some ([], c :: p)
    else if isWhiteSpace c then condenseText enc endTag n true p
    else (getChar enc (c :: p)).bind fun r =>
      (condenseText enc endTag n false r.2).map fun r' =>
        ((if whitespace then [' '] else []) ++ r.1 ++ r'.1, r'.2)

def readText (enc : Encoding) (trimWhiteSpace : Bool) (endTag p : Text) : Option (Text × Text) :=
  if trimWhiteSpace then
    (skipWhiteSpace enc p).bind fun p => condenseText enc endTag p.length false p
  else keepText enc endTag p.length p

/-! ### Nodes -/

inductive Node where
  | element (name : Text) (attributes : List (Text × Text)) (children : List Node)
  | text (value : Text)
  | declaration (version encoding standalone : Text)
  | comment (value : Text)
  | unknown (value : Text)

/-- What was read, where to go on (`none` is null), and whether the document has an error now. -/
structure Parsed (α : Type) where
  value : α
  next : Option Text
  error : Bool

def Parsed.map {α β : Type} (f : α → β) (r : Parsed α) : Parsed β := ⟨f r.value, r.next, r.error⟩

/-- `TiXmlAttribute::Parse` from the opening quote on -/
def quoted (enc : Encoding) (name : Text) (quote : Char) (p : Text) : Parsed (Text × Text) :=
  match readText enc false [quote] p with
  | some (value, _ :: rest) => ⟨(name, value), some rest, false⟩
  | some (value, []) => ⟨(name, value), none, false⟩
  | none => ⟨(name, []), none, false⟩

def parseAttribute (enc : Encoding) (p : Text) : Parsed (Text × Text) :=
  match skipWhiteSpace enc p with
  | none => ⟨([], []), none, false⟩
  | some p =>
    match readName p with
    | none => ⟨([], []), none, true⟩
    | some (name, []) => ⟨(name, []), none, true⟩
    | some (name, p) =>
      match skipWhiteSpace enc p with
      | some ('=' :: p) =>
        match skipWhiteSpace enc p with
        | none => ⟨(name, []), none, true⟩
        | some [] => ⟨(name, []), none, true⟩
        | some ('\'' :: p) => quoted enc name '\'' p
        | some ('"' :: p) => quoted enc name '"' p
        | some p =>
          let r := p.span fun c => !isWhiteSpace c && c != '/' && c != '>'
          ⟨(name, r.1), some r.2, false⟩
      | _ => ⟨(name, []), none, true⟩

/-- The attributes of a tag, up to its end. The second result is whether the element is empty. An
attribute that is there already ends the element, without an error. -/
def parseTag (enc : Encoding) : ℕ → List (Text × Text) → Text → Parsed (List (Text × Text) × Bool)
  | 0, attributes, _ => ⟨(attributes, false), none, true⟩
  | n + 1, attributes, p =>
    match skipWhiteSpace enc p with
    | none => ⟨(attributes, false), none, true⟩
    | some [] => ⟨(attributes, false), none, true⟩
    | some ('/' :: '>' :: p) => ⟨(attributes, true), some p, false⟩
    | some ('/' :: _) => ⟨(attributes, false), none, true⟩
    | some ('>' :: p) => ⟨(attributes, false), some p, false⟩
    | some p =>
      let r := parseAttribute enc p
      match r.next with
      | none => ⟨(attributes, false), none, true⟩
      | some [] => ⟨(attributes, false), none, true⟩
      | some p =>
        if attributes.any fun a => a.1 = r.value.1 then
          ⟨(attributes.map fun a => if a.1 = r.value.1 then r.value else a, false), none, r.error⟩
        else parseTag enc n (attributes ++ [r.value]) p

inductive Kind where
  | declaration | comment | cdata | unknown | element
  deriving DecidableEq, Repr

def startsWith (tag : String) (p : Text) : Bool := tag.toList.isPrefixOf p

def identify (enc : Encoding) (p : Text) : Option Kind :=
  match skipWhiteSpace enc p with
  | some ('<' :: q) =>
    if startsWith "<?xml" ('<' :: q.map Char.toLower) then some .declaration
    else if startsWith "<!--" ('<' :: q) then some .comment
    else if startsWith "<![CDATA[" ('<' :: q) then some .cdata
    else if startsWith "<!" ('<' :: q) then some .unknown
    else
      match q with
      | c :: _ => if isAlpha c || c = '_' then some .element else some .unknown
      | [] => some .unknown
  | _ => none

/-- The attributes of a declaration; others are read over. -/
def parseDeclaration (enc : Encoding) : ℕ → Text × Text × Text → Text → Parsed Node
  | 0, (v, e, s), _ => ⟨.declaration v e s, none, false⟩
  | _, (v, e, s), [] => ⟨.declaration v e s, none, false⟩
  | _, (v, e, s), '>' :: p => ⟨.declaration v e s, some p, false⟩
  | n + 1, (v, e, s), c :: p =>
    let p := dropSpace enc (c :: p)
    let is (name : String) := startsWith name (p.map Char.toLower)
    let go (set : Text → Text × Text × Text) :=
      let r := parseAttribute enc p
      match r.next with
      | none => ⟨.declaration (set r.value.2).1 (set r.value.2).2.1 (set r.value.2).2.2, none,
          r.error⟩
      | some p => parseDeclaration enc n (set r.value.2) p
    if is "version" then go fun x => (x, e, s)
    else if is "encoding" then go fun x => (v, x, s)
    else if is "standalone" then go fun x => (v, e, x)
    else parseDeclaration enc n (v, e, s) (p.dropWhile fun c => c != '>' && !isWhiteSpace c)

def parseComment (enc : Encoding) (p : Text) : Parsed Node :=
  match readText enc false "-->".toList (p.drop 4) with
  | none => ⟨.comment [], none, false⟩
  | some (value, []) => ⟨.comment value, none, false⟩
  | some (value, rest) => ⟨.comment value, some (rest.drop 3), false⟩

def cdataEnd : Text → Text × Option Text
  | [] => ([], none)
  | c :: p =>
    if startsWith "]]>" (c :: p) then ([], some ((c :: p).drop 3))
    else ((c :: (cdataEnd p).1), (cdataEnd p).2)

def parseCdata (p : Text) : Parsed Node :=
  let r := cdataEnd (p.drop 9)
  ⟨.text r.1, r.2, false⟩

def parseUnknown (p : Text) : Parsed Node :=
  let r := (p.drop 1).span (· != '>')
  ⟨.unknown r.1, some (r.2.drop 1), false⟩

/-- `TiXmlText::Parse` -/
def parseText (enc : Encoding) (p : Text) : Parsed Text :=
  match readText enc true "<".toList p with
  | none => ⟨[], none, false⟩
  | some (value, rest) => ⟨value, some rest, false⟩

def blank (value : Text) : Bool := value.all isWhiteSpace

/-- The nodes that are no elements -/
def parseOther (enc : Encoding) (p : Text) : Kind → Parsed Node
  | .declaration => parseDeclaration enc p.length ([], [], []) (p.drop 5)
  | .comment => parseComment enc p
  | .cdata => parseCdata p
  | _ => parseUnknown p

mutual

/-- `TiXmlElement::Parse` -/
def parseElement (enc : Encoding) : ℕ → Text → Parsed Node
  | 0, _ => ⟨.element [] [] [], none, true⟩
  | n + 1, p =>
    match skipWhiteSpace enc p with
    | some ('<' :: p) =>
      match (skipWhiteSpace enc p).bind readName with
      | none => ⟨.element [] [] [], none, true⟩
      | some (name, []) => ⟨.element name [] [], none, true⟩
      | some (name, p) =>
        let t := parseTag enc (p.length + 1) [] p
        match t.next with
        | none => ⟨.element name t.value.1 [], none, t.error⟩
        | some p =>
          if t.value.2 then ⟨.element name t.value.1 [], some p, t.error⟩
          else
            let r := readValue enc n (some p)
            let endTag := "</".toList ++ name ++ ">".toList
            match r.next with
            | none => ⟨.element name t.value.1 r.value, none, r.error⟩
            | some [] => ⟨.element name t.value.1 r.value, none, r.error⟩
            | some p =>
              if endTag.isPrefixOf p then
                ⟨.element name t.value.1 r.value, some (p.drop endTag.length), r.error⟩
              else ⟨.element name t.value.1 r.value, none, true⟩
    | _ => ⟨.element [] [] [], none, true⟩

/-- Texts and elements, up to an end tag -/
def readValue (enc : Encoding) : ℕ → Option Text → Parsed (List Node)
  | 0, _ => ⟨[], none, true⟩
  | _, none => ⟨[], none, true⟩
  | n + 1, some p =>
    match skipWhiteSpace enc p with
    | none => ⟨[], none, true⟩
    | some [] => ⟨[], some [], false⟩
    | some ('<' :: p) =>
      if startsWith "</" ('<' :: p) then ⟨[], some ('<' :: p), false⟩
      else
        let p := '<' :: p
        let node :=
          match identify enc p with
          | some .element => parseElement enc n p
          | some kind => parseOther enc p kind
          | none => ⟨.unknown [], none, false⟩
        let r := readValue enc n node.next
        ⟨node.value :: r.value, r.next, node.error || r.error⟩
    | some p =>
      let text := parseText enc p
      let r := readValue enc n text.next
      ⟨if blank text.value then r.value else .text text.value :: r.value, r.next,
        text.error || r.error⟩

end

/-! ### The document -/

/-- The encoding after a node of the document -/
def nextEncoding (enc : Encoding) : Node → Encoding
  | .declaration _ e _ =>
    if enc ≠ .unknown then enc
    else if e = [] ∨ startsWith "utf-8" (e.map Char.toLower) ∨
        startsWith "utf8" (e.map Char.toLower) then .utf8
    else .legacy
  | _ => enc

def parseDocument : ℕ → Encoding → Option Text → Parsed (List Node)
  | 0, _, _ => ⟨[], none, true⟩
  | _, _, none => ⟨[], none, false⟩
  | _, _, some [] => ⟨[], none, false⟩
  | n + 1, enc, some (c :: p) =>
    match identify enc (c :: p) with
    | none => ⟨[], none, false⟩
    | some kind =>
      let node :=
        if kind = .element then parseElement enc (2 * (c :: p).length) (c :: p)
        else parseOther enc (c :: p) kind
      let enc := nextEncoding enc node.value
      let r := parseDocument n enc (node.next.bind (skipWhiteSpace enc))
      ⟨node.value :: r.value, r.next, node.error || r.error⟩

def normalizeEol : Text → Text
  | '\r' :: '\n' :: p => '\n' :: normalizeEol p
  | '\r' :: p => '\n' :: normalizeEol p
  | c :: p => c :: normalizeEol p
  | [] => []

/-- `TiXmlDocument::LoadFile` of a file with these bytes; `none` when the document has an error. -/
def loadFile (file : Text) : Option (List Node) :=
  let data := normalizeEol (file.takeWhile (· != '\x00'))
  let enc :=
    match data with
    | a :: b :: c :: _ =>
      if a.toNat = 0xef ∧ b.toNat = 0xbb ∧ c.toNat = 0xbf then Encoding.utf8 else .unknown
    | _ => .unknown
  match skipWhiteSpace enc data with
  | none => none
  | some p =>
    let r := parseDocument (p.length + 1) enc (some p)
    if r.error || r.value.isEmpty then none else some r.value

end OrocosRtt.Marsh.TinyXml
