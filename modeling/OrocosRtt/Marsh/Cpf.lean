import Mathlib.Data.Nat.Digits.Defs
import OrocosRtt.Marsh.TinyXml

/-! `CPFMarshaller` and `TinyDemarshaller`: property bags in files of the component property
format. -/
namespace OrocosRtt.Marsh.Cpf
open TinyXml

/-! ### Values as text -/

/-- A printed character that is neither white space nor escaped -/
def isPlain (c : Char) : Bool :=
  33 ≤ c.toNat && c.toNat < 127 && c ≠ '<' && c ≠ '>' && c ≠ '&'

/-- What a stream of sufficient precision writes for a number that is not an integer, and what
`sscanf` reads. -/
structure FloatFormat (D : Type) where
  write : D → Text
  scan : Text → Option D
  plain : ∀ x, write x ≠ [] ∧ (write x).all isPlain = true
  scan_write : ∀ x, scan (write x) = some x

def decimal (n : ℕ) : Text :=
  if n = 0 then ['0'] else ((Nat.digits 10 n).map Nat.digitChar).reverse

/-- `operator<<` for integers -/
def writeInt (z : ℤ) : Text := if z < 0 then '-' :: decimal z.natAbs else decimal z.natAbs

def scanNat (t : Text) : Option ℕ :=
  let ds := t.takeWhile Char.isDigit
  if ds = [] then none else some (Nat.ofDigits 10 (ds.reverse.map fun c => c.toNat - '0'.toNat))

/-- `sscanf` with `%d` and `%u`, before the number is taken to 32 bits -/
def scanInt (t : Text) : Option ℤ :=
  match t.dropWhile isWhiteSpace with
  | '-' :: t => (scanNat t).map fun n : ℕ => -(n : ℤ)
  | '+' :: t => (scanNat t).map fun n : ℕ => (n : ℤ)
  | t => (scanNat t).map fun n : ℕ => (n : ℤ)

/-! ### Bags -/

variable {F D : Type}

inductive Value (F D : Type) where
  | boolean (b : Bool)
  | char (c : Char)
  | octet (c : Char)
  | long (z : Int32)
  | ulong (n : UInt32)
  | float (x : F)
  | double (x : D)
  | string (s : Text)

/-- A property of one of these types, one that holds a bag, or one of another type that is not
decomposed, such as `short`. -/
inductive Property (F D : Type) where
  | simple (name description : Text) (value : Value F D)
  | struct (name description type : Text) (properties : List (Property F D))
  | other (name description : Text)

/-! ### Writing -/

def escape (s : Text) : Text :=
  let s := s.flatMap fun c => if c = '&' then "&amp;".toList else [c]
  let s := s.flatMap fun c => if c = '<' then "&lt;".toList else [c]
  s.flatMap fun c => if c = '>' then "&gt;".toList else [c]

def doWrite (indent name description type value : Text) : Text :=
  indent ++ "<simple ".toList ++
    (if name = [] then [] else "name=\"".toList ++ escape name ++ "\" ".toList) ++
    "type=\"".toList ++ type ++ "\">".toList ++
    (if description = [] then []
      else "<description>".toList ++ escape description ++ "</description>".toList) ++
    "<value>".toList ++ value ++ "</value></simple>\n".toList

section
variable (fl : FloatFormat F) (db : FloatFormat D)

def Value.type : Value F D → Text
  | .boolean _ => "boolean".toList
  | .char _ => "char".toList
  | .octet _ => "octet".toList
  | .long _ => "long".toList
  | .ulong _ => "ulong".toList
  | .float _ => "float".toList
  | .double _ => "double".toList
  | .string _ => "string".toList

/-- An octet is written as a character, and not escaped. -/
def Value.write : Value F D → Text
  | .boolean b => if b then ['1'] else ['0']
  | .char c => if c = '\x00' then [] else escape [c]
  | .octet c => [c]
  | .long z => writeInt z.toInt
  | .ulong n => writeInt n.toNat
  | .float x => fl.write x
  | .double x => db.write x
  | .string s => escape s

mutual

def introspect (indent : Text) : Property F D → Text
  | .simple name description value =>
    doWrite indent name description value.type (value.write fl db)
  | .struct name description type properties =>
    indent ++ "<struct name=\"".toList ++ escape name ++ "\" type=\"".toList ++ escape type ++
      "\">\n".toList ++
      (if description = [] then []
        else indent ++ "   <description>".toList ++ escape description ++
          "</description>\n".toList) ++
      identify (indent ++ "   ".toList) properties ++ indent ++ "</struct>\n".toList
  | .other _ _ => []

def identify (indent : Text) : List (Property F D) → Text
  | [] => []
  | p :: ps => introspect indent p ++ identify indent ps

end

def serialize (v : List (Property F D)) : Text :=
  "<?xml version=\"1.0\" encoding=\"UTF-8\"?>\n".toList ++
    "<!DOCTYPE properties SYSTEM \"cpf.dtd\">\n".toList ++ "<properties>\n".toList ++
    identify fl db "  ".toList v ++ "</properties>\n".toList

/-! ### Reading -/

inductive Tag where
  | struct | simple | sequence | properties | description | value | unknown
  deriving DecidableEq, Repr

/-- A property with a bag that is still being read -/
structure Open (F D : Type) where
  name : Text
  description : Text
  type : Text
  properties : List (Property F D)

/-- `Tiny2CPFHandler`. The bag at the bottom of the stack of bags is `bag`. -/
structure Handler (F D : Type) where
  bag : List (Property F D)
  bag_stack : List (Open F D)
  tag_stack : List Tag
  name : Text
  description : Text
  type : Text
  value_string : Text

namespace Handler

def start (bag : List (Property F D)) : Handler F D := ⟨bag, [], [], [], [], [], []⟩

/-- To the bag on top of the stack -/
def add (p : Property F D) (h : Handler F D) : Handler F D :=
  match h.bag_stack with
  | [] => { h with bag := h.bag ++ [p] }
  | o :: os => { h with bag_stack := { o with properties := o.properties ++ [p] } :: os }

def popTag (h : Handler F D) : Handler F D := { h with tag_stack := h.tag_stack.tail }

end Handler

/-- `none`: the value is wrong; `some none`: the type is not known, and the property is left out. -/
def readValue (type value_string : Text) : Option (Option (Value F D)) :=
  let character : Option Char :=
    match value_string with
    | [] => some '\x00'
    | [c] => some c
    | _ => none
  if type = "boolean".toList then
    if value_string = "1".toList ∨ value_string = "true".toList then some (some (.boolean true))
    else if value_string = "0".toList ∨ value_string = "false".toList then
      some (some (.boolean false))
    else none
  else if type = "char".toList then character.map fun c => some (.char c)
  else if type = "uchar".toList ∨ type = "octet".toList then character.map fun c => some (.octet c)
  else if type = "long".toList ∨ type = "short".toList then
    (scanInt value_string).map fun z => some (.long (Int32.ofInt z))
  else if type = "ulong".toList ∨ type = "ushort".toList then
    (scanInt value_string).map fun z => some (.ulong (UInt32.ofInt z))
  else if type = "double".toList then (db.scan value_string).map fun x => some (.double x)
  else if type = "float".toList then (fl.scan value_string).map fun x => some (.float x)
  else if type = "string".toList then some (some (.string value_string))
  else some none

/-- `none` when it returns false -/
def endElement (h : Handler F D) : Option (Handler F D) :=
  match h.tag_stack with
  | .simple :: _ =>
    (readValue fl db h.type h.value_string).map fun v =>
      { ((v.elim h fun v => h.add (.simple h.name h.description v)).popTag) with
        value_string := []
        description := []
        name := [] }
  | .sequence :: _ | .struct :: _ =>
    match h.bag_stack with
    | [] => some h
    | o :: os =>
      some { (({ h with bag_stack := os }.add
          (.struct o.name o.description o.type o.properties)).popTag) with
        description := []
        name := []
        type := [] }
  | .description :: tags =>
    match tags, h.bag_stack with
    | .struct :: _, o :: os =>
      some { h.popTag with
        bag_stack := { o with description := h.description } :: os
        description := [] }
    | _, _ => some h.popTag
  | _ => some h.popTag

/-- A string of TinyXML as a C string -/
def cString (t : Text) : Text := t.takeWhile (· != '\x00')

/-- The last attribute of the name counts. -/
def attributeValue (name : String) (attributes : List (Text × Text)) : Text :=
  ((attributes.reverse.find? fun a => cString a.1 = name.toList).map fun a => cString a.2).getD []

def startElement (localname : Text) (attributes : List (Text × Text)) (h : Handler F D) :
    Handler F D :=
  let push (tag : Tag) (h : Handler F D) : Handler F D :=
    { h with tag_stack := tag :: h.tag_stack }
  let named : Handler F D :=
    { h with name := attributeValue "name" attributes, type := attributeValue "type" attributes }
  let bagged (h : Handler F D) : Handler F D :=
    { h with bag_stack := ⟨h.name, [], h.type, []⟩ :: h.bag_stack }
  if localname = "properties".toList then push .properties h
  else if localname = "simple".toList then push .simple named
  else if localname = "struct".toList then bagged (push .struct named)
  else if localname = "sequence".toList then
    bagged { push .sequence named with type := "Sequence".toList }
  else if localname = "description".toList then push .description h
  else if localname = "value".toList then push .value h
  else push .unknown h

def characters (chars : Text) (h : Handler F D) : Handler F D :=
  match h.tag_stack with
  | .description :: _ => { h with description := chars }
  | .value :: _ => { h with value_string := chars }
  | _ => h

mutual

def populateBag : Node → Handler F D → Option (Handler F D)
  | .element name attributes children, h =>
    (populateChildren children (startElement (cString name) attributes h)).bind (endElement fl db)
  | .text value, h => some (characters (cString value) h)
  | _, h => some h

def populateChildren : List Node → Handler F D → Option (Handler F D)
  | [], h => some h
  | n :: ns, h => (populateBag n h).bind (populateChildren ns)

end

/-- The first element of the name -/
def firstChildElement (name : String) : List Node → Option Node
  | [] => none
  | .element n a c :: ns =>
    if cString n = name.toList then some (.element n a c) else firstChildElement name ns
  | _ :: ns => firstChildElement name ns

/-- `TinyDemarshaller` on a file with these bytes: whether it succeeded, and what became of the
bag. -/
def deserialize (file : Text) (v : List (Property F D)) : Bool × List (Property F D) :=
  match (loadFile file).bind (firstChildElement "properties") with
  | none => (false, v)
  | some properties =>
    match populateBag fl db properties (Handler.start v) with
    | none => (false, [])
    | some h => (true, h.bag)

end

end OrocosRtt.Marsh.Cpf
