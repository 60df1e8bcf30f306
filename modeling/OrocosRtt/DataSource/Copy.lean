import Mathlib.Data.List.Nodup

/-! `copy` of data sources, commands and conditions: sharing is kept by a map from originals to
copies, in which only variables and parts are entered. -/
namespace OrocosRtt.DataSource.Copy
set_option linter.unusedSectionVars false

mutual
/-- The objects of a script. The first number is an object's identity, `cell` the storage that
it reads and writes. -/
inductive Node where
  /-- `ConstantDataSource`, `ReferenceDataSource` and others that all instances share. -/
  | shared (id : ℕ)
  /-- `ValueDataSource`, `ArrayDataSource`: a variable that is not copied. -/
  | bound (id cell : ℕ)
  /-- `UnboundDataSource`: a variable of the script. -/
  | unbound (id cell : ℕ)
  /-- `PartDataSource` -/
  | part (id cell : ℕ) (mparent : Node)
  /-- `ArrayPartDataSource` -/
  | arrayPart (id cell : ℕ) (mindex mparent : Node)
  /-- Operators, calls, item accesses, action aliases, commands and conditions. -/
  | composite (id : ℕ) (parts : Parts)

inductive Parts where
  | nil
  | cons (n : Node) (rest : Parts)
end

def Node.id : Node → ℕ
  | .shared i => i
  | .bound i _ => i
  | .unbound i _ => i
  | .part i _ _ => i
  | .arrayPart i _ _ _ => i
  | .composite i _ => i

/-- A copy in progress. `made` lists the composites copied so far and their copies, the latest
first; the code does not keep it. -/
structure Copying where
  replace : List (ℕ × Node)
  nextId : ℕ
  nextCell : ℕ
  made : List (ℕ × ℕ)

namespace Copying

def find (st : Copying) (i : ℕ) : Option Node := st.replace.lookup i

/-- `replace[this] = n` -/
def record (i : ℕ) (n : Node) (st : Copying) : Copying :=
  { st with replace := (i, n) :: st.replace }

/-- An object has been allocated. -/
def allocated (st : Copying) : Copying := { st with nextId := st.nextId + 1 }

/-- An object with storage has been allocated. -/
def allocatedCell (st : Copying) : Copying :=
  { st with nextId := st.nextId + 1, nextCell := st.nextCell + 1 }

def noteMade (i j : ℕ) (st : Copying) : Copying := { st with made := (i, j) :: st.made }

end Copying

mutual
def copy : Node → Copying → Node × Copying
  | .shared i, st => (.shared i, st)
  | .bound i c, st =>
    match st.find i with
    | some n => (n, st)
    | none => (.bound i c, st.record i (.bound i c))
  | .unbound i _, st =>
    match st.find i with
    | some n => (n, st)
    | none =>
      let n := .unbound st.nextId st.nextCell
      (n, st.allocatedCell.record i n)
  | .part i c parent, st =>
    match st.find i with
    | some n => (n, st)
    | none =>
      let p := copy parent st
      let n := .part p.2.nextId c p.1
      (n, p.2.allocated.record i n)
  | .arrayPart i c index parent, st =>
    match st.find i with
    | some n => (n, st)
    | none =>
      let x := copy index st
      let p := copy parent x.2
      let n := .arrayPart p.2.nextId c x.1 p.1
      (n, p.2.allocated.record i n)
  | .composite i parts, st =>
    -- not looked up, and not entered in the map
    let r := copyParts parts st
    (.composite r.2.nextId r.1, (r.2.noteMade i r.2.nextId).allocated)

def copyParts : Parts → Copying → Parts × Copying
  | .nil, st => (.nil, st)
  | .cons n rest, st =>
    let r := copy n st
    let q := copyParts rest r.2
    (.cons r.1 q.1, q.2)
end

/-- `Attribute::copy` with `instantiate`: the new instance gets a variable of its own. -/
def Copying.instantiate (st : Copying) (i : ℕ) : Copying :=
  st.allocatedCell.record i (.bound st.nextId st.nextCell)

/-- The storage that a variable holds. -/
def Node.held : Node → Option ℕ
  | .bound _ c => some c
  | .unbound _ c => some c
  | _ => none

/-- The objects that exist before the copy: all identities and all storage from `nextId` and
`nextCell` on are free, and two variables never hold the same storage. -/
structure Script where
  objects : ℕ → Node
  nextId : ℕ
  nextCell : ℕ
  apart : ∀ i j c, (objects i).held = some c → (objects j).held = some c → i = j

/-- The map is empty at first. -/
def Script.start (s : Script) : Copying where
  replace := []
  nextId := s.nextId
  nextCell := s.nextCell
  made := []

/-- The map as the rest of a script finds it, when `vars` are the variables that the new
instance gets for itself. -/
def Script.begin (s : Script) (vars : List ℕ) : Copying :=
  vars.foldl Copying.instantiate s.start

inductive Kind where
  | bound | unbound | part
  deriving DecidableEq, Repr

/-- The use that an object makes of storage. -/
structure Use where
  kind : Kind
  object : ℕ
  cell : ℕ
  deriving DecidableEq, Repr

mutual
/-- The storage that the objects of a tree read and write. -/
def storage : Node → List Use
  | .shared _ => []
  | .bound i c => [⟨.bound, i, c⟩]
  | .unbound i c => [⟨.unbound, i, c⟩]
  | .part i c parent => ⟨.part, i, c⟩ :: storage parent
  | .arrayPart i c index parent => ⟨.part, i, c⟩ :: (storage index ++ storage parent)
  | .composite _ parts => storageParts parts

def storageParts : Parts → List Use
  | .nil => []
  | .cons n rest => storage n ++ storageParts rest
end

mutual
/-- The objects of a tree, each with its counterpart in another. -/
def pairs : Node → Node → List (ℕ × ℕ)
  | .shared i, n => [(i, n.id)]
  | .bound i _, n => [(i, n.id)]
  | .unbound i _, n => [(i, n.id)]
  | .part i _ parent, n =>
    match n with
    | .part j _ parent' => (i, j) :: pairs parent parent'
    | n => [(i, n.id)]
  | .arrayPart i _ index parent, n =>
    match n with
    | .arrayPart j _ index' parent' => (i, j) :: (pairs index index' ++ pairs parent parent')
    | n => [(i, n.id)]
  | .composite i parts, n =>
    match n with
    | .composite j parts' => (i, j) :: pairsParts parts parts'
    | n => [(i, n.id)]

def pairsParts : Parts → Parts → List (ℕ × ℕ)
  | .nil, _ => []
  | .cons n rest, ps =>
    match ps with
    | .cons n' rest' => pairs n n' ++ pairsParts rest rest'
    | .nil => []
end

mutual
/-- The composites that are reached when no part is entered twice; `seen` are the parts entered
so far. -/
def visits : Node → List ℕ → List ℕ × List ℕ
  | .shared _, seen => ([], seen)
  | .bound _ _, seen => ([], seen)
  | .unbound _ _, seen => ([], seen)
  | .part i _ parent, seen =>
    if i ∈ seen then ([], seen)
    else
      let p := visits parent seen
      (p.1, i :: p.2)
  | .arrayPart i _ index parent, seen =>
    if i ∈ seen then ([], seen)
    else
      let x := visits index seen
      let p := visits parent x.2
      (x.1 ++ p.1, i :: p.2)
  | .composite i parts, seen =>
    let r := visitsParts parts seen
    (r.1 ++ [i], r.2)

def visitsParts : Parts → List ℕ → List ℕ × List ℕ
  | .nil, seen => ([], seen)
  | .cons n rest, seen =>
    let r := visits n seen
    let q := visitsParts rest r.2
    (r.1 ++ q.1, q.2)
end

/-- The object is one of the script. -/
def Script.Holds (s : Script) (n : Node) : Prop :=
  s.objects n.id = n ∧ n.id < s.nextId

mutual
/-- All objects of a tree are objects of the script, and so is their storage. -/
def Script.Has (s : Script) : Node → Prop
  | .shared i => s.Holds (.shared i)
  | .bound i c => s.Holds (.bound i c) ∧ c < s.nextCell
  | .unbound i c => s.Holds (.unbound i c) ∧ c < s.nextCell
  | .part i c parent => s.Holds (.part i c parent) ∧ c < s.nextCell ∧ s.Has parent
  | .arrayPart i c index parent =>
    s.Holds (.arrayPart i c index parent) ∧ c < s.nextCell ∧ s.Has index ∧ s.Has parent
  | .composite i parts => s.Holds (.composite i parts) ∧ s.HasParts parts

def Script.HasParts (s : Script) : Parts → Prop
  | .nil => True
  | .cons n rest => s.Has n ∧ s.HasParts rest
end

/-- The object `i` is a variable. -/
def Script.IsVariable (s : Script) (i : ℕ) : Prop :=
  ∃ c, s.objects i = .bound i c ∨ s.objects i = .unbound i c

/-- The object `i` is a part of a variable. -/
def Script.IsPart (s : Script) (i : ℕ) : Prop :=
  (∃ c parent, s.objects i = .part i c parent) ∨
    ∃ c index parent, s.objects i = .arrayPart i c index parent

/-- A variable that was allocated by the copy. -/
def Script.Renewed (s : Script) (n : Node) : Prop :=
  ∃ j d, (n = .bound j d ∨ n = .unbound j d) ∧ s.nextId ≤ j ∧ s.nextCell ≤ d

mutual
/-- `n'` copies `n`: the variables of the script and those of `vars` are renewed, parts refer
where they referred before. -/
def CopyOf (s : Script) (vars : List ℕ) : Node → Node → Prop
  | .shared i, n => n = .shared i
  | .bound i c, n => if i ∈ vars then s.Renewed n else n = .bound i c
  | .unbound _ _, n => s.Renewed n
  | .part _ c parent, n => ∃ j parent', n = .part j c parent' ∧ s.nextId ≤ j ∧
      CopyOf s vars parent parent'
  | .arrayPart _ c index parent, n => ∃ j index' parent', n = .arrayPart j c index' parent' ∧
      s.nextId ≤ j ∧ CopyOf s vars index index' ∧ CopyOf s vars parent parent'
  | .composite _ parts, n => ∃ j parts', n = .composite j parts' ∧ s.nextId ≤ j ∧
      CopyOfParts s vars parts parts'

def CopyOfParts (s : Script) (vars : List ℕ) : Parts → Parts → Prop
  | .nil, ps => ps = .nil
  | .cons n rest, ps => ∃ n' rest', ps = .cons n' rest' ∧ CopyOf s vars n n' ∧
      CopyOfParts s vars rest rest'
end

end OrocosRtt.DataSource.Copy
