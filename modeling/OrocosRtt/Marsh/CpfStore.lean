import OrocosRtt.Marsh.CpfRoundTrip
import OrocosRtt.Marsh.Given
import OrocosRtt.Marsh.PropertyLoader

/-! The properties of a task that are stored in a file and configured from it again. -/
namespace OrocosRtt.Marsh.Cpf
open TinyXml TypeSystem

variable {F D : Type}

/-! ### Storing -/

mutual

/-- `PropertyBagIntrospector` copies a property of these types as it is. -/
def ofProperty : Marsh.Property Text (Value F D) → Property F D
  | .leaf n d _ v => .simple n.toList d.toList v
  | .bag n d type ps => .struct n.toList d.toList type.toList (ofProperties ps)

def ofProperties : List (Marsh.Property Text (Value F D)) → List (Property F D)
  | [] => []
  | p :: ps => ofProperty p :: ofProperties ps

end

mutual

/-- No file holds a property of another type. -/
def toProperty : Property F D → List (Marsh.Property Text (Value F D))
  | .simple n d v => [.leaf (String.ofList n) (String.ofList d) v.type v]
  | .struct n d type ps =>
    [.bag (String.ofList n) (String.ofList d) (String.ofList type) (toProperties ps)]
  | .other _ _ => []

def toProperties : List (Property F D) → List (Marsh.Property Text (Value F D))
  | [] => []
  | p :: ps => toProperty p ++ toProperties ps

end

section
variable (fl : FloatFormat F) (db : FloatFormat D)

/-- `PropertyLoader::store` -/
def store (b : PropertyBag Text (Value F D)) : Text := serialize fl db (ofProperties b.properties)

/-- The file as the functions that load it see it -/
def parse (file : Text) : File Text (Value F D) :=
  let r := deserialize fl db file []
  if r.1 then .parsed ⟨"PropertyBag", toProperties r.2⟩ else .unparsed

end

mutual

/-- A leaf holds a value of its type, and a bag is a plain one. -/
def Storable : Marsh.Property Text (Value F D) → Prop
  | .leaf _ _ type v => type = v.type
  | .bag _ _ type ps => type = "PropertyBag" ∧ AllStorable ps

def AllStorable : List (Marsh.Property Text (Value F D)) → Prop
  | [] => True
  | p :: ps => Storable p ∧ AllStorable ps

end

mutual

/-- The property with the values that a file keeps of its own -/
def kept : Marsh.Property Text (Value F D) → Marsh.Property Text (Value F D)
  | .leaf n d type v => .leaf n d type v.normal
  | .bag n d type ps => .bag n d type (allKept ps)

def allKept : List (Marsh.Property Text (Value F D)) → List (Marsh.Property Text (Value F D))
  | [] => []
  | p :: ps => kept p :: allKept ps

end

/-! ### What is in the file -/

mutual

/-- The property that is read from the file; its description is condensed as well. -/
def filed : Marsh.Property Text (Value F D) → Marsh.Property Text (Value F D)
  | .leaf n d type v => .leaf n (String.ofList (condense d.toList)) type v.normal
  | .bag n d type ps => .bag n (String.ofList (condense d.toList)) type (allFiled ps)

def allFiled : List (Marsh.Property Text (Value F D)) → List (Marsh.Property Text (Value F D))
  | [] => []
  | p :: ps => filed p :: allFiled ps

end

theorem toProperties_append (ps qs : List (Property F D)) :
    toProperties (ps ++ qs) = toProperties ps ++ toProperties qs := by
  induction ps with
  | nil => rfl
  | cons p ps ih =>
    show toProperty p ++ toProperties (ps ++ qs) = (toProperty p ++ toProperties ps) ++ _
    rw [ih, List.append_assoc]

theorem normal_type (v : Value F D) : v.normal.type = v.type := by
  cases v <;> rfl

mutual

theorem toProperties_property : (p : Marsh.Property Text (Value F D)) → Storable p →
    toProperties (ofProperty p).normal = [filed p]
  | .leaf n d type v, h => by
    have htype : type = v.normal.type := h.trans (normal_type v).symm
    show [Marsh.Property.leaf (String.ofList n.toList) _ v.normal.type v.normal] = _
    rw [String.ofList_toList, ← htype]
    rfl
  | .bag n d type ps, h => by
    have ih := toProperties_normal ps h.2
    show [Marsh.Property.bag (String.ofList n.toList) _ (String.ofList type.toList)
      (toProperties (normal (ofProperties ps)))] = _
    rw [String.ofList_toList, String.ofList_toList, ih]
    rfl

theorem toProperties_normal : (ps : List (Marsh.Property Text (Value F D))) → AllStorable ps →
    toProperties (normal (ofProperties ps)) = allFiled ps
  | [], _ => rfl
  | p :: ps, ⟨hp, hps⟩ => by
    show toProperties ((ofProperty p).normal ++ normal (ofProperties ps)) = filed p :: allFiled ps
    rw [toProperties_append, toProperties_property p hp, toProperties_normal ps hps]
    rfl

end

/-! ### Reading it back -/

variable {ι : Type} [DecidableEq ι] (ts : TypeSystem ι Text (Value F D))

mutual

theorem compose_filed : (p : Marsh.Property Text (Value F D)) → Storable p →
    ts.composeProperty (filed p) = ([filed p], .ok)
  | .leaf _ _ _ _, _ => rfl
  | .bag n d type ps, ⟨htype, hps⟩ => by
    have ih := compose_allFiled ps hps
    subst htype
    unfold filed composeProperty
    rw [if_neg (by simp), ih]
    rfl

theorem compose_allFiled : (ps : List (Marsh.Property Text (Value F D))) → AllStorable ps →
    ts.composeList (allFiled ps) = (allFiled ps, .ok)
  | [], _ => rfl
  | p :: ps, ⟨hp, hps⟩ => by
    have hfirst := compose_filed p hp
    have ih := compose_allFiled ps hps
    unfold allFiled composeList
    rw [hfirst, ih]
    rfl

end

theorem not_typed : ts.typed "PropertyBag" = false := by
  simp [typed, ts.type_bag]

theorem filled_in (update : Bool) (d : String) :
    (if update ∧ d = "" then String.ofList (condense d.toList) else d) = d := by
  by_cases h : update ∧ d = ""
  · rw [if_pos h, h.2]
    rfl
  · rw [if_neg h]

mutual

/-- Whatever the values were, those of the file are taken. A description that is filled in is
empty, too. -/
theorem given_filed (update : Bool) : (p p' : Marsh.Property Text (Value F D)) → Storable p →
    outline p' = outline p → Alike p' (filed p) ∧ given update p' (filed p) = kept p
  | .leaf n d type v, p', _, ho => by
    cases p' with
    | bag => simp [outline] at ho
    | leaf n' d' type' v' =>
      simp only [outline, Marsh.Property.leaf.injEq, and_true] at ho
      obtain ⟨rfl, rfl, rfl⟩ := ho
      simp [filed, kept, given, Alike, filled_in]
  | .bag n d type ps, p', ⟨htype, hps⟩, ho => by
    cases p' with
    | leaf => simp [outline] at ho
    | bag n' d' type' ps' =>
      simp only [outline, Marsh.Property.bag.injEq] at ho
      obtain ⟨rfl, rfl, rfl, ho⟩ := ho
      have ih := allGiven_filed update ps ps' hps ho
      simp [filed, kept, given, Alike, filled_in, htype, ih]

theorem allGiven_filed (update : Bool) : (ps ps' : List (Marsh.Property Text (Value F D))) →
    AllStorable ps → outlines ps' = outlines ps →
      AllAlike ps' (allFiled ps) ∧ allGiven update ps' (allFiled ps) = allKept ps
  | [], ps', _, ho => by
    cases ps' with
    | nil => simp [allFiled, allKept, allGiven, AllAlike]
    | cons => simp [outlines] at ho
  | p :: ps, ps', ⟨hp, hps⟩, ho => by
    cases ps' with
    | nil => simp [outlines] at ho
    | cons p' ps' =>
      simp only [outlines, List.cons.injEq] at ho
      have hfirst := given_filed update p p' hp ho.1
      have ih := allGiven_filed update ps ps' hps ho.2
      simp [allFiled, allKept, allGiven, AllAlike, hfirst, ih]

end

theorem parse_store (fl : FloatFormat F) (db : FloatFormat D) {b : PropertyBag Text (Value F D)}
    (hw : AllWritable (ofProperties b.properties)) (hs : AllStorable b.properties) :
    parse fl db (store fl db b) = .parsed ⟨"PropertyBag", allFiled b.properties⟩ := by
  unfold parse store
  rw [deserialize_written fl db hw [], List.nil_append]
  dsimp only
  rw [if_pos rfl, toProperties_normal b.properties hs]

theorem alike_filed {ps : List (Marsh.Property Text (Value F D))} (hs : AllStorable ps) :
    Alike (.bag "" "" "PropertyBag" ps) (.bag "" "" "PropertyBag" (allFiled ps)) := by
  simp [Alike, (allGiven_filed false ps ps hs rfl).1]

theorem compose_file {ps : List (Marsh.Property Text (Value F D))} (hs : AllStorable ps) :
    ts.composePropertyBag ⟨"PropertyBag", allFiled ps⟩ =
      (⟨"PropertyBag", allFiled ps⟩, .ok) := by
  unfold composePropertyBag
  rw [compose_allFiled ts ps hs]

theorem refresh_file {ps : List (Marsh.Property Text (Value F D))}
    {b' : PropertyBag Text (Value F D)} (hs : AllStorable ps)
    (hd : Distinct (.bag "" "" "PropertyBag" ps)) (ht : b'.type = "PropertyBag")
    (ho : outlines b'.properties = outlines ps) (all : Bool) :
    ts.refreshProperties b' ⟨"PropertyBag", allFiled ps⟩ all =
      (⟨"PropertyBag", allKept ps⟩, .ok) := by
  obtain ⟨halike, hgiven⟩ := allGiven_filed false ps b'.properties hs ho
  -- the file has the names of the properties that were stored
  have hdistinct := (alike_filed hs).distinct hd
  simp only [Distinct] at hdistinct
  have hrefresh := refreshList_alike ts all [] b'.properties _ halike hdistinct.1 hdistinct.2
  rw [List.nil_append, List.length_nil, hgiven] at hrefresh
  have hplain : ts.typed b'.type = false := by rw [ht, not_typed]
  rw [refreshProperties_of_plain hplain]
  dsimp only
  rw [hrefresh, ht]

theorem configure_file {ps : List (Marsh.Property Text (Value F D))}
    {b' : PropertyBag Text (Value F D)} (hs : AllStorable ps)
    (hd : Distinct (.bag "" "" "PropertyBag" ps)) (ht : b'.type = "PropertyBag")
    (ho : outlines b'.properties = outlines ps) (all : Bool) :
    PropertyLoader.configure ts (.parsed ⟨"PropertyBag", allFiled ps⟩) all b' =
      (⟨"PropertyBag", allKept ps⟩, true) := by
  unfold PropertyLoader.configure
  dsimp only
  rw [compose_file ts hs, if_pos rfl, refresh_file ts hs hd ht ho all]

end OrocosRtt.Marsh.Cpf
