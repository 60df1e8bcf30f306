import OrocosRtt.Marsh.CpfFile

/-! A bag that is written to a file and read back: the bag that is read says what the other said,
once white space is condensed and properties of other types are left out. -/
namespace OrocosRtt.Marsh.Cpf
open TinyXml

variable {F D : Type} {fl : FloatFormat F} {db : FloatFormat D}

/-! ### The handler -/

namespace Handler

def addAll (ps : List (Property F D)) (h : Handler F D) : Handler F D :=
  match h.bag_stack with
  | [] => { h with bag := h.bag ++ ps }
  | o :: os => { h with bag_stack := { o with properties := o.properties ++ ps } :: os }

theorem addAll_addAll (ps qs : List (Property F D)) (h : Handler F D) :
    (h.addAll ps).addAll qs = h.addAll (ps ++ qs) := by
  obtain ⟨bag, stack, tags, name, description, type, value⟩ := h
  cases stack with
  | nil => simp [addAll]
  | cons o os => simp [addAll]

/-- Between two properties -/
structure Ready (h : Handler F D) : Prop where
  description : h.description = []
  value_string : h.value_string = []

end Handler

theorem populateChildren_append (ns ms : List Node) (h : Handler F D) :
    populateChildren fl db (ns ++ ms) h =
      (populateChildren fl db ns h).bind (populateChildren fl db ms) := by
  induction ns generalizing h with
  | nil => rfl
  | cons n ns ih =>
    show (populateBag fl db n h).bind (populateChildren fl db (ns ++ ms)) =
      ((populateBag fl db n h).bind (populateChildren fl db ns)).bind _
    cases populateBag fl db n h with
    | none => rfl
    | some h' => exact ih h'

theorem populateChildren_single (n : Node) (h : Handler F D) :
    populateChildren fl db [n] h = populateBag fl db n h := by
  show (populateBag fl db n h).bind some = _
  cases populateBag fl db n h <;> rfl

theorem populate_text {t : Text} (ht : Clean t) (h : Handler F D) :
    populateChildren fl db (textNodes t) h = some (if t = [] then h else characters t h) := by
  unfold textNodes
  by_cases hempty : t = []
  · rw [if_pos hempty, if_pos hempty]
    rfl
  · rw [if_neg hempty, if_neg hempty, populateChildren_single]
    show some (characters (cString t) h) = _
    rw [cString_clean ht]

/-- A value is read while the text of the value is empty. -/
theorem populate_value {t : Text} (ht : Clean t) (bag : List (Property F D))
    (stack : List (Open F D)) (tags : List Tag) (name description type : Text) :
    populateChildren fl db [.element "value".toList [] (textNodes t)]
        ⟨bag, stack, tags, name, description, type, []⟩ =
      some ⟨bag, stack, tags, name, description, type, t⟩ := by
  rw [populateChildren_single]
  show (populateChildren fl db (textNodes t)
    ⟨bag, stack, .value :: tags, name, description, type, []⟩).bind (endElement fl db) = _
  rw [populate_text ht]
  cases t <;> rfl

/-- The description of a simple property -/
theorem populate_description {d : Text} (hd : Clean d) (bag : List (Property F D))
    (stack : List (Open F D)) (tags : List Tag) (name type value : Text) :
    populateChildren fl db (descriptionNodes d)
        ⟨bag, stack, .simple :: tags, name, [], type, value⟩ =
      some ⟨bag, stack, .simple :: tags, name, condense d, type, value⟩ := by
  unfold descriptionNodes
  by_cases hempty : d = []
  · rw [if_pos hempty, hempty]
    rfl
  · rw [if_neg hempty, populateChildren_single]
    show (populateChildren fl db (textNodes (condense d))
      ⟨bag, stack, .description :: .simple :: tags, name, [], type, value⟩).bind _ = _
    rw [populate_text (condense_clean hd)]
    cases condense d <;> rfl

/-- The description of a property with a bag goes to that property. -/
theorem populate_struct_description {d : Text} (hd : Clean d) (bag : List (Property F D))
    (o : Open F D) (stack : List (Open F D)) (ho : o.description = []) (tags : List Tag)
    (name type value : Text) :
    populateChildren fl db (descriptionNodes d)
        ⟨bag, o :: stack, .struct :: tags, name, [], type, value⟩ =
      some ⟨bag, { o with description := condense d } :: stack, .struct :: tags, name, [], type,
        value⟩ := by
  obtain ⟨oname, odescription, otype, properties⟩ := o
  cases ho
  unfold descriptionNodes
  by_cases hempty : d = []
  · rw [if_pos hempty, hempty]
    rfl
  · rw [if_neg hempty, populateChildren_single]
    show (populateChildren fl db (textNodes (condense d))
      ⟨bag, ⟨oname, [], otype, properties⟩ :: stack, .description :: .struct :: tags, name, [],
        type, value⟩).bind _ = _
    rw [populate_text (condense_clean hd)]
    cases condense d <;> rfl

theorem attributeValue_simple {name type : Text} (hname : Clean name) (htype : Clean type) :
    attributeValue "name" (simpleAttributes name type) = name ∧
      attributeValue "type" (simpleAttributes name type) = type := by
  unfold simpleAttributes
  by_cases hempty : name = []
  · rw [if_pos hempty, hempty]
    exact ⟨rfl, cString_clean htype⟩
  · rw [if_neg hempty]
    exact ⟨cString_clean hname, cString_clean htype⟩

variable (fl db)

mutual

theorem populate_property :
    (p : Property F D) → p.Writable → (h : Handler F D) → h.Ready →
      ∃ name type, populateChildren fl db (p.nodes fl db) h =
        some { h.addAll p.normal with name := name, type := type }
  | .simple name description value, ⟨hname, hd, hvalue⟩,
      ⟨bag, stack, tags, name', _, type', _⟩, ⟨rfl, rfl⟩ => by
    obtain ⟨hn, ht⟩ := attributeValue_simple hname.clean (type_clean value)
    refine ⟨[], value.type, ?_⟩
    show populateChildren fl db [.element "simple".toList (simpleAttributes name value.type)
      (descriptionNodes description ++
        [.element "value".toList [] (textNodes (condense (value.text fl db)))])] _ = _
    rw [populateChildren_single]
    show (populateChildren fl db (descriptionNodes description ++ _)
      ⟨bag, stack, .simple :: tags, attributeValue "name" (simpleAttributes name value.type), [],
        attributeValue "type" (simpleAttributes name value.type), []⟩).bind _ = _
    rw [hn, ht, populateChildren_append, populate_description hd.clean]
    show (populateChildren fl db _ _).bind _ = _
    rw [populate_value (condense_clean (value_clean fl db hvalue).2)]
    show (readValue fl db value.type (condense (value.text fl db))).map _ = _
    rw [readValue_value fl db hvalue]
    cases stack <;> rfl
  | .struct name description type properties, ⟨hname, hd, htype, hproperties⟩,
      ⟨bag, stack, tags, name', _, type', _⟩, ⟨rfl, rfl⟩ => by
    refine ⟨[], [], ?_⟩
    have hn : attributeValue "name" [("name".toList, name), ("type".toList, type)] = name :=
      cString_clean hname.clean
    have ht : attributeValue "type" [("name".toList, name), ("type".toList, type)] = type :=
      cString_clean htype.clean
    show populateChildren fl db [.element "struct".toList
      [("name".toList, name), ("type".toList, type)]
        (descriptionNodes description ++ nodes fl db properties)] _ = _
    rw [populateChildren_single]
    show (populateChildren fl db (descriptionNodes description ++ _)
      ⟨bag, ⟨attributeValue "name" [("name".toList, name), ("type".toList, type)], [],
          attributeValue "type" [("name".toList, name), ("type".toList, type)], []⟩ :: stack,
        .struct :: tags, attributeValue "name" [("name".toList, name), ("type".toList, type)], [],
        attributeValue "type" [("name".toList, name), ("type".toList, type)], []⟩).bind _ = _
    rw [hn, ht, populateChildren_append, populate_struct_description hd.clean bag _ stack rfl]
    obtain ⟨n, t, hchildren⟩ := populate_properties properties hproperties
      ⟨bag, ⟨name, condense description, type, []⟩ :: stack, .struct :: tags, name, [], type, []⟩
      ⟨rfl, rfl⟩
    show (populateChildren fl db _ _).bind _ = _
    rw [hchildren]
    cases stack <;> rfl
  | .other _ _, _, ⟨bag, stack, tags, name, description, type, value⟩, _ => by
    refine ⟨name, type, ?_⟩
    cases stack with
    | nil => exact congrArg some (by simp [Handler.addAll, Property.normal])
    | cons o os => exact congrArg some (by simp [Handler.addAll, Property.normal])

theorem populate_properties :
    (ps : List (Property F D)) → AllWritable ps → (h : Handler F D) → h.Ready →
      ∃ name type, populateChildren fl db (nodes fl db ps) h =
        some { h.addAll (normal ps) with name := name, type := type }
  | [], _, ⟨bag, stack, tags, name, description, type, value⟩, _ => by
    refine ⟨name, type, ?_⟩
    cases stack with
    | nil => exact congrArg some (by simp [Handler.addAll, normal])
    | cons o os => exact congrArg some (by simp [Handler.addAll, normal])
  | p :: ps, ⟨hp, hps⟩, h, hh => by
    obtain ⟨name, type, hfirst⟩ := populate_property p hp h hh
    have hready : Handler.Ready { h.addAll p.normal with name := name, type := type } := by
      obtain ⟨bag, stack, tags, name, description, type, value⟩ := h
      cases stack <;> exact ⟨hh.description, hh.value_string⟩
    obtain ⟨name', type', hrest⟩ := populate_properties ps hps _ hready
    refine ⟨name', type', ?_⟩
    show populateChildren fl db (p.nodes fl db ++ nodes fl db ps) h = _
    rw [populateChildren_append, hfirst]
    show populateChildren fl db (nodes fl db ps) _ = _
    rw [hrest, show normal (p :: ps) = p.normal ++ normal ps from rfl, ← Handler.addAll_addAll]
    congr 1
    obtain ⟨bag, stack, tags, n, description, t, value⟩ := h
    cases stack <;> rfl

end

/-! ### The round trip -/

variable {fl db}

theorem normal_append (ps qs : List (Property F D)) :
    normal (ps ++ qs) = normal ps ++ normal qs := by
  induction ps with
  | nil => rfl
  | cons p ps ih =>
    show p.normal ++ normal (ps ++ qs) = (p.normal ++ normal ps) ++ normal qs
    rw [ih, List.append_assoc]

theorem Value.normal_normal {v : Value F D} (hv : v.Writable) : v.normal.normal = v.normal := by
  cases v with
  | char c =>
    unfold Value.normal
    dsimp only
    cases hspace : isWhiteSpace c with
    | true => rfl
    | false => rw [if_neg Bool.false_ne_true, hspace, if_neg Bool.false_ne_true]
  | octet c =>
    unfold Value.normal
    dsimp only
    by_cases hc : isWhiteSpace c = true ∨ c = '&'
    · rw [if_pos hc]
      rfl
    · rw [if_neg hc, if_neg hc]
  | string s =>
    unfold Value.normal
    dsimp only
    rw [condense_condense hv.utf8]
  | boolean _ => rfl
  | long _ => rfl
  | ulong _ => rfl
  | float _ => rfl
  | double _ => rfl

mutual

theorem Property.normal_normal :
    (p : Property F D) → p.Writable → normal p.normal = p.normal
  | .simple name description value, ⟨_, hd, hvalue⟩ => by
    show [Property.simple name (condense (condense description)) value.normal.normal] =
      [.simple name (condense description) value.normal]
    rw [condense_condense hd.utf8, Value.normal_normal hvalue]
  | .struct name description type properties, ⟨_, hd, _, hproperties⟩ => by
    show [Property.struct name (condense (condense description)) type
      (normal (normal properties))] =
      [.struct name (condense description) type (normal properties)]
    rw [condense_condense hd.utf8, normal_normal properties hproperties]
  | .other _ _, _ => rfl

theorem normal_normal :
    (ps : List (Property F D)) → AllWritable ps → normal (normal ps) = normal ps
  | [], _ => rfl
  | p :: ps, ⟨hp, hps⟩ => by
    show normal (p.normal ++ normal ps) = p.normal ++ normal ps
    rw [normal_append, Property.normal_normal p hp, normal_normal ps hps]

end

theorem deserialize_written (fl : FloatFormat F) (db : FloatFormat D) {v : List (Property F D)}
    (hv : AllWritable v) (bag : List (Property F D)) :
    deserialize fl db (serialize fl db v) bag = (true, bag ++ normal v) := by
  obtain ⟨name, type, hchildren⟩ := populate_properties fl db v hv
    ⟨bag, [], [.properties], [], [], [], []⟩ ⟨rfl, rfl⟩
  have hpopulate : populateBag fl db (.element "properties".toList [] (nodes fl db v))
      (Handler.start bag) = some ⟨bag ++ normal v, [], [], name, [], type, []⟩ := by
    show (populateChildren fl db (nodes fl db v)
      ⟨bag, [], [.properties], [], [], [], []⟩).bind (endElement fl db) = _
    rw [hchildren]
    rfl
  unfold deserialize
  rw [loadFile_serialize hv]
  dsimp only
  rw [hpopulate]

end OrocosRtt.Marsh.Cpf
