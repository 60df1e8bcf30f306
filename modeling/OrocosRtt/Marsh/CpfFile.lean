import OrocosRtt.Marsh.CpfValues

/-! The file that the marshaller writes is a document of the properties' elements. -/
namespace OrocosRtt.Marsh.Cpf
open TinyXml

variable {F D : Type}

/-! ### Elements -/

theorem content_space {ws content : Text} {nodes : List Node}
    (hws : ∀ c ∈ ws, isWhiteSpace c = true) (hcontent : ContentOk content nodes) :
    ContentOk (ws ++ content) nodes := by
  intro n rest hn
  obtain ⟨n, rfl⟩ := Nat.exists_eq_add_of_le' (Nat.one_le_of_lt hn)
  have hskip : skipWhiteSpace .utf8 (ws ++ content ++ '<' :: '/' :: rest) =
      skipWhiteSpace .utf8 (content ++ '<' :: '/' :: rest) := by
    unfold skipWhiteSpace
    rw [if_neg (by simp), if_neg (by simp), List.append_assoc, dropSpace_spaces hws]
  have h := hcontent (n + 1) rest (by
    simp only [List.length_append] at hn ⊢
    omega)
  unfold TinyXml.readValue at h ⊢
  rw [hskip]
  exact h

/-- The element, if there is a description -/
def descriptionNodes (description : Text) : List Node :=
  if description = [] then []
  else [.element "description".toList [] (textNodes (condense description))]

def simpleAttributes (name type : Text) : List (Text × Text) :=
  (if name = [] then [] else [("name".toList, name)]) ++ [("type".toList, type)]

theorem plain_of_all (name : Text) (h : (!name.isEmpty && name.all Char.isAlpha) = true) :
    Plain name := by
  simpa [Plain] using h

theorem attributes_ok {name : Text} (hname : Name name) {type : Text} (htype : Quotable type) :
    ∀ a ∈ [("name".toList, name), ("type".toList, type)], Plain a.1 ∧ Quotable a.2 := by
  intro a ha
  rcases List.mem_cons.mp ha with rfl | ha
  · exact ⟨plain_of_all "name".toList (by decide), hname.utf8, hname.quote⟩
  · cases List.mem_singleton.mp ha
    exact ⟨plain_of_all "type".toList (by decide), htype⟩

theorem simpleAttributes_sublist (name type : Text) :
    (simpleAttributes name type).Sublist [("name".toList, name), ("type".toList, type)] := by
  unfold simpleAttributes
  split
  · exact List.sublist_cons_self _ _
  · exact List.Sublist.refl _

theorem attributes_nodup (name type : Text) :
    ([("name".toList, name), ("type".toList, type)].map Prod.fst).Nodup :=
  show ["name".toList, "type".toList].Nodup by decide

section Files
variable (fl : FloatFormat F) (db : FloatFormat D)

mutual

def Property.nodes : Property F D → List Node
  | .simple name description value =>
    [.element "simple".toList (simpleAttributes name value.type)
      (descriptionNodes description ++
        [.element "value".toList [] (textNodes (condense (value.text fl db)))])]
  | .struct name description type properties =>
    [.element "struct".toList [("name".toList, name), ("type".toList, type)]
      (descriptionNodes description ++ nodes properties)]
  | .other _ _ => []

def nodes : List (Property F D) → List Node
  | [] => []
  | p :: ps => p.nodes ++ nodes ps

end

/-- The types that are written -/
def types : List Text :=
  ["boolean", "char", "octet", "long", "ulong", "float", "double", "string"].map String.toList

theorem type_mem (v : Value F D) : v.type ∈ types := by
  unfold types
  cases v <;> exact List.mem_map_of_mem (by decide)

theorem types_plain {type : Text} (h : type ∈ types) :
    '"' ∉ type ∧ type.all isPlain = true := by
  have hall := List.all_eq_true.mp (show (types.all fun type =>
    type.all fun c => c ≠ '"' && isPlain c) = true by decide) type h
  simp only [List.all_eq_true, Bool.and_eq_true, decide_eq_true_eq] at hall ⊢
  exact ⟨fun hc => (hall '"' hc).1 rfl, fun c hc => (hall c hc).2⟩

theorem type_plain (v : Value F D) : v.type.all isPlain = true := (types_plain (type_mem v)).2

theorem type_quotable (v : Value F D) : Quotable v.type :=
  ⟨(plain_text (type_plain v)).1, (types_plain (type_mem v)).1⟩

theorem description_content {ws after content description : Text} {nodes : List Node}
    (hws : ∀ c ∈ ws, isWhiteSpace c = true) (hafter : ∀ c ∈ after, isWhiteSpace c = true)
    (hd : Utf8 description) (hcontent : ContentOk content nodes) :
    ContentOk ((if description = [] then []
      else ws ++ "<description>".toList ++ escape description ++ "</description>".toList ++
        after) ++ content) (descriptionNodes description ++ nodes) := by
  unfold descriptionNodes
  by_cases hempty : description = []
  · rw [if_pos hempty, if_pos hempty]
    exact hcontent
  · rw [if_neg hempty, if_neg hempty]
    have helement := element_ok (plain_of_all "description".toList (by decide)) no_attributes
      List.nodup_nil (content_text hd)
    have h := content_element hws helement (content_space hafter hcontent)
    have htext : elementText "description".toList [] (escape description) =
        "<description>".toList ++ escape description ++ "</description>".toList := by
      simp [elementText, attributesText]
    rw [htext] at h
    simpa using h

theorem doWrite_text (indent name description value : Text) {type : Text}
    (htype : escape type = type) :
    doWrite indent name description type value =
      indent ++ elementText "simple".toList (simpleAttributes name type)
        ((if description = [] then []
          else [] ++ "<description>".toList ++ escape description ++ "</description>".toList ++
            []) ++ ([] ++ elementText "value".toList [] value ++ [])) ++ ['\n'] := by
  unfold doWrite elementText simpleAttributes attributesText attributeText
  by_cases hname : name = []
  · by_cases hd : description = [] <;> simp [hname, hd, htype]
  · by_cases hd : description = [] <;> simp [hname, hd, htype]

theorem introspect_struct_text (indent name description type : Text)
    (properties : List (Property F D)) :
    introspect fl db indent (.struct name description type properties) =
      indent ++ elementText "struct".toList [("name".toList, name), ("type".toList, type)]
        (['\n'] ++ ((if description = [] then []
          else (indent ++ "   ".toList) ++ "<description>".toList ++ escape description ++
            "</description>".toList ++ ['\n']) ++
              (identify fl db (indent ++ "   ".toList) properties ++ indent))) ++ ['\n'] := by
  unfold introspect elementText attributesText attributeText
  by_cases hd : description = [] <;> simp [hd]

mutual

theorem introspect_content {indent content : Text} {after : List Node}
    (hindent : ∀ c ∈ indent, isWhiteSpace c = true) (hcontent : ContentOk content after) :
    (p : Property F D) → p.Writable →
      ContentOk (introspect fl db indent p ++ content) (p.nodes fl db ++ after)
  | .simple name description value, ⟨hname, hd, hvalue⟩ => by
    have hvalueOk := element_ok (plain_of_all "value".toList (by decide)) no_attributes
      List.nodup_nil (content_value fl db hvalue)
    have hinner := description_content no_space no_space hd.utf8
      (content_element no_space hvalueOk (content_nil no_space))
    have hsub := simpleAttributes_sublist name value.type
    have helement := element_ok (plain_of_all "simple".toList (by decide))
      (fun a ha => attributes_ok hname (type_quotable value) a (hsub.subset ha))
      ((hsub.map Prod.fst).nodup (attributes_nodup name value.type)) hinner
    have h := content_element hindent helement (content_space newline_space hcontent)
    show ContentOk (doWrite indent name description value.type (value.write fl db) ++ content) _
    rw [doWrite_text indent name description _ (plain_text (type_plain value)).2.2.1,
      List.append_assoc]
    exact h
  | .struct name description type properties, ⟨hname, hd, htype, hproperties⟩ => by
    have hmore : ∀ c ∈ indent ++ "   ".toList, isWhiteSpace c = true := by
      intro c hc
      rcases List.mem_append.mp hc with hc | hc
      · exact hindent c hc
      · exact List.all_eq_true.mp (show "   ".toList.all isWhiteSpace = true by decide) c hc
    have hinner := content_space newline_space
      (description_content hmore newline_space hd.utf8
        (identify_content hmore (content_nil hindent) properties hproperties))
    have helement := element_ok (plain_of_all "struct".toList (by decide))
      (attributes_ok hname ⟨htype.utf8, htype.quote⟩) (attributes_nodup name type) hinner
    have h := content_element hindent helement (content_space newline_space hcontent)
    rw [introspect_struct_text, List.append_assoc]
    rw [List.append_nil] at h
    exact h
  | .other _ _, _ => hcontent

theorem identify_content {indent content : Text} {after : List Node}
    (hindent : ∀ c ∈ indent, isWhiteSpace c = true) (hcontent : ContentOk content after) :
    (ps : List (Property F D)) → AllWritable ps →
      ContentOk (identify fl db indent ps ++ content) (nodes fl db ps ++ after)
  | [], _ => hcontent
  | p :: ps, ⟨hp, hps⟩ => by
    have h := introspect_content hindent (identify_content hindent hcontent ps hps) p hp
    unfold identify nodes
    rw [List.append_assoc, List.append_assoc]
    exact h

end

end Files

/-! ### Bytes -/

theorem clean_append {s t : Text} : Clean (s ++ t) ↔ Clean s ∧ Clean t := List.forall_mem_append

theorem mem_escape {s : Text} {c : Char} (h : c ∈ escape s) : c ∈ s ∨ c ∈ "&ampltg;".toList := by
  have hmarks (t : Text) (ht : t.all ("&ampltg;".toList.contains ·) = true) (hc : c ∈ t) :
      c ∈ "&ampltg;".toList := List.elem_iff.mp (List.all_eq_true.mp ht c hc)
  induction s with
  | nil => cases h
  | cons d s ih =>
    rw [escape_cons] at h
    rcases List.mem_append.mp h with h | h
    · unfold escapeChar at h
      split at h
      · exact .inr (hmarks "&amp;".toList (by decide) h)
      · split at h
        · exact .inr (hmarks "&lt;".toList (by decide) h)
        · split at h
          · exact .inr (hmarks "&gt;".toList (by decide) h)
          · cases List.mem_singleton.mp h
            exact .inl List.mem_cons_self
    · rcases ih h with h | h
      · exact .inl (List.mem_cons_of_mem d h)
      · exact .inr h

theorem escape_clean {s : Text} (hs : Clean s) : Clean (escape s) := by
  intro c hc
  rcases mem_escape hc with hc | hc
  · exact hs c hc
  · exact clean_of_all "&ampltg;".toList (by decide) c hc

theorem condense_clean {s : Text} (hs : Clean s) : Clean (condense s) := by
  intro c hc
  rcases mem_condense hc with hc | rfl
  · exact hs c hc
  · decide

theorem cString_clean {t : Text} (ht : Clean t) : cString t = t := by
  unfold cString
  rw [List.takeWhile_eq_self_iff]
  intro c hc
  simp [(ht c hc).1]

theorem normalizeEol_clean {t : Text} (ht : Clean t) : normalizeEol t = t := by
  induction t with
  | nil => rfl
  | cons c t ih =>
    have hc := (ht c List.mem_cons_self).2
    have htail := ih fun d hd => ht d (List.mem_cons_of_mem c hd)
    unfold normalizeEol
    split
    · next h => exact absurd (List.cons.inj h).1 hc
    · next h => exact absurd (List.cons.inj h).1 hc
    · next h =>
      cases h
      rw [htail]
    · next h => cases h

section Written
variable (fl : FloatFormat F) (db : FloatFormat D)

theorem value_clean {v : Value F D} (hv : v.Writable) :
    Clean (v.write fl db) ∧ Clean (v.text fl db) := by
  cases v with
  | boolean b =>
    have hbit : Clean (if b then ['1'] else ['0']) := by
      cases b <;> exact clean_of_all _ (by decide)
    exact ⟨hbit, hbit⟩
  | char c =>
    unfold Value.write Value.text
    dsimp only
    by_cases hc : c = '\x00'
    · rw [if_pos hc, if_pos hc]
      exact ⟨by simp [Clean], by simp [Clean]⟩
    · rw [if_neg hc, if_neg hc]
      have hsingle : Clean [c] := by simp [Clean, hc, hv.2]
      exact ⟨escape_clean hsingle, hsingle⟩
  | octet c =>
    have hsingle : Clean [c] := by simp [Clean, hv.2.1, hv.2.2.1]
    refine ⟨hsingle, ?_⟩
    unfold Value.text
    dsimp only
    split
    · simp [Clean]
    · exact hsingle
  | long z => exact ⟨(plain_text (writeInt_plain _)).2.1, (plain_text (writeInt_plain _)).2.1⟩
  | ulong n => exact ⟨(plain_text (writeInt_plain _)).2.1, (plain_text (writeInt_plain _)).2.1⟩
  | float x => exact ⟨(plain_text (fl.plain x).2).2.1, (plain_text (fl.plain x).2).2.1⟩
  | double x => exact ⟨(plain_text (db.plain x).2).2.1, (plain_text (db.plain x).2).2.1⟩
  | string s => exact ⟨escape_clean hv.clean, hv.clean⟩

variable {fl db}

theorem type_clean (v : Value F D) : Clean v.type := (plain_text (type_plain v)).2.1

theorem attribute_clean {a : Text × Text} (hname : Clean a.1) (hvalue : Clean a.2) :
    Clean (attributeText a) := by
  have hopen : Clean ['=', '"'] := clean_of_all _ (by decide)
  have hclose : Clean ['"'] := clean_of_all _ (by decide)
  exact clean_append.mpr ⟨hname, clean_append.mpr ⟨hopen,
    clean_append.mpr ⟨escape_clean hvalue, hclose⟩⟩⟩

theorem element_clean {name content : Text} {attributes : List (Text × Text)} (hname : Plain name)
    (hattributes : ∀ a ∈ attributes, Plain a.1 ∧ Clean a.2) (hcontent : Clean content) :
    Clean (elementText name attributes content) := by
  have halpha : ∀ {t : Text}, Plain t → Clean t := by
    intro t ht c hc
    exact ⟨isAlpha_ne (ht.2 c hc) (by decide), isAlpha_ne (ht.2 c hc) (by decide)⟩
  have hattributes : Clean (attributesText attributes) := by
    intro c hc
    obtain ⟨a, ha, hc⟩ := List.mem_flatMap.mp hc
    rcases List.mem_cons.mp hc with rfl | hc
    · decide
    · exact attribute_clean (halpha (hattributes a ha).1) (hattributes a ha).2 c hc
  have hshape : elementText name attributes content =
      ['<'] ++ (name ++ (attributesText attributes ++
        (['>'] ++ (content ++ (['<', '/'] ++ (name ++ ['>'])))))) := by simp [elementText]
  rw [hshape]
  simp only [clean_append]
  exact ⟨clean_of_all _ (by decide), halpha hname, hattributes, clean_of_all _ (by decide),
    hcontent, clean_of_all _ (by decide), halpha hname, clean_of_all _ (by decide)⟩

theorem description_clean {ws after description : Text} (hws : Clean ws) (hafter : Clean after)
    (hd : Clean description) :
    Clean (if description = [] then [] else ws ++ "<description>".toList ++ escape description ++
      "</description>".toList ++ after) := by
  have hopen : Clean "<description>".toList := clean_of_all _ (by decide)
  have hclose : Clean "</description>".toList := clean_of_all _ (by decide)
  split
  · simp [Clean]
  · simp only [clean_append]
    exact ⟨⟨⟨⟨hws, hopen⟩, escape_clean hd⟩, hclose⟩, hafter⟩

theorem space_clean : Clean ['\n'] ∧ Clean ([] : Text) ∧ Clean "   ".toList := by
  refine ⟨?_, ?_, ?_⟩ <;> exact clean_of_all _ (by decide)

mutual

theorem introspect_clean {indent : Text} (hindent : Clean indent) :
    (p : Property F D) → p.Writable → Clean (introspect fl db indent p)
  | .simple name description value, ⟨hname, hd, hvalue⟩ => by
    have helement := element_clean (plain_of_all "value".toList (by decide))
      (fun a ha => absurd ha List.not_mem_nil) (value_clean fl db hvalue).1
    have hcontent := clean_append.mpr
      ⟨description_clean space_clean.2.1 space_clean.2.1 hd.clean, clean_append.mpr
        ⟨clean_append.mpr ⟨space_clean.2.1, helement⟩, space_clean.2.1⟩⟩
    have hattributes : ∀ a ∈ simpleAttributes name value.type, Plain a.1 ∧ Clean a.2 := by
      intro a ha
      rcases List.mem_cons.mp ((simpleAttributes_sublist name value.type).subset ha) with rfl | ha
      · exact ⟨plain_of_all "name".toList (by decide), hname.clean⟩
      · cases List.mem_singleton.mp ha
        exact ⟨plain_of_all "type".toList (by decide), type_clean value⟩
    show Clean (doWrite indent name description value.type (value.write fl db))
    rw [doWrite_text indent name description _ (plain_text (type_plain value)).2.2.1]
    exact clean_append.mpr ⟨clean_append.mpr ⟨hindent,
      element_clean (plain_of_all _ (by decide)) hattributes hcontent⟩, space_clean.1⟩
  | .struct name description type properties, ⟨hname, hd, htype, hproperties⟩ => by
    have hmore := clean_append.mpr ⟨hindent, space_clean.2.2⟩
    have hcontent := clean_append.mpr ⟨space_clean.1, clean_append.mpr
      ⟨description_clean hmore space_clean.1 hd.clean, clean_append.mpr
        ⟨identify_clean hmore properties hproperties, hindent⟩⟩⟩
    have hattributes : ∀ a ∈ [("name".toList, name), ("type".toList, type)],
        Plain a.1 ∧ Clean a.2 := by
      intro a ha
      rcases List.mem_cons.mp ha with rfl | ha
      · exact ⟨plain_of_all "name".toList (by decide), hname.clean⟩
      · cases List.mem_singleton.mp ha
        exact ⟨plain_of_all "type".toList (by decide), htype.clean⟩
    rw [introspect_struct_text]
    exact clean_append.mpr ⟨clean_append.mpr ⟨hindent,
      element_clean (plain_of_all _ (by decide)) hattributes hcontent⟩, space_clean.1⟩
  | .other _ _, _ => space_clean.2.1

theorem identify_clean {indent : Text} (hindent : Clean indent) :
    (ps : List (Property F D)) → AllWritable ps → Clean (identify fl db indent ps)
  | [], _ => space_clean.2.1
  | p :: ps, ⟨hp, hps⟩ =>
    clean_append.mpr ⟨introspect_clean hindent p hp, identify_clean hindent ps hps⟩

end

/-! ### The file -/

def xmlDeclaration : Text := "<?xml version=\"1.0\" encoding=\"UTF-8\"?>\n".toList

def doctype : Text := "<!DOCTYPE properties SYSTEM \"cpf.dtd\">\n".toList

variable (fl db)

theorem serialize_text (v : List (Property F D)) :
    serialize fl db v = xmlDeclaration ++ (doctype ++ (elementText "properties".toList []
      (['\n'] ++ (identify fl db "  ".toList v ++ [])) ++ ['\n'])) := by
  have hopen : "<properties>\n".toList =
      '<' :: "properties".toList ++ attributesText [] ++ '>' :: ['\n'] := rfl
  have hclose : "</properties>\n".toList = '<' :: '/' :: "properties".toList ++ ['>'] ++ ['\n'] :=
    rfl
  unfold serialize elementText xmlDeclaration doctype
  rw [hopen, hclose, List.append_nil]
  simp only [List.append_assoc, List.cons_append, List.nil_append]

variable {fl db}

theorem parseDocument_text {t : Text} {node : Node} (ht : ElementOk t node) (n : ℕ) :
    ∃ a b, parseDocument (n + 4) .unknown (some (xmlDeclaration ++ (doctype ++ (t ++ ['\n'])))) =
      ⟨[.declaration "1.0".toList a b, .unknown "!DOCTYPE properties SYSTEM \"cpf.dtd\"".toList,
        node], none, false⟩ := by
  obtain ⟨c, p, rfl, hc⟩ := ht.head
  refine ⟨"UTF-8".toList, [], ?_⟩
  generalize hrest : doctype ++ ('<' :: c :: p ++ ['\n']) = rest
  have hdeclaration : parseDocument (n + 4) .unknown (some (xmlDeclaration ++ rest)) =
      (let r := parseDocument (n + 3) .utf8 (skipWhiteSpace .utf8 ('\n' :: rest))
       ⟨.declaration "1.0".toList "UTF-8".toList [] :: r.value, r.next, r.error⟩) := by
    have hkind : TinyXml.identify .unknown (xmlDeclaration ++ rest) = some .declaration := rfl
    have hnode : parseOther .unknown (xmlDeclaration ++ rest) .declaration =
        ⟨.declaration "1.0".toList "UTF-8".toList [], some ('\n' :: rest), false⟩ := rfl
    have hcons : ∃ d q, xmlDeclaration ++ rest = d :: q := ⟨'<', _, rfl⟩
    obtain ⟨d, q, hcons⟩ := hcons
    rw [hcons] at hkind hnode ⊢
    have hencoding : nextEncoding .unknown
        (.declaration "1.0".toList "UTF-8".toList []) = .utf8 := rfl
    conv_lhs => unfold parseDocument
    rw [hkind]
    dsimp only
    rw [if_neg (by decide), hnode]
    dsimp only
    rw [hencoding]
    rfl
  have hdoctype : parseDocument (n + 3) .utf8 (skipWhiteSpace .utf8 ('\n' :: rest)) =
      (let r := parseDocument (n + 2) .utf8 (skipWhiteSpace .utf8 ('\n' :: '<' :: c :: p ++ ['\n']))
       ⟨.unknown "!DOCTYPE properties SYSTEM \"cpf.dtd\"".toList :: r.value, r.next, r.error⟩) := by
    rw [← hrest]
    rfl
  have hskip : skipWhiteSpace .utf8 ('\n' :: '<' :: c :: p ++ ['\n']) =
      some ('<' :: c :: p ++ ['\n']) :=
    skipWhiteSpace_space newline_space (by decide) (by decide) (c :: p ++ ['\n'])
  have helement : parseDocument (n + 2) .utf8 (some ('<' :: c :: p ++ ['\n'])) =
      ⟨[node], none, false⟩ := by
    have hkind := identify_element hc (p ++ ['\n'])
    have hparse := ht.parse (2 * ('<' :: c :: p ++ ['\n']).length) ['\n'] (Nat.le_refl _)
    rw [List.cons_append, List.cons_append] at hparse ⊢
    unfold parseDocument
    rw [hkind]
    dsimp only
    rw [if_pos rfl, hparse]
    rfl
  rw [hdeclaration, hdoctype, hskip, helement]

theorem loadFile_text {t : Text} (hclean : Clean (xmlDeclaration ++ t)) :
    loadFile (xmlDeclaration ++ t) =
      (let r :=
        parseDocument ((xmlDeclaration ++ t).length + 1) .unknown (some (xmlDeclaration ++ t))
       if r.error || r.value.isEmpty then none else some r.value) := by
  have hdata : normalizeEol ((xmlDeclaration ++ t).takeWhile (· != '\x00')) =
      xmlDeclaration ++ t := by
    have htake := cString_clean hclean
    unfold cString at htake
    rw [htake, normalizeEol_clean hclean]
  unfold loadFile
  rw [hdata]
  rfl

theorem loadFile_serialize {v : List (Property F D)} (hv : AllWritable v) :
    (loadFile (serialize fl db v)).bind (firstChildElement "properties") =
      some (.element "properties".toList [] (nodes fl db v)) := by
  have hspaces : ∀ c ∈ "  ".toList, isWhiteSpace c = true := List.all_eq_true.mp (by decide)
  have hok := element_ok (plain_of_all "properties".toList (by decide)) no_attributes List.nodup_nil
    (content_space newline_space (identify_content fl db hspaces (content_nil no_space) v hv))
  have hclean : Clean (serialize fl db v) := by
    have hmarks : Clean xmlDeclaration ∧ Clean doctype ∧ Clean "  ".toList := by
      refine ⟨?_, ?_, ?_⟩ <;> exact clean_of_all _ (by decide)
    rw [serialize_text]
    exact clean_append.mpr ⟨hmarks.1, clean_append.mpr ⟨hmarks.2.1, clean_append.mpr
      ⟨element_clean (plain_of_all _ (by decide)) (by simp) (clean_append.mpr ⟨space_clean.1,
        clean_append.mpr ⟨identify_clean hmarks.2.2 v hv, space_clean.2.1⟩⟩), space_clean.1⟩⟩⟩
  rw [serialize_text] at hclean ⊢
  rw [loadFile_text hclean]
  generalize elementText "properties".toList []
    (['\n'] ++ (identify fl db "  ".toList v ++ [])) = t at hok ⊢
  obtain ⟨k, hk⟩ := Nat.exists_eq_add_of_le' (show 3 ≤
    (xmlDeclaration ++ (doctype ++ (t ++ ['\n']))).length by
      rw [List.length_append]
      exact Nat.le_trans (show 3 ≤ xmlDeclaration.length by decide) (Nat.le_add_right _ _))
  obtain ⟨a, b, hparse⟩ := parseDocument_text hok k
  rw [hk, hparse, List.append_nil]
  rfl

end Written

end OrocosRtt.Marsh.Cpf
