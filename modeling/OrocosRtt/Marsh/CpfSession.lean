import OrocosRtt.Library.Run
import OrocosRtt.Marsh.CpfStore

/-! A task that works with one property file: what it stores there is what it is configured with,
over any number of calls. -/
namespace OrocosRtt.Marsh.Cpf
open TinyXml TypeSystem Library.Run

variable {F D ι : Type} [DecidableEq ι]

/-- A file that has not been written yet is not there; it can always be written. -/
structure Session (F D : Type) where
  properties : PropertyBag Text (Value F D)
  file : Option Text

/-- The component gives its properties new values, or a function of `PropertyLoader` is called. -/
inductive Action (F D : Type) where
  | assign (properties : List (Marsh.Property Text (Value F D)))
  | store
  | save (all : Bool)
  | configure (all : Bool)
  | load

section
variable (ts : TypeSystem ι Text (Value F D)) (fl : FloatFormat F) (db : FloatFormat D)

def Session.stored (s : Session F D) : Session F D :=
  { s with file := some (store fl db s.properties) }

/-- `PropertyLoader::save`; the properties that the task has not are left in the file. Where it
fails, the file is not opened for writing. -/
def Session.save (all : Bool) (s : Session F D) : Session F D × Outcome :=
  match s.file with
  | none => (s.stored fl db, .ok)
  | some file =>
    match parse fl db file with
    | .parsed allProps =>
      -- `PropertyBagIntrospector` makes no difference here
      let decompProps : PropertyBag Text (Value F D) := ⟨"PropertyBag", s.properties.properties⟩
      let r := if all then ts.updateProperties allProps decompProps
        else ts.refreshProperties allProps decompProps false
      if r.2 = .ok then ({ s with file := some (store fl db r.1) }, .ok) else (s, r.2)
    | _ => (s, .failed)

def Session.opened (s : Session F D) : File Text (Value F D) :=
  match s.file with
  | none => .unopened
  | some file => parse fl db file

def Session.perform (s : Session F D) : Action F D → Session F D × Bool
  | .assign ps => ({ s with properties := ⟨s.properties.type, ps⟩ }, true)
  | .store => (s.stored fl db, true)
  | .save all => ((s.save ts fl db all).1, (s.save ts fl db all).2 = .ok)
  | .configure all =>
    let r := PropertyLoader.configure ts (s.opened fl db) all s.properties
    ({ s with properties := r.1 }, r.2)
  | .load =>
    let r := PropertyLoader.load ts (s.opened fl db) s.properties
    ({ s with properties := r.1 }, r.2)

end

/-- What the file is for: one setting of the properties is remembered. -/
structure Memory (F D : Type) where
  current : List (Marsh.Property Text (Value F D))
  saved : Option (List (Marsh.Property Text (Value F D)))

def Memory.perform (m : Memory F D) : Action F D → Memory F D × Bool
  | .assign ps => ({ m with current := ps }, true)
  | .store | .save _ => ({ m with saved := some (allKept m.current) }, true)
  | .configure _ | .load => ({ m with current := m.saved.getD m.current }, m.saved.isSome)

/-- Values that the properties of a task can have. What the file makes of them can be written once
more: that is not so for an octet that is a white space or an ampersand. -/
structure Setting (properties ps : List (Marsh.Property Text (Value F D))) : Prop where
  outline : outlines ps = outlines properties
  storable : AllStorable ps
  writable : AllWritable (ofProperties ps)
  again : AllWritable (ofProperties (allKept ps))

def Allowed (properties : List (Marsh.Property Text (Value F D))) : Action F D → Prop
  | .assign ps => Setting properties ps
  | _ => True

/-! ### What is kept is kept -/

mutual

theorem kept_again : (p : Marsh.Property Text (Value F D)) → Storable p →
    (ofProperty p).Writable →
      outline (kept p) = outline p ∧ Storable (kept p) ∧ kept (kept p) = kept p
  | .leaf n d type v, hs, ⟨_, _, hv⟩ => by
    have hagain : v.normal.normal = v.normal := Value.normal_normal hv
    have htype : type = v.normal.type := (show type = v.type from hs).trans (normal_type v).symm
    exact ⟨rfl, htype, by simp [kept, hagain]⟩
  | .bag n d type ps, ⟨htype, hs⟩, ⟨_, _, _, hw⟩ => by
    obtain ⟨houtline, hstorable, hagain⟩ := allKept_again ps hs hw
    exact ⟨by simp [kept, outline, houtline], ⟨htype, hstorable⟩, by simp [kept, hagain]⟩

theorem allKept_again : (ps : List (Marsh.Property Text (Value F D))) → AllStorable ps →
    AllWritable (ofProperties ps) →
      outlines (allKept ps) = outlines ps ∧ AllStorable (allKept ps) ∧
        allKept (allKept ps) = allKept ps
  | [], _, _ => ⟨rfl, trivial, rfl⟩
  | p :: ps, ⟨hp, hps⟩, ⟨hwp, hwps⟩ => by
    have hfirst := kept_again p hp hwp
    have ih := allKept_again ps hps hwps
    exact ⟨by simp [allKept, outlines, hfirst.1, ih.1], ⟨hfirst.2.1, ih.2.1⟩,
      by simp [allKept, hfirst.2.2, ih.2.2]⟩

end

/-- The update that follows the refresh changes nothing. -/
theorem load_file (ts : TypeSystem ι Text (Value F D))
    {ps : List (Marsh.Property Text (Value F D))} {b' : PropertyBag Text (Value F D)}
    (hs : AllStorable ps) (hw : AllWritable (ofProperties ps))
    (hn : Apart (· ≠ ·) (.bag "" "" "PropertyBag" ps)) (ht : b'.type = "PropertyBag")
    (ho : outlines b'.properties = outlines ps) :
    PropertyLoader.load ts (.parsed ⟨"PropertyBag", allFiled ps⟩) b' =
      (⟨"PropertyBag", allKept ps⟩, true) := by
  have houtline : outlines (allKept ps) = outlines ps := (allKept_again ps hs hw).1
  obtain ⟨halike, hgiven⟩ := allGiven_filed true ps (allKept ps) hs houtline
  have hnames := Alike.apart _ _ (alike_filed hs) hn
  simp only [Apart] at hnames
  have hupdate : ts.updateProperties ⟨"PropertyBag", allKept ps⟩ ⟨"PropertyBag", allFiled ps⟩ =
      (⟨"PropertyBag", allKept ps⟩, .ok) := by
    have h := updateWith_alike ts (allKept ps) (allFiled ps) halike hnames.1 hnames.2
    rwa [hgiven] at h
  unfold PropertyLoader.load
  dsimp only
  rw [compose_file ts hs, if_pos rfl, refresh_file ts hs hn.distinct ht ho false]
  dsimp only
  rw [hupdate]
  rfl

theorem Setting.kept {properties ps : List (Marsh.Property Text (Value F D))}
    (h : Setting properties ps) : Setting properties (allKept ps) := by
  obtain ⟨houtline, hstorable, hagain⟩ := allKept_again ps h.storable h.writable
  exact ⟨houtline.trans h.outline, hstorable, h.again, by rw [hagain]; exact h.again⟩

/-! ### Saving to a file that is there -/

theorem Readable.condense {s : Text} (hs : Readable s) : Readable (condense s) := by
  refine ⟨condense_utf8 hs.utf8, fun c hc => ?_⟩
  rcases mem_condense hc with hmem | rfl
  · exact hs.clean c hmem
  · decide

/-- The description that an update finds in the file, or fills in there. -/
theorem condense_filled {d : String} (hd : Readable d.toList) (update : Bool) :
    let d' := String.ofList (condense d.toList)
    let d'' := if update ∧ d' = "" then d else d'
    String.ofList (condense d''.toList) = d' ∧ Readable d''.toList := by
  intro d' d''
  have hfile : String.ofList (condense d'.toList) = d' := by
    rw [String.toList_ofList, condense_condense hd.utf8]
  by_cases hfill : update ∧ d' = ""
  · have hd'' : d'' = d := if_pos hfill
    rw [hd'']
    exact ⟨rfl, hd⟩
  · have hd'' : d'' = d' := if_neg hfill
    rw [hd'']
    refine ⟨hfile, ?_⟩
    rw [String.toList_ofList]
    exact hd.condense

/-- What is in the file afterwards: it can be written, and is read as the current values are. -/
structure Refiled (p r : Marsh.Property Text (Value F D)) : Prop where
  filed : filed r = filed p
  storable : Storable r
  writable : (ofProperty r).Writable

mutual

theorem refiled_given (update : Bool) : (p p' : Marsh.Property Text (Value F D)) → Storable p →
    Storable p' → (ofProperty p).Writable → outline p' = outline p →
      Alike (filed p') p ∧ Refiled p (given update (filed p') p)
  | .leaf n d type v, p', hs, _, ⟨hn, hd, hv⟩, ho => by
    cases p' with
    | bag => simp [outline] at ho
    | leaf n' d' type' v' =>
      simp only [outline, Marsh.Property.leaf.injEq, and_true] at ho
      obtain ⟨rfl, rfl, rfl⟩ := ho
      obtain ⟨hcondense, hreadable⟩ := condense_filled hd update
      exact ⟨by simp [filed, Alike], congrArg (Marsh.Property.leaf n' · type' v.normal) hcondense,
        hs, hn, hreadable, hv⟩
  | .bag n d type ps, p', ⟨htype, hs⟩, hs', ⟨hn, hd, ht, hw⟩, ho => by
    cases p' with
    | leaf => simp [outline] at ho
    | bag n' d' type' ps' =>
      simp only [outline, Marsh.Property.bag.injEq] at ho
      obtain ⟨rfl, rfl, rfl, ho⟩ := ho
      obtain ⟨hcondense, hreadable⟩ := condense_filled hd update
      obtain ⟨halike, hfiled, hstorable, hwritable⟩ :=
        allRefiled_given update ps ps' hs hs'.2 hw ho
      refine ⟨by simp [filed, Alike, htype, halike], ?_, ⟨htype, hstorable⟩, hn, hreadable, ht,
        hwritable⟩
      show Marsh.Property.bag n' _ type' (allFiled (allGiven update (allFiled ps') ps)) = _
      rw [hfiled]
      exact congrArg (Marsh.Property.bag n' · type' (allFiled ps)) hcondense

theorem allRefiled_given (update : Bool) : (ps ps' : List (Marsh.Property Text (Value F D))) →
    AllStorable ps → AllStorable ps' → AllWritable (ofProperties ps) →
    outlines ps' = outlines ps →
      AllAlike (allFiled ps') ps ∧
        allFiled (allGiven update (allFiled ps') ps) = allFiled ps ∧
        AllStorable (allGiven update (allFiled ps') ps) ∧
        AllWritable (ofProperties (allGiven update (allFiled ps') ps))
  | [], ps', _, _, _, ho => by
    cases ps' with
    | nil => exact ⟨by simp [allFiled, AllAlike], by simp [allFiled, allGiven],
        by simp [allFiled, allGiven, AllStorable], by simp [allFiled, allGiven, ofProperties,
          AllWritable]⟩
    | cons => simp [outlines] at ho
  | p :: ps, ps', ⟨hp, hps⟩, hs', ⟨hwp, hwps⟩, ho => by
    cases ps' with
    | nil => simp [outlines] at ho
    | cons p' ps' =>
      simp only [outlines, List.cons.injEq] at ho
      obtain ⟨hfirst, hrefiled⟩ := refiled_given update p p' hp hs'.1 hwp ho.1
      obtain ⟨halike, hfiled, hstorable, hwritable⟩ :=
        allRefiled_given update ps ps' hps hs'.2 hwps ho.2
      exact ⟨by simp [allFiled, AllAlike, hfirst, halike],
        by simp [allFiled, allGiven, hrefiled.filed, hfiled],
        ⟨hrefiled.storable, hstorable⟩, hrefiled.writable, hwritable⟩

end

/-! ### Runs -/

variable {properties : List (Marsh.Property Text (Value F D))}

/-- The names are still distinct. -/
theorem Setting.apart {ps : List (Marsh.Property Text (Value F D))} (h : Setting properties ps)
    (hp : Apart (· ≠ ·) (.bag "" "" "PropertyBag" properties)) :
    Apart (· ≠ ·) (.bag "" "" "PropertyBag" ps) := by
  have hfile : Alike (.bag "" "" "PropertyBag" properties)
      (.bag "" "" "PropertyBag" (allFiled ps)) := by
    simp [Alike, (allGiven_filed false ps properties h.storable h.outline.symm).1]
  have hback : Alike (.bag "" "" "PropertyBag" (allFiled ps)) (.bag "" "" "PropertyBag" ps) := by
    simp [Alike, (allRefiled_given false ps ps h.storable h.storable h.writable rfl).1]
  exact Alike.apart _ _ hback (Alike.apart _ _ hfile hp)

section
variable (ts : TypeSystem ι Text (Value F D)) {fl : FloatFormat F} {db : FloatFormat D}

/-- The file holds the values that are remembered, if any are. -/
def Recorded (fl : FloatFormat F) (db : FloatFormat D)
    (properties : List (Marsh.Property Text (Value F D))) :
    Option Text → Option (List (Marsh.Property Text (Value F D))) → Prop
  | none, none => True
  | some file, some ps => ∃ snapshot, ps = allKept snapshot ∧ Setting properties snapshot ∧
      parse fl db file = .parsed ⟨"PropertyBag", allFiled snapshot⟩
  | _, _ => False

structure Remembers (fl : FloatFormat F) (db : FloatFormat D)
    (properties : List (Marsh.Property Text (Value F D))) (s : Session F D) (m : Memory F D) :
    Prop where
  current : s.properties = ⟨"PropertyBag", m.current⟩
  setting : Setting properties m.current
  recorded : Recorded fl db properties s.file m.saved

theorem Setting.recorded {ps : List (Marsh.Property Text (Value F D))}
    (h : Setting properties ps) :
    Recorded fl db properties (some (store fl db ⟨"PropertyBag", ps⟩)) (some (allKept ps)) :=
  ⟨ps, rfl, h, parse_store fl db h.writable h.storable⟩

/-- The two ways to save differ in the descriptions only, and a file does not show that. -/
theorem Setting.refiled {ps snapshot : List (Marsh.Property Text (Value F D))}
    (h : Setting properties ps) (hf : Setting properties snapshot)
    (hp : Apart (· ≠ ·) (.bag "" "" "PropertyBag" properties)) (all : Bool) :
    (if all then ts.updateProperties ⟨"PropertyBag", allFiled snapshot⟩ ⟨"PropertyBag", ps⟩
      else ts.refreshProperties ⟨"PropertyBag", allFiled snapshot⟩ ⟨"PropertyBag", ps⟩ false) =
        (⟨"PropertyBag", allGiven all (allFiled snapshot) ps⟩, .ok) := by
  have halike : AllAlike (allFiled snapshot) ps :=
    (allRefiled_given all ps snapshot h.storable hf.storable h.writable
      (hf.outline.trans h.outline.symm)).1
  have hapart := h.apart hp
  cases all with
  | true =>
    simp only [Apart] at hapart
    exact updateWith_alike ts (allFiled snapshot) ps halike hapart.1 hapart.2
  | false =>
    have hdistinct := hapart.distinct
    simp only [Distinct] at hdistinct
    have hrefresh := refreshList_alike ts false [] _ ps halike hdistinct.1 hdistinct.2
    rw [List.nil_append, List.length_nil] at hrefresh
    rw [if_neg Bool.false_ne_true, refreshProperties_of_plain (not_typed ts), hrefresh]

/-- There is no file, or it holds a snapshot of the properties. -/
theorem Remembers.file {s : Session F D} {m : Memory F D} (h : Remembers fl db properties s m) :
    (s.file = none ∧ m.saved = none) ∨
      ∃ file snapshot, s.file = some file ∧ m.saved = some (allKept snapshot) ∧
        Setting properties snapshot ∧
          parse fl db file = .parsed ⟨"PropertyBag", allFiled snapshot⟩ := by
  have hrecorded := h.recorded
  cases hfile : s.file with
  | none =>
    cases hsaved : m.saved with
    | none => exact .inl ⟨rfl, rfl⟩
    | some ps =>
      rw [hfile, hsaved] at hrecorded
      exact hrecorded.elim
  | some file =>
    cases hsaved : m.saved with
    | none =>
      rw [hfile, hsaved] at hrecorded
      exact hrecorded.elim
    | some ps =>
      rw [hfile, hsaved] at hrecorded
      obtain ⟨snapshot, rfl, hsnapshot, hparse⟩ := hrecorded
      exact .inr ⟨file, snapshot, rfl, rfl, hsnapshot, hparse⟩

theorem Remembers.save {s : Session F D} {m : Memory F D} (h : Remembers fl db properties s m)
    (hp : Apart (· ≠ ·) (.bag "" "" "PropertyBag" properties)) (all : Bool) :
    ∃ file, s.save ts fl db all = ({ s with file := some file }, .ok) ∧
      Recorded fl db properties (some file) (some (allKept m.current)) := by
  rcases h.file with ⟨hfile, -⟩ | ⟨file, snapshot, hfile, -, hsnapshot, hparse⟩
  · refine ⟨store fl db s.properties, ?_, ?_⟩
    · unfold Session.save
      rw [hfile]
      rfl
    · rw [h.current]
      exact h.setting.recorded
  · have hrefiled := h.setting.refiled ts hsnapshot hp all
    obtain ⟨-, hfiled, hstorable, hwritable⟩ := allRefiled_given all m.current snapshot
      h.setting.storable hsnapshot.storable h.setting.writable
        (hsnapshot.outline.trans h.setting.outline.symm)
    refine ⟨store fl db ⟨"PropertyBag", allGiven all (allFiled snapshot) m.current⟩, ?_,
      m.current, rfl, h.setting, ?_⟩
    · unfold Session.save
      rw [hfile]
      dsimp only
      rw [hparse, h.current]
      dsimp only
      rw [hrefiled, if_pos rfl]
    · rw [parse_store fl db hwritable hstorable]
      dsimp only
      rw [hfiled]

theorem Remembers.configure {s : Session F D} {m : Memory F D}
    (h : Remembers fl db properties s m)
    (hp : Apart (· ≠ ·) (.bag "" "" "PropertyBag" properties)) (all : Bool) :
    PropertyLoader.configure ts (s.opened fl db) all s.properties =
      (⟨"PropertyBag", m.saved.getD m.current⟩, m.saved.isSome) := by
  unfold Session.opened
  rw [h.current]
  rcases h.file with ⟨hfile, hsaved⟩ | ⟨file, snapshot, hfile, hsaved, hsnapshot, hparse⟩
  · rw [hfile, hsaved]
    rfl
  · rw [hfile, hsaved]
    dsimp only
    rw [hparse]
    exact configure_file ts hsnapshot.storable (hsnapshot.apart hp).distinct rfl
      (h.setting.outline.trans hsnapshot.outline.symm) all

theorem Remembers.load {s : Session F D} {m : Memory F D} (h : Remembers fl db properties s m)
    (hp : Apart (· ≠ ·) (.bag "" "" "PropertyBag" properties)) :
    PropertyLoader.load ts (s.opened fl db) s.properties =
      (⟨"PropertyBag", m.saved.getD m.current⟩, m.saved.isSome) := by
  unfold Session.opened
  rw [h.current]
  rcases h.file with ⟨hfile, hsaved⟩ | ⟨file, snapshot, hfile, hsaved, hsnapshot, hparse⟩
  · rw [hfile, hsaved]
    rfl
  · rw [hfile, hsaved]
    dsimp only
    rw [hparse]
    exact load_file ts hsnapshot.storable hsnapshot.writable (hsnapshot.apart hp) rfl
      (h.setting.outline.trans hsnapshot.outline.symm)

/-- What is read from the file is a setting again. -/
theorem Remembers.taken {s : Session F D} {m : Memory F D} (h : Remembers fl db properties s m) :
    Remembers fl db properties { s with properties := ⟨"PropertyBag", m.saved.getD m.current⟩ }
      { m with current := m.saved.getD m.current } := by
  refine ⟨rfl, ?_, h.recorded⟩
  rcases h.file with ⟨-, hsaved⟩ | ⟨-, snapshot, -, hsaved, hsnapshot, -⟩
  · rw [hsaved]
    exact h.setting
  · rw [hsaved]
    exact hsnapshot.kept

/-- One action. -/
theorem Remembers.step {s : Session F D} {m : Memory F D} (h : Remembers fl db properties s m)
    (hp : Apart (· ≠ ·) (.bag "" "" "PropertyBag" properties)) {a : Action F D}
    (ha : Allowed properties a) :
    Remembers fl db properties (s.perform ts fl db a).1 (m.perform a).1 ∧
      (s.perform ts fl db a).2 = (m.perform a).2 := by
  cases a with
  | assign ps => exact ⟨⟨by simp [Session.perform, Memory.perform, h.current], ha, h.recorded⟩, rfl⟩
  | store =>
    refine ⟨⟨h.current, h.setting, ?_⟩, rfl⟩
    show Recorded fl db properties (some (Cpf.store fl db s.properties)) (some (allKept m.current))
    rw [h.current]
    exact h.setting.recorded
  | save all =>
    obtain ⟨file, hsave, hfile⟩ := h.save ts hp all
    simp only [Session.perform, Memory.perform, hsave]
    exact ⟨⟨h.current, h.setting, hfile⟩, rfl⟩
  | configure all =>
    simp only [Session.perform, Memory.perform, h.configure ts hp all]
    exact ⟨h.taken, trivial⟩
  | load =>
    simp only [Session.perform, Memory.perform, h.load ts hp]
    exact ⟨h.taken, trivial⟩

/-- Any number of actions. -/
theorem Remembers.run (hp : Apart (· ≠ ·) (.bag "" "" "PropertyBag" properties))
    {actions : List (Action F D)} (ha : ∀ a ∈ actions, Allowed properties a) {s : Session F D}
    {m : Memory F D} (h : Remembers fl db properties s m) :
    Remembers fl db properties (run (fun s a => (s.perform ts fl db a).1) s actions)
      (run (fun m a => (m.perform a).1) m actions) := by
  induction actions generalizing s m with
  | nil => exact h
  | cons a actions ih =>
    have hstep := (h.step ts hp (ha a List.mem_cons_self)).1
    exact ih (fun b hb => ha b (List.mem_cons_of_mem a hb)) hstep

end

end OrocosRtt.Marsh.Cpf
