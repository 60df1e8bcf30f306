import OrocosRtt.Marsh.Restore

/-! Loading a file into the properties of a task, with a backup for the case of a failure. -/
namespace OrocosRtt.Marsh

open TypeSystem

variable {ι τ V : Type} [DecidableEq ι] [DecidableEq τ]

/-- What opening and parsing a file comes to. -/
inductive File (τ V : Type) where
  | unopened
  | unparsed
  | thrown
  | parsed (propbag : PropertyBag τ V)

/-- The backup of a bag. -/
def backup (b : PropertyBag τ V) : PropertyBag τ V :=
  copyProperties ⟨"PropertyBag", []⟩ b

namespace PropertyLoader

variable (ts : TypeSystem ι τ V)

/-- The properties afterwards, and what is returned. An exception is caught, and nothing is restored
then. -/
def configure (file : File τ V) (all : Bool) (properties : PropertyBag τ V) :
    PropertyBag τ V × Bool :=
  match file with
  | .unopened | .unparsed | .thrown => (properties, false)
  | .parsed propbag =>
    let composed := ts.composePropertyBag propbag
    if composed.2 = .ok then
      let r := ts.refreshProperties properties composed.1 all
      match r.2 with
      | .ok => (r.1, true)
      | .failed => ((ts.refreshProperties r.1 (backup properties) false).1, false)
      | .thrown => (r.1, false)
    else (properties, false)

def load (file : File τ V) (properties : PropertyBag τ V) : PropertyBag τ V × Bool :=
  match file with
  | .unopened | .unparsed | .thrown => (properties, false)
  | .parsed propbag =>
    let composed := ts.composePropertyBag propbag
    if composed.2 = .ok then
      let r := ts.refreshProperties properties composed.1 false
      match r.2 with
      | .ok =>
        -- no backup is used where this fails
        let r' := ts.updateProperties r.1 composed.1
        (r'.1, r'.2 = .ok)
      | .failed => ((ts.refreshProperties r.1 (backup properties) false).1, false)
      | .thrown => (r.1, false)
    else (properties, false)

end PropertyLoader

/-- An operation on a bag that changes nothing where it returns `false`. -/
def Atomic (operation : PropertyBag τ V → PropertyBag τ V × Bool) (b : PropertyBag τ V) : Prop :=
  (operation b).2 = false → (operation b).1 = b

section

variable (ts : TypeSystem ι τ V)

/-- The properties that `updateOrRefreshProperty` compares are of one type: each property has the
type of the first one of its name. -/
def Uniform (b : PropertyBag τ V) : Prop :=
  FitsAll ts b.properties 0 b.properties

/-- A refresh that fails gives no property behind a typed bag a new value, and each property in front
has the value of the first one of its name. A refresh that ends with an exception gives no property
a new value. -/
def Spared (file : File τ V) (allprops : Bool) (b : PropertyBag τ V) : Prop :=
  match file with
  | .unopened | .unparsed | .thrown => True
  | .parsed propbag =>
    let composed := ts.composePropertyBag propbag
    composed.2 = .ok → ts.typed b.type = false →
      match (ts.refreshProperties b composed.1 allprops).2 with
      | .ok => True
      | .failed => SameAll ts b.properties 0 b.properties ∧
          KeepsAll ts false composed.1.properties 0 b.properties
      | .thrown => KeepsAll ts true composed.1.properties 0 b.properties

end

variable {ts : TypeSystem ι τ V}

/-- A typed bag takes nothing from a plain one. -/
theorem refreshProperties_of_typed {b source : PropertyBag τ V} {allprops : Bool}
    (ht : ts.typed b.type = true) (hs : source.type = "PropertyBag") :
    ts.refreshProperties b source allprops = (b, .failed) := by
  simp [refreshProperties, hs, differ_copy, ht]

/-- A plain bag is refreshed property by property. -/
theorem refreshProperties_of_plain {b source : PropertyBag τ V} {allprops : Bool}
    (ht : ts.typed b.type = false) :
    ts.refreshProperties b source allprops =
      (⟨b.type, (ts.refreshList allprops source.properties 0 b.properties).1⟩,
        (ts.refreshList allprops source.properties 0 b.properties).2) := by
  simp [refreshProperties, differ, ht]

/-- What the refresh from the backup gives back. -/
theorem restore_backup_iff {b source : PropertyBag τ V} {allprops : Bool}
    (hu : Uniform ts b) (ht : ts.typed b.type = false) :
    (ts.refreshProperties (ts.refreshProperties b source allprops).1 (backup b) false).1 = b ↔
      SameAll ts b.properties 0 b.properties ∧
        KeepsAll ts false source.properties 0 b.properties := by
  obtain ⟨type, ps⟩ := b
  have ho : outlines (ts.refreshList allprops source.properties 0 ps).1 = outlines ps :=
    outlines_refresh allprops source.properties 0 ps
  have h := (restoreList_spec false ps 0 ps _ hu ho).2
  rw [agreeBehind_refresh_iff] at h
  have hd (type' : String) : ts.differ type type' = false := by simp_all [differ]
  simpa [refreshProperties, hd, backup, copyProperties] using h

/-- A failing refresh from plain properties that is undone from the backup leaves the bag as it was
under exactly the stated condition. -/
theorem undone_iff {b source : PropertyBag τ V} (allprops : Bool) (hu : Uniform ts b)
    (hs : source.type = "PropertyBag") :
    (ts.refreshProperties (ts.refreshProperties b source allprops).1 (backup b) false).1 = b ↔
      (ts.typed b.type = false → SameAll ts b.properties 0 b.properties ∧
        KeepsAll ts false source.properties 0 b.properties) := by
  cases ht : ts.typed b.type with
  | true => simp [refreshProperties_of_typed ht hs, refreshProperties_of_typed ht, backup,
      copyProperties]
  | false => simpa using restore_backup_iff hu ht

/-- What a refresh leaves as it is. -/
theorem kept_iff (b : PropertyBag τ V) {source : PropertyBag τ V} (allprops : Bool)
    (hs : source.type = "PropertyBag") :
    (ts.refreshProperties b source allprops).1 = b ↔
      (ts.typed b.type = false → KeepsAll ts true source.properties 0 b.properties) := by
  cases ht : ts.typed b.type with
  | true => simp [refreshProperties_of_typed ht hs]
  | false =>
    obtain ⟨type, ps⟩ := b
    simp [refreshProperties_of_plain ht, refreshList_eq_iff]

theorem configure_atomic_iff {file : File τ V} {all : Bool} {b : PropertyBag τ V}
    (hu : Uniform ts b) :
    Atomic (PropertyLoader.configure ts file all) b ↔ Spared ts file all b := by
  cases file with
  | unopened | unparsed | thrown => simp [Atomic, PropertyLoader.configure, Spared]
  | parsed propbag =>
    simp only [Atomic, PropertyLoader.configure, Spared]
    by_cases hc : (ts.composePropertyBag propbag).2 = .ok
    · have hs : (ts.composePropertyBag propbag).1.type = "PropertyBag" := rfl
      have hundone := undone_iff all hu hs
      have hkept := @kept_iff _ _ _ _ _ ts b _ all hs
      cases ho : (ts.refreshProperties b (ts.composePropertyBag propbag).1 all).2 with
      | ok => simp [hc]
      | failed => simpa [hc] using hundone
      | thrown => simpa [hc] using hkept
    · simp [hc]

/-- The names in a bag are distinct, and all bags inside are plain ones: then nothing is changed, if
there is no exception. -/
theorem configure_atomic {file : File τ V} {all : Bool} {b : PropertyBag τ V}
    (hd : Distinct (.bag "" "" b.type b.properties)) (ht : anyTyped ts b.properties = false)
    (he : ∀ source, (ts.refreshProperties b source all).2 ≠ .thrown) :
    Atomic (PropertyLoader.configure ts file all) b := by
  simp only [Distinct] at hd
  have hself := @fitsAll_self _ _ _ _ ts [] b.properties hd.1 hd.2
  simp only [List.nil_append, List.length_nil] at hself
  apply (configure_atomic_iff hself.1).mpr
  cases file with
  | unopened | unparsed | thrown => trivial
  | parsed propbag =>
    intro _ _
    cases ho : (ts.refreshProperties b (ts.composePropertyBag propbag).1 all).2 with
    | ok => trivial
    | failed => exact ⟨hself.2, keepsAll_of_not_typed _ _ _ ht⟩
    | thrown => exact absurd ho (he _)

end OrocosRtt.Marsh
