import OrocosRtt.Buffer.Interface
import OrocosRtt.Library.Run

/-! A channel element that stores a single sample, with one thread that writes and one that reads. The
data object is atomic; the flags of the element are not part of it. -/
namespace OrocosRtt.Channel

open Library.Run
open OrocosRtt.Buffer (FlowStatus)

/-- Where the writer is in `write`, before its next access. -/
inductive Writing (α : Type) where
  | set (sample : α)
  | written
  | mread
  deriving DecidableEq

/-- Where the reader is in `read`; `version` tells which sample it has copied. -/
inductive Reading (α : Type) where
  | written (copyOldData : Bool)
  | mread (copyOldData : Bool)
  | get
  | mark (sample : α) (version : ℕ)
  | getOld
  deriving DecidableEq

/-- The reader has found `mread` cleared and did not set it yet. -/
def Reading.tested {α : Type} : Reading α → Prop
  | .get | .mark .. => True
  | .written _ | .mread _ | .getOld => False

structure ChannelDataElement (α : Type) where
  written : Bool
  mread : Bool
  /-- What the data object holds. -/
  data : α
  writer : Option (Writing α)
  reader : Option (Reading α)
  /-- How many samples were given to the data object. -/
  version : ℕ
  /-- Which sample the reader was given as a new one. -/
  given : ℕ
  /-- The results of all reads; a sample that is not copied is `none`. -/
  reads : List (FlowStatus × Option α)

/-- A turn of one of the two threads, with what it calls when it is at rest. -/
inductive Turn (α : Type) where
  | writer (sample : α)
  | reader (copyOldData : Bool)

namespace ChannelDataElement

variable {α : Type}

def create (sample : α) : ChannelDataElement α where
  written := false
  mread := false
  data := sample
  writer := none
  reader := none
  version := 0
  given := 0
  reads := []

def write (sample : α) (c : ChannelDataElement α) : ChannelDataElement α :=
  match c.writer with
  | none => { c with writer := some (.set sample) }
  | some (.set s) => { c with data := s, version := c.version + 1, writer := some .written }
  | some .written => { c with written := true, writer := some .mread }
  | some .mread => { c with mread := false, writer := none }

/-- `read` returns. -/
def return' (status : FlowStatus) (sample : Option α) (c : ChannelDataElement α) :
    ChannelDataElement α :=
  { c with reader := none, reads := c.reads ++ [(status, sample)] }

def read (copyOldData : Bool) (c : ChannelDataElement α) : ChannelDataElement α :=
  match c.reader with
  | none => { c with reader := some (.written copyOldData) }
  | some (.written copy) =>
    if c.written then { c with reader := some (.mread copy) } else c.return' .noData none
  | some (.mread copy) =>
    if c.mread then
      if copy then { c with reader := some .getOld } else c.return' .oldData none
    else { c with reader := some .get }
  | some .get => { c with reader := some (.mark c.data c.version) }
  | some (.mark sample version) =>
    { c with mread := true, given := version }.return' .newData (some sample)
  | some .getOld => c.return' .oldData (some c.data)

def step (c : ChannelDataElement α) (o : Turn α) : ChannelDataElement α :=
  match o with
  | .writer sample => c.write sample
  | .reader copyOldData => c.read copyOldData

/-- When no call is under way and the last sample was not given to the reader, its next call gives it
that sample, as a new one. -/
def Delivers (c : ChannelDataElement α) : Prop :=
  c.writer = none → c.reader = none → c.given ≠ c.version → ∀ copyOldData,
    (run step c (List.replicate 5 (.reader copyOldData))).reads =
      c.reads ++ [(.newData, some c.data)]

/-- When the reader sets `mread` and no call to `write` is under way, it has copied the last sample. -/
def current (c : ChannelDataElement α) (o : Turn α) : Prop :=
  match o, c.reader with
  | .reader _, some (.mark _ version) => c.writer = none → version = c.version
  | _, _ => True

instance (c : ChannelDataElement α) : Decidable (c.writer = none) :=
  match h : c.writer with
  | none => .isTrue rfl
  | some _ => .isFalse (by simp)

instance (c : ChannelDataElement α) (o : Turn α) : Decidable (c.current o) := by
  unfold current
  split <;> infer_instance

/-- While the last sample was not given to the reader, it is announced, unless a call to `write` is
about to do so. -/
structure Announced (c : ChannelDataElement α) : Prop where
  announced : c.writer = none → c.given ≠ c.version → c.written = true ∧ c.mread = false
  started : c.writer = some .mread → c.written = true
  reader : ∀ r, c.reader = some r → r.tested → c.mread = false

theorem create_announced (sample : α) : (create sample).Announced :=
  ⟨fun _ h => absurd rfl h, nofun, fun _ => nofun⟩

/-- A read that starts when a sample is announced gives it to the reader. -/
theorem read_announced {c : ChannelDataElement α} (hr : c.reader = none) (hw : c.written = true)
    (hm : c.mread = false) (copyOldData : Bool) :
    (run step c (List.replicate 5 (.reader copyOldData))).reads =
      c.reads ++ [(.newData, some c.data)] := by
  simp [List.replicate, run, step, read, return', hr, hw, hm]

/-- A read that starts when `mread` is set gives no new sample. -/
theorem read_marked {c : ChannelDataElement α} (hr : c.reader = none) (hm : c.mread = true) :
    (run step c (List.replicate 5 (.reader false))).reads ≠
      c.reads ++ [(.newData, some c.data)] := by
  cases hw : c.written with
  | true => simp [List.replicate, run, step, read, return', hr, hw, hm]
  | false => simp [List.replicate, run, step, read, return', hr, hw]

theorem Announced.delivers {c : ChannelDataElement α} (h : c.Announced) : c.Delivers := by
  intro hw hr hg copyOldData
  obtain ⟨hwritten, hmread⟩ := h.announced hw hg
  exact read_announced hr hwritten hmread copyOldData

theorem Announced.write {c : ChannelDataElement α} (h : c.Announced) (sample : α) :
    (c.write sample).Announced := by
  rw [ChannelDataElement.write]
  split
  · exact ⟨nofun, nofun, h.reader⟩
  · exact ⟨nofun, nofun, h.reader⟩
  · exact ⟨nofun, fun _ => rfl, h.reader⟩
  · next hw => exact ⟨fun _ _ => ⟨h.started hw, rfl⟩, nofun, fun _ _ _ => rfl⟩

theorem Announced.return' {c : ChannelDataElement α} (h : c.Announced) (status : FlowStatus)
    (sample : Option α) : (c.return' status sample).Announced :=
  ⟨h.announced, h.started, fun _ => nofun⟩

/-- The reader goes on. -/
theorem Announced.goes {c : ChannelDataElement α} (h : c.Announced) {r : Reading α}
    (hr : r.tested → c.mread = false) : { c with reader := some r }.Announced := by
  refine ⟨h.announced, h.started, ?_⟩
  rintro _ ⟨⟩
  exact hr

theorem Announced.read {c : ChannelDataElement α} (h : c.Announced) (copyOldData : Bool)
    (hok : c.current (.reader copyOldData)) : (c.read copyOldData).Announced := by
  rw [ChannelDataElement.read]
  split
  · exact h.goes nofun
  · split
    · exact h.goes nofun
    · exact h.return' .noData none
  · split
    · split
      · exact h.goes nofun
      · exact h.return' .oldData none
    · next hm => exact h.goes fun _ => by simpa using hm
  · next hr => exact h.goes fun _ => h.reader _ hr trivial
  · next sample version hr =>
    simp only [current, hr] at hok
    exact ⟨fun hw hg => absurd (hok hw) hg, h.started, fun _ => nofun⟩
  · exact h.return' .oldData (some c.data)

theorem Announced.step {c : ChannelDataElement α} (h : c.Announced) {o : Turn α}
    (hok : c.current o) : (c.step o).Announced := by
  cases o with
  | writer sample => exact h.write sample
  | reader copyOldData => exact h.read copyOldData hok

/-- A turn after which the next read does not give the last sample is one that sets `mread` too late. -/
theorem Announced.delivers_iff {c : ChannelDataElement α} (h : c.Announced) (o : Turn α) :
    (c.step o).Delivers ↔ c.current o := by
  constructor
  · intro hd
    cases o with
    | writer sample => trivial
    | reader copyOldData =>
      unfold current
      split
      · next sample version hreader hr =>
        intro hw
        by_contra hne
        have hstep : c.step (.reader copyOldData) =
            { c with mread := true, given := version }.return' .newData (some sample) := by
          rw [ChannelDataElement.step, ChannelDataElement.read, hr]
        rw [hstep] at hd
        exact read_marked rfl rfl (hd hw rfl hne false)
      · trivial
  · exact fun hok => (h.step hok).delivers

/-- In every interleaving of a writer and a reader: after each turn the next read will deliver the last
sample, if and only if the reader sets `mread` for the last sample only. -/
theorem no_update_lost_iff (sample : α) (os : List (Turn α)) :
    Along step (fun c o => (c.step o).Delivers) (create sample) os ↔
      Along step ChannelDataElement.current (create sample) os :=
  along_iff_of_invariant (fun _ _ h hok => h.step hok) (fun _ o h => h.delivers_iff o)
    (create_announced sample)

/-- The reader has copied the first sample when the second one is written, and sets `mread` afterwards:
the second one is never a new one. -/
theorem update_lost :
    let os : List (Turn ℕ) := List.replicate 4 (.writer 1) ++ List.replicate 4 (.reader true) ++
      List.replicate 4 (.writer 2) ++ [.reader true]
    ¬ Along step (fun c o => (c.step o).Delivers) (create 0) os ∧
      (run step (create 0) (os ++ List.replicate 5 (.reader true))).reads =
        [(.newData, some 1), (.oldData, some 2)] := by
  refine ⟨fun h => ?_, by decide⟩
  have hok := (no_update_lost_iff 0 _).mp h
  revert hok
  decide

end ChannelDataElement
end OrocosRtt.Channel
