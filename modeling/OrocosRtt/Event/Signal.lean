import Mathlib.Data.List.Basic
import Mathlib.Data.List.Nodup
import OrocosRtt.Library.Run

/-! A signal and its connections: the list they are in (a `ListLockFree`, used by one thread), and
the emission that goes over a snapshot of the list while its handlers connect, disconnect and
destroy. -/
namespace OrocosRtt.Event

/-- What `emit` and the handles need of a `ListLockFree` that one thread uses. -/
structure ConnectionList where
  data : List ℕ
  capacity : ℕ
  required : ℕ
  deriving Repr

namespace ConnectionList

def create (lsize : ℕ) : ConnectionList := ⟨[], lsize, lsize⟩

def reserve (lsize : ℕ) (l : ConnectionList) : ConnectionList :=
  if lsize ≤ l.capacity then l else { l with capacity := lsize }

def grow (items : ℕ) (l : ConnectionList) : ConnectionList :=
  let l := { l with required := l.required + items }
  if l.capacity < l.required then l.reserve (l.required * 2) else l

def shrink (items : ℕ) (l : ConnectionList) : ConnectionList :=
  { l with required := l.required - items }

/-- False when the list is full. -/
def append (item : ℕ) (l : ConnectionList) : Bool × ConnectionList :=
  if l.data.length = l.capacity then (false, l) else (true, { l with data := l.data ++ [item] })

def erase (item : ℕ) (l : ConnectionList) : ConnectionList := { l with data := l.data.erase item }

end ConnectionList

/-- `hasSig`: `m_sig` is not null. -/
structure Connection where
  mconnected : Bool
  hasSig : Bool
  deriving DecidableEq, Repr

namespace Connection

def connected (c : Connection) : Bool := c.mconnected && c.hasSig

def connect (c : Connection) : Connection :=
  if c.hasSig = false then c else { c with mconnected := true }

def disconnect (c : Connection) : Connection :=
  if c.hasSig = false then c else { c with mconnected := false }

end Connection

/-- A handler's turn in an emission: whether its connection was connected then, and whether its
function was called. -/
structure Turn where
  conn : ℕ
  connected : Bool
  called : Bool
  deriving DecidableEq, Repr

/-- `connected` are the connections that were connected at the begin of the emission, `rest` what
is left of the list that it goes over. -/
structure Emission where
  connected : List ℕ
  rest : List ℕ
  turns : List Turn
  deriving Repr

/-- Connections are numbered in the order they were made. `refused` are those for which there was
no place in the list. -/
structure Signal where
  conns : ℕ → Connection
  made : ℕ
  mconnections : ConnectionList
  refused : List ℕ
  emission : Option Emission
  finished : List Emission

namespace Signal

def create : Signal where
  conns _ := ⟨false, false⟩
  made := 0
  mconnections := .create 4
  refused := []
  emission := none
  finished := []

def setConn (c : ℕ) (x : Connection) (s : Signal) : Signal :=
  { s with conns := fun d => if d = c then x else s.conns d }

/-- `conn_setup` does not look at what `append` returns. -/
def connSetup (c : ℕ) (s : Signal) : Signal :=
  let r := (s.mconnections.grow 1).append c
  { s with
    mconnections := r.2
    refused := if r.1 then s.refused else c :: s.refused }

def setup (s : Signal) : Signal :=
  { s.setConn s.made ⟨false, true⟩ with made := s.made + 1 }.connSetup s.made

def connDisconnect (c : ℕ) (s : Signal) : Signal :=
  { s with mconnections := s.mconnections.erase c }

def connDestroy (c : ℕ) (s : Signal) : Signal :=
  let s := s.connDisconnect c
  { s with mconnections := s.mconnections.shrink 1 }

/-- `Handle::connect` -/
def connect (c : ℕ) (s : Signal) : Signal :=
  if (s.conns c).connected then s else s.setConn c (s.conns c).connect

/-- `Handle::disconnect`, and the end of a `ScopedHandle` -/
def disconnect (c : ℕ) (s : Signal) : Signal :=
  if (s.conns c).connected then s.setConn c (s.conns c).disconnect else s

/-- `ConnectionBase::destroy`, and the end of a `CleanupHandle` -/
def destroy (c : ℕ) (s : Signal) : Signal :=
  if (s.conns c).hasSig = false then s else (s.setConn c ⟨false, false⟩).connDestroy c

def disconnectAll (s : Signal) : Signal :=
  s.mconnections.data.foldl (fun s c => s.setConn c (s.conns c).disconnect) s

/-- `while ( !mconnections.empty() ) mconnections.front()->destroy();`, for so many rounds -/
def destroyRounds : ℕ → Signal → Signal
  | 0, s => s
  | n + 1, s =>
    match s.mconnections.data with
    | [] => s
    | c :: _ => destroyRounds n (s.destroy c)

def destroyAll (s : Signal) : Signal := s.destroyRounds s.mconnections.data.length

def reserve (lsize : ℕ) (s : Signal) : Signal :=
  { s with mconnections := s.mconnections.reserve lsize }

def isConnected (s : Signal) (c : ℕ) : Bool := (s.conns c).connected

/-- `emit` up to the first handler: `apply` holds on to the list as it is. -/
def emit (s : Signal) : Signal :=
  { s with emission := some {
      connected := (List.range s.made).filter s.isConnected
      rest := s.mconnections.data
      turns := [] } }

/-- The next handler of the emission; after the last one it is over. -/
def turn (e : Emission) (s : Signal) : Signal :=
  match e.rest with
  | [] => { s with emission := none, finished := e :: s.finished }
  | c :: rest =>
    { s with emission := some { e with
        rest := rest
        turns := e.turns ++ [⟨c, s.isConnected c, (s.conns c).mconnected⟩] } }

/-- What the program does with the signal; between two turns of an emission it is the handler that
does it. -/
inductive Action where
  | setup
  | connect (c : ℕ)
  | disconnect (c : ℕ)
  | destroy (c : ℕ)
  | disconnectAll
  | destroyAll
  | reserve (lsize : ℕ)
  | emit
  | turn
  deriving DecidableEq, Repr

def step (s : Signal) (a : Action) : Signal :=
  match a with
  | .setup => s.setup
  | .connect c => s.connect c
  | .disconnect c => s.disconnect c
  | .destroy c => s.destroy c
  | .disconnectAll => s.disconnectAll
  | .destroyAll => s.destroyAll
  | .reserve lsize => s.reserve lsize
  -- handlers do not emit the signal that calls them
  | .emit => if s.emission.isSome then s else s.emit
  | .turn =>
    match s.emission with
    | none => s
    | some e => s.turn e

/-! ### The connections and the list -/

/-- The list has exactly the connections that are alive, in the order they were made, and there is
room for four more. -/
structure Consistent (s : Signal) : Prop where
  ordered : s.mconnections.data.Pairwise (· < ·)
  alive : ∀ c, c ∈ s.mconnections.data ↔ c < s.made ∧ (s.conns c).hasSig = true
  dead : ∀ c, (s.conns c).hasSig = false → (s.conns c).mconnected = false
  unmade : ∀ c, s.made ≤ c → (s.conns c).hasSig = false
  required : s.mconnections.required = s.mconnections.data.length + 4
  capacity : s.mconnections.required ≤ s.mconnections.capacity
  refused : s.refused = []

theorem create_consistent : create.Consistent where
  ordered := List.Pairwise.nil
  alive c := by simp [create, ConnectionList.create]
  dead _ _ := rfl
  unmade _ _ := rfl
  required := rfl
  capacity := Nat.le_refl _
  refused := rfl

theorem Consistent.nodup {s : Signal} (h : s.Consistent) : s.mconnections.data.Nodup :=
  h.ordered.imp fun hlt => Nat.ne_of_lt hlt

/-- A connected connection is in the list. -/
theorem Consistent.listed {s : Signal} (h : s.Consistent) {c : ℕ} (hc : s.isConnected c = true) :
    c ∈ s.mconnections.data := by
  have hsig : (s.conns c).hasSig = true := by
    simp only [isConnected, Connection.connected, Bool.and_eq_true] at hc
    exact hc.2
  refine (h.alive c).mpr ⟨?_, hsig⟩
  by_contra hno
  rw [h.unmade c (Nat.le_of_not_lt hno)] at hsig
  cases hsig

theorem Consistent.called {s : Signal} (h : s.Consistent) (c : ℕ) :
    (s.conns c).mconnected = s.isConnected c := by
  unfold isConnected Connection.connected
  cases hsig : (s.conns c).hasSig with
  | true => simp
  | false => simp [h.dead c hsig]

/-- A change of one connection that stays as alive as it was. -/
theorem Consistent.setConn {s : Signal} (h : s.Consistent) (c : ℕ) {x : Connection}
    (hsig : x.hasSig = (s.conns c).hasSig) (hdead : x.hasSig = false → x.mconnected = false) :
    (s.setConn c x).Consistent where
  ordered := h.ordered
  alive d := by
    rw [show (s.setConn c x).mconnections = s.mconnections from rfl, h.alive d]
    by_cases hd : d = c
    · subst hd
      simp [Signal.setConn, hsig]
    · simp [Signal.setConn, hd]
  dead d := by
    by_cases hd : d = c
    · subst hd
      simpa [Signal.setConn] using hdead
    · simpa [Signal.setConn, hd] using h.dead d
  unmade d hm := by
    have hno := h.unmade d hm
    by_cases hd : d = c
    · subst hd
      simpa [Signal.setConn, hsig] using hno
    · simpa [Signal.setConn, hd] using hno
  required := h.required
  capacity := h.capacity
  refused := h.refused

theorem grow_room {l : ConnectionList} (h : l.required = l.data.length + 4) :
    (l.grow 1).data = l.data ∧ (l.grow 1).required = l.data.length + 5 ∧
      (l.grow 1).required ≤ (l.grow 1).capacity := by
  unfold ConnectionList.grow ConnectionList.reserve
  dsimp only
  split
  · next hlt =>
    rw [if_neg (by omega)]
    refine ⟨rfl, ?_, ?_⟩
    · dsimp only
      omega
    · dsimp only
      omega
  · next hge =>
    refine ⟨rfl, ?_, ?_⟩
    · dsimp only
      omega
    · dsimp only at hge ⊢
      omega

theorem Consistent.setup {s : Signal} (h : s.Consistent) :
    s.setup.Consistent ∧ s.setup.mconnections.data = s.mconnections.data ++ [s.made] := by
  obtain ⟨hdata, hrequired, hcapacity⟩ := grow_room h.required
  have happend : (s.mconnections.grow 1).append s.made =
      (true, { s.mconnections.grow 1 with data := s.mconnections.data ++ [s.made] }) := by
    unfold ConnectionList.append
    rw [if_neg (by rw [hdata]; omega), hdata]
  have hlist : s.setup.mconnections =
      { s.mconnections.grow 1 with data := s.mconnections.data ++ [s.made] } := by
    show ((s.mconnections.grow 1).append s.made).2 = _
    rw [happend]
  have hconns : ∀ d, s.setup.conns d = if d = s.made then ⟨false, true⟩ else s.conns d :=
    fun _ => rfl
  have hmade : s.setup.made = s.made + 1 := rfl
  have hold : ∀ c ∈ s.mconnections.data, c < s.made := fun c hc => ((h.alive c).mp hc).1
  refine ⟨⟨?_, ?_, ?_, ?_, ?_, ?_, ?_⟩, by rw [hlist]⟩
  · rw [hlist, List.pairwise_append]
    refine ⟨h.ordered, List.pairwise_singleton _ _, ?_⟩
    intro a ha b hb
    rw [List.mem_singleton.mp hb]
    exact hold a ha
  · intro c
    rw [hlist, List.mem_append, List.mem_singleton, hconns, hmade, h.alive c]
    by_cases hc : c = s.made
    · simp [hc]
    · simp only [hc, or_false, if_false]
      constructor
      · rintro ⟨hlt, hsig⟩
        exact ⟨by omega, hsig⟩
      · rintro ⟨hlt, hsig⟩
        exact ⟨by omega, hsig⟩
  · intro c
    rw [hconns]
    split
    · intro _; rfl
    · exact h.dead c
  · intro c hc
    rw [hmade] at hc
    rw [hconns, if_neg (by omega)]
    exact h.unmade c (by omega)
  · rw [hlist]
    show (s.mconnections.grow 1).required = _
    rw [hrequired, List.length_append]
    rfl
  · rw [hlist]
    exact hcapacity
  · show (if ((s.mconnections.grow 1).append s.made).1 then s.refused else _) = []
    rw [happend, if_pos rfl]
    exact h.refused

theorem Consistent.connect {s : Signal} (h : s.Consistent) (c : ℕ) : (s.connect c).Consistent := by
  unfold Signal.connect
  split
  · exact h
  · unfold Connection.connect
    split
    · exact h.setConn c rfl (h.dead c)
    · next hsig =>
      refine h.setConn c rfl ?_
      intro hno
      exact absurd hno hsig

/-- `ConnectionBase::disconnect`, which does nothing to a dead connection -/
theorem Consistent.disconnectConn {s : Signal} (h : s.Consistent) (c : ℕ) :
    (s.setConn c (s.conns c).disconnect).Consistent := by
  unfold Connection.disconnect
  split
  · exact h.setConn c rfl (h.dead c)
  · exact h.setConn c rfl fun _ => rfl

theorem Consistent.disconnect {s : Signal} (h : s.Consistent) (c : ℕ) :
    (s.disconnect c).Consistent := by
  unfold Signal.disconnect
  split
  · exact h.disconnectConn c
  · exact h

theorem Consistent.disconnectAll {s : Signal} (h : s.Consistent) : s.disconnectAll.Consistent := by
  unfold Signal.disconnectAll
  generalize s.mconnections.data = cs
  induction cs generalizing s with
  | nil => exact h
  | cons c cs ih => exact ih (h.disconnectConn c)

/-- A connection that is destroyed leaves the list, and only this one does. -/
theorem Consistent.destroy {s : Signal} (h : s.Consistent) (c : ℕ) :
    (s.destroy c).Consistent ∧
      (s.destroy c).mconnections.data = s.mconnections.data.erase c := by
  unfold Signal.destroy
  by_cases hsig : (s.conns c).hasSig = false
  · rw [if_pos hsig]
    refine ⟨h, (List.erase_of_not_mem ?_).symm⟩
    intro hc
    rw [((h.alive c).mp hc).2] at hsig
    cases hsig
  · rw [if_neg hsig]
    have hmem : c ∈ s.mconnections.data := by
      refine (h.alive c).mpr ⟨?_, by simpa using hsig⟩
      by_contra hno
      exact hsig (h.unmade c (Nat.le_of_not_lt hno))
    have hlen := List.length_erase_of_mem hmem
    have hpos := List.length_pos_of_mem hmem
    have hconns : ∀ d, ((s.setConn c ⟨false, false⟩).connDestroy c).conns d =
        if d = c then ⟨false, false⟩ else s.conns d := fun _ => rfl
    refine ⟨⟨h.ordered.sublist (List.erase_sublist), ?_, ?_, ?_, ?_, ?_, h.refused⟩, rfl⟩
    · intro d
      show d ∈ s.mconnections.data.erase c ↔ d < s.made ∧ _
      rw [hconns, h.nodup.mem_erase_iff, h.alive d]
      by_cases hd : d = c
      · simp [hd]
      · simp [hd]
    · intro d
      rw [hconns]
      split
      · intro _; rfl
      · exact h.dead d
    · intro d hd
      rw [hconns]
      split
      · rfl
      · exact h.unmade d hd
    · show s.mconnections.required - 1 = (s.mconnections.data.erase c).length + 4
      rw [hlen, h.required]
      omega
    · show s.mconnections.required - 1 ≤ s.mconnections.capacity
      exact Nat.le_trans (Nat.sub_le _ _) h.capacity

theorem Consistent.destroyRounds {s : Signal} (h : s.Consistent) (n : ℕ) :
    (s.destroyRounds n).Consistent ∧
      (s.mconnections.data.length ≤ n → (s.destroyRounds n).mconnections.data = []) := by
  induction n generalizing s with
  | zero => exact ⟨h, fun hle => List.eq_nil_of_length_eq_zero (Nat.le_zero.mp hle)⟩
  | succ n ih =>
    unfold Signal.destroyRounds
    cases hdata : s.mconnections.data with
    | nil => exact ⟨h, fun _ => hdata⟩
    | cons c cs =>
      obtain ⟨hnext, hlist⟩ := h.destroy c
      obtain ⟨hkeep, hempty⟩ := ih hnext
      refine ⟨hkeep, fun hle => hempty ?_⟩
      rw [hlist, hdata, List.erase_cons_head]
      simpa using hle

/-- So many rounds are enough: the loop ends, with an empty list. -/
theorem Consistent.destroyAll {s : Signal} (h : s.Consistent) :
    s.destroyAll.Consistent ∧ s.destroyAll.mconnections.data = [] := by
  obtain ⟨hkeep, hempty⟩ := h.destroyRounds s.mconnections.data.length
  exact ⟨hkeep, hempty (Nat.le_refl _)⟩

theorem Consistent.reserve {s : Signal} (h : s.Consistent) (lsize : ℕ) :
    (s.reserve lsize).Consistent := by
  unfold Signal.reserve ConnectionList.reserve
  have hcapacity := h.capacity
  split
  · exact h
  · next hlt => exact ⟨h.ordered, h.alive, h.dead, h.unmade, h.required, by dsimp only; omega,
      h.refused⟩

/-! ### Emissions -/

end Signal

namespace Emission

/-- The connections whose functions the emission called, in this order. -/
def calls (e : Emission) : List ℕ := (e.turns.filter Turn.called).map Turn.conn

/-- Every connection that was connected at the begin has its turn; at its turn the function is
called if and only if the connection is connected then, and none is called twice or out of order. -/
structure Exact (e : Emission) : Prop where
  every : ∀ c ∈ e.connected, ∃ t ∈ e.turns, t.conn = c
  called : ∀ t ∈ e.turns, t.conn ∈ e.calls ↔ t.connected = true
  ordered : e.calls.Pairwise (· < ·)

/-- An emission that is going on. -/
structure Going (e : Emission) : Prop where
  ordered : (e.turns.map Turn.conn ++ e.rest).Pairwise (· < ·)
  covers : ∀ c ∈ e.connected, c ∈ e.turns.map Turn.conn ++ e.rest
  faithful : ∀ t ∈ e.turns, t.called = t.connected

/-- What is called so far is right, whether the emission is over or not. -/
theorem Going.called {e : Emission} (h : e.Going) :
    (∀ t ∈ e.turns, t.conn ∈ e.calls ↔ t.connected = true) ∧ e.calls.Pairwise (· < ·) := by
  have hturns : (e.turns.map Turn.conn).Pairwise (· < ·) :=
    (List.pairwise_append.mp h.ordered).1
  constructor
  · intro t ht
    rw [← h.faithful t ht, calls, List.mem_map]
    constructor
    · rintro ⟨u, hu, hconn⟩
      obtain ⟨hmem, hcalled⟩ := List.mem_filter.mp hu
      have hinj := List.inj_on_of_nodup_map (hturns.imp fun hlt => Nat.ne_of_lt hlt)
      rw [← hinj hmem ht hconn]
      exact hcalled
    · intro hcalled
      exact ⟨t, List.mem_filter.mpr ⟨ht, hcalled⟩, rfl⟩
  · exact hturns.sublist (List.filter_sublist.map Turn.conn)

theorem Going.exact {e : Emission} (h : e.Going) (hrest : e.rest = []) : e.Exact where
  every c hc := by
    have hmem := h.covers c hc
    rw [hrest, List.append_nil] at hmem
    obtain ⟨t, ht, hconn⟩ := List.mem_map.mp hmem
    exact ⟨t, ht, hconn⟩
  called := h.called.1
  ordered := h.called.2

end Emission

namespace Signal

structure Inv (s : Signal) : Prop extends s.Consistent where
  going : ∀ e ∈ s.emission, e.Going
  finished : ∀ e ∈ s.finished, e.Exact

theorem Inv.emit {s : Signal} (h : s.Inv) : s.emit.Inv where
  toConsistent := { h.toConsistent with }
  going e he := by
    obtain rfl := Option.some.inj he
    refine ⟨h.ordered, ?_, nofun⟩
    intro c hc
    exact h.toConsistent.listed (List.mem_filter.mp hc).2
  finished := h.finished

theorem Inv.turn {s : Signal} (h : s.Inv) {e : Emission} (he : s.emission = some e) :
    (s.turn e).Inv := by
  have hgoing := h.going e he
  unfold Signal.turn
  cases hrest : e.rest with
  | nil =>
    refine ⟨{ h.toConsistent with }, nofun, ?_⟩
    intro e' he'
    rcases List.mem_cons.mp he' with rfl | he'
    · exact hgoing.exact hrest
    · exact h.finished e' he'
  | cons c rest =>
    refine ⟨{ h.toConsistent with }, ?_, h.finished⟩
    intro e' he'
    obtain rfl := Option.some.inj he'
    have hsame : (e.turns ++ [(⟨c, s.isConnected c, (s.conns c).mconnected⟩ : Turn)]).map
        Turn.conn ++ rest = e.turns.map Turn.conn ++ e.rest := by
      rw [hrest]
      simp
    refine ⟨?_, ?_, ?_⟩
    · show List.Pairwise _ (_ ++ rest)
      rw [hsame]
      exact hgoing.ordered
    · intro d hd
      show d ∈ _ ++ rest
      rw [hsame]
      exact hgoing.covers d hd
    · intro t ht
      rcases List.mem_append.mp ht with ht | ht
      · exact hgoing.faithful t ht
      · rw [List.mem_singleton.mp ht]
        exact h.toConsistent.called c

/-- The emission that is going on and those that are over are left as they are. -/
structure Quiet (s s' : Signal) : Prop where
  emission : s'.emission = s.emission
  finished : s'.finished = s.finished

theorem Inv.quiet {s s' : Signal} (h : s.Inv) (hc : s'.Consistent) (hq : Quiet s s') : s'.Inv where
  toConsistent := hc
  going := by rw [hq.emission]; exact h.going
  finished := by rw [hq.finished]; exact h.finished

theorem Quiet.trans {s s' s'' : Signal} (h : Quiet s s') (h' : Quiet s' s'') : Quiet s s'' :=
  ⟨h'.emission.trans h.emission, h'.finished.trans h.finished⟩

theorem connect_quiet (s : Signal) (c : ℕ) : Quiet s (s.connect c) := by
  unfold Signal.connect
  split <;> exact ⟨rfl, rfl⟩

theorem disconnect_quiet (s : Signal) (c : ℕ) : Quiet s (s.disconnect c) := by
  unfold Signal.disconnect
  split <;> exact ⟨rfl, rfl⟩

theorem destroy_quiet (s : Signal) (c : ℕ) : Quiet s (s.destroy c) := by
  unfold Signal.destroy
  split <;> exact ⟨rfl, rfl⟩

theorem disconnectAll_quiet (s : Signal) : Quiet s s.disconnectAll := by
  unfold Signal.disconnectAll
  generalize s.mconnections.data = cs
  induction cs generalizing s with
  | nil => exact ⟨rfl, rfl⟩
  | cons c cs ih =>
    have hone : Quiet s (s.setConn c (s.conns c).disconnect) := ⟨rfl, rfl⟩
    exact hone.trans (ih _)

theorem destroyRounds_quiet (n : ℕ) (s : Signal) : Quiet s (s.destroyRounds n) := by
  induction n generalizing s with
  | zero => exact ⟨rfl, rfl⟩
  | succ n ih =>
    unfold Signal.destroyRounds
    split
    · exact ⟨rfl, rfl⟩
    · next c _ _ => exact (destroy_quiet s c).trans (ih _)

theorem Inv.step {s : Signal} (h : s.Inv) (a : Action) : (s.step a).Inv := by
  have hc := h.toConsistent
  cases a with
  | setup => exact h.quiet hc.setup.1 ⟨rfl, rfl⟩
  | connect c => exact h.quiet (hc.connect c) (connect_quiet s c)
  | disconnect c => exact h.quiet (hc.disconnect c) (disconnect_quiet s c)
  | destroy c => exact h.quiet (hc.destroy c).1 (destroy_quiet s c)
  | disconnectAll => exact h.quiet hc.disconnectAll (disconnectAll_quiet s)
  | destroyAll => exact h.quiet hc.destroyAll.1 (destroyRounds_quiet _ s)
  | reserve lsize => exact h.quiet (hc.reserve lsize) ⟨rfl, rfl⟩
  | emit =>
    unfold Signal.step
    dsimp only
    split
    · exact h
    · exact h.emit
  | turn =>
    unfold Signal.step
    dsimp only
    split
    · exact h
    · next e he => exact h.turn he

theorem create_inv : create.Inv where
  toConsistent := create_consistent
  going := nofun
  finished := nofun

/-- The signal after any calls, some of which are made by its handlers. -/
def after (acts : List Action) : Signal := Library.Run.run step create acts

/-- A handler that destroys the connection after its own and makes another one: the first is not
called any more, and the other one not yet. -/
example :
    ((after [.setup, .connect 0, .setup, .connect 1, .setup, .connect 2, .emit, .turn, .destroy 1,
      .setup, .connect 3, .turn, .turn, .turn]).finished.map Emission.calls) = [[0, 2]] := by
  decide

end Signal
end OrocosRtt.Event
