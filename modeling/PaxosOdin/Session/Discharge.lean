import PaxosOdin.Session.Node

/-!
# The session

A participant with its journal, its history and its transport, and the order in which a batch is
discharged.  The adapters obey their protocols; any append, sync or record call may raise, after any
part of its work.

Main definitions:

- Definition `Process`: a session, what its adapters hold, and the trace of what it did.
- Definition `discharge`: persist, confirm, release, send, serve, finish.
- Definition `Process.step`: one operation of the session, or its reopening.
-/

namespace PaxosOdin.Session

open Bridge

/-! ## Adapters -/

/-- The records of a journal: `durable` are those that a completed sync covers, `tail` those appended
since. -/
structure Journal where
  durable : List CWrite := []
  tail : List CWrite := []

/-- The entries that a history retains. -/
abbrev History := List CCommitted

/-- The retained entry of a slot. -/
def History.find (history : History) (slot : Nat) : Option CCommitted :=
  List.find? (fun c => c.slot.toNat == slot) history

/-- `History.read`. -/
def History.read (history : History) (first count : Nat) : List CCommitted :=
  (List.range' first count).filterMap history.find

/-- `History.cursor`: the last slot that is retained with no gap before it. -/
def History.cursor (history : History) : Nat :=
  ((List.range' 1 history.length).takeWhile fun slot => (history.find slot).isSome).length

/-- Which adapter calls of an operation raise: the append after some records, the sync, or the record
call with this index, which may have retained its entry or not. -/
structure Faults where
  append : Option Nat := none
  sync : Bool := false
  record : Option (Nat × Bool) := none

/-! ## The process -/

/-- A frame that reached the transport, with the records of its batch and the records that were
durable when it did. -/
structure Sent where
  peer : UInt16
  frame : CEnvelope
  records : List CWrite
  durable : List CWrite

/-- A floor that was passed to the node, with the cursor of the history at that moment. -/
structure FloorPassed where
  floor : Nat
  cursor : Nat

/-- A session with its adapters.  The trace holds, of this session, the slot it resumed at, the
entries its node emitted and those it released, and whether the journal or a record call raised; and
of all sessions the frames sent and the floors passed. -/
structure Process where
  handle : Handle
  appliedThrough : Nat := 0
  journal : Journal := {}
  history : History := []
  base : Nat := 0
  emitted : List CCommitted := []
  released : List CCommitted := []
  journalFailed : Bool := false
  recordFailed : Bool := false
  sent : List Sent := []
  floors : List FloorPassed := []

/-- A procedure of the session. -/
abbrev OnProcess (α : Type) := Procedure Process Raised α

/-- A call on the node. -/
def onNode {α : Type} (m : OnHandle α) : OnProcess α :=
  m.within (·.handle) fun s h => { s with handle := h }

/-- The records of the batch that the node holds. -/
def Process.batchRecords (p : Profile) (s : Process) : List CWrite :=
  s.handle.effects.writes.map (writeToC p.maxValue)

/-- The entries of the batch that the node holds. -/
def Process.batchCommitted (p : Profile) (s : Process) : List CCommitted :=
  s.handle.effects.committed.map (committedToC p.maxValue)

/-! ## The journal -/

/-- `Journal.append`. -/
def journalAppend (fault : Option Nat) (records : List CWrite) : OnProcess Unit :=
  match fault with
  | none => Procedure.modify fun s =>
      { s with journal := { s.journal with tail := s.journal.tail ++ records } }
  | some kept => do
      Procedure.modify fun s =>
        { s with
          journal := { s.journal with tail := s.journal.tail ++ records.take kept }
          journalFailed := true }
      Procedure.raise .storage

/-- `Journal.sync`. -/
def journalSync (fault : Bool) : OnProcess Unit :=
  if fault then do
    Procedure.modify fun s => { s with journalFailed := true }
    Procedure.raise .storage
  else
    Procedure.modify fun s =>
      { s with journal := { durable := s.journal.durable ++ s.journal.tail, tail := [] } }

/-- `append` and `sync`, for a batch with records. -/
def persist (f : Faults) (records : List CWrite) : OnProcess Unit :=
  if records = [] then pure ()
  else do
    journalAppend f.append records
    journalSync f.sync

/-! ## Releasing, sending, serving -/

/-- `History.record` that succeeds, and the position it moves: `_release`. -/
def release (entry : CCommitted) : OnProcess Unit :=
  Procedure.modify fun s =>
    { s with
      history := s.history ++ [entry]
      appliedThrough := entry.slot.toNat
      released := s.released ++ [entry] }

/-- `History.record` that raises. -/
def recordRaises (entry : CCommitted) (retained : Bool) : OnProcess Unit := do
  Procedure.modify fun s =>
    { s with
      history := if retained then s.history ++ [entry] else s.history
      recordFailed := true }
  Procedure.raise .storage

/-- The loop over the released entries; `fault` counts the calls until one raises. -/
def releaseAll : Option (Nat × Bool) → List CCommitted → OnProcess Unit
  | _, [] => pure ()
  | some (0, retained), entry :: _ => recordRaises entry retained
  | some (calls + 1, retained), entry :: rest => do
      release entry
      releaseAll (some (calls, retained)) rest
  | none, entry :: rest => do
      release entry
      releaseAll none rest

/-- `_send`.  A frame counts as sent even if the transport refuses it, which is ignored. -/
def send (p : Profile) (envelope : CEnvelope) : OnProcess Unit :=
  Procedure.modify fun s =>
    { s with sent := s.sent ++
      [{ peer := envelope.recipient
         frame := envelope
         records := s.batchRecords p
         durable := s.journal.durable }] }

/-- `_serve`. -/
def serve (p : Profile) (request : CRequest) : OnProcess Unit := do
  let (configurationId, nodeId) ← onNode nodeState
  let entries ← Procedure.read fun s => s.history.read request.first.toNat request.count.toNat
  Procedure.forEach (fun entry =>
    send p
      { configurationId := configurationId
        sender := nodeId
        recipient := request.peer
        kind := some .commit
        slot := entry.slot
        entry := entry.entry }) entries

/-! ## One batch -/

/-- The body of the `try` of `discharge`. -/
def dischargeBody (p : Profile) (b : PendingBatch) (f : Faults) : OnProcess Unit := do
  let records ← onNode (b.writes p)
  persist f records
  onNode b.persisted
  let entries ← onNode (b.committed p)
  releaseAll f.record entries
  let envelopes ← onNode (b.messages p)
  Procedure.forEach (send p) envelopes
  let requests ← onNode (b.requests p)
  Procedure.forEach (serve p) requests

/-- The floor moves to the released position. -/
def advanceFloor : OnProcess Unit := do
  let applied ← Procedure.read (·.appliedThrough)
  if applied = 0 then pure ()
  else do
    Procedure.modify fun s => { s with floors := s.floors ++ [⟨applied, s.history.cursor⟩] }
    onNode (advanceMemoryFloor applied)

/-- `discharge`. -/
def discharge (p : Profile) (b : PendingBatch) (f : Faults) : OnProcess Unit := do
  (dischargeBody p b f).ensuring (onNode b.finish)
  advanceFloor

/-- A transition of the node and its batch, in a `with` block. -/
def transition (p : Profile) (begun : OnHandle PendingBatch) (f : Faults) : OnProcess Unit := do
  let b ← onNode begun
  Procedure.modify fun s => { s with emitted := s.emitted ++ s.batchCommitted p }
  (discharge p b f).closing fun raised => onNode (b.leave raised)

/-! ## Operations -/

/-- What a session is asked to do between two openings. -/
inductive Operation where
  | tick
  | campaign
  | propose (value : List UInt8)
  | receive (envelope : CEnvelope)

/-- An operation, with the faults of its adapter calls. -/
def perform (p : Profile) (f : Faults) : Operation → OnProcess Unit
  | .tick => transition p (beginTick p) f
  | .campaign => transition p (beginCampaign p) f
  | .propose value => transition p (beginPropose p value) f
  | .receive envelope => transition p (beginStep p envelope) f

/-- A session without a node: nothing was opened, or the opening raised. -/
def Process.closed (s : Process) (journal : Journal) : Process :=
  { s with
    handle := { s.handle with isOpen := false }
    appliedThrough := 0
    journal := journal
    base := 0
    emitted := []
    released := []
    journalFailed := false
    recordFailed := false }

/-- Nothing was opened yet, and the storage is empty. -/
def Process.start : Process where
  handle :=
    { isOpen := false
      epoch := 0
      forkGeneration := 0
      nodeId := 0
      configurationId := 0
      options := .zero
      membership := ⟨[], 0, 0⟩
      node := zeroNode }

/-- `Session.__init__` on the storage of an earlier session: of the records that no sync covers, the
journal returns the first `kept`. -/
def reopen (p : Profile) (epoch forkGeneration : Nat) (config : CConfig) (kept : Nat) (s : Process) :
    Option Process :=
  let existing := s.journal.durable ++ s.journal.tail.take kept
  let s := s.closed { durable := existing }
  if existing = [] then
    match nodeOpened p epoch forkGeneration config with
    | .ok h => some { s with handle := h }
    | .error _ => some s
  else
    let applied := s.history.cursor
    let s := { s with floors := s.floors ++ [⟨applied, s.history.cursor⟩] }
    match nodeRestored p epoch forkGeneration config existing applied with
    | none => none
    | some (.ok h) => some { s with handle := h, appliedThrough := applied, base := applied }
    | some (.error _) => some s

/-- A step of a run. -/
inductive Event where
  | perform (op : Operation) (f : Faults)
  | reopen (epoch forkGeneration : Nat) (config : CConfig) (kept : Nat)

/-- One step; `none` when the process exits. -/
def Process.step (p : Profile) (s : Process) : Event → Option Process
  | .perform op f => (Session.perform p f op s).map Prod.fst
  | .reopen epoch forkGeneration config kept => Session.reopen p epoch forkGeneration config kept s

/-- The states of the runs whose steps all meet a condition. -/
inductive Process.Reaches (p : Profile) (ok : Process → Event → Prop) (start : Process) :
    Process → Prop
  | refl : Process.Reaches p ok start start
  | step {s s' : Process} {e : Event} (h : Process.Reaches p ok start s) (hok : ok s e)
      (hstep : s.step p e = some s') : Process.Reaches p ok start s'

end PaxosOdin.Session
