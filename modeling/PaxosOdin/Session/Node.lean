import PaxosOdin.Bridge.Guard
import PaxosOdin.Session.Procedure

/-!
# The Python participant

`Node` and `PendingBatch`: every native call with its status check, and the bounded copies that read a
batch chunk by chunk.

Main definitions:

- Definition `native`: one native call, which raises on any status but success.
- Definition `PendingBatch.writes` and its siblings: what a batch hands to the host.
- Definition `PendingBatch.leave`: the end of a `with` block on a batch.
- Definition `nodeRestored`: a node rebuilt from its journal.
-/

namespace PaxosOdin.Session

open Bridge

/-- What the library raises: the status of a native call, a value that is too large, a batch that was
left pending, or a failure of the storage. -/
inductive Raised where
  | status (status : Status)
  | valueTooLarge
  | abandonedBatch
  | storage
deriving DecidableEq, Repr

/-- A procedure on the native handle. -/
abbrev OnHandle (α : Type) := Procedure Handle Raised α

/-- The calls come from the process that opened the handle, with storage behind every pointer. -/
def ownCaller (h : Handle) : Caller :=
  ⟨h.forkGeneration, true⟩

/-- A native call under the guard of the node, and `raise_for` on its status. -/
def native (call : Handle → Caller → Outcome) : OnHandle Reply :=
  fun h =>
    match call h (ownCaller h) with
    | none => none
    | some (h, reply) =>
        if reply.status = .ok then some (h, .ok reply) else some (h, .error (.status reply.status))

/-- `PendingBatch`. -/
structure PendingBatch where
  token : Token
  report : Report

/-- `Node._begin`. -/
def begin (call : Handle → Caller → Outcome) : OnHandle PendingBatch := do
  let reply ← native call
  match reply.token, reply.report with
  | some token, some report => pure ⟨token, report⟩
  | _, _ => Procedure.raise (.status reply.status)

/-! ## Transitions -/

/-- `Node.begin_campaign`. -/
def beginCampaign (p : Profile) : OnHandle PendingBatch :=
  begin fun h caller => paxodinBeginCampaign p h caller

/-- `Node.begin_tick`. -/
def beginTick (p : Profile) : OnHandle PendingBatch :=
  begin fun h caller => paxodinBeginTick p h caller

/-- `Node.propose`, with the check of `_fill_entry`. -/
def beginPropose (p : Profile) (value : List UInt8) : OnHandle PendingBatch :=
  if value.length > p.maxValue then Procedure.raise .valueTooLarge
  else
    begin fun h caller => paxodinBeginPropose p h caller
      (some { kind := some .command, length := UInt32.ofNat value.length, body := value })

/-- `Node.begin_step`. -/
def beginStep (p : Profile) (envelope : CEnvelope) : OnHandle PendingBatch :=
  begin fun h caller => paxodinBeginStep p h caller (some envelope)

/-- `Node.advance_memory_floor`. -/
def advanceMemoryFloor (through : Nat) : OnHandle Unit := do
  let _ ← native fun h caller => paxodinAdvanceMemoryFloor h caller (UInt64.ofNat through)
  pure ()

/-- What `_serve` reads of `Node.state`: the configuration and the identity. -/
def nodeState : OnHandle (UInt64 × UInt16) := do
  let _ ← native fun h caller => entered h caller fun h => refuse h .ok
  Procedure.read fun h => (UInt64.ofNat h.node.configurationId, UInt16.ofNat h.node.core.id)

/-! ## Copies -/

/-- The loop of `_copy`, from `offset` on. -/
def copyLoop {α : Type} (call : Handle → Caller → CopyRequest → Outcome) (out : Reply → List α)
    (token : Token) (size total : Nat) : Nat → Nat → List α → OnHandle (List α)
  | 0, _, copied => pure copied
  | fuel + 1, offset, copied =>
      if offset < total then do
        let reply ← native fun h caller =>
          call h caller ⟨some token, UInt32.ofNat offset, UInt32.ofNat (min size (total - offset))⟩
        copyLoop call out token size total fuel (offset + (out reply).length) (copied ++ out reply)
      else pure copied

/-- `PendingBatch._copy`: an empty batch still makes one call, for the check of its phase. -/
def copy {α : Type} (call : Handle → Caller → CopyRequest → Outcome) (out : Reply → List α)
    (token : Token) (total chunk : Nat) : OnHandle (List α) :=
  if total = 0 then do
    let _ ← native fun h caller => call h caller ⟨some token, 0, 0⟩
    pure []
  else copyLoop call out token (max 1 (min chunk total)) total total 0 []

/-- A count of the report: a 32-bit word. -/
def counted (count : Nat) : Nat :=
  (UInt32.ofNat count).toNat

/-- `PendingBatch.writes`: every record, chunk by chunk. -/
def PendingBatch.writes (p : Profile) (b : PendingBatch) : OnHandle (List CWrite) :=
  copy (paxodinCopyWrites p) (·.writes) b.token (counted b.report.writeCount) 64

/-- `PendingBatch.messages`. -/
def PendingBatch.messages (p : Profile) (b : PendingBatch) : OnHandle (List CEnvelope) :=
  copy (paxodinCopyMessages p) (·.messages) b.token (counted b.report.messageCount) 16

/-- `PendingBatch.committed`. -/
def PendingBatch.committed (p : Profile) (b : PendingBatch) : OnHandle (List CCommitted) :=
  copy (paxodinCopyCommitted p) (·.committed) b.token (counted b.report.committedCount) 32

/-- `PendingBatch.requests`. -/
def PendingBatch.requests (p : Profile) (b : PendingBatch) : OnHandle (List CRequest) :=
  copy paxodinCopyRequests (·.requests) b.token (counted b.report.requestCount) p.params.M

/-! ## Confirming and finishing -/

/-- `PendingBatch.persisted`: confirms the batch. -/
def PendingBatch.persisted (b : PendingBatch) : OnHandle Unit := do
  let _ ← native fun h caller => paxodinConfirm h caller (some b.token)
  pure ()

/-- `PendingBatch.finish`. -/
def PendingBatch.finish (b : PendingBatch) : OnHandle Unit := do
  let _ ← native fun h caller => paxodinFinish h caller (some b.token)
  pure ()

/-- The phase of `PendingBatch.refresh`. -/
def PendingBatch.phase (b : PendingBatch) : OnHandle BatchPhase := do
  let reply ← native fun h caller => paxodinBatchReport h caller (some b.token)
  match reply.report with
  | some report => pure report.phase
  | none => Procedure.raise (.status reply.status)

/-- `PendingBatch.__exit__`: it finishes a confirmed batch and never confirms one. -/
def PendingBatch.leave (b : PendingBatch) (raised : Bool) : OnHandle Unit := do
  match ← b.phase with
  | .finished => pure ()
  | .confirmed => b.finish
  | _ => if raised then pure () else Procedure.raise .abandonedBatch

/-! ## Opening -/

/-- One call of `paxodin_replay_apply`. -/
def replayApply (p : Profile) (record : CWrite) : OnHandle Unit := do
  let _ ← native fun h caller => paxodinReplayApply p h caller (some record)
  pure ()

/-- The call of `paxodin_replay_restore`. -/
def replayRestore (p : Profile) (floor : Nat) : OnHandle Unit := do
  let _ ← native fun h caller => paxodinReplayRestore p h caller (UInt64.ofNat floor)
  pure ()

/-- The calls of `Node.restore`: the records are folded one by one and the node restored at
`floor`. -/
def replayJournal (p : Profile) (records : List CWrite) (floor : Nat) : OnHandle Unit := do
  Procedure.forEach (replayApply p) records
  replayRestore p floor

/-- `Node.restore`.  What fails closes the handle. -/
def nodeRestored (p : Profile) (epoch forkGeneration : Nat) (config : CConfig)
    (records : List CWrite) (floor : Nat) : Option (Except Raised Handle) :=
  match paxodinNodeOpenForReplay p epoch forkGeneration config with
  | .error status => some (.error (.status status))
  | .ok h =>
      match replayJournal p records floor h with
      | none => none
      | some (h, .ok ()) => some (.ok h)
      | some (_, .error e) => some (.error e)

/-- `Node.__init__`. -/
def nodeOpened (p : Profile) (epoch forkGeneration : Nat) (config : CConfig) :
    Except Raised Handle :=
  match paxodinNodeOpen p epoch forkGeneration config with
  | .error status => .error (.status status)
  | .ok h => .ok h

end PaxosOdin.Session
