import PaxosOdin.Bridge.Records
import PaxosOdin.Replicated.OwnEffects

/-!
# The native handle

One participant behind the C ABI, with its batch and the guards of every export.  A procedure
returns what is left in the handle and what it hands to the caller, or nothing at all when the core
stops the process in `host_order_violation`.

Main definitions:

- Definition `Handle.transition`: the one place where the core runs, behind its durability gate.
- Definition `paxodinBeginTick` and its siblings: the transitions.
- Definition `paxodinCopyWrites` and its siblings: what a batch hands out.
- Definition `paxodinReplayApply` and its siblings: the replay of a journal.
-/

namespace PaxosOdin.Bridge

/-- The capacities that the library was compiled with. -/
structure Profile where
  params : Params
  maxValue : Nat
  maxMetadata : Nat

/-! ## The handle -/

/-- `Batch_Phase`. -/
inductive BatchPhase where
  | idle
  | pending
  | confirmed
  | finished
deriving DecidableEq, Repr

/-- The pending batch. -/
structure Batch where
  phase : BatchPhase := .idle
  requiresBarrier : Bool := false
  generation : Nat := 0
  protocolStatus : Status := .ok
  writeCount : Nat := 0
  writesCopiedThrough : Nat := 0
  messageCount : Nat := 0
  committedCount : Nat := 0
  requestCount : Nat := 0
  assignedCount : Nat := 0
  assignedSlot : Nat := 0
  assigned : List Nat := []

/-- The opaque handle.  `isOpen` says that its magic word is in place, `writesPending` is the flag of
the effects, and `replay` the ledger that only a replay needs. -/
structure Handle where
  isOpen : Bool := true
  epoch : Nat
  generation : Nat := 0
  forkGeneration : Nat
  busy : Bool := false
  poisoned : Bool := false
  replaying : Bool := false
  nodeId : Nat
  configurationId : Nat
  options : NodeOptions
  membership : Membership
  node : ReplicatedLogNode Command
  effects : Effects Value := {}
  writesPending : Bool := false
  batch : Batch := {}
  replay : Option (Ledger Value) := none

/-- `C_Token`. -/
structure Token where
  epoch : Nat
  generation : Nat
deriving DecidableEq, Repr

/-- `C_Report`. -/
structure Report where
  epoch : Nat
  generation : Nat
  assignedSlot : Nat
  status : Status
  phase : BatchPhase
  writeCount : Nat
  writesCopiedThrough : Nat
  messageCount : Nat
  committedCount : Nat
  requestCount : Nat
  assignedCount : Nat
  requiresBarrier : Bool
deriving DecidableEq, Repr

/-- What a call hands to its caller. -/
structure Reply where
  status : Status
  token : Option Token := none
  report : Option Report := none
  writes : List CWrite := []
  messages : List CEnvelope := []
  committed : List CCommitted := []
  requests : List CRequest := []
  assigned : List Nat := []
  abandoned : Nat := 0

/-- Where a call comes from: the fork generation of its process, and whether its out-parameters
point at storage. -/
structure Caller where
  forkGeneration : Nat
  storage : Bool

/-- `enter`. -/
def enter (h : Handle) (caller : Caller) : Except Status Handle :=
  if !h.isOpen then .error .handleClosed
  else if h.forkGeneration ≠ caller.forkGeneration then .error .wrongProcess
  else if h.poisoned then .error .poisoned
  else if h.busy then .error .reentrant
  else .ok { h with busy := true }

/-- `leave`. -/
def leave (h : Handle) : Handle :=
  { h with busy := false }

/-- The result of a procedure; `none` when the process has exited. -/
abbrev Outcome := Option (Handle × Reply)

/-- A procedure that returns `status` and changes nothing. -/
def refuse (h : Handle) (status : Status) : Outcome :=
  some (h, { status := status })

/-- Every export begins with `enter` and ends with `leave`. -/
def entered (h : Handle) (caller : Caller) (body : Handle → Outcome) : Outcome :=
  match enter h caller with
  | .error status => refuse h status
  | .ok h =>
      match body h with
      | none => none
      | some (h, reply) => some (leave h, reply)

/-! ## Transitions of the core -/

/-- The transitions that a handle performs. -/
inductive Transition where
  | log (c : LogCall Command)
  | reconnected (peer : Nat)
  | requestCatchUp (peer fromSlot : Nat)
  | installChosenTrim (anchor : TrimAnchor)

/-- What a transition leaves: the node, the effects, the error and the assigned slots. -/
structure Ran where
  node : ReplicatedLogNode Command
  effects : Effects Value
  error : Error
  assigned : List Nat := []
  assignedSlot : Nat := 0

/-- A transition of the core, on the effects of the handle. -/
def Transition.run (p : Profile) (n : ReplicatedLogNode Command) (effects : Effects Value) :
    Transition → Ran
  | .log (.propose value) =>
      let r := replicatedLogPropose p.params n effects value
      { node := r.1.1, effects := r.1.2, error := r.2.2, assignedSlot := r.2.1 }
  | .log (.proposeBatch values capacity) =>
      let r := replicatedLogProposeBatch p.params n effects values capacity
      { node := r.1.1
        effects := r.1.2
        error := r.2.2
        assigned := r.2.1
        assignedSlot := r.2.1.headD 0 }
  | .log c =>
      let r := logCall p.params p.maxMetadata n effects c
      { node := r.1.1, effects := r.1.2, error := r.2 }
  | .reconnected peer =>
      let r := replicatedLogReconnected p.params n peer
      { node := r.1.1, effects := r.1.2, error := r.2 }
  | .requestCatchUp peer fromSlot =>
      let r := replicatedLogRequestCatchUp p.params n peer fromSlot
      { node := r.1.1, effects := r.1.2, error := r.2 }
  | .installChosenTrim anchor =>
      let r := replicatedLogInstallChosenTrim n anchor
      { node := r.1.1, effects := r.1.2, error := r.2 }

/-- Whether the log layer returns before the core resets the effects. -/
def Transition.returnsEarly (p : Profile) (n : ReplicatedLogNode Command) : Transition → Bool
  | .log c => refusedEarly p.params p.maxMetadata n c
  | _ => false

/-- A transition behind the enforced durability gate: `effects_reset` stops the process while writes
are pending, and every write sets the flag again. -/
def Handle.transition (p : Profile) (h : Handle) (t : Transition) : Option (Handle × Ran) :=
  if t.returnsEarly p h.node then
    let ran := t.run p h.node h.effects
    some ({ h with node := ran.node, effects := ran.effects }, ran)
  else if h.writesPending then none
  else
    let ran := t.run p h.node h.effects
    some ({ h with
      node := ran.node
      effects := ran.effects
      writesPending := !ran.effects.writes.isEmpty }, ran)

/-! ## Batches -/

/-- `batch_open`. -/
def batchOpen (h : Handle) : Except Status Handle :=
  if h.replaying then .error .replayActive
  else if h.batch.phase = .pending ∨ h.batch.phase = .confirmed then .error .batchPending
  else
    let generation := (h.generation + 1) % 2 ^ 64
    .ok { h with generation := generation, batch := { generation := generation, phase := .pending } }

/-- `effects_requires_power_loss_barrier`. -/
def requiresPowerLossBarrier (e : Effects Value) : Bool :=
  e.writes.any fun
    | .promise _ => true
    | .promiseAt _ _ => true
    | .vote _ _ _ => true
    | _ => false

/-- `report_fill`. -/
def reportFill (h : Handle) : Report where
  epoch := h.epoch
  generation := h.batch.generation
  assignedSlot := h.batch.assignedSlot
  status := h.batch.protocolStatus
  phase := h.batch.phase
  writeCount := h.batch.writeCount
  writesCopiedThrough := h.batch.writesCopiedThrough
  messageCount := h.batch.messageCount
  committedCount := h.batch.committedCount
  requestCount := h.batch.requestCount
  assignedCount := h.batch.assignedCount
  requiresBarrier := h.batch.requiresBarrier

/-- `batch_seal`: a batch with nothing to persist is born confirmed. -/
def batchSeal (h : Handle) (ran : Ran) : Handle :=
  { h with batch :=
    { h.batch with
      phase := if h.effects.writes.length = 0 then .confirmed else h.batch.phase
      protocolStatus := coreStatus ran.error
      writeCount := h.effects.writes.length
      messageCount := h.effects.messages.length
      committedCount := h.effects.committed.length
      requestCount := h.effects.requests.length
      requiresBarrier := requiresPowerLossBarrier h.effects
      assigned := ran.assigned
      assignedCount := ran.assigned.length
      assignedSlot := ran.assignedSlot } }

/-- The common course of the transitions: `begin_prologue`, the arguments, `batch_open`, the core and
`batch_seal`. -/
def beginTransition (p : Profile) (h : Handle) (caller : Caller)
    (arguments : Except Status Transition) : Outcome :=
  entered h caller fun h =>
    if !caller.storage then refuse h .nullPointer
    else
      match arguments with
      | .error status => refuse h status
      | .ok t =>
          match batchOpen h with
          | .error status => refuse h status
          | .ok h =>
              match h.transition p t with
              | none => none
              | some (h, ran) =>
                  let h := batchSeal h ran
                  some (h,
                    { status := .ok
                      token := some ⟨h.epoch, h.batch.generation⟩
                      report := some (reportFill h) })

/-! ## The arguments of the transitions -/

/-- The arguments of `paxodin_begin_propose`. -/
def proposeArguments (p : Profile) : Option CEntry → Except Status Transition
  | none => .error .nullPointer
  | some value =>
      match commandFromC p.maxValue value with
      | .error status => .error status
      | .ok command => .ok (.log (.propose command))

/-- The arguments of `paxodin_begin_propose_batch`. -/
def proposeBatchArguments (p : Profile) : Option (List CEntry) → Except Status Transition
  | none => .error .nullPointer
  | some values =>
      if values.length = 0 ∨ values.length > p.params.C then .error .invalidArgument
      else
        match values.mapM (commandFromC p.maxValue) with
        | .error status => .error status
        | .ok commands => .ok (.log (.proposeBatch commands p.params.C))

/-- The arguments of `paxodin_begin_step`. -/
def stepArguments (p : Profile) : Option CEnvelope → Except Status Transition
  | none => .error .nullPointer
  | some envelope =>
      match envelopeFromC p.maxValue envelope with
      | .error status => .error status
      | .ok (configurationId, wire) => .ok (.log (.stepChecked configurationId wire))

/-- The arguments of `paxodin_begin_reconnected`. -/
def reconnectedArguments (peer : UInt16) : Except Status Transition :=
  if peer = 0 then .error .invalidArgument else .ok (.reconnected peer.toNat)

/-- The arguments of `paxodin_begin_request_catch_up`. -/
def requestCatchUpArguments (peer : UInt16) (fromSlot : UInt64) : Except Status Transition :=
  if peer = 0 then .error .invalidArgument
  else .ok (.requestCatchUp peer.toNat fromSlot.toNat)

/-! ## The transitions -/

/-- `paxodin_begin_campaign`: asks for leadership. -/
def paxodinBeginCampaign (p : Profile) (h : Handle) (caller : Caller) : Outcome :=
  beginTransition p h caller (.ok (.log (.campaign noop)))

/-- `paxodin_begin_tick`: one tick of the clock. -/
def paxodinBeginTick (p : Profile) (h : Handle) (caller : Caller) : Outcome :=
  beginTransition p h caller (.ok (.log (.tick noop)))

/-- `paxodin_begin_propose`: proposes one command. -/
def paxodinBeginPropose (p : Profile) (h : Handle) (caller : Caller) (value : Option CEntry) :
    Outcome :=
  beginTransition p h caller (proposeArguments p value)

/-- `paxodin_begin_propose_batch`: proposes several commands. -/
def paxodinBeginProposeBatch (p : Profile) (h : Handle) (caller : Caller)
    (values : Option (List CEntry)) : Outcome :=
  beginTransition p h caller (proposeBatchArguments p values)

/-- `paxodin_begin_step`: delivers an envelope. -/
def paxodinBeginStep (p : Profile) (h : Handle) (caller : Caller) (envelope : Option CEnvelope) :
    Outcome :=
  beginTransition p h caller (stepArguments p envelope)

/-- `paxodin_begin_reconnected`: a peer is back. -/
def paxodinBeginReconnected (p : Profile) (h : Handle) (caller : Caller) (peer : UInt16) : Outcome :=
  beginTransition p h caller (reconnectedArguments peer)

/-- `paxodin_begin_request_catch_up`: asks a peer for decisions. -/
def paxodinBeginRequestCatchUp (p : Profile) (h : Handle) (caller : Caller) (peer : UInt16)
    (fromSlot : UInt64) : Outcome :=
  beginTransition p h caller (requestCatchUpArguments peer fromSlot)

/-- `paxodin_begin_install_chosen_trim`: moves the trim anchor. -/
def paxodinBeginInstallChosenTrim (p : Profile) (h : Handle) (caller : Caller)
    (trimId chosenTrimSlot : UInt64) : Outcome :=
  beginTransition p h caller (.ok (.installChosenTrim ⟨trimId.toNat, chosenTrimSlot.toNat⟩))

/-! ## What a batch hands out -/

/-- `token_check`. -/
def tokenCheck (h : Handle) : Option Token → Status
  | none => .nullPointer
  | some token =>
      if token.epoch ≠ h.epoch then .foreignToken
      else if h.batch.phase = .idle then .noBatch
      else if token.generation ≠ h.batch.generation then .staleToken
      else .ok

/-- `output_gate`. -/
def outputGate (h : Handle) : Status :=
  match h.batch.phase with
  | .pending => .writesUnconfirmed
  | .finished => .batchFinished
  | _ => .ok

/-- The gate of the writes and the assigned slots. -/
def finishedGate (h : Handle) : Status :=
  if h.batch.phase = .finished then .batchFinished else .ok

/-- `span`. -/
def span (total offset want : Nat) : Except Status Nat :=
  if offset > total then .error .range else .ok (min want (total - offset))

/-- What a copy takes from a batch. -/
structure CopyRequest where
  token : Option Token
  offset : UInt32
  want : UInt32

/-- The common course of the copies: the token, the gate, the range, and then the copy of `count`
records. -/
def copyOutput (h : Handle) (caller : Caller) (r : CopyRequest) (gate : Handle → Status)
    (total : Batch → Nat) (copy : Handle → Nat → Outcome) : Outcome :=
  entered h caller fun h =>
    match tokenCheck h r.token with
    | .ok =>
        match gate h with
        | .ok =>
            if !caller.storage then refuse h .nullPointer
            else
              match span (total h.batch) r.offset.toNat r.want.toNat with
              | .error status => refuse h status
              | .ok count => copy h count
        | status => refuse h status
    | status => refuse h status

/-- The records of a slice from `offset` on. -/
def slice {α : Type} (records : List α) (offset count : Nat) : List α :=
  (records.drop offset).take count

/-- `effects_messages_slice`, which stops the process while writes are pending. -/
def messagesSlice (h : Handle) : Option (List (Envelope Value)) :=
  if h.writesPending then none else some h.effects.messages

/-- `paxodin_copy_writes`: the only copy before the batch is durable. -/
def paxodinCopyWrites (p : Profile) (h : Handle) (caller : Caller) (r : CopyRequest) : Outcome :=
  copyOutput h caller r finishedGate (·.writeCount) fun h count =>
    some ({ h with batch :=
        { h.batch with
          writesCopiedThrough := max h.batch.writesCopiedThrough (r.offset.toNat + count) } },
      { status := .ok
        writes := (slice h.effects.writes r.offset.toNat count).map (writeToC p.maxValue) })

/-- `paxodin_copy_messages`. -/
def paxodinCopyMessages (p : Profile) (h : Handle) (caller : Caller) (r : CopyRequest) : Outcome :=
  copyOutput h caller r outputGate (·.messageCount) fun h count =>
    match messagesSlice h with
    | none => none
    | some envelopes =>
        some (h,
          { status := .ok
            messages := (slice envelopes r.offset.toNat count).map
              (envelopeToC p.maxValue h.node.configurationId) })

/-- `paxodin_copy_committed`. -/
def paxodinCopyCommitted (p : Profile) (h : Handle) (caller : Caller) (r : CopyRequest) : Outcome :=
  copyOutput h caller r outputGate (·.committedCount) fun h count =>
    some (h,
      { status := .ok
        committed := (slice h.effects.committed r.offset.toNat count).map
          (committedToC p.maxValue) })

/-- `paxodin_copy_requests`. -/
def paxodinCopyRequests (h : Handle) (caller : Caller) (r : CopyRequest) : Outcome :=
  copyOutput h caller r outputGate (·.requestCount) fun h count =>
    some (h,
      { status := .ok
        requests := (slice h.effects.requests r.offset.toNat count).map requestToC })

/-- `paxodin_copy_assigned_slots`. -/
def paxodinCopyAssignedSlots (h : Handle) (caller : Caller) (r : CopyRequest) : Outcome :=
  copyOutput h caller r finishedGate (·.assignedCount) fun h count =>
    some (h, { status := .ok, assigned := slice h.batch.assigned r.offset.toNat count })

/-- `paxodin_batch_report`: the counts of the batch. -/
def paxodinBatchReport (h : Handle) (caller : Caller) (token : Option Token) : Outcome :=
  entered h caller fun h =>
    if !caller.storage then refuse h .nullPointer
    else
      match tokenCheck h token with
      | .ok => some (h, { status := .ok, report := some (reportFill h) })
      | status => refuse h status

/-- `paxodin_confirm`: the host says that every record is durable. -/
def paxodinConfirm (h : Handle) (caller : Caller) (token : Option Token) : Outcome :=
  entered h caller fun h =>
    match tokenCheck h token with
    | .ok =>
        match h.batch.phase with
        | .confirmed => refuse h .ok
        | .finished => refuse h .batchFinished
        | _ =>
            if h.batch.writesCopiedThrough < h.batch.writeCount then refuse h .writesNotCopied
            else
              some ({ h with
                writesPending := false
                batch := { h.batch with phase := .confirmed } }, { status := .ok })
    | status => refuse h status

/-- `paxodin_finish`: closes the batch. -/
def paxodinFinish (h : Handle) (caller : Caller) (token : Option Token) : Outcome :=
  entered h caller fun h =>
    match tokenCheck h token with
    | .ok =>
        match h.batch.phase with
        | .finished => refuse h .ok
        | .pending => refuse h .writesUnconfirmed
        | _ => some ({ h with batch := { h.batch with phase := .finished } }, { status := .ok })
    | status => refuse h status

/-! ## Operations without a batch -/

/-- `paxodin_advance_memory_floor`, between batches. -/
def paxodinAdvanceMemoryFloor (h : Handle) (caller : Caller) (through : UInt64) : Outcome :=
  entered h caller fun h =>
    if h.batch.phase = .pending ∨ h.batch.phase = .confirmed then refuse h .batchPending
    else
      let r := replicatedLogAdvanceMemoryFloor h.node through.toNat
      some ({ h with node := r.1 }, { status := coreStatus r.2 })

/-- `paxodin_set_campaign_enabled`, between batches. -/
def paxodinSetCampaignEnabled (h : Handle) (caller : Caller) (enabled : Bool) : Outcome :=
  entered h caller fun h =>
    some ({ h with node := replicatedLogSetCampaignEnabled h.node enabled }, { status := .ok })

/-! ## Replay -/

/-- `paxodin_replay_apply`: folds one record of the journal. -/
def paxodinReplayApply (p : Profile) (h : Handle) (caller : Caller) (record : Option CWrite) :
    Outcome :=
  entered h caller fun h =>
    match h.replaying, h.replay with
    | true, some ledger =>
        match record with
        | none => refuse h .nullPointer
        | some record =>
            match writeFromC p.maxValue record with
            | .error status => refuse h status
            | .ok write =>
                let r := ledgerReplayFold p.params ledger write
                some ({ h with replay := some r.1 }, { status := coreStatus r.2 })
    | _, _ => refuse h .replayNotActive

/-- `paxodin_replay_restore`: opens the node on the ledger that was folded. -/
def paxodinReplayRestore (p : Profile) (h : Handle) (caller : Caller) (floor : UInt64) : Outcome :=
  entered h caller fun h =>
    match h.replaying, h.replay with
    | true, some ledger =>
        match replicatedLogRestore p.params h.nodeId h.configurationId h.membership ledger floor.toNat
            h.options with
        | .error e => refuse h (coreStatus e)
        | .ok node =>
            some ({ h with
              node := node
              replay := none
              replaying := false
              effects := {}
              writesPending := false
              batch := {} }, { status := .ok })
    | _, _ => refuse h .replayNotActive

/-- `paxodin_replay_abort`: gives the replay up. -/
def paxodinReplayAbort (h : Handle) (caller : Caller) : Outcome :=
  entered h caller fun h =>
    match h.replaying, h.replay with
    | true, some _ => some ({ h with replay := some Ledger.empty }, { status := .ok })
    | _, _ => refuse h .replayNotActive

/-! ## Opening and closing -/

/-- `paxodin_node_close`, which reports the writes it abandons. -/
def paxodinNodeClose (h : Handle) : Outcome :=
  if !h.isOpen then refuse h .ok
  else if h.busy then refuse h .reentrant
  else
    some ({ h with isOpen := false, effects := {}, writesPending := false, replay := none },
      { status := .ok
        abandoned := if h.batch.phase = .pending then h.batch.writeCount else 0 })

/-- `C_Config`, with its flags. -/
structure CConfig where
  configurationId : UInt64
  members : List UInt16
  readQuorum : UInt32
  writeQuorum : UInt32
  electionTimeoutTicks : UInt32
  heartbeatIntervalTicks : UInt32
  resendIntervalTicks : UInt32
  nodeId : UInt16
  priority : UInt8
  campaignDisabled : Bool
  gateOnInherited : Bool
  rotatingOwnership : Bool
  learner : Bool

/-- `config_check`; the capabilities exclude ownership and learners. -/
def configCheck (p : Profile) (config : CConfig) : Status :=
  if config.nodeId = 0 then .invalidArgument
  else if config.configurationId = 0 then .invalidArgument
  else if config.members.length = 0 ∨ config.members.length > p.params.M then .invalidArgument
  else if config.readQuorum.toNat > p.params.M ∨ config.writeQuorum.toNat > p.params.M then
    .invalidArgument
  else if config.rotatingOwnership then .unsupportedCapability
  else if config.learner then .unsupportedCapability
  else .ok

/-- `options_from_c`. -/
def optionsFromC (config : CConfig) : NodeOptions where
  priority := config.priority.toFin
  electionTimeoutTicks := config.electionTimeoutTicks.toNat
  heartbeatIntervalTicks := config.heartbeatIntervalTicks.toNat
  resendIntervalTicks := config.resendIntervalTicks.toNat
  gateProposalsOnInheritedPrefix := config.gateOnInherited
  campaignDisabled := config.campaignDisabled
  rotatingOwnership := config.rotatingOwnership

/-- The zeroed node of a handle that still replays. -/
def zeroNode : ReplicatedLogNode Command where
  core :=
    { initialNode 0 0 ⟨[], 0, 0⟩ .zero with
      nextSlot := 0
      leaderBase := 0
      votingMember := false
      campaignEnabled := false
      electionTimeoutTicks := 0
      heartbeatIntervalTicks := 0
      resendIntervalTicks := 0 }
  configurationId := 0

/-- `handle_create`, in a process with the given epoch counter and fork generation. -/
def handleCreate (p : Profile) (epoch forkGeneration : Nat) (config : CConfig) :
    Except Status Handle :=
  match configCheck p config with
  | .ok =>
      match membershipInit p.params (config.members.map UInt16.toNat) config.readQuorum.toNat
          config.writeQuorum.toNat with
      | .error e => .error (coreStatus e)
      | .ok membership =>
          .ok
            { epoch := epoch + 1
              forkGeneration := forkGeneration
              nodeId := config.nodeId.toNat
              configurationId := config.configurationId.toNat
              options := optionsFromC config
              membership := membership
              node := zeroNode }
  | status => .error status

/-- `finish_open`: the handle takes over the node that was started. -/
def finishOpen (h : Handle) : Except Error (ReplicatedLogNode Command) → Except Status Handle
  | .ok node => .ok { h with node := node }
  | .error e => .error (coreStatus e)

/-- `paxodin_node_open`: a fresh node. -/
def paxodinNodeOpen (p : Profile) (epoch forkGeneration : Nat) (config : CConfig) :
    Except Status Handle :=
  match handleCreate p epoch forkGeneration config with
  | .error status => .error status
  | .ok h =>
      finishOpen h (replicatedLogInit h.nodeId h.configurationId h.membership h.options)

/-- `paxodin_node_open_continue_at`: a node that continues behind a trim anchor. -/
def paxodinNodeOpenContinueAt (p : Profile) (epoch forkGeneration : Nat) (config : CConfig)
    (floor trimId chosenTrimSlot : UInt64) : Except Status Handle :=
  match handleCreate p epoch forkGeneration config with
  | .error status => .error status
  | .ok h =>
      finishOpen h (replicatedLogContinueAt p.params h.nodeId h.configurationId h.membership
        floor.toNat ⟨trimId.toNat, chosenTrimSlot.toNat⟩ h.options)

/-- `paxodin_node_open_for_replay`: a handle that first replays a journal. -/
def paxodinNodeOpenForReplay (p : Profile) (epoch forkGeneration : Nat) (config : CConfig) :
    Except Status Handle :=
  match handleCreate p epoch forkGeneration config with
  | .error status => .error status
  | .ok h => .ok { h with replaying := true, replay := some Ledger.empty }

end PaxosOdin.Bridge
