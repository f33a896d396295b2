import PaxosOdin.Core.Step

/-!
# The reconfigurable log

A replicated log on top of the core node.  Commands and stop signs share one slot line; a decided
stop sign for a newer configuration seals this one, and the next configuration continues at the
slot after it.

Every operation takes the caller's effects and returns them: an operation that returns early leaves
what they held before.

Main definitions:

- Definition `observeEffects`: the seal bookkeeping after a transition.
- Definition `logCall`: the transitions of a `Replicated_Log_Node`.
- Definition `replicatedLogRestore` and its siblings: the ways a node starts.
- Definition `replicatedLogRead` and its siblings: what the log shows, cut at the seal.
-/

namespace PaxosOdin

variable {V : Type}

/-! ## Stop signs and entries -/

/-- A decided configuration change: the next configuration and opaque handover metadata. -/
structure StopSign where
  configurationId : Nat
  members : List Nat
  metadata : List Nat
deriving DecidableEq, Repr

/-- One log entry; `absent` is the nil union. -/
inductive Entry (V : Type) where
  | absent
  | command (value : V)
  | stop (sign : StopSign)
deriving DecidableEq, Repr

instance : Inhabited (Entry V) := ⟨.absent⟩

/-- The loop of `stop_sign_validate_members`; `previous` are the members already checked. -/
def validateMembersLoop (previous : List Nat) : List Nat → Error
  | [] => .none
  | m :: rest =>
      if m = 0 then .invalidNodeId
      else if m ∈ previous then .duplicateNodeId
      else validateMembersLoop (previous ++ [m]) rest

/-- Rejects zero and duplicate member ids. -/
def stopSignValidateMembers (maxMembers : Nat) (members : List Nat) : Error :=
  if members.length = 0 then .emptyMembership
  else if members.length > maxMembers then .tooManyMembers
  else validateMembersLoop [] members

/-- Builds a validated stop sign. -/
def stopSignInit (maxMembers maxMetadata configurationId : Nat) (members metadata : List Nat) :
    Except Error StopSign :=
  if configurationId = 0 then .error .invalidConfigurationId
  else if metadata.length > maxMetadata then .error .metadataTooLarge
  else
    match stopSignValidateMembers maxMembers members with
    | .none => .ok ⟨configurationId, members, metadata⟩
    | e => .error e

/-! ## The node -/

/-- A participant of one configuration. -/
structure ReplicatedLogNode (V : Type) where
  core : Node (Entry V)
  configurationId : Nat
  stopSign : Option StopSign := none
  stopSlot : Nat := 0
  stopPending : Bool := false

/-- `replicated_log_reset_seal` on a core that was just opened. -/
def ReplicatedLogNode.opened (core : Node (Entry V)) (configurationId : Nat) :
    ReplicatedLogNode V :=
  { core := core, configurationId := configurationId }

/-! ## Seal bookkeeping -/

/-- A stop sign that names a configuration newer than this node's, if the entry holds one. -/
def nextStop (configurationId : Nat) : Entry V → Option StopSign
  | .stop sign => if sign.configurationId ≤ configurationId then none else some sign
  | _ => none

/-- Records the earliest decided stop sign that seals this configuration. -/
def observeStop (n : ReplicatedLogNode V) (slot : Nat) (entry : Entry V) : ReplicatedLogNode V :=
  match nextStop n.configurationId entry with
  | none => n
  | some sign =>
      if n.stopSign = none ∨ slot < n.stopSlot then
        { n with stopSign := some sign, stopSlot := slot }
      else n

/-- The undecided stop sign retained in accepted state; a decided one is returned first. -/
def pendingStopSign (P : Params) (n : ReplicatedLogNode V) : Option StopSign :=
  match n.stopSign with
  | some sign => some sign
  | none =>
      (bitSetScan n.core.ledger.used P.W).findSome? fun cell =>
        nextStop n.configurationId (n.core.ledger.cells cell).value

/-- Recalculates whether any uncommitted accepted or leader slot holds a stop sign. -/
def recalculateStopPending (P : Params) (n : ReplicatedLogNode V) : ReplicatedLogNode V :=
  { n with stopPending := (pendingStopSign P n).isSome }

/-- Whether a slot lies above the decided stop sign. -/
def abandoned (n : ReplicatedLogNode V) (slot : Nat) : Bool :=
  n.stopSign.isSome && decide (n.stopSlot < slot)

/-- Drops every released entry above the seal: the batch is cut at the first abandoned slot. -/
def abandonAboveSeal (n : ReplicatedLogNode V) (e : Effects (Entry V)) : Effects (Entry V) :=
  { e with committed := e.committed.takeWhile fun c => !abandoned n c.slot }

/-- Every transition that can release a chosen entry passes through here. -/
def observeEffects (P : Params) (n : ReplicatedLogNode V) (e : Effects (Entry V)) :
    ReplicatedLogNode V × Effects (Entry V) :=
  let n := recalculateStopPending P
    (e.committed.foldl (fun n c => observeStop n c.slot c.value) n)
  (n, abandonAboveSeal n e)

/-- The seal that the decided cells of a restored ledger hold. -/
def observeDurable (P : Params) (n : ReplicatedLogNode V) : ReplicatedLogNode V :=
  recalculateStopPending P
    ((bitSetScan n.core.ledger.chosen P.W).foldl
      (fun n cell =>
        observeStop n (n.core.ledger.cells cell).slot (n.core.ledger.cells cell).value)
      n)

/-- Whether a stop sign is pending or decided. -/
def isSealed (n : ReplicatedLogNode V) : Bool :=
  n.stopPending || n.stopSign.isSome

/-! ## How a node starts -/

section Start

variable [DecidableEq V]

/-- Initializes a voting member of a configuration. -/
def replicatedLogInit (id configurationId : Nat) (membership : Membership) (options : NodeOptions) :
    Except Error (ReplicatedLogNode V) :=
  if configurationId = 0 then .error .invalidConfigurationId
  else
    match nodeInit id membership options with
    | .ok core => .ok (.opened core configurationId)
    | .error e => .error e

/-- Starts an empty node whose window resumes at `floor`. -/
def replicatedLogContinueAt (P : Params) (id configurationId : Nat) (membership : Membership)
    (floor : Nat) (anchor : TrimAnchor) (options : NodeOptions) :
    Except Error (ReplicatedLogNode V) :=
  if configurationId = 0 then .error .invalidConfigurationId
  else
    match nodeContinueAt P id membership floor anchor options with
    | .ok core => .ok (.opened core configurationId)
    | .error e => .error e

/-- Restores a voting member and rediscovers a committed seal. -/
def replicatedLogRestore (P : Params) (id configurationId : Nat) (membership : Membership)
    (ledger : Ledger (Entry V)) (floor : Nat) (options : NodeOptions) :
    Except Error (ReplicatedLogNode V) :=
  if configurationId = 0 then .error .invalidConfigurationId
  else
    match nodeRestore P id membership ledger floor options with
    | .ok core => .ok (observeDurable P (.opened core configurationId))
    | .error e => .error e

end Start

/-! ## Transitions -/

section Transitions

variable [DecidableEq V]

/-- What the log layer does after an inner transition: the bookkeeping is skipped when it failed. -/
def afterInner (P : Params) (n : ReplicatedLogNode V) (σ : St (Entry V)) :
    Error → ReplicatedLogNode V × Effects (Entry V)
  | .none => observeEffects P { n with core := σ.node } σ.effects
  | _ => ({ n with core := σ.node }, σ.effects)

/-- Proposes an application command. -/
def replicatedLogPropose (P : Params) (n : ReplicatedLogNode V) (effects : Effects (Entry V))
    (value : V) :
    (ReplicatedLogNode V × Effects (Entry V)) × Nat × Error :=
  if isSealed n then ((n, effects), 0, .logSealed)
  else
    let r := nodePropose P n.core (.command value)
    (afterInner P n r.1 r.2.2, if r.2.2 = .none then r.2.1 else 0, r.2.2)

/-- Proposes up to `CHUNK_SLOTS` commands as one batch, into a buffer of `capacity` slots. -/
def replicatedLogProposeBatch (P : Params) (n : ReplicatedLogNode V) (effects : Effects (Entry V))
    (values : List V) (capacity : Nat) :
    (ReplicatedLogNode V × Effects (Entry V)) × List Nat × Error :=
  if isSealed n then ((n, effects), [], .logSealed)
  else if values.length = 0 then ((n, effects), [], .emptyBatch)
  else if values.length > P.C then ((n, effects), [], .batchTooLarge)
  else
    let r := nodeProposeBatch P n.core (values.map .command) capacity
    (afterInner P n r.1 r.2.2, if r.2.2 = .none then r.2.1 else [], r.2.2)

/-- Proposes a stop sign that names the next configuration. -/
def replicatedLogProposeStopSign (P : Params) (maxMetadata : Nat) (n : ReplicatedLogNode V)
    (effects : Effects (Entry V)) (nextConfigurationId : Nat) (nextMembers metadata : List Nat) :
    (ReplicatedLogNode V × Effects (Entry V)) × Nat × Error :=
  if isSealed n then ((n, effects), 0, .logSealed)
  else if nextConfigurationId ≤ n.configurationId then
    ((n, effects), 0, .configurationIdRegression)
  else
    match stopSignInit P.M maxMetadata nextConfigurationId nextMembers metadata with
    | .error e => ((n, effects), 0, e)
    | .ok stop =>
        let r := nodePropose P n.core (.stop stop)
        (afterInner P n r.1 r.2.2, if r.2.2 = .none then r.2.1 else 0, r.2.2)

def replicatedLogCampaign (P : Params) (n : ReplicatedLogNode V) (noop : V) :
    (ReplicatedLogNode V × Effects (Entry V)) × Error :=
  let r := nodeCampaign P n.core (.command noop)
  (afterInner P n r.1 r.2, r.2)

def replicatedLogTick (P : Params) (n : ReplicatedLogNode V) (noop : V) :
    (ReplicatedLogNode V × Effects (Entry V)) × Error :=
  let r := nodeTick P n.core (.command noop)
  (afterInner P n r.1 r.2, r.2)

/-- Processes a bare core envelope. -/
def replicatedLogStep (P : Params) (n : ReplicatedLogNode V) (envelope : Envelope (Entry V)) :
    (ReplicatedLogNode V × Effects (Entry V)) × Error :=
  let r := nodeStep P n.core envelope
  (afterInner P n r.1 r.2, r.2)

/-- Checks the configuration before the core may see the envelope. -/
def replicatedLogStepChecked (P : Params) (n : ReplicatedLogNode V) (configurationId : Nat)
    (envelope : Envelope (Entry V)) : (ReplicatedLogNode V × Effects (Entry V)) × Error :=
  if configurationId ≠ n.configurationId then ((n, {}), .configurationMismatch)
  else replicatedLogStep P n envelope

def replicatedLogReconnected (P : Params) (n : ReplicatedLogNode V) (peer : Nat) :
    (ReplicatedLogNode V × Effects (Entry V)) × Error :=
  let r := nodeReconnected P n.core peer
  (({ n with core := r.1.node }, r.1.effects), r.2)

def replicatedLogRequestCatchUp (P : Params) (n : ReplicatedLogNode V) (peer fromSlot : Nat) :
    (ReplicatedLogNode V × Effects (Entry V)) × Error :=
  let r := nodeRequestCatchUp P n.core peer fromSlot
  (({ n with core := r.1.node }, r.1.effects), r.2)

/-- Adopts a chosen trim record. -/
def replicatedLogInstallChosenTrim (n : ReplicatedLogNode V) (anchor : TrimAnchor) :
    (ReplicatedLogNode V × Effects (Entry V)) × Error :=
  let r := nodeInstallChosenTrim n.core anchor
  (({ n with core := r.1.node }, r.1.effects), r.2)

def replicatedLogAdvanceMemoryFloor (n : ReplicatedLogNode V) (through : Nat) :
    ReplicatedLogNode V × Error :=
  let r := nodeAdvanceMemoryFloor n.core through
  ({ n with core := r.1 }, r.2)

def replicatedLogSetCampaignEnabled (n : ReplicatedLogNode V) (enabled : Bool) :
    ReplicatedLogNode V :=
  { n with core := nodeSetCampaignEnabled n.core enabled }

/-- The transitions of a log node. -/
inductive LogCall (V : Type) where
  | campaign (noop : V)
  | propose (value : V)
  | proposeBatch (values : List V) (capacity : Nat)
  | proposeStopSign (nextConfigurationId : Nat) (nextMembers metadata : List Nat)
  | tick (noop : V)
  | step (envelope : Envelope (Entry V))
  | stepChecked (configurationId : Nat) (envelope : Envelope (Entry V))

/-- The node and the caller's effects after a transition, with its result. -/
def logCall (P : Params) (maxMetadata : Nat) (n : ReplicatedLogNode V)
    (effects : Effects (Entry V)) :
    LogCall V → (ReplicatedLogNode V × Effects (Entry V)) × Error
  | .campaign noop => replicatedLogCampaign P n noop
  | .propose value =>
      let r := replicatedLogPropose P n effects value
      (r.1, r.2.2)
  | .proposeBatch values capacity =>
      let r := replicatedLogProposeBatch P n effects values capacity
      (r.1, r.2.2)
  | .proposeStopSign nextConfigurationId nextMembers metadata =>
      let r := replicatedLogProposeStopSign P maxMetadata n effects nextConfigurationId nextMembers
        metadata
      (r.1, r.2.2)
  | .tick noop => replicatedLogTick P n noop
  | .step envelope => replicatedLogStep P n envelope
  | .stepChecked configurationId envelope => replicatedLogStepChecked P n configurationId envelope

end Transitions

/-! ## Queries -/

/-- `node_committed_at`: the decided value of a slot, while it is resident. -/
def nodeCommittedAt (P : Params) (n : Node V) (slot : Nat) : Option V :=
  ledgerChosenAt P n.ledger slot

/-- The loop of `node_read_decided`, which fails on a slot that is not resident. -/
def readDecidedLoop (P : Params) (n : Node V) : List Nat → Option (List (Nat × V))
  | [] => some []
  | slot :: slots =>
      match ledgerChosenAt P n.ledger slot, readDecidedLoop P n slots with
      | some value, some rest => some ((slot, value) :: rest)
      | _, _ => none

/-- `node_read_decided`: the decided suffix from `fromSlot` on, into a buffer of `capacity`
entries. -/
def nodeReadDecided (P : Params) (n : Node V) (fromSlot capacity : Nat) :
    Except Error (List (Nat × V)) :=
  if fromSlot = 0 then .error .invalidSlot
  else if fromSlot > n.deliveredThrough then .ok []
  else if fromSlot ≤ n.memoryFloor then .error .trimmed
  else
    let count := n.deliveredThrough - fromSlot + 1
    if capacity < count then .error .readBufferTooSmall
    else
      match readDecidedLoop P n ((List.range count).map (fromSlot + ·)) with
      | some entries => .ok entries
      | none => .error .trimmed

def replicatedLogRead (P : Params) (n : ReplicatedLogNode V) (slot : Nat) : Option (Entry V) :=
  if abandoned n slot then none else nodeCommittedAt P n.core slot

/-- The decided suffix, cut at the seal. -/
def replicatedLogReadDecided (P : Params) (n : ReplicatedLogNode V) (fromSlot capacity : Nat) :
    Except Error (List (Nat × Entry V)) :=
  match nodeReadDecided P n.core fromSlot capacity with
  | .ok entries => .ok (entries.takeWhile fun e => !abandoned n e.1)
  | .error e => .error e

/-- The decided prefix, which ends at the seal. -/
def replicatedLogDecidedThrough (n : ReplicatedLogNode V) : Nat :=
  if n.stopSign.isSome then min n.core.deliveredThrough n.stopSlot else n.core.deliveredThrough

end PaxosOdin
