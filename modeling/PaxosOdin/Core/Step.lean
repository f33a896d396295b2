import PaxosOdin.Core.Ownership

/-!
# The transitions

The public operations of a participant.  Each starts from reset effects and returns the
node, the effects of the whole transition and the error code.

Main definitions:

- Definition `nodePropose` and `nodeProposeBatch`: client values.
- Definition `nodeTick`: logical time.
- Definition `nodeStep`: one authenticated envelope.
-/

namespace PaxosOdin

variable {V : Type}

/-- `effects_reset`: a transition starts from an empty batch. -/
def St.start (n : Node V) : St V :=
  { node := n }

section Transitions

variable [DecidableEq V]

/-! ## Proposals -/

/-- `proposal_gate`. -/
def proposalGate (n : Node V) : Error :=
  if !n.votingMember then .notVoter
  else if n.ownership then .none
  else if n.role ≠ .leader then .notLeader
  else if n.gateProposalsOnInheritedPrefix ∧ n.deliveredThrough < slotSub n.leaderBase 1 then
    .leaderCatchingUp
  else .none

/-- Proposes one value in the next slot of the term. -/
def proposeNext (P : Params) (σ : St V) (value : V) : St V × Nat × Error :=
  let slot := σ.node.nextSlot
  let σ := { σ with node := { σ.node with nextSlot := slotSucc slot } }
  match sendAccept P σ slot σ.node.ballot value with
  | (σ, e) => (σ, slot, e)

/-- Proposes one value; the leader's own vote is written before any Accept leaves. -/
def nodePropose (P : Params) (n : Node V) (value : V) : St V × Nat × Error :=
  match proposalGate n with
  | .none =>
      if n.ownership then proposeOwned P (St.start n) value
      else if n.nextSlot = maxSlot then (St.start n, 0, .globalSlotExhausted)
      else if slotSub n.nextSlot n.memoryFloor > P.W then (St.start n, 0, .windowFull)
      else proposeNext P (St.start n) value
  | e => (St.start n, 0, e)

/-- The loop of `node_propose_batch`, over one way to propose a value. -/
def proposeAll (propose : St V → V → St V × Nat × Error) :
    St V → List V → St V × List Nat × Error
  | σ, [] => (σ, [], .none)
  | σ, value :: rest =>
      match propose σ value with
      | (σ, slot, .none) =>
          match proposeAll propose σ rest with
          | (σ, slots, .none) => (σ, slot :: slots, .none)
          | (σ, _, e) => (σ, [], e)
      | (σ, _, e) => (σ, [], e)

/-- Proposes up to `CHUNK_SLOTS` values as one batch, into a buffer of `capacity`
slots. -/
def nodeProposeBatch (P : Params) (n : Node V) (values : List V) (capacity : Nat) :
    St V × List Nat × Error :=
  match proposalGate n with
  | .none =>
      if values.length = 0 then (St.start n, [], .emptyBatch)
      else if values.length > P.C then (St.start n, [], .batchTooLarge)
      else if capacity < values.length then (St.start n, [], .slotBufferTooSmall)
      else if n.ownership then
        match ownSlotsAvailable P n values.length n.ownNext with
        | .none => proposeAll (proposeOwned P) (St.start n) values
        | e => (St.start n, [], e)
      else if values.length > maxSlot - n.nextSlot then (St.start n, [], .globalSlotExhausted)
      else
        let occupied := slotSub (slotSub n.nextSlot 1) n.memoryFloor
        if occupied ≥ P.W ∨ values.length > P.W - occupied then (St.start n, [], .windowFull)
        else proposeAll (proposeNext P) (St.start n) values
  | e => (St.start n, [], e)

/-! ## The timer -/

/-- A leader's tick: the inherited-gap timeout, heartbeats and retransmission. -/
def tickLeader (P : Params) (σ : St V) (noop : V) : St V × Error :=
  let n := σ.node
  let stalled := decide (n.deliveredThrough < slotSub n.leaderBase 1)
  let gapTicks := if stalled then saturatingIncrement n.gapTicks else 0
  if stalled ∧ gapTicks ≥ n.electionTimeoutTicks then
    startCampaign P { σ with node := { n with gapTicks := 0 } } noop
  else
    let σ := { σ with node := { n with gapTicks := gapTicks } }
    let σ :=
      if σ.node.heartbeatTicks ≥ σ.node.heartbeatIntervalTicks then
        broadcastPeers { σ with node := { σ.node with heartbeatTicks := 0 } }
          (.heartbeat σ.node.ballot σ.node.deliveredThrough)
      else σ
    let σ :=
      if σ.node.resendTicks ≥ σ.node.resendIntervalTicks then
        resendToPeers P { σ with node := { σ.node with resendTicks := 0 } }
      else σ
    (σ, .none)

/-- Advances logical time. -/
def nodeTick (P : Params) (n : Node V) (noop : V) : St V × Error :=
  if !n.votingMember then (St.start n, .none)
  else
    let n :=
      { n with
        electionTicks := saturatingIncrement n.electionTicks
        heartbeatTicks := saturatingIncrement n.heartbeatTicks
        resendTicks := saturatingIncrement n.resendTicks }
    let σ := St.start n
    if n.ownership then tickOwnership P σ noop
    else if n.role = .leader then tickLeader P σ noop
    else if n.role = .preparing ∧ n.electionTicks < n.electionTimeoutTicks then
      maybeResolveChunk P σ
    else if n.campaignEnabled ∧ n.electionTicks ≥ n.electionTimeoutTicks then
      startCampaign P σ noop
    else (σ, .none)

/-! ## Messages -/

/-- The sender's decided prefix, when the message kind reports it. -/
def messageDecidedThrough : Message V → Option Nat
  | .accepted _ _ decidedThrough => some decidedThrough
  | .heartbeat _ decidedThrough => some decidedThrough
  | .nack _ _ _ decidedThrough => some decidedThrough
  | .promiseRange _ _ chosenThrough _ _ _ _ => some chosenThrough
  | .prepare _ first _ _ => some (slotSub first 1)
  | .learn fromSlot _ => some (slotSub fromSlot 1)
  | _ => none

/-- Records the decided prefix a message reports for the member that sent it. -/
def notePeerProgress (n : Node V) (member : Nat) (msg : Message V) : Node V :=
  match messageDecidedThrough msg with
  | none => n
  | some progress =>
      { n with
        peerDecidedThrough :=
          Function.update n.peerDecidedThrough member
            (max (n.peerDecidedThrough member) progress) }

/-- The dispatch of a voter. -/
def dispatch (P : Params) (σ : St V) (sender member : Nat) : Message V → St V × Error
  | .prepare ballot first last scope => onPrepare P σ sender ballot first last scope
  | .promise ballot slot vote state value => onPromise P σ member ballot slot vote state value
  | .promiseRange ballot anchor chosenThrough first last reported more =>
      onPromiseRange P σ member ballot anchor chosenThrough first last reported more
  | .accept ballot slot value => onAccept P σ sender ballot slot value
  | .accepted ballot slot _ => onAccepted P σ member ballot slot
  | .commit slot value => onCommit P σ sender slot value
  | .learn fromSlot count => onLearn P σ sender fromSlot count
  | .nack rejected promised _ _ => ({ σ with node := onNack σ.node rejected promised }, .none)
  | .heartbeat ballot decidedThrough => (onHeartbeat P σ sender ballot decidedThrough, .none)

/-- Processes one authenticated envelope addressed to this node. -/
def nodeStep (P : Params) (n : Node V) (envelope : Envelope V) : St V × Error :=
  if envelope.recipient ≠ n.id then (St.start n, .wrongRecipient)
  else
    match membershipIndexOf n.membership envelope.sender with
    | none => (St.start n, .notMember)
    | some member =>
        let σ := St.start (notePeerProgress n member envelope.message)
        if !n.votingMember then
          match envelope.message with
          | .commit slot value => onCommit P σ envelope.sender slot value
          | _ => (σ, .learnerMessageForbidden)
        else dispatch P σ envelope.sender member envelope.message

/-! ## Other host operations -/

/-- Installs one value the host has certified as chosen, on a learner. -/
def nodeLearnChosen (P : Params) (n : Node V) (sender slot : Nat) (value : V) : St V × Error :=
  if n.votingMember then (St.start n, .notLearner)
  else if !membershipContains n.membership sender then (St.start n, .notMember)
  else
    recordCommit P (St.start { n with leaderHint := some sender, electionTicks := 0 }) slot value

/-- The transport reports that a peer link came back. -/
def nodeReconnected (P : Params) (n : Node V) (peer : Nat) : St V × Error :=
  if !membershipContains n.membership peer then (St.start n, .notMember)
  else if peer = n.id then (St.start n, .invalidPeer)
  else if n.role = .leader then (resendTo P (St.start n) peer, .none)
  else if n.leaderHint = some peer then (requestLearn P (St.start n) peer, .none)
  else (St.start n, .none)

/-- The host asks a peer for the decisions from `fromSlot` on. -/
def nodeRequestCatchUp (P : Params) (n : Node V) (peer fromSlot : Nat) : St V × Error :=
  if !membershipContains n.membership peer then (St.start n, .notMember)
  else if fromSlot = 0 then (St.start n, .invalidSlot)
  else (sendTo (St.start n) peer (.learn fromSlot P.C), .none)

end Transitions

end PaxosOdin
