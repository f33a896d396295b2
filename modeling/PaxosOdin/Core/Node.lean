import PaxosOdin.Core.Ledger
import PaxosOdin.Core.Membership

/-!
# The participant

One Multi-Paxos participant (proposer, acceptor and learner), its initial states
and the host operations that move its frontiers.

A transition works on a `St`: the node together with the effects it has produced
so far.  Every transition of the source starts from reset effects.

Main definitions:

- Definition `nodeInit`, `nodeRestore`, `nodeContinueAt` and `nodeBeginRecovery`: the
  four ways an incarnation starts.
- Definition `nodeAdvanceMemoryFloor`: the host has durably consumed a prefix.
-/

namespace PaxosOdin

variable {V : Type}

/-- Proposer status. -/
inductive Role where
  | follower
  | preparing
  | leader
deriving DecidableEq, Repr

/-- Runtime tuning for one node; zero timers select the defaults. -/
structure NodeOptions where
  priority : Fin 256 := 0
  electionTimeoutTicks : Nat := 0
  heartbeatIntervalTicks : Nat := 0
  resendIntervalTicks : Nat := 0
  gateProposalsOnInheritedPrefix : Bool := false
  campaignDisabled : Bool := false
  rotatingOwnership : Bool := false

/-- The options of a zeroed node. -/
def NodeOptions.zero : NodeOptions := {}

/-- What one phase-one peer has told the candidate about the current chunk. -/
structure ElectionPeer where
  anchor : TrimAnchor := {}
  chosenThrough : Nat := 0
  rangeFirst : Nat := 0
  rangeLast : Nat := 0
  expectedInRange : Nat := 0
  receivedInRange : Nat := 0
  rangeDescribed : Bool := false
  more : Bool := false

/-- The greatest report a candidate has received for one decree of its chunk. -/
structure Recovered (V : Type) where
  slot : Nat := 0
  ballot : Nat := 0
  state : CellState := .empty
  value : V

/-- The acknowledgements for a slot this leader is driving; the proposal itself is
the leader's own vote in its ledger. -/
structure Lead where
  slot : Nat := 0
  ballot : Nat := 0
  acknowledgements : Finset Nat := ∅
  acknowledged : Nat := 0

/-- One participant.  The arrays of the source are functions of the window cell
(`ledger`, `lead`), the chunk offset (`recovered`) or the member index
(`election`, `promiseSeen`, `peerDecidedThrough`, `resendCursor`). -/
structure Node (V : Type) where
  id : Nat
  membership : Membership
  ledger : Ledger V
  role : Role
  ballot : Nat
  highestObservedRound : Nat
  leaderHint : Option Nat
  nextSlot : Nat
  leaderBase : Nat
  deliveredThrough : Nat
  memoryFloor : Nat
  priority : Fin 256
  votingMember : Bool
  campaignEnabled : Bool
  recoveryReady : Bool
  recoveryMore : Bool
  selfIndex : Nat
  gateProposalsOnInheritedPrefix : Bool
  electionTicks : Nat
  heartbeatTicks : Nat
  resendTicks : Nat
  electionTimeoutTicks : Nat
  heartbeatIntervalTicks : Nat
  resendIntervalTicks : Nat
  peerDecidedThrough : Nat → Nat
  noop : Option V
  passThrough : V
  ownership : Bool
  ownNext : Nat
  highestSeen : Nat
  stallTicks : Nat
  gapTicks : Nat
  resubmit : List V
  resubmitsDropped : Nat
  election : Nat → ElectionPeer
  promiseSeen : Nat → Finset Nat
  recoverBase : Nat
  recoverLast : Nat
  recovered : Nat → Recovered V
  lead : Nat → Lead
  resendCursor : Nat → Nat

/-- A node in the middle of a transition, with the effects produced so far. -/
structure St (V : Type) where
  node : Node V
  effects : Effects V := {}

/-! ## Effects producers -/

/-- `effects_add_write`. -/
def St.addWrite (σ : St V) (w : Write V) : St V :=
  { σ with effects := { σ.effects with writes := σ.effects.writes ++ [w] } }

/-- `effects_add_message`, for several envelopes in order. -/
def St.addMessages (σ : St V) (es : List (Envelope V)) : St V :=
  { σ with effects := { σ.effects with messages := σ.effects.messages ++ es } }

/-- `effects_add_committed`. -/
def St.addCommitted (σ : St V) (c : Committed V) : St V :=
  { σ with effects := { σ.effects with committed := σ.effects.committed ++ [c] } }

/-- `effects_add_request`. -/
def St.addRequest (σ : St V) (r : ServeRangeRequest) : St V :=
  { σ with effects := { σ.effects with requests := σ.effects.requests ++ [r] } }

/-- A record that points at `node.pass_through`, read after that field was overwritten
with `value`; `slots` are the decisions released through the field. -/
def Write.rebind (slots : List Nat) (value : V) : Write V → Write V
  | .chosen slot v => .chosen slot (if slot ∈ slots then value else v)
  | w => w

/-- `node.pass_through = value`: the records and the entries of this batch that already
point at the field read the new value. -/
def St.setPassThrough (σ : St V) (value : V) : St V :=
  let slots := (σ.effects.committed.filter (·.passThrough)).map (·.slot)
  { node := { σ.node with passThrough := value }
    effects :=
      { σ.effects with
        writes := σ.effects.writes.map (Write.rebind slots value)
        committed := σ.effects.committed.map fun c =>
          if c.passThrough then { c with value := value } else c } }

/-- Replaces the ledger of the node. -/
def St.withLedger (σ : St V) (l : Ledger V) : St V :=
  { σ with node := { σ.node with ledger := l } }

/-! ## Initial states -/

/-- The first slot at or after `start` that this node owns. -/
def ownSlotFrom (n : Node V) (start : Nat) : Nat :=
  let count := n.membership.members.length
  let mine := n.selfIndex + 1
  if start ≤ mine then mine
  else
    let offset := (start - mine) % count
    if offset = 0 then start else slotAdd start (count - offset)

/-- A timer option, or its default when it is zero. -/
def orDefault (value fallback : Nat) : Nat :=
  if value ≠ 0 then value else fallback

/-- The recovery scratch of a chunk, invalidated.  Payloads need no clearing: state
and absolute slot tags establish validity. -/
def resetRecoveryChunk (n : Node V) : Node V :=
  { n with
    recoveryReady := false
    recoveryMore := false
    promiseSeen := fun _ => ∅
    recovered := fun i => { slot := 0, ballot := 0, state := .empty, value := (n.recovered i).value } }

/-- Forgets what peers reported and what this node was driving. -/
def clearElection (n : Node V) : Node V :=
  { resetRecoveryChunk { n with election := fun _ => {} } with
    recoverBase := 0
    lead := fun _ => {} }

section Start

variable [Inhabited V]

/-- The zeroed node with the fields `node_init` sets. -/
def initialNode (id selfIndex : Nat) (membership : Membership) (options : NodeOptions) : Node V where
  id := id
  membership := membership
  ledger := Ledger.empty
  role := .follower
  ballot := 0
  highestObservedRound := 0
  leaderHint := none
  nextSlot := 1
  leaderBase := 1
  deliveredThrough := 0
  memoryFloor := 0
  priority := options.priority
  votingMember := true
  campaignEnabled := !options.campaignDisabled
  recoveryReady := false
  recoveryMore := false
  selfIndex := selfIndex
  gateProposalsOnInheritedPrefix := options.gateProposalsOnInheritedPrefix
  electionTicks := 0
  heartbeatTicks := 0
  resendTicks := 0
  electionTimeoutTicks := orDefault options.electionTimeoutTicks 10
  heartbeatIntervalTicks := orDefault options.heartbeatIntervalTicks 3
  resendIntervalTicks := orDefault options.resendIntervalTicks 10
  peerDecidedThrough := fun _ => 0
  noop := none
  passThrough := default
  ownership := options.rotatingOwnership
  ownNext := 0
  highestSeen := 0
  stallTicks := 0
  gapTicks := 0
  resubmit := []
  resubmitsDropped := 0
  election := fun _ => {}
  promiseSeen := fun _ => ∅
  recoverBase := 0
  recoverLast := 0
  recovered := fun _ => { value := default }
  lead := fun _ => {}
  resendCursor := fun _ => 0

/-- Initializes a voting follower. -/
def nodeInit (id : Nat) (membership : Membership) (options : NodeOptions) : Except Error (Node V) :=
  match membershipIndexOf membership id with
  | none => .error .notMember
  | some selfIndex =>
      let n := initialNode id selfIndex membership options
      .ok { n with ownNext := ownSlotFrom n 1 }

/-- Initializes a non-voting learner, whose id lies outside the membership. -/
def nodeInitLearner (id : Nat) (membership : Membership) : Except Error (Node V) :=
  if id = 0 then .error .invalidNodeId
  else if membership.members.length = 0 then .error .emptyMembership
  else if membershipContains membership id then .error .learnerIsVoter
  else
    match nodeInit (membershipGet membership 0) membership {} with
    | .error e => .error e
    | .ok n =>
        .ok { n with id := id, selfIndex := 0, votingMember := false, campaignEnabled := false }

/-- Clears the open cells at or below `base`, the scan of `node_resume_at`. -/
def clearOpenCells (P : Params) (l : Ledger V) (base : Nat) : Ledger V :=
  (List.range P.W).foldl
    (fun l cell =>
      let c := l.cells cell
      if c.slot ≠ 0 ∧ c.slot ≤ base ∧ c.state ≠ .chosen then ledgerClearCell l cell else l)
    l

/-- Clears open votes at or below `base` and recomputes every frontier from the
ledger. -/
def nodeResumeAt (P : Params) (n : Node V) (base : Nat) : Node V :=
  let l := clearOpenCells P n.ledger base
  let next := slotAdd (max (ledgerHighestUsed P l) base) 1
  let n :=
    { n with
      ledger := l
      memoryFloor := base
      deliveredThrough := base
      nextSlot := next
      leaderBase := next
      highestSeen := max n.highestSeen (next - 1) }
  if n.votingMember then { n with ownNext := ownSlotFrom n n.nextSlot } else n

/-- Restores a node from a replayed ledger; `floor` is the slot through which the
host has durably consumed the log. -/
def nodeRestore (P : Params) (id : Nat) (membership : Membership) (ledger : Ledger V) (floor : Nat)
    (options : NodeOptions) : Except Error (Node V) :=
  match nodeInit id membership options with
  | .error e => .error e
  | .ok n => .ok (nodeResumeAt P { n with ledger := ledger } (max floor ledger.anchor.chosenTrimSlot))

/-- Resumes an empty node on the same slot line. -/
def nodeContinueAt (P : Params) (id : Nat) (membership : Membership) (floor : Nat)
    (anchor : TrimAnchor) (options : NodeOptions) : Except Error (Node V) :=
  if anchor.chosenTrimSlot > floor then .error .trimRegression
  else
    match nodeInit id membership options with
    | .error e => .error e
    | .ok n => .ok (nodeResumeAt P { n with ledger := { n.ledger with anchor := anchor } } floor)

/-- Restores a non-voting learner from its decision-only journal. -/
def nodeRestoreLearner (P : Params) (id : Nat) (membership : Membership) (ledger : Ledger V) :
    Except Error (Node V) :=
  match nodeInitLearner id membership with
  | .error e => .error e
  | .ok n => .ok (nodeResumeAt P { n with ledger := ledger } ledger.anchor.chosenTrimSlot)

/-- Installs a certified state image at `anchor`, keeping votes and decisions above
it. -/
def nodeBeginRecovery [DecidableEq V] (P : Params) (n : Node V) (anchor : TrimAnchor) :
    Except Error (Node V) :=
  match ledgerApply P n.ledger (.trim anchor) with
  | (l, .none) =>
      .ok (nodeResumeAt P
        (clearElection
          { n with
            ledger := l
            leaderHint := none
            electionTicks := 0
            heartbeatTicks := 0
            resendTicks := 0
            peerDecidedThrough := fun _ => 0
            resendCursor := fun _ => 0
            role := .follower })
        anchor.chosenTrimSlot)
  | (_, e) => .error e

end Start

/-! ## Host operations -/

/-- Records that the host has durably consumed every released entry through
`through`. -/
def nodeAdvanceMemoryFloor (n : Node V) (through : Nat) : Node V × Error :=
  if through > n.deliveredThrough then (n, .invalidSlot)
  else ({ n with memoryFloor := max n.memoryFloor through }, .none)

/-- Adopts a chosen trim record; emits the record for durability. -/
def nodeInstallChosenTrim (n : Node V) (anchor : TrimAnchor) : St V × Error :=
  let current := n.ledger.anchor
  if anchor.chosenTrimSlot > n.deliveredThrough then ({ node := n }, .invalidSlot)
  else if anchor.trimId < current.trimId then ({ node := n }, .trimRegression)
  else if anchor.trimId = current.trimId then
    ({ node := n }, if anchor = current then .none else .trimRegression)
  else if anchor.chosenTrimSlot < current.chosenTrimSlot then ({ node := n }, .trimRegression)
  else
    let σ := (St.addWrite { node := n } (.trim anchor)).withLedger { n.ledger with anchor := anchor }
    if anchor.chosenTrimSlot > n.memoryFloor then
      ({ σ with node := { σ.node with
          memoryFloor := min anchor.chosenTrimSlot n.deliveredThrough } }, .none)
    else (σ, .none)

/-- Enables or disables election campaigning for this node. -/
def nodeSetCampaignEnabled (n : Node V) (enabled : Bool) : Node V :=
  { n with
    campaignEnabled := enabled && n.votingMember
    role := if !enabled && n.role = .preparing then .follower else n.role }

end PaxosOdin
