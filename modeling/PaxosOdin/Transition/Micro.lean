import Mathlib.Logic.Relation
import PaxosOdin.Core.Step

/-!
# What a transition can do

Every transition is a sequence of a few kinds of small steps: claiming a cell, making a
promise, casting a vote, recording a decision, releasing an entry, sending a message and
filling the candidate's scratch.  `Micro` lists them once, with everything the code has
checked at that point; the properties of the system are derived from this list and not from the
procedures.

Three steps end the transition they occur in and are kept apart in `Final`: the two ways a
campaign starts, and the answer to a Prepare.

Main definitions:

- Definition `Micro`: one small step.
- Definition `Run`: any number of small steps.
- Definition `Final`: a step that ends its transition.
-/

namespace PaxosOdin

variable {V : Type}

/-- The cell of `slot`, whichever slot owns it. -/
abbrev Ledger.cellAt (P : Params) (l : Ledger V) (slot : Nat) : Cell V :=
  l.cells (cellOf slot P.W)

/-- What a transition is given from outside: the envelope it processes, the client values,
the no-op and the slot from which the host wants to catch up.  Where it is known that the
transition goes on to no further chunk, `onward` is false. -/
structure Input (V : Type) where
  heard : Option (Envelope V) := none
  values : List V := []
  noops : List V := []
  catchUp : Option Nat := none
  onward : Bool := true

/-- The input delivers `msg` from `sender` to the node. -/
def Input.Hears (I : Input V) (n : Node V) (sender : Nat) (msg : Message V) : Prop :=
  I.heard = some ⟨sender, n.id, msg⟩

/-! ## What the code has checked -/

/-- The slot is above the trim of the candidate and every frontier a member reported. -/
def AboveReports (n : Node V) (slot : Nat) : Prop :=
  n.ledger.anchor.chosenTrimSlot < slot ∧
    ∀ i < n.membership.members.length,
      (n.election i).chosenThrough < slot ∧ (n.election i).anchor.chosenTrimSlot < slot

/-- The chunk is frozen and `slot` is one of the slots it may drive. -/
structure Drives (n : Node V) (slot : Nat) : Prop where
  role : n.role = .preparing
  frozen : n.recoveryReady = true
  base : n.recoverBase ≤ slot
  last : slot ≤ n.recoverLast
  above : AboveReports n slot

/-- The candidate's choice for a decree of its chunk: the recovered vote, or the no-op
where nothing was recovered. -/
def Selects (n : Node V) (slot : Nat) (value : V) : Prop :=
  let r := n.recovered (slot - n.recoverBase)
  (r.slot = slot ∧ r.state = .voted ∧ r.value = value) ∨
    ((r.slot = slot → r.state = .empty) ∧ n.noop = some value)

/-- Why a campaign proposes `value` in `slot`: it drives the chunk, or it leads and a client gave
the value. -/
inductive Proposal (I : Input V) (n : Node V) (slot : Nat) (value : V) : Prop
  | drive (hdrives : Drives n slot) (hselects : Selects n slot value) (hmax : slot ≠ maxSlot)
  | lead (hrole : n.role = .leader) (hmode : n.ownership = false) (hbase : n.leaderBase ≤ slot)
      (hvalue : value ∈ I.values) (hnext : slot < n.nextSlot)

/-- This node drives `slot` and a write quorum acknowledged its own vote. -/
structure QuorumAcked (P : Params) (n : Node V) (slot : Nat) (value : V) : Prop where
  lead : (n.lead (cellOf slot P.W)).slot = slot
  acked : n.membership.writeQuorumSize ≤ (n.lead (cellOf slot P.W)).acknowledged
  held : (n.ledger.cellAt P slot).slot = slot
  state : (n.ledger.cellAt P slot).state = .voted
  ballot : (n.ledger.cellAt P slot).voteBallot = (n.lead (cellOf slot P.W)).ballot
  value : (n.ledger.cellAt P slot).value = value

/-- Why a node takes `value` for decided in `slot`. -/
inductive Decision (P : Params) (I : Input V) (n : Node V) (slot : Nat) (value : V) : Prop
  | heard (sender : Nat) (h : I.Hears n sender (.commit slot value))
  | recovered (hdrives : Drives n slot)
      (hslot : (n.recovered (slot - n.recoverBase)).slot = slot)
      (hstate : (n.recovered (slot - n.recoverBase)).state = .chosen)
      (hvalue : (n.recovered (slot - n.recoverBase)).value = value)
  | acked (h : QuorumAcked P n slot value)

/-- A message a small step may send, and what backs it. -/
def Sendable (P : Params) (I : Input V) (σ : St V) (e : Envelope V) : Prop :=
  let n := σ.node
  e.sender = n.id ∧
    match e.message with
    | .accept ballot slot value =>
        e.recipient ≠ n.id ∧ ∃ cell, (n.lead cell).slot = slot ∧ (n.lead cell).ballot = ballot ∧
          (.vote ballot slot value ∈ σ.effects.writes ∨
            ((n.ledger.cells cell).slot = slot ∧ (n.ledger.cells cell).state = .voted ∧
              (n.ledger.cells cell).voteBallot = ballot ∧ (n.ledger.cells cell).value = value))
    | .accepted ballot slot decidedThrough =>
        decidedThrough = n.deliveredThrough ∧
          ∃ value, I.Hears n e.recipient (.accept ballot slot value) ∧
            (n.ledger.cellAt P slot).slot = slot ∧ (n.ledger.cellAt P slot).value = value ∧
            (((n.ledger.cellAt P slot).state = .voted ∧
                (n.ledger.cellAt P slot).voteBallot = ballot) ∨
              (n.ledger.cellAt P slot).state = .chosen)
    | .commit slot value =>
        (∃ cell, (cell ∈ n.ledger.chosen ∨ (n.ledger.cells cell).state = .chosen) ∧
            (n.ledger.cells cell).slot = slot ∧ (n.ledger.cells cell).value = value) ∨
          QuorumAcked P n slot value
    | .heartbeat ballot decidedThrough =>
        n.role = .leader ∧ ballot = n.ballot ∧ decidedThrough = n.deliveredThrough
    | .nack _ _ _ decidedThrough => decidedThrough = n.deliveredThrough
    | .learn fromSlot _ => fromSlot = slotSucc n.deliveredThrough ∨ I.catchUp = some fromSlot
    | _ => False

/-- The cell of `slot` holds neither `slot` nor anything the live window may release. -/
def Stuck (P : Params) (n : Node V) (slot : Nat) : Prop :=
  slot ≤ n.memoryFloor + P.W ∧ (n.ledger.cellAt P slot).slot ≠ slot ∧
    (n.ledger.cellAt P slot).slot ≠ 0 ∧
    ¬ ((n.ledger.cellAt P slot).slot ≤ n.memoryFloor ∧ (n.ledger.cellAt P slot).state = .chosen)

/-- A slot of a chunk that needs no further driving. -/
def Settled (P : Params) (n : Node V) (slot : Nat) : Prop :=
  slot ≤ n.memoryFloor ∨ slot ≤ n.deliveredThrough ∨ ¬ AboveReports n slot ∨
    ((n.ledger.cellAt P slot).slot = slot ∧ (n.ledger.cellAt P slot).state ≠ .empty) ∨
    Stuck P n slot

/-- A live cell that still holds the vote of another ballot than this node's. -/
def Overdue (P : Params) (n : Node V) (slot : Nat) : Prop :=
  n.memoryFloor < slot ∧ (n.ledger.cellAt P slot).slot = slot ∧
    (n.ledger.cellAt P slot).state = .voted ∧ (n.ledger.cellAt P slot).voteBallot ≠ n.ballot

/-- A slot above the frontiers holds no vote of another ballot. -/
def Redriven (P : Params) (n : Node V) (slot : Nat) : Prop :=
  Overdue P n slot → slot ≤ n.deliveredThrough ∨ ¬ AboveReports n slot

/-- A value this node voted for at its own round-zero ballot. -/
def OwnSuggestion (n : Node V) (value : V) : Prop :=
  ∃ cell, (n.ledger.cells cell).state = .voted ∧
    (n.ledger.cells cell).voteBallot = ownershipBallot n.id ∧ (n.ledger.cells cell).value = value

/-- A slot that this node owns, or the last slot of all, which nobody proposes in. -/
def OwnAligned (n : Node V) (slot : Nat) : Prop :=
  slot ≤ maxSlot ∧
    (slot = maxSlot ∨ (0 < slot ∧ (slot - 1) % n.membership.members.length = n.selfIndex))

/-- The node does not campaign, or it campaigns at `ballot`. -/
def Yields (n : Node V) (ballot : Nat) : Prop :=
  n.role = .follower ∨ ballot = n.ballot

/-- Why a node promises single decrees to `ballot`: it runs in ownership mode, or a Prepare asks
for it. -/
def PromisesDecrees (I : Input V) (n : Node V) (ballot : Nat) : Prop :=
  n.ownership = true ∨
    ∃ sender first last, I.Hears n sender (.prepare ballot first last .bounded)

/-- The node with another `own_next`. -/
def St.bump (σ : St V) (next : Nat) : St V :=
  { σ with node := { σ.node with ownNext := next } }

/-! ## Small steps -/

/-- The small steps of a learner: cells are claimed, decisions recorded and released, and
messages sent that need no vote. -/
inductive Learn (P : Params) (I : Input V) : St V → St V → Prop
  /-- The greatest slot seen, and the queue of suggestions to propose again. -/
  | note {σ : St V} {highestSeen resubmitsDropped : Nat} {resubmit : List V}
      (hseen : σ.node.highestSeen ≤ highestSeen)
      (hresubmit : ∀ v ∈ resubmit, v ∈ σ.node.resubmit ∨ OwnSuggestion σ.node v) :
      Learn P I σ
        { σ with node :=
          { σ.node with
            highestSeen := highestSeen
            resubmit := resubmit
            resubmitsDropped := resubmitsDropped } }
  /-- `claim_live` opens a free or released cell of the window. -/
  | claim {σ : St V} {slot : Nat} (hlive : σ.node.memoryFloor < slot)
      (hwindow : slot ≤ σ.node.memoryFloor + P.W)
      (hother : (σ.node.ledger.cellAt P slot).slot ≠ slot)
      (hfree : (σ.node.ledger.cellAt P slot).slot = 0 ∨
        ((σ.node.ledger.cellAt P slot).slot ≤ σ.node.memoryFloor ∧
          (σ.node.ledger.cellAt P slot).state = .chosen)) :
      Learn P I σ (σ.withLedger (ledgerOpen σ.node.ledger (cellOf slot P.W) slot))
  /-- A decision is recorded in its cell. -/
  | choose {σ : St V} {slot : Nat} {value : V} (hsource : Decision P I σ.node slot value)
      (hlive : σ.node.memoryFloor < slot) (hwindow : slot ≤ σ.node.memoryFloor + P.W)
      (hheld : (σ.node.ledger.cellAt P slot).slot = slot)
      (hopen : (σ.node.ledger.cellAt P slot).state ≠ .chosen) :
      Learn P I σ
        ((σ.withLedger (ledgerRecordChosen σ.node.ledger (cellOf slot P.W) value)).addWrite
          (.chosen slot value))
  /-- A decision without a cell is released through `pass_through`. -/
  | pass {σ : St V} {slot : Nat} {value : V} (hsource : Decision P I σ.node slot value)
      (hnext : slot = σ.node.deliveredThrough + 1) (hmax : σ.node.deliveredThrough ≠ maxSlot)
      (hlive : σ.node.memoryFloor < slot)
      (hclaim : (claimLive P σ.node slot).2 = none)
      (hfirst : σ.effects.committed = [] ∨ slot ≤ σ.node.memoryFloor + P.W)
      (hlast : lastReleasedPassedThrough σ.effects = false) :
      Learn P I σ
        { (((σ.setPassThrough value).addWrite (.chosen slot value)).addCommitted
            ⟨slot, value, true⟩) with
          node := { (σ.setPassThrough value).node with deliveredThrough := slot } }
  /-- The next decision is released from its cell. -/
  | deliver {σ : St V} (hmax : σ.node.deliveredThrough < maxSlot)
      (hheld : (σ.node.ledger.cellAt P (σ.node.deliveredThrough + 1)).slot =
        σ.node.deliveredThrough + 1)
      (hchosen : (σ.node.ledger.cellAt P (σ.node.deliveredThrough + 1)).state = .chosen) :
      Learn P I σ
        { (σ.addCommitted ⟨σ.node.deliveredThrough + 1,
            (σ.node.ledger.cellAt P (σ.node.deliveredThrough + 1)).value, false⟩) with
          node := { σ.node with deliveredThrough := σ.node.deliveredThrough + 1 } }
  /-- Messages that need no promise. -/
  | send {σ : St V} {es : List (Envelope V)} (h : ∀ e ∈ es, Sendable P I σ e) :
      Learn P I σ (σ.addMessages es)
  /-- A request that the host serves. -/
  | request {σ : St V} {r : ServeRangeRequest} : Learn P I σ (σ.addRequest r)

/-- Any number of small steps of a learner. -/
def LearnRun (P : Params) (I : Input V) : St V → St V → Prop :=
  Relation.ReflTransGen (Learn P I)

/-- One small step of a transition. -/
inductive Micro [DecidableEq V] (P : Params) (I : Input V) : St V → St V → Prop
  /-- A step of the learner. -/
  | learn {σ σ' : St V} (h : Learn P I σ σ') : Micro P I σ σ'
  /-- Timers, hints and frontiers that only grow; a role is only given up. -/
  | idle {σ : St V} {role : Role} {leaderHint : Option Nat}
      {electionTicks heartbeatTicks resendTicks highestObservedRound highestSeen stallTicks gapTicks
        nextSlot ownNext : Nat}
      {resendCursor : Nat → Nat} {resubmit : List V}
      (hrole : role = σ.node.role ∨ role = .follower)
      (hround : σ.node.highestObservedRound ≤ highestObservedRound)
      (hseen : σ.node.highestSeen ≤ highestSeen)
      (hnext : nextSlot = σ.node.nextSlot ∨
        (nextSlot = σ.node.nextSlot + 1 ∧ σ.node.nextSlot ≠ maxSlot))
      (hown : ownNext = σ.node.ownNext ∨
        (σ.node.ownNext ≤ ownNext ∧ OwnAligned σ.node ownNext))
      (hresubmit : ∀ v ∈ resubmit, v ∈ σ.node.resubmit) :
      Micro P I σ
        { σ with node :=
          { σ.node with
            role := role
            leaderHint := leaderHint
            electionTicks := electionTicks
            heartbeatTicks := heartbeatTicks
            resendTicks := resendTicks
            highestObservedRound := highestObservedRound
            highestSeen := highestSeen
            stallTicks := stallTicks
            gapTicks := gapTicks
            nextSlot := nextSlot
            ownNext := ownNext
            resubmit := resubmit
            resendCursor := resendCursor } }
  /-- The progress that a message reports of its sender. -/
  | progress {σ : St V} {sender member decidedThrough : Nat} {msg : Message V}
      (hheard : I.Hears σ.node sender msg)
      (hmember : membershipIndexOf σ.node.membership sender = some member)
      (hreports : messageDecidedThrough msg = some decidedThrough) :
      Micro P I σ
        { σ with node :=
          { σ.node with
            peerDecidedThrough := Function.update σ.node.peerDecidedThrough member
              (max (σ.node.peerDecidedThrough member) decidedThrough) } }
  /-- A promise for every decree. -/
  | promise {σ : St V} {ballot : Nat} (h : σ.node.ledger.promised ≤ ballot)
      (hyields : Yields σ.node ballot) :
      Micro P I σ
        ((σ.withLedger { σ.node.ledger with promised := ballot }).addWrite (.promise ballot))
  /-- A promise for one decree. -/
  | promiseAt {σ : St V} {ballot slot : Nat} (hlive : σ.node.memoryFloor < slot)
      (hwindow : slot ≤ σ.node.memoryFloor + P.W)
      (hheld : (σ.node.ledger.cellAt P slot).slot = slot)
      (h : (σ.node.ledger.cellAt P slot).promisedAt ≤ ballot)
      (hreason : PromisesDecrees I σ.node ballot) :
      Micro P I σ
        ((σ.withLedger (ledgerSetPromiseAt σ.node.ledger (cellOf slot P.W) ballot)).addWrite
          (.promiseAt ballot slot))
  /-- An acceptor's vote. -/
  | vote {σ : St V} {sender ballot slot : Nat} {value : V}
      (hheard : I.Hears σ.node sender (.accept ballot slot value))
      (hlive : σ.node.memoryFloor < slot) (hwindow : slot ≤ σ.node.memoryFloor + P.W)
      (hheld : (σ.node.ledger.cellAt P slot).slot = slot)
      (hopen : (σ.node.ledger.cellAt P slot).state ≠ .chosen)
      (hfresh : (σ.node.ledger.cellAt P slot).state = .voted →
        (σ.node.ledger.cellAt P slot).voteBallot ≠ ballot)
      (hzero : ballotRound ballot = 0 →
        σ.node.ownership = true ∧ ballotNode ballot = ownerOf σ.node slot)
      (hglobal : σ.node.ledger.promised ≤ ballot)
      (hlocal : (σ.node.ledger.cellAt P slot).promisedAt ≤ ballot)
      (hyields : 0 < ballotRound ballot → Yields σ.node ballot) :
      Micro P I σ
        ((σ.withLedger (ledgerRecordVote
            (ledgerSetPromiseAt σ.node.ledger (cellOf slot P.W) ballot)
            (cellOf slot P.W) ballot value)).addWrite (.vote ballot slot value))
  /-- A campaign's own vote for its proposal. -/
  | drive {σ : St V} {slot ballot : Nat} {value : V} (hballot : ballot = σ.node.ballot)
      (hsource : Proposal I σ.node slot value)
      (hlive : σ.node.memoryFloor < slot) (hwindow : slot ≤ σ.node.memoryFloor + P.W)
      (hheld : (σ.node.ledger.cellAt P slot).slot = slot)
      (hopen : (σ.node.ledger.cellAt P slot).state ≠ .chosen)
      (hfresh : (σ.node.lead (cellOf slot P.W)).slot = slot →
        (σ.node.ledger.cellAt P slot).state = .voted →
        (σ.node.ledger.cellAt P slot).voteBallot = ballot →
        (σ.node.ledger.cellAt P slot).value = value)
      (hglobal : σ.node.ledger.promised ≤ ballot)
      (hlocal : (σ.node.ledger.cellAt P slot).promisedAt ≤ ballot) :
      Micro P I σ (voteForProposal σ (cellOf slot P.W) slot ballot value)
  /-- An owner's vote for its own suggestion, in a slot it has not suggested in before. -/
  | own {σ : St V} {slot next : Nat} {value : V} (hmode : σ.node.ownership = true)
      (hvalue : value ∈ I.values ∨ value ∈ I.noops ∨ value ∈ σ.node.resubmit)
      (hmine : ownerOf σ.node slot = σ.node.id)
      (hbeyond : σ.node.ownNext ≤ slot) (hnext : slot < next)
      (haligned : OwnAligned σ.node next)
      (hlive : σ.node.memoryFloor < slot) (hwindow : slot ≤ σ.node.memoryFloor + P.W)
      (hheld : (σ.node.ledger.cellAt P slot).slot = slot)
      (hopen : (σ.node.ledger.cellAt P slot).state ≠ .chosen)
      (hglobal : σ.node.ledger.promised ≤ ownershipBallot σ.node.id)
      (hlocal : (σ.node.ledger.cellAt P slot).promisedAt ≤ ownershipBallot σ.node.id) :
      Micro P I σ
        ((voteForProposal σ (cellOf slot P.W) slot (ownershipBallot σ.node.id) value).bump next)
  /-- The leader counts an acknowledgement. -/
  | acknowledge {σ : St V} {sender member ballot slot decidedThrough : Nat} {lead : Lead}
      (hheard : I.Hears σ.node sender (.accepted ballot slot decidedThrough))
      (hmember : membershipIndexOf σ.node.membership sender = some member)
      (hslot : (σ.node.lead (cellOf slot P.W)).slot = slot)
      (hballot : (σ.node.lead (cellOf slot P.W)).ballot = ballot)
      (hnew : member ∉ (σ.node.lead (cellOf slot P.W)).acknowledgements)
      (hlead : lead = { σ.node.lead (cellOf slot P.W) with
        acknowledgements := insert member (σ.node.lead (cellOf slot P.W)).acknowledgements
        acknowledged := (σ.node.lead (cellOf slot P.W)).acknowledged + 1 }) :
      Micro P I σ
        { σ with node :=
          { σ.node with lead := Function.update σ.node.lead (cellOf slot P.W) lead } }
  /-- The candidate merges a report. -/
  | report {σ : St V} {sender member offset ballot slot vote : Nat} {state : CellState} {value : V}
      (hheard : I.Hears σ.node sender (.promise ballot slot vote state value))
      (hmember : membershipIndexOf σ.node.membership sender = some member)
      (hrole : σ.node.role = .preparing) (hballot : ballot = σ.node.ballot)
      (hfrozen : σ.node.recoveryReady = false)
      (hoffset : recoveryIndex P σ.node slot = some offset) (hstate : state ≠ .empty) :
      Micro P I σ
        { σ with node := (recordReport σ.node member offset slot vote state value).1 }
  /-- The candidate merges a manifest. -/
  | manifest {σ : St V}
      {sender member ballot chosenThrough first last reported : Nat} {anchor : TrimAnchor} {more : Bool}
      (hheard : I.Hears σ.node sender
        (.promiseRange ballot anchor chosenThrough first last reported more))
      (hmember : membershipIndexOf σ.node.membership sender = some member)
      (hrole : σ.node.role = .preparing) (hballot : ballot = σ.node.ballot)
      (hfrozen : σ.node.recoveryReady = false)
      (hlast : first = σ.node.recoverBase → last = σ.node.recoverLast) :
      Micro P I σ
        { σ with node :=
          recordManifest σ.node member anchor chosenThrough first last reported more }
  /-- A read quorum described the chunk: the selection is frozen. -/
  | freeze {σ : St V} (hrole : σ.node.role = .preparing)
      (hfrozen : σ.node.recoveryReady = false)
      (hquorum : σ.node.membership.readQuorumSize ≤ (completeMembers σ.node).length) :
      Micro P I σ
        { σ with node :=
          { σ.node with
            recoveryReady := true
            recoveryMore := (completeMembers σ.node).any fun i => (σ.node.election i).more } }
  /-- The chunk is driven and reports lie above it: the next chunk is announced. -/
  | nextChunk {σ : St V} (hrole : σ.node.role = .preparing)
      (hfrozen : σ.node.recoveryReady = true) (hmore : σ.node.recoveryMore = true)
      (hlast : σ.node.recoverLast ≠ maxSlot)
      (hsettled : ∀ s, σ.node.recoverBase ≤ s → s ≤ σ.node.recoverLast → Settled P σ.node s)
      (hdriven : ∀ s, σ.node.recoverBase ≤ s → s ≤ σ.node.recoverLast → Redriven P σ.node s)
      (honward : I.onward = true) :
      Micro P I σ (beginNextChunk P σ)
  /-- The last chunk is driven: the candidate leads. -/
  | lead {σ : St V} {next : Nat} (hrole : σ.node.role = .preparing)
      (hmode : σ.node.ownership = false)
      (hfrozen : σ.node.recoveryReady = true) (hmore : σ.node.recoveryMore = false)
      (hnext : next = max σ.node.nextSlot
        (slotAdd (max (ledgerHighestUsed P σ.node.ledger)
          (max (quorumFences σ.node).trim (quorumFences σ.node).chosen)) 1))
      (hsettled : ∀ s, σ.node.recoverBase ≤ s → s ≤ σ.node.recoverLast →
        (σ.node.recovered (s - σ.node.recoverBase)).slot = s →
        (σ.node.recovered (s - σ.node.recoverBase)).state ≠ .empty → Settled P σ.node s) :
      Micro P I σ
        { σ with node :=
          { σ.node with
            role := .leader
            leaderHint := some σ.node.id
            nextSlot := next
            leaderBase := next } }

/-- Any number of small steps. -/
def Run [DecidableEq V] (P : Params) (I : Input V) : St V → St V → Prop :=
  Relation.ReflTransGen (Micro P I)

/-! ## The steps that end a transition -/

/-- The node after `start_campaign`. -/
def campaignNode (P : Params) (n : Node V) (ballot : Nat) (noop : V) : Node V :=
  { clearElection
      { n with
        ballot := ballot
        role := .preparing
        leaderHint := none
        noop := some noop
        electionTicks := 0 } with
    recoverBase := n.deliveredThrough + 1
    recoverLast := slotAdd (n.deliveredThrough + 1) (P.C - 1)
    ledger := { n.ledger with promised := ballot } }

/-- The node after `start_revocation` promised the chunk `[base, last]` to itself. -/
def revocationNode (n : Node V) (ballot base last : Nat) (noop : V) : Node V :=
  { clearElection
      { n with
        ballot := ballot
        role := .preparing
        noop := some noop
        electionTicks := 0
        stallTicks := 0 } with
    recoverBase := base
    recoverLast := last }

/-- A step that ends its transition, which began at node `n₀`. -/
inductive Final (P : Params) (I : Input V) (n₀ : Node V) : St V → St V → Prop
  /-- A campaign for every decree starts. -/
  | campaign {σ : St V} {round : Nat} {noop : V} (hmode : n₀.ownership = false)
      (hnoop : noop ∈ I.noops) (hround : nextRound P σ.node = some round)
      (hbase : σ.node.deliveredThrough ≠ maxSlot) :
      Final P I n₀ σ
        (broadcastAll
          (St.addWrite
            { σ with node :=
              campaignNode P σ.node (ballotMake round σ.node.priority σ.node.id) noop }
            (.promise (ballotMake round σ.node.priority σ.node.id)))
          (.prepare (ballotMake round σ.node.priority σ.node.id) (σ.node.deliveredThrough + 1)
            (slotAdd (σ.node.deliveredThrough + 1) (P.C - 1)) .global))
  /-- A revocation starts, after the chunk was promised to this node itself. -/
  | revoke {σ : St V} {round ballot last : Nat} {noop : V} (hmode : n₀.ownership = true)
      (hnoop : noop ∈ I.noops)
      (hballot : ballot = ballotMake round σ.node.priority σ.node.id)
      (hround : round ≤ maxRound)
      (hcurrent : ballotRound σ.node.ballot < round)
      (hpromised : ballotRound σ.node.ledger.promised < round)
      (hvotes : ∀ cell < P.W, ballotRound (σ.node.ledger.cells cell).voteBallot < round)
      (hcells : ∀ cell < P.W, (σ.node.ledger.cells cell).promisedAt ≤ ballot)
      (hfresh : ∀ s, n₀.memoryFloor < s → (n₀.ledger.cellAt P s).slot = s →
        ballotRound (n₀.ledger.cellAt P s).promisedAt < round)
      (hbase : σ.node.deliveredThrough ≠ maxSlot)
      (hlast : last ≤ σ.node.deliveredThrough + P.C) (hroom : last ≤ maxSlot)
      (hchunk : σ.node.deliveredThrough + 1 ≤ last)
      (hclaimed : ∀ s, σ.node.deliveredThrough + 1 ≤ s → s ≤ last → σ.node.memoryFloor < s →
        (σ.node.ledger.cellAt P s).slot = s ∧ (σ.node.ledger.cellAt P s).promisedAt = ballot) :
      Final P I n₀ σ
        (broadcastAll
          { σ with node :=
            revocationNode σ.node ballot (σ.node.deliveredThrough + 1) last noop }
          (.prepare ballot (σ.node.deliveredThrough + 1) last .bounded))
  /-- An acceptor that has promised `ballot` describes the chunk to the candidate. -/
  | answer {σ : St V} {sender ballot first last : Nat} {scope : PrepareScope}
      (hheard : I.Hears σ.node sender (.prepare ballot first last scope))
      (hfirst : first ≠ 0) (hlast : first ≤ last)
      (hquiet : σ.effects.messages = [])
      (hglobal : scope = .global → σ.node.ledger.promised = ballot)
      (hbounded : scope = .bounded → ∀ s, first ≤ s → s ≤ last → σ.node.memoryFloor < s →
        (σ.node.ledger.cellAt P s).slot = s ∧ (σ.node.ledger.cellAt P s).promisedAt = ballot) :
      Final P I n₀ σ (answerPrepare P σ sender ballot first last)

end PaxosOdin
