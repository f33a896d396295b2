import PaxosOdin.Core.Node

/-!
# Phase two: votes and decisions

Everything a node does with votes, decisions, heartbeats and catch-up requests,
except the timers and the dispatch of messages.

Main definitions:

- Definition `claimLive`: claims the live cell of a slot.
- Definition `emitContiguous`: releases every newly contiguous decision.
- Definition `recordCommit`: records a decision, or passes it through.
- Definition `sendAccept`: a proposer votes for its own proposal and asks its peers.
- Definition `onAccept` and `onAccepted`: the two halves of phase two.
-/

namespace PaxosOdin

variable {V : Type}

/-! ## Sending -/

/-- `send_to`. -/
def sendTo (σ : St V) (peer : Nat) (msg : Message V) : St V :=
  σ.addMessages [⟨σ.node.id, peer, msg⟩]

/-- One envelope to every member but this node. -/
def broadcastPeers (σ : St V) (msg : Message V) : St V :=
  σ.addMessages ((σ.node.membership.members.filter (· ≠ σ.node.id)).map
    fun peer => ⟨σ.node.id, peer, msg⟩)

/-- One envelope to every member, this node included. -/
def broadcastAll (σ : St V) (msg : Message V) : St V :=
  σ.addMessages (σ.node.membership.members.map fun peer => ⟨σ.node.id, peer, msg⟩)

/-- `send_nack`. -/
def sendNack (σ : St V) (peer rejected promised slot : Nat) : St V :=
  sendTo σ peer (.nack rejected promised slot σ.node.deliveredThrough)

/-- A campaign ballot was heard from `sender`. -/
def observeLeader (n : Node V) (sender ballot : Nat) : Node V :=
  { n with
    leaderHint := some sender
    electionTicks := 0
    highestObservedRound := max n.highestObservedRound (ballotRound ballot)
    role := if n.ballot ≠ ballot then .follower else n.role }

/-- The member that owns `slot`. -/
def ownerOf (n : Node V) (slot : Nat) : Nat :=
  membershipGet n.membership (slotSub slot 1 % n.membership.members.length)

/-- A suggestion revoked to another value is proposed again in a later own slot; the
queue is bounded by one chunk. -/
def queueResubmit (P : Params) (n : Node V) (value : V) : Node V :=
  if n.resubmit.length < P.C then { n with resubmit := n.resubmit ++ [value] }
  else { n with resubmitsDropped := saturatingIncrement n.resubmitsDropped }

/-! ## Cells and decisions -/

/-- Claims the live cell for `slot`.  The live window is
`(memoryFloor, memoryFloor + W]`; within it a cell may be reused only when the host
has released its previous slot and that slot is decided. -/
def claimLive (P : Params) (n : Node V) (slot : Nat) : Node V × Option Nat :=
  if slot ≤ n.memoryFloor ∨ slot - n.memoryFloor > P.W then (n, none)
  else
    let cell := cellOf slot P.W
    let c := n.ledger.cells cell
    if c.slot = slot then (n, some cell)
    else if c.slot = 0 ∨ (c.slot ≤ n.memoryFloor ∧ c.state = .chosen) then
      ({ n with ledger := ledgerOpen n.ledger cell slot }, some cell)
    else (n, none)

/-- The loop of `emit_contiguous`.  Each round releases the slot of another cell, so
one round for each cell reaches the loop's exit. -/
def emitContiguousLoop (P : Params) : Nat → St V → St V
  | 0, σ => σ
  | fuel + 1, σ =>
      if σ.node.deliveredThrough < maxSlot then
        let next := σ.node.deliveredThrough + 1
        let c := σ.node.ledger.cells (cellOf next P.W)
        if c.slot ≠ next ∨ c.state ≠ .chosen then σ
        else
          let σ := σ.addCommitted ⟨next, c.value, false⟩
          emitContiguousLoop P fuel { σ with node := { σ.node with deliveredThrough := next } }
      else σ

/-- Releases every newly contiguous decision to the host. -/
def emitContiguous (P : Params) (σ : St V) : St V :=
  emitContiguousLoop P P.W σ

/-- Whether the last entry released in this transition points at `pass_through`. -/
def lastReleasedPassedThrough (e : Effects V) : Bool :=
  match e.committed.getLast? with
  | some c => c.passThrough
  | none => false

section Commit

variable [DecidableEq V]

/-- Records a decision.  A decision for the slot just past the window edge is
released straight to the host, through `pass_through`. -/
def recordCommit (P : Params) (σ : St V) (slot : Nat) (value : V) : St V × Error :=
  if slot = 0 then (σ, .invalidSlot)
  else
    let σ := { σ with node := { σ.node with highestSeen := max σ.node.highestSeen slot } }
    if slot ≤ σ.node.memoryFloor ∨ slot ≤ σ.node.ledger.anchor.chosenTrimSlot then (σ, .none)
    else
      match claimLive P σ.node slot with
      | (_, none) =>
          -- one pass-through per transition: a second would overwrite the first
          if lastReleasedPassedThrough σ.effects then (σ, .none)
          else if slot = slotSucc σ.node.deliveredThrough then
            let σ := σ.setPassThrough value
            let σ := (σ.addWrite (.chosen slot value)).addCommitted ⟨slot, value, true⟩
            let σ := { σ with node := { σ.node with deliveredThrough := slot } }
            (emitContiguous P σ, .none)
          else (σ, .none)
      | (n, some cell) =>
          let σ := { σ with node := n }
          let c := n.ledger.cells cell
          if c.state = .chosen then
            if c.value ≠ value then (σ, .conflictingCommit)
            else (emitContiguous P σ, .none)
          else
            let n :=
              if n.ownership ∧ c.state = .voted ∧ c.voteBallot = ownershipBallot n.id ∧
                  c.value ≠ value then
                queueResubmit P n c.value
              else n
            let n := { n with ledger := ledgerRecordChosen n.ledger cell value }
            let σ := ({ σ with node := n } : St V).addWrite (.chosen slot value)
            (emitContiguous P σ, .none)

/-- A proposer's vote for its own proposal, and the fresh count of acknowledgements, its
own included. -/
def voteForProposal (σ : St V) (cell slot ballot : Nat) (value : V) : St V :=
  let n := σ.node
  let lead : Lead :=
    { slot := slot, ballot := ballot, acknowledgements := {n.selfIndex}, acknowledged := 1 }
  let l := ledgerSetPromiseAt n.ledger cell (max (n.ledger.cells cell).promisedAt ballot)
  let l := ledgerRecordVote l cell ballot value
  ({ σ with node := { n with ledger := l, lead := Function.update n.lead cell lead } } : St V).addWrite
    (.vote ballot slot value)

/-- After its own vote a proposer asks the peers; alone in its write quorum, it first
records the decision. -/
def announceProposal (P : Params) (σ : St V) (slot ballot : Nat) (value : V) : St V × Error :=
  if σ.node.membership.writeQuorumSize = 1 then
    match recordCommit P σ slot value with
    | (σ, .none) => (broadcastPeers σ (.accept ballot slot value), .none)
    | (σ, e) => (σ, e)
  else (broadcastPeers σ (.accept ballot slot value), .none)

/-- The leader votes for its own proposal first (durably), then asks the peers. -/
def sendAccept (P : Params) (σ : St V) (slot ballot : Nat) (value : V) : St V × Error :=
  match claimLive P σ.node slot with
  | (_, none) => (σ, .windowOverrun)
  | (n, some cell) =>
      let σ := { σ with node := n }
      let c := n.ledger.cells cell
      -- a decided cell keeps its decision
      if c.state = .chosen then (σ, .none)
      else if (n.lead cell).slot = slot ∧ c.state = .voted ∧ c.voteBallot = ballot ∧
          c.value ≠ value then
        (σ, .conflictingValue)
      else if ballot < ledgerPromiseFor n.ledger cell then (σ, .notLeader)
      else
        announceProposal P (voteForProposal σ cell slot ballot value) slot ballot value

/-- An acceptor votes when the ballot is at least its promise for that decree.  A
decided cell never votes again; the sender is told the decision instead. -/
def onAccept (P : Params) (σ : St V) (sender ballot slot : Nat) (value : V) : St V × Error :=
  let l := σ.node.ledger
  if slot = 0 then (σ, .invalidSlot)
  else if slot ≤ l.anchor.chosenTrimSlot then (σ, .none)
  -- round zero belongs to the slot's owner alone
  else if ballotRound ballot = 0 ∧
      (!σ.node.ownership ∨ ballotNode ballot ≠ ownerOf σ.node slot) then (σ, .none)
  else if ballot < l.promised then (sendNack σ sender ballot l.promised slot, .none)
  else
    match claimLive P σ.node slot with
    | (_, none) => (σ, .none)
    | (n, some cell) =>
        let n := { n with highestSeen := max n.highestSeen slot }
        let σ := { σ with node := n }
        let c := n.ledger.cells cell
        let acknowledgement : Message V := .accepted ballot slot n.deliveredThrough
        if ballot < c.promisedAt then (sendNack σ sender ballot c.promisedAt slot, .none)
        else if c.state = .chosen then
          if c.value = value then (sendTo σ sender acknowledgement, .none)
          else (sendTo σ sender (.commit slot c.value), .none)
        else if c.state = .voted ∧ c.voteBallot = ballot then
          if c.value ≠ value then (σ, .conflictingValue)
          else (sendTo σ sender acknowledgement, .none)
        else
          -- an owner's overwritten suggestion is proposed again in a later own slot
          let n :=
            if c.state = .voted ∧ n.ownership ∧ c.voteBallot = ownershipBallot n.id ∧
                c.value ≠ value then
              queueResubmit P n c.value
            else n
          let l := ledgerSetPromiseAt n.ledger cell ballot
          let n := { n with ledger := ledgerRecordVote l cell ballot value }
          let n := if ballotRound ballot > 0 then observeLeader n sender ballot else n
          let σ := ({ σ with node := n } : St V).addWrite (.vote ballot slot value)
          (sendTo σ sender acknowledgement, .none)

/-- The leader counts distinct voters; at a write quorum the decree is chosen. -/
def onAccepted (P : Params) (σ : St V) (member ballot slot : Nat) : St V × Error :=
  if slot = 0 then (σ, .invalidSlot)
  else
    let cell := cellOf slot P.W
    let lead := σ.node.lead cell
    if lead.slot ≠ slot ∨ lead.ballot ≠ ballot then (σ, .none)
    else
      let lead :=
        if member ∈ lead.acknowledgements then lead
        else { lead with
          acknowledgements := insert member lead.acknowledgements
          acknowledged := lead.acknowledged + 1 }
      let σ := { σ with node := { σ.node with lead := Function.update σ.node.lead cell lead } }
      if lead.acknowledged < σ.node.membership.writeQuorumSize then (σ, .none)
      else
        let c := σ.node.ledger.cells cell
        -- a late acknowledgement for a slot whose cell or vote has moved on is stale
        if c.slot ≠ slot ∨ c.state = .chosen then (σ, .none)
        else if c.state = .voted ∧ c.voteBallot ≠ ballot then (σ, .none)
        else if c.state ≠ .voted then (σ, .missingProposedValue)
        else
          match recordCommit P σ slot c.value with
          | (σ, .none) =>
              (broadcastPeers σ (.commit slot (σ.node.ledger.cells cell).value), .none)
          | (σ, e) => (σ, e)

/-- A decision announced by a peer. -/
def onCommit (P : Params) (σ : St V) (sender slot : Nat) (value : V) : St V × Error :=
  recordCommit P
    { σ with node := { σ.node with leaderHint := some sender, electionTicks := 0 } } slot value

end Commit

/-! ## Heartbeats and catch-up -/

/-- Asks `peer` for the decisions after this node's prefix. -/
def requestLearn (P : Params) (σ : St V) (peer : Nat) : St V :=
  sendTo σ peer (.learn (slotSucc σ.node.deliveredThrough) P.C)

/-- A heartbeat above the promise means this node missed the leader's prepare;
promising is always safe, and it stops a needless election. -/
def onHeartbeat (P : Params) (σ : St V) (sender ballot decidedThrough : Nat) : St V :=
  let l := σ.node.ledger
  if ballot < l.promised then sendNack σ sender ballot l.promised 0
  else
    let σ :=
      if ballot ≠ l.promised then
        (σ.withLedger { l with promised := ballot }).addWrite (.promise ballot)
      else σ
    let σ := { σ with node := observeLeader σ.node sender ballot }
    if decidedThrough > σ.node.deliveredThrough then requestLearn P σ sender else σ

/-- Answers a catch-up request with the decisions still resident, and asks the host
for anything below the memory floor. -/
def onLearn (P : Params) (σ : St V) (sender fromSlot count : Nat) : St V × Error :=
  if fromSlot = 0 ∨ count = 0 ∨ count > P.C then (σ, .invalidSlot)
  else
    let limit := slotAdd fromSlot (count - 1)
    let σ :=
      if fromSlot ≤ σ.node.memoryFloor then
        σ.addRequest ⟨sender, fromSlot, min limit σ.node.memoryFloor - fromSlot + 1⟩
      else σ
    let l := σ.node.ledger
    let cells := (bitSetScan l.chosen P.W).filter fun cell =>
      decide (fromSlot ≤ (l.cells cell).slot ∧ (l.cells cell).slot ≤ limit)
    (σ.addMessages (cells.map fun cell =>
      ⟨σ.node.id, sender, .commit (l.cells cell).slot (l.cells cell).value⟩), .none)

/-! ## Retransmission -/

/-- The next used cell of a retransmission round, with the cursor and the wrap flag
after looking for it. -/
def resendNext (P : Params) (l : Ledger V) (start cursor : Nat) (wrapped : Bool) :
    Option Nat × Nat × Bool :=
  let found :=
    match bitSetNext l.used P.W cursor with
    | some cell => (some cell, cursor, wrapped)
    | none => if wrapped then (none, cursor, true) else (bitSetNext l.used P.W 0, 0, true)
  match found with
  | (some cell, cursor, wrapped) =>
      if wrapped ∧ cell ≥ start then (none, cursor, wrapped) else (some cell, cursor, wrapped)
  | (none, cursor, wrapped) => (none, cursor, wrapped)

/-- What a retransmission says about a used cell: its decision, or the open vote of the
proposal this node is driving there. -/
def resendMessage (n : Node V) (acknowledged cell : Nat) : Option (Message V) :=
  let c := n.ledger.cells cell
  if c.slot ≤ acknowledged then none
  else
    match c.state with
    | .chosen => some (.commit c.slot c.value)
    | .voted =>
        if (n.lead cell).slot ≠ c.slot ∨ c.voteBallot ≠ (n.lead cell).ballot then none
        else some (.accept (n.lead cell).ballot c.slot c.value)
    | .empty => none

/-- The loop of `resend_to`: the messages to send, and where the next round starts. -/
def resendLoop (P : Params) (n : Node V) (acknowledged start : Nat) :
    Nat → Nat → Bool → Nat → List (Message V) × Nat
  | 0, cursor, _, _ => ([], cursor)
  | fuel + 1, cursor, wrapped, sent =>
      match resendNext P n.ledger start cursor wrapped with
      | (none, cursor, _) => ([], cursor)
      | (some cell, _, wrapped) =>
          match resendMessage n acknowledged cell with
          | none => resendLoop P n acknowledged start fuel (cell + 1) wrapped sent
          | some msg =>
              if sent + 1 = P.C then ([msg], cell + 1)
              else
                let rest := resendLoop P n acknowledged start fuel (cell + 1) wrapped (sent + 1)
                (msg :: rest.1, rest.2)

/-- Retransmits to one peer: a catch-up request if the peer is ahead, then at most one
chunk of the decisions and open votes it has not acknowledged. -/
def resendTo (P : Params) (σ : St V) (peer : Nat) : St V :=
  match membershipIndexOf σ.node.membership peer with
  | none => σ
  | some i =>
      let acknowledged := σ.node.peerDecidedThrough i
      let σ := if acknowledged > σ.node.deliveredThrough then requestLearn P σ peer else σ
      let start := σ.node.resendCursor i
      let sent := resendLoop P σ.node acknowledged start P.W start false 0
      let σ := σ.addMessages (sent.1.map fun msg => ⟨σ.node.id, peer, msg⟩)
      { σ with node := { σ.node with
          resendCursor := Function.update σ.node.resendCursor i (sent.2 % P.W) } }

/-- Retransmits to every peer in turn. -/
def resendToPeers (P : Params) (σ : St V) : St V :=
  (σ.node.membership.members.filter (· ≠ σ.node.id)).foldl (resendTo P) σ

/-- A refusal: this node steps down when its own ballot was refused for a higher one. -/
def onNack (n : Node V) (rejected promised : Nat) : Node V :=
  let n := { n with highestObservedRound := max n.highestObservedRound (ballotRound promised) }
  if rejected ≠ n.ballot ∨ promised ≤ n.ballot then n
  else
    { n with
      role := .follower
      electionTicks := 0
      leaderHint := some (ballotNode promised) }

end PaxosOdin
