import PaxosOdin.Core.Consensus

/-!
# Phase one

A candidate promises itself a ballot, asks every acceptor to promise it for one
chunk of decrees at a time, and re-proposes the greatest vote each decree received.
Holes are filled with the host's no-op.

Main definitions:

- Definition `onPrepare`: an acceptor promises, reports and closes with a manifest.
- Definition `onPromise` and `onPromiseRange`: the candidate gathers the reports.
- Definition `maybeResolveChunk`: a read quorum described the chunk; drive it.
-/

namespace PaxosOdin

variable {V : Type}

/-- The scratch offset of `slot` in the chunk being recovered. -/
def recoveryIndex (P : Params) (n : Node V) (slot : Nat) : Option Nat :=
  if slot < n.recoverBase ∨ slot > n.recoverLast then none
  else if slot - n.recoverBase ≥ P.C then none
  else some (slot - n.recoverBase)

/-- The greatest slot this node holds or a peer reported in the chunk. -/
def highestRecoveredSlot (P : Params) (n : Node V) : Nat :=
  (List.range P.C).foldl
    (fun highest i =>
      if (n.recovered i).state ≠ .empty then max highest (n.recovered i).slot else highest)
    (ledgerHighestUsed P n.ledger)

/-- The slots a new leader may not touch: everything at or below the greatest trim
anchor and the greatest decided prefix any member reported. -/
structure Fences where
  trim : Nat
  chosen : Nat
  chosenPeer : Option Nat

/-- The fences over every member's reports and this node's own frontiers. -/
def quorumFences (n : Node V) : Fences :=
  (List.range n.membership.members.length).foldl
    (fun f i =>
      let peer := n.election i
      let f := { f with trim := max f.trim peer.anchor.chosenTrimSlot }
      if peer.chosenThrough > f.chosen then
        { f with chosen := peer.chosenThrough, chosenPeer := some (membershipGet n.membership i) }
      else f)
    ⟨n.ledger.anchor.chosenTrimSlot, n.deliveredThrough, none⟩

/-! ## The candidate -/

/-- The round above every ballot this node has seen, or `none` when rounds are
exhausted. -/
def nextRound (P : Params) (n : Node V) : Option Nat :=
  let greatest := max n.highestObservedRound (ballotRound n.ballot)
  let greatest := max greatest (ballotRound (ledgerHighestBallot P n.ledger))
  if greatest ≥ maxRound then none else some (greatest + 1)

/-- Starts a campaign.  The candidate is its own first acceptor: its promise is in
this batch, so it is durable before any Prepare leaves. -/
def startCampaign (P : Params) (σ : St V) (noop : V) : St V × Error :=
  let n := σ.node
  if n.deliveredThrough = maxSlot then (σ, .globalSlotExhausted)
  else
    match nextRound P n with
    | none => (σ, .ballotExhausted)
    | some round =>
        let ballot := ballotMake round n.priority n.id
        let base := n.deliveredThrough + 1
        let last := slotAdd base (P.C - 1)
        let n :=
          { clearElection
              { n with
                ballot := ballot
                role := .preparing
                leaderHint := none
                noop := some noop
                electionTicks := 0 } with
            recoverBase := base
            recoverLast := last
            ledger := { n.ledger with promised := ballot } }
        let σ := ({ σ with node := n } : St V).addWrite (.promise ballot)
        (broadcastAll σ (.prepare ballot base last .global), .none)

/-- `node_campaign`. -/
def nodeCampaign (P : Params) (n : Node V) (noop : V) : St V × Error :=
  if !n.votingMember then ({ node := n }, .notVoter)
  else if !n.campaignEnabled || n.ownership then ({ node := n }, .campaignDisabled)
  else startCampaign P { node := n } noop

/-! ## The acceptor -/

/-- The first loop of `promise_bounded`: every slot above the floor has a live cell
whose promise the ballot does not undercut. -/
def claimRange (P : Params) (ballot : Nat) : Node V → List Nat → Node V × Bool
  | n, [] => (n, true)
  | n, slot :: rest =>
      if slot ≤ n.memoryFloor then claimRange P ballot n rest
      else
        match claimLive P n slot with
        | (n, none) => (n, false)
        | (n, some cell) =>
            if ballot < (n.ledger.cells cell).promisedAt then (n, false)
            else claimRange P ballot n rest

/-- The second loop of `promise_bounded`: every claimed cell records the promise. -/
def promiseRange (P : Params) (ballot : Nat) : St V → List Nat → St V
  | σ, [] => σ
  | σ, slot :: rest =>
      let cell := cellOf slot P.W
      if slot ≤ σ.node.memoryFloor then promiseRange P ballot σ rest
      else if (σ.node.ledger.cells cell).promisedAt = ballot then promiseRange P ballot σ rest
      else
        promiseRange P ballot
          ((σ.withLedger (ledgerSetPromiseAt σ.node.ledger cell ballot)).addWrite
            (.promiseAt ballot slot))
          rest

/-- Promises every decree in `[first, last]` individually.  Fails closed when a slot
in the range has no cell to carry its promise. -/
def promiseBounded (P : Params) (σ : St V) (ballot first last : Nat) : St V × Bool :=
  if slotSub last first ≥ P.C then (σ, false)
  else
    let slots := (List.range (slotSub last first + 1)).map (first + ·)
    match claimRange P ballot σ.node slots with
    | (n, false) => ({ σ with node := n }, false)
    | (n, true) => (promiseRange P ballot { σ with node := n } slots, true)

/-- The used cells an acceptor reports for a chunk. -/
def reportedCells (P : Params) (l : Ledger V) (first last : Nat) : List Nat :=
  (bitSetScan l.used P.W).filter fun cell =>
    decide (l.anchor.chosenTrimSlot < (l.cells cell).slot ∧ first ≤ (l.cells cell).slot ∧
      (l.cells cell).slot ≤ last)

/-- Whether used cells lie above the chunk. -/
def hasCellsAbove (P : Params) (l : Ledger V) (first last : Nat) : Bool :=
  (bitSetScan l.used P.W).any fun cell =>
    decide (l.anchor.chosenTrimSlot < (l.cells cell).slot ∧ first ≤ (l.cells cell).slot ∧
      last < (l.cells cell).slot)

/-- Reports every vote or decision held in the chunk, then closes with a manifest. -/
def answerPrepare (P : Params) (σ : St V) (sender ballot first last : Nat) : St V :=
  let l := σ.node.ledger
  let cells := reportedCells P l first last
  let σ := σ.addMessages (cells.map fun cell =>
    let c := l.cells cell
    ⟨σ.node.id, sender, .promise ballot c.slot c.voteBallot c.state c.value⟩)
  sendTo σ sender (.promiseRange ballot l.anchor σ.node.deliveredThrough first last
    cells.length (hasCellsAbove P l first last))

/-- An acceptor answers a prepare: it promises the ballot (durably, before replying)
and describes the chunk. -/
def onPrepare (P : Params) (σ : St V) (sender ballot first last : Nat) (scope : PrepareScope) :
    St V × Error :=
  let l := σ.node.ledger
  if ballot < l.promised then (sendNack σ sender ballot l.promised 0, .none)
  else if first = 0 ∨ last < first then (σ, .invalidSlot)
  else
    match scope with
    | .global =>
        let σ :=
          if ballot ≠ l.promised then
            (σ.withLedger { l with promised := ballot }).addWrite (.promise ballot)
          else σ
        let σ := { σ with node := observeLeader σ.node sender ballot }
        (answerPrepare P σ sender ballot first last, .none)
    | .bounded =>
        match promiseBounded P σ ballot first last with
        | (σ, false) => (σ, .none)
        | (σ, true) =>
            let n := σ.node
            let n := { n with
              highestObservedRound := max n.highestObservedRound (ballotRound ballot) }
            (answerPrepare P { σ with node := n } sender ballot first last, .none)

/-! ## Driving a chunk -/

section Drive

variable [DecidableEq V]

/-- The loop of `resolve_chunk` from `slot`, with one round of `fuel` for each slot up
to the drive limit.  `none` means that the loop ran to its end, and a pair is what the
procedure returns from inside it. -/
def resolveLoop (P : Params) (noop : V) : Nat → St V → Nat → St V × Option (Bool × Error)
  | 0, σ, _ => (σ, none)
  | fuel + 1, σ, slot =>
      if slot = maxSlot then (σ, some (false, .globalSlotExhausted))
      else
        let r := σ.node.recovered (slot - σ.node.recoverBase)
        match ledgerChosenAt P σ.node.ledger slot with
        | some value =>
            resolveLoop P noop fuel (broadcastPeers σ (.commit slot value)) (slot + 1)
        | none =>
            if r.slot = slot ∧ r.state = .chosen then
              match recordCommit P σ slot r.value with
              | (σ, .none) =>
                  let σ :=
                    match ledgerChosenAt P σ.node.ledger slot with
                    | some decided => broadcastPeers σ (.commit slot decided)
                    | none => σ
                  resolveLoop P noop fuel σ (slot + 1)
              | (σ, e) => (σ, some (false, e))
            else
              let value := if r.slot = slot ∧ r.state = .voted then r.value else noop
              match sendAccept P σ slot σ.node.ballot value with
              | (σ, .none) => resolveLoop P noop fuel σ (slot + 1)
              -- a higher ballot already holds this decree: this candidate lost
              | (σ, .notLeader) =>
                  ({ σ with node := { σ.node with role := .follower } }, some (false, .none))
              | (σ, e) => (σ, some (false, e))

/-- The first slot `resolve_chunk` drives: the chunk above the fences. -/
def driveStart (n : Node V) : Nat :=
  max n.recoverBase (max (quorumFences n).trim (quorumFences n).chosen + 1)

/-- The last slot the chunk has to drive before it counts as resolved. -/
def driveGoal (P : Params) (n : Node V) (anyMore : Bool) : Nat :=
  let fence := max (quorumFences n).trim (quorumFences n).chosen
  if anyMore || n.ownership then n.recoverLast
  else min n.recoverLast (max (highestRecoveredSlot P n) fence)

/-- Drives every decree of the chunk above the fences: rebroadcasts a known decision,
re-proposes the greatest recovered vote, or proposes the no-op for a hole.  Returns
false when the window bounded the drive and a tick must retry. -/
def resolveChunk (P : Params) (σ : St V) (noop : V) (anyMore : Bool) : St V × Bool × Error :=
  let fences := quorumFences σ.node
  let fence := max fences.trim fences.chosen
  if fence = maxSlot then (σ, false, .globalSlotExhausted)
  else
    let slot := driveStart σ.node
    let limit := driveGoal P σ.node anyMore
    let driveLimit := min limit (slotAdd σ.node.memoryFloor P.W)
    match resolveLoop P noop (driveLimit + 1 - slot) σ slot with
    | (σ, some (resolved, e)) => (σ, resolved, e)
    | (σ, none) =>
        let σ :=
          if fences.chosen > σ.node.deliveredThrough then
            match fences.chosenPeer with
            | some peer => requestLearn P σ peer
            | none => σ
          else σ
        (σ, decide (limit ≤ driveLimit), .none)

/-- Asks for the next chunk under the same ballot; only the fences are kept. -/
def beginNextChunk (P : Params) (σ : St V) : St V :=
  let n := σ.node
  let base := n.recoverLast + 1
  let last := slotAdd base (P.C - 1)
  let last := if n.ownership then min last (max n.highestSeen base) else last
  let n :=
    { resetRecoveryChunk n with
      recoverBase := base
      recoverLast := last
      election := fun i =>
        if i < n.membership.members.length then
          { anchor := (n.election i).anchor, chosenThrough := (n.election i).chosenThrough }
        else n.election i }
  broadcastAll { σ with node := n }
    (.prepare n.ballot base last (if n.ownership then .bounded else .global))

/-- The last chunk is driven.  A revocation ends here; a campaign begins its term. -/
def becomeLeader (P : Params) (σ : St V) : St V :=
  let n := σ.node
  if n.ownership then
    emitContiguous P { σ with node := { n with role := .follower, stallTicks := 0 } }
  else
    let fences := quorumFences n
    let highest := max (ledgerHighestUsed P n.ledger) (max fences.trim fences.chosen)
    let next := max n.nextSlot (slotAdd highest 1)
    emitContiguous P
      { σ with node :=
        { n with role := .leader, leaderHint := some n.id, nextSlot := next, leaderBase := next } }

/-- Whether a member has fully described the chunk. -/
def peerComplete (n : Node V) (i : Nat) : Bool :=
  (n.election i).rangeDescribed &&
    decide ((n.election i).expectedInRange ≤ (n.election i).receivedInRange)

/-- The members that have fully described the chunk. -/
def completeMembers (n : Node V) : List Nat :=
  (List.range n.membership.members.length).filter (peerComplete n)

/-- Freezes the selection, with whether any complete member reported cells above the
chunk, before any vote leaves. -/
def freezeSelection (n : Node V) : Node V :=
  if n.recoveryReady then n
  else
    { n with
      recoveryReady := true
      recoveryMore := (completeMembers n).any fun i => (n.election i).more }

/-- Drives a frozen chunk; then either moves to the next chunk or becomes leader. -/
def resolveFrozen (P : Params) (σ : St V) (noop : V) : St V × Error :=
  let anyMore := σ.node.recoveryMore
  match resolveChunk P σ noop anyMore with
  | (σ, resolved, .none) =>
      if !resolved then (σ, .none)
      else if anyMore then
        if σ.node.recoverLast = maxSlot then (σ, .globalSlotExhausted)
        else (beginNextChunk P σ, .none)
      else (becomeLeader P σ, .none)
  | (σ, _, e) => (σ, e)

/-- Once a read quorum has fully described the chunk, freeze the selection and drive it. -/
def maybeResolveChunk (P : Params) (σ : St V) : St V × Error :=
  match σ.node.noop with
  | none => (σ, .missingNoop)
  | some noop =>
      if !σ.node.recoveryReady ∧
          (completeMembers σ.node).length < σ.node.membership.readQuorumSize then (σ, .none)
      else resolveFrozen P { σ with node := freezeSelection σ.node } noop

/-! ## Gathering reports -/

/-- The scratch entry of a decree after one more report.  A reported decision
dominates every vote; two values at one ballot contradict each other. -/
def mergeReport (r : Recovered V) (slot vote : Nat) (state : CellState) (value : V) :
    Recovered V × Error :=
  let r : Recovered V := if r.slot ≠ slot then { r with slot := slot, state := .empty } else r
  match r.state with
  | .empty => ({ r with state := state, ballot := vote, value := value }, .none)
  | .chosen => (r, if state = .chosen ∧ r.value ≠ value then .conflictingCommit else .none)
  | .voted =>
      if state = .chosen then ({ r with state := .chosen, value := value }, .none)
      else if vote = r.ballot then (r, if r.value ≠ value then .conflictingValue else .none)
      else if vote > r.ballot then ({ r with ballot := vote, value := value }, .none)
      else (r, .none)

/-- The scratch of the chunk after one report for the decree at offset `cell`. -/
def recordReport (n : Node V) (member cell slot vote : Nat) (state : CellState) (value : V) :
    Node V × Error :=
  let peer := n.election member
  let n :=
    if cell ∈ n.promiseSeen member then n
    else
      { n with
        promiseSeen := Function.update n.promiseSeen member (insert cell (n.promiseSeen member))
        election := Function.update n.election member
          { peer with receivedInRange := peer.receivedInRange + 1 } }
  let merged := mergeReport (n.recovered cell) slot vote state value
  ({ n with recovered := Function.update n.recovered cell merged.1 }, merged.2)

/-- The candidate keeps, per decree, the greatest vote any acceptor reported. -/
def onPromise (P : Params) (σ : St V) (member ballot slot vote : Nat) (state : CellState)
    (value : V) : St V × Error :=
  if σ.node.role ≠ .preparing ∨ ballot ≠ σ.node.ballot then (σ, .none)
  else if σ.node.recoveryReady then maybeResolveChunk P σ
  else
    match recoveryIndex P σ.node slot with
    | none => (σ, .none)
    | some cell =>
        if state = .empty then (σ, .invalidPromise)
        else
          match recordReport σ.node member cell slot vote state value with
          | (n, .none) => maybeResolveChunk P { σ with node := n }
          | (n, e) => ({ σ with node := n }, e)

/-- The scratch of the chunk after one manifest.  The fences of any chunk are kept;
the counts only of this chunk. -/
def recordManifest (n : Node V) (member : Nat) (anchor : TrimAnchor)
    (chosenThrough first last reported : Nat) (more : Bool) : Node V :=
  let peer := n.election member
  let peer :=
    { peer with
      anchor := if anchor.chosenTrimSlot > peer.anchor.chosenTrimSlot then anchor else peer.anchor
      chosenThrough := max peer.chosenThrough chosenThrough }
  let peer :=
    if first ≠ n.recoverBase then peer
    else
      { peer with
        rangeFirst := first
        rangeLast := last
        expectedInRange := reported
        rangeDescribed := true
        more := more }
  { n with election := Function.update n.election member peer }

/-- A manifest closes one member's answer for one chunk. -/
def onPromiseRange (P : Params) (σ : St V) (member ballot : Nat) (anchor : TrimAnchor)
    (chosenThrough first last reported : Nat) (more : Bool) : St V × Error :=
  if σ.node.role ≠ .preparing ∨ ballot ≠ σ.node.ballot then (σ, .none)
  else if σ.node.recoveryReady then maybeResolveChunk P σ
  else if reported > P.C ∨ last < first then (σ, .invalidPromise)
  else if first = σ.node.recoverBase ∧ last ≠ σ.node.recoverLast then (σ, .invalidPromise)
  else
    let n := recordManifest σ.node member anchor chosenThrough first last reported more
    if first ≠ σ.node.recoverBase then ({ σ with node := n }, .none)
    else maybeResolveChunk P { σ with node := n }

end Drive

end PaxosOdin
