import PaxosOdin.Core.Election

/-!
# Rotating slot ownership

The slot line is dealt round-robin: a member proposes at round zero, with no phase
one, in the slots it owns.  An idle owner skips its slots with the no-op, and a stalled
prefix is revoked by a bounded phase one at a round above zero.

Main definitions:

- Definition `ownSlotProbe`: the next own slot a suggestion could take.
- Definition `proposeOwned`: a suggestion in the next usable own slot.
- Definition `startRevocation`: phase one over the stalled chunk.
- Definition `tickOwnership`: skips, resubmissions and stall detection.
-/

namespace PaxosOdin

variable {V : Type}

/-! ## Own slots -/

/-- The loop of `own_slot_probe`.  Each round moves to a later slot, and no round runs
past the window, so `W + 1` rounds reach the exit. -/
def ownSlotProbeLoop (P : Params) (n : Node V) : Nat → Nat → Except Error Nat
  | 0, _ => .error .windowFull
  | fuel + 1, slot =>
      if slot = maxSlot then .error .globalSlotExhausted
      else if slot - n.memoryFloor > P.W then .error .windowFull
      else
        let cell := cellOf slot P.W
        let c := n.ledger.cells cell
        let mine := ownershipBallot n.id
        if c.slot = slot then
          if c.state ≠ .chosen ∧ ledgerPromiseFor n.ledger cell ≤ mine then .ok slot
          else ownSlotProbeLoop P n fuel (ownSlotFrom n (slot + 1))
        else if c.slot = 0 ∨ (c.slot ≤ n.memoryFloor ∧ c.state = .chosen) then
          if n.ledger.promised ≤ mine then .ok slot
          else ownSlotProbeLoop P n fuel (ownSlotFrom n (slot + 1))
        else .error .windowFull

/-- The first own slot at or after `start` that a suggestion could take. -/
def ownSlotProbe (P : Params) (n : Node V) (start : Nat) : Except Error Nat :=
  if n.memoryFloor = maxSlot then .error .globalSlotExhausted
  else
    let slot := if start ≤ n.memoryFloor then ownSlotFrom n (n.memoryFloor + 1) else start
    ownSlotProbeLoop P n (P.W + 1) slot

/-- The next own slot this node may still suggest in. -/
def nextUsableOwnSlot (P : Params) (n : Node V) : Node V × Except Error Nat :=
  match ownSlotProbe P n n.ownNext with
  | .ok slot => ({ n with ownNext := slot }, .ok slot)
  | .error e => (n, .error e)

/-- Whether `wanted` suggestions from `cursor` on can be placed now. -/
def ownSlotsAvailable (P : Params) (n : Node V) : Nat → Nat → Error
  | 0, _ => .none
  | wanted + 1, cursor =>
      match ownSlotProbe P n cursor with
      | .error e => e
      | .ok slot => ownSlotsAvailable P n wanted (ownSlotFrom n (slot + 1))

section Proposals

variable [DecidableEq V]

/-- The loop of `propose_owned`.  A slot that a revoker reached first is stepped over,
which happens at most once for each slot of the window. -/
def proposeOwnedLoop (P : Params) (value : V) : Nat → St V → St V × Nat × Error
  | 0, σ => (σ, 0, .windowFull)
  | fuel + 1, σ =>
      match nextUsableOwnSlot P σ.node with
      | (n, .error e) => ({ σ with node := n }, 0, e)
      | (n, .ok slot) =>
          match sendAccept P { σ with node := n } slot (ownershipBallot n.id) value with
          | (σ, .notLeader) =>
              proposeOwnedLoop P value fuel
                { σ with node := { σ.node with ownNext := ownSlotFrom σ.node (slot + 1) } }
          | (σ, .none) =>
              ({ σ with node := { σ.node with
                  ownNext := ownSlotFrom σ.node (slot + 1)
                  highestSeen := max σ.node.highestSeen slot } }, slot, .none)
          | (σ, e) => (σ, slot, e)

/-- Proposes `value` in this node's next usable own slot. -/
def proposeOwned (P : Params) (σ : St V) (value : V) : St V × Nat × Error :=
  proposeOwnedLoop P value (P.W + 1) σ

/-- `SKIP_BURST`: at most this many skips leave per tick. -/
def skipBurst : Nat := 8

/-- The loop of `skip_idle_slots`, with one round of `fuel` for each skip allowed. -/
def skipLoop (P : Params) (noop : V) : Nat → St V → Nat → St V × Nat × Error
  | 0, σ, sent => (σ, sent, .none)
  | fuel + 1, σ, sent =>
      if σ.node.ownNext ≤ σ.node.highestSeen then
        match proposeOwned P σ noop with
        | (σ, _, .windowFull) => (σ, sent, .none)
        | (σ, _, .none) => skipLoop P noop fuel σ (sent + 1)
        | (σ, _, e) => (σ, sent, e)
      else (σ, sent, .none)

/-- No-ops in this node's own slots below the greatest slot anyone has reached. -/
def skipIdleSlots (P : Params) (σ : St V) (noop : V) (budget : Nat) : St V × Nat × Error :=
  skipLoop P noop (min budget skipBurst) σ 0

/-- The loop of `drain_resubmits`.  Each round removes one entry and adds none. -/
def drainLoop (P : Params) : Nat → St V → Nat → St V × Nat × Error
  | 0, σ, sent => (σ, sent, .none)
  | fuel + 1, σ, sent =>
      match σ.node.resubmit with
      | [] => (σ, sent, .none)
      | value :: _ =>
          match proposeOwned P σ value with
          | (σ, _, .windowFull) => (σ, sent, .none)
          | (σ, _, .none) =>
              drainLoop P fuel
                { σ with node := { σ.node with resubmit := σ.node.resubmit.tail } } (sent + 1)
          | (σ, _, e) => (σ, sent, e)

/-- Proposes the queued suggestions again, oldest first. -/
def drainResubmits (P : Params) (σ : St V) : St V × Nat × Error :=
  drainLoop P σ.node.resubmit.length σ 0

/-! ## Revocation -/

/-- The last slot of the chunk a revocation from `base` covers. -/
def revocationLast (P : Params) (n : Node V) (base : Nat) : Nat :=
  min (slotAdd base (P.C - 1)) (min (max n.highestSeen base) (slotAdd n.memoryFloor P.W))

/-- A bounded phase one over the stalled chunk.  The revoker promises itself first, and
stays a follower when a cell of the range cannot carry its promise. -/
def startRevocation (P : Params) (σ : St V) (noop : V) : St V × Error :=
  let n := σ.node
  match nextRound P n with
  | none => (σ, .ballotExhausted)
  | some round =>
      if n.deliveredThrough = maxSlot then (σ, .globalSlotExhausted)
      else
        let base := n.deliveredThrough + 1
        let last := revocationLast P n base
        let ballot := ballotMake round n.priority n.id
        match promiseBounded P σ ballot base last with
        | (σ, false) => ({ σ with node := { σ.node with stallTicks := 0 } }, .none)
        | (σ, true) =>
            let n :=
              { clearElection
                  { σ.node with
                    ballot := ballot
                    role := .preparing
                    noop := some noop
                    electionTicks := 0
                    stallTicks := 0 } with
                recoverBase := base
                recoverLast := last }
            (broadcastAll { σ with node := n } (.prepare ballot base last .bounded), .none)

/-! ## The timer -/

/-- The quiet part of an ownership tick: retransmission, and stall detection. -/
def tickStalled (P : Params) (σ : St V) (noop : V) (proposed : Nat) : St V × Error :=
  let σ :=
    if proposed = 0 ∧ σ.node.resendTicks ≥ σ.node.resendIntervalTicks then
      resendToPeers P { σ with node := { σ.node with resendTicks := 0 } }
    else σ
  if σ.node.deliveredThrough ≥ σ.node.highestSeen then
    ({ σ with node := { σ.node with stallTicks := 0 } }, .none)
  else
    let σ := { σ with node := { σ.node with stallTicks := saturatingIncrement σ.node.stallTicks } }
    if σ.node.stallTicks ≥ σ.node.electionTimeoutTicks ∧ proposed = 0 then
      startRevocation P σ noop
    else if σ.node.stallTicks % σ.node.heartbeatIntervalTicks = 0 then
      let owner := ownerOf σ.node (σ.node.deliveredThrough + 1)
      if owner ≠ σ.node.id then (requestLearn P σ owner, .none) else (σ, .none)
    else (σ, .none)

/-- The ownership side of a tick. -/
def tickOwnership (P : Params) (σ : St V) (noop : V) : St V × Error :=
  if σ.node.role = .preparing then
    if σ.node.electionTicks < σ.node.electionTimeoutTicks then maybeResolveChunk P σ
    else startRevocation P σ noop
  else
    match drainResubmits P σ with
    | (σ, drained, .none) =>
        match skipIdleSlots P σ noop (P.C - drained) with
        | (σ, skipped, .none) => tickStalled P σ noop (drained + skipped)
        | (σ, _, e) => (σ, e)
    | (σ, _, e) => (σ, e)

end Proposals

end PaxosOdin
