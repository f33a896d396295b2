import PaxosOdin.Acceptor.Representation
import PaxosOdin.Lifetime.Admission

/-!
# What a node checks of itself

The checks of `node_assert_valid` look at the identity of a node, at its frontiers and at every
cell of its ledger.  No transition and no host operation can make one of them fail: each takes
any node whose ledger is valid to such a node, wherever the node came from.

Main definitions:

- Definition `nodeAssertValid`: the checks.
- Definition `NodeValid`: the part of them that a transition could break.

Main results:

- Theorem `operate_valid`: every operation keeps it.
- Theorem `representation_kept`: every procedure that changes a ledger keeps it, and the checks
  pass in every reachable state.
-/

namespace PaxosOdin

variable {V : Type} {P : Params}

/-! ## The checks -/

/-- `node_assert_valid`: the conjunction of its assertions, in order. -/
def nodeAssertValid (P : Params) (n : Node V) : Prop :=
  n.id ≠ 0 ∧
    (if n.votingMember then membershipContains n.membership n.id = true
      else membershipContains n.membership n.id = false ∧ n.campaignEnabled = false) ∧
    0 < n.membership.members.length ∧ 1 ≤ n.nextSlot ∧
    ∀ cell < P.W,
      ((n.ledger.cells cell).slot ≠ 0 → cellOf (n.ledger.cells cell).slot P.W = cell) ∧
      ((n.ledger.cells cell).state = .voted →
        (n.ledger.cells cell).voteBallot ≤ ledgerPromiseFor n.ledger cell) ∧
      (cell ∈ n.ledger.used ↔ (n.ledger.cells cell).state ≠ .empty) ∧
      (cell ∈ n.ledger.chosen ↔ (n.ledger.cells cell).state = .chosen)

/-- Who a node is, and whether it may campaign. -/
structure Identity where
  id : Nat
  membership : Membership
  votingMember : Bool
  campaignEnabled : Bool

/-- The identity of a node. -/
def Node.identity (n : Node V) : Identity where
  id := n.id
  membership := n.membership
  votingMember := n.votingMember
  campaignEnabled := n.campaignEnabled

/-- The checks that look at the identity only. -/
structure Identity.Valid (i : Identity) : Prop where
  id : i.id ≠ 0
  voter : i.votingMember = true → membershipContains i.membership i.id = true
  learner : i.votingMember = false →
    membershipContains i.membership i.id = false ∧ i.campaignEnabled = false
  nonempty : 0 < i.membership.members.length

/-- The representation of the ledger, and the frontiers. -/
structure NodeValid (P : Params) (n : Node V) : Prop where
  ledger : LedgerValid P n.ledger
  nextSlot : 1 ≤ n.nextSlot
  floor : n.memoryFloor ≤ n.deliveredThrough

/-- The checks are those of the identity, of the ledger and of `next_slot`. -/
theorem nodeAssertValid_of {n : Node V} (hidentity : n.identity.Valid) (hn : NodeValid P n) :
    nodeAssertValid P n := by
  refine ⟨hidentity.id, ?_, hidentity.nonempty, hn.nextSlot, fun cell hcell => ?_⟩
  · split_ifs with hvoter
    · exact hidentity.voter hvoter
    · exact hidentity.learner (Bool.eq_false_of_not_eq_true hvoter)
  · obtain ⟨htagged, hused, hchosen, hgoverned⟩ := hn.ledger cell hcell
    exact ⟨htagged, hgoverned, hused, hchosen⟩

/-- A step between two nodes that keeps the representation and moves no frontier back. -/
structure Keeps (P : Params) (n n' : Node V) : Prop where
  ledger : LedgerValid P n.ledger → LedgerValid P n'.ledger
  nextSlot : n.nextSlot ≤ n'.nextSlot
  floor : n'.memoryFloor = n.memoryFloor
  delivered : n.deliveredThrough ≤ n'.deliveredThrough
  identity : n'.identity = n.identity

namespace Keeps

variable {n n' n'' : Node V}

/-- Nothing happens. -/
theorem refl (n : Node V) : Keeps P n n :=
  ⟨id, le_rfl, rfl, le_rfl, rfl⟩

/-- One step after another. -/
theorem trans (h : Keeps P n n') (h' : Keeps P n' n'') : Keeps P n n'' where
  ledger := h'.ledger ∘ h.ledger
  nextSlot := h.nextSlot.trans h'.nextSlot
  floor := h'.floor.trans h.floor
  delivered := h.delivered.trans h'.delivered
  identity := h'.identity.trans h.identity

/-- A step that changes the ledger only, up to what the checks do not look at. -/
theorem ofLedger (hledger : LedgerValid P n.ledger → LedgerValid P n'.ledger)
    (hnext : n'.nextSlot = n.nextSlot) (hfloor : n'.memoryFloor = n.memoryFloor)
    (hdelivered : n'.deliveredThrough = n.deliveredThrough) (hidentity : n'.identity = n.identity) :
    Keeps P n n' :=
  ⟨hledger, hnext.ge, hfloor, hdelivered.ge, hidentity⟩

/-- A step from a node that differs only in what the checks do not look at. -/
theorem behind (h : Keeps P n' n'') (hledger : n'.ledger = n.ledger)
    (hnext : n'.nextSlot = n.nextSlot) (hfloor : n'.memoryFloor = n.memoryFloor)
    (hdelivered : n'.deliveredThrough = n.deliveredThrough) (hidentity : n'.identity = n.identity) :
    Keeps P n n'' where
  ledger := hledger ▸ h.ledger
  nextSlot := hnext ▸ h.nextSlot
  floor := hfloor ▸ h.floor
  delivered := hdelivered ▸ h.delivered
  identity := h.identity.trans hidentity

/-- A valid node stays valid. -/
theorem valid (h : Keeps P n n') (hn : NodeValid P n) : NodeValid P n' where
  ledger := h.ledger hn.ledger
  nextSlot := hn.nextSlot.trans h.nextSlot
  floor := by
    rw [h.floor]
    exact hn.floor.trans h.delivered

end Keeps

/-! ## Votes and decisions -/

/-- A suggestion is queued again. -/
theorem queueResubmit_keeps (n : Node V) (value : V) : Keeps P n (queueResubmit P n value) := by
  unfold queueResubmit
  split_ifs <;> exact ⟨id, le_rfl, rfl, le_rfl, rfl⟩

/-- A claim opens an empty cell, unused and without a promise of its own. -/
theorem claimLive_keeps (n : Node V) (slot : Nat) : Keeps P n (claimLive P n slot).1 := by
  unfold claimLive
  dsimp only
  split_ifs
  · exact Keeps.refl n
  · exact Keeps.refl n
  · exact .ofLedger (fun h => h.open fun _ => rfl) rfl rfl rfl rfl
  · exact Keeps.refl n

/-- A release moves the delivered prefix on. -/
theorem emitContiguousLoop_keeps (fuel : Nat) (σ : St V) :
    Keeps P σ.node (emitContiguousLoop P fuel σ).node := by
  induction fuel generalizing σ with
  | zero => exact Keeps.refl _
  | succ fuel ih =>
      unfold emitContiguousLoop
      dsimp only
      split_ifs
      · exact Keeps.refl _
      · apply Keeps.trans _ (ih _)
        exact ⟨id, le_rfl, rfl, Nat.le_succ _, rfl⟩
      · exact Keeps.refl _

/-- So do all releases of one emission. -/
theorem emitContiguous_keeps (σ : St V) : Keeps P σ.node (emitContiguous P σ).node :=
  emitContiguousLoop_keeps P.W σ

/-- A resend moves a cursor of the leader. -/
theorem resendTo_keeps (σ : St V) (peer : Nat) : Keeps P σ.node (resendTo P σ peer).node := by
  unfold resendTo
  cases membershipIndexOf σ.node.membership peer with
  | none => exact Keeps.refl _
  | some i =>
      dsimp only
      split_ifs
      · exact ⟨id, le_rfl, rfl, le_rfl, rfl⟩
      · exact ⟨id, le_rfl, rfl, le_rfl, rfl⟩

/-- Resends to several peers. -/
theorem resendAll_keeps (peers : List Nat) (σ : St V) :
    Keeps P σ.node (peers.foldl (resendTo P) σ).node := by
  induction peers generalizing σ with
  | nil => exact Keeps.refl _
  | cons peer peers ih => exact (resendTo_keeps σ peer).trans (ih _)

/-- Resends to every peer. -/
theorem resendToPeers_keeps (σ : St V) : Keeps P σ.node (resendToPeers P σ).node :=
  resendAll_keeps _ σ

/-- A leader is heard of. -/
theorem observeLeader_keeps (n : Node V) (sender ballot : Nat) :
    Keeps P n (observeLeader n sender ballot) :=
  ⟨id, le_rfl, rfl, le_rfl, rfl⟩

/-- A heartbeat may ask for what is missing. -/
theorem onHeartbeat_keeps (σ : St V) (sender ballot decidedThrough : Nat) :
    Keeps P σ.node (onHeartbeat P σ sender ballot decidedThrough).node := by
  unfold onHeartbeat
  dsimp only
  by_cases hlow : ballot < σ.node.ledger.promised
  · rw [if_pos hlow]
    exact Keeps.refl _
  · rw [if_neg hlow]
    have hpromise : Keeps P σ.node
        (if ballot ≠ σ.node.ledger.promised then
          (σ.withLedger { σ.node.ledger with promised := ballot }).addWrite (.promise ballot)
          else σ).node := by
      split_ifs
      · exact .ofLedger (fun h => h.promise (Nat.le_of_not_lt hlow)) rfl rfl rfl rfl
      · exact Keeps.refl _
    have hseen := hpromise.trans (observeLeader_keeps _ sender ballot)
    split_ifs at hseen ⊢ <;> exact hseen

/-- An answer to a catch-up request only sends. -/
theorem onLearn_keeps (σ : St V) (sender fromSlot count : Nat) :
    Keeps P σ.node (onLearn P σ sender fromSlot count).1.node := by
  unfold onLearn
  dsimp only
  split_ifs <;> exact Keeps.refl _

/-- A rejection ends a term or a campaign. -/
theorem onNack_keeps (n : Node V) (rejected promised : Nat) :
    Keeps P n (onNack n rejected promised) := by
  unfold onNack
  dsimp only
  split_ifs <;> exact ⟨id, le_rfl, rfl, le_rfl, rfl⟩

section Decide

variable [DecidableEq V]

/-- A decision is recorded in its own cell, which becomes used, or passed through. -/
theorem recordCommit_keeps (σ : St V) (slot : Nat) (value : V) :
    Keeps P σ.node (recordCommit P σ slot value).1.node := by
  unfold recordCommit
  by_cases hzero : slot = 0
  · rw [if_pos hzero]
    exact Keeps.refl _
  rw [if_neg hzero]
  dsimp only
  have hseen : Keeps P σ.node { σ.node with highestSeen := max σ.node.highestSeen slot } :=
    ⟨id, le_rfl, rfl, le_rfl, rfl⟩
  by_cases hlow : slot ≤ σ.node.memoryFloor ∨ slot ≤ σ.node.ledger.anchor.chosenTrimSlot
  · rw [if_pos hlow]
    exact hseen
  rw [if_neg hlow]
  have hclaim := hseen.trans (claimLive_keeps (P := P) _ slot)
  rcases hcase : claimLive P { σ.node with highestSeen := max σ.node.highestSeen slot } slot with
    ⟨n, _ | cell⟩
  · dsimp only
    split_ifs with hreleased hnext
    · exact hseen
    · apply Keeps.trans _ (emitContiguous_keeps _)
      -- the slot past the prefix does not wrap, since it is not zero
      have hgrow : σ.node.deliveredThrough ≤ slot := by
        unfold slotSucc at hnext
        split_ifs at hnext
        · exact absurd hnext hzero
        · omega
      exact ⟨id, le_rfl, rfl, hgrow, rfl⟩
    · exact hseen
  · rw [hcase] at hclaim
    dsimp only at hclaim ⊢
    by_cases hchosen : (n.ledger.cells cell).state = .chosen
    · rw [if_pos hchosen]
      split_ifs
      · exact hclaim
      · exact hclaim.trans (emitContiguous_keeps { σ with node := n })
    · rw [if_neg hchosen]
      apply Keeps.trans _ (emitContiguous_keeps _)
      apply hclaim.trans
      split_ifs
      · apply (queueResubmit_keeps n (n.ledger.cells cell).value).trans
        exact .ofLedger (fun h => h.recordChosen) rfl rfl rfl rfl
      · exact .ofLedger (fun h => h.recordChosen) rfl rfl rfl rfl

/-- A proposal that was voted for is announced, or decided at once. -/
theorem announceProposal_keeps (σ : St V) (slot ballot : Nat) (value : V) :
    Keeps P σ.node (announceProposal P σ slot ballot value).1.node := by
  unfold announceProposal
  split_ifs
  · have hcommit := recordCommit_keeps (P := P) σ slot value
    rcases hcase : recordCommit P σ slot value with ⟨τ, e⟩
    rw [hcase] at hcommit
    cases e <;> exact hcommit
  · exact Keeps.refl _

/-- A proposal is voted for in its own cell, at its own ballot. -/
theorem sendAccept_keeps (σ : St V) (slot ballot : Nat) (value : V) :
    Keeps P σ.node (sendAccept P σ slot ballot value).1.node := by
  unfold sendAccept
  have hclaim := claimLive_keeps (P := P) σ.node slot
  rcases hcase : claimLive P σ.node slot with ⟨n, _ | cell⟩
  · exact Keeps.refl _
  · rw [hcase] at hclaim
    dsimp only at hclaim ⊢
    by_cases hchosen : (n.ledger.cells cell).state = .chosen
    · rw [if_pos hchosen]
      exact hclaim
    · rw [if_neg hchosen]
      split_ifs
      · exact hclaim
      · exact hclaim
      · apply Keeps.trans _ (announceProposal_keeps _ slot ballot value)
        apply hclaim.trans
        exact .ofLedger (fun h => h.vote hchosen (le_max_left _ _) (le_max_right _ _)) rfl rfl rfl rfl

/-- Another proposer's value is voted for at a ballot that the promises allow. -/
theorem onAccept_keeps (σ : St V) (sender ballot slot : Nat) (value : V) :
    Keeps P σ.node (onAccept P σ sender ballot slot value).1.node := by
  unfold onAccept
  dsimp only
  by_cases hzero : slot = 0
  · rw [if_pos hzero]
    exact Keeps.refl _
  rw [if_neg hzero]
  by_cases htrim : slot ≤ σ.node.ledger.anchor.chosenTrimSlot
  · rw [if_pos htrim]
    exact Keeps.refl _
  rw [if_neg htrim]
  by_cases howner : ballotRound ballot = 0 ∧
      (!σ.node.ownership ∨ ballotNode ballot ≠ ownerOf σ.node slot)
  · rw [if_pos howner]
    exact Keeps.refl _
  rw [if_neg howner]
  by_cases hglobal : ballot < σ.node.ledger.promised
  · rw [if_pos hglobal]
    exact Keeps.refl _
  rw [if_neg hglobal]
  have hclaim := claimLive_keeps (P := P) σ.node slot
  rcases hcase : claimLive P σ.node slot with ⟨n, _ | cell⟩
  · exact Keeps.refl _
  rw [hcase] at hclaim
  have hseen : Keeps P σ.node { n with highestSeen := max n.highestSeen slot } :=
    hclaim.trans ⟨id, le_rfl, rfl, le_rfl, rfl⟩
  dsimp only
  by_cases hlow : ballot < (n.ledger.cells cell).promisedAt
  · rw [if_pos hlow]
    exact hseen
  rw [if_neg hlow]
  by_cases hchosen : (n.ledger.cells cell).state = .chosen
  · rw [if_pos hchosen]
    split_ifs <;> exact hseen
  rw [if_neg hchosen]
  by_cases hagain : (n.ledger.cells cell).state = .voted ∧ (n.ledger.cells cell).voteBallot = ballot
  · rw [if_pos hagain]
    split_ifs <;> exact hseen
  rw [if_neg hagain]
  have hvote : ∀ m : Node V, m.ledger = n.ledger → Keeps P σ.node m →
      Keeps P σ.node { m with
        ledger := ledgerRecordVote (ledgerSetPromiseAt m.ledger cell ballot) cell ballot value } := by
    intro m hm h
    apply h.trans
    refine ⟨?_, le_rfl, rfl, le_rfl, rfl⟩
    intro hl
    apply hl.vote
    · rw [hm]
      exact hchosen
    · rw [hm]
      exact Nat.le_of_not_lt hlow
    · exact le_rfl
  have hqueue : (queueResubmit P { n with highestSeen := max n.highestSeen slot }
      (n.ledger.cells cell).value).ledger = n.ledger := by
    unfold queueResubmit
    split_ifs <;> rfl
  have hfresh := hvote { n with highestSeen := max n.highestSeen slot } rfl hseen
  have hqueued := hvote _ hqueue (hseen.trans (queueResubmit_keeps _ _))
  split_ifs
  · exact hqueued.trans (observeLeader_keeps _ _ _)
  · exact hfresh.trans (observeLeader_keeps _ _ _)
  · exact hqueued
  · exact hfresh

/-- An acknowledgement is counted, and may decide the slot. -/
theorem onAccepted_keeps (σ : St V) (member ballot slot : Nat) :
    Keeps P σ.node (onAccepted P σ member ballot slot).1.node := by
  unfold onAccepted
  dsimp only
  generalize (if member ∈ (σ.node.lead (cellOf slot P.W)).acknowledgements then
    σ.node.lead (cellOf slot P.W) else
    { σ.node.lead (cellOf slot P.W) with
      acknowledgements := insert member (σ.node.lead (cellOf slot P.W)).acknowledgements
      acknowledged := (σ.node.lead (cellOf slot P.W)).acknowledged + 1 }) = lead
  have hcount : Keeps P σ.node
      { σ.node with lead := Function.update σ.node.lead (cellOf slot P.W) lead } :=
    ⟨id, le_rfl, rfl, le_rfl, rfl⟩
  split_ifs
  · exact Keeps.refl _
  · exact Keeps.refl _
  · exact hcount
  · exact hcount
  · exact hcount
  · exact hcount
  · have hcommit := hcount.trans (recordCommit_keeps (P := P)
      { σ with node := { σ.node with lead := Function.update σ.node.lead (cellOf slot P.W) lead } }
      slot (σ.node.ledger.cells (cellOf slot P.W)).value)
    rcases hcase : recordCommit P
      { σ with node := { σ.node with lead := Function.update σ.node.lead (cellOf slot P.W) lead } }
      slot (σ.node.ledger.cells (cellOf slot P.W)).value with ⟨τ, e⟩
    rw [hcase] at hcommit
    cases e <;> exact hcommit

/-- A peer's decision is recorded. -/
theorem onCommit_keeps (σ : St V) (sender slot : Nat) (value : V) :
    Keeps P σ.node (onCommit P σ sender slot value).1.node := by
  exact (recordCommit_keeps
    { σ with node := { σ.node with leaderHint := some sender, electionTicks := 0 } } slot
    value).behind rfl rfl rfl rfl rfl

/-! ## Phase one -/

omit [DecidableEq V] in
/-- Claiming a cell raises no promise. -/
theorem claimLive_promisedAt (n : Node V) (slot i : Nat) :
    ((claimLive P n slot).1.ledger.cells i).promisedAt ≤ (n.ledger.cells i).promisedAt := by
  unfold claimLive
  dsimp only
  split_ifs
  · exact le_rfl
  · exact le_rfl
  · dsimp only
    rw [ledgerOpen_cells]
    split_ifs
    · exact Nat.zero_le _
    · exact le_rfl
  · exact le_rfl

omit [DecidableEq V] in
/-- The first loop of `promise_bounded` keeps a node, and where it succeeds no cell of the range
has promised more than the ballot. -/
theorem claimRange_keeps (ballot : Nat) (slots : List Nat) (n : Node V) :
    Keeps P n (claimRange P ballot n slots).1 ∧
      (∀ i, ((claimRange P ballot n slots).1.ledger.cells i).promisedAt ≤
        (n.ledger.cells i).promisedAt) ∧
      ((claimRange P ballot n slots).2 = true → ∀ slot ∈ slots, n.memoryFloor < slot →
        ((claimRange P ballot n slots).1.ledger.cells (cellOf slot P.W)).promisedAt ≤ ballot) := by
  induction slots generalizing n with
  | nil => exact ⟨Keeps.refl n, fun _ => le_rfl, fun _ _ h => absurd h List.not_mem_nil⟩
  | cons slot rest ih =>
      rw [claimRange]
      by_cases hlow : slot ≤ n.memoryFloor
      · rw [if_pos hlow]
        obtain ⟨hkeeps, hless, hdone⟩ := ih n
        refine ⟨hkeeps, hless, fun hok s hs hfloor => ?_⟩
        rcases List.mem_cons.mp hs with rfl | hs
        · omega
        · exact hdone hok s hs hfloor
      · rw [if_neg hlow]
        have hclaim := claimLive_keeps (P := P) n slot
        have hraise := claimLive_promisedAt (P := P) n slot
        rcases hcase : claimLive P n slot with ⟨m, _ | cell⟩
        · rw [hcase] at hclaim hraise
          exact ⟨hclaim, hraise, fun h => absurd h Bool.false_ne_true⟩
        · rw [hcase] at hclaim hraise
          dsimp only
          have hcell : cell = cellOf slot P.W := (claimLive_some hcase).cell_eq
          by_cases hpromise : ballot < (m.ledger.cells cell).promisedAt
          · rw [if_pos hpromise]
            exact ⟨hclaim, hraise, fun h => absurd h Bool.false_ne_true⟩
          · rw [if_neg hpromise]
            obtain ⟨hkeeps, hless, hdone⟩ := ih m
            refine ⟨hclaim.trans hkeeps, fun i => (hless i).trans (hraise i), ?_⟩
            intro hok s hs hfloor
            rcases List.mem_cons.mp hs with rfl | hs
            · rw [← hcell]
              exact (hless cell).trans (Nat.le_of_not_lt hpromise)
            · exact hdone hok s hs (hclaim.floor.symm ▸ hfloor)

omit [DecidableEq V] in
/-- The second loop only raises promises of the range. -/
theorem promiseRange_keeps (ballot : Nat) (slots : List Nat) (σ : St V)
    (hless : ∀ slot ∈ slots, σ.node.memoryFloor < slot →
      (σ.node.ledger.cells (cellOf slot P.W)).promisedAt ≤ ballot) :
    Keeps P σ.node (promiseRange P ballot σ slots).node := by
  induction slots generalizing σ with
  | nil => exact Keeps.refl _
  | cons slot rest ih =>
      have hrest := fun s hs => hless s (List.mem_cons_of_mem _ hs)
      rw [promiseRange]
      by_cases hlow : slot ≤ σ.node.memoryFloor
      · rw [if_pos hlow]
        exact ih σ hrest
      · rw [if_neg hlow]
        by_cases hheld : (σ.node.ledger.cells (cellOf slot P.W)).promisedAt = ballot
        · rw [if_pos hheld]
          exact ih σ hrest
        · rw [if_neg hheld]
          have hset : Keeps P σ.node
              ((σ.withLedger (ledgerSetPromiseAt σ.node.ledger (cellOf slot P.W) ballot)).addWrite
                (.promiseAt ballot slot)).node :=
            .ofLedger (fun h => h.setPromiseAt
              (hless slot List.mem_cons_self (Nat.lt_of_not_le hlow))) rfl rfl rfl rfl
          apply hset.trans
          apply ih
          intro s hs hfloor
          simp only [St.addWrite, St.withLedger, ledgerSetPromiseAt_cells]
          split_ifs
          · exact le_rfl
          · exact hrest s hs hfloor

omit [DecidableEq V] in
/-- A bounded promise claims the cells of its range and raises the promise of each. -/
theorem promiseBounded_keeps (σ : St V) (ballot first last : Nat) :
    Keeps P σ.node (promiseBounded P σ ballot first last).1.node := by
  unfold promiseBounded
  by_cases hwide : slotSub last first ≥ P.C
  · rw [if_pos hwide]
    exact Keeps.refl _
  rw [if_neg hwide]
  dsimp only
  generalize (List.range (slotSub last first + 1)).map (first + ·) = slots
  obtain ⟨hkeeps, -, hdone⟩ := claimRange_keeps (P := P) ballot slots σ.node
  rcases hcase : claimRange P ballot σ.node slots with ⟨n, _ | _⟩
  · rw [hcase] at hkeeps
    exact hkeeps
  · rw [hcase] at hkeeps hdone
    apply hkeeps.trans
    apply promiseRange_keeps ballot slots { σ with node := n }
    intro slot hslot hfloor
    exact hdone rfl slot hslot (hkeeps.floor ▸ hfloor)

omit [DecidableEq V] in
/-- A Prepare raises the global promise, or those of its range. -/
theorem onPrepare_keeps (σ : St V) (sender ballot first last : Nat) (scope : PrepareScope) :
    Keeps P σ.node (onPrepare P σ sender ballot first last scope).1.node := by
  unfold onPrepare
  dsimp only
  by_cases hlow : ballot < σ.node.ledger.promised
  · rw [if_pos hlow]
    exact Keeps.refl _
  rw [if_neg hlow]
  by_cases hrange : first = 0 ∨ last < first
  · rw [if_pos hrange]
    exact Keeps.refl _
  rw [if_neg hrange]
  cases scope with
  | global =>
      dsimp only
      split_ifs
      · apply Keeps.trans _ (observeLeader_keeps _ sender ballot)
        exact .ofLedger (fun h => h.promise (Nat.le_of_not_lt hlow)) rfl rfl rfl rfl
      · exact observeLeader_keeps σ.node sender ballot
  | bounded =>
      have hbounded := promiseBounded_keeps (P := P) σ ballot first last
      dsimp only
      rcases hcase : promiseBounded P σ ballot first last with ⟨τ, _ | _⟩
      · rw [hcase] at hbounded
        exact hbounded
      · rw [hcase] at hbounded
        exact hbounded.trans ⟨id, le_rfl, rfl, le_rfl, rfl⟩

/-! ## The candidate -/

/-- The drive of a chunk votes and decides, one slot a round. -/
theorem resolveLoop_keeps (noop : V) (fuel : Nat) (σ : St V) (slot : Nat) :
    Keeps P σ.node (resolveLoop P noop fuel σ slot).1.node := by
  induction fuel generalizing σ slot with
  | zero => exact Keeps.refl _
  | succ fuel ih =>
      unfold resolveLoop
      by_cases hmax : slot = maxSlot
      · rw [if_pos hmax]
        exact Keeps.refl _
      rw [if_neg hmax]
      dsimp only
      cases ledgerChosenAt P σ.node.ledger slot with
      | some value => exact ih (broadcastPeers σ (.commit slot value)) (slot + 1)
      | none =>
          dsimp only
          by_cases hdecided :
              (σ.node.recovered (slot - σ.node.recoverBase)).slot = slot ∧
                (σ.node.recovered (slot - σ.node.recoverBase)).state = .chosen
          · rw [if_pos hdecided]
            generalize (σ.node.recovered (slot - σ.node.recoverBase)).value = decision
            have hcommit := recordCommit_keeps (P := P) σ slot decision
            rcases hcase : recordCommit P σ slot decision with ⟨τ, e⟩
            rw [hcase] at hcommit
            cases e with
            | none =>
                apply hcommit.trans
                dsimp only
                cases ledgerChosenAt P τ.node.ledger slot with
                | none => exact ih τ (slot + 1)
                | some decided => exact ih (broadcastPeers τ (.commit slot decided)) (slot + 1)
            | _ => exact hcommit
          · rw [if_neg hdecided]
            generalize (if (σ.node.recovered (slot - σ.node.recoverBase)).slot = slot ∧
                (σ.node.recovered (slot - σ.node.recoverBase)).state = .voted then
              (σ.node.recovered (slot - σ.node.recoverBase)).value else noop) = value
            have haccept := sendAccept_keeps (P := P) σ slot σ.node.ballot value
            rcases hcase : sendAccept P σ slot σ.node.ballot value with ⟨τ, e⟩
            rw [hcase] at haccept
            cases e with
            | none => exact haccept.trans (ih τ (slot + 1))
            | notLeader => exact haccept.trans ⟨id, le_rfl, rfl, le_rfl, rfl⟩
            | _ => exact haccept

/-- The drive of a chunk. -/
theorem resolveChunk_keeps (σ : St V) (noop : V) (anyMore : Bool) :
    Keeps P σ.node (resolveChunk P σ noop anyMore).1.node := by
  unfold resolveChunk
  dsimp only
  by_cases hfence : max (quorumFences σ.node).trim (quorumFences σ.node).chosen = maxSlot
  · rw [if_pos hfence]
    exact Keeps.refl _
  rw [if_neg hfence]
  generalize min (driveGoal P σ.node anyMore) (slotAdd σ.node.memoryFloor P.W) = driveLimit
  have hloop := resolveLoop_keeps (P := P) noop (driveLimit + 1 - driveStart σ.node) σ
    (driveStart σ.node)
  rcases hcase : resolveLoop P noop (driveLimit + 1 - driveStart σ.node) σ (driveStart σ.node)
    with ⟨τ, _ | ⟨resolved, e⟩⟩
  · rw [hcase] at hloop
    apply hloop.trans
    dsimp only
    split_ifs
    · cases (quorumFences σ.node).chosenPeer <;> exact Keeps.refl _
    · exact Keeps.refl _
  · rw [hcase] at hloop
    exact hloop

omit [DecidableEq V] in
/-- A new term begins past every slot that is used. -/
theorem becomeLeader_keeps (σ : St V) : Keeps P σ.node (becomeLeader P σ).node := by
  unfold becomeLeader
  dsimp only
  split_ifs
  · apply Keeps.trans _ (emitContiguous_keeps _)
    exact ⟨id, le_rfl, rfl, le_rfl, rfl⟩
  · apply Keeps.trans _ (emitContiguous_keeps _)
    exact ⟨id, le_max_left _ _, rfl, le_rfl, rfl⟩

/-- A chunk is driven, and the next one is asked for or the term begins. -/
theorem resolveFrozen_keeps (σ : St V) (noop : V) :
    Keeps P σ.node (resolveFrozen P σ noop).1.node := by
  unfold resolveFrozen
  have hchunk := resolveChunk_keeps (P := P) σ noop σ.node.recoveryMore
  rcases hcase : resolveChunk P σ noop σ.node.recoveryMore with ⟨τ, resolved, e⟩
  rw [hcase] at hchunk
  dsimp only
  rw [hcase]
  cases e with
  | none =>
      dsimp only
      split_ifs
      · exact hchunk
      · exact hchunk
      · exact hchunk.trans ⟨id, le_rfl, rfl, le_rfl, rfl⟩
      · exact hchunk.trans (becomeLeader_keeps τ)
  | _ => exact hchunk

/-- So is a chunk that has just been described by a read quorum. -/
theorem maybeResolveChunk_keeps (σ : St V) : Keeps P σ.node (maybeResolveChunk P σ).1.node := by
  unfold maybeResolveChunk
  cases σ.node.noop with
  | none => exact Keeps.refl _
  | some noop =>
      dsimp only
      have hfreeze : Keeps P σ.node (freezeSelection σ.node) := by
        unfold freezeSelection
        split_ifs
        · exact Keeps.refl _
        · exact ⟨id, le_rfl, rfl, le_rfl, rfl⟩
      split_ifs
      · exact Keeps.refl _
      · exact hfreeze.trans (resolveFrozen_keeps { σ with node := freezeSelection σ.node } noop)

/-- A report goes into the scratch of the recovery. -/
theorem onPromise_keeps (σ : St V) (member ballot slot vote : Nat) (state : CellState) (value : V) :
    Keeps P σ.node (onPromise P σ member ballot slot vote state value).1.node := by
  unfold onPromise
  by_cases hstale : σ.node.role ≠ .preparing ∨ ballot ≠ σ.node.ballot
  · rw [if_pos hstale]
    exact Keeps.refl _
  rw [if_neg hstale]
  by_cases hready : σ.node.recoveryReady = true
  · rw [if_pos hready]
    exact maybeResolveChunk_keeps σ
  rw [if_neg hready]
  cases recoveryIndex P σ.node slot with
  | none => exact Keeps.refl _
  | some cell =>
      dsimp only
      by_cases hempty : state = .empty
      · rw [if_pos hempty]
        exact Keeps.refl _
      rw [if_neg hempty]
      have hreport : Keeps P σ.node (recordReport σ.node member cell slot vote state value).1 := by
        unfold recordReport
        dsimp only
        split_ifs <;> exact ⟨id, le_rfl, rfl, le_rfl, rfl⟩
      rcases hcase : recordReport σ.node member cell slot vote state value with ⟨n, e⟩
      rw [hcase] at hreport
      cases e with
      | none => exact hreport.trans (maybeResolveChunk_keeps { σ with node := n })
      | _ => exact hreport

/-- So does a manifest. -/
theorem onPromiseRange_keeps (σ : St V) (member ballot : Nat) (anchor : TrimAnchor)
    (chosenThrough first last reported : Nat) (more : Bool) :
    Keeps P σ.node
      (onPromiseRange P σ member ballot anchor chosenThrough first last reported more).1.node := by
  unfold onPromiseRange
  by_cases hstale : σ.node.role ≠ .preparing ∨ ballot ≠ σ.node.ballot
  · rw [if_pos hstale]
    exact Keeps.refl _
  rw [if_neg hstale]
  by_cases hready : σ.node.recoveryReady = true
  · rw [if_pos hready]
    exact maybeResolveChunk_keeps σ
  rw [if_neg hready]
  dsimp only
  have hmanifest : Keeps P σ.node
      (recordManifest σ.node member anchor chosenThrough first last reported more) :=
    ⟨id, le_rfl, rfl, le_rfl, rfl⟩
  split_ifs
  · exact Keeps.refl _
  · exact Keeps.refl _
  · exact hmanifest
  · exact hmanifest.trans (maybeResolveChunk_keeps
      { σ with node := recordManifest σ.node member anchor chosenThrough first last reported more })

omit [DecidableEq V] in
/-- A new ballot is above every promise. -/
theorem startCampaign_keeps (σ : St V) (noop : V) :
    Keeps P σ.node (startCampaign P σ noop).1.node := by
  unfold startCampaign
  dsimp only
  by_cases hmax : σ.node.deliveredThrough = maxSlot
  · rw [if_pos hmax]
    exact Keeps.refl _
  rw [if_neg hmax]
  cases hround : nextRound P σ.node with
  | none => exact Keeps.refl _
  | some round =>
      have hlt : σ.node.ledger.promised < ballotMake round σ.node.priority σ.node.id :=
        lt_ballotMake (nextRound_fresh hround).promised
      exact ⟨fun h => h.promise hlt.le, le_rfl, rfl, le_rfl, rfl⟩

/-! ## The owner -/

omit [DecidableEq V] in
/-- The search for an own slot moves the owner on. -/
theorem nextUsableOwnSlot_keeps (n : Node V) : Keeps P n (nextUsableOwnSlot P n).1 := by
  unfold nextUsableOwnSlot
  cases ownSlotProbe P n n.ownNext with
  | ok slot => exact ⟨id, le_rfl, rfl, le_rfl, rfl⟩
  | error e => exact Keeps.refl n

/-- A suggestion tries own slots one after another. -/
theorem proposeOwnedLoop_keeps (value : V) (fuel : Nat) (σ : St V) :
    Keeps P σ.node (proposeOwnedLoop P value fuel σ).1.node := by
  induction fuel generalizing σ with
  | zero => exact Keeps.refl _
  | succ fuel ih =>
      unfold proposeOwnedLoop
      have husable := nextUsableOwnSlot_keeps (P := P) σ.node
      rcases hcase : nextUsableOwnSlot P σ.node with ⟨n, e | slot⟩
      · rw [hcase] at husable
        exact husable
      · rw [hcase] at husable
        dsimp only at husable ⊢
        have haccept := husable.trans (sendAccept_keeps (P := P) { σ with node := n } slot
          (ownershipBallot n.id) value)
        rcases hsend : sendAccept P { σ with node := n } slot (ownershipBallot n.id) value with
          ⟨τ, e⟩
        rw [hsend] at haccept
        cases e with
        | none => exact haccept.trans ⟨id, le_rfl, rfl, le_rfl, rfl⟩
        | notLeader =>
            apply haccept.trans
            exact (ih { τ with node :=
              { τ.node with ownNext := ownSlotFrom τ.node (slot + 1) } }).behind rfl rfl rfl rfl rfl
        | _ => exact haccept

/-- A suggestion in an own slot. -/
theorem proposeOwned_keeps (σ : St V) (value : V) :
    Keeps P σ.node (proposeOwned P σ value).1.node :=
  proposeOwnedLoop_keeps value (P.W + 1) σ

/-- Idle own slots are filled with no-ops. -/
theorem skipLoop_keeps (noop : V) (fuel : Nat) (σ : St V) (sent : Nat) :
    Keeps P σ.node (skipLoop P noop fuel σ sent).1.node := by
  induction fuel generalizing σ sent with
  | zero => exact Keeps.refl _
  | succ fuel ih =>
      unfold skipLoop
      by_cases hbehind : σ.node.ownNext ≤ σ.node.highestSeen
      · rw [if_pos hbehind]
        have hone := proposeOwned_keeps (P := P) σ noop
        rcases hcase : proposeOwned P σ noop with ⟨τ, slot, e⟩
        rw [hcase] at hone
        cases e with
        | none => exact hone.trans (ih τ (sent + 1))
        | _ => exact hone
      · rw [if_neg hbehind]
        exact Keeps.refl _

/-- Values from the resubmission queue are suggested again. -/
theorem drainLoop_keeps (fuel : Nat) (σ : St V) (sent : Nat) :
    Keeps P σ.node (drainLoop P fuel σ sent).1.node := by
  induction fuel generalizing σ sent with
  | zero => exact Keeps.refl _
  | succ fuel ih =>
      unfold drainLoop
      cases σ.node.resubmit with
      | nil => exact Keeps.refl _
      | cons value rest =>
          dsimp only
          have hone := proposeOwned_keeps (P := P) σ value
          rcases hcase : proposeOwned P σ value with ⟨τ, slot, e⟩
          rw [hcase] at hone
          cases e with
          | none =>
              apply hone.trans
              exact (ih { τ with node := { τ.node with resubmit := τ.node.resubmit.tail } }
                (sent + 1)).behind rfl rfl rfl rfl rfl
          | _ => exact hone

omit [DecidableEq V] in
/-- A revocation promises its own chunk before it asks for it. -/
theorem startRevocation_keeps (σ : St V) (noop : V) :
    Keeps P σ.node (startRevocation P σ noop).1.node := by
  unfold startRevocation
  dsimp only
  cases nextRound P σ.node with
  | none => exact Keeps.refl _
  | some round =>
      dsimp only
      by_cases hmax : σ.node.deliveredThrough = maxSlot
      · rw [if_pos hmax]
        exact Keeps.refl _
      rw [if_neg hmax]
      generalize ballotMake round σ.node.priority σ.node.id = ballot
      generalize revocationLast P σ.node (σ.node.deliveredThrough + 1) = last
      have hbounded := promiseBounded_keeps (P := P) σ ballot (σ.node.deliveredThrough + 1) last
      rcases hcase : promiseBounded P σ ballot (σ.node.deliveredThrough + 1) last with ⟨τ, _ | _⟩
      · rw [hcase] at hbounded
        exact hbounded.trans ⟨id, le_rfl, rfl, le_rfl, rfl⟩
      · rw [hcase] at hbounded
        exact hbounded.trans ⟨id, le_rfl, rfl, le_rfl, rfl⟩

omit [DecidableEq V] in
/-- A tick of an owner that waits for a slot of another. -/
theorem tickStalled_keeps (σ : St V) (noop : V) (proposed : Nat) :
    Keeps P σ.node (tickStalled P σ noop proposed).1.node := by
  unfold tickStalled
  dsimp only
  generalize hresend : (if proposed = 0 ∧ σ.node.resendTicks ≥ σ.node.resendIntervalTicks then
    resendToPeers P { σ with node := { σ.node with resendTicks := 0 } } else σ) = τ
  have hτ : Keeps P σ.node τ.node := by
    subst hresend
    split_ifs
    · exact (resendToPeers_keeps { σ with node := { σ.node with resendTicks := 0 } }).behind
        rfl rfl rfl rfl rfl
    · exact Keeps.refl _
  apply hτ.trans
  split_ifs
  · exact ⟨id, le_rfl, rfl, le_rfl, rfl⟩
  · exact (startRevocation_keeps
      { τ with node := { τ.node with stallTicks := saturatingIncrement τ.node.stallTicks } }
      noop).behind rfl rfl rfl rfl rfl
  · exact ⟨id, le_rfl, rfl, le_rfl, rfl⟩
  · exact ⟨id, le_rfl, rfl, le_rfl, rfl⟩
  · exact ⟨id, le_rfl, rfl, le_rfl, rfl⟩

/-- A tick under rotating ownership. -/
theorem tickOwnership_keeps (σ : St V) (noop : V) :
    Keeps P σ.node (tickOwnership P σ noop).1.node := by
  unfold tickOwnership
  by_cases hrole : σ.node.role = .preparing
  · rw [if_pos hrole]
    split_ifs
    · exact maybeResolveChunk_keeps σ
    · exact startRevocation_keeps σ noop
  rw [if_neg hrole]
  have hdrain := drainLoop_keeps (P := P) σ.node.resubmit.length σ 0
  rcases hdrained : drainResubmits P σ with ⟨τ, drained, e⟩
  unfold drainResubmits at hdrained
  rw [hdrained] at hdrain
  cases e with
  | none =>
      apply hdrain.trans
      dsimp only
      have hskip := skipLoop_keeps (P := P) noop (min (P.C - drained) skipBurst) τ 0
      rcases hskipped : skipIdleSlots P τ noop (P.C - drained) with ⟨ρ, skipped, e⟩
      unfold skipIdleSlots at hskipped
      rw [hskipped] at hskip
      cases e with
      | none => exact hskip.trans (tickStalled_keeps ρ noop (drained + skipped))
      | _ => exact hskip
  | _ => exact hdrain

/-! ## The calls of a host -/

omit [DecidableEq V] in
/-- A batch keeps the node if each of its proposals does, as long as there is `room`. -/
theorem proposeAll_keeps {propose : St V → V → St V × Nat × Error} (room : St V → Nat → Prop)
    (hone : ∀ σ value k, room σ (k + 1) →
      Keeps P σ.node (propose σ value).1.node ∧ room (propose σ value).1 k)
    (values : List V) (σ : St V) (hroom : room σ values.length) :
    Keeps P σ.node (proposeAll propose σ values).1.node := by
  induction values generalizing σ with
  | nil => exact Keeps.refl _
  | cons value rest ih =>
      obtain ⟨hkeeps, hrest⟩ := hone σ value rest.length hroom
      unfold proposeAll
      rcases hcase : propose σ value with ⟨τ, slot, e⟩
      rw [hcase] at hkeeps hrest
      cases e with
      | none =>
          have htail := ih τ hrest
          dsimp only
          rcases hall : proposeAll propose τ rest with ⟨ρ, slots, e⟩
          rw [hall] at htail
          cases e <;> exact hkeeps.trans htail
      | _ => exact hkeeps

/-- Below the last slot `next_slot` does not wrap. -/
theorem proposeNext_keeps (σ : St V) (value : V) (hmax : σ.node.nextSlot ≠ maxSlot) :
    Keeps P σ.node (proposeNext P σ value).1.node := by
  have hnext := (proposeNext_moves (P := P) σ value).1
  rw [slotSucc_of_ne hmax] at hnext
  have hsend := sendAccept_keeps (P := P) σ.advance σ.node.nextSlot σ.node.ballot value
  refine ⟨hsend.ledger, ?_, hsend.floor, hsend.delivered, hsend.identity⟩
  rw [hnext]
  exact Nat.le_succ _

/-- A client value. -/
theorem nodePropose_keeps (n : Node V) (value : V) :
    Keeps P n (nodePropose P n value).1.node := by
  unfold nodePropose
  cases proposalGate n with
  | none =>
      dsimp only
      by_cases hmode : n.ownership = true
      · rw [if_pos hmode]
        exact proposeOwned_keeps (St.start n) value
      rw [if_neg hmode]
      by_cases hmax : n.nextSlot = maxSlot
      · rw [if_pos hmax]
        exact Keeps.refl n
      rw [if_neg hmax]
      by_cases hfull : slotSub n.nextSlot n.memoryFloor > P.W
      · rw [if_pos hfull]
        exact Keeps.refl n
      rw [if_neg hfull]
      exact proposeNext_keeps (St.start n) value hmax
  | _ => exact Keeps.refl n

/-- A batch of client values. -/
theorem nodeProposeBatch_keeps (n : Node V) (values : List V) (capacity : Nat) :
    Keeps P n (nodeProposeBatch P n values capacity).1.node := by
  unfold nodeProposeBatch
  cases proposalGate n with
  | none =>
      dsimp only
      by_cases hempty : values.length = 0
      · rw [if_pos hempty]
        exact Keeps.refl n
      rw [if_neg hempty]
      by_cases hlarge : values.length > P.C
      · rw [if_pos hlarge]
        exact Keeps.refl n
      rw [if_neg hlarge]
      by_cases hsmall : capacity < values.length
      · rw [if_pos hsmall]
        exact Keeps.refl n
      rw [if_neg hsmall]
      by_cases hmode : n.ownership = true
      · rw [if_pos hmode]
        cases ownSlotsAvailable P n values.length n.ownNext with
        | none =>
            apply proposeAll_keeps (fun _ _ => True) _ values (St.start n) trivial
            intro σ value k _
            exact ⟨proposeOwned_keeps σ value, trivial⟩
        | _ => exact Keeps.refl n
      rw [if_neg hmode]
      by_cases hexhausted : values.length > maxSlot - n.nextSlot
      · rw [if_pos hexhausted]
        exact Keeps.refl n
      rw [if_neg hexhausted]
      split_ifs
      · exact Keeps.refl n
      · apply proposeAll_keeps (fun σ k => σ.node.nextSlot + k ≤ maxSlot) _ values (St.start n)
        · show n.nextSlot + values.length ≤ maxSlot
          omega
        · intro σ value k hroom
          have hmax : σ.node.nextSlot ≠ maxSlot := by omega
          refine ⟨proposeNext_keeps σ value hmax, ?_⟩
          rw [(proposeNext_moves (P := P) σ value).1, slotSucc_of_ne hmax]
          omega
  | _ => exact Keeps.refl n

omit [DecidableEq V] in
/-- A tick of a leader resends, beats or gives up on its gap. -/
theorem tickLeader_keeps (σ : St V) (noop : V) : Keeps P σ.node (tickLeader P σ noop).1.node := by
  unfold tickLeader
  dsimp only
  generalize (if decide (σ.node.deliveredThrough < slotSub σ.node.leaderBase 1) = true then
    saturatingIncrement σ.node.gapTicks else 0) = gapTicks
  split_ifs
  · exact (startCampaign_keeps { σ with node := { σ.node with gapTicks := 0 } } noop).behind
      rfl rfl rfl rfl rfl
  · exact (resendToPeers_keeps (St.mk _ _)).behind rfl rfl rfl rfl rfl
  · exact ⟨id, le_rfl, rfl, le_rfl, rfl⟩
  · exact (resendToPeers_keeps (St.mk _ _)).behind rfl rfl rfl rfl rfl
  · exact ⟨id, le_rfl, rfl, le_rfl, rfl⟩

/-- A tick. -/
theorem nodeTick_keeps (n : Node V) (noop : V) : Keeps P n (nodeTick P n noop).1.node := by
  unfold nodeTick
  by_cases hvoter : (!n.votingMember) = true
  · rw [if_pos hvoter]
    exact Keeps.refl n
  rw [if_neg hvoter]
  dsimp only
  split_ifs
  · exact (tickOwnership_keeps (St.start _) noop).behind rfl rfl rfl rfl rfl
  · exact (tickLeader_keeps (St.start _) noop).behind rfl rfl rfl rfl rfl
  · exact (maybeResolveChunk_keeps (St.start _)).behind rfl rfl rfl rfl rfl
  · exact (startCampaign_keeps (St.start _) noop).behind rfl rfl rfl rfl rfl
  · exact ⟨id, le_rfl, rfl, le_rfl, rfl⟩

/-- Any message to a voter. -/
theorem dispatch_keeps (σ : St V) (sender member : Nat) (msg : Message V) :
    Keeps P σ.node (dispatch P σ sender member msg).1.node := by
  cases msg with
  | prepare => exact onPrepare_keeps _ _ _ _ _ _
  | promise => exact onPromise_keeps _ _ _ _ _ _ _
  | promiseRange => exact onPromiseRange_keeps _ _ _ _ _ _ _ _ _
  | accept => exact onAccept_keeps _ _ _ _ _
  | accepted => exact onAccepted_keeps _ _ _ _
  | commit => exact onCommit_keeps _ _ _ _
  | learn => exact onLearn_keeps _ _ _ _
  | nack => exact onNack_keeps _ _ _
  | heartbeat => exact onHeartbeat_keeps _ _ _ _

/-- Any envelope. -/
theorem nodeStep_keeps (n : Node V) (e : Envelope V) : Keeps P n (nodeStep P n e).1.node := by
  unfold nodeStep
  by_cases hmine : e.recipient ≠ n.id
  · rw [if_pos hmine]
    exact Keeps.refl n
  rw [if_neg hmine]
  cases membershipIndexOf n.membership e.sender with
  | none => exact Keeps.refl n
  | some member =>
      have hprogress : Keeps P n (notePeerProgress n member e.message) := by
        unfold notePeerProgress
        cases messageDecidedThrough e.message with
        | none => exact Keeps.refl n
        | some progress => exact ⟨id, le_rfl, rfl, le_rfl, rfl⟩
      dsimp only
      apply hprogress.trans
      split_ifs
      · cases e.message with
        | commit slot value => exact onCommit_keeps (St.start _) e.sender slot value
        | _ => exact Keeps.refl _
      · exact dispatch_keeps (St.start _) e.sender member e.message

/-- A certified decision on a learner. -/
theorem nodeLearnChosen_keeps (n : Node V) (sender slot : Nat) (value : V) :
    Keeps P n (nodeLearnChosen P n sender slot value).1.node := by
  unfold nodeLearnChosen
  split_ifs
  · exact Keeps.refl n
  · exact Keeps.refl n
  · exact (recordCommit_keeps (St.start { n with leaderHint := some sender, electionTicks := 0 }) slot
      value).behind rfl rfl rfl rfl rfl

/-- Any call of the host. -/
theorem runCall_keeps (n : Node V) (c : Call V) : Keeps P n (runCall P n c).node := by
  cases c with
  | campaign noop =>
      simp only [runCall, nodeCampaign]
      split_ifs
      · exact Keeps.refl n
      · exact Keeps.refl n
      · exact startCampaign_keeps (St.mk n {}) noop
  | propose value => exact nodePropose_keeps n value
  | proposeBatch values capacity => exact nodeProposeBatch_keeps n values capacity
  | tick noop => exact nodeTick_keeps n noop
  | reconnected peer =>
      simp only [runCall, nodeReconnected]
      split_ifs
      · exact Keeps.refl n
      · exact Keeps.refl n
      · exact resendTo_keeps (St.start n) peer
      · exact Keeps.refl n
      · exact Keeps.refl n
  | requestCatchUp peer fromSlot =>
      simp only [runCall, nodeRequestCatchUp]
      split_ifs <;> exact Keeps.refl n

/-! ## Every operation -/

/-- Every transition and every host operation keeps a valid node valid. -/
theorem operate_valid {n : Node V} (hn : NodeValid P n) (op : Operation V) :
    NodeValid P (operate P n op).node := by
  cases op with
  | call c => exact (runCall_keeps n c).valid hn
  | step e => exact (nodeStep_keeps n e).valid hn
  | learnChosen sender slot value => exact (nodeLearnChosen_keeps n sender slot value).valid hn
  | installTrim anchor =>
      simp only [operate, nodeInstallChosenTrim]
      split_ifs
      · exact hn
      · exact hn
      · exact hn
      · exact hn
      · exact hn
      · exact ⟨hn.ledger.anchor anchor, hn.nextSlot, min_le_right _ _⟩
      · exact ⟨hn.ledger.anchor anchor, hn.nextSlot, hn.floor⟩
  | advanceFloor through =>
      simp only [operate, nodeAdvanceMemoryFloor]
      split_ifs with hahead
      · exact hn
      · exact ⟨hn.ledger, hn.nextSlot, max_le hn.floor (Nat.le_of_not_gt hahead)⟩
  | setCampaignEnabled enabled => exact ⟨hn.ledger, hn.nextSlot, hn.floor⟩

/-- No operation changes who a node is, and a learner never campaigns. -/
theorem operate_identity {n : Node V} (hn : n.identity.Valid) (op : Operation V) :
    (operate P n op).node.identity.Valid := by
  cases op with
  | call c => exact (runCall_keeps (P := P) n c).identity ▸ hn
  | step e => exact (nodeStep_keeps (P := P) n e).identity ▸ hn
  | learnChosen sender slot value =>
      exact (nodeLearnChosen_keeps (P := P) n sender slot value).identity ▸ hn
  | installTrim anchor =>
      simp only [operate, nodeInstallChosenTrim]
      split_ifs <;> exact hn
  | advanceFloor through =>
      simp only [operate, nodeAdvanceMemoryFloor]
      split_ifs <;> exact hn
  | setCampaignEnabled enabled =>
      refine ⟨hn.id, hn.voter, fun hlearner => ⟨(hn.learner hlearner).1, ?_⟩, hn.nonempty⟩
      have hvoter : n.votingMember = false := hlearner
      simp [operate, St.start, nodeSetCampaignEnabled, Node.identity, hvoter]

omit [DecidableEq V] in
/-- A node resumes validly from any valid ledger. -/
theorem nodeResumeAt_valid {n : Node V} (hn : LedgerValid P n.ledger) (base : Nat) :
    NodeValid P (nodeResumeAt P n base) := by
  have hnext : ∀ slot, 1 ≤ slotAdd slot 1 := by
    intro slot
    unfold slotAdd maxSlot
    omega
  unfold nodeResumeAt
  dsimp only
  split_ifs
  · exact ⟨clearOpenCells_valid hn base, hnext _, le_rfl⟩
  · exact ⟨clearOpenCells_valid hn base, hnext _, le_rfl⟩

omit [DecidableEq V] in
/-- A resumption leaves the identity alone. -/
theorem nodeResumeAt_identity (n : Node V) (base : Nat) :
    (nodeResumeAt P n base).identity = n.identity := by
  unfold nodeResumeAt
  dsimp only
  split_ifs <;> rfl

/-- A recovery from a trim record. -/
theorem nodeBeginRecovery_valid {n n' : Node V} {anchor : TrimAnchor}
    (hn : LedgerValid P n.ledger) (h : nodeBeginRecovery P n anchor = .ok n') :
    NodeValid P n' ∧ n'.identity = n.identity := by
  unfold nodeBeginRecovery at h
  have htrim := ledgerApply_valid hn (.trim anchor)
  rcases hcase : ledgerApply P n.ledger (.trim anchor) with ⟨l, e⟩
  rw [hcase] at h htrim
  cases e with
  | none =>
      cases h
      exact ⟨nodeResumeAt_valid htrim _, nodeResumeAt_identity _ _⟩
  | _ => cases h

/-! ## Every reachable state -/

section Reached

variable [Inhabited V]

omit [DecidableEq V] in
/-- A node that has just been opened is valid. -/
theorem nodeInit_valid {id : Nat} {membership : Membership} {options : NodeOptions} {n : Node V}
    (hm : membership.Valid) (h : nodeInit id membership options = .ok n) :
    NodeValid P n ∧ n.identity.Valid := by
  unfold nodeInit at h
  cases hindex : membershipIndexOf membership id with
  | none =>
      rw [hindex] at h
      cases h
  | some selfIndex =>
      rw [hindex] at h
      cases h
      have hcontains : membershipContains membership id = true := by
        simp [membershipContains, hindex]
      refine ⟨⟨LedgerValid.empty, le_rfl, le_rfl⟩, ?_, fun _ => hcontains, ?_, ?_⟩
      · exact (hm.ids_pos id ((membershipContains_iff hm).mp hcontains)).ne'
      · intro hlearner
        cases hlearner
      · exact List.length_pos_iff.mpr hm.nonempty

omit [DecidableEq V] in
/-- So is a learner. -/
theorem nodeInitLearner_valid {id : Nat} {membership : Membership} {n : Node V}
    (hm : membership.Valid) (h : nodeInitLearner id membership = .ok n) :
    NodeValid P n ∧ n.identity.Valid := by
  unfold nodeInitLearner at h
  split_ifs at h with hzero hempty hvoter
  split at h
  · cases h
  · next n₀ hinit =>
      obtain ⟨hvalid, hidentity⟩ := nodeInit_valid (P := P) hm hinit
      have hmembership : n₀.membership = membership := by
        unfold nodeInit at hinit
        split at hinit
        · cases hinit
        · cases hinit
          rfl
      cases h
      refine ⟨⟨hvalid.ledger, hvalid.nextSlot, hvalid.floor⟩, hzero, ?_, ?_, hidentity.nonempty⟩
      · intro hfalse
        cases hfalse
      · intro _
        refine ⟨?_, rfl⟩
        show membershipContains n₀.membership id = false
        rw [hmembership]
        exact Bool.eq_false_of_not_eq_true hvoter

/-- Every reachable node is valid and knows who it is. -/
theorem Reachable.valid {n : Node V} (h : Reachable P n) : NodeValid P n ∧ n.identity.Valid := by
  induction h with
  | init hm h => exact nodeInit_valid hm.sized.1 h
  | learner hm h => exact nodeInitLearner_valid hm.sized.1 h
  | restore hm _ _ hreplay h =>
      unfold nodeRestore at h
      split at h
      · cases h
      · next n₀ hinit =>
          cases h
          have hledger := congrArg Prod.fst hreplay ▸ replay_valid (P := P) _
          refine ⟨nodeResumeAt_valid hledger _, ?_⟩
          rw [nodeResumeAt_identity]
          exact (nodeInit_valid (P := P) hm.sized.1 hinit).2
  | restoreLearner hm _ hreplay h =>
      unfold nodeRestoreLearner at h
      split at h
      · cases h
      · next n₀ hinit =>
          cases h
          have hledger := congrArg Prod.fst hreplay ▸ replay_valid (P := P) _
          refine ⟨nodeResumeAt_valid hledger _, ?_⟩
          rw [nodeResumeAt_identity]
          exact (nodeInitLearner_valid (P := P) hm.sized.1 hinit).2
  | continueAt hm _ h =>
      unfold nodeContinueAt at h
      split_ifs at h
      split at h
      · cases h
      · next n₀ hinit =>
          cases h
          obtain ⟨hvalid, hidentity⟩ := nodeInit_valid (P := P) hm.sized.1 hinit
          constructor
          · apply nodeResumeAt_valid
            exact hvalid.ledger.anchor _
          · rw [nodeResumeAt_identity]
            exact hidentity
  | recover _ _ _ h ih =>
      obtain ⟨hvalid, hidentity⟩ := nodeBeginRecovery_valid ih.1.ledger h
      exact ⟨hvalid, hidentity ▸ ih.2⟩
  | operate _ op ih => exact ⟨operate_valid ih.1 op, operate_identity ih.2 op⟩

/-- Every procedure that changes a ledger keeps its representation, from whatever valid state:
the operations, the two ways to take in a journal record, a replay, a resumption and a recovery.
The checks of a node pass in every reachable state. -/
theorem representation_kept (P : Params) :
    (∀ (n : Node V) (op : Operation V), NodeValid P n → NodeValid P (operate P n op).node) ∧
    (∀ (l : Ledger V) (w : Write V), LedgerValid P l → LedgerValid P (ledgerApply P l w).1) ∧
    (∀ (l : Ledger V) (w : Write V), LedgerValid P l →
      LedgerValid P (ledgerReplayFold P l w).1) ∧
    (∀ journal : List (Write V), LedgerValid P (replay P journal).1) ∧
    (∀ (n : Node V) (base : Nat), LedgerValid P n.ledger → NodeValid P (nodeResumeAt P n base)) ∧
    (∀ (n n' : Node V) (anchor : TrimAnchor), LedgerValid P n.ledger →
      nodeBeginRecovery P n anchor = .ok n' → NodeValid P n') ∧
    ∀ n : Node V, Reachable P n → nodeAssertValid P n ∧ n.memoryFloor ≤ n.deliveredThrough := by
  refine ⟨fun _ op hn => operate_valid hn op, fun _ w hl => ledgerApply_valid hl w,
    fun _ w hl => ledgerReplayFold_valid hl w, replay_valid,
    fun _ base hl => nodeResumeAt_valid hl base,
    fun _ _ _ hl h => (nodeBeginRecovery_valid hl h).1, ?_⟩
  intro n hn
  obtain ⟨hvalid, hidentity⟩ := hn.valid
  exact ⟨nodeAssertValid_of hidentity hvalid, hvalid.floor⟩

end Reached

end Decide

end PaxosOdin
