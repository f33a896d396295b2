import PaxosOdin.Lifetime.Admission
import PaxosOdin.Lifetime.Suggesting

/-!
# Transitions that fail half-way

Most transitions that answer with an error have released nothing.  Three kinds go through several
slots in turn, and can fail in a later one after they released an earlier one: a batch and a tick
of an owner whose vote alone is a quorum, and the drive of a chunk.  What makes them fail can be
read off the state before the call.

Main definitions:

- Definition `Refuses`: a slot of the chunk that the drive cannot settle.
- Definition `DriveStops`: a chunk with such a slot ahead.
- Definition `Spacious`: the end of the slot line is out of reach of an owner's suggestions.

Main results:

- Theorem `nodePropose_failed` and its siblings: a transition that fails has released nothing.
-/

namespace PaxosOdin

variable {V : Type} {P : Params}

section Failures

variable [DecidableEq V]

/-! ## Calls for one slot -/

/-- A decision that cannot be recorded leaves the batch alone. -/
theorem recordCommit_failed (σ : St V) (slot : Nat) (value : V) :
    (recordCommit P σ slot value).2 = .none ∨
      (recordCommit P σ slot value).1.effects = σ.effects := by
  unfold recordCommit
  by_cases hzero : slot = 0
  · rw [if_pos hzero]
    exact Or.inr rfl
  rw [if_neg hzero]
  dsimp only
  by_cases hlow : slot ≤ σ.node.memoryFloor ∨ slot ≤ σ.node.ledger.anchor.chosenTrimSlot
  · rw [if_pos hlow]
    exact Or.inl rfl
  rw [if_neg hlow]
  rcases claimLive P { σ.node with highestSeen := max σ.node.highestSeen slot } slot with
    ⟨n, _ | cell⟩
  · left
    dsimp only
    split_ifs <;> rfl
  · dsimp only
    by_cases hchosen : (n.ledger.cells cell).state = .chosen
    · rw [if_pos hchosen]
      split_ifs
      · exact Or.inr rfl
      · exact Or.inl rfl
    · rw [if_neg hchosen]
      exact Or.inl rfl

/-- A proposal that fails leaves the batch alone. -/
theorem sendAccept_failed (σ : St V) (slot ballot : Nat) (value : V) :
    (sendAccept P σ slot ballot value).2 = .none ∨
      (sendAccept P σ slot ballot value).1.effects = σ.effects := by
  by_cases hcast : Castable P σ.node slot ballot value
  · obtain ⟨σ', heq, -⟩ := sendAccept_cast hcast
    rw [heq]
    exact Or.inl rfl
  · by_cases hclaims : (claimLive P σ.node slot).2 = none
    · exact Or.inr (sendAccept_refused hcast (Or.inl hclaims)).2.2
    · cases hdecided : ledgerChosenAt P σ.node.ledger slot with
      | none => exact Or.inr (sendAccept_refused hcast (Or.inr hdecided)).2.2
      | some v =>
          rw [sendAccept_decided hclaims hdecided]
          exact Or.inl rfl

/-- A proposer that is not alone in its write quorum decides nothing. -/
theorem sendAccept_unreleased {σ : St V} (slot ballot : Nat) (value : V)
    (hquorum : σ.node.membership.writeQuorumSize ≠ 1) :
    (sendAccept P σ slot ballot value).1.node.membership = σ.node.membership ∧
      (sendAccept P σ slot ballot value).1.effects.committed = σ.effects.committed := by
  unfold sendAccept
  rcases hclaim : claimLive P σ.node slot with ⟨n, _ | cell⟩
  · exact ⟨rfl, rfl⟩
  have hmembers : n.membership = σ.node.membership :=
    congrArg Fixed.membership (claimLive_some hclaim).fixed
  dsimp only
  split_ifs
  · exact ⟨hmembers, rfl⟩
  · exact ⟨hmembers, rfl⟩
  · exact ⟨hmembers, rfl⟩
  · unfold announceProposal
    rw [if_neg (show (voteForProposal { σ with node := n } cell slot ballot
      value).node.membership.writeQuorumSize ≠ 1 from hmembers ▸ hquorum)]
    exact ⟨hmembers, rfl⟩

/-- A suggestion that fails leaves the batch alone. -/
theorem proposeOwnedLoop_failed (value : V) (fuel : Nat) (σ : St V) :
    (proposeOwnedLoop P value fuel σ).2.2 = .none ∨
      (proposeOwnedLoop P value fuel σ).1.effects = σ.effects := by
  induction fuel generalizing σ with
  | zero => exact Or.inr rfl
  | succ fuel ih =>
      unfold proposeOwnedLoop nextUsableOwnSlot
      cases ownSlotProbe P σ.node σ.node.ownNext with
      | error e => exact Or.inr rfl
      | ok slot =>
          dsimp only
          have hsend := sendAccept_failed (P := P)
            { σ with node := { σ.node with ownNext := slot } } slot (ownershipBallot σ.node.id) value
          rcases hcase : sendAccept P { σ with node := { σ.node with ownNext := slot } } slot
            (ownershipBallot σ.node.id) value with ⟨τ, e⟩
          rw [hcase] at hsend
          dsimp only at hsend ⊢
          cases e with
          | none => exact Or.inl rfl
          | notLeader =>
              have hτ : τ.effects = σ.effects := hsend.resolve_left (by simp)
              exact (ih _).imp_right fun h => h.trans hτ
          | _ => exact Or.inr (hsend.resolve_left (by simp))

/-- An owner that is not alone in its write quorum decides nothing by its suggestions. -/
theorem proposeOwnedLoop_unreleased {σ : St V} (value : V) (fuel : Nat)
    (hquorum : σ.node.membership.writeQuorumSize ≠ 1) :
    (proposeOwnedLoop P value fuel σ).1.node.membership = σ.node.membership ∧
      (proposeOwnedLoop P value fuel σ).1.effects.committed = σ.effects.committed := by
  induction fuel generalizing σ with
  | zero => exact ⟨rfl, rfl⟩
  | succ fuel ih =>
      unfold proposeOwnedLoop nextUsableOwnSlot
      cases ownSlotProbe P σ.node σ.node.ownNext with
      | error e => exact ⟨rfl, rfl⟩
      | ok slot =>
          dsimp only
          have hsend := sendAccept_unreleased (P := P)
            (σ := { σ with node := { σ.node with ownNext := slot } }) slot
            (ownershipBallot σ.node.id) value hquorum
          rcases hcase : sendAccept P { σ with node := { σ.node with ownNext := slot } } slot
            (ownershipBallot σ.node.id) value with ⟨τ, e⟩
          rw [hcase] at hsend
          dsimp only at hsend ⊢
          cases e with
          | notLeader =>
              obtain ⟨hmembers, hcommitted⟩ := ih
                (σ := { τ with node := { τ.node with ownNext := ownSlotFrom τ.node (slot + 1) } })
                (by rw [hsend.1]; exact hquorum)
              exact ⟨hmembers.trans hsend.1, hcommitted.trans hsend.2⟩
          | _ => exact hsend

/-! ## Proposals -/

/-- A leader's proposal that fails leaves the batch alone. -/
theorem proposeNext_failed (σ : St V) (value : V) :
    (proposeNext P σ value).2.2 = .none ∨ (proposeNext P σ value).1.effects = σ.effects := by
  unfold proposeNext
  exact sendAccept_failed _ _ _ _

/-- A request for one value that fails has released nothing. -/
theorem nodePropose_failed (n : Node V) (value : V) :
    (nodePropose P n value).2.2 = .none ∨
      (nodePropose P n value).1.effects.committed = [] := by
  unfold nodePropose
  cases proposalGate n with
  | none =>
      dsimp only
      split_ifs
      · exact (proposeOwnedLoop_failed value _ _).imp_right (congrArg Effects.committed)
      · exact Or.inr rfl
      · exact Or.inr rfl
      · exact (proposeNext_failed _ value).imp_right (congrArg Effects.committed)
  | _ => exact Or.inr rfl

omit [DecidableEq V] in
/-- A batch decides nothing when none of its proposals does. -/
theorem proposeAll_unreleased {propose : St V → V → St V × Nat × Error} {values : List V} {σ : St V}
    (hpropose : ∀ (σ : St V) value, σ.node.membership.writeQuorumSize ≠ 1 →
      (propose σ value).1.node.membership = σ.node.membership ∧
        (propose σ value).1.effects.committed = σ.effects.committed)
    (hquorum : σ.node.membership.writeQuorumSize ≠ 1) :
    (proposeAll propose σ values).1.effects.committed = σ.effects.committed := by
  induction values generalizing σ with
  | nil => rfl
  | cons value values ih =>
      obtain ⟨hmembers, hcommitted⟩ := hpropose σ value hquorum
      rw [proposeAll]
      rcases hcase : propose σ value with ⟨τ, slot, e⟩
      rw [hcase] at hmembers hcommitted
      cases e with
      | none =>
          dsimp only at hmembers hcommitted ⊢
          have hrest := ih (σ := τ) (by rw [hmembers]; exact hquorum)
          rcases hall : proposeAll propose τ values with ⟨ρ, slots, e⟩
          rw [hall] at hrest
          cases e <;> exact hrest.trans hcommitted
      | _ => exact hcommitted

/-- Nothing makes a batch fail after its first value was decided: the proposer is not alone in its
write quorum, or every value of the batch finds its slot. -/
def BatchHolds (P : Params) (n : Node V) (values : List V) (capacity : Nat) : Prop :=
  n.membership.writeQuorumSize = 1 →
    (n.ownership = true → Unled P n) ∧
      (n.ownership = false → BatchAsks P n values.length capacity → Clear P n values)

/-- A batch that fails has released nothing. -/
theorem nodeProposeBatch_failed {n : Node V} (ho : Opened P n) {values : List V} {capacity : Nat}
    (hholds : BatchHolds P n values capacity) :
    (nodeProposeBatch P n values capacity).2.2 = .none ∨
      (nodeProposeBatch P n values capacity).1.effects.committed = [] := by
  by_cases hquorum : n.membership.writeQuorumSize = 1
  · obtain ⟨howned, hled⟩ := hholds hquorum
    cases hmode : n.ownership with
    | false =>
        have hadmission := (nodeProposeBatch_admission hmode values capacity).mpr (hled hmode)
        by_cases herror : (nodeProposeBatch P n values capacity).2.2 = .none
        · exact Or.inl herror
        · exact Or.inr (congrArg Effects.committed (hadmission.refused herror).2.2.2)
    | true =>
        cases hv : n.votingMember with
        | false =>
            right
            unfold nodeProposeBatch proposalGate
            rw [if_pos (by simp [hv])]
            rfl
        | true =>
            obtain ⟨hasked, hrefused⟩ := nodeProposeBatch_owned (P := P) hv hmode values capacity
            by_cases hasks : SuggestsBatch P n values.length capacity
            · have howner : Owner P (St.start n).node := ⟨ho, hv, hmode, howned hmode⟩
              obtain ⟨σ', slots, hall, -⟩ :=
                (@proposeAll_owned V P _ values _ howner).1 hasks.2.2.2
              rw [hasked hasks, hall]
              exact Or.inl rfl
            · obtain ⟨e, -, hbatch⟩ := hrefused hasks
              rw [hbatch]
              exact Or.inr rfl
  · right
    unfold nodeProposeBatch
    cases proposalGate n with
    | none =>
        dsimp only
        split_ifs
        · rfl
        · rfl
        · rfl
        · cases ownSlotsAvailable P n values.length n.ownNext with
          | none =>
              exact proposeAll_unreleased (σ := St.start n)
                (fun σ value h => proposeOwnedLoop_unreleased value _ h) hquorum
          | _ => rfl
        · rfl
        · rfl
        · exact proposeAll_unreleased (σ := St.start n) (fun σ value h => sendAccept_unreleased _ _ value h)
            hquorum
    | _ => rfl

/-! ## Campaigns -/

omit [DecidableEq V] in
/-- A campaign that starts releases nothing. -/
theorem startCampaign_unreleased (σ : St V) (noop : V) :
    (startCampaign P σ noop).1.effects.committed = σ.effects.committed := by
  unfold startCampaign
  dsimp only
  split_ifs
  · rfl
  · cases nextRound P σ.node <;> rfl

omit [DecidableEq V] in
/-- So does a request for a campaign. -/
theorem nodeCampaign_unreleased (n : Node V) (noop : V) :
    (nodeCampaign P n noop).1.effects.committed = [] := by
  unfold nodeCampaign
  split_ifs
  · rfl
  · rfl
  · exact startCampaign_unreleased { node := n } noop

/-! ## Messages to an acceptor -/

omit [DecidableEq V] in
/-- A Prepare that fails leaves the batch alone. -/
theorem onPrepare_failed (σ : St V) (sender ballot first last : Nat) (scope : PrepareScope) :
    (onPrepare P σ sender ballot first last scope).2 = .none ∨
      (onPrepare P σ sender ballot first last scope).1.effects = σ.effects := by
  unfold onPrepare
  dsimp only
  split_ifs
  · exact Or.inl rfl
  · exact Or.inr rfl
  all_goals
    left
    cases scope with
    | global => rfl
    | bounded =>
        dsimp only
        rcases promiseBounded P σ ballot first last with ⟨τ, _ | _⟩ <;> rfl

/-- So does an Accept. -/
theorem onAccept_failed (σ : St V) (sender ballot slot : Nat) (value : V) :
    (onAccept P σ sender ballot slot value).2 = .none ∨
      (onAccept P σ sender ballot slot value).1.effects = σ.effects := by
  unfold onAccept
  dsimp only
  by_cases hzero : slot = 0
  · rw [if_pos hzero]
    exact Or.inr rfl
  rw [if_neg hzero]
  by_cases htrim : slot ≤ σ.node.ledger.anchor.chosenTrimSlot
  · rw [if_pos htrim]
    exact Or.inl rfl
  rw [if_neg htrim]
  by_cases hround : ballotRound ballot = 0 ∧
      (!σ.node.ownership ∨ ballotNode ballot ≠ ownerOf σ.node slot)
  · rw [if_pos hround]
    exact Or.inl rfl
  rw [if_neg hround]
  by_cases hpromised : ballot < σ.node.ledger.promised
  · rw [if_pos hpromised]
    exact Or.inl rfl
  rw [if_neg hpromised]
  rcases claimLive P σ.node slot with ⟨n, _ | cell⟩
  · exact Or.inl rfl
  · dsimp only
    split_ifs
    all_goals first | exact Or.inl rfl | exact Or.inr rfl

/-- So does an acknowledgement. -/
theorem onAccepted_failed (σ : St V) (member ballot slot : Nat) :
    (onAccepted P σ member ballot slot).2 = .none ∨
      (onAccepted P σ member ballot slot).1.effects = σ.effects := by
  unfold onAccepted
  dsimp only
  generalize (if member ∈ (σ.node.lead (cellOf slot P.W)).acknowledgements then
    σ.node.lead (cellOf slot P.W) else
    { σ.node.lead (cellOf slot P.W) with
      acknowledgements := insert member (σ.node.lead (cellOf slot P.W)).acknowledgements
      acknowledged := (σ.node.lead (cellOf slot P.W)).acknowledged + 1 }) = lead
  split_ifs
  · exact Or.inr rfl
  · exact Or.inl rfl
  · exact Or.inl rfl
  · exact Or.inl rfl
  · exact Or.inl rfl
  · exact Or.inr rfl
  · have hfailed := recordCommit_failed (P := P)
      { σ with node := { σ.node with lead := Function.update σ.node.lead (cellOf slot P.W) lead } }
      slot (σ.node.ledger.cells (cellOf slot P.W)).value
    rcases hcase : recordCommit P
      { σ with node := { σ.node with lead := Function.update σ.node.lead (cellOf slot P.W) lead } }
      slot (σ.node.ledger.cells (cellOf slot P.W)).value with ⟨τ, e⟩
    rw [hcase] at hfailed
    cases e with
    | none => exact Or.inl rfl
    | _ => exact Or.inr (hfailed.resolve_left (by simp))

end Failures

/-! ## The drive of a chunk -/

/-- A peer reported the decision of the slot. -/
def ReportedChosen (n : Node V) (slot : Nat) : Prop :=
  (n.recovered (slot - n.recoverBase)).slot = slot ∧
    (n.recovered (slot - n.recoverBase)).state = .chosen

/-- A slot of the chunk that the drive cannot settle: no peer reported its decision, and it has no
cell to claim, or this ballot proposed another value in it. -/
def Refuses (P : Params) (n : Node V) (slot : Nat) : Prop :=
  ¬ ReportedChosen n slot ∧
    ((claimLive P n slot).2 = none ∨
      ((n.lead (cellOf slot P.W)).slot = slot ∧ (n.ledger.cellAt P slot).slot = slot ∧
        (n.ledger.cellAt P slot).state = .voted ∧ (n.ledger.cellAt P slot).voteBallot = n.ballot ∧
        (n.recoveryReady = true →
          ∃ value, Selects n slot value ∧ (n.ledger.cellAt P slot).value ≠ value)))

/-- The drive of the chunk comes to a slot that it cannot settle. -/
def DriveStops (P : Params) (n : Node V) : Prop :=
  n.recoverLast = maxSlot ∨
    ∃ slot, n.recoverBase ≤ slot ∧ n.deliveredThrough < slot ∧ slot ≤ n.recoverLast ∧
      slot ≤ n.memoryFloor + P.W ∧ Refuses P n slot

/-- What a call for one slot leaves alone. -/
structure Beside (P : Params) (n n' : Node V) (slot : Nat) : Prop where
  fixed : n'.fixed = n.fixed
  promised : n'.ledger.promised = n.ledger.promised
  cells : ∀ i, i ≠ cellOf slot P.W → n'.ledger.cells i = n.ledger.cells i
  lead : ∀ i, i ≠ cellOf slot P.W → n'.lead i = n.lead i

namespace Beside

variable {n n' n'' : Node V} {slot : Nat}

/-- A call that changes nothing. -/
theorem refl (n : Node V) (slot : Nat) : Beside P n n slot :=
  ⟨rfl, rfl, fun _ _ => rfl, fun _ _ => rfl⟩

/-- Two calls for one slot. -/
theorem trans (h : Beside P n n' slot) (h' : Beside P n' n'' slot) : Beside P n n'' slot :=
  ⟨h'.fixed.trans h.fixed, h'.promised.trans h.promised,
    fun i hi => (h'.cells i hi).trans (h.cells i hi),
    fun i hi => (h'.lead i hi).trans (h.lead i hi)⟩

/-- Whether a slot is refused depends on its own cell and record, and on the chunk. -/
theorem refuses {s : Nat} (h : Beside P n n' slot) (hcell : cellOf s P.W ≠ cellOf slot P.W)
    (hs : Refuses P n' s) : Refuses P n s := by
  have hfixed := h.fixed
  simp only [Node.fixed, Fixed.mk.injEq] at hfixed
  obtain ⟨-, -, -, -, -, -, hballot, -, -, -, hfloor, hnoop, -, -, -, hbase, -, hrecovered, hready,
    -⟩ := hfixed
  unfold Refuses ReportedChosen Selects at hs ⊢
  rw [claimLive_none_iff] at hs ⊢
  unfold Stuck Ledger.cellAt at hs ⊢
  rw [h.cells _ hcell, h.lead _ hcell, hballot, hfloor, hnoop, hbase, hrecovered, hready] at hs
  exact hs

end Beside

/-- A claim leaves the other cells alone. -/
theorem Claimed.beside {n n' : Node V} {slot cell : Nat} (h : Claimed P n n' slot cell) :
    Beside P n n' slot := by
  refine ⟨h.fixed, ?_, fun i hi => ?_, fun i _ => ?_⟩
  · rcases h.cases with rfl | ⟨rfl, -, -⟩ <;> rfl
  · rcases h.cases with rfl | ⟨rfl, -, -⟩
    · rfl
    · exact ledgerOpen_of_ne _ hi
  · rcases h.cases with rfl | ⟨rfl, -, -⟩ <;> rfl

/-- A release leaves every cell alone. -/
theorem emitContiguous_beside (σ : St V) (slot : Nat) :
    Beside P σ.node (emitContiguous P σ).node slot := by
  obtain ⟨through, entries, -, heq⟩ := emitContiguous_eq P σ
  rw [heq]
  exact ⟨rfl, rfl, fun _ _ => rfl, fun _ _ => rfl⟩

/-- A vote for a proposal leaves the other cells alone. -/
theorem Cast.beside {σ σ' : St V} {slot ballot : Nat} {value : V}
    (h : Cast P σ σ' slot ballot value) : Beside P σ.node σ'.node slot :=
  ⟨h.fixed, h.promised, h.other, h.otherLead⟩

/-- So does a decision. -/
theorem recordCommit_beside [DecidableEq V] (σ : St V) (slot : Nat) (value : V) :
    Beside P σ.node (recordCommit P σ slot value).1.node slot := by
  have hseen : Beside P σ.node { σ.node with highestSeen := max σ.node.highestSeen slot } slot :=
    ⟨rfl, rfl, fun _ _ => rfl, fun _ _ => rfl⟩
  unfold recordCommit
  by_cases hzero : slot = 0
  · rw [if_pos hzero]
    exact .refl _ _
  rw [if_neg hzero]
  dsimp only
  by_cases hlow : slot ≤ σ.node.memoryFloor ∨ slot ≤ σ.node.ledger.anchor.chosenTrimSlot
  · rw [if_pos hlow]
    exact hseen
  rw [if_neg hlow]
  rcases hclaim : claimLive P { σ.node with highestSeen := max σ.node.highestSeen slot } slot with
    ⟨n, _ | cell⟩
  · dsimp only
    split_ifs
    · exact hseen
    · refine Beside.trans ?_ (emitContiguous_beside _ slot)
      exact ⟨rfl, rfl, fun _ _ => rfl, fun _ _ => rfl⟩
    · exact hseen
  · have hc := claimLive_some hclaim
    have hcell := hc.cell_eq
    subst hcell
    have hclaimed : Beside P σ.node n slot := hseen.trans hc.beside
    dsimp only
    by_cases hchosen : (n.ledger.cells (cellOf slot P.W)).state = .chosen
    · rw [if_pos hchosen]
      split_ifs
      · exact hclaimed
      · exact hclaimed.trans (emitContiguous_beside { σ with node := n } slot)
    · rw [if_neg hchosen]
      refine (hclaimed.trans ?_).trans (emitContiguous_beside _ slot)
      refine ⟨?_, ?_, fun i hi => ?_, fun i _ => ?_⟩
      · unfold queueResubmit
        split_ifs <;> rfl
      · unfold queueResubmit
        split_ifs <;> rfl
      · unfold queueResubmit
        split_ifs <;> simp [St.addWrite, ledgerRecordChosen_cells, hi]
      · unfold queueResubmit
        split_ifs <;> rfl

section Drive

variable [DecidableEq V]

/-- The decision of an undecided live slot is recorded, or passed through, or ignored. -/
theorem recordCommit_undecided {σ : St V} {slot : Nat} (value : V) (hslot : slot ≠ 0)
    (hundecided : ledgerChosenAt P σ.node.ledger slot = none) :
    (recordCommit P σ slot value).2 = .none := by
  unfold recordCommit
  rw [if_neg hslot]
  dsimp only
  by_cases hlow : slot ≤ σ.node.memoryFloor ∨ slot ≤ σ.node.ledger.anchor.chosenTrimSlot
  · rw [if_pos hlow]
  rw [if_neg hlow]
  rcases hclaim : claimLive P { σ.node with highestSeen := max σ.node.highestSeen slot } slot with
    ⟨n, _ | cell⟩
  · dsimp only
    split_ifs <;> rfl
  · have hc := claimLive_some hclaim
    have hcell := hc.cell_eq
    subst hcell
    dsimp only
    rw [if_neg]
    intro hchosen
    rcases hc.cases with rfl | ⟨rfl, -, -⟩
    · have hheld := hc.held
      simp only [Ledger.cellAt] at hheld
      unfold ledgerChosenAt at hundecided
      simp only at hundecided
      rw [if_neg hslot, if_neg (by
        rw [not_or, not_not, not_not]
        exact ⟨hheld, hchosen⟩)] at hundecided
      cases hundecided
    · simp at hchosen

/-- The drive votes in a slot that it can settle, or has lost it to a higher ballot. -/
theorem sendAccept_drives {σ : St V} {slot : Nat} {value : V}
    (hselects : Selects σ.node slot value) (hundecided : ledgerChosenAt P σ.node.ledger slot = none)
    (hreported : ¬ ReportedChosen σ.node slot) (hclear : ¬ Refuses P σ.node slot) :
    (sendAccept P σ slot σ.node.ballot value).2 = .notLeader ∨
      ∃ τ, sendAccept P σ slot σ.node.ballot value = (τ, .none) ∧
        Cast P σ τ slot σ.node.ballot value := by
  have hclaims : (claimLive P σ.node slot).2 ≠ none := fun h => hclear ⟨hreported, Or.inl h⟩
  have hagreed : (σ.node.lead (cellOf slot P.W)).slot = slot →
      (σ.node.ledger.cellAt P slot).slot = slot → (σ.node.ledger.cellAt P slot).state = .voted →
      (σ.node.ledger.cellAt P slot).voteBallot = σ.node.ballot →
      (σ.node.ledger.cellAt P slot).value = value := by
    intro hlead hheld hstate hballot
    by_contra hvalue
    exact hclear ⟨hreported, Or.inr ⟨hlead, hheld, hstate, hballot, fun _ => ⟨value, hselects, hvalue⟩⟩⟩
  by_cases hpromised : governing P σ.node.ledger slot ≤ σ.node.ballot
  · exact Or.inr (sendAccept_cast ⟨hclaims, hundecided, hpromised, hagreed⟩)
  · left
    unfold sendAccept
    rcases hclaim : claimLive P σ.node slot with ⟨n, _ | cell⟩
    · exact absurd (congrArg Prod.snd hclaim) hclaims
    have hc := claimLive_some hclaim
    have hcell := hc.cell_eq
    subst hcell
    have hheld := hc.held
    unfold governing at hpromised
    rcases hc.cases with rfl | ⟨rfl, hother, -⟩
    · rw [if_pos hheld] at hpromised
      have hopen : (σ.node.ledger.cells (cellOf slot P.W)).state ≠ .chosen := by
        intro hchosen
        unfold ledgerChosenAt at hundecided
        simp only [Ledger.cellAt] at hundecided hheld
        have hlive := hc.live
        rw [if_neg (show slot ≠ 0 by omega), if_neg (by
          rw [not_or, not_not, not_not]
          exact ⟨hheld, hchosen⟩)] at hundecided
        cases hundecided
      dsimp only
      rw [if_neg hopen, if_neg (fun h => h.2.2.2 (hagreed h.1 hheld h.2.1 h.2.2.1)),
        if_pos (show σ.node.ballot < ledgerPromiseFor σ.node.ledger (cellOf slot P.W) from
          Nat.not_le.mp hpromised)]
    · rw [if_neg hother] at hpromised
      dsimp only
      rw [if_neg (by simp), if_neg (by simp), if_pos]
      unfold ledgerPromiseFor
      simp only [ledgerOpen_self]
      have : (ledgerOpen σ.node.ledger (cellOf slot P.W) slot).promised =
        σ.node.ledger.promised := rfl
      omega

/-- The loop of `resolve_chunk` answers no error when it can settle every slot ahead. -/
theorem resolveLoop_clear {noop : V} {stop : Nat} :
    ∀ {fuel : Nat} {σ : St V} {slot : Nat}, slot + fuel = stop →
      (0 < fuel → Driving P σ.node noop slot stop) →
      (∀ s, slot ≤ s → s < stop →
        σ.node.memoryFloor < s ∧ s ≠ maxSlot ∧ ¬ Refuses P σ.node s) →
      (resolveLoop P noop fuel σ slot).2 = none ∨
        (resolveLoop P noop fuel σ slot).2 = some (false, .none) := by
  intro fuel
  induction fuel with
  | zero => exact fun _ _ _ => Or.inl rfl
  | succ fuel ih =>
      intro σ slot hstop hdriving hclear
      have hd := hdriving (Nat.succ_pos fuel)
      obtain ⟨hlive, hmax, hsettles⟩ := hclear slot le_rfl (by omega)
      -- the slots ahead have cells of their own
      have hrest : ∀ {τ : St V}, Beside P σ.node τ.node slot →
          (resolveLoop P noop fuel τ (slot + 1)).2 = none ∨
            (resolveLoop P noop fuel τ (slot + 1)).2 = some (false, .none) := by
        intro τ hbeside
        have hfloor : τ.node.memoryFloor = σ.node.memoryFloor :=
          congrArg Fixed.memoryFloor hbeside.fixed
        refine ih (by omega) (fun _ => (hd.congr hbeside.fixed).next) fun s hs hlt => ?_
        obtain ⟨hlow, hword, hs'⟩ := hclear s (by omega) hlt
        have hwindow := hd.window
        refine ⟨hfloor ▸ hlow, hword, fun hrefuses => hs' (hbeside.refuses ?_ hrefuses)⟩
        intro hcell
        have := eq_of_cellOf_eq P hlow (by omega) hlive (by omega) hcell
        omega
      unfold resolveLoop
      rw [if_neg hmax]
      dsimp only
      cases hundecided : ledgerChosenAt P σ.node.ledger slot with
      | some value => exact hrest (Beside.refl σ.node slot)
      | none =>
          dsimp only
          by_cases hreported : (σ.node.recovered (slot - σ.node.recoverBase)).slot = slot ∧
              (σ.node.recovered (slot - σ.node.recoverBase)).state = .chosen
          · rw [if_pos hreported]
            have hok := recordCommit_undecided
              (σ.node.recovered (slot - σ.node.recoverBase)).value (by omega) hundecided
            have hbeside := recordCommit_beside (P := P) σ slot
              (σ.node.recovered (slot - σ.node.recoverBase)).value
            rcases hcommit : recordCommit P σ slot
              (σ.node.recovered (slot - σ.node.recoverBase)).value with ⟨τ, e⟩
            rw [hcommit] at hok hbeside
            obtain rfl : e = .none := hok
            dsimp only
            cases ledgerChosenAt P τ.node.ledger slot <;> exact hrest hbeside
          · rw [if_neg hreported]
            have hselects := hd.selects hreported
            rcases sendAccept_drives hselects hundecided hreported hsettles with
              hlost | ⟨τ, hsent, hcast⟩
            · rcases hsend : sendAccept P σ slot σ.node.ballot
                (if (σ.node.recovered (slot - σ.node.recoverBase)).slot = slot ∧
                    (σ.node.recovered (slot - σ.node.recoverBase)).state = .voted then
                  (σ.node.recovered (slot - σ.node.recoverBase)).value else noop) with ⟨τ, e⟩
              rw [hsend] at hlost
              obtain rfl : e = .notLeader := hlost
              exact Or.inr rfl
            · rw [hsent]
              exact hrest hcast.beside

/-- The drive of a chunk fails before its loop, or not at all. -/
theorem resolveChunk_failed {σ : St V} {noop : V} (anyMore : Bool)
    (hrole : σ.node.role = .preparing) (hfrozen : σ.node.recoveryReady = true)
    (hnoop : σ.node.noop = some noop) (hfloor : σ.node.memoryFloor ≤ σ.node.deliveredThrough)
    (hword : σ.node.recoverLast ≤ maxSlot) (hstops : ¬ DriveStops P σ.node) :
    (resolveChunk P σ noop anyMore).2.2 = .none ∨ (resolveChunk P σ noop anyMore).1 = σ ∧
      (resolveChunk P σ noop anyMore).2.2 ≠ .none := by
  have hloop : ∀ driveLimit, driveLimit =
      min (driveGoal P σ.node anyMore) (slotAdd σ.node.memoryFloor P.W) →
      (resolveLoop P noop (driveLimit + 1 - driveStart σ.node) σ (driveStart σ.node)).2 = none ∨
        (resolveLoop P noop (driveLimit + 1 - driveStart σ.node) σ (driveStart σ.node)).2 =
          some (false, .none) := by
    intro driveLimit hlimit
    refine resolveLoop_clear rfl (driving_of_frozen hrole hfrozen hnoop hlimit) fun s hs hlt => ?_
    have hd := driving_of_frozen hrole hfrozen hnoop hlimit (by omega)
    have hlast := hd.last
    have hwindow := hd.window
    have hbase := hd.base
    have hbounds := quorumFences_bounds σ.node
    have hstart : max (quorumFences σ.node).trim (quorumFences σ.node).chosen + 1 ≤
        driveStart σ.node := le_max_right _ _
    refine ⟨by omega, fun hmax => hstops (Or.inl (by omega)), fun hrefuses => hstops (Or.inr ?_)⟩
    exact ⟨s, by omega, by omega, by omega, by omega, hrefuses⟩
  unfold resolveChunk
  dsimp only
  split_ifs with hfence
  · exact Or.inr ⟨rfl, by simp⟩
  · left
    rcases hcase : resolveLoop P noop (min (driveGoal P σ.node anyMore)
      (slotAdd σ.node.memoryFloor P.W) + 1 - driveStart σ.node) σ (driveStart σ.node) with ⟨τ, r⟩
    have hr := hloop _ rfl
    rw [hcase] at hr
    rcases hr with hr | hr
    · obtain rfl : r = none := hr
      rfl
    · obtain rfl : r = some (false, .none) := hr
      rfl

/-- What follows the selection of a chunk fails before the drive, or not at all. -/
theorem resolveFrozen_failed {σ : St V} {noop : V} (hrole : σ.node.role = .preparing)
    (hfrozen : σ.node.recoveryReady = true) (hnoop : σ.node.noop = some noop)
    (hfloor : σ.node.memoryFloor ≤ σ.node.deliveredThrough)
    (hword : σ.node.recoverLast ≤ maxSlot) (hstops : ¬ DriveStops P σ.node) :
    (resolveFrozen P σ noop).2 = .none ∨
      (resolveFrozen P σ noop).1.effects = σ.effects := by
  obtain ⟨-, hdone⟩ := resolveChunk_run (P := P) (I := {}) σ.node.recoveryMore hrole hfrozen hnoop
  have hchunk := resolveChunk_failed σ.node.recoveryMore hrole hfrozen hnoop hfloor
    hword hstops
  unfold resolveFrozen
  dsimp only
  rcases hres : resolveChunk P σ noop σ.node.recoveryMore with ⟨τ, resolved, e⟩
  rw [hres] at hdone hchunk
  rcases hchunk with herror | ⟨hsame, herror⟩
  · obtain rfl : e = .none := herror
    left
    dsimp only
    cases resolved with
    | false => rfl
    | true =>
        have hlast : τ.node.recoverLast = σ.node.recoverLast :=
          congrArg Fixed.recoverLast (hdone rfl).fixed
        simp only [Bool.not_true, Bool.false_eq_true, if_false]
        split_ifs with hmore hmax
        · exact absurd (Or.inl (hlast.symm.trans hmax)) hstops
        · rfl
        · rfl
  · obtain rfl : τ = σ := hsame
    cases e with
    | none => exact absurd rfl herror
    | _ => exact Or.inr rfl

omit [DecidableEq V] in
/-- Freezing the selection stops no drive. -/
theorem freezeSelection_stops {n : Node V} (h : DriveStops P (freezeSelection n)) :
    DriveStops P n := by
  unfold freezeSelection at h
  split_ifs at h with hready
  · exact h
  · rcases h with hmax | ⟨slot, hbase, hbeyond, hlast, hwindow, hreported, hrefused⟩
    · exact Or.inl hmax
    · refine Or.inr ⟨slot, hbase, hbeyond, hlast, hwindow, hreported, ?_⟩
      rcases hrefused with hclaims | ⟨hlead, hheld, hstate, hballot, -⟩
      · rw [claimLive_none_iff] at hclaims
        exact Or.inl (claimLive_none_iff.mpr hclaims)
      · exact Or.inr ⟨hlead, hheld, hstate, hballot, fun h => absurd h hready⟩

/-- The resolution of a chunk fails before the drive, or not at all. -/
theorem maybeResolveChunk_failed {σ : St V} (hrole : σ.node.role = .preparing)
    (hfloor : σ.node.memoryFloor ≤ σ.node.deliveredThrough)
    (hword : σ.node.recoverLast ≤ maxSlot) (hstops : ¬ DriveStops P σ.node) :
    (maybeResolveChunk P σ).2 = .none ∨
      (maybeResolveChunk P σ).1.effects = σ.effects := by
  unfold maybeResolveChunk
  cases hnoop : σ.node.noop with
  | none => exact Or.inr rfl
  | some noop =>
      dsimp only
      split_ifs with hwait
      · exact Or.inl rfl
      · have hframe : (freezeSelection σ.node).role = σ.node.role ∧
            (freezeSelection σ.node).recoveryReady = true ∧
            (freezeSelection σ.node).noop = σ.node.noop ∧
            (freezeSelection σ.node).memoryFloor = σ.node.memoryFloor ∧
            (freezeSelection σ.node).deliveredThrough = σ.node.deliveredThrough ∧
            (freezeSelection σ.node).recoverLast = σ.node.recoverLast := by
          unfold freezeSelection
          split_ifs with hready
          · exact ⟨rfl, hready, rfl, rfl, rfl, rfl⟩
          · exact ⟨rfl, rfl, rfl, rfl, rfl, rfl⟩
        obtain ⟨hrole', hready', hnoop', hfloor', hdelivered', hlast'⟩ := hframe
        exact resolveFrozen_failed (σ := { σ with node := freezeSelection σ.node })
          (hrole'.trans hrole) hready' (hnoop'.trans hnoop)
          (hfloor'.trans_le (hfloor.trans hdelivered'.ge)) (hlast'.trans_le hword)
          fun h => hstops (freezeSelection_stops h)

/-! ## Reports -/

/-- One more report stops no drive. -/
theorem recordReport_stops {n : Node V} {offset slot : Nat} (member vote : Nat) (state : CellState)
    (value : V) (hready : n.recoveryReady ≠ true) (hoffset : recoveryIndex P n slot = some offset)
    (h : DriveStops P (recordReport n member offset slot vote state value).1) : DriveStops P n := by
  have hframe : ∃ seen election, (recordReport n member offset slot vote state value).1 =
      { n with
        promiseSeen := seen
        election := election
        recovered := Function.update n.recovered offset
          (mergeReport (n.recovered offset) slot vote state value).1 } := by
    unfold recordReport
    dsimp only
    split_ifs <;> exact ⟨_, _, rfl⟩
  obtain ⟨seen, election, heq⟩ := hframe
  rw [heq] at h
  rcases h with hmax | ⟨s, hbase, hbeyond, hlast, hwindow, hreported, hrefused⟩
  · exact Or.inl hmax
  · refine Or.inr ⟨s, hbase, hbeyond, hlast, hwindow, fun hchosen => hreported ?_, ?_⟩
    · -- a reported decision stays
      have hslot : n.recoverBase + offset = slot := by
        unfold recoveryIndex at hoffset
        split_ifs at hoffset
        cases hoffset
        omega
      obtain ⟨hs, hstate⟩ := hchosen
      unfold ReportedChosen
      dsimp only at hbase ⊢
      by_cases hsame : s - n.recoverBase = offset
      · rw [hsame] at hs hstate ⊢
        have hs' : (n.recovered offset).slot = slot := by omega
        rw [Function.update_self]
        unfold mergeReport
        dsimp only
        rw [if_neg (not_not.mpr hs')]
        split
        · rename_i hempty
          rw [hempty] at hstate
          cases hstate
        · exact ⟨hs, hstate⟩
        · rename_i hvoted
          rw [hvoted] at hstate
          cases hstate
      · rw [Function.update_of_ne hsame]
        exact ⟨hs, hstate⟩
    · rcases hrefused with hclaims | ⟨hlead, hheld, hvoted, hballot, -⟩
      · rw [claimLive_none_iff] at hclaims
        exact Or.inl (claimLive_none_iff.mpr hclaims)
      · exact Or.inr ⟨hlead, hheld, hvoted, hballot, fun h => absurd h hready⟩

/-- A report fails before the drive, or not at all. -/
theorem onPromise_failed {σ : St V} {member ballot slot vote : Nat} {state : CellState} {value : V}
    (hfloor : σ.node.memoryFloor ≤ σ.node.deliveredThrough)
    (hword : σ.node.role = .preparing → σ.node.recoverLast ≤ maxSlot)
    (hstops : σ.node.role = .preparing → ballot = σ.node.ballot → ¬ DriveStops P σ.node) :
    (onPromise P σ member ballot slot vote state value).2 = .none ∨
      (onPromise P σ member ballot slot vote state value).1.effects = σ.effects := by
  unfold onPromise
  by_cases hstale : σ.node.role ≠ .preparing ∨ ballot ≠ σ.node.ballot
  · rw [if_pos hstale]
    exact Or.inl rfl
  rw [if_neg hstale]
  rw [not_or, not_not, not_not] at hstale
  obtain ⟨hrole, hballot⟩ := hstale
  by_cases hready : σ.node.recoveryReady = true
  · rw [if_pos hready]
    exact maybeResolveChunk_failed hrole hfloor (hword hrole) (hstops hrole hballot)
  rw [if_neg hready]
  cases hoffset : recoveryIndex P σ.node slot with
  | none => exact Or.inl rfl
  | some offset =>
      dsimp only
      by_cases hempty : state = .empty
      · rw [if_pos hempty]
        exact Or.inr rfl
      rw [if_neg hempty]
      have hframe : (recordReport σ.node member offset slot vote state value).1.role =
            σ.node.role ∧
          (recordReport σ.node member offset slot vote state value).1.memoryFloor =
            σ.node.memoryFloor ∧
          (recordReport σ.node member offset slot vote state value).1.deliveredThrough =
            σ.node.deliveredThrough ∧
          (recordReport σ.node member offset slot vote state value).1.recoverLast =
            σ.node.recoverLast := by
        unfold recordReport
        dsimp only
        split_ifs <;> exact ⟨rfl, rfl, rfl, rfl⟩
      obtain ⟨hrole', hfloor', hdelivered', hlast'⟩ := hframe
      have hkept := recordReport_stops (P := P) member vote state value hready hoffset
      rcases hrecord : recordReport σ.node member offset slot vote state value with ⟨n, e⟩
      rw [hrecord] at hrole' hfloor' hdelivered' hlast' hkept
      cases e with
      | none =>
          exact maybeResolveChunk_failed (σ := { σ with node := n }) (hrole'.trans hrole)
            (hfloor'.trans_le (hfloor.trans hdelivered'.ge)) (hlast'.trans_le (hword hrole))
            fun h => hstops hrole hballot (hkept h)
      | _ => exact Or.inr rfl

/-- A manifest fails before the drive, or not at all. -/
theorem onPromiseRange_failed {σ : St V} {member ballot : Nat} {anchor : TrimAnchor}
    {chosenThrough first last reported : Nat} {more : Bool}
    (hfloor : σ.node.memoryFloor ≤ σ.node.deliveredThrough)
    (hword : σ.node.role = .preparing → σ.node.recoverLast ≤ maxSlot)
    (hstops : σ.node.role = .preparing → ballot = σ.node.ballot → ¬ DriveStops P σ.node) :
    (onPromiseRange P σ member ballot anchor chosenThrough first last reported more).2 = .none ∨
      (onPromiseRange P σ member ballot anchor chosenThrough first last reported
        more).1.effects = σ.effects := by
  unfold onPromiseRange
  by_cases hstale : σ.node.role ≠ .preparing ∨ ballot ≠ σ.node.ballot
  · rw [if_pos hstale]
    exact Or.inl rfl
  rw [if_neg hstale]
  rw [not_or, not_not, not_not] at hstale
  obtain ⟨hrole, hballot⟩ := hstale
  have hresolve : ∀ n : Node V, n = σ.node ∨
      n = recordManifest σ.node member anchor chosenThrough first last reported more →
      (maybeResolveChunk P { σ with node := n }).2 = .none ∨
        (maybeResolveChunk P { σ with node := n }).1.effects = σ.effects := by
    rintro n (rfl | rfl)
    · exact maybeResolveChunk_failed hrole hfloor (hword hrole) (hstops hrole hballot)
    · refine maybeResolveChunk_failed (σ := { σ with node := recordManifest _ _ _ _ _ _ _ _ }) hrole
        hfloor (hword hrole) fun h => hstops hrole hballot ?_
      unfold DriveStops Refuses at h ⊢
      simp only [claimLive_none_iff] at h ⊢
      exact h
  split_ifs
  · exact hresolve _ (Or.inl rfl)
  · exact Or.inr rfl
  · exact Or.inr rfl
  · exact Or.inl rfl
  · exact hresolve _ (Or.inr rfl)

/-! ## Messages -/

/-- The message reports to a candidate at `ballot`. -/
def Message.reportsAt (ballot : Nat) : Message V → Bool
  | .promise b _ _ _ _ => b == ballot
  | .promiseRange b _ _ _ _ _ _ => b == ballot
  | _ => false

/-- A message that a voter fails to handle has released nothing. -/
theorem dispatch_failed {σ : St V} {sender member : Nat} {msg : Message V}
    (hfloor : σ.node.memoryFloor ≤ σ.node.deliveredThrough)
    (hword : σ.node.role = .preparing → σ.node.recoverLast ≤ maxSlot)
    (hstops : σ.node.role = .preparing → msg.reportsAt σ.node.ballot = true →
      ¬ DriveStops P σ.node) :
    (dispatch P σ sender member msg).2 = .none ∨
      (dispatch P σ sender member msg).1.effects = σ.effects := by
  cases msg with
  | prepare ballot first last scope => exact onPrepare_failed σ sender ballot first last scope
  | promise ballot slot vote state value =>
      exact onPromise_failed hfloor hword fun hrole hballot => hstops hrole (beq_iff_eq.mpr hballot)
  | promiseRange ballot anchor through first last reported more =>
      exact onPromiseRange_failed hfloor hword fun hrole hballot =>
        hstops hrole (beq_iff_eq.mpr hballot)
  | accept ballot slot value => exact onAccept_failed σ sender ballot slot value
  | accepted ballot slot through => exact onAccepted_failed σ member ballot slot
  | commit slot value => exact recordCommit_failed _ slot value
  | learn fromSlot count =>
      simp only [dispatch, onLearn]
      split_ifs
      · exact Or.inr rfl
      · exact Or.inl rfl
      · exact Or.inl rfl
  | nack rejected promised slot through => exact Or.inl rfl
  | heartbeat ballot through => exact Or.inl rfl

/-- An envelope that fails to be processed has released nothing. -/
theorem nodeStep_failed {n : Node V} {e : Envelope V} (ho : Opened P n)
    (hstops : n.role = .preparing → e.message.reportsAt n.ballot = true → ¬ DriveStops P n) :
    (nodeStep P n e).2 = .none ∨ (nodeStep P n e).1.effects.committed = [] := by
  unfold nodeStep
  by_cases hrecipient : e.recipient ≠ n.id
  · rw [if_pos hrecipient]
    exact Or.inr rfl
  rw [if_neg hrecipient]
  cases membershipIndexOf n.membership e.sender with
  | none => exact Or.inr rfl
  | some member =>
      dsimp only
      have hframe : ∃ progress, notePeerProgress n member e.message =
          { n with peerDecidedThrough := progress } := by
        unfold notePeerProgress
        cases messageDecidedThrough e.message <;> exact ⟨_, rfl⟩
      obtain ⟨progress, heq⟩ := hframe
      rw [heq]
      split_ifs
      · cases e.message with
        | commit slot value =>
            exact (recordCommit_failed _ slot value).imp_right (congrArg Effects.committed)
        | _ => exact Or.inr rfl
      · refine Or.imp_right (congrArg Effects.committed) (dispatch_failed
          (σ := St.start { n with peerDecidedThrough := progress }) ho.floor
          (fun hrole => (ho.chunk hrole).2) fun hrole hreports h => hstops hrole hreports ?_)
        unfold DriveStops Refuses at h ⊢
        simp only [claimLive_none_iff] at h ⊢
        exact h

/-! ## Ticks -/

omit [DecidableEq V] in
/-- Promises for the slots of a range release nothing. -/
theorem promiseRange_unreleased (ballot : Nat) (slots : List Nat) (σ : St V) :
    (promiseRange P ballot σ slots).effects.committed = σ.effects.committed := by
  induction slots generalizing σ with
  | nil => rfl
  | cons slot slots ih =>
      unfold promiseRange
      dsimp only
      split_ifs
      · exact ih σ
      · exact ih σ
      · exact ih _

omit [DecidableEq V] in
/-- A revocation that starts releases nothing. -/
theorem startRevocation_unreleased (σ : St V) (noop : V) :
    (startRevocation P σ noop).1.effects.committed = σ.effects.committed := by
  have hbounded : ∀ ballot first last,
      (promiseBounded P σ ballot first last).1.effects.committed = σ.effects.committed := by
    intro ballot first last
    unfold promiseBounded
    dsimp only
    split_ifs
    · rfl
    · rcases claimRange P ballot σ.node
        ((List.range (slotSub last first + 1)).map (first + ·)) with ⟨n, _ | _⟩
      · rfl
      · exact promiseRange_unreleased ballot _ _
  unfold startRevocation
  dsimp only
  cases nextRound P σ.node with
  | none => rfl
  | some round =>
      dsimp only
      split_ifs
      · rfl
      · have hpromised := hbounded (ballotMake round σ.node.priority σ.node.id)
          (σ.node.deliveredThrough + 1) (revocationLast P σ.node (σ.node.deliveredThrough + 1))
        rcases hcase : promiseBounded P σ (ballotMake round σ.node.priority σ.node.id)
          (σ.node.deliveredThrough + 1) (revocationLast P σ.node (σ.node.deliveredThrough + 1)) with
          ⟨τ, _ | _⟩
        · rw [hcase] at hpromised
          exact hpromised
        · rw [hcase] at hpromised
          exact hpromised

omit [DecidableEq V] in
/-- A retransmission releases nothing. -/
theorem resendToPeers_unreleased (σ : St V) :
    (resendToPeers P σ).effects.committed = σ.effects.committed := by
  have hfold : ∀ (peers : List Nat) (σ : St V),
      (peers.foldl (resendTo P) σ).effects.committed = σ.effects.committed := by
    intro peers
    induction peers with
    | nil => exact fun _ => rfl
    | cons peer peers ih =>
        intro σ
        refine (ih _).trans ?_
        unfold resendTo
        cases membershipIndexOf σ.node.membership peer with
        | none => rfl
        | some i =>
            dsimp only
            split_ifs <;> rfl
  exact hfold _ σ

omit [DecidableEq V] in
/-- The quiet part of an ownership tick releases nothing, and fails only when nothing was
proposed. -/
theorem tickStalled_failed (σ : St V) (noop : V) (proposed : Nat) :
    (tickStalled P σ noop proposed).1.effects.committed = σ.effects.committed ∧
      ((tickStalled P σ noop proposed).2 = .none ∨ proposed = 0) := by
  have hresent : ∀ τ : St V,
      τ = (if proposed = 0 ∧ σ.node.resendTicks ≥ σ.node.resendIntervalTicks then
        resendToPeers P { σ with node := { σ.node with resendTicks := 0 } } else σ) →
      τ.effects.committed = σ.effects.committed := by
    rintro τ rfl
    split_ifs
    · exact resendToPeers_unreleased _
    · rfl
  unfold tickStalled
  dsimp only
  generalize hτ : (if proposed = 0 ∧ σ.node.resendTicks ≥ σ.node.resendIntervalTicks then
    resendToPeers P { σ with node := { σ.node with resendTicks := 0 } } else σ) = τ
  have hcommitted := hresent τ hτ.symm
  split_ifs with hdone hrevoke
  · exact ⟨hcommitted, Or.inl rfl⟩
  · exact ⟨(startRevocation_unreleased _ noop).trans hcommitted, Or.inr hrevoke.2⟩
  · exact ⟨hcommitted, Or.inl rfl⟩
  · exact ⟨hcommitted, Or.inl rfl⟩
  · exact ⟨hcommitted, Or.inl rfl⟩

end Drive

/-! ## Suggestions of a tick -/

/-- The end of the slot line is out of reach of an owner's suggestions. -/
def Spacious (P : Params) (n : Node V) : Prop :=
  n.ownNext < maxSlot ∧ n.memoryFloor + P.W + 1 + n.membership.members.length < maxSlot

/-- The next own slot is at most one round of the members away. -/
theorem ownSlotFrom_le_add {n : Node V} (start : Nat)
    (hself : n.selfIndex < n.membership.members.length) :
    ownSlotFrom n start ≤ start + n.membership.members.length := by
  unfold ownSlotFrom
  dsimp only
  split_ifs
  · omega
  · omega
  · exact (slotAdd_le_add _ _).trans (by omega)

/-- With the end out of reach, a probe that finds nothing has met the end of the window. -/
theorem ownSlotProbe_spacious {n : Node V} {e : Error}
    (hself : n.selfIndex < n.membership.members.length) (hs : Spacious P n)
    (h : ownSlotProbe P n n.ownNext = .error e) : e = .windowFull := by
  obtain ⟨hnext, hend⟩ := hs
  have hloop : ∀ fuel slot, slot < maxSlot → ownSlotProbeLoop P n fuel slot = .error e →
      e = .windowFull := by
    intro fuel
    induction fuel with
    | zero =>
        intro slot _ h
        cases h
        rfl
    | succ fuel ih =>
        intro slot hslot h
        unfold ownSlotProbeLoop at h
        rw [if_neg (show slot ≠ maxSlot by omega)] at h
        by_cases hfull : slot - n.memoryFloor > P.W
        · rw [if_pos hfull] at h
          cases h
          rfl
        rw [if_neg hfull] at h
        have hlater : ownSlotFrom n (slot + 1) < maxSlot := by
          have := ownSlotFrom_le_add (slot + 1) hself
          omega
        dsimp only at h
        split_ifs at h
        · exact ih _ hlater h
        · exact ih _ hlater h
        · cases h
          rfl
  unfold ownSlotProbe at h
  rw [if_neg (by omega)] at h
  split_ifs at h
  · refine hloop _ _ ?_ h
    have := ownSlotFrom_le_add (n.memoryFloor + 1) hself
    omega
  · exact hloop _ _ hnext h

/-- Whether an owner can suggest does not depend on its queue. -/
theorem Owner.requeue {n : Node V} (h : Owner P n) (resubmit : List V) :
    Owner P { n with resubmit := resubmit } := by
  refine ⟨⟨h.opened.member, h.opened.small, h.opened.aligned, h.opened.term, h.opened.chunk,
    h.opened.floor, h.opened.last⟩, h.voter, h.mode, fun slot hnext hs hlead hheld => ?_⟩
  refine h.unled slot hnext ⟨hs.live, hs.window, ?_, hs.undecided, hs.promised⟩ hlead hheld
  have hclaims := hs.claims
  rw [Ne, claimLive_none_iff] at hclaims ⊢
  exact hclaims

section Ticks

variable [DecidableEq V]

/-- With the end out of reach an owner's suggestion is placed, or there is no room for it. -/
theorem Owner.suggests {σ : St V} (h : Owner P σ.node) (hs : Spacious P σ.node) (value : V) :
    proposeOwned P σ value = (σ, 0, .windowFull) ∨
      ∃ τ slot, proposeOwned P σ value = (τ, slot, .none) ∧ Owner P τ.node ∧ Spacious P τ.node := by
  have haligned := h.opened.aligned h.voter h.mode
  have hself := h.opened.selfIndex_lt h.voter
  cases hprobe : ownSlotProbe P σ.node σ.node.ownNext with
  | error e =>
      left
      rw [← ownSlotProbe_spacious hself hs hprobe]
      simp [proposeOwned, proposeOwnedLoop, nextUsableOwnSlot, hprobe]
  | ok slot =>
      right
      obtain ⟨-, hle, -⟩ := ownSlotProbe_spec h.opened h.voter haligned hprobe
      have hfit := ownSlotProbe_suggestible h.opened h.voter haligned.1 hprobe
      obtain ⟨τ, hcast, -, hstep⟩ := proposeOwnedLoop_suggestible h.unled hfit hle value P.W hprobe
      have hstep : proposeOwned P σ value = (τ.suggested slot, slot, .none) := hstep
      have hsame := hcast.sameBeyond hfit.live
      refine ⟨_, _, hstep, (h.suggested hprobe hcast hstep).1, ?_, ?_⟩
      · have hnext : (τ.suggested slot).node.ownNext = ownSlotFrom σ.node (slot + 1) :=
          hsame.ownSlotFrom (slot + 1)
        have hbound := ownSlotFrom_le_add (slot + 1) hself
        have hwindow := hfit.window
        have hend := hs.2
        omega
      · rw [hsame.floor, hsame.membership]
        exact hs.2

/-- What a loop of suggestions owes the rest of its tick: it released nothing, or it placed
something. -/
structure Placing (σ : St V) (sent : Nat) (r : St V × Nat × Error) : Prop where
  placed : sent ≤ r.2.1
  quiet : r.2.1 = sent → r.1.effects.committed = σ.effects.committed

omit [DecidableEq V] in
/-- A suggestion, and the rest of the loop after it. -/
theorem Placing.after {σ τ : St V} {sent : Nat} {r : St V × Nat × Error}
    (h : Placing τ (sent + 1) r) : Placing σ sent r :=
  ⟨(Nat.le_succ _).trans h.placed, fun heq => absurd h.placed (by omega)⟩

/-- Without a vote that decides alone the loop of `drain_resubmits` releases nothing. -/
theorem drainLoop_unreleased {σ : St V} (fuel sent : Nat)
    (hquorum : σ.node.membership.writeQuorumSize ≠ 1) :
    (drainLoop P fuel σ sent).1.node.membership = σ.node.membership ∧
      (drainLoop P fuel σ sent).1.effects.committed = σ.effects.committed := by
  induction fuel generalizing σ sent with
  | zero => exact ⟨rfl, rfl⟩
  | succ fuel ih =>
      unfold drainLoop
      cases σ.node.resubmit with
      | nil => exact ⟨rfl, rfl⟩
      | cons value values =>
          dsimp only
          have hstep := proposeOwnedLoop_unreleased (P := P) value (P.W + 1) hquorum
          rcases hcase : proposeOwned P σ value with ⟨τ, slot, e⟩
          unfold proposeOwned at hcase
          rw [hcase] at hstep
          cases e with
          | none =>
              obtain ⟨hmembers, hcommitted⟩ := ih
                (σ := { τ with node := { τ.node with resubmit := τ.node.resubmit.tail } }) (sent + 1)
                (by rw [hstep.1]; exact hquorum)
              exact ⟨hmembers.trans hstep.1, hcommitted.trans hstep.2⟩
          | _ => exact hstep

/-- Nor does the loop of `skip_idle_slots`. -/
theorem skipLoop_unreleased {σ : St V} (noop : V) (fuel sent : Nat)
    (hquorum : σ.node.membership.writeQuorumSize ≠ 1) :
    (skipLoop P noop fuel σ sent).1.node.membership = σ.node.membership ∧
      (skipLoop P noop fuel σ sent).1.effects.committed = σ.effects.committed := by
  induction fuel generalizing σ sent with
  | zero => exact ⟨rfl, rfl⟩
  | succ fuel ih =>
      unfold skipLoop
      split_ifs
      · have hstep := proposeOwnedLoop_unreleased (P := P) noop (P.W + 1) hquorum
        rcases hcase : proposeOwned P σ noop with ⟨τ, slot, e⟩
        unfold proposeOwned at hcase
        rw [hcase] at hstep
        cases e with
        | none =>
            obtain ⟨hmembers, hcommitted⟩ := ih (σ := τ) (sent + 1)
              (by rw [hstep.1]; exact hquorum)
            exact ⟨hmembers.trans hstep.1, hcommitted.trans hstep.2⟩
        | _ => exact hstep
      · exact ⟨rfl, rfl⟩

/-- With the end out of reach the loop of `drain_resubmits` does not fail. -/
theorem drainLoop_clear {σ : St V} (fuel sent : Nat) (h : Owner P σ.node)
    (hs : Spacious P σ.node) :
    Placing σ sent (drainLoop P fuel σ sent) ∧ (drainLoop P fuel σ sent).2.2 = .none ∧
      Owner P (drainLoop P fuel σ sent).1.node ∧ Spacious P (drainLoop P fuel σ sent).1.node := by
  have hstop : Placing σ sent (σ, sent, .none) := ⟨le_rfl, fun _ => rfl⟩
  induction fuel generalizing σ sent with
  | zero => exact ⟨hstop, rfl, h, hs⟩
  | succ fuel ih =>
      unfold drainLoop
      cases σ.node.resubmit with
      | nil => exact ⟨hstop, rfl, h, hs⟩
      | cons value values =>
          dsimp only
          rcases h.suggests hs value with hfull | ⟨τ, slot, hplaced, hτ, hsτ⟩
          · rw [hfull]
            exact ⟨hstop, rfl, h, hs⟩
          · rw [hplaced]
            obtain ⟨hrest, herror, hlast⟩ := ih
              (σ := { τ with node := { τ.node with resubmit := τ.node.resubmit.tail } })
              (sent + 1) (hτ.requeue _) hsτ ⟨le_rfl, fun _ => rfl⟩
            exact ⟨hrest.after, herror, hlast⟩

/-- Nor does the loop of `skip_idle_slots`. -/
theorem skipLoop_clear {σ : St V} (noop : V) (fuel sent : Nat) (h : Owner P σ.node)
    (hs : Spacious P σ.node) :
    Placing σ sent (skipLoop P noop fuel σ sent) ∧ (skipLoop P noop fuel σ sent).2.2 = .none := by
  have hstop : Placing σ sent (σ, sent, .none) := ⟨le_rfl, fun _ => rfl⟩
  induction fuel generalizing σ sent with
  | zero => exact ⟨hstop, rfl⟩
  | succ fuel ih =>
      unfold skipLoop
      split_ifs
      · rcases h.suggests hs noop with hfull | ⟨τ, slot, hplaced, hτ, hsτ⟩
        · rw [hfull]
          exact ⟨hstop, rfl⟩
        · rw [hplaced]
          obtain ⟨hrest, herror⟩ := ih (σ := τ) (sent + 1) hτ hsτ ⟨le_rfl, fun _ => rfl⟩
          exact ⟨hrest.after, herror⟩
      · exact ⟨hstop, rfl⟩

/-- A tick comes to a slot that it cannot settle: as a candidate, or as an owner whose vote alone
decides. -/
def TickStops (P : Params) (n : Node V) : Prop :=
  (n.role = .preparing ∧ DriveStops P n) ∨
    (n.role ≠ .preparing ∧ n.ownership = true ∧ n.membership.writeQuorumSize = 1 ∧
      ¬ (Unled P n ∧ Spacious P n))

/-- An ownership tick that fails has released nothing. -/
theorem tickOwnership_failed {σ : St V} {noop : V} (ho : Opened P σ.node)
    (hv : σ.node.votingMember = true) (hmode : σ.node.ownership = true)
    (hstops : ¬ TickStops P σ.node) :
    (tickOwnership P σ noop).2 = .none ∨
      (tickOwnership P σ noop).1.effects.committed = σ.effects.committed := by
  unfold tickOwnership
  by_cases hrole : σ.node.role = .preparing
  · rw [if_pos hrole]
    split_ifs
    · exact (maybeResolveChunk_failed hrole ho.floor (ho.chunk hrole).2
        fun h => hstops (Or.inl ⟨hrole, h⟩)).imp_right (congrArg Effects.committed)
    · exact Or.inr (startRevocation_unreleased σ noop)
  rw [if_neg hrole]
  by_cases hquorum : σ.node.membership.writeQuorumSize = 1
  · have hfree : Unled P σ.node ∧ Spacious P σ.node := by
      by_contra hnot
      exact hstops (Or.inr ⟨hrole, hmode, hquorum, hnot⟩)
    obtain ⟨hdrained, hok, howner, hspace⟩ := drainLoop_clear σ.node.resubmit.length 0
      ⟨ho, hv, hmode, hfree.1⟩ hfree.2
    unfold drainResubmits
    rcases hdrain : drainLoop P σ.node.resubmit.length σ 0 with ⟨τ, drained, e⟩
    rw [hdrain] at hdrained hok howner hspace
    obtain rfl : e = .none := hok
    dsimp only
    obtain ⟨hskipped, hok⟩ := skipLoop_clear noop (min (P.C - drained) skipBurst) 0 howner
      hspace
    unfold skipIdleSlots
    rcases hskip : skipLoop P noop (min (P.C - drained) skipBurst) τ 0 with ⟨ρ, skipped, e⟩
    rw [hskip] at hskipped hok
    obtain rfl : e = .none := hok
    dsimp only
    obtain ⟨hcommitted, hstalled⟩ := tickStalled_failed (P := P) ρ noop (drained + skipped)
    refine hstalled.imp_right fun hzero => ?_
    exact hcommitted.trans ((hskipped.quiet (show skipped = 0 by omega)).trans
      (hdrained.quiet (show drained = 0 by omega)))
  · right
    have hdrained := drainLoop_unreleased (P := P) σ.node.resubmit.length 0 hquorum
    unfold drainResubmits
    rcases hdrain : drainLoop P σ.node.resubmit.length σ 0 with ⟨τ, drained, e⟩
    rw [hdrain] at hdrained
    cases e with
    | none =>
        dsimp only
        have hskipped := skipLoop_unreleased (P := P) (σ := τ) noop
          (min (P.C - drained) skipBurst) 0 (by rw [hdrained.1]; exact hquorum)
        unfold skipIdleSlots
        rcases hskip : skipLoop P noop (min (P.C - drained) skipBurst) τ 0 with ⟨ρ, skipped, e⟩
        rw [hskip] at hskipped
        have hcommitted := hskipped.2.trans hdrained.2
        cases e with
        | none => exact (tickStalled_failed (P := P) ρ noop (drained + skipped)).1.trans hcommitted
        | _ => exact hcommitted
    | _ => exact hdrained.2

omit [DecidableEq V] in
/-- The timers stop no tick. -/
theorem TickStops.untimed {n : Node V} {electionTicks heartbeatTicks resendTicks : Nat}
    (h : TickStops P
      { n with
        electionTicks := electionTicks
        heartbeatTicks := heartbeatTicks
        resendTicks := resendTicks }) : TickStops P n := by
  rcases h with ⟨hrole, h⟩ | ⟨hrole, hmode, hquorum, hnot⟩
  · refine Or.inl ⟨hrole, ?_⟩
    unfold DriveStops Refuses at h ⊢
    simp only [claimLive_none_iff] at h ⊢
    exact h
  · refine Or.inr ⟨hrole, hmode, hquorum, ?_⟩
    rintro ⟨hunled, hspace⟩
    refine hnot ⟨?_, hspace⟩
    intro slot hnext hs hlead hheld
    refine hunled slot hnext ⟨hs.live, hs.window, ?_, hs.undecided, hs.promised⟩ hlead hheld
    have hclaims := hs.claims
    rw [Ne, claimLive_none_iff] at hclaims ⊢
    exact hclaims

/-- A tick that fails has released nothing. -/
theorem nodeTick_failed {n : Node V} {noop : V} (ho : Opened P n) (hstops : ¬ TickStops P n) :
    (nodeTick P n noop).2 = .none ∨ (nodeTick P n noop).1.effects.committed = [] := by
  unfold nodeTick
  by_cases hv : n.votingMember = true
  · rw [if_neg (by simp [hv])]
    dsimp only
    by_cases hmode : n.ownership = true
    · rw [if_pos hmode]
      exact tickOwnership_failed (σ := St.start { n with
          electionTicks := saturatingIncrement n.electionTicks
          heartbeatTicks := saturatingIncrement n.heartbeatTicks
          resendTicks := saturatingIncrement n.resendTicks })
        ⟨ho.member, ho.small, ho.aligned, ho.term, ho.chunk, ho.floor, ho.last⟩ hv hmode
        fun h => hstops h.untimed
    rw [if_neg hmode]
    by_cases hlead : n.role = .leader
    · rw [if_pos hlead]
      unfold tickLeader
      dsimp only
      split_ifs
      all_goals first | exact Or.inl rfl | exact Or.inr (startCampaign_unreleased _ noop)
    rw [if_neg hlead]
    by_cases hresolve : n.role = .preparing ∧
        saturatingIncrement n.electionTicks < n.electionTimeoutTicks
    · rw [if_pos hresolve]
      refine Or.imp_right (congrArg Effects.committed) (maybeResolveChunk_failed
        (σ := St.start { n with
          electionTicks := saturatingIncrement n.electionTicks
          heartbeatTicks := saturatingIncrement n.heartbeatTicks
          resendTicks := saturatingIncrement n.resendTicks }) hresolve.1 ho.floor
        (ho.chunk hresolve.1).2 fun h => hstops ?_)
      have hticked : TickStops P { n with
          electionTicks := saturatingIncrement n.electionTicks
          heartbeatTicks := saturatingIncrement n.heartbeatTicks
          resendTicks := saturatingIncrement n.resendTicks } := Or.inl ⟨hresolve.1, h⟩
      exact hticked.untimed
    rw [if_neg hresolve]
    split_ifs
    · exact Or.inr (startCampaign_unreleased _ noop)
    · exact Or.inl rfl
  · rw [if_pos (by simp [hv])]
    exact Or.inl rfl

end Ticks

end PaxosOdin
