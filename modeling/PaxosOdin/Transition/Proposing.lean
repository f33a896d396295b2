import PaxosOdin.Transition.Learning

/-!
# Proposals as small steps

A proposer's vote for its own proposal, its announcement, and what a chunk needs before
it counts as driven.

Main results:

- Theorem `Learn.settled` and `Micro.settled`: a settled slot stays settled.
- Theorem `sendAccept_run`: a campaign's proposal is a run of small steps.
- Theorem `sendAccept_own`: so is an owner's, with its slot used up.
-/

namespace PaxosOdin

variable {V : Type} {P : Params} {I : Input V}

/-! ## Settled slots -/

/-- Whether a slot is settled depends on the frontiers, the reports and the slot's cell. -/
theorem Settled.of_cell {n n' : Node V} {slot : Nat} (h : Settled P n slot)
    (hfloor : n'.memoryFloor = n.memoryFloor) (hdelivered : n.deliveredThrough ≤ n'.deliveredThrough)
    (hreports : ¬ AboveReports n slot → ¬ AboveReports n' slot)
    (hslot : slot ≤ n.memoryFloor ∨
      (n'.ledger.cellAt P slot).slot = (n.ledger.cellAt P slot).slot)
    (hstate : (n'.ledger.cellAt P slot).state = (n.ledger.cellAt P slot).state ∨
      ((n'.ledger.cellAt P slot).state ≠ .empty ∧
        n.memoryFloor < (n.ledger.cellAt P slot).slot)) : Settled P n' slot := by
  unfold Settled Stuck at *
  rw [hfloor]
  rcases h with h | h | h | ⟨hs, he⟩ | ⟨hwin, hne, h0, hrel⟩
  · exact Or.inl h
  · exact Or.inr (Or.inl (h.trans hdelivered))
  · exact Or.inr (Or.inr (Or.inl (hreports h)))
  · rcases hslot with hlow | hslot
    · exact Or.inl hlow
    · refine Or.inr (Or.inr (Or.inr (Or.inl ⟨hslot.trans hs, ?_⟩)))
      rcases hstate with hstate | ⟨hstate, -⟩
      · rw [hstate]; exact he
      · exact hstate
  · rcases hslot with hlow | hslot
    · exact Or.inl hlow
    · refine Or.inr (Or.inr (Or.inr (Or.inr ⟨hwin, ?_, ?_, ?_⟩)))
      · rw [hslot]; exact hne
      · rw [hslot]; exact h0
      · rw [hslot]
        rintro ⟨hle, hc⟩
        rcases hstate with hstate | ⟨-, hlive⟩
        · exact hrel ⟨hle, hstate ▸ hc⟩
        · omega

/-- Opening a released cell settles nothing anew and unsettles nothing. -/
theorem Settled.open {n : Node V} {slot opened : Nat} (h : Settled P n slot)
    (hfree : (n.ledger.cellAt P opened).slot = 0 ∨
      ((n.ledger.cellAt P opened).slot ≤ n.memoryFloor ∧
        (n.ledger.cellAt P opened).state = .chosen)) :
    Settled P { n with ledger := ledgerOpen n.ledger (cellOf opened P.W) opened } slot := by
  by_cases hcell : cellOf slot P.W = cellOf opened P.W
  · unfold Settled Stuck at *
    simp only [Ledger.cellAt, hcell] at h hfree ⊢
    rcases h with h | h | h | ⟨hs, -⟩ | ⟨-, -, h0, hrel⟩
    · exact Or.inl h
    · exact Or.inr (Or.inl h)
    · exact Or.inr (Or.inr (Or.inl h))
    · left
      rcases hfree with h0 | ⟨hle, -⟩ <;> omega
    · rcases hfree with hzero | hc
      · exact absurd hzero h0
      · exact absurd hc hrel
  · refine h.of_cell rfl le_rfl id (Or.inr ?_) (Or.inl ?_) <;>
      simp [Ledger.cellAt, ledgerOpen_cells, hcell]

theorem Learn.settled {σ σ' : St V} (h : Learn P I σ σ') {slot : Nat}
    (hs : Settled P σ.node slot) : Settled P σ'.node slot := by
  cases h with
  | note => exact hs
  | claim _ _ _ hfree => exact hs.open hfree
  | @choose chosen value _ hlive _ hheld =>
      refine hs.of_cell rfl le_rfl id (Or.inr ?_) ?_
      · simp [St.withLedger, St.addWrite, Ledger.cellAt, ledgerRecordChosen_cells]
      · by_cases hcell : cellOf slot P.W = cellOf chosen P.W
        · right
          simp only [St.withLedger, St.addWrite, Ledger.cellAt, ledgerRecordChosen_cells, hcell,
            if_true] at hheld ⊢
          exact ⟨by decide, by omega⟩
        · left
          simp [St.withLedger, St.addWrite, Ledger.cellAt, ledgerRecordChosen_cells, hcell]
  | pass _ hnext =>
      exact hs.of_cell rfl (by rw [hnext]; exact Nat.le_succ _) id (Or.inr rfl) (Or.inl rfl)
  | deliver => exact hs.of_cell rfl (Nat.le_succ _) id (Or.inr rfl) (Or.inl rfl)
  | send => exact hs
  | request => exact hs

/-- A settled slot stays settled along a run of the learner. -/
theorem LearnRun.settled {σ σ' : St V} (h : LearnRun P I σ σ') {slot : Nat}
    (hs : Settled P σ.node slot) : Settled P σ'.node slot :=
  h.preserves (motive := fun τ => Settled P τ.node slot) (fun hstep hτ => hstep.settled hτ) hs

/-- A learner leaves no vote of another ballot that was not there. -/
theorem Learn.overdue {σ σ' : St V} (h : Learn P I σ σ') {slot : Nat}
    (ho : Overdue P σ'.node slot) : Overdue P σ.node slot := by
  obtain ⟨hlive, hheld, hstate, hballot⟩ := ho
  cases h with
  | @claim opened =>
      by_cases hcell : cellOf slot P.W = cellOf opened P.W
      · simp [St.withLedger, Ledger.cellAt, hcell] at hstate
      · have hsame : (ledgerOpen σ.node.ledger (cellOf opened P.W) opened).cellAt P slot =
            σ.node.ledger.cellAt P slot := ledgerOpen_of_ne _ hcell
        simp only [St.withLedger, hsame] at hheld hstate hballot
        exact ⟨hlive, hheld, hstate, hballot⟩
  | @choose chosen =>
      by_cases hcell : cellOf slot P.W = cellOf chosen P.W
      · simp [St.withLedger, St.addWrite, Ledger.cellAt, ledgerRecordChosen_cells, hcell] at hstate
      · simp only [St.withLedger, St.addWrite, Ledger.cellAt, ledgerRecordChosen_cells, hcell,
          if_false] at hheld hstate hballot
        exact ⟨hlive, hheld, hstate, hballot⟩
  | _ => exact ⟨hlive, hheld, hstate, hballot⟩

/-- A slot that was driven again stays so for a learner. -/
theorem Learn.redriven {σ σ' : St V} (h : Learn P I σ σ') {slot : Nat}
    (hr : Redriven P σ.node slot) : Redriven P σ'.node slot := by
  intro ho
  have hbehind := hr (h.overdue ho)
  cases h with
  | pass _ hnext => exact hbehind.imp_left fun hle => hle.trans (by rw [hnext]; exact Nat.le_succ _)
  | deliver => exact hbehind.imp_left Nat.le_succ_of_le
  | _ => exact hbehind

theorem LearnRun.redriven {σ σ' : St V} (h : LearnRun P I σ σ') {slot : Nat}
    (hr : Redriven P σ.node slot) : Redriven P σ'.node slot :=
  h.preserves (motive := fun τ => Redriven P τ.node slot) (fun hstep hτ => hstep.redriven hτ) hr

/-- A vote in the live cell of some slot keeps every settled slot. -/
theorem Settled.vote {n n' : Node V} {slot voted ballot promised : Nat} {value : V}
    (h : Settled P n slot) (hlive : n.memoryFloor < voted)
    (hheld : (n.ledger.cellAt P voted).slot = voted)
    (hledger : n'.ledger = ledgerRecordVote
      (ledgerSetPromiseAt n.ledger (cellOf voted P.W) promised) (cellOf voted P.W) ballot value)
    (hfloor : n'.memoryFloor = n.memoryFloor) (hdelivered : n'.deliveredThrough = n.deliveredThrough)
    (hreports : AboveReports n' slot ↔ AboveReports n slot) : Settled P n' slot := by
  refine h.of_cell hfloor hdelivered.ge (fun hn hn' => hn (hreports.mp hn')) (Or.inr ?_) ?_
  · simp [Ledger.cellAt, hledger, ledgerRecordVote_cells, ledgerSetPromiseAt_cells]
  · by_cases hcell : cellOf slot P.W = cellOf voted P.W
    · right
      simp only [Ledger.cellAt, hledger, ledgerRecordVote_cells, ledgerSetPromiseAt_cells, hcell,
        if_true] at hheld ⊢
      exact ⟨by decide, by omega⟩
    · left
      simp [Ledger.cellAt, hledger, ledgerRecordVote_cells, ledgerSetPromiseAt_cells, hcell]

/-! ## Recording a decision, again -/

/-- A decision the write quorum of this node's own proposal stands behind stays so until it
is recorded. -/
def AckedOrChosen (P : Params) (n : Node V) (slot : Nat) (value : V) : Prop :=
  QuorumAcked P n slot value ∨
    (n.memoryFloor < slot ∧ (n.ledger.cellAt P slot).slot = slot ∧
      (n.ledger.cellAt P slot).state = .chosen)

theorem Learn.ackedOrChosen {σ σ' : St V} (h : Learn P I σ σ') {slot : Nat} {value : V}
    (hslot : slot ≠ 0) (ha : AckedOrChosen P σ.node slot value) :
    AckedOrChosen P σ'.node slot value := by
  cases h with
  | note =>
      exact ha.imp (fun h => ⟨h.lead, h.acked, h.held, h.state, h.ballot, h.value⟩) id
  | @claim opened _ _ _ hfree =>
      have hcell : cellOf slot P.W ≠ cellOf opened P.W := by
        intro hcell
        simp only [Ledger.cellAt, ← hcell] at hfree
        rcases ha with hacked | ⟨hlive, hheld, -⟩
        · have hs := hacked.held
          have hv := hacked.state
          simp only [Ledger.cellAt] at hs hv
          rcases hfree with h0 | ⟨-, hc⟩
          · omega
          · rw [hv] at hc; cases hc
        · simp only [Ledger.cellAt] at hheld
          rcases hfree with h0 | ⟨hle, -⟩ <;> omega
      have hsame : (ledgerOpen σ.node.ledger (cellOf opened P.W) opened).cellAt P slot =
          σ.node.ledger.cellAt P slot := by
        simp [Ledger.cellAt, ledgerOpen_cells, hcell]
      refine ha.imp (fun h => ⟨h.lead, h.acked, ?_, ?_, ?_, ?_⟩) (fun h => ⟨h.1, ?_, ?_⟩)
      · exact (congrArg Cell.slot hsame).trans h.held
      · exact (congrArg Cell.state hsame).trans h.state
      · exact (congrArg Cell.voteBallot hsame).trans h.ballot
      · exact (congrArg Cell.value hsame).trans h.value
      · exact (congrArg Cell.slot hsame).trans h.2.1
      · exact (congrArg Cell.state hsame).trans h.2.2
  | @choose chosen v _ hlive _ hheld =>
      by_cases hcell : cellOf slot P.W = cellOf chosen P.W
      · right
        have hs : (σ.node.ledger.cellAt P slot).slot = slot :=
          ha.elim (fun h => h.held) (fun h => h.2.1)
        have hsame : slot = chosen := by
          simp only [Ledger.cellAt] at hs hheld
          rw [hcell] at hs
          exact hs.symm.trans hheld
        subst hsame
        refine ⟨hlive, ?_, ?_⟩ <;>
          simp [St.withLedger, St.addWrite, Ledger.cellAt, ledgerRecordChosen_cells]
        exact hheld
      · have hsame : (ledgerRecordChosen σ.node.ledger (cellOf chosen P.W) v).cellAt P slot =
            σ.node.ledger.cellAt P slot := by
          simp [Ledger.cellAt, ledgerRecordChosen_cells, hcell]
        refine ha.imp (fun h => ⟨h.lead, h.acked, ?_, ?_, ?_, ?_⟩) (fun h => ⟨h.1, ?_, ?_⟩)
        · exact (congrArg Cell.slot hsame).trans h.held
        · exact (congrArg Cell.state hsame).trans h.state
        · exact (congrArg Cell.voteBallot hsame).trans h.ballot
        · exact (congrArg Cell.value hsame).trans h.value
        · exact (congrArg Cell.slot hsame).trans h.2.1
        · exact (congrArg Cell.state hsame).trans h.2.2
  | pass =>
      exact ha.imp (fun h => ⟨h.lead, h.acked, h.held, h.state, h.ballot, h.value⟩) id
  | deliver =>
      exact ha.imp (fun h => ⟨h.lead, h.acked, h.held, h.state, h.ballot, h.value⟩) id
  | send => exact ha
  | request => exact ha

theorem LearnRun.ackedOrChosen {σ σ' : St V} (h : LearnRun P I σ σ') {slot : Nat} {value : V}
    (hslot : slot ≠ 0) (ha : AckedOrChosen P σ.node slot value) :
    AckedOrChosen P σ'.node slot value :=
  h.preserves (motive := fun τ => AckedOrChosen P τ.node slot value)
    (fun hstep hτ => hstep.ackedOrChosen hslot hτ) ha

section Record

variable [DecidableEq V]

/-- A decision that was recorded without an error settles its slot. -/
theorem recordCommit_settled {σ : St V} {slot : Nat} (value : V)
    (hwindow : slot ≤ σ.node.memoryFloor + P.W)
    (hanchor : σ.node.ledger.anchor.chosenTrimSlot < slot)
    (hok : (recordCommit P σ slot value).2 = .none) :
    Settled P (recordCommit P σ slot value).1.node slot := by
  revert hok
  unfold recordCommit
  by_cases hzero : slot = 0
  · simp [hzero]
  rw [if_neg hzero]
  set n₁ : Node V := { σ.node with highestSeen := max σ.node.highestSeen slot }
  dsimp only
  by_cases hlow : slot ≤ σ.node.memoryFloor ∨ slot ≤ σ.node.ledger.anchor.chosenTrimSlot
  · rw [if_pos hlow]
    exact fun _ => Or.inl (by show slot ≤ σ.node.memoryFloor; omega)
  rw [if_neg hlow]
  rcases hclaim : claimLive P n₁ slot with ⟨n₂, _ | cell⟩
  · have hstuck : Settled P n₁ slot := by
      have hnone := claimLive_none_iff.mp (show (claimLive P n₁ slot).2 = none by rw [hclaim])
      rcases hnone with h | h | h
      · exact Or.inl h
      · exact absurd (show slot ≤ n₁.memoryFloor + P.W from hwindow) (by omega)
      · exact Or.inr (Or.inr (Or.inr (Or.inr h)))
    dsimp only
    split_ifs with hreleased hnext
    · exact fun _ => hstuck
    · intro _
      refine (emitContiguous_run _ : LearnRun P ({} : Input V) _ _).settled (Or.inr (Or.inl ?_))
      exact le_rfl
    · exact fun _ => hstuck
  · have hc := claimLive_some hclaim
    have hcell := hc.cell_eq
    subst hcell
    dsimp only
    by_cases hchosen : (n₂.ledger.cells (cellOf slot P.W)).state = .chosen
    · rw [if_pos hchosen]
      have hheld : Settled P n₂ slot :=
        Or.inr (Or.inr (Or.inr (Or.inl ⟨hc.held, by simp [Ledger.cellAt, hchosen]⟩)))
      split_ifs with hvalue
      · intro hok
        cases hok
      · exact fun _ => (emitContiguous_run _ : LearnRun P ({} : Input V) { σ with node := n₂ } _).settled
          hheld
    · rw [if_neg hchosen]
      intro _
      refine (emitContiguous_run _ : LearnRun P ({} : Input V) _ _).settled
        (Or.inr (Or.inr (Or.inr (Or.inl ⟨?_, ?_⟩))))
      · simp only [St.addWrite, Ledger.cellAt, ledgerRecordChosen_cells, requeue_ledger]
        exact hc.held
      · simp [St.addWrite, Ledger.cellAt, ledgerRecordChosen_cells]

/-- A decision that was recorded without an error leaves no vote of another ballot in its slot. -/
theorem recordCommit_redriven {σ : St V} {slot : Nat} (value : V)
    (hwindow : slot ≤ σ.node.memoryFloor + P.W)
    (hanchor : σ.node.ledger.anchor.chosenTrimSlot < slot)
    (hok : (recordCommit P σ slot value).2 = .none) :
    Redriven P (recordCommit P σ slot value).1.node slot := by
  revert hok
  unfold recordCommit
  by_cases hzero : slot = 0
  · simp [hzero]
  rw [if_neg hzero]
  set n₁ : Node V := { σ.node with highestSeen := max σ.node.highestSeen slot }
  dsimp only
  by_cases hlow : slot ≤ σ.node.memoryFloor ∨ slot ≤ σ.node.ledger.anchor.chosenTrimSlot
  · rw [if_pos hlow]
    intro _ ho
    have hlive : σ.node.memoryFloor < slot := ho.1
    omega
  rw [if_neg hlow]
  rcases hclaim : claimLive P n₁ slot with ⟨n₂, _ | cell⟩
  · have hother : (n₁.ledger.cellAt P slot).slot ≠ slot := by
      have hnone := claimLive_none_iff.mp (show (claimLive P n₁ slot).2 = none by rw [hclaim])
      rcases hnone with h | h | h
      · exact absurd (show slot ≤ σ.node.memoryFloor from h) (by omega)
      · exact absurd (show slot ≤ n₁.memoryFloor + P.W from hwindow) (by omega)
      · exact h.2.1
    dsimp only
    split_ifs with hreleased hnext
    · exact fun _ ho => absurd ho.2.1 hother
    · intro _
      exact (emitContiguous_run _ : LearnRun P ({} : Input V) _ _).redriven fun ho =>
        absurd ho.2.1 hother
    · exact fun _ ho => absurd ho.2.1 hother
  · have hc := claimLive_some hclaim
    have hcell := hc.cell_eq
    subst hcell
    dsimp only
    by_cases hchosen : (n₂.ledger.cells (cellOf slot P.W)).state = .chosen
    · rw [if_pos hchosen]
      have hdone : Redriven P n₂ slot := by
        intro ho
        have hvoted := ho.2.2.1
        simp only [Ledger.cellAt] at hvoted
        rw [hchosen] at hvoted
        cases hvoted
      split_ifs with hvalue
      · intro hok
        cases hok
      · exact fun _ => (emitContiguous_run _ : LearnRun P ({} : Input V) { σ with node := n₂ } _).redriven
          hdone
    · rw [if_neg hchosen]
      intro _
      refine (emitContiguous_run _ : LearnRun P ({} : Input V) _ _).redriven fun ho => ?_
      have hvoted := ho.2.2.1
      simp [St.addWrite, Ledger.cellAt, ledgerRecordChosen_cells] at hvoted

/-- Recording a decision over an open vote in its live cell never fails. -/
theorem recordCommit_ok {σ : St V} {slot : Nat} (value : V) (hlive : σ.node.memoryFloor < slot)
    (hwindow : slot ≤ σ.node.memoryFloor + P.W)
    (hheld : (σ.node.ledger.cellAt P slot).slot = slot)
    (hopen : (σ.node.ledger.cellAt P slot).state ≠ .chosen) :
    (recordCommit P σ slot value).2 = .none := by
  unfold recordCommit
  rw [if_neg (show slot ≠ 0 by omega)]
  dsimp only
  by_cases hlow : slot ≤ σ.node.memoryFloor ∨ slot ≤ σ.node.ledger.anchor.chosenTrimSlot
  · rw [if_pos hlow]
  · rw [if_neg hlow]
    have hclaim : claimLive P { σ.node with highestSeen := max σ.node.highestSeen slot } slot =
        ({ σ.node with highestSeen := max σ.node.highestSeen slot },
          some (cellOf slot P.W)) := by
      unfold claimLive
      dsimp only
      rw [if_neg (by omega), if_pos hheld]
    rw [hclaim]
    dsimp only
    rw [if_neg hopen]

end Record

/-! ## Announcing a proposal -/

/-- This node's own fresh vote for its proposal, which it is driving. -/
structure FreshVote (P : Params) (σ : St V) (slot ballot : Nat) (value : V) : Prop where
  live : σ.node.memoryFloor < slot
  window : slot ≤ σ.node.memoryFloor + P.W
  leadSlot : (σ.node.lead (cellOf slot P.W)).slot = slot
  leadBallot : (σ.node.lead (cellOf slot P.W)).ballot = ballot
  leadAcked : (σ.node.lead (cellOf slot P.W)).acknowledged = 1
  held : (σ.node.ledger.cellAt P slot).slot = slot
  state : (σ.node.ledger.cellAt P slot).state = .voted
  votedAt : (σ.node.ledger.cellAt P slot).voteBallot = ballot
  votedFor : (σ.node.ledger.cellAt P slot).value = value
  written : .vote ballot slot value ∈ σ.effects.writes

/-- A vote for a proposal in its live cell is fresh. -/
theorem FreshVote.ofVote {σ : St V} {slot : Nat} (ballot : Nat) (value : V)
    (hlive : σ.node.memoryFloor < slot) (hwindow : slot ≤ σ.node.memoryFloor + P.W)
    (hheld : (σ.node.ledger.cellAt P slot).slot = slot) :
    FreshVote P (voteForProposal σ (cellOf slot P.W) slot ballot value) slot ballot value := by
  constructor <;>
    simp [voteForProposal, St.addWrite, Ledger.cellAt, ledgerRecordVote_cells,
      ledgerSetPromiseAt_cells]
  · exact hlive
  · exact hwindow
  · exact hheld

/-- The Accepts for a fresh vote may leave. -/
theorem broadcastAccept_run {σ τ : St V} {slot ballot : Nat} {value : V}
    (h : FreshVote P σ slot ballot value) (hrun : LearnRun P I σ τ) :
    LearnRun P I τ (broadcastPeers τ (.accept ballot slot value)) := by
  refine LearnRun.single (Learn.send fun e he => ?_)
  obtain ⟨peer, hpeer, rfl⟩ := List.mem_map.mp he
  refine ⟨rfl, ?_, cellOf slot P.W, ?_, ?_, Or.inl (hrun.vote_mem h.written)⟩
  · simpa using (List.mem_filter.mp hpeer).2
  · rw [hrun.lead]; exact h.leadSlot
  · rw [hrun.lead]; exact h.leadBallot

section Announce

variable [DecidableEq V]

/-- Announcing a proposal is a run of the learner. -/
theorem announceProposal_run {σ : St V} {slot ballot : Nat} {value : V}
    (h : FreshVote P σ slot ballot value) :
    LearnRun P I σ (announceProposal P σ slot ballot value).1 := by
  unfold announceProposal
  split_ifs with hone
  · have hacked : QuorumAcked P σ.node slot value :=
      ⟨h.leadSlot, by rw [hone, h.leadAcked], h.held, h.state, h.votedAt.trans h.leadBallot.symm,
        h.votedFor⟩
    have hrun := recordCommit_run (P := P) (I := I) (.acked hacked) (Or.inr h.window)
    have hok := recordCommit_ok (P := P) value h.live h.window h.held
      (by rw [h.state]; decide)
    rcases hcommit : recordCommit P σ slot value with ⟨τ, e⟩
    rw [hcommit] at hrun hok
    obtain rfl : e = .none := hok
    exact hrun.trans (broadcastAccept_run h hrun)
  · exact broadcastAccept_run h (LearnRun.refl σ)

/-- Announcing a fresh vote does not fail. -/
theorem announceProposal_ok {σ : St V} {slot ballot : Nat} {value : V}
    (h : FreshVote P σ slot ballot value) :
    (announceProposal P σ slot ballot value).2 = .none := by
  unfold announceProposal
  split_ifs with hone
  · have hok := recordCommit_ok (P := P) value h.live h.window h.held
      (by rw [h.state]; decide)
    rcases hcommit : recordCommit P σ slot value with ⟨τ, e⟩
    rw [hcommit] at hok
    obtain rfl : e = .none := hok
    rfl
  · rfl

end Announce

/-! ## Runs of small steps -/

/-- A reason to propose depends only on the fixed fields. -/
theorem Proposal.congr {n n' : Node V} {slot : Nat} {value : V}
    (h : Proposal I n slot value) (hfixed : n'.fixed = n.fixed) :
    Proposal I n' slot value := by
  have hmem := congrArg Fixed.membership hfixed
  have hrole := congrArg Fixed.role hfixed
  have hmode := congrArg Fixed.ownership hfixed
  have hleader := congrArg Fixed.leaderBase hfixed
  have helection := congrArg Fixed.election hfixed
  have hnoop := congrArg Fixed.noop hfixed
  have hbase := congrArg Fixed.recoverBase hfixed
  have hlast := congrArg Fixed.recoverLast hfixed
  have hrec := congrArg Fixed.recovered hfixed
  have hready := congrArg Fixed.recoveryReady hfixed
  have hanchor := congrArg Fixed.anchor hfixed
  have hnext := congrArg Fixed.nextSlot hfixed
  simp only [Node.fixed] at hmem hrole hmode hleader helection hnoop hbase hlast hrec hready
  simp only [Node.fixed] at hanchor hnext
  rcases h with ⟨hdrives, hselects, hmax⟩ | ⟨hr, hm, hb, hv, hs⟩
  · refine .drive ⟨hrole.trans hdrives.role, hready.trans hdrives.frozen, ?_, ?_, ?_⟩ ?_ hmax
    · rw [hbase]; exact hdrives.base
    · rw [hlast]; exact hdrives.last
    · unfold AboveReports
      rw [hmem, helection, hanchor]
      exact hdrives.above
    · unfold Selects at hselects ⊢
      rw [hrec, hbase, hnoop]
      exact hselects
  · exact .lead (hrole.trans hr) (hmode.trans hm) (by rw [hleader]; exact hb) hv
      (by rw [hnext]; exact hs)

section Proposals

variable [DecidableEq V]

theorem Run.refl (σ : St V) : Run P I σ σ :=
  Relation.ReflTransGen.refl

theorem Run.single {σ σ' : St V} (h : Micro P I σ σ') : Run P I σ σ' :=
  Relation.ReflTransGen.single h

theorem Run.trans {σ σ' σ'' : St V} (h : Run P I σ σ') (h' : Run P I σ' σ'') :
    Run P I σ σ'' :=
  Relation.ReflTransGen.trans h h'

/-- A run of the learner is a run of small steps. -/
theorem LearnRun.run {σ σ' : St V} (h : LearnRun P I σ σ') : Run P I σ σ' :=
  Relation.ReflTransGen.mono (fun _ _ hstep => Micro.learn hstep) _ _ h

/-- What every small step keeps, a run keeps. -/
theorem Run.preserves {motive : St V → Prop}
    (hstep : ∀ {σ σ' : St V}, Micro P I σ σ' → motive σ → motive σ') {σ σ' : St V}
    (h : Run P I σ σ') (hσ : motive σ) : motive σ' := by
  induction h with
  | refl => exact hσ
  | tail _ hlast ih => exact hstep hlast ih

/-- What a campaign's proposal leaves behind. -/
structure Proposed (P : Params) (I : Input V) (σ σ' : St V) (slot : Nat) (e : Error) : Prop where
  run : Run P I σ σ'
  fixed : σ'.node.fixed = σ.node.fixed
  settled : e = .none → Settled P σ'.node slot
  driven : e = .none → Redriven P σ'.node slot
  others : ∀ s, Redriven P σ.node s → Redriven P σ'.node s

omit [DecidableEq V] in
/-- A vote at the ballot of the node is not overdue, and no other cell changes. -/
theorem voteForProposal_overdue {σ : St V} {slot s : Nat} {value : V}
    (h : Overdue P (voteForProposal σ (cellOf slot P.W) slot σ.node.ballot value).node s) :
    Overdue P σ.node s := by
  obtain ⟨hlive, hheld, hstate, hballot⟩ := h
  by_cases hcell : cellOf s P.W = cellOf slot P.W
  · refine absurd ?_ hballot
    simp [voteForProposal, St.addWrite, Ledger.cellAt, ledgerRecordVote_cells, hcell]
  · simp only [voteForProposal, St.addWrite, Ledger.cellAt, ledgerRecordVote_cells,
      ledgerSetPromiseAt_cells, hcell, if_false] at hheld hstate hballot
    exact ⟨hlive, hheld, hstate, hballot⟩

/-- A campaign's proposal is a run of small steps. -/
theorem sendAccept_run {σ : St V} {slot : Nat} {value : V}
    (hsource : Proposal I σ.node slot value) :
    Proposed P I σ (sendAccept P σ slot σ.node.ballot value).1 slot
      (sendAccept P σ slot σ.node.ballot value).2 := by
  unfold sendAccept
  rcases hclaim : claimLive P σ.node slot with ⟨n, _ | cell⟩
  · exact ⟨Run.refl σ, rfl, fun h => (by cases h), fun h => (by cases h), fun _ h => h⟩
  have hc := claimLive_some hclaim
  have hcell := hc.cell_eq
  subst hcell
  have hclaimed : LearnRun P I σ { σ with node := n } := hc.run
  have hothers : ∀ s, Redriven P σ.node s → Redriven P n s := fun s hs => hclaimed.redriven hs
  dsimp only
  by_cases hchosen : (n.ledger.cells (cellOf slot P.W)).state = .chosen
  · rw [if_pos hchosen]
    refine ⟨hclaimed.run, hc.fixed,
      fun _ => Or.inr (Or.inr (Or.inr (Or.inl ⟨hc.held, by simp [Ledger.cellAt, hchosen]⟩))),
      fun _ ho => ?_, hothers⟩
    have hvoted : (n.ledger.cells (cellOf slot P.W)).state = .voted := ho.2.2.1
    rw [hchosen] at hvoted
    cases hvoted
  rw [if_neg hchosen]
  split_ifs with hconflict hpromise
  · exact ⟨hclaimed.run, hc.fixed, fun h => (by cases h), fun h => (by cases h), hothers⟩
  · exact ⟨hclaimed.run, hc.fixed, fun h => (by cases h), fun h => (by cases h), hothers⟩
  have hfloor : n.memoryFloor = σ.node.memoryFloor := congrArg Fixed.memoryFloor hc.fixed
  have hlive : n.memoryFloor < slot := by rw [hfloor]; exact hc.live
  have hwindow : slot ≤ n.memoryFloor + P.W := by rw [hfloor]; exact hc.window
  have hballot : σ.node.ballot = n.ballot := (congrArg Fixed.ballot hc.fixed).symm
  have hgoverned : ledgerPromiseFor n.ledger (cellOf slot P.W) ≤ σ.node.ballot :=
    Nat.le_of_not_lt hpromise
  have hfresh := FreshVote.ofVote (P := P) (σ := { σ with node := n }) σ.node.ballot value
    hlive hwindow hc.held
  have hvote : Micro P I { σ with node := n }
      (voteForProposal { σ with node := n } (cellOf slot P.W) slot σ.node.ballot value) := by
    refine Micro.drive (σ := { σ with node := n }) hballot (hsource.congr hc.fixed) hlive hwindow
      hc.held hchosen ?_ ?_ ?_
    · intro hlead hstate hvoted
      by_contra hvalue
      exact hconflict ⟨hlead, hstate, hvoted, hvalue⟩
    · exact (le_max_left _ _).trans hgoverned
    · exact (le_max_right _ _).trans hgoverned
  have hannounce := announceProposal_run (I := I) hfresh
  refine ⟨hclaimed.run.trans ((Run.single hvote).trans hannounce.run), ?_, fun _ => ?_,
    fun _ => ?_, fun s hs => ?_⟩
  · exact hannounce.fixed.trans hc.fixed
  · refine hannounce.settled (Or.inr (Or.inr (Or.inr (Or.inl ⟨hfresh.held, ?_⟩))))
    rw [hfresh.state]
    decide
  · exact hannounce.redriven fun ho => absurd (hfresh.votedAt.trans hballot) ho.2.2.2
  · refine hannounce.redriven fun ho => hothers s hs ?_
    rw [hballot] at ho
    exact voteForProposal_overdue (σ := { σ with node := n }) ho

/-- An owner's suggestion in a slot it has not used: the vote and the next own slot go
together, and a suggestion that fails changes nothing but the claimed cell. -/
theorem sendAccept_own {σ : St V} {slot next : Nat} (value : V) (hmode : σ.node.ownership = true)
    (hvalue : value ∈ I.values ∨ value ∈ I.noops ∨ value ∈ σ.node.resubmit)
    (hmine : ownerOf σ.node slot = σ.node.id) (hbeyond : σ.node.ownNext ≤ slot)
    (hnext : slot < next) (haligned : OwnAligned σ.node next) :
    ((sendAccept P σ slot (ownershipBallot σ.node.id) value).2 = .none →
      Run P I σ ((sendAccept P σ slot (ownershipBallot σ.node.id) value).1.bump next)) ∧
    ((sendAccept P σ slot (ownershipBallot σ.node.id) value).2 ≠ .none →
      LearnRun P I σ (sendAccept P σ slot (ownershipBallot σ.node.id) value).1) ∧
    (sendAccept P σ slot (ownershipBallot σ.node.id) value).1.node.fixed = σ.node.fixed := by
  unfold sendAccept
  rcases hclaim : claimLive P σ.node slot with ⟨n, _ | cell⟩
  · exact ⟨fun h => (by cases h), fun _ => LearnRun.refl σ, rfl⟩
  have hc := claimLive_some hclaim
  have hcell := hc.cell_eq
  subst hcell
  have hclaimed : LearnRun P I σ { σ with node := n } := hc.run
  have hown : n.ownNext = σ.node.ownNext := congrArg Fixed.ownNext hc.fixed
  have hid : n.id = σ.node.id := congrArg Fixed.id hc.fixed
  have hmem : n.membership = σ.node.membership := congrArg Fixed.membership hc.fixed
  have hself : n.selfIndex = σ.node.selfIndex := congrArg Fixed.selfIndex hc.fixed
  have haligned' : OwnAligned n next := by
    unfold OwnAligned
    rw [hmem, hself]
    exact haligned
  dsimp only
  by_cases hchosen : (n.ledger.cells (cellOf slot P.W)).state = .chosen
  · rw [if_pos hchosen]
    refine ⟨fun _ => hclaimed.run.trans (Run.single (Micro.idle (σ := { σ with node := n })
      (Or.inl rfl) le_rfl le_rfl (Or.inl rfl) (Or.inr ⟨?_, haligned'⟩) fun _ h => h)),
      fun h => absurd rfl h, hc.fixed⟩
    show n.ownNext ≤ next
    omega
  rw [if_neg hchosen]
  split_ifs with hconflict hpromise
  · exact ⟨fun h => (by cases h), fun _ => hclaimed, hc.fixed⟩
  · exact ⟨fun h => (by cases h), fun _ => hclaimed, hc.fixed⟩
  have hfloor : n.memoryFloor = σ.node.memoryFloor := congrArg Fixed.memoryFloor hc.fixed
  have hlive : n.memoryFloor < slot := by rw [hfloor]; exact hc.live
  have hwindow : slot ≤ n.memoryFloor + P.W := by rw [hfloor]; exact hc.window
  have hresubmit : n.resubmit = σ.node.resubmit := by rw [hc.ledger_only]
  have hgoverned : ledgerPromiseFor n.ledger (cellOf slot P.W) ≤ ownershipBallot n.id := by
    rw [hid]
    exact Nat.le_of_not_lt hpromise
  have hfresh := FreshVote.ofVote (P := P) (σ := { σ with node := n })
    (ownershipBallot σ.node.id) value hlive hwindow hc.held
  have hvote : Micro P I { σ with node := n }
      ((voteForProposal { σ with node := n } (cellOf slot P.W) slot (ownershipBallot σ.node.id)
        value).bump next) := by
    rw [← hid]
    refine Micro.own (σ := { σ with node := n })
      ((congrArg Fixed.ownership hc.fixed).trans hmode) (by rw [hresubmit]; exact hvalue) ?_
      (by rw [hown]; exact hbeyond) hnext haligned' hlive hwindow hc.held hchosen
      ((le_max_left _ _).trans hgoverned) ((le_max_right _ _).trans hgoverned)
    show ownerOf n slot = n.id
    unfold ownerOf
    rw [hmem, hid]
    exact hmine
  have hannounce := announceProposal_run (I := I) hfresh
  refine ⟨fun _ => hclaimed.run.trans ((Run.single hvote).trans (hannounce.bump next).run),
    fun h => absurd (announceProposal_ok hfresh) h, hannounce.fixed.trans hc.fixed⟩

end Proposals

end PaxosOdin
