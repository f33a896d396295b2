import PaxosOdin.Transition.Incarnation

/-!
# What `send_accept` does

A proposal either is voted for and announced, or finds its slot decided and does nothing, or is
refused.  Which of the three happens depends on the state before the call only.

Main definitions:

- Definition `Castable`: when a proposal is voted for.
- Definition `Cast`: everything a vote for a proposal changes.

Main results:

- Theorem `sendAccept_cast`: a castable proposal is voted for and announced.
- Theorem `sendAccept_decided`: a proposal in a decided slot does nothing.
- Theorem `sendAccept_refused`: any other proposal is refused.
-/

namespace PaxosOdin

variable {V : Type} {P : Params} {I : Input V}

/-! ## Releases -/

/-- Releasing decisions changes the frontier and the released entries, and nothing else. -/
theorem emitContiguousLoop_eq (fuel : Nat) (σ : St V) :
    ∃ through entries, σ.node.deliveredThrough ≤ through ∧ emitContiguousLoop P fuel σ =
      { node := { σ.node with deliveredThrough := through }
        effects := { σ.effects with committed := entries } } := by
  induction fuel generalizing σ with
  | zero => exact ⟨_, _, le_rfl, rfl⟩
  | succ fuel ih =>
      rw [emitContiguousLoop]
      dsimp only
      split_ifs
      · exact ⟨_, _, le_rfl, rfl⟩
      · obtain ⟨through, entries, hle, heq⟩ := ih
          { σ.addCommitted ⟨σ.node.deliveredThrough + 1,
              (σ.node.ledger.cells (cellOf (σ.node.deliveredThrough + 1) P.W)).value, false⟩ with
            node := { σ.node with deliveredThrough := σ.node.deliveredThrough + 1 } }
        exact ⟨through, entries, (Nat.le_succ _).trans hle, heq⟩
      · exact ⟨_, _, le_rfl, rfl⟩

theorem emitContiguous_eq (P : Params) (σ : St V) :
    ∃ through entries, σ.node.deliveredThrough ≤ through ∧ emitContiguous P σ =
      { node := { σ.node with deliveredThrough := through }
        effects := { σ.effects with committed := entries } } :=
  emitContiguousLoop_eq P.W σ

/-! ## Votes for proposals -/

/-- A proposal of `value` at `ballot` is voted for in `slot`: the slot has a cell, no decision and no
promise above the ballot, and no other value was driven in it at this ballot. -/
structure Castable (P : Params) (n : Node V) (slot ballot : Nat) (value : V) : Prop where
  claims : (claimLive P n slot).2 ≠ none
  undecided : ledgerChosenAt P n.ledger slot = none
  promised : governing P n.ledger slot ≤ ballot
  agreed : (n.lead (cellOf slot P.W)).slot = slot → (n.ledger.cellAt P slot).slot = slot →
    (n.ledger.cellAt P slot).state = .voted → (n.ledger.cellAt P slot).voteBallot = ballot →
      (n.ledger.cellAt P slot).value = value

/-- What a vote for a proposal changes. -/
structure Cast (P : Params) (σ σ' : St V) (slot ballot : Nat) (value : V) : Prop where
  fixed : σ'.node.fixed = σ.node.fixed
  queue : σ'.node.resubmit = σ.node.resubmit
  promised : σ'.node.ledger.promised = σ.node.ledger.promised
  held : (σ'.node.ledger.cellAt P slot).slot = slot
  votedAt : (σ'.node.ledger.cellAt P slot).voteBallot = ballot
  votedFor : (σ'.node.ledger.cellAt P slot).value = value
  used : (σ'.node.ledger.cellAt P slot).state ≠ .empty
  other : ∀ i, i ≠ cellOf slot P.W → σ'.node.ledger.cells i = σ.node.ledger.cells i
  otherLead : ∀ i, i ≠ cellOf slot P.W → σ'.node.lead i = σ.node.lead i
  delivered : σ.node.deliveredThrough ≤ σ'.node.deliveredThrough
  written : ∃ rest, σ'.effects.writes = σ.effects.writes ++ .vote ballot slot value :: rest ∧
    ∀ w ∈ rest, w = .chosen slot value
  sent : σ'.effects.messages = σ.effects.messages ++
    (σ.node.membership.members.filter (· ≠ σ.node.id)).map
      fun peer => ⟨σ.node.id, peer, .accept ballot slot value⟩

theorem memoryFloor_of_fixed {n n' : Node V} (h : n'.fixed = n.fixed) :
    n'.memoryFloor = n.memoryFloor :=
  memoryFloor_of_static (static_of_fixed h)

/-- Whether a proposal is castable depends on its own cell, the global promise and the floor. -/
theorem Castable.congr {n n' : Node V} {slot ballot : Nat} {value : V}
    (h : Castable P n slot ballot value) (hfloor : n'.memoryFloor = n.memoryFloor)
    (hpromised : n'.ledger.promised = n.ledger.promised)
    (hcell : n'.ledger.cellAt P slot = n.ledger.cellAt P slot)
    (hlead : n'.lead (cellOf slot P.W) = n.lead (cellOf slot P.W)) :
    Castable P n' slot ballot value := by
  have hchosen : ledgerChosenAt P n'.ledger slot = ledgerChosenAt P n.ledger slot := by
    unfold ledgerChosenAt
    simp only [Ledger.cellAt] at hcell
    rw [hcell]
  constructor
  · have hclaims := h.claims
    rw [Ne, claimLive_none_iff] at hclaims ⊢
    unfold Stuck at hclaims ⊢
    rw [hfloor, hcell]
    exact hclaims
  · rw [hchosen]
    exact h.undecided
  · have hgoverning := h.promised
    unfold governing at hgoverning ⊢
    rw [hcell, hpromised]
    exact hgoverning
  · rw [hcell, hlead]
    exact h.agreed

section Sending

variable [DecidableEq V]

/-- Recording the decision of an open vote for the same value. -/
theorem recordCommit_own {σ : St V} {slot : Nat} {value : V} (hlive : σ.node.memoryFloor < slot)
    (hwindow : slot ≤ σ.node.memoryFloor + P.W)
    (hheld : (σ.node.ledger.cellAt P slot).slot = slot)
    (hopen : (σ.node.ledger.cellAt P slot).state ≠ .chosen)
    (hvalue : (σ.node.ledger.cellAt P slot).value = value) :
    ∃ seen ledger through writes entries, σ.node.deliveredThrough ≤ through ∧
      (ledger = σ.node.ledger ∨
        ledger = ledgerRecordChosen σ.node.ledger (cellOf slot P.W) value) ∧
      (∀ w ∈ writes, w = .chosen slot value) ∧
      recordCommit P σ slot value =
        ({ node :=
            { σ.node with highestSeen := seen, ledger := ledger, deliveredThrough := through }
           effects :=
            { σ.effects with writes := σ.effects.writes ++ writes, committed := entries } },
          .none) := by
  unfold recordCommit
  rw [if_neg (show slot ≠ 0 by omega)]
  dsimp only
  by_cases hlow : slot ≤ σ.node.memoryFloor ∨ slot ≤ σ.node.ledger.anchor.chosenTrimSlot
  · rw [if_pos hlow]
    refine ⟨max σ.node.highestSeen slot, σ.node.ledger, σ.node.deliveredThrough, [],
      σ.effects.committed, le_rfl, Or.inl rfl, fun w hw => absurd hw List.not_mem_nil, ?_⟩
    rw [List.append_nil]
  · rw [if_neg hlow]
    have hclaim : claimLive P { σ.node with highestSeen := max σ.node.highestSeen slot } slot =
        ({ σ.node with highestSeen := max σ.node.highestSeen slot },
          some (cellOf slot P.W)) := by
      unfold claimLive
      dsimp only
      rw [if_neg (by omega), if_pos hheld]
    rw [hclaim]
    dsimp only
    rw [if_neg hopen, if_neg (fun h => h.2.2.2 hvalue)]
    obtain ⟨through, entries, hle, heq⟩ := emitContiguous_eq P
      (({ σ with node :=
          { σ.node with
            highestSeen := max σ.node.highestSeen slot
            ledger := ledgerRecordChosen σ.node.ledger (cellOf slot P.W) value } } : St V).addWrite
        (.chosen slot value))
    refine ⟨max σ.node.highestSeen slot, _, through, [.chosen slot value], entries, hle, Or.inr rfl,
      ?_, ?_⟩
    · exact fun w hw => List.mem_singleton.mp hw
    · rw [heq]
      rfl

/-- A proposer's vote for a live slot is cast and announced. -/
theorem announceProposal_cast {σ : St V} {slot ballot : Nat} {value : V}
    (hlive : σ.node.memoryFloor < slot) (hwindow : slot ≤ σ.node.memoryFloor + P.W)
    (hheld : (σ.node.ledger.cellAt P slot).slot = slot) :
    ∃ σ', announceProposal P (voteForProposal σ (cellOf slot P.W) slot ballot value) slot ballot
        value = (σ', .none) ∧ Cast P σ σ' slot ballot value := by
  have hvote := FreshVote.ofVote (P := P) ballot value hlive hwindow hheld
  have hused : ((voteForProposal σ (cellOf slot P.W) slot ballot value).node.ledger.cellAt P
      slot).state ≠ .empty := by
    rw [hvote.state]
    decide
  have hcell : ∀ i, i ≠ cellOf slot P.W →
      (voteForProposal σ (cellOf slot P.W) slot ballot value).node.ledger.cells i =
        σ.node.ledger.cells i := by
    intro i hi
    simp [voteForProposal, St.addWrite, ledgerRecordVote_cells, ledgerSetPromiseAt_cells, hi]
  have hlead : ∀ i, i ≠ cellOf slot P.W →
      (voteForProposal σ (cellOf slot P.W) slot ballot value).node.lead i = σ.node.lead i := by
    intro i hi
    simp [voteForProposal, St.addWrite, hi]
  unfold announceProposal
  split_ifs with hone
  · -- alone in its write quorum the proposer decides at once
    obtain ⟨seen, ledger, through, writes, entries, hle, hledger, hwrites, heq⟩ :=
      recordCommit_own hvote.live hvote.window hvote.held (by rw [hvote.state]; decide)
        hvote.votedFor
    rw [heq]
    have hslots : ∀ i, (ledger.cells i).slot =
        ((voteForProposal σ (cellOf slot P.W) slot ballot value).node.ledger.cells i).slot ∧
        (ledger.cells i).voteBallot =
          ((voteForProposal σ (cellOf slot P.W) slot ballot value).node.ledger.cells i).voteBallot := by
      intro i
      rcases hledger with rfl | rfl
      · exact ⟨rfl, rfl⟩
      · rw [ledgerRecordChosen_cells]
        exact ⟨rfl, rfl⟩
    refine ⟨_, rfl, ?_, rfl, ?_, (hslots _).1.trans hvote.held, (hslots _).2.trans hvote.votedAt,
      ?_, ?_, fun i hi => ?_, hlead, hle, ⟨writes, ?_, hwrites⟩, rfl⟩
    · rcases hledger with rfl | rfl <;> rfl
    · rcases hledger with rfl | rfl <;> rfl
    · rcases hledger with rfl | rfl
      · exact hvote.votedFor
      · simp [broadcastPeers, St.addMessages, Ledger.cellAt, ledgerRecordChosen_cells]
    · rcases hledger with rfl | rfl
      · exact hused
      · simp [broadcastPeers, St.addMessages, Ledger.cellAt, ledgerRecordChosen_cells]
    · refine Eq.trans ?_ (hcell i hi)
      rcases hledger with rfl | rfl
      · rfl
      · simp [broadcastPeers, St.addMessages, ledgerRecordChosen_cells, hi]
    · simp [broadcastPeers, St.addMessages, voteForProposal, St.addWrite]
  · refine ⟨_, rfl, rfl, rfl, rfl, hvote.held, hvote.votedAt, hvote.votedFor, hused, hcell, hlead,
      le_rfl, ⟨[], rfl, fun w hw => absurd hw List.not_mem_nil⟩, rfl⟩

/-- A castable proposal is voted for and announced. -/
theorem sendAccept_cast {σ : St V} {slot ballot : Nat} {value : V}
    (h : Castable P σ.node slot ballot value) :
    ∃ σ', sendAccept P σ slot ballot value = (σ', .none) ∧ Cast P σ σ' slot ballot value := by
  unfold sendAccept
  rcases hclaim : claimLive P σ.node slot with ⟨n', _ | cell⟩
  · exact absurd (congrArg Prod.snd hclaim) h.claims
  have hc := claimLive_some hclaim
  have hcell := hc.cell_eq
  subst hcell
  dsimp only
  -- what the claim leaves of the slot's cell
  have hopen : (n'.ledger.cellAt P slot).state ≠ .chosen := by
    rcases hc.cases with rfl | ⟨rfl, -, -⟩
    · intro hchosen
      have hundecided := h.undecided
      unfold ledgerChosenAt at hundecided
      dsimp only at hundecided
      have hlive := hc.live
      rw [if_neg (show slot ≠ 0 by omega), if_neg (by
        rw [not_or, not_not, not_not]
        exact ⟨hc.held, hchosen⟩)] at hundecided
      cases hundecided
    · simp [Ledger.cellAt]
  have hagreed : ¬ ((n'.lead (cellOf slot P.W)).slot = slot ∧
      (n'.ledger.cellAt P slot).state = .voted ∧
      (n'.ledger.cellAt P slot).voteBallot = ballot ∧
      (n'.ledger.cellAt P slot).value ≠ value) := by
    rintro ⟨hlead, hstate, hballot, hvalue⟩
    rcases hc.cases with rfl | ⟨rfl, -, -⟩
    · exact hvalue (h.agreed hlead hc.held hstate hballot)
    · simp [Ledger.cellAt] at hstate
  have hpromised : ledgerPromiseFor n'.ledger (cellOf slot P.W) ≤ ballot := by
    have hgoverning := h.promised
    unfold governing at hgoverning
    unfold ledgerPromiseFor
    rcases hc.cases with rfl | ⟨rfl, hother, -⟩
    · rw [if_pos hc.held] at hgoverning
      exact hgoverning
    · rw [if_neg hother] at hgoverning
      rw [ledgerOpen_self]
      exact max_le hgoverning (Nat.zero_le _)
  rw [if_neg hopen, if_neg hagreed, if_neg (Nat.not_lt.mpr hpromised)]
  have hfixed := hc.fixed
  have hfloor : n'.memoryFloor = σ.node.memoryFloor := memoryFloor_of_fixed hfixed
  have hlive : n'.memoryFloor < slot := by
    rw [hfloor]
    exact hc.live
  have hwindow : slot ≤ n'.memoryFloor + P.W := by
    rw [hfloor]
    exact hc.window
  obtain ⟨σ', heq, hcast⟩ := @announceProposal_cast V P _ { σ with node := n' } slot ballot value
    hlive hwindow hc.held
  refine ⟨σ', heq, ?_⟩
  rcases hc.cases with rfl | ⟨rfl, -, -⟩
  · exact hcast
  · refine ⟨hcast.fixed, hcast.queue, hcast.promised, hcast.held, hcast.votedAt, hcast.votedFor,
      hcast.used, fun i hi => ?_, hcast.otherLead, hcast.delivered, hcast.written, hcast.sent⟩
    rw [hcast.other i hi]
    exact ledgerOpen_of_ne _ hi

/-- A proposal in a decided slot does nothing. -/
theorem sendAccept_decided {σ : St V} {slot ballot : Nat} {value v : V}
    (hclaims : (claimLive P σ.node slot).2 ≠ none)
    (hdecided : ledgerChosenAt P σ.node.ledger slot = some v) :
    sendAccept P σ slot ballot value = (σ, .none) := by
  obtain ⟨hheld, hchosen, -⟩ := ledgerChosenAt_eq_some hdecided
  unfold sendAccept
  rcases hclaim : claimLive P σ.node slot with ⟨n', _ | cell⟩
  · exact absurd (congrArg Prod.snd hclaim) hclaims
  have hc := claimLive_some hclaim
  have hcell := hc.cell_eq
  subst hcell
  rcases hc.cases with rfl | ⟨-, hother, -⟩
  · dsimp only
    rw [if_pos hchosen]
  · exact absurd hheld hother

/-- Any other proposal is refused, and moves no frontier. -/
theorem sendAccept_refused {σ : St V} {slot ballot : Nat} {value : V}
    (h : ¬ Castable P σ.node slot ballot value)
    (hdecided : (claimLive P σ.node slot).2 = none ∨ ledgerChosenAt P σ.node.ledger slot = none) :
    (sendAccept P σ slot ballot value).2 ≠ .none ∧
      (sendAccept P σ slot ballot value).1.node.fixed = σ.node.fixed ∧
      (sendAccept P σ slot ballot value).1.effects = σ.effects := by
  unfold sendAccept
  rcases hclaim : claimLive P σ.node slot with ⟨n', _ | cell⟩
  · exact ⟨by simp, rfl, rfl⟩
  have hc := claimLive_some hclaim
  have hcell := hc.cell_eq
  subst hcell
  have hundecided : ledgerChosenAt P σ.node.ledger slot = none := by
    rcases hdecided with hnone | hundecided
    · rw [hclaim] at hnone
      cases hnone
    · exact hundecided
  dsimp only
  split_ifs with hchosen hconflict hpromise
  · -- the cell is the slot's own, so the slot was decided
    exfalso
    rcases hc.cases with rfl | ⟨rfl, -, -⟩
    · have hlive := hc.live
      unfold ledgerChosenAt at hundecided
      dsimp only at hundecided
      rw [if_neg (show slot ≠ 0 by omega), if_neg (by
        rw [not_or, not_not, not_not]
        exact ⟨hc.held, hchosen⟩)] at hundecided
      cases hundecided
    · simp at hchosen
  · exact ⟨by simp, hc.fixed, rfl⟩
  · exact ⟨by simp, hc.fixed, rfl⟩
  · -- nothing stands in the way of a vote
    exfalso
    refine h ⟨by rw [hclaim]; simp, hundecided, ?_, fun hlead hheld hstate hballot => ?_⟩
    · unfold ledgerPromiseFor at hpromise
      unfold governing
      rcases hc.cases with rfl | ⟨rfl, hother, -⟩
      · rw [if_pos hc.held]
        exact Nat.not_lt.mp hpromise
      · rw [if_neg hother]
        exact (le_max_left _ _).trans (Nat.not_lt.mp hpromise)
    · by_contra hvalue
      rcases hc.cases with rfl | ⟨-, hother, -⟩
      · exact hconflict ⟨hlead, hstate, hballot, hvalue⟩
      · exact hother hheld

end Sending

end PaxosOdin
