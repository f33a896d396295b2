import PaxosOdin.Lifetime.Stability
import PaxosOdin.Lifetime.Authority
import PaxosOdin.Lifetime.Midway

/-!
# Which slots a drive passes through

The guard of `record_commit` looks at the last released entry only.  A resolution that passes one
slot through, releases another from its cell and passes a third through overwrites the first, and
it is the only transition that can.

Which slots the drive of a chunk passes through is determined by the state in which it begins: a
slot without a cell whose decision was reported, up to which every waiting slot is released, from
its cell or as one of the slots passed through, and none stops the drive.

Main definitions:

- Definition `PassesThrough`: the drive releases the slot through `pass_through`.
- Definition `Overwrites`: a transition passes two slots with different decisions through.

Main results:

- Theorem `resolveLoop_passes`: the slots that the loop of `resolve_chunk` passes through.
- Theorem `effects_stable`: when the batch of a transition is stable.
- Theorem `effects_overwritten`: a resolution whose batch releases a slot with another's decision.
-/

namespace PaxosOdin

variable {V : Type} {P : Params}

/-! ## The slots of a drive -/

/-- The last slot that the drive of the chunk goes over. -/
def driveLimit (P : Params) (n : Node V) : Nat :=
  min (driveGoal P n n.recoveryMore) (slotAdd n.memoryFloor P.W)

/-- The drive of the chunk goes over the slot. -/
def Driven (P : Params) (n : Node V) (slot : Nat) : Prop :=
  driveStart n ≤ slot ∧ slot ≤ driveLimit P n

theorem driveLimit_window (n : Node V) : driveLimit P n ≤ n.memoryFloor + P.W :=
  (min_le_right _ _).trans (slotAdd_le_add _ _)

/-- The drive begins past the released prefix. -/
theorem delivered_lt_driveStart (n : Node V) : n.deliveredThrough < driveStart n := by
  have := (quorumFences_bounds n).2.1
  unfold driveStart
  omega

/-- The drive goes on past the slot: it is decided, or a peer reported its decision, or the
candidate may vote in it. -/
def Drivable (P : Params) (n : Node V) (slot : Nat) : Prop :=
  slot ≠ maxSlot ∧ (ledgerChosenAt P n.ledger slot ≠ none ∨ ReportedChosen n slot ∨
    ∃ value, Selects n slot value ∧ Castable P n slot n.ballot value)

/-- The drive decides the slot in its cell: a peer reported its decision, or the candidate is alone
in its write quorum. -/
def Decides (P : Params) (n : Node V) (slot : Nat) : Prop :=
  (claimLive P n slot).2 ≠ none ∧ (ReportedChosen n slot ∨ n.membership.writeQuorumSize = 1)

/-- The drive releases the slot through `pass_through`: the slot has no cell and a peer reported
its decision, the drive gets there, and every slot that waits for release before it is released,
from its cell or through `pass_through`, but no two neighbours through `pass_through`.  A slot
behind decided ones is not reached before a release of an undecided one has begun. -/
structure PassesThrough (P : Params) (n : Node V) (slot : Nat) : Prop where
  waiting : n.deliveredThrough < slot
  driven : Driven P n slot
  unclaimed : (claimLive P n slot).2 = none
  reported : ReportedChosen n slot
  reached : ∀ s, driveStart n ≤ s → s ≤ slot → Drivable P n s
  held : ∀ s, n.deliveredThrough < s → s < slot → (claimLive P n s).2 ≠ none →
    ledgerChosenAt P n.ledger s ≠ none ∨ (driveStart n ≤ s ∧ Decides P n s)
  passed : ∀ s, n.deliveredThrough < s → s < slot → (claimLive P n s).2 = none →
    driveStart n ≤ s ∧ ReportedChosen n s ∧ (claimLive P n (s + 1)).2 ≠ none
  woken : ∀ s, n.deliveredThrough < s → s ≤ slot → (claimLive P n s).2 = none →
    s = n.deliveredThrough + 1 ∨
      ∃ u, n.deliveredThrough < u ∧ u < s ∧ ledgerChosenAt P n.ledger u = none

/-- The slots without a cell on the way to a slot that is passed through are passed through too. -/
theorem PassesThrough.before {n : Node V} {slot s : Nat} (h : PassesThrough P n slot)
    (hlow : n.deliveredThrough < s) (hless : s < slot) (hclaim : (claimLive P n s).2 = none) :
    PassesThrough P n s := by
  obtain ⟨hstart, hreported, -⟩ := h.passed s hlow hless hclaim
  exact
    { waiting := hlow
      driven := ⟨hstart, hless.le.trans h.driven.2⟩
      unclaimed := hclaim
      reported := hreported
      reached := fun u hu hle => h.reached u hu (hle.trans hless.le)
      held := fun u hu hlt => h.held u hu (hlt.trans hless)
      passed := fun u hu hlt => h.passed u hu (hlt.trans hless)
      woken := fun u hu hle => h.woken u hu (hle.trans hless.le) }

/-! ## Releases -/

theorem ledgerChosenAt_ne_none {l : Ledger V} {slot : Nat} (hslot : slot ≠ 0) :
    ledgerChosenAt P l slot ≠ none ↔
      (l.cellAt P slot).slot = slot ∧ (l.cellAt P slot).state = .chosen := by
  unfold ledgerChosenAt Ledger.cellAt
  rw [if_neg hslot]
  dsimp only
  split_ifs with h
  · simp only [ne_eq, not_true_eq_false, false_iff]
    tauto
  · simp only [ne_eq, reduceCtorEq, not_false_eq_true, true_iff]
    tauto

/-- The slot past the released prefix is not decided. -/
def Flushed (P : Params) (σ : St V) : Prop :=
  σ.node.deliveredThrough < maxSlot →
    ledgerChosenAt P σ.node.ledger (σ.node.deliveredThrough + 1) = none

/-- A round of `emit_contiguous` for each cell releases everything that is ready. -/
theorem emitContiguous_flushed (σ : St V) : Flushed P (emitContiguous P σ) := by
  -- the loop stops, or every round has released the slot of another cell
  have hloop : ∀ (fuel : Nat) (σ : St V), Flushed P (emitContiguousLoop P fuel σ) ∨
      ((emitContiguousLoop P fuel σ).node.deliveredThrough = σ.node.deliveredThrough + fuel ∧
        (emitContiguousLoop P fuel σ).node.ledger = σ.node.ledger ∧
        ∀ s, σ.node.deliveredThrough < s → s ≤ σ.node.deliveredThrough + fuel →
          (σ.node.ledger.cellAt P s).slot = s) := by
    intro fuel
    induction fuel with
    | zero => exact fun σ => Or.inr ⟨rfl, rfl, fun s hlow hhigh => by omega⟩
    | succ fuel ih =>
        intro σ
        unfold emitContiguousLoop
        dsimp only
        split_ifs with hmax hheld
        · left
          intro _
          by_contra hdecided
          rw [← Ne, ledgerChosenAt_ne_none (by omega)] at hdecided
          exact hheld.elim (· hdecided.1) (· hdecided.2)
        · rw [not_or, not_not] at hheld
          rcases ih _ with hflushed | ⟨hdelivered, hledger, hcells⟩
          · exact Or.inl hflushed
          refine Or.inr ⟨?_, hledger, ?_⟩
          · rw [hdelivered]
            show σ.node.deliveredThrough + 1 + fuel = _
            omega
          · intro s hlow hhigh
            by_cases hs : s = σ.node.deliveredThrough + 1
            · rw [hs]
              exact hheld.1
            · exact hcells s (show σ.node.deliveredThrough + 1 < s by omega)
                (show s ≤ σ.node.deliveredThrough + 1 + fuel by omega)
        · exact Or.inl fun hlt => absurd hlt hmax
  rcases hloop P.W σ with hflushed | ⟨hdelivered, hledger, hcells⟩
  · exact hflushed
  · intro _
    have hpos := P.window_pos
    have hfirst := hcells (σ.node.deliveredThrough + 1) (by omega) (by omega)
    have hcell : cellOf (σ.node.deliveredThrough + P.W + 1) P.W =
        cellOf (σ.node.deliveredThrough + 1) P.W := by
      rw [← cellOf_add_window P (Nat.succ_pos σ.node.deliveredThrough)]
      congr 1
      omega
    by_contra hdecided
    rw [← Ne] at hdecided
    unfold emitContiguous at hdecided
    rw [hledger, hdelivered, ledgerChosenAt_ne_none (by omega)] at hdecided
    have hslot := hdecided.1
    unfold Ledger.cellAt at hslot hfirst
    rw [hcell, hfirst] at hslot
    omega

/-- What is released from its cell is decided there. -/
theorem emitContiguous_covers {σ : St V} {slot : Nat} (hlow : σ.node.deliveredThrough < slot)
    (hhigh : slot ≤ (emitContiguous P σ).node.deliveredThrough) :
    ledgerChosenAt P σ.node.ledger slot ≠ none := by
  have hloop : ∀ (fuel : Nat) (τ : St V), τ.node.ledger = σ.node.ledger →
      τ.node.deliveredThrough < slot →
      slot ≤ (emitContiguousLoop P fuel τ).node.deliveredThrough →
      ledgerChosenAt P σ.node.ledger slot ≠ none := by
    intro fuel
    induction fuel with
    | zero =>
        intro τ _ hlow hhigh
        exact absurd hlow (not_lt.mpr hhigh)
    | succ fuel ih =>
        intro τ hledger hlow hhigh
        unfold emitContiguousLoop at hhigh
        dsimp only at hhigh
        split_ifs at hhigh with hmax hheld
        · exact absurd hlow (not_lt.mpr hhigh)
        · by_cases hslot : slot = τ.node.deliveredThrough + 1
          · rw [not_or, not_not, not_not] at hheld
            rw [hslot, ← hledger, ledgerChosenAt_ne_none (by omega)]
            exact hheld
          · refine ih _ ?_ ?_ hhigh
            · exact hledger
            · show τ.node.deliveredThrough + 1 < slot
              omega
        · exact absurd hlow (not_lt.mpr hhigh)
  exact hloop P.W σ rfl hlow hhigh

/-- What releasing decisions leaves alone. -/
theorem emitContiguous_released (σ : St V) :
    (emitContiguous P σ).effects.passedSlots = σ.effects.passedSlots ∧
      (emitContiguous P σ).node.ledger = σ.node.ledger := by
  have hloop : ∀ (fuel : Nat) (σ : St V),
      (emitContiguousLoop P fuel σ).effects.passedSlots = σ.effects.passedSlots := by
    intro fuel
    induction fuel with
    | zero => exact fun σ => rfl
    | succ fuel ih =>
        intro σ
        unfold emitContiguousLoop
        dsimp only
        split_ifs
        · rfl
        · rw [ih]
          simp [Effects.passedSlots, St.addCommitted]
        · rfl
  refine ⟨hloop P.W σ, ?_⟩
  obtain ⟨through, entries, -, heq⟩ := emitContiguous_eq P σ
  rw [heq]

/-! ## One round of a drive -/

/-- The slots released between two states are decided in their cells or passed through. -/
def Accounted (P : Params) (σ σ' : St V) : Prop :=
  ∀ s, σ.node.deliveredThrough < s → s ≤ σ'.node.deliveredThrough →
    s ∈ σ'.effects.passedSlots ∨ ledgerChosenAt P σ'.node.ledger s ≠ none

/-- What one round of a drive does to the slot it is about: nothing, or it decides the slot in its
cell, or it passes the slot through. -/
inductive Round (P : Params) (σ σ' : St V) (slot : Nat) : Prop
  | idle
      (hwhy : ledgerChosenAt P σ.node.ledger slot ≠ none ∨
        ((claimLive P σ.node slot).2 = none ∧ (lastReleasedPassedThrough σ.effects = true ∨
          slot ≠ slotSucc σ.node.deliveredThrough)) ∨
        ((claimLive P σ.node slot).2 ≠ none ∧ ¬ Decides P σ.node slot))
      (hchosen : ledgerChosenAt P σ'.node.ledger slot = none ↔
        ledgerChosenAt P σ.node.ledger slot = none)
      (hdelivered : σ'.node.deliveredThrough = σ.node.deliveredThrough)
      (hpassed : σ'.effects.passedSlots = σ.effects.passedSlots)
  | decides (hdecides : Decides P σ.node slot)
      (hundecided : ledgerChosenAt P σ.node.ledger slot = none)
      (hchosen : ledgerChosenAt P σ'.node.ledger slot ≠ none)
      (hpassed : σ'.effects.passedSlots = σ.effects.passedSlots) (hflushed : Flushed P σ')
      (hreleased : Accounted P σ σ')
  | passes (hreported : ReportedChosen σ.node slot) (hclaim : (claimLive P σ.node slot).2 = none)
      (hlast : lastReleasedPassedThrough σ.effects = false)
      (hnext : slot = slotSucc σ.node.deliveredThrough)
      (hchosen : ledgerChosenAt P σ'.node.ledger slot = none ↔
        ledgerChosenAt P σ.node.ledger slot = none)
      (hpassed : σ'.effects.passedSlots = σ.effects.passedSlots ++ [slot])
      (hflushed : Flushed P σ') (hreleased : Accounted P σ σ')

/-- Announcing what was done changes nothing of it. -/
theorem Round.announce {σ σ' : St V} {slot : Nat} (h : Round P σ σ' slot) (msg : Message V) :
    Round P σ (broadcastPeers σ' msg) slot := by
  cases h with
  | idle hwhy hchosen hdelivered hpassed => exact .idle hwhy hchosen hdelivered hpassed
  | decides hdecides hundecided hchosen hpassed hflushed hreleased =>
      exact .decides hdecides hundecided hchosen hpassed hflushed hreleased
  | passes hreported hclaim hlast hnext hchosen hpassed hflushed hreleased =>
      exact .passes hreported hclaim hlast hnext hchosen hpassed hflushed hreleased

/-- A slot that is decided in its cell has one. -/
theorem claims_of_decided {n : Node V} {slot : Nat} (hlow : n.memoryFloor < slot)
    (hhigh : slot ≤ n.memoryFloor + P.W) (h : ledgerChosenAt P n.ledger slot ≠ none) :
    (claimLive P n slot).2 ≠ none := by
  rw [Ne, claimLive_none_iff]
  rw [ledgerChosenAt_ne_none (by omega)] at h
  rintro (hle | hgt | hstuck)
  · omega
  · omega
  · exact hstuck.2.1 h.1

section Rounds

variable [DecidableEq V]

/-- The decision of an undecided slot with a cell is recorded there. -/
theorem recordCommit_fills {σ : St V} {slot : Nat} (value : V)
    (htrim : σ.node.ledger.anchor.chosenTrimSlot < slot)
    (hundecided : ledgerChosenAt P σ.node.ledger slot = none)
    (hclaim : (claimLive P σ.node slot).2 ≠ none) :
    ledgerChosenAt P (recordCommit P σ slot value).1.node.ledger slot ≠ none ∧
      (recordCommit P σ slot value).1.effects.passedSlots = σ.effects.passedSlots ∧
        Flushed P (recordCommit P σ slot value).1 ∧
          Accounted P σ (recordCommit P σ slot value).1 := by
  have hseen : (claimLive P { σ.node with highestSeen := max σ.node.highestSeen slot } slot).2 =
      none ↔ (claimLive P σ.node slot).2 = none := by
    simp only [claimLive_none_iff]
    exact Iff.rfl
  rcases hcase : claimLive P { σ.node with highestSeen := max σ.node.highestSeen slot } slot with
    ⟨n, _ | cell⟩
  · rw [hcase] at hseen
    exact absurd (hseen.mp rfl) hclaim
  have hc := claimLive_some hcase
  have hcell := hc.cell_eq
  subst hcell
  have hlow : σ.node.memoryFloor < slot := hc.live
  have hopen : (n.ledger.cells (cellOf slot P.W)).state ≠ .chosen := by
    rcases hc.cases with rfl | ⟨rfl, -, -⟩
    · intro hchosen
      have hdecided := (ledgerChosenAt_ne_none (P := P) (l := σ.node.ledger)
        (show slot ≠ 0 by omega)).mpr ⟨hc.held, hchosen⟩
      exact hdecided hundecided
    · simp
  unfold recordCommit
  rw [if_neg (show slot ≠ 0 by omega)]
  dsimp only
  rw [if_neg (by omega), hcase]
  dsimp only
  rw [if_neg hopen]
  refine ⟨?_, ?_, emitContiguous_flushed _, ?_⟩
  · rw [(emitContiguous_released _).2, ledgerChosenAt_ne_none (by omega)]
    have hheld := hc.held
    unfold Ledger.cellAt at hheld ⊢
    unfold queueResubmit
    constructor
    · split_ifs <;> simpa [St.addWrite, ledgerRecordChosen_cells] using hheld
    · split_ifs <;> simp [St.addWrite, ledgerRecordChosen_cells]
  · rw [(emitContiguous_released _).1]
    rfl
  · intro s hs hle
    right
    rw [(emitContiguous_released _).2]
    refine emitContiguous_covers ?_ hle
    have hdelivered : n.deliveredThrough = σ.node.deliveredThrough := by
      rcases hc.cases with rfl | ⟨rfl, -, -⟩ <;> rfl
    unfold queueResubmit
    split_ifs <;> exact hdelivered.trans_lt hs

/-- The decision of an undecided slot ahead is recorded in its cell, or passed through, or left
for later. -/
theorem recordCommit_round {σ : St V} {slot : Nat} (value : V) (hlow : σ.node.memoryFloor < slot)
    (htrim : σ.node.ledger.anchor.chosenTrimSlot < slot)
    (hundecided : ledgerChosenAt P σ.node.ledger slot = none)
    (hreported : ReportedChosen σ.node slot) :
    Round P σ (recordCommit P σ slot value).1 slot := by
  by_cases hclaim : (claimLive P σ.node slot).2 = none
  · have hseen : (claimLive P { σ.node with highestSeen := max σ.node.highestSeen slot } slot).2 =
        none := by
      rw [claimLive_none_iff] at hclaim ⊢
      exact hclaim
    unfold recordCommit
    rw [if_neg (show slot ≠ 0 by omega)]
    dsimp only
    rw [if_neg (by omega)]
    rcases hcase : claimLive P { σ.node with highestSeen := max σ.node.highestSeen slot } slot with
      ⟨n, _ | cell⟩
    · dsimp only
      by_cases hlast : lastReleasedPassedThrough σ.effects = true
      · rw [if_pos hlast]
        exact .idle (Or.inr (Or.inl ⟨hclaim, Or.inl hlast⟩)) Iff.rfl rfl rfl
      rw [if_neg hlast]
      by_cases hnext : slot = slotSucc σ.node.deliveredThrough
      · rw [if_pos hnext]
        refine .passes hreported hclaim (Bool.eq_false_iff.mpr hlast) hnext ?_ ?_
          (emitContiguous_flushed _) ?_
        · rw [(emitContiguous_released _).2]
          exact Iff.rfl
        · rw [(emitContiguous_released _).1, ← σ.setPassThrough_passedSlots value]
          simp [Effects.passedSlots, St.addCommitted, St.addWrite, St.setPassThrough]
        · intro s hs hle
          rw [(emitContiguous_released _).1, (emitContiguous_released _).2]
          by_cases hslot : s = slot
          · left
            simp [Effects.passedSlots, St.addCommitted, hslot]
          · refine Or.inr (emitContiguous_covers (show slot < s from ?_) hle)
            unfold slotSucc at hnext
            split_ifs at hnext
            · omega
            · omega
      · rw [if_neg hnext]
        exact .idle (Or.inr (Or.inl ⟨hclaim, Or.inr hnext⟩)) Iff.rfl rfl rfl
    · rw [hcase] at hseen
      cases hseen
  · obtain ⟨hchosen, hpassed, hflushed, hreleased⟩ :=
      recordCommit_fills value htrim hundecided hclaim
    exact .decides ⟨hclaim, Or.inl hreported⟩ hundecided hchosen hpassed hflushed hreleased

/-- A vote of the drive decides its slot when the candidate is alone in its write quorum. -/
theorem sendAccept_round {σ : St V} {slot : Nat} {value : V}
    (htrim : σ.node.ledger.anchor.chosenTrimSlot < slot) (hreported : ¬ ReportedChosen σ.node slot)
    (hcast : Castable P σ.node slot σ.node.ballot value) :
    Round P σ (sendAccept P σ slot σ.node.ballot value).1 slot := by
  obtain ⟨τ, hsent, hτ⟩ := sendAccept_cast hcast
  have hvoted : ∀ {n : Node V}, Claimed P σ.node n slot (cellOf slot P.W) →
      FreshVote P (voteForProposal { σ with node := n } (cellOf slot P.W) slot σ.node.ballot value)
        slot σ.node.ballot value := by
    intro n hc
    have hfloor : n.memoryFloor = σ.node.memoryFloor := memoryFloor_of_fixed hc.fixed
    exact FreshVote.ofVote _ _ (show n.memoryFloor < slot from hfloor ▸ hc.live)
      (show slot ≤ n.memoryFloor + P.W from hfloor ▸ hc.window) hc.held
  unfold sendAccept at hsent ⊢
  rcases hcase : claimLive P σ.node slot with ⟨n, _ | cell⟩
  · exact absurd (congrArg Prod.snd hcase) hcast.claims
  have hc := claimLive_some hcase
  have hcell := hc.cell_eq
  subst hcell
  have hvote := hvoted hc
  have hlow := hc.live
  have hundecided : ledgerChosenAt P (voteForProposal { σ with node := n } (cellOf slot P.W) slot
      σ.node.ballot value).node.ledger slot = none := by
    by_contra hdecided
    rw [← Ne, ledgerChosenAt_ne_none (by omega), hvote.state] at hdecided
    cases hdecided.2
  rw [hcase] at hsent
  dsimp only at hsent ⊢
  split_ifs at hsent ⊢ with hchosen hconflict hpromise
  · exfalso
    rcases hc.cases with rfl | ⟨rfl, -, -⟩
    · exact (ledgerChosenAt_ne_none (show slot ≠ 0 by omega)).mpr ⟨hc.held, hchosen⟩
        hcast.undecided
    · simp at hchosen
  · cases hsent
  · cases hsent
  · have hmembership : n.membership = σ.node.membership := congrArg Fixed.membership hc.fixed
    unfold announceProposal
    by_cases hone : n.membership.writeQuorumSize = 1
    · rw [if_pos (show (voteForProposal { σ with node := n } (cellOf slot P.W) slot σ.node.ballot
        value).node.membership.writeQuorumSize = 1 from hone)]
      have hanchor : n.ledger.anchor = σ.node.ledger.anchor := congrArg Fixed.anchor hc.fixed
      have hclaims : (claimLive P (voteForProposal { σ with node := n } (cellOf slot P.W) slot
          σ.node.ballot value).node slot).2 ≠ none := by
        rw [Ne, claimLive_none_iff]
        rintro (hle | hgt | hstuck)
        · exact absurd hvote.live (not_lt.mpr hle)
        · exact absurd hvote.window (not_le.mpr hgt)
        · exact hstuck.2.1 hvote.held
      have hok := recordCommit_undecided (P := P) value (show slot ≠ 0 by omega) hundecided
      obtain ⟨hdecided, hpassed, hflushed, hreleased⟩ := recordCommit_fills value
        (show n.ledger.anchor.chosenTrimSlot < slot from hanchor ▸ htrim) hundecided hclaims
      rcases hrecord : recordCommit P (voteForProposal { σ with node := n } (cellOf slot P.W) slot
        σ.node.ballot value) slot value with ⟨υ, e⟩
      rw [hrecord] at hok hdecided hpassed hflushed hreleased
      obtain rfl : e = .none := hok
      apply Round.announce
      refine .decides ⟨hcast.claims, Or.inr (hmembership ▸ hone)⟩ hcast.undecided hdecided hpassed
        hflushed fun s hs => hreleased s ?_
      rcases hc.cases with rfl | ⟨rfl, -, -⟩ <;> exact hs
    · rw [if_neg (show (voteForProposal { σ with node := n } (cellOf slot P.W) slot σ.node.ballot
        value).node.membership.writeQuorumSize ≠ 1 from hone)]
      apply Round.announce
      refine .idle (Or.inr (Or.inr ⟨hcast.claims, fun hdecides => ?_⟩)) ?_ ?_ rfl
      · exact hdecides.2.elim hreported fun h => hone (hmembership ▸ h)
      · exact iff_of_true hundecided hcast.undecided
      · rcases hc.cases with rfl | ⟨rfl, -, -⟩ <;> rfl

end Rounds

/-! ## A drive under way -/

/-- A drive that began in `n₀` and is about to turn to `slot`: what it decided and what it passed
through are what `n₀` says of the slots behind, and the slots ahead are as they were. -/
structure Underway (P : Params) (n₀ : Node V) (slot : Nat) (σ : St V) : Prop where
  lasting : Lasting P n₀.recoveredDecision n₀ slot σ
  fixed : σ.node.fixed = n₀.fixed
  promised : σ.node.ledger.promised = n₀.ledger.promised
  ahead : ∀ s, slot ≤ s → s ≤ n₀.memoryFloor + P.W →
    σ.node.ledger.cellAt P s = n₀.ledger.cellAt P s ∧
      σ.node.lead (cellOf s P.W) = n₀.lead (cellOf s P.W)
  reached : ∀ s, driveStart n₀ ≤ s → s < slot → Drivable P n₀ s
  filled : ∀ s, n₀.deliveredThrough < s → s ≤ n₀.memoryFloor + P.W →
    (ledgerChosenAt P σ.node.ledger s ≠ none ↔ ledgerChosenAt P n₀.ledger s ≠ none ∨
      (driveStart n₀ ≤ s ∧ s < slot ∧ Decides P n₀ s))
  passed : ∀ s, s ∈ σ.effects.passedSlots ↔ s < slot ∧ PassesThrough P n₀ s
  released : ∀ s, n₀.deliveredThrough < s → s ≤ σ.node.deliveredThrough →
    s ≤ n₀.memoryFloor + P.W →
      s ∈ σ.effects.passedSlots ∨ ledgerChosenAt P σ.node.ledger s ≠ none
  moved : σ.node.deliveredThrough = n₀.deliveredThrough ∨
    ∃ u, n₀.deliveredThrough < u ∧ u < slot ∧ ledgerChosenAt P n₀.ledger u = none
  stirred : (σ.node.deliveredThrough = n₀.deliveredThrough ∧ σ.effects.passedSlots = [] ∧
      ∀ u, driveStart n₀ ≤ u → u < slot → Decides P n₀ u → ledgerChosenAt P n₀.ledger u ≠ none) ∨
    (σ.node.deliveredThrough + 1 ≤ driveLimit P n₀ →
      ledgerChosenAt P σ.node.ledger (σ.node.deliveredThrough + 1) = none)

namespace Underway

variable {n₀ : Node V} {slot : Nat} {σ σ' : St V}

/-- A drive begins. -/
theorem start (htag : Tagged P n₀.ledger) (hlive : n₀.memoryFloor ≤ n₀.deliveredThrough) :
    Underway P n₀ (driveStart n₀) (St.start n₀) where
  lasting := Lasting.start htag rfl rfl rfl hlive
  fixed := rfl
  promised := rfl
  ahead := fun _ _ _ => ⟨rfl, rfl⟩
  reached := fun s hs hlt => absurd hs (not_le.mpr hlt)
  filled := by
    intro s _ _
    constructor
    · exact Or.inl
    · rintro (hdecided | ⟨hs, hlt, -⟩)
      · exact hdecided
      · exact absurd hs (not_le.mpr hlt)
  passed := by
    intro s
    constructor
    · intro h
      simp [St.start, Effects.passedSlots] at h
    · rintro ⟨hlt, hpasses⟩
      exact absurd hpasses.driven.1 (not_le.mpr hlt)
  released := fun s hs hle _ => absurd hs (not_lt.mpr hle)
  moved := Or.inl rfl
  stirred := Or.inl ⟨rfl, rfl, fun u hu hlt => absurd hu (not_le.mpr hlt)⟩

/-- The slot ahead is decided if and only if it was. -/
theorem undecided (h : Underway P n₀ slot σ) (hdriven : Driven P n₀ slot) :
    ledgerChosenAt P σ.node.ledger slot = none ↔ ledgerChosenAt P n₀.ledger slot = none := by
  have hstart := delivered_lt_driveStart n₀
  have hfilled := h.filled slot (hstart.trans_le hdriven.1) (hdriven.2.trans (driveLimit_window n₀))
  rw [← not_iff_not]
  exact hfilled.trans (or_iff_left fun hlater => lt_irrefl slot hlater.2.1)

/-- Whether a slot is decided in the drive does not change. -/
theorem decides_iff (h : Underway P n₀ slot σ) (s : Nat) :
    Decides P σ.node s ↔ Decides P n₀ s := by
  have hmembership : σ.node.membership = n₀.membership := congrArg Fixed.membership h.fixed
  have hrecovered : σ.node.recovered = n₀.recovered := congrArg Fixed.recovered h.fixed
  have hbase : σ.node.recoverBase = n₀.recoverBase := congrArg Fixed.recoverBase h.fixed
  unfold Decides ReportedChosen
  rw [Ne, h.lasting.claims s, hmembership, hrecovered, hbase]

/-- A slot whose decision was reported stays one. -/
theorem reported_iff (h : Underway P n₀ slot σ) (s : Nat) :
    ReportedChosen σ.node s ↔ ReportedChosen n₀ s := by
  have hrecovered : σ.node.recovered = n₀.recovered := congrArg Fixed.recovered h.fixed
  have hbase : σ.node.recoverBase = n₀.recoverBase := congrArg Fixed.recoverBase h.fixed
  unfold ReportedChosen
  rw [hrecovered, hbase]

/-- A slot without a cell that was released was passed through. -/
theorem passed_of_released (h : Underway P n₀ slot σ) {s : Nat} (hlow : n₀.deliveredThrough < s)
    (hhigh : s ≤ σ.node.deliveredThrough) (hwindow : s ≤ n₀.memoryFloor + P.W)
    (hclaim : (claimLive P n₀ s).2 = none) : s ∈ σ.effects.passedSlots := by
  by_contra hpassed
  exact h.lasting.claimed hlow hhigh hwindow hpassed hclaim

/-- The entry released last was passed through if and only if the slot of the frontier was. -/
theorem last_passed (h : Underway P n₀ slot σ)
    (hroom : σ.node.deliveredThrough + 1 ≤ n₀.memoryFloor + P.W) :
    lastReleasedPassedThrough σ.effects = true ↔
      σ.node.deliveredThrough ∈ σ.effects.passedSlots := by
  constructor
  · intro hlast
    unfold lastReleasedPassedThrough at hlast
    cases hget : σ.effects.committed.getLast? with
    | none =>
        rw [hget] at hlast
        cases hlast
    | some c =>
        rw [hget] at hlast
        rw [← h.lasting.last c hget]
        exact Effects.mem_passedSlots.mpr ⟨c, List.mem_of_getLast? hget, hlast, rfl⟩
  · intro hmem
    by_contra hlast
    exact h.lasting.frontier_unpassed (Or.inl hroom) (Bool.eq_false_iff.mpr hlast) hmem

/-- When the drive turns to a slot that it passes through, everything before it is released. -/
theorem waits (h : Underway P n₀ slot σ) (hpasses : PassesThrough P n₀ slot) :
    σ.node.deliveredThrough + 1 = slot ∧ lastReleasedPassedThrough σ.effects = false := by
  have hwindow := hpasses.driven.2.trans (driveLimit_window n₀)
  have hwaiting := hpasses.waiting
  have hdelivered := h.lasting.delivered
  have hless : σ.node.deliveredThrough < slot := by
    by_contra hle
    have hmem := h.passed_of_released hwaiting (not_lt.mp hle) hwindow hpasses.unclaimed
    exact lt_irrefl slot ((h.passed slot).mp hmem).1
  -- a slot on the way that has no cell was passed through
  have hbehind : ∀ s, n₀.deliveredThrough < s → s < slot → (claimLive P n₀ s).2 = none →
      s ∈ σ.effects.passedSlots := by
    intro s hlow hlt hclaim
    exact (h.passed s).mpr ⟨hlt, hpasses.before hlow hlt hclaim⟩
  have hnext : σ.node.deliveredThrough + 1 = slot := by
    rcases hpasses.woken slot hwaiting le_rfl hpasses.unclaimed with hfirst | ⟨u, hu, hlt, hnone⟩
    · omega
    by_contra hne
    have hflushed : ledgerChosenAt P σ.node.ledger (σ.node.deliveredThrough + 1) = none := by
      rcases h.stirred with ⟨-, hempty, hdecided⟩ | hflushed
      · by_cases hclaim : (claimLive P n₀ u).2 = none
        · have hmem := hbehind u hu hlt hclaim
          rw [hempty] at hmem
          cases hmem
        · rcases hpasses.held u hu hlt hclaim with hchosen | ⟨hstart, hdecides⟩
          · exact absurd hnone hchosen
          · exact absurd hnone (hdecided u hstart hlt hdecides)
      · have := hpasses.driven.2
        exact hflushed (by omega)
    by_cases hclaim : (claimLive P n₀ (σ.node.deliveredThrough + 1)).2 = none
    · have hmem := hbehind _ (by omega) (by omega) hclaim
      have := (h.lasting.passed_le hmem).2
      omega
    · refine (h.filled _ (by omega) (by omega)).mpr ?_ hflushed
      refine (hpasses.held _ (by omega) (by omega) hclaim).imp_right fun hdecides => ?_
      exact ⟨hdecides.1, by omega, hdecides.2⟩
  refine ⟨hnext, ?_⟩
  by_contra hlast
  rw [Bool.not_eq_false, h.last_passed (by omega)] at hlast
  obtain ⟨hlt, hprevious⟩ := (h.passed _).mp hlast
  have hneighbour := (hpasses.passed _ hprevious.waiting hlt hprevious.unclaimed).2.2
  rw [hnext] at hneighbour
  exact hneighbour hpasses.unclaimed

/-- The slot that a round passes through is one that the drive was to pass through. -/
theorem passes (h : Underway P n₀ slot σ) (hdriven : Driven P n₀ slot)
    (hdrivable : Drivable P n₀ slot) (hclaim : (claimLive P n₀ slot).2 = none)
    (hreported : ReportedChosen n₀ slot) (hnext : slot = σ.node.deliveredThrough + 1)
    (hlast : lastReleasedPassedThrough σ.effects = false) : PassesThrough P n₀ slot := by
  have hwindow := hdriven.2.trans (driveLimit_window n₀)
  have hdelivered := h.lasting.delivered
  have hbehind : ∀ s, n₀.deliveredThrough < s → s < slot → (claimLive P n₀ s).2 = none →
      s ∈ σ.effects.passedSlots := by
    intro s hlow hlt hnone
    exact h.passed_of_released hlow (by omega) (by omega) hnone
  constructor
  · omega
  · exact hdriven
  · exact hclaim
  · exact hreported
  · intro s hs hle
    rcases Nat.lt_or_eq_of_le hle with hlt | rfl
    · exact h.reached s hs hlt
    · exact hdrivable
  · intro s hlow hlt hclaims
    have hchosen : ledgerChosenAt P σ.node.ledger s ≠ none := by
      refine (h.released s hlow (by omega) (by omega)).resolve_left fun hmem => ?_
      exact hclaims (h.lasting.passing.unclaimed s hmem)
    refine ((h.filled s hlow (by omega)).mp hchosen).imp_right fun hdecides => ?_
    exact ⟨hdecides.1, hdecides.2.2⟩
  · intro s hlow hlt hnone
    have hmem := hbehind s hlow hlt hnone
    have hs := ((h.passed s).mp hmem).2
    refine ⟨hs.driven.1, hs.reported, fun hneighbour => ?_⟩
    by_cases hadjacent : s + 1 = slot
    · have hfrontier : s = σ.node.deliveredThrough := by omega
      rw [hfrontier, ← h.last_passed (by omega), hlast] at hmem
      cases hmem
    · exact h.lasting.passing.apart s hmem (hbehind (s + 1) (by omega) (by omega) hneighbour)
  · intro s hlow hle hnone
    rcases Nat.lt_or_eq_of_le hle with hlt | rfl
    · exact ((h.passed s).mp (hbehind s hlow hlt hnone)).2.woken s hlow le_rfl hnone
    · rcases h.moved with hstill | hmoved
      · left
        omega
      · exact Or.inr hmoved

/-- The slots of the window other than the one a round is about show what they showed. -/
theorem chosen_beside (h : Underway P n₀ slot σ) (hbeside : Beside P σ.node σ'.node slot)
    (hdriven : Driven P n₀ slot) {s : Nat} (hlow : n₀.deliveredThrough < s)
    (hwindow : s ≤ n₀.memoryFloor + P.W) (hne : s ≠ slot) :
    ledgerChosenAt P σ'.node.ledger s = ledgerChosenAt P σ.node.ledger s := by
  have hlive := h.lasting.live
  have hstart := delivered_lt_driveStart n₀
  have hlimit := driveLimit_window (P := P) n₀
  obtain ⟨hfirst, hlast⟩ := hdriven
  have hcell : cellOf s P.W ≠ cellOf slot P.W := fun heq =>
    hne (eq_of_cellOf_eq P (by omega) hwindow (by omega) (by omega) heq)
  unfold ledgerChosenAt
  rw [hbeside.cells _ hcell]

/-- After one round the drive turns to the next slot. -/
theorem round (h : Underway P n₀ slot σ) (hword : driveLimit P n₀ ≤ maxSlot)
    (hdriven : Driven P n₀ slot) (hdrivable : Drivable P n₀ slot)
    (hround : Round P σ σ' slot) (hbeside : Beside P σ.node σ'.node slot)
    (hlasting : Lasting P n₀.recoveredDecision n₀ (slot + 1) σ') : Underway P n₀ (slot + 1) σ' := by
  have hlive := h.lasting.live
  have hstart := delivered_lt_driveStart n₀
  have hlimit := driveLimit_window (P := P) n₀
  have hundecided := h.undecided hdriven
  have hwindow : slot ≤ n₀.memoryFloor + P.W := hdriven.2.trans hlimit
  have hlow : n₀.deliveredThrough < slot := hstart.trans_le hdriven.1
  have hothers := @chosen_beside V P n₀ slot σ σ' h hbeside hdriven
  -- whether the slot itself is decided now
  have hfilled : ledgerChosenAt P σ'.node.ledger slot ≠ none ↔
      ledgerChosenAt P n₀.ledger slot ≠ none ∨ Decides P n₀ slot := by
    cases hround with
    | idle hwhy hchosen =>
        rw [Ne, hchosen, hundecided]
        refine ⟨Or.inl, fun hcase => hcase.elim id fun hdecides => ?_⟩
        rcases hwhy with hdecided | ⟨hclaim, -⟩ | ⟨-, hnot⟩
        · exact hundecided.not.mp hdecided
        · exact absurd ((h.lasting.claims slot).mp hclaim) hdecides.1
        · exact absurd ((h.decides_iff slot).mpr hdecides) hnot
    | decides hdecides _ hchosen =>
        exact iff_of_true hchosen (Or.inr ((h.decides_iff slot).mp hdecides))
    | passes _ hclaim _ _ hchosen =>
        rw [Ne, hchosen, hundecided]
        refine ⟨Or.inl, fun hcase => hcase.elim id fun hdecides => ?_⟩
        exact absurd ((h.lasting.claims slot).mp hclaim) hdecides.1
  have hpassed : ∀ s, s ∈ σ'.effects.passedSlots ↔ s < slot + 1 ∧ PassesThrough P n₀ s := by
    have hkept : σ'.effects.passedSlots = σ.effects.passedSlots → ¬ PassesThrough P n₀ slot →
        ∀ s, s ∈ σ'.effects.passedSlots ↔ s < slot + 1 ∧ PassesThrough P n₀ s := by
      intro hsame hnot s
      rw [hsame, h.passed]
      refine ⟨fun hs => ⟨by omega, hs.2⟩, fun hs => ⟨?_, hs.2⟩⟩
      have hne : s ≠ slot := by
        rintro rfl
        exact hnot hs.2
      omega
    cases hround with
    | idle hwhy _ _ hsame =>
        apply hkept hsame
        intro hpasses
        obtain ⟨hnext, hlast⟩ := h.waits hpasses
        rcases hwhy with hdecided | ⟨-, hguard | hother⟩ | ⟨hclaims, -⟩
        · exact claims_of_decided (by omega) hwindow (hundecided.not.mp hdecided) hpasses.unclaimed
        · rw [hlast] at hguard
          cases hguard
        · apply hother
          unfold slotSucc
          have := hdriven.2
          rw [if_neg (by omega)]
          exact hnext.symm
        · exact hclaims ((h.lasting.claims slot).mpr hpasses.unclaimed)
    | decides hdecides _ _ hsame =>
        exact hkept hsame fun hpasses =>
          ((h.decides_iff slot).mp hdecides).1 hpasses.unclaimed
    | passes hreported hclaim hlast hnext _ happend =>
        have hnext' : slot = σ.node.deliveredThrough + 1 := by
          unfold slotSucc at hnext
          split_ifs at hnext
          · omega
          · exact hnext
        have hpasses := h.passes hdriven hdrivable ((h.lasting.claims slot).mp hclaim)
          ((h.reported_iff slot).mp hreported) hnext' hlast
        intro s
        rw [happend, List.mem_append, List.mem_singleton, h.passed]
        constructor
        · rintro (hs | rfl)
          · exact ⟨by omega, hs.2⟩
          · exact ⟨Nat.lt_succ_self s, hpasses⟩
        · rintro ⟨hlt, hs⟩
          by_cases hslot : s = slot
          · exact Or.inr hslot
          · exact Or.inl ⟨by omega, hs⟩
  constructor
  · exact hlasting
  · exact hbeside.fixed.trans h.fixed
  · exact hbeside.promised.trans h.promised
  · intro s hs hle
    have hcell : cellOf s P.W ≠ cellOf slot P.W := by
      intro heq
      have := eq_of_cellOf_eq P (by omega) hle (show n₀.memoryFloor < slot by omega) hwindow heq
      omega
    obtain ⟨hcells, hlead⟩ := h.ahead s (by omega) hle
    exact ⟨(hbeside.cells _ hcell).trans hcells, (hbeside.lead _ hcell).trans hlead⟩
  · intro s hs hlt
    rcases Nat.lt_succ_iff_lt_or_eq.mp hlt with hless | rfl
    · exact h.reached s hs hless
    · exact hdrivable
  · intro s hs hle
    by_cases hslot : s = slot
    · rw [hslot, hfilled]
      refine or_congr_right ⟨fun hdecides => ?_, fun hdecides => hdecides.2.2⟩
      exact ⟨hdriven.1, Nat.lt_succ_self slot, hdecides⟩
    · rw [hothers hs hle hslot, h.filled s hs hle]
      refine or_congr_right ⟨fun hdecides => ?_, fun hdecides => ?_⟩
      · exact ⟨hdecides.1, by omega, hdecides.2.2⟩
      · exact ⟨hdecides.1, by omega, hdecides.2.2⟩
  · exact hpassed
  · intro s hs hle hin
    by_cases hbehind : s ≤ σ.node.deliveredThrough
    · rcases h.released s hs hbehind hin with hmem | hchosen
      · left
        rw [hpassed]
        rw [h.passed] at hmem
        exact ⟨by omega, hmem.2⟩
      · right
        by_cases hslot : s = slot
        · rw [hslot] at hchosen ⊢
          exact hfilled.mpr (Or.inl (hundecided.not.mp hchosen))
        · rw [hothers hs hin hslot]
          exact hchosen
    · cases hround with
      | idle _ _ hdelivered => exact absurd (hdelivered ▸ hle) hbehind
      | decides _ _ _ _ _ hreleased => exact hreleased s (not_le.mp hbehind) hle
      | passes _ _ _ _ _ _ _ hreleased => exact hreleased s (not_le.mp hbehind) hle
  · cases hround with
    | idle _ _ hdelivered =>
        rw [hdelivered]
        rcases h.moved with hsame | ⟨u, hu, hlt, hnone⟩
        · exact Or.inl hsame
        · exact Or.inr ⟨u, hu, by omega, hnone⟩
    | decides _ hnone =>
        exact Or.inr ⟨slot, hlow, Nat.lt_succ_self slot, hundecided.mp hnone⟩
    | passes _ hclaim =>
        refine Or.inr ⟨slot, hlow, Nat.lt_succ_self slot, ?_⟩
        by_contra hdecided
        exact claims_of_decided (by omega) hwindow hdecided ((h.lasting.claims slot).mp hclaim)
  · have hflush : Flushed P σ' → σ'.node.deliveredThrough + 1 ≤ driveLimit P n₀ →
        ledgerChosenAt P σ'.node.ledger (σ'.node.deliveredThrough + 1) = none := by
      intro hflushed hle
      exact hflushed (by omega)
    cases hround with
    | idle hwhy hchosen hdelivered hsame =>
        rw [hdelivered, hsame]
        rcases h.stirred with ⟨hstill, hempty, hdecided⟩ | hflushed
        · refine Or.inl ⟨hstill, hempty, fun u hu hlt hdecides => ?_⟩
          rcases Nat.lt_succ_iff_lt_or_eq.mp hlt with hless | rfl
          · exact hdecided u hu hless hdecides
          · have hnow := hfilled.mpr (Or.inr hdecides)
            rw [Ne, hchosen, hundecided] at hnow
            exact hnow
        · refine Or.inr fun hle => ?_
          have hnone := hflushed hle
          have hdelivered' := h.lasting.delivered
          by_cases hslot : σ.node.deliveredThrough + 1 = slot
          · rw [hslot] at hnone ⊢
            exact hchosen.mpr hnone
          · rw [hothers (by omega) (by omega) hslot]
            exact hnone
    | decides _ _ _ _ hflushed => exact Or.inr (hflush hflushed)
    | passes _ _ _ _ _ _ hflushed => exact Or.inr (hflush hflushed)

/-- A proposal of the drive goes through if and only if it would have gone through at the start. -/
theorem castable_iff (h : Underway P n₀ slot σ) (hwindow : slot ≤ n₀.memoryFloor + P.W)
    {ballot : Nat} {value : V} :
    Castable P σ.node slot ballot value ↔ Castable P n₀ slot ballot value := by
  have hfloor := memoryFloor_of_fixed h.fixed
  obtain ⟨hcell, hlead⟩ := h.ahead slot le_rfl hwindow
  constructor
  · intro hcast
    exact hcast.congr hfloor.symm h.promised.symm hcell.symm hlead.symm
  · intro hcast
    exact hcast.congr hfloor h.promised hcell hlead

/-- A slot that stops the drive is passed by no later one. -/
theorem stops (h : Underway P n₀ slot σ) (hfirst : driveStart n₀ ≤ slot)
    (hstops : ¬ Drivable P n₀ slot) (s : Nat) :
    s ∈ σ.effects.passedSlots ↔ PassesThrough P n₀ s := by
  rw [h.passed]
  refine and_iff_right_of_imp fun hpasses => ?_
  by_contra hle
  exact hstops (hpasses.reached slot hfirst (not_lt.mp hle))

end Underway

section Drives

variable [DecidableEq V] {n₀ : Node V}

/-- The slots that the loop of `resolve_chunk` passes through. -/
theorem resolveLoop_passes {noop : V} (hword : driveLimit P n₀ ≤ maxSlot) :
    ∀ {fuel : Nat} {σ : St V} {slot : Nat}, fuel = driveLimit P n₀ + 1 - slot →
      driveStart n₀ ≤ slot →
      (0 < fuel → Driving P σ.node noop slot (driveLimit P n₀ + 1)) → Underway P n₀ slot σ →
      ∀ s, s ∈ (resolveLoop P noop fuel σ slot).1.effects.passedSlots ↔ PassesThrough P n₀ s := by
  intro fuel
  induction fuel with
  | zero =>
      intro σ slot hfuel _ _ h s
      refine (h.passed s).trans (and_iff_right_of_imp fun hpasses => ?_)
      have := hpasses.driven.2
      omega
  | succ fuel ih =>
      intro σ slot hfuel hfirst hdriving h s
      have hd := hdriving (Nat.succ_pos fuel)
      have hdriven : Driven P n₀ slot := ⟨hfirst, by omega⟩
      have hwindow := hdriven.2.trans (driveLimit_window n₀)
      have hlive := h.lasting.live
      have hstart := delivered_lt_driveStart n₀
      have hfloor : σ.node.memoryFloor = n₀.memoryFloor := h.lasting.base
      have htrim := (hd.above slot le_rfl).1
      unfold resolveLoop
      by_cases hmax : slot = maxSlot
      · rw [if_pos hmax]
        exact h.stops hfirst (fun hdrivable => hdrivable.1 hmax) s
      rw [if_neg hmax]
      dsimp only
      -- the rest of the drive, once the round went on
      have hrest : ∀ {τ : St V}, Drivable P n₀ slot → Round P σ τ slot →
          Beside P σ.node τ.node slot → Lasting P n₀.recoveredDecision n₀ (slot + 1) τ →
          (s ∈ (resolveLoop P noop fuel τ (slot + 1)).1.effects.passedSlots ↔
            PassesThrough P n₀ s) := by
        intro τ hdrivable hround hbeside hlasting
        exact ih (by omega) (by omega) (fun _ => (hd.congr hbeside.fixed).next)
          (h.round hword hdriven hdrivable hround hbeside hlasting) s
      cases hshown : ledgerChosenAt P σ.node.ledger slot with
      | some value =>
          have hdecided : ledgerChosenAt P σ.node.ledger slot ≠ none := by simp [hshown]
          exact hrest ⟨hmax, Or.inl ((h.undecided hdriven).not.mp hdecided)⟩
            (.idle (Or.inl hdecided) Iff.rfl rfl rfl) (Beside.refl σ.node slot)
            ((h.lasting.announceChosen (by omega) hshown).mono (Nat.le_succ slot))
      | none =>
          dsimp only
          by_cases hreported : (σ.node.recovered (slot - σ.node.recoverBase)).slot = slot ∧
              (σ.node.recovered (slot - σ.node.recoverBase)).state = .chosen
          · rw [if_pos hreported]
            have hdecision : n₀.recoveredDecision slot =
                some (σ.node.recovered (slot - σ.node.recoverBase)).value := by
              rw [← recoveredDecision_of_fixed h.fixed]
              unfold Node.recoveredDecision
              rw [if_pos hreported]
            have hok := recordCommit_undecided
              (σ.node.recovered (slot - σ.node.recoverBase)).value (by omega) hshown
            have hround := recordCommit_round
              (σ.node.recovered (slot - σ.node.recoverBase)).value (by omega) htrim hshown hreported
            have hbeside := recordCommit_beside (P := P) σ slot
              (σ.node.recovered (slot - σ.node.recoverBase)).value
            have hcommit := h.lasting.recordCommit
              (σ.node.recovered (slot - σ.node.recoverBase)).value (fun _ => hdecision)
              (Or.inl hwindow) (Or.inl le_rfl)
            have hdrivable : Drivable P n₀ slot :=
              ⟨hmax, Or.inr (Or.inl ((h.reported_iff slot).mp hreported))⟩
            rcases hcase : recordCommit P σ slot
              (σ.node.recovered (slot - σ.node.recoverBase)).value with ⟨τ, e⟩
            rw [hcase] at hok hround hbeside hcommit
            obtain rfl : e = .none := hok
            dsimp only
            cases hnow : ledgerChosenAt P τ.node.ledger slot with
            | some decided =>
                exact hrest hdrivable (hround.announce _) hbeside
                  ((hcommit.lasting.announceChosen (by omega) hnow).mono (Nat.le_succ slot))
            | none => exact hrest hdrivable hround hbeside (hcommit.lasting.mono (Nat.le_succ slot))
          · rw [if_neg hreported]
            have hselects := hd.selects hreported
            generalize (if (σ.node.recovered (slot - σ.node.recoverBase)).slot = slot ∧
                (σ.node.recovered (slot - σ.node.recoverBase)).state = .voted then
              (σ.node.recovered (slot - σ.node.recoverBase)).value else noop) = value at hselects ⊢
            have hballot : σ.node.ballot = n₀.ballot := congrArg Fixed.ballot h.fixed
            have hchoice : ∀ w, Selects σ.node slot w ↔ Selects n₀ slot w := by
              intro w
              have hrecovered : σ.node.recovered = n₀.recovered := congrArg Fixed.recovered h.fixed
              have hbase : σ.node.recoverBase = n₀.recoverBase :=
                congrArg Fixed.recoverBase h.fixed
              have hnoop : σ.node.noop = n₀.noop := congrArg Fixed.noop h.fixed
              unfold Selects
              rw [hrecovered, hbase, hnoop]
            by_cases hcast : Castable P σ.node slot σ.node.ballot value
            · have hdrivable : Drivable P n₀ slot := by
                refine ⟨hmax, Or.inr (Or.inr ⟨value, (hchoice value).mp hselects, ?_⟩)⟩
                rw [← h.castable_iff hwindow, ← hballot]
                exact hcast
              have hround := sendAccept_round htrim hreported hcast
              have hsend := h.lasting.sendAccept σ.node.ballot value le_rfl
              obtain ⟨τ, hsent, hτ⟩ := sendAccept_cast hcast
              rw [hsent] at hround hsend ⊢
              exact hrest hdrivable hround hτ.beside hsend.lasting
            · have hstops : ¬ Drivable P n₀ slot := by
                rintro ⟨-, hdecided | hreport | ⟨w, hw, hcastable⟩⟩
                · exact hdecided ((h.undecided hdriven).mp hshown)
                · exact hreported ((h.reported_iff slot).mpr hreport)
                · obtain rfl := hselects.unique ((hchoice w).mpr hw)
                  rw [← h.castable_iff hwindow, ← hballot] at hcastable
                  exact hcast hcastable
              obtain ⟨herror, -, heffects⟩ := sendAccept_refused hcast (Or.inr hshown)
              rcases hsend : sendAccept P σ slot σ.node.ballot value with ⟨τ, e⟩
              rw [hsend] at herror heffects
              have hpassed := h.stops hfirst hstops s
              rw [← show τ.effects = σ.effects from heffects] at hpassed
              cases e with
              | none => exact absurd rfl herror
              | notLeader => exact hpassed
              | _ => exact hpassed

/-- The slots that the drive of a frozen chunk passes through. -/
theorem resolveFrozen_passes {noop : V} (htag : Tagged P n₀.ledger)
    (hlive : n₀.memoryFloor ≤ n₀.deliveredThrough) (hrole : n₀.role = .preparing)
    (hfrozen : n₀.recoveryReady = true) (hnoop : n₀.noop = some noop)
    (hlast : n₀.recoverLast ≤ maxSlot) (s : Nat) :
    s ∈ (resolveFrozen P (St.start n₀) noop).1.effects.passedSlots ↔ PassesThrough P n₀ s := by
  have hword : driveLimit P n₀ ≤ maxSlot := by
    have hgoal : driveGoal P n₀ n₀.recoveryMore ≤ n₀.recoverLast := by
      unfold driveGoal
      dsimp only
      split_ifs
      · exact le_rfl
      · exact min_le_left _ _
    exact (min_le_left _ _).trans (hgoal.trans hlast)
  have hdriving : 0 < driveLimit P n₀ + 1 - driveStart n₀ →
      Driving P n₀ noop (driveStart n₀) (driveLimit P n₀ + 1) := by
    intro hpos
    have hd := driving_of_frozen hrole hfrozen hnoop (rfl : driveLimit P n₀ = _) hpos
    have hstop : driveStart n₀ + (driveLimit P n₀ + 1 - driveStart n₀) = driveLimit P n₀ + 1 := by
      omega
    exact hstop ▸ hd
  have hloop := resolveLoop_passes hword rfl le_rfl hdriving (Underway.start htag hlive) s
  have hchunk : s ∈ (resolveChunk P (St.start n₀) noop n₀.recoveryMore).1.effects.passedSlots ↔
      PassesThrough P n₀ s := by
    unfold resolveChunk
    dsimp only
    split_ifs with hfence
    · refine ⟨fun hmem => ?_, fun hpasses => ?_⟩
      · simp [St.start, Effects.passedSlots] at hmem
      · have hstart : driveStart n₀ ≤ driveLimit P n₀ := hpasses.driven.1.trans hpasses.driven.2
        unfold driveStart at hstart
        simp only [St.start] at hfence
        omega
    · rcases hcase : resolveLoop P noop (min (driveGoal P (St.start n₀).node n₀.recoveryMore)
        (slotAdd (St.start n₀).node.memoryFloor P.W) + 1 - driveStart (St.start n₀).node)
        (St.start n₀) (driveStart (St.start n₀).node) with ⟨τ, _ | ⟨resolved, e⟩⟩
      · have hτ : s ∈ τ.effects.passedSlots ↔ PassesThrough P n₀ s := by
          rw [← hloop, ← show (resolveLoop P noop (driveLimit P n₀ + 1 - driveStart n₀) (St.start n₀)
            (driveStart n₀)).1 = τ from congrArg Prod.fst hcase]
        dsimp only
        split_ifs
        · cases (quorumFences (St.start n₀).node).chosenPeer <;> exact hτ
        · exact hτ
      · rw [← hloop, ← show (resolveLoop P noop (driveLimit P n₀ + 1 - driveStart n₀) (St.start n₀)
            (driveStart n₀)).1 = τ from congrArg Prod.fst hcase]
  rw [← hchunk]
  unfold resolveFrozen
  rcases hcase : resolveChunk P (St.start n₀) noop n₀.recoveryMore with ⟨τ, resolved, e⟩
  have hcase' : resolveChunk P (St.start n₀) noop (St.start n₀).node.recoveryMore =
      (τ, resolved, e) := hcase
  dsimp only
  rw [hcase']
  cases e with
  | none =>
      dsimp only
      split_ifs
      · exact Iff.rfl
      · exact Iff.rfl
      · exact Iff.rfl
      · unfold becomeLeader
        dsimp only
        split_ifs <;> rw [(emitContiguous_released _).1]
  | _ => exact Iff.rfl

/-! ## Transitions -/

/-- A candidate about to resolve its chunk has taken one report into its scratch, and nothing
else. -/
structure Reporting (P : Params) (n : Node V) (op : Operation V) (σ : St V) : Prop where
  started : σ = St.start σ.node
  role : n.role = .preparing
  ledger : σ.node.ledger = n.ledger
  floor : σ.node.memoryFloor = n.memoryFloor
  delivered : σ.node.deliveredThrough = n.deliveredThrough
  last : σ.node.recoverLast = n.recoverLast
  told : ∀ s v, σ.node.recoveredDecision s = some v → decisionFor P n op s = some v

theorem resolvingState_reporting {n : Node V} {op : Operation V} {σ : St V}
    (h : resolvingState P n op = some σ) : Reporting P n op σ := by
  unfold resolvingState at h
  cases op with
  | call c =>
      cases c with
      | tick noop =>
          dsimp only at h
          unfold tickResolves at h
          dsimp only at h
          split_ifs at h with hcond
          cases h
          exact ⟨rfl, hcond.2.1, rfl, rfl, rfl, rfl, fun s v hs => (if_pos hcond.2.1).trans hs⟩
      | _ => cases h
  | step e =>
      dsimp only at h
      split_ifs at h with hcond
      cases hmember : membershipIndexOf n.membership e.sender with
      | none =>
          rw [hmember] at h
          cases h
      | some member =>
          rw [hmember] at h
          obtain ⟨sender, recipient, message⟩ := e
          dsimp only at h
          obtain ⟨progress, hnote⟩ : ∃ progress, notePeerProgress n member message =
              { n with peerDecidedThrough := progress } := by
            unfold notePeerProgress
            cases messageDecidedThrough message <;> exact ⟨_, rfl⟩
          rw [hnote] at h
          cases message with
          | promise ballot slot vote state value =>
              obtain ⟨hrole, -, hcase⟩ := messageResolves_promise h
              have htold : ∀ s v, (n.recoveredDecision s).or
                  (if slot = s ∧ state = .chosen then some value else none) = some v →
                    heardDecision P n s (.promise ballot slot vote state value) = some v :=
                fun s v hs => (if_pos hrole).trans hs
              rcases hcase with ⟨-, rfl⟩ | ⟨-, cell, n', -, -, hrecord, rfl⟩
              · refine ⟨rfl, hrole, rfl, rfl, rfl, rfl, fun s v hs => htold s v ?_⟩
                rw [show n.recoveredDecision s = some v from hs, Option.some_or]
              · have hn' : (recordReport (St.start { n with peerDecidedThrough := progress }).node
                    member cell slot vote state value).1 = n' := congrArg Prod.fst hrecord
                refine ⟨rfl, hrole, ?_, ?_, ?_, ?_, fun s v hs => htold s v ?_⟩
                case refine_5 =>
                  rw [← show _ = n' from hn'] at hs
                  have hdecision := recordReport_decision hs
                  exact hdecision
                all_goals
                  rw [← hn']
                  unfold recordReport
                  dsimp only
                  split_ifs <;> rfl
          | promiseRange =>
              unfold messageResolves at h
              dsimp only at h
              split_ifs at h with hstale hready hinvalid hother
              · cases h
                rw [not_or, not_not] at hstale
                exact ⟨rfl, hstale.1, rfl, rfl, rfl, rfl, fun s v hs => (if_pos hstale.1).trans hs⟩
              · cases h
                rw [not_or, not_not] at hstale
                exact ⟨rfl, hstale.1, rfl, rfl, rfl, rfl, fun s v hs => (if_pos hstale.1).trans hs⟩
          | _ => cases h
  | _ => cases h

omit [DecidableEq V] in
/-- The candidate freezes its selection, and nothing else. -/
theorem Reporting.frozen {n : Node V} {op : Operation V} {σ τ : St V} {noop : V}
    (h : Reporting P n op σ) (hτ : frozenState σ = some (τ, noop)) : Reporting P n op τ := by
  unfold frozenState at hτ
  cases hnoop : σ.node.noop with
  | none =>
      rw [hnoop] at hτ
      cases hτ
  | some w =>
      rw [hnoop] at hτ
      dsimp only at hτ
      split_ifs at hτ
      cases hτ
      have heffects : σ.effects = {} := congrArg St.effects h.started
      have hframe : (freezeSelection σ.node).ledger = σ.node.ledger ∧
          (freezeSelection σ.node).memoryFloor = σ.node.memoryFloor ∧
            (freezeSelection σ.node).deliveredThrough = σ.node.deliveredThrough ∧
              (freezeSelection σ.node).recoverLast = σ.node.recoverLast ∧
                ∀ s, (freezeSelection σ.node).recoveredDecision s = σ.node.recoveredDecision s := by
        unfold freezeSelection
        split_ifs <;> exact ⟨rfl, rfl, rfl, rfl, fun s => rfl⟩
      obtain ⟨hledger, hfloor, hdelivered, hlast, hdecision⟩ := hframe
      refine ⟨?_, h.role, hledger.trans h.ledger, hfloor.trans h.floor,
        hdelivered.trans h.delivered, hlast.trans h.last, fun s v hs => h.told s v ?_⟩
      · rw [heffects]
        rfl
      · rw [← hdecision s]
        exact hs

/-- The slots that an operation passes through when it drives a chunk. -/
theorem operate_passes {n : Node V} {op : Operation V} {τ : St V} {noop : V} (ho : Opened P n)
    (htag : Tagged P n.ledger) (h : (resolvingState P n op).bind frozenState = some (τ, noop)) :
    Reporting P n op τ ∧
      ∀ s, s ∈ (operate P n op).effects.passedSlots ↔ PassesThrough P τ.node s := by
  obtain ⟨σ, hσ, hτ⟩ := Option.bind_eq_some_iff.mp h
  have hr := (resolvingState_reporting hσ).frozen hτ
  obtain ⟨-, hrole, hready, hnoop⟩ :=
    frozenState_run (P := P) (I := {}) (resolvingState_run hσ).2 hτ
  refine ⟨hr, fun s => ?_⟩
  rw [operate_resolving hσ, maybeResolveChunk_frozen hτ, hr.started]
  apply resolveFrozen_passes
  · exact hr.ledger ▸ htag
  · show τ.node.memoryFloor ≤ τ.node.deliveredThrough
    rw [hr.floor, hr.delivered]
    exact ho.floor
  · exact hrole
  · exact hready
  · exact hnoop
  · exact hr.last.trans_le (ho.chunk hr.role).2

theorem maybeResolveChunk_unfrozen {σ : St V} (h : frozenState σ = none) :
    (maybeResolveChunk P σ).1 = σ := by
  unfold frozenState at h
  unfold maybeResolveChunk
  cases hnoop : σ.node.noop with
  | none => rfl
  | some noop =>
      rw [hnoop] at h
      dsimp only at h ⊢
      split_ifs at h ⊢
      rfl

/-- A report that drives no chunk has no effects. -/
theorem onPromise_undriven {σ : St V} {member ballot slot vote : Nat} {state : CellState} {value : V}
    (h : (messageResolves P σ member (.promise ballot slot vote state value)).bind frozenState =
      none) : (onPromise P σ member ballot slot vote state value).1.effects = σ.effects := by
  cases hcase : messageResolves P σ member (.promise ballot slot vote state value) with
  | some τ =>
      rw [hcase] at h
      rw [onPromise_resolving hcase, maybeResolveChunk_unfrozen h]
      obtain ⟨-, -, ⟨-, rfl⟩ | ⟨-, _, _, -, -, -, rfl⟩⟩ := messageResolves_promise hcase <;> rfl
  | none =>
      unfold messageResolves at hcase
      unfold onPromise
      dsimp only at hcase
      by_cases hstale : σ.node.role ≠ .preparing ∨ ballot ≠ σ.node.ballot
      · rw [if_pos hstale]
      rw [if_neg hstale] at hcase ⊢
      by_cases hready : σ.node.recoveryReady = true
      · rw [if_pos hready] at hcase
        cases hcase
      rw [if_neg hready] at hcase ⊢
      rcases hoffset : recoveryIndex P σ.node slot with _ | cell
      · rfl
      rw [hoffset] at hcase
      dsimp only at hcase ⊢
      by_cases hempty : state = .empty
      · rw [if_pos hempty]
      rw [if_neg hempty] at hcase ⊢
      rcases hrecord : recordReport σ.node member cell slot vote state value with ⟨n, e⟩
      rw [hrecord] at hcase
      cases e with
      | none => cases hcase
      | _ => rfl

/-- So does a manifest. -/
theorem onPromiseRange_undriven {σ : St V} {member ballot : Nat} {anchor : TrimAnchor}
    {chosenThrough first last reported : Nat} {more : Bool}
    (h : (messageResolves P σ member
      (.promiseRange ballot anchor chosenThrough first last reported more)).bind frozenState = none) :
    (onPromiseRange P σ member ballot anchor chosenThrough first last reported more).1.effects =
      σ.effects := by
  unfold messageResolves at h
  unfold onPromiseRange
  dsimp only at h ⊢
  by_cases hstale : σ.node.role ≠ .preparing ∨ ballot ≠ σ.node.ballot
  · rw [if_pos hstale]
  rw [if_neg hstale] at h ⊢
  by_cases hready : σ.node.recoveryReady = true
  · rw [if_pos hready] at h ⊢
    rw [maybeResolveChunk_unfrozen h]
  rw [if_neg hready] at h ⊢
  by_cases hinvalid : reported > P.C ∨ last < first
  · rw [if_pos hinvalid]
  rw [if_neg hinvalid] at h ⊢
  by_cases hskew : first = σ.node.recoverBase ∧ last ≠ σ.node.recoverLast
  · rw [if_pos hskew]
  rw [if_neg hskew]
  by_cases hfirst : first ≠ σ.node.recoverBase
  · rw [if_pos hfirst]
  rw [if_neg hfirst]
  rw [if_neg (by tauto)] at h
  rw [maybeResolveChunk_unfrozen h]

/-- A message whose handling has no effects releases nothing. -/
theorem nodeStep_undriven {n : Node V} {sender recipient : Nat} {message : Message V}
    (h : (resolvingState P n (.step ⟨sender, recipient, message⟩)).bind frozenState = none)
    (hkind : ∀ slot value, message ≠ .commit slot value)
    (hmessage : ∀ member,
      (messageResolves P (St.start (notePeerProgress n member message)) member message).bind
          frozenState = none →
        (dispatch P (St.start (notePeerProgress n member message)) sender member
          message).1.effects = {}) :
    (operate P n (.step ⟨sender, recipient, message⟩)).effects.committed = [] := by
  show (nodeStep P n ⟨sender, recipient, message⟩).1.effects.committed = []
  unfold resolvingState at h
  unfold nodeStep
  dsimp only at h ⊢
  by_cases hrecipient : recipient ≠ n.id
  · rw [if_pos hrecipient]
    rfl
  rw [if_neg hrecipient]
  rcases hmember : membershipIndexOf n.membership sender with _ | member
  · rfl
  dsimp only
  by_cases hvoter : n.votingMember = true
  · rw [if_neg (by simp [hvoter])]
    rw [if_neg (by simp [hvoter, not_not.mp hrecipient]), hmember] at h
    rw [hmessage member h]
  · rw [if_pos (by simpa using hvoter)]
    cases message with
    | commit slot value => exact absurd rfl (hkind slot value)
    | _ => rfl

theorem tickOwnership_late {σ : St V} {noop : V} (hrole : σ.node.role = .preparing)
    (hticks : ¬ σ.node.electionTicks < σ.node.electionTimeoutTicks) :
    tickOwnership P σ noop = startRevocation P σ noop := by
  unfold tickOwnership
  rw [if_pos hrole, if_neg hticks]

/-- A tick of a candidate that drives no chunk releases nothing. -/
theorem nodeTick_undriven {n : Node V} {noop : V} (hrole : n.role = .preparing)
    (h : (resolvingState P n (.call (.tick noop))).bind frozenState = none) :
    (operate P n (.call (.tick noop))).effects.committed = [] := by
  show (nodeTick P n noop).1.effects.committed = []
  unfold nodeTick
  by_cases hvoter : n.votingMember = true
  swap
  · rw [if_pos (by simpa using hvoter)]
    rfl
  rw [if_neg (by simp [hvoter])]
  dsimp only
  rw [if_neg (show n.role ≠ .leader by simp [hrole])]
  unfold resolvingState tickResolves at h
  dsimp only at h
  by_cases hticks : saturatingIncrement n.electionTicks < n.electionTimeoutTicks
  · rw [if_pos ⟨hvoter, hrole, hticks⟩] at h
    have hidle := congrArg (fun σ : St V => σ.effects.committed) (maybeResolveChunk_unfrozen (P := P) h)
    by_cases hmode : n.ownership = true
    · rw [if_pos hmode, tickOwnership_preparing hrole hticks]
      exact hidle
    · rw [if_neg hmode, if_pos ⟨hrole, hticks⟩]
      exact hidle
  · by_cases hmode : n.ownership = true
    · rw [if_pos hmode, tickOwnership_late hrole hticks]
      exact startRevocation_unreleased _ noop
    · rw [if_neg hmode, if_neg fun hearly => hticks hearly.2]
      split_ifs
      · exact startCampaign_unreleased _ noop
      · rfl

/-- Without a drive an operation releases nothing, or it is told one decision at most. -/
theorem operate_undriven {n : Node V} {op : Operation V}
    (h : (resolvingState P n op).bind frozenState = none) :
    (operate P n op).effects.committed = [] ∨
      ∃ only, ∀ s v, decisionFor P n op s = some v → s = only := by
  have hsilent : (∀ s, decisionFor P n op s = none) →
      ∃ only, ∀ s v, decisionFor P n op s = some v → s = only := by
    intro hnone
    refine ⟨0, fun s v hs => ?_⟩
    rw [hnone s] at hs
    cases hs
  have hsingle : ∀ slot, (∀ s v, decisionFor P n op s = some v → slot = s) →
      ∃ only, ∀ s v, decisionFor P n op s = some v → s = only :=
    fun slot honly => ⟨slot, fun s v hs => (honly s v hs).symm⟩
  cases op with
  | call c =>
      cases c with
      | tick noop =>
          by_cases hrole : n.role = .preparing
          · exact Or.inl (nodeTick_undriven hrole h)
          · exact Or.inr (hsilent fun s => if_neg hrole)
      | _ => exact Or.inr (hsilent fun s => rfl)
  | step e =>
      obtain ⟨sender, recipient, message⟩ := e
      cases message with
      | commit slot value =>
          refine Or.inr (hsingle slot fun s v hs => ?_)
          by_contra hne
          cases (if_neg hne).symm.trans hs
      | accepted ballot slot through =>
          refine Or.inr (hsingle slot fun s v hs => ?_)
          by_contra hne
          cases (if_neg hne).symm.trans hs
      | promise ballot slot vote state value =>
          exact Or.inl (nodeStep_undriven h (by simp) fun member hmember =>
            onPromise_undriven hmember)
      | promiseRange ballot anchor through first last reported more =>
          exact Or.inl (nodeStep_undriven h (by simp) fun member hmember =>
            onPromiseRange_undriven hmember)
      | _ => exact Or.inr (hsilent fun s => rfl)
  | learnChosen sender slot value =>
      refine Or.inr (hsingle slot fun s v hs => ?_)
      by_contra hne
      cases (if_neg hne).symm.trans hs
  | _ => exact Or.inr (hsilent fun s => rfl)

/-- A transition passes two slots with different decisions through. -/
def Overwrites (P : Params) (n : Node V) (op : Operation V) : Prop :=
  ∃ τ noop, (resolvingState P n op).bind frozenState = some (τ, noop) ∧
    ∃ first second, PassesThrough P τ.node first ∧ PassesThrough P τ.node second ∧
      τ.node.recoveredDecision first ≠ τ.node.recoveredDecision second

variable [Inhabited V]

/-- The batch of a transition of a reachable node is stable if and only if the drive, where there is
one, passes no two slots with different decisions through. -/
theorem effects_stable {n : Node V} (hn : Reachable P n) (op : Operation V) :
    Stable P (decisionFor P n op) (operate P n op) ↔ ¬ Overwrites P n op := by
  have hlent := operate_lent hn.fit.tagged hn.valid.1.floor op
  rw [hlent.stable_iff]
  cases hdrive : (resolvingState P n op).bind frozenState with
  | none =>
      refine iff_of_true (fun slot hslot slot' hslot' => ?_) ?_
      · rcases operate_undriven hdrive with hcommitted | ⟨only, honly⟩
        · simp [Effects.passedSlots, hcommitted] at hslot
        · obtain ⟨v, hv⟩ := hlent.passing.given slot hslot
          obtain ⟨w, hw⟩ := hlent.passing.given slot' hslot'
          rw [honly slot v hv, honly slot' w hw]
      · rintro ⟨τ, noop, hsome, -⟩
        rw [hdrive] at hsome
        cases hsome
  | some drive =>
      obtain ⟨τ, noop⟩ := drive
      obtain ⟨hr, hpasses⟩ := operate_passes hn.fit.opened hn.fit.tagged hdrive
      -- the drive passes through what the candidate was told
      have htold : ∀ slot, PassesThrough P τ.node slot →
          decisionFor P n op slot = τ.node.recoveredDecision slot := by
        intro slot hslot
        have hdecision : τ.node.recoveredDecision slot =
            some (τ.node.recovered (slot - τ.node.recoverBase)).value := if_pos hslot.reported
        rw [hdecision]
        exact hr.told slot _ hdecision
      constructor
      · rintro hagree ⟨τ', noop', hsome, first, second, hfirst, hsecond, hdiffer⟩
        rw [hdrive] at hsome
        cases hsome
        apply hdiffer
        rw [← htold first hfirst, ← htold second hsecond]
        exact hagree first ((hpasses first).mpr hfirst) second ((hpasses second).mpr hsecond)
      · intro hnot slot hslot slot' hslot'
        rw [hpasses] at hslot hslot'
        rw [htold slot hslot, htold slot' hslot']
        by_contra hdiffer
        exact hnot ⟨τ, noop, hdrive, slot, slot', hslot, hslot', hdiffer⟩

end Drives

/-! ## A resolution that passes two slots through -/

/-- A resumption keeps the slot numbers words. -/
theorem nodeResumeAt_words {n : Node V} {base : Nat} (h : n.ledger.Words) :
    (nodeResumeAt P n base).ledger.Words := by
  have hledger : (nodeResumeAt P n base).ledger = clearOpenCells P n.ledger base := by
    unfold nodeResumeAt
    dsimp only
    split_ifs <;> rfl
  have hclear := clearOpenCells_cells (P := P) base n.ledger
  rw [hledger]
  constructor
  · intro i
    rw [hclear.cells]
    split_ifs
    · exact Nat.zero_le _
    · exact h.slots i
  · rw [hclear.anchor]
    exact h.anchor

/-- The decisions of a member that consumed slots 1 to 4 and has heard of slots 6 and 8. -/
def consumedJournal : List (Write Nat) :=
  [.chosen 1 10, .chosen 2 20, .chosen 3 30, .chosen 4 40, .chosen 6 60, .chosen 8 80]

/-- The member, restarted at slot 4. -/
def restartedNode : Node Nat :=
  nodeResumeAt quadParams
    { trioNode .zero with ledger := (replay quadParams consumedJournal).1 } 4

/-- The member after it lost its state and installed the image of slot 1. -/
def imageNode : Node Nat :=
  ((nodeBeginRecovery quadParams restartedNode ⟨1, 1⟩).toOption).getD restartedNode

/-- Its campaign, and the answer of member 2: slots 2 and 4, whose cells hold slots 6 and 8, are
decided with 20 and `fourth`. -/
def imageCampaign (fourth : Nat) : List (Operation Nat) :=
  [.call (.campaign 0),
    .step ⟨2, 1, .promise (ballotMake 1 0 1) 2 0 .chosen 20⟩,
    .step ⟨2, 1, .promise (ballotMake 1 0 1) 4 0 .chosen fourth⟩,
    .step ⟨2, 1, .promiseRange (ballotMake 1 0 1) {} 0 2 5 2 false⟩]

/-- The answer of member 3, which completes the read quorum. -/
def secondAnswer : Operation Nat :=
  .step ⟨3, 1, .promiseRange (ballotMake 1 0 1) {} 0 2 5 0 false⟩

theorem imageNode_reachable : Reachable quadParams imageNode := by
  have hm : Compiled quadParams trio := ⟨[1, 2, 3], 2, 2, by decide, rfl⟩
  have hwords : ∀ w ∈ consumedJournal, w.Word := by
    intro w hw
    simp only [consumedJournal, List.mem_cons, List.not_mem_nil, or_false] at hw
    rcases hw with rfl | rfl | rfl | rfl | rfl | rfl <;> simp [Write.Word, maxSlot]
  have hreplay : replay quadParams consumedJournal =
      ((replay quadParams consumedJournal).1, .none) := Prod.ext rfl (by decide +kernel)
  have hopened : nodeRestore quadParams 1 trio (replay quadParams consumedJournal).1 4 .zero =
      .ok restartedNode := rfl
  have himage : nodeBeginRecovery quadParams restartedNode ⟨1, 1⟩ = .ok imageNode := rfl
  have hrestart := Reachable.restore hm (by decide) hwords hreplay hopened
  exact hrestart.recover (nodeResumeAt_words ((replay_source hreplay).words hwords))
    (by decide) himage

/-- When both slots are decided with 20, the resolution passes both through and its batch is
stable. -/
theorem effects_stable_agreed :
    (operate quadParams (operateAll quadParams imageNode (imageCampaign 20))
        secondAnswer).effects.passedSlots = [2, 4] ∧
      Stable quadParams
        (decisionFor quadParams (operateAll quadParams imageNode (imageCampaign 20)) secondAnswer)
        (operate quadParams (operateAll quadParams imageNode (imageCampaign 20)) secondAnswer) := by
  refine ⟨by decide +kernel, ?_⟩
  have hreach := imageNode_reachable.all (imageCampaign 20)
  have hfloor : (operateAll quadParams imageNode (imageCampaign 20)).memoryFloor = 1 := by
    decide +kernel
  have htold : ∀ s ∈ List.range 6, ∀ v ∈ decisionFor quadParams
      (operateAll quadParams imageNode (imageCampaign 20)) secondAnswer s, v = 20 := by
    decide +kernel
  generalize operateAll quadParams imageNode (imageCampaign 20) = n at *
  rw [effects_stable hreach]
  rintro ⟨τ, noop, hdrive, first, second, hfirst, hsecond, hdiffer⟩
  have hr := (operate_passes hreach.fit.opened hreach.fit.tagged hdrive).1
  have htwenty : ∀ s, PassesThrough quadParams τ.node s →
      τ.node.recoveredDecision s = some 20 := by
    intro s hs
    have hdecision : τ.node.recoveredDecision s =
        some (τ.node.recovered (s - τ.node.recoverBase)).value := if_pos hs.reported
    have hwindow : s ≤ 1 + 4 := by
      rw [← hfloor, ← hr.floor]
      exact hs.driven.2.trans (driveLimit_window _)
    rw [hdecision, htold s (List.mem_range.mpr (by omega)) _ (hr.told s _ hdecision)]
  exact hdiffer ((htwenty first hfirst).trans (htwenty second hsecond).symm)

/-- The batch of the resolution releases slot 2 with the decision of slot 4. -/
theorem effects_overwritten :
    ¬ ∀ (P : Params) (n : Node Nat) (op : Operation Nat), Reachable P n →
      Stable P (decisionFor P n op) (operate P n op) := by
  intro hstable
  have hreach : Reachable quadParams (operateAll quadParams imageNode (imageCampaign 40)) :=
    imageNode_reachable.all (imageCampaign 40)
  have htold : decisionFor quadParams (operateAll quadParams imageNode (imageCampaign 40))
      secondAnswer 2 = some 20 := by decide +kernel
  have hmem : Reference.passed 2 40 ∈ (operate quadParams
      (operateAll quadParams imageNode (imageCampaign 40)) secondAnswer).effects.references
        quadParams := by
    decide +kernel
  have hdenotes := (hstable quadParams _ secondAnswer hreach).denotes _ hmem
  have : some 20 = some 40 := htold.symm.trans hdenotes
  cases this

end PaxosOdin
