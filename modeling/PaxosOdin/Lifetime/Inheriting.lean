import PaxosOdin.Lifetime.Authority
import PaxosOdin.Lifetime.Bitmaps
import PaxosOdin.Lifetime.Leading

/-!
# What a new leader inherits

A candidate drives one chunk after the other, and becomes leader after the last one.  Its term
starts above its own used cells and above the fence, so a slot between the fence and the start of the
term must have been driven in some chunk.  This holds of the slots of the chunks, unless another slot
keeps their cell; it fails for the cells of the candidate itself that lie above its last chunk, which
only the reports of the counted members can extend.

Main definitions:

- Definition `Inherited`: a slot is decided, or voted for at the ballot of the leader.
- Definition `Rested`: every slot below the chunk lies at a fence, is inherited or is stuck.

Main results:

- Theorem `Micro.rested`: a small step keeps the driven chunks.
- Theorem `leader_inherits`: when exactly a new leader has driven everything below its term.
- Theorem `leader_leaves_vote`: it may leave a vote of an older ballot below its term.
-/

namespace PaxosOdin

variable {V : Type} {P : Params} {I : Input V}

/-- The ledger holds a decision for the slot, or a vote at the ballot of the node. -/
def Inherited (P : Params) (n : Node V) (slot : Nat) : Prop :=
  (n.ledger.cellAt P slot).slot = slot ∧
    ((n.ledger.cellAt P slot).state = .chosen ∨
      ((n.ledger.cellAt P slot).state = .voted ∧ (n.ledger.cellAt P slot).voteBallot = n.ballot))

instance (P : Params) (n : Node V) (slot : Nat) : Decidable (Inherited P n slot) :=
  inferInstanceAs (Decidable (_ ∧ _))

/-! ## The used cells of a drive -/

/-- Every used cell was used for the same slot before, or is the cell of `slot`. -/
def UsesOnly (l l' : Ledger V) (slot : Nat) : Prop :=
  ∀ i ∈ l'.used, (l'.cells i).slot = slot ∨ (i ∈ l.used ∧ (l'.cells i).slot = (l.cells i).slot)

theorem UsesOnly.refl (l : Ledger V) (slot : Nat) : UsesOnly l l slot :=
  fun _ hi => Or.inr ⟨hi, rfl⟩

theorem UsesOnly.trans {l l' l'' : Ledger V} {slot : Nat} (h : UsesOnly l l' slot)
    (h' : UsesOnly l' l'' slot) : UsesOnly l l'' slot := by
  intro i hi
  rcases h' i hi with heq | ⟨hused, heq⟩
  · exact Or.inl heq
  · rw [heq]
    exact h i hused

theorem Claimed.usesOnly {n n' : Node V} {slot cell : Nat} (h : Claimed P n n' slot cell) :
    UsesOnly n.ledger n'.ledger slot := by
  rcases h.cases with rfl | ⟨rfl, -, -⟩
  · exact UsesOnly.refl _ _
  · intro i hi
    obtain ⟨hother, hused⟩ := Finset.mem_erase.mp hi
    exact Or.inr ⟨hused, congrArg Cell.slot (ledgerOpen_of_ne _ hother)⟩

theorem ledgerRecordChosen_usesOnly {l : Ledger V} {cell slot : Nat} (value : V)
    (hheld : (l.cells cell).slot = slot) : UsesOnly l (ledgerRecordChosen l cell value) slot := by
  intro i hi
  rw [ledgerRecordChosen_cells]
  rcases Finset.mem_insert.mp hi with rfl | hi
  · exact Or.inl hheld
  · exact Or.inr ⟨hi, rfl⟩

theorem voteForProposal_usesOnly {σ : St V} {cell slot : Nat} (ballot : Nat) (value : V)
    (hheld : (σ.node.ledger.cells cell).slot = slot) :
    UsesOnly σ.node.ledger (voteForProposal σ cell slot ballot value).node.ledger slot := by
  intro i hi
  have hslot : ((voteForProposal σ cell slot ballot value).node.ledger.cells i).slot =
      (σ.node.ledger.cells i).slot := by
    simp [voteForProposal, St.addWrite, ledgerRecordVote_cells, ledgerSetPromiseAt_cells]
  rw [hslot]
  rcases Finset.mem_insert.mp hi with rfl | hi
  · exact Or.inl hheld
  · exact Or.inr ⟨hi, rfl⟩

theorem emitContiguous_ledger (σ : St V) : (emitContiguous P σ).node.ledger = σ.node.ledger := by
  obtain ⟨through, entries, -, heq⟩ := emitContiguous_eq P σ
  rw [heq]

/-- A ledger whose used cells grew by one slot. -/
theorem UsesOnly.highestUsed {l l' : Ledger V} {slot bound : Nat} (h : UsesOnly l l' slot)
    (hslot : slot ≤ bound) (hl : ledgerHighestUsed P l ≤ bound) :
    ledgerHighestUsed P l' ≤ bound := by
  refine (ledgerHighestUsed_bounds l').2 bound fun i hi hused => ?_
  rcases h i hused with heq | ⟨hbefore, heq⟩
  · rw [heq]
    exact hslot
  · rw [heq]
    exact ((ledgerHighestUsed_bounds l).1 i hi hbefore).trans hl

section Uses

variable [DecidableEq V]

theorem recordCommit_usesOnly (σ : St V) (slot : Nat) (value : V) :
    UsesOnly σ.node.ledger (recordCommit P σ slot value).1.node.ledger slot := by
  unfold recordCommit
  by_cases hzero : slot = 0
  · rw [if_pos hzero]
    exact UsesOnly.refl _ _
  rw [if_neg hzero]
  set n₁ : Node V := { σ.node with highestSeen := max σ.node.highestSeen slot }
  dsimp only
  by_cases hlow : slot ≤ σ.node.memoryFloor ∨ slot ≤ σ.node.ledger.anchor.chosenTrimSlot
  · rw [if_pos hlow]
    exact UsesOnly.refl _ _
  rw [if_neg hlow]
  rcases hclaim : claimLive P n₁ slot with ⟨n, _ | cell⟩
  · dsimp only
    split_ifs with hreleased hnext
    · exact UsesOnly.refl _ _
    · rw [emitContiguous_ledger]
      exact UsesOnly.refl _ _
    · exact UsesOnly.refl _ _
  · have hc := claimLive_some hclaim
    have hcell := hc.cell_eq
    subst hcell
    have huses : UsesOnly σ.node.ledger n.ledger slot := hc.usesOnly
    dsimp only
    by_cases hchosen : (n.ledger.cells (cellOf slot P.W)).state = .chosen
    · rw [if_pos hchosen]
      split_ifs
      · exact huses
      · rw [emitContiguous_ledger]
        exact huses
    · rw [if_neg hchosen, emitContiguous_ledger]
      simp only [St.addWrite, requeue_ledger]
      exact huses.trans (ledgerRecordChosen_usesOnly value hc.held)

theorem sendAccept_usesOnly (σ : St V) (slot ballot : Nat) (value : V) :
    UsesOnly σ.node.ledger (sendAccept P σ slot ballot value).1.node.ledger slot := by
  unfold sendAccept
  rcases hclaim : claimLive P σ.node slot with ⟨n, _ | cell⟩
  · exact UsesOnly.refl _ _
  have hc := claimLive_some hclaim
  have hcell := hc.cell_eq
  subst hcell
  dsimp only
  split_ifs
  · exact hc.usesOnly
  · exact hc.usesOnly
  · exact hc.usesOnly
  have hvote := hc.usesOnly.trans
    (voteForProposal_usesOnly (σ := { σ with node := n }) ballot value hc.held)
  unfold announceProposal
  split_ifs
  · have hcommit := hvote.trans (recordCommit_usesOnly (P := P)
      (voteForProposal { σ with node := n } (cellOf slot P.W) slot ballot value) slot value)
    rcases hres : recordCommit P
      (voteForProposal { σ with node := n } (cellOf slot P.W) slot ballot value) slot value with ⟨τ, e⟩
    rw [hres] at hcommit
    cases e <;> exact hcommit
  · exact hvote

/-- The loop of `resolve_chunk` uses no cell for a slot beyond the ones it drives. -/
theorem resolveLoop_highestUsed {noop : V} {bound : Nat} :
    ∀ {fuel : Nat} {σ : St V} {slot : Nat}, (0 < fuel → slot + fuel ≤ bound + 1) →
      ledgerHighestUsed P σ.node.ledger ≤ bound →
        ledgerHighestUsed P (resolveLoop P noop fuel σ slot).1.node.ledger ≤ bound := by
  intro fuel
  induction fuel with
  | zero => exact fun _ h => h
  | succ fuel ih =>
      intro σ slot hroom hused
      have hstop := hroom (Nat.succ_pos fuel)
      have hnext : ∀ {τ : St V}, ledgerHighestUsed P τ.node.ledger ≤ bound →
          ledgerHighestUsed P (resolveLoop P noop fuel τ (slot + 1)).1.node.ledger ≤ bound :=
        fun h => ih (fun _ => by omega) h
      unfold resolveLoop
      split_ifs with hmax
      · exact hused
      dsimp only
      cases ledgerChosenAt P σ.node.ledger slot with
      | some value => exact hnext hused
      | none =>
          dsimp only
          by_cases hchosen : (σ.node.recovered (slot - σ.node.recoverBase)).slot = slot ∧
              (σ.node.recovered (slot - σ.node.recoverBase)).state = .chosen
          · rw [if_pos hchosen]
            have hcommit := (recordCommit_usesOnly (P := P) σ slot
              (σ.node.recovered (slot - σ.node.recoverBase)).value).highestUsed (by omega) hused
            rcases hres : recordCommit P σ slot
              (σ.node.recovered (slot - σ.node.recoverBase)).value with ⟨τ, e⟩
            rw [hres] at hcommit
            cases e with
            | none =>
                dsimp only
                cases ledgerChosenAt P τ.node.ledger slot <;> exact hnext hcommit
            | _ => exact hcommit
          · rw [if_neg hchosen]
            generalize (if (σ.node.recovered (slot - σ.node.recoverBase)).slot = slot ∧
              (σ.node.recovered (slot - σ.node.recoverBase)).state = .voted then
                (σ.node.recovered (slot - σ.node.recoverBase)).value else noop) = value
            have hcast := (sendAccept_usesOnly (P := P) σ slot σ.node.ballot value).highestUsed
              (by omega) hused
            rcases haccept : sendAccept P σ slot σ.node.ballot value with ⟨τ, e⟩
            rw [haccept] at hcast
            cases e with
            | none => exact hnext hcast
            | _ => exact hcast

/-- Nor does the drive of the chunk. -/
theorem resolveChunk_highestUsed {σ : St V} {noop : V} {anyMore : Bool} {bound : Nat}
    (hgoal : driveGoal P σ.node anyMore ≤ bound) (hused : ledgerHighestUsed P σ.node.ledger ≤ bound) :
    ledgerHighestUsed P (resolveChunk P σ noop anyMore).1.node.ledger ≤ bound := by
  have hloop := @resolveLoop_highestUsed V P _ noop bound
    (min (driveGoal P σ.node anyMore) (slotAdd σ.node.memoryFloor P.W) + 1 - driveStart σ.node) σ
    (driveStart σ.node) (fun _ => by omega) hused
  unfold resolveChunk
  dsimp only
  split_ifs with hfence
  · exact hused
  rcases hres : resolveLoop P noop
      (min (driveGoal P σ.node anyMore) (slotAdd σ.node.memoryFloor P.W) + 1 - driveStart σ.node) σ
      (driveStart σ.node) with ⟨τ, _ | ⟨resolved, e⟩⟩
  · rw [hres] at hloop
    dsimp only
    split_ifs
    · cases (quorumFences σ.node).chosenPeer <;> exact hloop
    · exact hloop
  · rw [hres] at hloop
    exact hloop

end Uses

/-! ## The chunks that were driven -/

/-- A slot that needs no further driving: it lies at a fence, it is inherited, or it is stuck. -/
def Covered (P : Params) (n : Node V) (slot : Nat) : Prop :=
  (slot ≤ n.deliveredThrough ∨ ¬ AboveReports n slot) ∨ Inherited P n slot ∨ Stuck P n slot

/-- A candidate has driven every slot below its chunk. -/
def Rested (P : Params) (n : Node V) : Prop :=
  n.role = .preparing → ∀ s < n.recoverBase, Covered P n s

/-- What a drive settled and left no older vote in is covered. -/
theorem Settled.covered {n : Node V} {slot : Nat} (h : Settled P n slot) (hr : Redriven P n slot)
    (hfloor : n.memoryFloor ≤ n.deliveredThrough) : Covered P n slot := by
  by_cases hlow : slot ≤ n.memoryFloor
  · exact Or.inl (Or.inl (hlow.trans hfloor))
  rcases h with hle | hle | habove | ⟨hheld, hstate⟩ | hstuck
  · exact absurd hle hlow
  · exact Or.inl (Or.inl hle)
  · exact Or.inl (Or.inr habove)
  · cases hcell : (n.ledger.cellAt P slot).state with
    | empty => exact absurd hcell hstate
    | chosen => exact Or.inr (Or.inl ⟨hheld, Or.inl hcell⟩)
    | voted =>
        by_cases hballot : (n.ledger.cellAt P slot).voteBallot = n.ballot
        · exact Or.inr (Or.inl ⟨hheld, Or.inr ⟨hcell, hballot⟩⟩)
        · exact Or.inl (hr ⟨Nat.lt_of_not_le hlow, hheld, hcell, hballot⟩)
  · exact Or.inr (Or.inr hstuck)

/-- Whether a slot is covered depends on its cell, the ballot and the frontiers. -/
theorem Covered.of_cell {n n' : Node V} {slot : Nat} (h : Covered P n slot)
    (hballot : n'.ballot = n.ballot) (hfloor : n'.memoryFloor = n.memoryFloor)
    (hdelivered : n.deliveredThrough ≤ n'.deliveredThrough)
    (hreports : ¬ AboveReports n slot → ¬ AboveReports n' slot)
    (hslot : (n'.ledger.cellAt P slot).slot = (n.ledger.cellAt P slot).slot)
    (hvote : (n'.ledger.cellAt P slot).state = (n.ledger.cellAt P slot).state ∧
        (n'.ledger.cellAt P slot).voteBallot = (n.ledger.cellAt P slot).voteBallot ∨
      n.memoryFloor < (n.ledger.cellAt P slot).slot ∧ ((n'.ledger.cellAt P slot).state = .chosen ∨
        ((n'.ledger.cellAt P slot).state = .voted ∧
          (n'.ledger.cellAt P slot).voteBallot = n.ballot))) : Covered P n' slot := by
  rcases h with hbehind | ⟨hheld, hstate⟩ | ⟨hwindow, hother, h0, hkept⟩
  · exact Or.inl (hbehind.imp (fun hle => hle.trans hdelivered) hreports)
  · refine Or.inr (Or.inl ⟨hslot.trans hheld, ?_⟩)
    rw [hballot]
    rcases hvote with ⟨hsame, hsame'⟩ | ⟨-, hnew⟩
    · rw [hsame, hsame']
      exact hstate
    · exact hnew
  · refine Or.inr (Or.inr ⟨by rw [hfloor]; exact hwindow, by rw [hslot]; exact hother,
      by rw [hslot]; exact h0, fun hreleased => ?_⟩)
    rw [hslot, hfloor] at hreleased
    rcases hvote with ⟨hsame, -⟩ | ⟨hlive, -⟩
    · rw [hsame] at hreleased
      exact hkept hreleased
    · exact absurd hreleased.1 (Nat.not_le.mpr hlive)

/-- Opening a released cell uncovers nothing. -/
theorem Covered.open {n : Node V} {slot opened : Nat} (h : Covered P n slot)
    (hfloor : n.memoryFloor ≤ n.deliveredThrough)
    (hfree : (n.ledger.cellAt P opened).slot = 0 ∨
      ((n.ledger.cellAt P opened).slot ≤ n.memoryFloor ∧
        (n.ledger.cellAt P opened).state = .chosen)) :
    Covered P { n with ledger := ledgerOpen n.ledger (cellOf opened P.W) opened } slot := by
  by_cases hcell : cellOf slot P.W = cellOf opened P.W
  · simp only [Ledger.cellAt, ← hcell] at hfree
    rcases h with hbehind | ⟨hheld, -⟩ | ⟨-, -, h0, hkept⟩
    · exact Or.inl hbehind
    · refine Or.inl (Or.inl ?_)
      simp only [Ledger.cellAt] at hheld
      show slot ≤ n.deliveredThrough
      rcases hfree with h0 | ⟨hle, -⟩ <;> omega
    · rcases hfree with hzero | hreleased
      · exact absurd hzero h0
      · exact absurd hreleased hkept
  · have hsame : (ledgerOpen n.ledger (cellOf opened P.W) opened).cellAt P slot =
        n.ledger.cellAt P slot := ledgerOpen_of_ne _ hcell
    refine h.of_cell rfl rfl le_rfl id ?_ (Or.inl ⟨?_, ?_⟩) <;> rw [hsame]

/-- The small steps of a learner keep what was driven. -/
theorem Learn.covered {σ σ' : St V} (h : Learn P I σ σ') {slot : Nat}
    (hfloor : σ.node.memoryFloor ≤ σ.node.deliveredThrough) (hc : Covered P σ.node slot) :
    Covered P σ'.node slot := by
  cases h with
  | claim _ _ _ hfree => exact hc.open hfloor hfree
  | @choose chosen value _ hlive _ hheld =>
      by_cases hcell : cellOf slot P.W = cellOf chosen P.W
      · simp only [Ledger.cellAt, ← hcell] at hheld
        refine hc.of_cell rfl rfl le_rfl id ?_ (Or.inr ⟨?_, Or.inl ?_⟩)
        · simp [St.withLedger, St.addWrite, Ledger.cellAt, ledgerRecordChosen_cells]
        · simp only [Ledger.cellAt, hheld]
          exact hlive
        · simp [St.withLedger, St.addWrite, Ledger.cellAt, ledgerRecordChosen_cells, hcell]
      · refine hc.of_cell rfl rfl le_rfl id ?_ (Or.inl ⟨?_, ?_⟩) <;>
          simp [St.withLedger, St.addWrite, Ledger.cellAt, ledgerRecordChosen_cells, hcell]
  | pass _ hnext =>
      refine hc.of_cell rfl rfl ?_ id rfl (Or.inl ⟨rfl, rfl⟩)
      rw [hnext]
      exact Nat.le_succ _
  | deliver => exact hc.of_cell rfl rfl (Nat.le_succ _) id rfl (Or.inl ⟨rfl, rfl⟩)
  | _ => exact hc

section Steps

variable [DecidableEq V]

/-- A small step keeps the driven chunks driven. -/
theorem Micro.rested {σ σ' : St V} (h : Micro P I σ σ') (hgenuine : I.Genuine)
    (hc : Campaigns P σ) (hr : Rested P σ.node) : Rested P σ'.node := by
  have hfloor := hc.opened.floor
  intro hrole' s hs
  cases h with
  | learn hl =>
      have hrole : σ'.node.role = σ.node.role := congrArg Fixed.role hl.fixed
      have hbase : σ'.node.recoverBase = σ.node.recoverBase := congrArg Fixed.recoverBase hl.fixed
      rw [hrole] at hrole'
      rw [hbase] at hs
      exact hl.covered hfloor (hr hrole' s hs)
  | idle hrole =>
      rcases hrole with rfl | rfl
      · exact hr hrole' s hs
      · cases hrole'
  | progress => exact hr hrole' s hs
  | promise => exact hr hrole' s hs
  | promiseAt =>
      refine (hr hrole' s hs).of_cell rfl rfl le_rfl id ?_ (Or.inl ⟨?_, ?_⟩) <;>
        simp [St.withLedger, St.addWrite, Ledger.cellAt, ledgerSetPromiseAt_cells]
  | @vote sender ballot slot value hheard _ _ _ _ _ hzero _ _ hyields =>
      -- a candidate hears no Accept at its own ballot, and gives up its role for a greater one
      have hround : 0 < ballotRound ballot := by
        refine Nat.pos_of_ne_zero fun h0 => ?_
        have hmode := (hzero h0).1
        rw [hc.mode] at hmode
        cases hmode
      have hfollower : σ.node.role ≠ .follower := by
        rw [show σ.node.role = .preparing from hrole']
        simp
      rcases hyields hround with hrole | rfl
      · exact absurd hrole hfollower
      · obtain ⟨hsigned, hother⟩ := hgenuine _ hheard
        rcases hsigned with hsender | h0
        · exact absurd ((hc.commands hfollower).mine.symm.trans hsender) hother
        · exact absurd h0 hround.ne'
  | @drive slot ballot value hballot _ hlive _ hheld =>
      have hcovered := hr hrole' s hs
      by_cases hcell : cellOf s P.W = cellOf slot P.W
      · simp only [Ledger.cellAt, ← hcell] at hheld
        refine hcovered.of_cell rfl rfl le_rfl id ?_ (Or.inr ⟨?_, Or.inr ⟨?_, ?_⟩⟩)
        · simp [voteForProposal, St.addWrite, Ledger.cellAt, ledgerRecordVote_cells,
            ledgerSetPromiseAt_cells]
        · simp only [Ledger.cellAt, hheld]
          exact hlive
        · simp [voteForProposal, St.addWrite, Ledger.cellAt, ledgerRecordVote_cells, hcell]
        · simp [voteForProposal, St.addWrite, Ledger.cellAt, ledgerRecordVote_cells, hcell, hballot]
      · refine hcovered.of_cell rfl rfl le_rfl id ?_ (Or.inl ⟨?_, ?_⟩) <;>
          simp [voteForProposal, St.addWrite, Ledger.cellAt, ledgerRecordVote_cells,
            ledgerSetPromiseAt_cells, hcell]
  | own hown =>
      rw [hc.mode] at hown
      cases hown
  | acknowledge => exact hr hrole' s hs
  | @report sender member offset ballot rslot vote state value _ _ hrole =>
      have hframe : (recordReport σ.node member offset rslot vote state value).1.ledger =
            σ.node.ledger ∧
          (recordReport σ.node member offset rslot vote state value).1.memoryFloor =
            σ.node.memoryFloor ∧
          (recordReport σ.node member offset rslot vote state value).1.deliveredThrough =
            σ.node.deliveredThrough ∧
          (recordReport σ.node member offset rslot vote state value).1.ballot = σ.node.ballot ∧
          (recordReport σ.node member offset rslot vote state value).1.recoverBase =
            σ.node.recoverBase := by
        unfold recordReport
        dsimp only
        split_ifs <;> exact ⟨rfl, rfl, rfl, rfl, rfl⟩
      obtain ⟨hledger, hfloor', hdelivered, hballot, hbase⟩ := hframe
      have hcovered := hr hrole s (by rw [← hbase]; exact hs)
      refine hcovered.of_cell hballot hfloor' hdelivered.ge (fun hn hn' => hn ?_) (by rw [hledger])
        (Or.inl (by rw [hledger]; exact ⟨rfl, rfl⟩))
      refine hn'.of_le (recordReport_membership _ _ _ _ _ _ _) (by rw [hledger]) (fun i _ => ?_)
        (fun i _ => ?_)
      · exact (recordReport_frontiers _ _ _ _ _ _ _ i).1.ge
      · rw [(recordReport_frontiers _ _ _ _ _ _ _ i).2]
  | manifest _ _ hrole =>
      refine (hr hrole s hs).of_cell rfl rfl le_rfl (fun hn hn' => hn ?_) rfl (Or.inl ⟨rfl, rfl⟩)
      exact hn'.of_le rfl rfl (fun i _ => (recordManifest_frontiers _ _ _ _ _ _ _ _ i).1)
        (fun i _ => (recordManifest_frontiers _ _ _ _ _ _ _ _ i).2)
  | freeze => exact hr hrole' s hs
  | nextChunk hrole _ _ _ hsettled hdriven =>
      -- the chunk that was just driven joins those below it
      have hcovered : Covered P σ.node s := by
        by_cases hlow : s < σ.node.recoverBase
        · exact hr hrole s hlow
        · have hlast : s ≤ σ.node.recoverLast := Nat.le_of_lt_succ hs
          exact (hsettled s (Nat.le_of_not_lt hlow) hlast).covered
            (hdriven s (Nat.le_of_not_lt hlow) hlast) hfloor
      refine hcovered.of_cell rfl rfl le_rfl (fun hn hn' => hn ?_) rfl (Or.inl ⟨rfl, rfl⟩)
      refine hn'.of_le rfl rfl (fun i _ => (beginNextChunk_frontiers σ i).1.ge) (fun i _ => ?_)
      rw [(beginNextChunk_frontiers σ i).2]
  | lead => cases hrole'

omit [DecidableEq V] in
/-- A campaign starts right above what was delivered. -/
theorem Final.rested {n₀ : Node V} {σ σ' : St V} (h : Final P I n₀ σ σ')
    (hmode : n₀.ownership = false) (hr : Rested P σ.node) : Rested P σ'.node := by
  intro hrole' s hs
  cases h with
  | campaign => exact Or.inl (Or.inl (Nat.le_of_lt_succ hs))
  | revoke hown =>
      rw [hmode] at hown
      cases hown
  | answer => exact hr hrole' s hs

omit [DecidableEq V] in
/-- A floor that moves up frees no cell that another slot keeps. -/
theorem Stuck.raise {n n' : Node V} {slot : Nat} (h : Stuck P n slot) (htag : Tagged P n.ledger)
    (hcells : n'.ledger.cells = n.ledger.cells) (hfloor : n.memoryFloor ≤ n'.memoryFloor)
    (hlive : n'.memoryFloor < slot) : Stuck P n' slot := by
  obtain ⟨hwindow, hother, h0, hkept⟩ := h
  refine ⟨hwindow.trans (Nat.add_le_add_right hfloor _), ?_⟩
  unfold Ledger.cellAt
  rw [hcells]
  refine ⟨hother, h0, fun hreleased => ?_⟩
  simp only [Ledger.cellAt] at hother h0 hkept hreleased
  -- a cell that the floor passes is not one of a slot a window below this one
  by_cases hbelow : (n.ledger.cells (cellOf slot P.W)).slot ≤ n.memoryFloor
  · exact hkept ⟨hbelow, hreleased.2⟩
  · refine hother (eq_of_cellOf_eq P (Nat.lt_of_not_le hbelow) ?_ (lt_of_le_of_lt hfloor hlive)
      hwindow (htag _ h0))
    omega

omit [DecidableEq V] in
/-- The host's own operations move frontiers only. -/
theorem Hosted.rested {n : Node V} {σ : St V} (h : Hosted n σ) (htag : Tagged P n.ledger)
    (hfloor : σ.node.memoryFloor ≤ σ.node.deliveredThrough)
    (hdelivered : σ.node.deliveredThrough = n.deliveredThrough)
    (helection : σ.node.election = n.election) (hbase : σ.node.recoverBase = n.recoverBase)
    (hr : Rested P n) : Rested P σ.node := by
  intro hrole' s hs
  have hrole : n.role = .preparing := by
    rcases h.role with hsame | hfollower
    · exact hsame.symm.trans hrole'
    · rw [hfollower] at hrole'
      cases hrole'
  rw [hbase] at hs
  have hcells := h.cells
  rcases hr hrole s hs with (hle | habove) | ⟨hheld, hstate⟩ | hstuck
  · exact Or.inl (Or.inl (by rw [hdelivered]; exact hle))
  · refine Or.inl (Or.inr fun ha => habove ⟨lt_of_le_of_lt h.anchor ha.1, fun i hi => ?_⟩)
    have hreport := ha.2 i (by rw [h.membership]; exact hi)
    rw [helection] at hreport
    exact hreport
  · refine Or.inr (Or.inl ?_)
    unfold Inherited Ledger.cellAt
    rw [hcells, h.ballot]
    exact ⟨hheld, hstate⟩
  · by_cases hlow : s ≤ σ.node.memoryFloor
    · exact Or.inl (Or.inl (hlow.trans hfloor))
    · exact Or.inr (Or.inr (hstuck.raise htag hcells h.floor (Nat.lt_of_not_le hlow)))

/-- An operation of a node in campaign mode keeps the driven chunks driven. -/
theorem operate_rested {n : Node V} (hc : Campaigns P (St.start n)) (htag : Tagged P n.ledger)
    (hr : Rested P n) {op : Operation V} (hgenuine : ∀ e, op = .step e → e.Genuine) :
    Rested P (operate P n op).node := by
  have hfloor := (operate_opened hc.opened op).floor
  rcases operate_cases hc.opened op with ⟨τ, hrun, hlast⟩ | ⟨anchor, rfl⟩ | ⟨through, rfl⟩ |
    ⟨enabled, rfl⟩
  · have hinput : (op.input n).Genuine := operation_genuine hgenuine
    obtain ⟨-, hτ⟩ := hrun.preserves (motive := fun τ => Campaigns P τ ∧ Rested P τ.node)
      (fun hm ⟨hc, hr⟩ => ⟨hm.campaigns hinput hc, hm.rested hinput hc hr⟩) ⟨hc, hr⟩
    rcases hlast with heq | hfinal
    · exact Eq.mpr (congrArg (fun σ : St V => Rested P σ.node) heq) hτ
    · exact hfinal.rested hc.mode hτ
  · refine (nodeInstallChosenTrim_hosted n anchor).rested htag hfloor ?_ ?_ ?_ hr <;>
      unfold nodeInstallChosenTrim <;> dsimp only <;> split_ifs <;> rfl
  · refine (nodeAdvanceMemoryFloor_hosted n through).rested htag hfloor ?_ ?_ ?_ hr <;>
      unfold nodeAdvanceMemoryFloor <;> split_ifs <;> rfl
  · exact (nodeSetCampaignEnabled_hosted n enabled).rested htag hfloor rfl rfl rfl hr

end Steps

/-! ## The start of a term -/

section Terms

variable [DecidableEq V] [Inhabited V]

/-- Every candidate of the cluster has driven the slots below its chunk. -/
theorem Campaigning.rested {n : Node V} (h : Campaigning P n) : Rested P n := by
  refine h.invariant (motive := Rested P) ?_ ?_ ?_
  · intro n hopens hrole
    rw [hopens.idle.1] at hrole
    cases hrole
  · intro n n' anchor _ hbegin hrole
    rw [(nodeBeginRecovery_idle hbegin).1] at hrole
    cases hrole
  · intro n op hn hheard hrested
    obtain ⟨hreach, hc⟩ := hn.campaigns
    exact operate_rested hc hreach.fit.tagged hrested fun e he => (hheard e he).genuine

/-- A slot between the fence and the start of a term that begins now. -/
def BelowTerm (P : Params) (n : Node V) (slot : Nat) : Prop :=
  fenceOf n < slot ∧
    slot < max n.nextSlot (slotAdd (max (ledgerHighestUsed P n.ledger) (fenceOf n)) 1)

/-- The candidate holds nothing that its chunks did not reach: it proposes next right above its cells
and the fence, its cells above the last chunk are decided, and no slot is kept out of its cell. -/
structure Reached (P : Params) (n : Node V) : Prop where
  next : n.nextSlot ≤ max (ledgerHighestUsed P n.ledger) (fenceOf n) + 1
  above : ∀ s, BelowTerm P n s → n.recoverLast < s → ledgerChosenAt P n.ledger s ≠ none
  held : ∀ s, BelowTerm P n s → s ≤ n.recoverLast → ¬ Stuck P n s

omit [Inhabited V] in
/-- The state of the call: a candidate in campaign mode whose last chunk was driven. -/
theorem leadingState_run {n : Node V} (hc : Campaigns P (St.start n)) (hbits : Bits n.ledger)
    (hr : Rested P n) {op : Operation V} (hgenuine : ∀ e, op = .step e → e.Genuine) {ρ : St V}
    (h : leadingState P n op = some ρ) :
    Campaigns P ρ ∧ Bits ρ.node.ledger ∧ Rested P ρ.node ∧ ρ.node.role = .preparing ∧
      ∀ s, ρ.node.recoverBase ≤ s → s ≤ ρ.node.recoverLast → fenceOf ρ.node < s →
        s ≤ ledgerHighestUsed P ρ.node.ledger → Settled P ρ.node s ∧ Redriven P ρ.node s := by
  obtain ⟨σ, τ, noop, hσ, hτ, hρ⟩ := leadingState_some h
  have hinput : (op.input n).Genuine := operation_genuine hgenuine
  obtain ⟨hrun, hrole⟩ := resolvingState_run hσ
  obtain ⟨hrun', hrole', hfrozen, hnoop⟩ := frozenState_run (P := P) (I := op.input n) hrole hτ
  obtain ⟨hres, hmore, hmode⟩ := drivenState_some hρ
  obtain ⟨hrun'', hdone⟩ := resolveChunk_run (P := P) (I := op.input n) τ.node.recoveryMore hrole'
    hfrozen hnoop
  rw [hres] at hrun'' hdone
  have hdrove := hdone rfl
  dsimp only at hrun'' hdrove
  have hall : Run P (op.input n) (St.start n) ρ := (hrun.trans hrun').trans hrun''
  obtain ⟨hcρ, hrρ⟩ := hall.preserves (motive := fun τ => Campaigns P τ ∧ Rested P τ.node)
    (fun hm ⟨hc, hr⟩ => ⟨hm.campaigns hinput hc, hm.rested hinput hc hr⟩) ⟨hc, hr⟩
  have hbitsρ : Bits ρ.node.ledger :=
    hall.preserves (motive := fun τ => Bits τ.node.ledger) (fun hm hb => hm.bits hb) hbits
  have hbase : ρ.node.recoverBase = τ.node.recoverBase := congrArg Fixed.recoverBase hdrove.fixed
  have hlast : ρ.node.recoverLast = τ.node.recoverLast := congrArg Fixed.recoverLast hdrove.fixed
  have hmode' : τ.node.ownership = false := (congrArg Fixed.ownership hdrove.fixed).symm.trans hmode
  refine ⟨hcρ, hbitsρ, hrρ, (congrArg Fixed.role hdrove.fixed).trans hrole',
    fun s hs hle hfence hused => ?_⟩
  rw [hbase] at hs
  rw [hlast] at hle
  suffices hgoal : s ≤ driveGoal P τ.node τ.node.recoveryMore from
    ⟨hdrove.settled s hs (Nat.lt_succ_of_le hgoal), hdrove.driven s hs (Nat.lt_succ_of_le hgoal)⟩
  -- the drive used no cell beyond its goal, and the goal covers the cells used before
  by_contra hgt
  have hbound := @resolveChunk_highestUsed V P _ τ noop τ.node.recoveryMore _
    (le_max_right (ledgerHighestUsed P τ.node.ledger) (driveGoal P τ.node τ.node.recoveryMore))
    (le_max_left _ _)
  rw [hres] at hbound
  have hknown : ledgerHighestUsed P τ.node.ledger ≤ highestRecoveredSlot P τ.node :=
    (highestRecoveredSlot_fold τ.node (List.range P.C) (ledgerHighestUsed P τ.node.ledger)).1
  have hgoal : driveGoal P τ.node τ.node.recoveryMore = min τ.node.recoverLast
      (max (highestRecoveredSlot P τ.node)
        (max (quorumFences τ.node).trim (quorumFences τ.node).chosen)) := by
    unfold driveGoal
    simp [hmore, hmode']
  dsimp only at hbound
  omega

omit [DecidableEq V] [Inhabited V] in
/-- A slot that the candidate holds is used. -/
theorem Inherited.le_highestUsed {n : Node V} {slot : Nat} (h : Inherited P n slot)
    (hbits : Bits n.ledger) : slot ≤ ledgerHighestUsed P n.ledger := by
  have hused : cellOf slot P.W ∈ n.ledger.used := by
    rw [hbits.used]
    rcases h.2 with hchosen | ⟨hvoted, -⟩
    · rw [show (n.ledger.cells (cellOf slot P.W)).state = .chosen from hchosen]
      simp
    · rw [show (n.ledger.cells (cellOf slot P.W)).state = .voted from hvoted]
      simp
  have hle := (ledgerHighestUsed_bounds n.ledger).1 _ (cellOf_lt P slot) hused
  rwa [show (n.ledger.cells (cellOf slot P.W)).slot = slot from h.1] at hle

/-- An operation that makes a node leader calls `become_leader`, in a state `ρ`.  The new leader has a
decision or a vote of its own ballot in every slot above the fence and below its term exactly if its
chunks reached everything it holds in `ρ`. -/
theorem leader_inherits {n : Node V} (hn : Campaigning P n) {op : Operation V}
    (hheard : ∀ e, op = .step e → Sent P e) (hbefore : n.role ≠ .leader)
    (hafter : (operate P n op).node.role = .leader) :
    ∃ ρ, leadingState P n op = some ρ ∧ operate P n op = becomeLeader P ρ ∧
      ((∀ s, fenceOf ρ.node < s → s < (operate P n op).node.leaderBase →
        Inherited P (operate P n op).node s) ↔ Reached P ρ.node) := by
  obtain ⟨hreach, hc⟩ := hn.campaigns
  have hmode : n.ownership = false := hc.mode
  obtain ⟨ρ, hρ⟩ := leadingState_of_leader hmode hbefore hafter
  refine ⟨ρ, hρ, operate_leading hρ, ?_⟩
  obtain ⟨hcρ, hbits, hrested, hrole, hdriven⟩ := leadingState_run hc hreach.bits hn.rested
    (fun e he => (hheard e he).genuine) hρ
  obtain ⟨-, hbase, hledger, hballot⟩ := becomeLeader_led (P := P) hcρ.mode
  have hcommands := hcρ.commands (by rw [hrole]; simp)
  rw [operate_leading hρ]
  -- the ledger and the ballot of the leader are those of the candidate
  have hsame : ∀ s, Inherited P (becomeLeader P ρ).node s ↔ Inherited P ρ.node s := by
    intro s
    unfold Inherited
    rw [hledger, hballot]
  have hbelow : (∀ s, fenceOf ρ.node < s → s < (becomeLeader P ρ).node.leaderBase →
      Inherited P (becomeLeader P ρ).node s) ↔ ∀ s, BelowTerm P ρ.node s → Inherited P ρ.node s := by
    rw [hbase]
    exact ⟨fun h s hs => (hsame s).mp (h s hs.1 hs.2), fun h s hf hs => (hsame s).mpr (h s ⟨hf, hs⟩)⟩
  rw [hbelow]
  constructor
  · intro hall
    refine ⟨?_, fun s hs hlast hnone => ?_, fun s hs _ hstuck => hstuck.2.1 (hall s hs).1⟩
    · by_contra hnext
      have hlast : BelowTerm P ρ.node (ρ.node.nextSlot - 1) := ⟨by omega, by omega⟩
      have hle := (hall _ hlast).le_highestUsed hbits
      omega
    · -- above the last chunk the candidate has no vote of its own ballot
      obtain ⟨hheld, hchosen | ⟨hvoted, hvote⟩⟩ := hall s hs
      · have hlow := hs.1
        unfold ledgerChosenAt at hnone
        simp only [Ledger.cellAt] at hheld hchosen
        rw [if_neg (by omega), if_neg (by simp [hheld, hchosen])] at hnone
        cases hnone
      · obtain ⟨-, hchunk⟩ := (hcommands.cells (cellOf s P.W) (cellOf_lt P s)).driven hrole hvote
        rw [show (ρ.node.ledger.cells (cellOf s P.W)).slot = s from hheld] at hchunk
        have hbounds := hcommands.chunk hrole
        rcases hchunk with hlow | ⟨-, hle, -⟩ <;> omega
  · intro hreached s hs
    have hused : s ≤ ledgerHighestUsed P ρ.node.ledger := by
      have hnext := hreached.next
      have hle := slotAdd_le_add (max (ledgerHighestUsed P ρ.node.ledger) (fenceOf ρ.node)) 1
      obtain ⟨hfence, hterm⟩ := hs
      omega
    by_cases hlast : ρ.node.recoverLast < s
    · -- a cell above the last chunk
      have hchosen := hreached.above s hs hlast
      cases hdecided : ledgerChosenAt P ρ.node.ledger s with
      | none => exact absurd hdecided hchosen
      | some value =>
          obtain ⟨hheld, hstate, -⟩ := ledgerChosenAt_eq_some hdecided
          exact ⟨hheld, Or.inl hstate⟩
    · have hle : s ≤ ρ.node.recoverLast := Nat.le_of_not_lt hlast
      have hcovered : Covered P ρ.node s := by
        by_cases hlow : s < ρ.node.recoverBase
        · exact hrested hrole s hlow
        · obtain ⟨hsettled, hredriven⟩ := hdriven s (Nat.le_of_not_lt hlow) hle hs.1 hused
          exact hsettled.covered hredriven hcρ.opened.floor
      rcases hcovered with hbehind | hinherited | hstuck
      · exact absurd (le_fence_iff.mpr hbehind) (Nat.not_le.mpr hs.1)
      · exact hinherited
      · exact absurd hstuck (hreached.held s hs hle)

end Terms

/-! ## A vote that is left behind -/

/-- A member of three, where one promise is a read quorum and a value needs all three votes. -/
def loneReader (id : Nat) : Node Nat :=
  { initialNode id (id - 1) ⟨[1, 2, 3], 1, 3⟩ NodeOptions.zero with ownNext := id }

/-- The first member hears of the second slot only, and campaigns. -/
def loneVoter : List (Operation Nat) :=
  [.step ⟨2, 1, .accept (ballotMake 1 0 2) 2 6⟩, .call (.campaign 0)]

/-- The third member, which holds nothing, answers it. -/
def loneAnswer : Operation Nat :=
  .step ⟨3, 1, .promiseRange (ballotMake 2 0 1) {} 0 1 1 0 false⟩

/-- Each of the three just started. -/
theorem loneReader_campaigning (id : Nat) (hid : id ∈ [1, 2, 3]) :
    Campaigning trioParams (loneReader id) := by
  have hinit : nodeInit id ⟨[1, 2, 3], 1, 3⟩ NodeOptions.zero = .ok (loneReader id) := by
    rcases List.mem_cons.mp hid with rfl | hid
    · rfl
    rcases List.mem_cons.mp hid with rfl | hid
    · rfl
    obtain rfl := List.mem_singleton.mp hid
    rfl
  have hsmall : id < 2 ^ 16 := by
    simp only [List.mem_cons, List.not_mem_nil, or_false] at hid
    omega
  exact .opened (.init ⟨[1, 2, 3], 1, 3, by decide, by decide⟩ hinit) hsmall rfl

/-- What the members hear, other members sent. -/
theorem loneVoter_campaigning :
    Campaigning trioParams (operateAll trioParams (loneReader 1) loneVoter) ∧
      ∀ e, loneAnswer = .step e → Sent trioParams e := by
  have hcall : ∀ (c : Call Nat) (e : Envelope Nat), Operation.call c = .step e →
      Sent trioParams e := fun c e he => by cases he
  have hstep : ∀ {e : Envelope Nat}, Sent trioParams e → ∀ e', Operation.step e = .step e' →
      Sent trioParams e' := fun h e' he => by cases he; exact h
  -- the second member
  have h₂ := loneReader_campaigning 2 (by decide)
  have hcandidate := h₂.operated (hcall (.campaign 0))
  have hprepare : Sent trioParams ⟨2, 2, .prepare (ballotMake 1 0 2) 1 1 .global⟩ :=
    .transition h₂ (hcall (.campaign 0)) (by decide +kernel)
  have hpromised := hcandidate.operated (hstep hprepare)
  have hrange : Sent trioParams ⟨2, 2, .promiseRange (ballotMake 1 0 2) {} 0 1 1 0 false⟩ :=
    .transition hcandidate (hstep hprepare) (by decide +kernel)
  have hleader := (hpromised.operated (hstep hrange)).operated (hcall (.propose 5))
  have haccept : Sent trioParams ⟨2, 1, .accept (ballotMake 1 0 2) 2 6⟩ :=
    .transition hleader (hcall (.propose 6)) (by decide +kernel)
  -- the first member
  have hvoter := (loneReader_campaigning 1 (by decide)).operated (hstep haccept)
  have hask : Sent trioParams ⟨1, 3, .prepare (ballotMake 2 0 1) 1 1 .global⟩ :=
    .transition hvoter (hcall (.campaign 0)) (by decide +kernel)
  -- the third member
  have hanswer : Sent trioParams ⟨3, 1, .promiseRange (ballotMake 2 0 1) {} 0 1 1 0 false⟩ :=
    .transition (loneReader_campaigning 3 (by decide)) (hstep hask) (by decide +kernel)
  exact ⟨hvoter.operated (hcall (.campaign 0)), hstep hanswer⟩

/-- The new leader starts its term above a slot in which it holds the vote of an older ballot: its own
answer to its Prepare was not counted, and the member that was counted held nothing. -/
theorem leader_leaves_vote :
    ¬ ∀ n : Node Nat, Campaigning trioParams n → ∀ op, (∀ e, op = .step e → Sent trioParams e) →
      n.role ≠ .leader → (operate trioParams n op).node.role = .leader →
      ∀ ρ, leadingState trioParams n op = some ρ → ∀ s, fenceOf ρ.node < s →
        s < (operate trioParams n op).node.leaderBase →
          Inherited trioParams (operate trioParams n op).node s := by
  intro hall
  obtain ⟨hn, hheard⟩ := loneVoter_campaigning
  have hfence : (leadingState trioParams (operateAll trioParams (loneReader 1) loneVoter)
      loneAnswer).map (fun σ => fenceOf σ.node) = some 0 := by decide +kernel
  obtain ⟨ρ, hρ, hzero⟩ := Option.map_eq_some_iff.mp hfence
  have hinherited := hall _ hn _ hheard (by decide +kernel) (by decide +kernel) ρ hρ 2
    (by rw [hzero]; decide) (by decide +kernel)
  exact absurd hinherited (by decide +kernel)

/-- There its chunks did not reach a cell of its own. -/
theorem leader_inherits_lone :
    ∃ ρ, leadingState trioParams (operateAll trioParams (loneReader 1) loneVoter) loneAnswer =
      some ρ ∧ ¬ Reached trioParams ρ.node := by
  obtain ⟨hn, hheard⟩ := loneVoter_campaigning
  have hfence : (leadingState trioParams (operateAll trioParams (loneReader 1) loneVoter)
      loneAnswer).map (fun σ => fenceOf σ.node) = some 0 := by decide +kernel
  obtain ⟨ρ, hρ, -, hinherits⟩ := leader_inherits hn hheard (by decide +kernel) (by decide +kernel)
  refine ⟨ρ, hρ, fun hreached => ?_⟩
  rw [hρ] at hfence
  have hzero : fenceOf ρ.node = 0 := Option.some.inj hfence
  have hinherited := hinherits.mpr hreached 2 (by rw [hzero]; decide) (by decide +kernel)
  exact absurd hinherited (by decide +kernel)

end PaxosOdin
