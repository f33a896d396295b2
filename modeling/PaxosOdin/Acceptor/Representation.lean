import PaxosOdin.Core.Node

/-!
# The representation of a ledger

A ledger is a ring of cells beside two bitmaps, with one promise for all decrees and one for
each cell.  Every reader relies on how the parts belong together; every procedure that changes
one of them restores the rest.

Main definitions:

- Definition `CellValid`: how a cell, its bits and its promises belong together.
- Definition `LedgerValid`: every cell of the window is valid.

Main results:

- Theorems `LedgerValid.open`, `LedgerValid.setPromiseAt`, `LedgerValid.recordVote` and
  `LedgerValid.recordChosen`: the updates of a cell.
- Theorems `ledgerApply_valid`, `ledgerReplayFold_valid` and `replay_valid`: journal records.
-/

namespace PaxosOdin

variable {V : Type} {P : Params} {l : Ledger V} {cell slot ballot : Nat} {value : V}

/-- The slot of a cell maps to the cell, the bitmaps show its state, and an open vote stands
under the promise that governs the cell. -/
structure CellValid (P : Params) (l : Ledger V) (cell : Nat) : Prop where
  tagged : (l.cells cell).slot ≠ 0 → cellOf (l.cells cell).slot P.W = cell
  used : cell ∈ l.used ↔ (l.cells cell).state ≠ .empty
  chosen : cell ∈ l.chosen ↔ (l.cells cell).state = .chosen
  governed : (l.cells cell).state = .voted → (l.cells cell).voteBallot ≤ ledgerPromiseFor l cell

/-- Every cell of the window is valid. -/
def LedgerValid (P : Params) (l : Ledger V) : Prop :=
  ∀ cell < P.W, CellValid P l cell

/-! ## The updates of a cell -/

theorem LedgerValid.empty [Inhabited V] : LedgerValid P (Ledger.empty : Ledger V) := by
  intro cell _
  constructor <;> simp [Ledger.empty]

/-- A cell depends on its own contents, its bits and its promises only. -/
theorem CellValid.congr {l' : Ledger V} (h : CellValid P l cell)
    (hcells : l'.cells cell = l.cells cell) (hused : cell ∈ l'.used ↔ cell ∈ l.used)
    (hchosen : cell ∈ l'.chosen ↔ cell ∈ l.chosen) (hpromised : l.promised ≤ l'.promised) :
    CellValid P l' cell := by
  constructor
  · rw [hcells]
    exact h.tagged
  · rw [hused, hcells]
    exact h.used
  · rw [hchosen, hcells]
    exact h.chosen
  · intro hvoted
    rw [hcells] at hvoted ⊢
    apply (h.governed hvoted).trans
    unfold ledgerPromiseFor
    rw [hcells]
    exact max_le_max_right _ hpromised

theorem LedgerValid.anchor (h : LedgerValid P l) (anchor : TrimAnchor) :
    LedgerValid P { l with anchor := anchor } := by
  intro cell hcell
  exact (h cell hcell).congr rfl Iff.rfl Iff.rfl le_rfl

theorem LedgerValid.promise (h : LedgerValid P l) (hle : l.promised ≤ ballot) :
    LedgerValid P { l with promised := ballot } := by
  intro cell hcell
  exact (h cell hcell).congr rfl Iff.rfl Iff.rfl hle

/-- A cell is retagged for a slot that maps to it, or forgotten. -/
theorem LedgerValid.open (h : LedgerValid P l) (hslot : slot ≠ 0 → cellOf slot P.W = cell) :
    LedgerValid P (ledgerOpen l cell slot) := by
  intro i hi
  by_cases heq : i = cell
  · subst heq
    constructor <;> simp [ledgerOpen]
    exact hslot
  · apply (h i hi).congr <;> simp [ledgerOpen, heq]

/-- The promise of a cell is raised. -/
theorem LedgerValid.setPromiseAt (h : LedgerValid P l)
    (hle : (l.cells cell).promisedAt ≤ ballot) : LedgerValid P (ledgerSetPromiseAt l cell ballot) := by
  intro i hi
  by_cases heq : i = cell
  · subst heq
    constructor
    · simpa [ledgerSetPromiseAt] using (h i hi).tagged
    · simpa [ledgerSetPromiseAt] using (h i hi).used
    · simpa [ledgerSetPromiseAt] using (h i hi).chosen
    · intro hvoted
      have hgoverned := (h i hi).governed (by simpa [ledgerSetPromiseAt] using hvoted)
      simp only [ledgerPromiseFor, ledgerSetPromiseAt, Function.update_self] at hgoverned ⊢
      omega
  · apply (h i hi).congr <;> simp [ledgerSetPromiseAt, heq]

/-- A vote under the promise of its cell is recorded. -/
theorem LedgerValid.recordVote (h : LedgerValid P l) (hopen : (l.cells cell).state ≠ .chosen)
    (hle : ballot ≤ ledgerPromiseFor l cell) :
    LedgerValid P (ledgerRecordVote l cell ballot value) := by
  intro i hi
  by_cases heq : i = cell
  · subst heq
    constructor
    · simpa [ledgerRecordVote] using (h i hi).tagged
    · simp [ledgerRecordVote]
    · simpa [ledgerRecordVote, hopen] using (h i hi).chosen
    · intro _
      simpa [ledgerRecordVote, ledgerPromiseFor] using hle
  · apply (h i hi).congr <;> simp [ledgerRecordVote, heq]

/-- A decision is recorded. -/
theorem LedgerValid.recordChosen (h : LedgerValid P l) :
    LedgerValid P (ledgerRecordChosen l cell value) := by
  intro i hi
  by_cases heq : i = cell
  · subst heq
    constructor
    · simpa [ledgerRecordChosen] using (h i hi).tagged
    · simp [ledgerRecordChosen]
    · simp [ledgerRecordChosen]
    · simp [ledgerRecordChosen]
  · apply (h i hi).congr <;> simp [ledgerRecordChosen, heq]

/-- A vote at or above the promise of its cell, which it raises. -/
theorem LedgerValid.vote (h : LedgerValid P l) (hopen : (l.cells cell).state ≠ .chosen)
    {promised : Nat} (hraise : (l.cells cell).promisedAt ≤ promised) (hle : ballot ≤ promised) :
    LedgerValid P (ledgerRecordVote (ledgerSetPromiseAt l cell promised) cell ballot value) := by
  apply (h.setPromiseAt hraise).recordVote
  · simpa [ledgerSetPromiseAt] using hopen
  · simp [ledgerPromiseFor, ledgerSetPromiseAt, hle]

/-! ## Journal records -/

theorem ledgerClaim_valid {l' : Ledger V} (h : LedgerValid P l)
    (hclaim : ledgerClaim P l slot = some l') : LedgerValid P l' := by
  unfold ledgerClaim at hclaim
  dsimp only at hclaim
  split_ifs at hclaim
  · cases hclaim
    exact h
  · cases hclaim
    exact h.open fun _ => rfl

section Records

variable [DecidableEq V]

/-- A record applied in strict order keeps the ledger valid, also one that is refused. -/
theorem ledgerApply_valid (h : LedgerValid P l) (w : Write V) :
    LedgerValid P (ledgerApply P l w).1 := by
  cases w with
  | promise ballot =>
      simp only [ledgerApply]
      split_ifs with hlow
      · exact h
      · exact h.promise (Nat.le_of_not_lt hlow)
  | promiseAt ballot slot =>
      simp only [ledgerApply]
      split_ifs
      · exact h
      · cases hclaim : ledgerClaim P l slot with
        | none => exact h
        | some l' =>
            have hl := ledgerClaim_valid h hclaim
            dsimp only
            split_ifs with hlow
            · exact hl
            · exact hl.setPromiseAt (Nat.le_of_not_lt hlow)
  | vote ballot slot value =>
      simp only [ledgerApply]
      split_ifs
      · exact h
      · exact h
      · cases hclaim : ledgerClaim P l slot with
        | none => exact h
        | some l' =>
            have hl := ledgerClaim_valid h hclaim
            dsimp only
            split_ifs with hlow hconflict hdecided hchosen
            · exact hl
            · exact hl
            · exact hl
            · exact hl.setPromiseAt (Nat.le_of_not_lt hlow)
            · exact hl.vote hchosen (Nat.le_of_not_lt hlow) le_rfl
  | chosen slot value =>
      simp only [ledgerApply]
      split_ifs
      · exact h
      · cases hclaim : ledgerClaim P l slot with
        | none => exact h
        | some l' =>
            have hl := ledgerClaim_valid h hclaim
            dsimp only
            split_ifs
            · exact hl
            · exact hl.recordChosen
  | trim anchor =>
      simp only [ledgerApply]
      split_ifs
      · exact h
      · exact h
      · exact h.anchor anchor

/-- A record folded from a lifetime journal keeps the ledger valid, also one that is refused. -/
theorem ledgerReplayFold_valid (h : LedgerValid P l) (w : Write V) :
    LedgerValid P (ledgerReplayFold P l w).1 := by
  cases w with
  | promise ballot => exact h.promise (le_max_left _ _)
  | promiseAt ballot slot =>
      simp only [ledgerReplayFold]
      by_cases hzero : slot = 0
      · rw [if_pos hzero]
        exact h
      · rw [if_neg hzero]
        cases hclaim : ledgerClaim P l slot with
        | none => exact h
        | some l' => exact (ledgerClaim_valid h hclaim).setPromiseAt (le_max_left _ _)
  | vote ballot slot value =>
      simp only [ledgerReplayFold]
      by_cases hzero : slot = 0
      · rw [if_pos hzero]
        exact h
      · rw [if_neg hzero]
        cases hclaim : ledgerClaim P l slot with
        | none => exact h
        | some l' =>
            have hl := ledgerClaim_valid h hclaim
            dsimp only
            split_ifs with hconflict hchosen
            · exact hl
            · exact hl.setPromiseAt (le_max_left _ _)
            · exact hl.vote hchosen (le_max_left _ _) (le_max_right _ _)
  | chosen slot value => exact ledgerApply_valid h _
  | trim anchor => exact ledgerApply_valid h _

theorem replayFrom_valid (h : LedgerValid P l) (journal : List (Write V)) :
    LedgerValid P (replayFrom P l journal).1 := by
  induction journal generalizing l with
  | nil => exact h
  | cons w ws ih =>
      have hw := ledgerReplayFold_valid h w
      rw [replayFrom]
      rcases hfold : ledgerReplayFold P l w with ⟨l', e⟩
      rw [hfold] at hw
      cases e with
      | none => exact ih hw
      | _ => exact hw

/-- Whatever a journal holds, its fold is valid, up to the record that ends it. -/
theorem replay_valid [Inhabited V] (journal : List (Write V)) :
    LedgerValid P (replay P journal).1 :=
  replayFrom_valid LedgerValid.empty journal

end Records

/-- Clearing the open cells of a prefix. -/
theorem clearOpenCells_valid (h : LedgerValid P l) (base : Nat) :
    LedgerValid P (clearOpenCells P l base) := by
  unfold clearOpenCells
  induction List.range P.W generalizing l with
  | nil => exact h
  | cons cell rest ih =>
      rw [List.foldl_cons]
      apply ih
      dsimp only
      split_ifs
      · exact h.open fun hzero => absurd rfl hzero
      · exact h

end PaxosOdin
