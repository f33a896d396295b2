import PaxosOdin.Core.Messages

/-!
# The acceptor's ledger

The durable state of an acceptor, laid out as one cell for each window index.
A slot's cell is `cellOf slot W`, and the tag `Cell.slot` says which slot owns
the cell, so that a reused cell is never mistaken for an older one.  The bitmaps
`used` and `chosen` are finite sets of cell indices.

Main definitions:

- Definition `ledgerApply`: one record in strict journal order.
- Definition `ledgerReplayFold`: one record of a lifetime journal.
- Definition `replay`: the fold of a whole journal from the empty ledger.
-/

namespace PaxosOdin

variable {V : Type}

/-- One window cell: the slot that owns it, the promise for that slot only, the
ballot of the last vote, and the value of that vote or of the decision. -/
structure Cell (V : Type) where
  slot : Nat := 0
  promisedAt : Nat := 0
  voteBallot : Nat := 0
  state : CellState := .empty
  value : V

/-- `promised` is the greatest ballot promised for every decree. -/
structure Ledger (V : Type) where
  promised : Nat
  anchor : TrimAnchor
  cells : Nat → Cell V
  used : Finset Nat
  chosen : Finset Nat

/-- The zero value of a ledger. -/
def Ledger.empty [Inhabited V] : Ledger V where
  promised := 0
  anchor := {}
  cells := fun _ => { value := default }
  used := ∅
  chosen := ∅

/-- The members of a bitmap in increasing order, as the scans over `bit_set_next`
visit them. -/
def bitSetScan (bits : Finset Nat) (size : Nat) : List Nat :=
  (List.range size).filter (· ∈ bits)

/-- The smallest member at or after `start`, if any. -/
def bitSetNext (bits : Finset Nat) (size start : Nat) : Option Nat :=
  (bitSetScan bits size).find? (start ≤ ·)

/-! ## Cell access -/

/-- The effective promise for one cell: the greater of the global and the
per-decree promise. -/
def ledgerPromiseFor (l : Ledger V) (cell : Nat) : Nat :=
  max l.promised (l.cells cell).promisedAt

/-- The decided value of `slot`, while its cell holds it. -/
def ledgerChosenAt (P : Params) (l : Ledger V) (slot : Nat) : Option V :=
  if slot = 0 then none
  else
    let c := l.cells (cellOf slot P.W)
    if c.slot ≠ slot ∨ c.state ≠ .chosen then none else some c.value

/-- Retags a cell for `slot`, clearing everything but the value storage. -/
def ledgerOpen (l : Ledger V) (cell slot : Nat) : Ledger V :=
  { l with
    cells := Function.update l.cells cell
      { slot := slot, promisedAt := 0, voteBallot := 0, state := .empty,
        value := (l.cells cell).value }
    used := l.used.erase cell
    chosen := l.chosen.erase cell }

/-- Forgets a cell's slot. -/
def ledgerClearCell (l : Ledger V) (cell : Nat) : Ledger V :=
  ledgerOpen l cell 0

/-- Claims the cell for `slot` during replay: a cell may be reused when its
previous slot is chosen or lies at or below the certified trim. -/
def ledgerClaim (P : Params) (l : Ledger V) (slot : Nat) : Option (Ledger V) :=
  let cell := cellOf slot P.W
  let c := l.cells cell
  if c.slot = slot then some l
  else if c.slot = 0 ∨
      (c.slot < slot ∧ (c.state = .chosen ∨ c.slot ≤ l.anchor.chosenTrimSlot)) then
    some (ledgerOpen l cell slot)
  else none

/-- Raises the per-decree promise of a cell. -/
def ledgerSetPromiseAt (l : Ledger V) (cell ballot : Nat) : Ledger V :=
  { l with cells := Function.update l.cells cell { l.cells cell with promisedAt := ballot } }

/-- Records a vote in a cell. -/
def ledgerRecordVote (l : Ledger V) (cell ballot : Nat) (value : V) : Ledger V :=
  { l with
    cells := Function.update l.cells cell
      { l.cells cell with voteBallot := ballot, value := value, state := .voted }
    used := insert cell l.used }

/-- Records a decision in a cell. -/
def ledgerRecordChosen (l : Ledger V) (cell : Nat) (value : V) : Ledger V :=
  { l with
    cells := Function.update l.cells cell { l.cells cell with value := value, state := .chosen }
    used := insert cell l.used
    chosen := insert cell l.chosen }

/-- The greatest ballot recorded anywhere in the ledger: the global promise,
every per-decree promise, and every vote. -/
def ledgerHighestBallot (P : Params) (l : Ledger V) : Nat :=
  (List.range P.W).foldl
    (fun highest cell =>
      max highest (max (l.cells cell).promisedAt (l.cells cell).voteBallot))
    l.promised

/-- The greatest slot held by any used cell. -/
def ledgerHighestUsed (P : Params) (l : Ledger V) : Nat :=
  (bitSetScan l.used P.W).foldl (fun highest cell => max highest (l.cells cell).slot) 0

/-! ## Cells after an update -/

section Cells

variable (l : Ledger V) (cell slot ballot : Nat) (value : V) (i : Nat)

theorem ledgerOpen_cells :
    (ledgerOpen l cell slot).cells i =
      if i = cell then
        { slot := slot, promisedAt := 0, voteBallot := 0, state := .empty,
          value := (l.cells cell).value }
      else l.cells i := by
  simp [ledgerOpen, Function.update_apply]

theorem ledgerSetPromiseAt_cells :
    (ledgerSetPromiseAt l cell ballot).cells i =
      { l.cells i with promisedAt := if i = cell then ballot else (l.cells i).promisedAt } := by
  by_cases h : i = cell
  · subst h
    simp [ledgerSetPromiseAt]
  · simp [ledgerSetPromiseAt, h]

theorem ledgerRecordVote_cells :
    (ledgerRecordVote l cell ballot value).cells i =
      { l.cells i with
        voteBallot := if i = cell then ballot else (l.cells i).voteBallot
        value := if i = cell then value else (l.cells i).value
        state := if i = cell then .voted else (l.cells i).state } := by
  by_cases h : i = cell
  · subst h
    simp [ledgerRecordVote]
  · simp [ledgerRecordVote, h]

theorem ledgerRecordChosen_cells :
    (ledgerRecordChosen l cell value).cells i =
      { l.cells i with
        value := if i = cell then value else (l.cells i).value
        state := if i = cell then .chosen else (l.cells i).state } := by
  by_cases h : i = cell
  · subst h
    simp [ledgerRecordChosen]
  · simp [ledgerRecordChosen, h]

end Cells

/-! ## Journal replay -/

section Replay

variable [DecidableEq V]

/-- Applies one record in strict journal order.  A record that contradicts the
ledger fails closed; the ledger returned is the one the procedure leaves behind. -/
def ledgerApply (P : Params) (l : Ledger V) : Write V → Ledger V × Error
  | .promise ballot =>
      if ballot < l.promised then (l, .promiseRegression)
      else ({ l with promised := ballot }, .none)
  | .promiseAt ballot slot =>
      if slot = 0 then (l, .invalidSlot)
      else
        match ledgerClaim P l slot with
        | none => (l, .windowOverrun)
        | some l =>
            let cell := cellOf slot P.W
            if ballot < (l.cells cell).promisedAt then (l, .promiseRegression)
            else (ledgerSetPromiseAt l cell ballot, .none)
  | .vote ballot slot value =>
      if slot = 0 then (l, .invalidSlot)
      else if ballot < l.promised then (l, .promiseRegression)
      else
        match ledgerClaim P l slot with
        | none => (l, .windowOverrun)
        | some l =>
            let cell := cellOf slot P.W
            let c := l.cells cell
            if ballot < c.promisedAt then (l, .promiseRegression)
            else if c.state = .voted ∧ c.voteBallot = ballot ∧ c.value ≠ value then
              (l, .conflictingValue)
            else if c.state = .chosen ∧ c.value ≠ value then (l, .conflictingCommit)
            else
              let l := ledgerSetPromiseAt l cell ballot
              (if c.state = .chosen then l else ledgerRecordVote l cell ballot value, .none)
  | .chosen slot value =>
      if slot = 0 then (l, .invalidSlot)
      else
        match ledgerClaim P l slot with
        -- a later slot already owns the cell: derived state, skip
        | none => (l, .none)
        | some l =>
            let cell := cellOf slot P.W
            let c := l.cells cell
            if c.state = .chosen ∧ c.value ≠ value then (l, .conflictingCommit)
            else (ledgerRecordChosen l cell value, .none)
  | .trim anchor =>
      if anchor.trimId < l.anchor.trimId ∨ anchor.chosenTrimSlot < l.anchor.chosenTrimSlot then
        (l, .trimRegression)
      else if anchor.trimId = l.anchor.trimId ∧ l.anchor.trimId ≠ 0 ∧ anchor ≠ l.anchor then
        (l, .trimRegression)
      else ({ l with anchor := anchor }, .none)

/-- Folds one record of a lifetime journal, which may span window reuse: a promise
only ever grows, and a record for a slot whose cell a later slot already owns is
skipped rather than rejected. -/
def ledgerReplayFold (P : Params) (l : Ledger V) : Write V → Ledger V × Error
  | .promise ballot => ({ l with promised := max l.promised ballot }, .none)
  | .promiseAt ballot slot =>
      if slot = 0 then (l, .invalidSlot)
      else
        let cell := cellOf slot P.W
        match ledgerClaim P l slot with
        | none => (l, if (l.cells cell).slot > slot then .none else .windowOverrun)
        | some l => (ledgerSetPromiseAt l cell (max (l.cells cell).promisedAt ballot), .none)
  | .vote ballot slot value =>
      if slot = 0 then (l, .invalidSlot)
      else
        let cell := cellOf slot P.W
        match ledgerClaim P l slot with
        | none => (l, if (l.cells cell).slot > slot then .none else .windowOverrun)
        | some l =>
            let c := l.cells cell
            if c.state = .voted ∧ c.voteBallot = ballot ∧ c.value ≠ value then
              (l, .conflictingValue)
            else
              let l := ledgerSetPromiseAt l cell (max c.promisedAt ballot)
              (if c.state = .chosen then l else ledgerRecordVote l cell ballot value, .none)
  | .chosen slot value => ledgerApply P l (.chosen slot value)
  | .trim anchor => ledgerApply P l (.trim anchor)

/-- The fold of a journal, oldest record first; a host stops at the first error. -/
def replayFrom (P : Params) (l : Ledger V) : List (Write V) → Ledger V × Error
  | [] => (l, .none)
  | w :: ws =>
      match ledgerReplayFold P l w with
      | (l, .none) => replayFrom P l ws
      | (l, e) => (l, e)

/-- The fold of a lifetime journal from the empty ledger. -/
def replay [Inhabited V] (P : Params) (journal : List (Write V)) : Ledger V × Error :=
  replayFrom P Ledger.empty journal

end Replay

end PaxosOdin
