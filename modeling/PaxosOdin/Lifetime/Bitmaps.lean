import PaxosOdin.Lifetime.Capacity

/-!
# The bitmaps of a ledger

A scan of the ledger walks a bitmap and not the states of the cells.  The two agree in every
reachable state, whatever the journal of a restart was and whatever the node hears.

Main results:

- Theorem `replay_bits`: the bitmaps of a replayed journal agree with its cells.
- Theorem `Micro.bits`: a small step keeps them in agreement.
- Theorem `Reachable.bits`: they agree in every reachable state.
-/

namespace PaxosOdin

variable {V : Type} {P : Params} {I : Input V}

/-! ## Journals -/

/-- The bitmaps of an empty ledger are empty. -/
theorem Bits.empty [Inhabited V] : Bits (Ledger.empty : Ledger V) := by
  constructor <;> intro i <;> simp [Ledger.empty]

/-- Only the cells and the bitmaps matter. -/
theorem Bits.congr {l l' : Ledger V} (h : Bits l) (hcells : l'.cells = l.cells)
    (hused : l'.used = l.used) (hchosen : l'.chosen = l.chosen) : Bits l' := by
  constructor <;> intro i
  · rw [hused, hcells]
    exact h.used i
  · rw [hchosen, hcells]
    exact h.chosen i

/-- A claim keeps the bitmaps true. -/
theorem ledgerClaim_bits {l l' : Ledger V} {slot : Nat} (h : Bits l)
    (hclaim : ledgerClaim P l slot = some l') : Bits l' := by
  unfold ledgerClaim at hclaim
  dsimp only at hclaim
  split_ifs at hclaim <;> cases hclaim
  · exact h
  · exact h.open _ _

section Steps

variable [DecidableEq V]

/-- One record of a journal keeps the bitmaps in agreement with the cells. -/
theorem ledgerReplayFold_bits {l l' : Ledger V} {w : Write V} {e : Error} (h : Bits l)
    (hfold : ledgerReplayFold P l w = (l', e)) : Bits l' := by
  cases w with
  | promise ballot =>
      cases hfold
      exact h.congr rfl rfl rfl
  | trim anchor =>
      simp only [ledgerReplayFold, ledgerApply] at hfold
      split_ifs at hfold <;> cases hfold
      · exact h
      · exact h
      · exact h.congr rfl rfl rfl
  | promiseAt ballot slot =>
      simp only [ledgerReplayFold] at hfold
      by_cases h0 : slot = 0
      · rw [if_pos h0] at hfold
        cases hfold
        exact h
      · rw [if_neg h0] at hfold
        cases hclaim : ledgerClaim P l slot with
        | none =>
            rw [hclaim] at hfold
            cases hfold
            exact h
        | some l₁ =>
            rw [hclaim] at hfold
            cases hfold
            exact (ledgerClaim_bits h hclaim).setPromiseAt _ _
  | vote ballot slot value =>
      simp only [ledgerReplayFold] at hfold
      by_cases h0 : slot = 0
      · rw [if_pos h0] at hfold
        cases hfold
        exact h
      · rw [if_neg h0] at hfold
        cases hclaim : ledgerClaim P l slot with
        | none =>
            rw [hclaim] at hfold
            cases hfold
            exact h
        | some l₁ =>
            have hbits := ledgerClaim_bits h hclaim
            rw [hclaim] at hfold
            dsimp only at hfold
            split_ifs at hfold with hconflict hchosen <;> cases hfold
            · exact hbits
            · exact hbits.setPromiseAt _ _
            · refine (hbits.setPromiseAt _ _).recordVote ?_
              rw [ledgerSetPromiseAt_cells]
              exact hchosen
  | chosen slot value =>
      simp only [ledgerReplayFold, ledgerApply] at hfold
      by_cases h0 : slot = 0
      · rw [if_pos h0] at hfold
        cases hfold
        exact h
      · rw [if_neg h0] at hfold
        cases hclaim : ledgerClaim P l slot with
        | none =>
            rw [hclaim] at hfold
            cases hfold
            exact h
        | some l₁ =>
            have hbits := ledgerClaim_bits h hclaim
            rw [hclaim] at hfold
            dsimp only at hfold
            split_ifs at hfold <;> cases hfold
            · exact hbits
            · exact hbits.recordChosen _ _

/-- The bitmaps of a replayed journal agree with its cells. -/
theorem replay_bits [Inhabited V] {journal : List (Write V)} {l : Ledger V} {e : Error}
    (h : replay P journal = (l, e)) : Bits l := by
  have hfrom : ∀ (journal : List (Write V)) (l₀ : Ledger V), Bits l₀ →
      Bits (replayFrom P l₀ journal).1 := by
    intro journal
    induction journal with
    | nil => exact fun _ h => h
    | cons w ws ih =>
        intro l₀ h₀
        rw [replayFrom]
        rcases hw : ledgerReplayFold P l₀ w with ⟨l₁, e₁⟩
        have h₁ := ledgerReplayFold_bits h₀ hw
        cases e₁ with
        | none => exact ih l₁ h₁
        | _ => exact h₁
  have := hfrom journal Ledger.empty Bits.empty
  unfold replay at h
  rw [h] at this
  exact this

/-! ## Transitions -/

omit [DecidableEq V] in
/-- A vote in an open cell. -/
theorem Bits.vote {l : Ledger V} (h : Bits l) {cell promised ballot : Nat} {value : V}
    (hopen : (l.cells cell).state ≠ .chosen) :
    Bits (ledgerRecordVote (ledgerSetPromiseAt l cell promised) cell ballot value) := by
  refine (h.setPromiseAt _ _).recordVote ?_
  rw [ledgerSetPromiseAt_cells]
  exact hopen

omit [DecidableEq V] in
/-- A step of the learner keeps the bitmaps true. -/
theorem Learn.bits {σ σ' : St V} (h : Learn P I σ σ') (hbits : Bits σ.node.ledger) :
    Bits σ'.node.ledger := by
  cases h with
  | claim => exact hbits.open _ _
  | choose => exact hbits.recordChosen _ _
  | _ => exact hbits

/-- A small step keeps the bitmaps in agreement with the cells. -/
theorem Micro.bits {σ σ' : St V} (h : Micro P I σ σ') (hbits : Bits σ.node.ledger) :
    Bits σ'.node.ledger := by
  cases h with
  | learn h => exact h.bits hbits
  | promiseAt => exact hbits.setPromiseAt _ _
  | vote _ _ _ _ hopen => exact hbits.vote hopen
  | drive _ _ _ _ _ hopen => exact hbits.vote hopen
  | own _ _ _ _ _ _ _ _ _ hopen => exact hbits.vote hopen
  | promise => exact hbits.congr rfl rfl rfl
  | report =>
      rw [show ∀ (n : Node V) (member cell slot vote : Nat) (state : CellState) (value : V),
          (recordReport n member cell slot vote state value).1.ledger = n.ledger from
        fun n member cell slot vote state value => by
          unfold recordReport
          dsimp only
          split_ifs <;> rfl]
      exact hbits
  | _ => exact hbits

/-- So does an operation. -/
theorem Completes.bits {n₀ : Node V} {σ σ' : St V} (h : Completes P I n₀ σ σ')
    (hbits : Bits σ.node.ledger) : Bits σ'.node.ledger := by
  obtain ⟨τ, hrun, hlast⟩ := h
  have hτ : Bits τ.node.ledger :=
    hrun.preserves (motive := fun τ => Bits τ.node.ledger) (fun hm hb => hm.bits hb) hbits
  rcases hlast with rfl | hfinal
  · exact hτ
  · cases hfinal <;> exact hτ.congr rfl rfl rfl

/-- An operation keeps the bitmaps in agreement with the cells. -/
theorem operate_bits {n : Node V} (ho : Opened P n) (hbits : Bits n.ledger) (op : Operation V) :
    Bits (operate P n op).node.ledger := by
  rcases operate_cases ho op with hc | ⟨anchor, rfl⟩ | ⟨through, rfl⟩ | ⟨enabled, rfl⟩
  · exact hc.bits hbits
  · simp only [operate, nodeInstallChosenTrim]
    split_ifs <;> exact hbits.congr rfl rfl rfl
  · simp only [operate, nodeAdvanceMemoryFloor]
    split_ifs <;> exact hbits
  · exact hbits

/-! ## Every reachable state -/

omit [DecidableEq V] in
/-- Clearing the open cells on a resume clears their bits. -/
theorem nodeResumeAt_bits {n : Node V} (base : Nat) (hbits : Bits n.ledger) :
    Bits (nodeResumeAt P n base).ledger := by
  have hclear := (clearOpenCells_cells (P := P) base n.ledger).bits hbits
  unfold nodeResumeAt
  dsimp only
  split_ifs <;> exact hclear

/-- The bitmaps agree with the cells in every reachable state. -/
theorem Reachable.bits [Inhabited V] {n : Node V} (h : Reachable P n) : Bits n.ledger := by
  have hinit : ∀ {id : Nat} {membership : Membership} {options : NodeOptions} {n : Node V},
      nodeInit id membership options = .ok n → Bits n.ledger := by
    intro id membership options n h
    unfold nodeInit at h
    split at h
    · cases h
    · cases h
      exact Bits.empty
  induction h with
  | init _ h => exact hinit h
  | learner _ h =>
      unfold nodeInitLearner at h
      split_ifs at h
      split at h
      · cases h
      · next n₀ hn₀ =>
          have hbits := hinit hn₀
          cases h
          exact hbits
  | restore _ _ _ hreplay h =>
      unfold nodeRestore at h
      split at h
      · cases h
      · cases h
        exact nodeResumeAt_bits _ (replay_bits hreplay)
  | restoreLearner _ _ hreplay h =>
      unfold nodeRestoreLearner at h
      split at h
      · cases h
      · cases h
        exact nodeResumeAt_bits _ (replay_bits hreplay)
  | continueAt _ _ h =>
      unfold nodeContinueAt at h
      split_ifs at h
      split at h
      · cases h
      · next n₀ hn₀ =>
          cases h
          exact nodeResumeAt_bits _ ((hinit hn₀).congr rfl rfl rfl)
  | @recover n n' anchor _ _ _ h ih =>
      unfold nodeBeginRecovery at h
      split at h
      · next l hl =>
          cases h
          have hfold : ledgerReplayFold P n.ledger (.trim anchor) = (l, .none) := hl
          have hbits := ledgerReplayFold_bits ih hfold
          exact nodeResumeAt_bits _ hbits
      · cases h
  | operate hn op ih => exact operate_bits hn.fit.opened ih op

end Steps

end PaxosOdin
