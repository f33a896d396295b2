import PaxosOdin.Acceptor.Fold

/-!
# Strict replay

A journal may be applied in strict order, where a record that contradicts the
ledger is an error, or folded as a lifetime journal, where late records are
skipped.  Both open the cell of a record before they have checked all of it.  A
cell that was just opened carries no promise, vote or decision, so no later check
of the same record can fail: an error leaves the ledger as it was, and whatever
strict application accepts is what the fold does.

Main results:

- Theorem `ledgerApply_error`: a record that is refused changes nothing.
- Theorem `ledgerReplayFold_of_apply`: a record that is accepted is folded to the same ledger.
- Theorem `ledgerApply_again`: applying it again changes nothing.
- Theorem `strict_replay`: all of this for journals applied from the empty ledger.
-/

namespace PaxosOdin

variable {V : Type} {P : Params} {l l₁ l₂ : Ledger V}

/-! ## Updates that change nothing -/

/-- Promising what was promised changes nothing. -/
theorem ledgerSetPromiseAt_self {cell ballot : Nat} (h : (l.cells cell).promisedAt = ballot) :
    ledgerSetPromiseAt l cell ballot = l := by
  subst h
  unfold ledgerSetPromiseAt
  rw [Function.update_eq_self]

/-- Recording a vote twice changes nothing. -/
theorem ledgerRecordVote_self {cell ballot : Nat} {value : V}
    (hballot : (l.cells cell).voteBallot = ballot) (hvalue : (l.cells cell).value = value)
    (hstate : (l.cells cell).state = .voted) (hused : cell ∈ l.used) :
    ledgerRecordVote l cell ballot value = l := by
  subst hballot hvalue
  unfold ledgerRecordVote
  rw [← hstate, Function.update_eq_self, Finset.insert_eq_of_mem hused]

/-- Recording a decision twice changes nothing. -/
theorem ledgerRecordChosen_self {cell : Nat} {value : V} (hvalue : (l.cells cell).value = value)
    (hstate : (l.cells cell).state = .chosen) (hused : cell ∈ l.used) (hchosen : cell ∈ l.chosen) :
    ledgerRecordChosen l cell value = l := by
  subst hvalue
  unfold ledgerRecordChosen
  rw [← hstate, Function.update_eq_self, Finset.insert_eq_of_mem hused,
    Finset.insert_eq_of_mem hchosen]

/-! ## Claims -/

/-- A cell that its slot holds is claimed as it is. -/
theorem ledgerClaim_held {slot : Nat} (h : (l.cells (cellOf slot P.W)).slot = slot) :
    ledgerClaim P l slot = some l := by
  unfold ledgerClaim
  dsimp only
  rw [if_pos h]

/-- A claim finds the cell of its slot, or opens it: then it is empty and free of promises. -/
structure ReplayClaimed (P : Params) (l l₁ : Ledger V) (slot : Nat) : Prop where
  promised : l₁.promised = l.promised
  tagged : (l₁.cells (cellOf slot P.W)).slot = slot
  opened : l₁ = l ∨ ((l₁.cells (cellOf slot P.W)).state = .empty ∧
    (l₁.cells (cellOf slot P.W)).promisedAt = 0)

/-- What a claim leaves for the fold. -/
theorem ledgerClaim_claimed {slot : Nat} (h : ledgerClaim P l slot = some l₁) :
    ReplayClaimed P l l₁ slot := by
  unfold ledgerClaim at h
  dsimp only at h
  split_ifs at h with hheld hfree
  · cases h
    exact ⟨rfl, hheld, .inl rfl⟩
  · cases h
    constructor
    · rfl
    · rw [ledgerOpen_cells, if_pos rfl]
    · right
      rw [ledgerOpen_cells, if_pos rfl]
      exact ⟨rfl, rfl⟩

/-- A check that fails on a claimed cell fails on a cell that was there before. -/
theorem ReplayClaimed.eq_of_promise {slot ballot : Nat} (h : ReplayClaimed P l l₁ slot)
    (hlow : ballot < (l₁.cells (cellOf slot P.W)).promisedAt) : l₁ = l := by
  rcases h.opened with heq | ⟨-, hzero⟩
  · exact heq
  · omega

/-- Claiming a cell that is in use changes nothing. -/
theorem ReplayClaimed.eq_of_state {slot : Nat} (h : ReplayClaimed P l l₁ slot)
    (hstate : (l₁.cells (cellOf slot P.W)).state ≠ .empty) : l₁ = l := by
  rcases h.opened with heq | ⟨hempty, -⟩
  · exact heq
  · exact absurd hempty hstate

section Replay

variable [DecidableEq V]

/-! ## Errors -/

/-- A record that strict application refuses changes nothing. -/
theorem ledgerApply_error {w : Write V} (h : (ledgerApply P l w).2 ≠ .none) :
    (ledgerApply P l w).1 = l := by
  cases w with
  | promise ballot =>
      simp only [ledgerApply] at h ⊢
      split_ifs at h ⊢
      · rfl
      · exact absurd rfl h
  | promiseAt ballot slot =>
      simp only [ledgerApply] at h ⊢
      split_ifs at h ⊢
      · rfl
      cases hclaim : ledgerClaim P l slot with
      | none => rfl
      | some l₁ =>
          have hclaimed := ledgerClaim_claimed hclaim
          rw [hclaim] at h
          dsimp only at h ⊢
          split_ifs at h ⊢ with hlow
          · exact hclaimed.eq_of_promise hlow
          · exact absurd rfl h
  | vote ballot slot value =>
      simp only [ledgerApply] at h ⊢
      split_ifs at h ⊢
      · rfl
      · rfl
      cases hclaim : ledgerClaim P l slot with
      | none => rfl
      | some l₁ =>
          have hclaimed := ledgerClaim_claimed hclaim
          rw [hclaim] at h
          dsimp only at h ⊢
          by_cases hlow : ballot < (l₁.cells (cellOf slot P.W)).promisedAt
          · rw [if_pos hlow]
            exact hclaimed.eq_of_promise hlow
          rw [if_neg hlow] at h ⊢
          by_cases hvalue : (l₁.cells (cellOf slot P.W)).state = .voted ∧
              (l₁.cells (cellOf slot P.W)).voteBallot = ballot ∧
                (l₁.cells (cellOf slot P.W)).value ≠ value
          · rw [if_pos hvalue]
            apply hclaimed.eq_of_state
            rw [hvalue.1]
            decide
          rw [if_neg hvalue] at h ⊢
          by_cases hcommit : (l₁.cells (cellOf slot P.W)).state = .chosen ∧
              (l₁.cells (cellOf slot P.W)).value ≠ value
          · rw [if_pos hcommit]
            apply hclaimed.eq_of_state
            rw [hcommit.1]
            decide
          rw [if_neg hcommit] at h
          exact absurd rfl h
  | chosen slot value =>
      simp only [ledgerApply] at h ⊢
      split_ifs at h ⊢
      · rfl
      cases hclaim : ledgerClaim P l slot with
      | none => rfl
      | some l₁ =>
          have hclaimed := ledgerClaim_claimed hclaim
          rw [hclaim] at h
          dsimp only at h ⊢
          split_ifs at h ⊢ with hcommit
          · apply hclaimed.eq_of_state
            rw [hcommit.1]
            decide
          · exact absurd rfl h
  | trim anchor =>
      simp only [ledgerApply] at h ⊢
      split_ifs at h ⊢
      · rfl
      · rfl
      · exact absurd rfl h

/-! ## What strict application accepts -/

/-- What strict application does with a vote it accepts. -/
structure VoteAccepted (P : Params) (l l₁ : Ledger V) (ballot slot : Nat) (value : V) : Prop where
  positive : slot ≠ 0
  promised : l.promised ≤ ballot
  claimed : ledgerClaim P l slot = some l₁
  promisedAt : (l₁.cells (cellOf slot P.W)).promisedAt ≤ ballot
  voted : (l₁.cells (cellOf slot P.W)).state = .voted →
    (l₁.cells (cellOf slot P.W)).voteBallot = ballot → (l₁.cells (cellOf slot P.W)).value = value
  chosen : (l₁.cells (cellOf slot P.W)).state = .chosen →
    (l₁.cells (cellOf slot P.W)).value = value

/-- The ledger after an accepted vote. -/
def voteApplied (P : Params) (l₁ : Ledger V) (ballot slot : Nat) (value : V) : Ledger V :=
  let cell := cellOf slot P.W
  let l := ledgerSetPromiseAt l₁ cell ballot
  if (l₁.cells cell).state = .chosen then l else ledgerRecordVote l cell ballot value

/-- When a vote is accepted, and what it leaves. -/
theorem ledgerApply_vote_iff {ballot slot : Nat} {value : V} :
    ledgerApply P l (.vote ballot slot value) = (l₂, .none) ↔
      ∃ l₁, VoteAccepted P l l₁ ballot slot value ∧ l₂ = voteApplied P l₁ ballot slot value := by
  constructor
  · intro h
    simp only [ledgerApply] at h
    by_cases hzero : slot = 0
    · rw [if_pos hzero] at h
      cases h
    rw [if_neg hzero] at h
    by_cases hpromised : ballot < l.promised
    · rw [if_pos hpromised] at h
      cases h
    rw [if_neg hpromised] at h
    cases hclaim : ledgerClaim P l slot with
    | none =>
        rw [hclaim] at h
        cases h
    | some l₁ =>
        rw [hclaim] at h
        dsimp only at h
        by_cases hlow : ballot < (l₁.cells (cellOf slot P.W)).promisedAt
        · rw [if_pos hlow] at h
          cases h
        rw [if_neg hlow] at h
        split_ifs at h with hvalue hcommit hchosen <;> cases h
        all_goals
          refine ⟨l₁, ⟨hzero, not_lt.1 hpromised, hclaim, not_lt.1 hlow, ?_, ?_⟩, ?_⟩
          · intro hstate hballot
            by_contra hne
            exact hvalue ⟨hstate, hballot, hne⟩
          · intro hstate
            by_contra hne
            exact hcommit ⟨hstate, hne⟩
          · simp only [voteApplied, hchosen, if_true, if_false]
  · rintro ⟨l₁, haccepted, rfl⟩
    simp only [ledgerApply]
    rw [if_neg haccepted.positive, if_neg (not_lt.2 haccepted.promised), haccepted.claimed]
    dsimp only
    rw [if_neg (not_lt.2 haccepted.promisedAt), if_neg, if_neg]
    · rfl
    · rintro ⟨hstate, hvalue⟩
      exact hvalue (haccepted.chosen hstate)
    · rintro ⟨hstate, hballot, hvalue⟩
      exact hvalue (haccepted.voted hstate hballot)

/-- The cell of an accepted vote shows it, or the decision on its value. -/
structure VoteShown (P : Params) (l : Ledger V) (ballot slot : Nat) (value : V) : Prop where
  promised : l.promised ≤ ballot
  tagged : (l.cells (cellOf slot P.W)).slot = slot
  promisedAt : (l.cells (cellOf slot P.W)).promisedAt = ballot
  value : (l.cells (cellOf slot P.W)).value = value
  state : (l.cells (cellOf slot P.W)).state = .chosen ∨
    ((l.cells (cellOf slot P.W)).state = .voted ∧
      (l.cells (cellOf slot P.W)).voteBallot = ballot ∧ cellOf slot P.W ∈ l.used)

omit [DecidableEq V] in
/-- An accepted vote shows in the ledger. -/
theorem VoteAccepted.shown {ballot slot : Nat} {value : V}
    (h : VoteAccepted P l l₁ ballot slot value) :
    VoteShown P (voteApplied P l₁ ballot slot value) ballot slot value := by
  have hclaimed := ledgerClaim_claimed h.claimed
  have hpromised : l₁.promised ≤ ballot := by
    rw [hclaimed.promised]
    exact h.promised
  unfold voteApplied
  by_cases hchosen : (l₁.cells (cellOf slot P.W)).state = .chosen
  · simp only [if_pos hchosen]
    constructor
    · exact hpromised
    · rw [ledgerSetPromiseAt_cells]
      exact hclaimed.tagged
    · rw [ledgerSetPromiseAt_cells, if_pos rfl]
    · rw [ledgerSetPromiseAt_cells]
      exact h.chosen hchosen
    · left
      rw [ledgerSetPromiseAt_cells]
      exact hchosen
  · simp only [if_neg hchosen]
    constructor
    · exact hpromised
    · rw [ledgerRecordVote_cells, ledgerSetPromiseAt_cells]
      exact hclaimed.tagged
    · rw [ledgerRecordVote_cells, ledgerSetPromiseAt_cells, if_pos rfl]
    · rw [ledgerRecordVote_cells]
      exact if_pos rfl
    · right
      rw [ledgerRecordVote_cells, if_pos rfl, if_pos rfl]
      exact ⟨rfl, rfl, Finset.mem_insert_self _ _⟩

/-- A vote that is already shown is accepted and changes nothing. -/
theorem VoteShown.apply {ballot slot : Nat} {value : V} (hzero : slot ≠ 0)
    (h : VoteShown P l ballot slot value) :
    ledgerApply P l (.vote ballot slot value) = (l, .none) := by
  rw [ledgerApply_vote_iff]
  refine ⟨l, ?_, ?_⟩
  · constructor
    · exact hzero
    · exact h.promised
    · exact ledgerClaim_held h.tagged
    · exact h.promisedAt.le
    · intro _ _
      exact h.value
    · intro _
      exact h.value
  · unfold voteApplied
    dsimp only
    rw [ledgerSetPromiseAt_self h.promisedAt]
    rcases h.state with hchosen | ⟨hvoted, hballot, hused⟩
    · rw [if_pos hchosen]
    · rw [if_neg (by rw [hvoted]; decide), ledgerRecordVote_self hballot h.value hvoted hused]

/-! ## The fold of what strict application accepts -/

/-- A record that strict application accepts is folded to the same ledger. -/
theorem ledgerReplayFold_of_apply {w : Write V} (h : ledgerApply P l w = (l₂, .none)) :
    ledgerReplayFold P l w = (l₂, .none) := by
  cases w with
  | promise ballot =>
      simp only [ledgerApply] at h
      split_ifs at h with hlow
      cases h
      simp only [ledgerReplayFold]
      rw [max_eq_right (not_lt.1 hlow)]
      exact h
  | promiseAt ballot slot =>
      simp only [ledgerApply, ledgerReplayFold] at h ⊢
      by_cases hzero : slot = 0
      · rw [if_pos hzero] at h
        cases h
      rw [if_neg hzero] at h ⊢
      cases hclaim : ledgerClaim P l slot with
      | none =>
          rw [hclaim] at h
          cases h
      | some l₁ =>
          rw [hclaim] at h
          dsimp only at h ⊢
          split_ifs at h with hlow
          · cases h
          · rw [max_eq_right (not_lt.1 hlow)]
            exact h
  | vote ballot slot value =>
      obtain ⟨l₁, haccepted, rfl⟩ := ledgerApply_vote_iff.1 h
      simp only [ledgerReplayFold]
      rw [if_neg haccepted.positive, haccepted.claimed]
      dsimp only
      rw [if_neg, max_eq_right haccepted.promisedAt]
      · rfl
      · rintro ⟨hstate, hballot, hvalue⟩
        exact hvalue (haccepted.voted hstate hballot)
  | chosen slot value => exact h
  | trim anchor => exact h

/-! ## Applying a record again -/

/-- A record that was just accepted is accepted again and changes nothing. -/
theorem ledgerApply_again {w : Write V} (h : ledgerApply P l w = (l₂, .none)) :
    ledgerApply P l₂ w = (l₂, .none) := by
  cases w with
  | promise ballot =>
      simp only [ledgerApply] at h
      split_ifs at h with hlow
      · cases h
      · cases h
        simp [ledgerApply]
  | promiseAt ballot slot =>
      simp only [ledgerApply] at h
      by_cases hzero : slot = 0
      · rw [if_pos hzero] at h
        cases h
      rw [if_neg hzero] at h
      cases hclaim : ledgerClaim P l slot with
      | none =>
          rw [hclaim] at h
          cases h
      | some l₁ =>
          rw [hclaim] at h
          dsimp only at h
          by_cases hlow : ballot < (l₁.cells (cellOf slot P.W)).promisedAt
          · rw [if_pos hlow] at h
            cases h
          rw [if_neg hlow] at h
          cases h
          have htag : ((ledgerSetPromiseAt l₁ (cellOf slot P.W) ballot).cells (cellOf slot P.W)).slot
              = slot := by
            rw [ledgerSetPromiseAt_cells]
            exact (ledgerClaim_claimed hclaim).tagged
          have hpromise : ((ledgerSetPromiseAt l₁ (cellOf slot P.W) ballot).cells
              (cellOf slot P.W)).promisedAt = ballot := by
            rw [ledgerSetPromiseAt_cells, if_pos rfl]
          simp only [ledgerApply]
          rw [if_neg hzero, ledgerClaim_held htag]
          dsimp only
          rw [if_neg (by omega), ledgerSetPromiseAt_self hpromise]
  | vote ballot slot value =>
      obtain ⟨l₁, haccepted, rfl⟩ := ledgerApply_vote_iff.1 h
      exact haccepted.shown.apply haccepted.positive
  | chosen slot value =>
      simp only [ledgerApply] at h
      by_cases hzero : slot = 0
      · rw [if_pos hzero] at h
        cases h
      rw [if_neg hzero] at h
      cases hclaim : ledgerClaim P l slot with
      | none =>
          rw [hclaim] at h
          cases h
          simp only [ledgerApply]
          rw [if_neg hzero, hclaim]
      | some l₁ =>
          rw [hclaim] at h
          dsimp only at h
          by_cases hcommit : (l₁.cells (cellOf slot P.W)).state = .chosen ∧
              (l₁.cells (cellOf slot P.W)).value ≠ value
          · rw [if_pos hcommit] at h
            cases h
          rw [if_neg hcommit] at h
          cases h
          have htag : ((ledgerRecordChosen l₁ (cellOf slot P.W) value).cells (cellOf slot P.W)).slot
              = slot := by
            rw [ledgerRecordChosen_cells]
            exact (ledgerClaim_claimed hclaim).tagged
          have hvalue : ((ledgerRecordChosen l₁ (cellOf slot P.W) value).cells
              (cellOf slot P.W)).value = value := by
            rw [ledgerRecordChosen_cells]
            exact if_pos rfl
          have hstate : ((ledgerRecordChosen l₁ (cellOf slot P.W) value).cells
              (cellOf slot P.W)).state = .chosen := by
            rw [ledgerRecordChosen_cells, if_pos rfl]
          simp only [ledgerApply]
          rw [if_neg hzero, ledgerClaim_held htag]
          dsimp only
          rw [if_neg, ledgerRecordChosen_self hvalue hstate]
          · exact Finset.mem_insert_self _ _
          · exact Finset.mem_insert_self _ _
          · rintro ⟨-, hne⟩
            exact hne hvalue
  | trim anchor =>
      simp only [ledgerApply] at h
      split_ifs at h
      · cases h
      · cases h
      · cases h
        simp [ledgerApply]

/-- The cell of a folded vote: its promise covers the vote, and it shows the vote or a decision. -/
structure VoteFolded (P : Params) (l : Ledger V) (ballot slot : Nat) (value : V) : Prop where
  tagged : (l.cells (cellOf slot P.W)).slot = slot
  promisedAt : ballot ≤ (l.cells (cellOf slot P.W)).promisedAt
  state : (l.cells (cellOf slot P.W)).state = .chosen ∨
    ((l.cells (cellOf slot P.W)).state = .voted ∧
      (l.cells (cellOf slot P.W)).voteBallot = ballot ∧
      (l.cells (cellOf slot P.W)).value = value ∧ cellOf slot P.W ∈ l.used)

omit [DecidableEq V] in
/-- A vote for a decided slot leaves its promise only. -/
theorem VoteFolded.decided {ballot slot : Nat} {value : V}
    (hclaim : ledgerClaim P l slot = some l₁)
    (hchosen : (l₁.cells (cellOf slot P.W)).state = .chosen) :
    VoteFolded P (ledgerSetPromiseAt l₁ (cellOf slot P.W)
      (max (l₁.cells (cellOf slot P.W)).promisedAt ballot)) ballot slot value where
  tagged := by
    rw [ledgerSetPromiseAt_cells]
    exact (ledgerClaim_claimed hclaim).tagged
  promisedAt := by
    rw [ledgerSetPromiseAt_cells, if_pos rfl]
    exact le_max_right _ _
  state := by
    left
    rw [ledgerSetPromiseAt_cells]
    exact hchosen

omit [DecidableEq V] in
/-- A vote for an open slot leaves the vote. -/
theorem VoteFolded.voted {ballot slot : Nat} {value : V}
    (hclaim : ledgerClaim P l slot = some l₁) :
    VoteFolded P (ledgerRecordVote (ledgerSetPromiseAt l₁ (cellOf slot P.W)
      (max (l₁.cells (cellOf slot P.W)).promisedAt ballot)) (cellOf slot P.W) ballot value)
      ballot slot value where
  tagged := by
    rw [ledgerRecordVote_cells, ledgerSetPromiseAt_cells]
    exact (ledgerClaim_claimed hclaim).tagged
  promisedAt := by
    rw [ledgerRecordVote_cells, ledgerSetPromiseAt_cells, if_pos rfl]
    exact le_max_right _ _
  state := by
    right
    rw [ledgerRecordVote_cells, if_pos rfl, if_pos rfl, if_pos rfl]
    exact ⟨rfl, rfl, rfl, Finset.mem_insert_self _ _⟩

/-- Folding a vote twice changes nothing. -/
theorem VoteFolded.fold {ballot slot : Nat} {value : V} (hzero : slot ≠ 0)
    (h : VoteFolded P l ballot slot value) :
    ledgerReplayFold P l (.vote ballot slot value) = (l, .none) := by
  simp only [ledgerReplayFold]
  rw [if_neg hzero, ledgerClaim_held h.tagged]
  dsimp only
  rw [max_eq_left h.promisedAt, ledgerSetPromiseAt_self rfl]
  rcases h.state with hchosen | ⟨hvoted, hballot, hvalue, hused⟩
  · rw [if_neg, if_pos hchosen]
    rintro ⟨hvoted, -⟩
    rw [hchosen] at hvoted
    cases hvoted
  · rw [if_neg, if_neg, ledgerRecordVote_self hballot hvalue hvoted hused]
    · rw [hvoted]
      decide
    · rintro ⟨-, -, hne⟩
      exact hne hvalue

/-- A record that the fold has just accepted changes nothing when it is folded again. -/
theorem ledgerReplayFold_again {w : Write V} (h : ledgerReplayFold P l w = (l₂, .none)) :
    ledgerReplayFold P l₂ w = (l₂, .none) := by
  cases w with
  | promise ballot =>
      simp only [ledgerReplayFold] at h ⊢
      cases h
      simp
  | promiseAt ballot slot =>
      simp only [ledgerReplayFold] at h
      by_cases hzero : slot = 0
      · rw [if_pos hzero] at h
        cases h
      rw [if_neg hzero] at h
      cases hclaim : ledgerClaim P l slot with
      | none =>
          rw [hclaim] at h
          injection h with hsame herror
          subst hsame
          simp only [ledgerReplayFold]
          rw [if_neg hzero, hclaim, herror]
      | some l₁ =>
          rw [hclaim] at h
          cases h
          simp only [ledgerReplayFold]
          rw [if_neg hzero, ledgerClaim_held]
          · dsimp only
            rw [ledgerSetPromiseAt_self]
            rw [ledgerSetPromiseAt_cells, if_pos rfl]
            dsimp only
            omega
          · rw [ledgerSetPromiseAt_cells]
            exact (ledgerClaim_claimed hclaim).tagged
  | vote ballot slot value =>
      simp only [ledgerReplayFold] at h
      by_cases hzero : slot = 0
      · rw [if_pos hzero] at h
        cases h
      rw [if_neg hzero] at h
      cases hclaim : ledgerClaim P l slot with
      | none =>
          rw [hclaim] at h
          injection h with hsame herror
          subst hsame
          simp only [ledgerReplayFold]
          rw [if_neg hzero, hclaim, herror]
      | some l₁ =>
          rw [hclaim] at h
          dsimp only at h
          split_ifs at h with hconflict hchosen
          · cases h
          · cases h
            have hfolded : VoteFolded P _ ballot slot value := .decided hclaim hchosen
            exact hfolded.fold hzero
          · cases h
            have hfolded : VoteFolded P _ ballot slot value := .voted hclaim
            exact hfolded.fold hzero
  | chosen slot value =>
      simp only [ledgerReplayFold] at h ⊢
      exact ledgerApply_again h
  | trim anchor =>
      simp only [ledgerReplayFold] at h ⊢
      exact ledgerApply_again h

/-! ## Journals -/

/-- A journal applied in strict order; the host stops at the first error. -/
def applyFrom (P : Params) (l : Ledger V) : List (Write V) → Ledger V × Error
  | [] => (l, .none)
  | w :: ws =>
      match ledgerApply P l w with
      | (l, .none) => applyFrom P l ws
      | (l, e) => (l, e)

/-- A journal that strict application accepts is folded, record by record, to the same ledger. -/
theorem replayFrom_of_applyFrom {log : List (Write V)} (h : applyFrom P l log = (l₂, .none)) :
    replayFrom P l log = (l₂, .none) := by
  induction log generalizing l with
  | nil => exact h
  | cons w log ih =>
      unfold applyFrom at h
      unfold replayFrom
      rcases happly : ledgerApply P l w with ⟨l₁, e⟩
      rw [happly] at h
      cases e with
      | none =>
          rw [ledgerReplayFold_of_apply happly]
          exact ih h
      | _ => cases h

/-- Strict and lifetime replay agree, and strict application is atomic. -/
theorem strict_replay [Inhabited V] (P : Params) :
    (∀ (l : Ledger V) w, (ledgerApply P l w).2 ≠ .none → (ledgerApply P l w).1 = l) ∧
      (∀ (log : List (Write V)) l, applyFrom P Ledger.empty log = (l, .none) →
        replay P log = (l, .none)) ∧
      (∀ (l l' : Ledger V) w, ledgerApply P l w = (l', .none) →
        ledgerApply P l' w = (l', .none)) ∧
      ∀ (l l' : Ledger V) w, ledgerReplayFold P l w = (l', .none) →
        ledgerReplayFold P l' w = (l', .none) := by
  constructor
  · intro l w
    exact ledgerApply_error
  constructor
  · intro log l h
    exact replayFrom_of_applyFrom h
  constructor
  · intro l l' w
    exact ledgerApply_again
  · intro l l' w
    exact ledgerReplayFold_again

end Replay

end PaxosOdin
