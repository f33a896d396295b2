import PaxosOdin.Lifetime.Delivery

/-!
# One member across its crashes

The history of one member with its journal: operations one after the other, and restarts from what
a crash left of the journal.  The node of a restart is restored from the fold of the journal, at a
slot that its host has durably consumed and that is no lower than any earlier floor.

Main definitions:

- Definition `Tenure.step`: one operation or one restart.
- Definition `Tenure.Reaches`: the runs whose steps all meet a condition.
-/

namespace PaxosOdin

variable {V : Type}

/-- The slots of a batch that were released through `pass_through`. -/
def Effects.passedSlots (e : Effects V) : List Nat :=
  (e.committed.filter (·.passThrough)).map (·.slot)

/-- A member and its records: `journal` holds those of all completed batches, `batch` those of the
last operation.  `settled` is the prefix that was released before that operation, and `passed` the
slots that this incarnation released through `pass_through`. -/
structure Tenure (V : Type) where
  node : Node V
  journal : List (Write V) := []
  batch : List (Write V) := []
  settled : Nat := 0
  passed : List Nat := []

/-- The records that are durable after a crash that kept `kept` records of the last batch. -/
def Tenure.durable (t : Tenure V) (kept : Nat) : List (Write V) :=
  t.journal ++ t.batch.take kept

/-- How far a host can have consumed the log when `kept` records of the last batch are durable:
an entry is applied after every record of its batch. -/
def Tenure.consumable (t : Tenure V) (kept : Nat) : Nat :=
  if t.batch.length ≤ kept then t.node.deliveredThrough else t.settled

/-- The options of a restart: the mode of a member does not change. -/
def Tenure.optionsFor (t : Tenure V) (options : NodeOptions) : NodeOptions :=
  { options with rotatingOwnership := t.node.ownership }

/-- An operation, or a crash and a restart. -/
inductive TenureEvent (V : Type) where
  | operate (op : Operation V)
  | restart (kept floor : Nat) (options : NodeOptions)

/-- The slot numbers of a record are 64-bit words. -/
def Write.Word : Write V → Prop
  | .promise _ => True
  | .promiseAt _ slot => slot ≤ maxSlot
  | .vote _ slot _ => slot ≤ maxSlot
  | .chosen slot _ => slot ≤ maxSlot
  | .trim anchor => anchor.chosenTrimSlot ≤ maxSlot

theorem Write.Word.slot_le {w : Write V} (h : w.Word) : w.slot ≤ maxSlot := by
  cases w with
  | promise => exact Nat.zero_le _
  | trim => exact Nat.zero_le _
  | promiseAt => exact h
  | vote => exact h
  | chosen => exact h

section Runs

variable [DecidableEq V] [Inhabited V]

/-- One step of the history of the member `id`. -/
def Tenure.step (P : Params) (id : Nat) (membership : Membership) (t : Tenure V) :
    TenureEvent V → Option (Tenure V)
  | .operate op =>
      let σ := operate P t.node op
      some
        { node := σ.node
          journal := t.journal ++ t.batch
          batch := σ.effects.writes
          settled := t.node.deliveredThrough
          passed := t.passed ++ σ.effects.passedSlots }
  | .restart kept floor options =>
      if floor < t.node.memoryFloor ∨ t.consumable kept < floor then none
      else
        match replay P (t.durable kept) with
        | (l, .none) =>
            match nodeRestore P id membership l floor (t.optionsFor options) with
            | .ok n => some { node := n, journal := t.durable kept, settled := n.deliveredThrough }
            | .error _ => none
        | _ => none

/-- The states of the runs whose steps all meet the condition `ok`. -/
inductive Tenure.Reaches (P : Params) (id : Nat) (membership : Membership)
    (ok : Tenure V → TenureEvent V → Prop) (start : Tenure V) : Tenure V → Prop
  | refl : Tenure.Reaches P id membership ok start start
  | step {t t' : Tenure V} {e : TenureEvent V} (h : Tenure.Reaches P id membership ok start t)
      (hok : ok t e) (hstep : t.step P id membership e = some t') :
      Tenure.Reaches P id membership ok start t'

/-- The state after a list of events, if all of them are possible. -/
def Tenure.run (P : Params) (id : Nat) (membership : Membership) (t : Tenure V) :
    List (TenureEvent V) → Option (Tenure V)
  | [] => some t
  | e :: events => do
      let t ← t.step P id membership e
      t.run P id membership events

variable {P : Params} {id : Nat} {membership : Membership}
  {ok : Tenure V → TenureEvent V → Prop} {start : Tenure V}

/-- What holds at the start and is kept by every step that meets the condition holds
throughout. -/
theorem Tenure.Reaches.invariant {motive : Tenure V → Prop} {t : Tenure V}
    (h : Tenure.Reaches P id membership ok start t) (hstart : motive start)
    (hkeep : ∀ {t t' : Tenure V} {e : TenureEvent V}, motive t → ok t e →
      t.step P id membership e = some t' → motive t') : motive t := by
  induction h with
  | refl => exact hstart
  | step _ hok hstep ih => exact hkeep ih hok hstep

/-- A run goes on with an operation that meets the condition. -/
theorem Tenure.Reaches.operate {t : Tenure V} (h : Tenure.Reaches P id membership ok start t)
    (op : Operation V) (hok : ok t (.operate op)) :
    Tenure.Reaches P id membership ok start
      { node := (PaxosOdin.operate P t.node op).node
        journal := t.journal ++ t.batch
        batch := (PaxosOdin.operate P t.node op).effects.writes
        settled := t.node.deliveredThrough
        passed := t.passed ++ (PaxosOdin.operate P t.node op).effects.passedSlots } :=
  h.step hok rfl

/-- A list of events is a run without a condition. -/
theorem Tenure.Reaches.of_run {t t' : Tenure V} {events : List (TenureEvent V)}
    (h : Tenure.Reaches P id membership (fun _ _ => True) start t)
    (hrun : t.run P id membership events = some t') :
    Tenure.Reaches P id membership (fun _ _ => True) start t' := by
  induction events generalizing t with
  | nil =>
      cases hrun
      exact h
  | cons e events ih =>
      obtain ⟨t₁, hstep, hrest⟩ := Option.bind_eq_some_iff.mp hrun
      exact ih (h.step trivial hstep) hrest

/-! ## Restarts -/

omit [DecidableEq V] [Inhabited V] in
/-- A claim changes the owner of no other cell. -/
theorem ledgerClaim_owner {l l' : Ledger V} {slot : Nat} (h : ledgerClaim P l slot = some l')
    (i : Nat) : (l'.cells i).slot = (l.cells i).slot ∨
      (i = cellOf slot P.W ∧ (l'.cells i).slot = slot) := by
  unfold ledgerClaim at h
  dsimp only at h
  split_ifs at h <;> cases h
  · exact Or.inl rfl
  · rw [ledgerOpen_cells]
    split_ifs with hi
    · exact Or.inr ⟨hi, rfl⟩
    · exact Or.inl rfl

omit [DecidableEq V] [Inhabited V] in
theorem ledgerClaim_anchor {l l' : Ledger V} {slot : Nat} (h : ledgerClaim P l slot = some l') :
    l'.anchor = l.anchor := by
  unfold ledgerClaim at h
  dsimp only at h
  split_ifs at h <;> cases h <;> rfl

/-- What one record does to the owners of the cells and to the anchor. -/
structure FoldStep (P : Params) (w : Write V) (l l' : Ledger V) : Prop where
  owner : ∀ i, (l'.cells i).slot = (l.cells i).slot ∨
    (i = cellOf w.slot P.W ∧ (l'.cells i).slot = w.slot)
  anchor : l'.anchor = l.anchor ∨ w = .trim l'.anchor

omit [Inhabited V] in
/-- One record gives at most its own cell to its own slot. -/
theorem ledgerReplayFold_step {l l' : Ledger V} {w : Write V} {e : Error}
    (h : ledgerReplayFold P l w = (l', e)) : FoldStep P w l l' := by
  have hsame : FoldStep P w l l := ⟨fun i => Or.inl rfl, Or.inl rfl⟩
  cases w with
  | promise ballot =>
      cases h
      exact ⟨fun i => Or.inl rfl, Or.inl rfl⟩
  | trim anchor =>
      refine ⟨fun i => Or.inl (by rw [ledgerApply_trim_cells (P := P) h]), ?_⟩
      simp only [ledgerReplayFold, ledgerApply] at h
      split_ifs at h <;> cases h
      · exact Or.inl rfl
      · exact Or.inl rfl
      · exact Or.inr rfl
  | promiseAt ballot slot =>
      simp only [ledgerReplayFold] at h
      by_cases h0 : slot = 0
      · rw [if_pos h0] at h
        cases h
        exact hsame
      · rw [if_neg h0] at h
        cases hclaim : ledgerClaim P l slot with
        | none =>
            rw [hclaim] at h
            cases h
            exact hsame
        | some l₁ =>
            rw [hclaim] at h
            cases h
            have hanchor : l₁.anchor = l.anchor := ledgerClaim_anchor hclaim
            refine ⟨fun i => ?_, Or.inl hanchor⟩
            rw [ledgerSetPromiseAt_cells]
            exact ledgerClaim_owner hclaim i
  | vote ballot slot value =>
      simp only [ledgerReplayFold] at h
      by_cases h0 : slot = 0
      · rw [if_pos h0] at h
        cases h
        exact hsame
      · rw [if_neg h0] at h
        cases hclaim : ledgerClaim P l slot with
        | none =>
            rw [hclaim] at h
            cases h
            exact hsame
        | some l₁ =>
            have hanchor := ledgerClaim_anchor hclaim
            have howner := ledgerClaim_owner hclaim
            rw [hclaim] at h
            dsimp only at h
            split_ifs at h <;> cases h
            · exact ⟨howner, Or.inl hanchor⟩
            · exact ⟨fun i => by rw [ledgerSetPromiseAt_cells]; exact howner i, Or.inl hanchor⟩
            · refine ⟨fun i => ?_, Or.inl hanchor⟩
              rw [ledgerRecordVote_cells, ledgerSetPromiseAt_cells]
              exact howner i
  | chosen slot value =>
      simp only [ledgerReplayFold, ledgerApply] at h
      by_cases h0 : slot = 0
      · rw [if_pos h0] at h
        cases h
        exact hsame
      · rw [if_neg h0] at h
        cases hclaim : ledgerClaim P l slot with
        | none =>
            rw [hclaim] at h
            cases h
            exact hsame
        | some l₁ =>
            have hanchor := ledgerClaim_anchor hclaim
            have howner := ledgerClaim_owner hclaim
            rw [hclaim] at h
            dsimp only at h
            split_ifs at h <;> cases h
            · exact ⟨howner, Or.inl hanchor⟩
            · exact ⟨fun i => by rw [ledgerRecordChosen_cells]; exact howner i, Or.inl hanchor⟩

/-- Where the owners and the anchor of a fold come from. -/
structure ReplaySource (P : Params) (log : List (Write V)) (l : Ledger V) : Prop where
  owner : ∀ i, (l.cells i).slot ≠ 0 →
    cellOf (l.cells i).slot P.W = i ∧ ∃ w ∈ log, w.slot = (l.cells i).slot
  anchor : l.anchor = {} ∨ .trim l.anchor ∈ log

/-- A cell of the fold belongs to a slot that the journal records. -/
theorem replay_source {log : List (Write V)} {l : Ledger V} (h : replay P log = (l, .none)) :
    ReplaySource P log l := by
  induction log using List.reverseRecOn generalizing l with
  | nil =>
      cases h
      exact ⟨fun i h0 => absurd rfl h0, Or.inl rfl⟩
  | append_singleton log w ih =>
      unfold replay at h ih
      rw [replayFrom_concat] at h
      rcases hfold : replayFrom P Ledger.empty log with ⟨l₁, e⟩
      rw [hfold] at h
      cases e with
      | none =>
          have hstep := ledgerReplayFold_step h
          have hlog := ih hfold
          refine ⟨fun i h0 => ?_, ?_⟩
          · rcases hstep.owner i with hold | ⟨hi, hnew⟩
            · rw [hold] at h0 ⊢
              obtain ⟨htag, x, hx, hslot⟩ := hlog.owner i h0
              exact ⟨htag, x, List.mem_append_left _ hx, hslot⟩
            · rw [hnew]
              exact ⟨hi.symm, w, by simp, rfl⟩
          · rcases hstep.anchor with hold | hnew
            · rw [hold]
              exact hlog.anchor.imp_right fun hx => List.mem_append_left _ hx
            · exact Or.inr (by simp [hnew])
      | _ => cases h

omit [DecidableEq V] [Inhabited V] in
/-- A fold of words has words. -/
theorem ReplaySource.words {log : List (Write V)} {l : Ledger V} (h : ReplaySource P log l)
    (hwords : ∀ w ∈ log, w.Word) : l.Words := by
  constructor
  · intro i
    by_cases h0 : (l.cells i).slot = 0
    · rw [h0]
      exact Nat.zero_le _
    · obtain ⟨-, w, hw, hslot⟩ := h.owner i h0
      rw [← hslot]
      exact (hwords w hw).slot_le
  · rcases h.anchor with hzero | hmem
    · rw [hzero]
      exact Nat.zero_le _
    · exact hwords _ hmem

/-- What a restart restores. -/
theorem Tenure.step_restart {t t' : Tenure V} {kept floor : Nat} {options : NodeOptions}
    (h : t.step P id membership (.restart kept floor options) = some t') :
    t.node.memoryFloor ≤ floor ∧ floor ≤ t.consumable kept ∧
      t' = { node := t'.node, journal := t.durable kept, settled := t'.node.deliveredThrough } ∧
        ∃ l, replay P (t.durable kept) = (l, .none) ∧
          nodeRestore P id membership l floor (t.optionsFor options) = .ok t'.node := by
  unfold Tenure.step at h
  dsimp only at h
  split_ifs at h with hfloor
  rw [not_or, not_lt, not_lt] at hfloor
  split at h
  · next l hl =>
      split at h
      · next n hn =>
          cases h
          exact ⟨hfloor.1, hfloor.2, rfl, l, hl, hn⟩
      · cases h
  · cases h

end Runs

end PaxosOdin
