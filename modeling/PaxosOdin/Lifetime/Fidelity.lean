import PaxosOdin.Lifetime.Window

/-!
# Replay fidelity

The fold of the durable records of a member, after a crash at any point: it never fails, and above
the memory floor it governs and holds what the records say.  One thing breaks this: a decision
that is released without a cell takes the cell of a live slot when it is read back.

Main results:

- Theorem `replay_ok`: the fold of records that follow the rules of a live node never fails.
- Theorem `Micro.recording`: a small step that releases nothing without a cell follows the rules.
- Theorem `replay_faithful`: every crash of every run that releases nothing without a cell.
- Theorem `replay_forgets`: a run that does.
-/

namespace PaxosOdin

variable {V : Type} {P : Params} {I : Input V}

/-- A decided slot takes no further vote and no second decision. -/
def Firm (before : List (Write V)) : Write V → Prop
  | .vote _ slot _ => ∀ v, .chosen slot v ∉ before
  | .chosen slot _ => ∀ v, .chosen slot v ∉ before
  | _ => True

/-- What the fold of `records` holds for the slots above `floor`. -/
structure Faithful (P : Params) (records : List (Write V)) (floor : Nat) (l : Ledger V) : Prop where
  promise : ∀ slot b, floor < slot →
    (.promise b ∈ records ∨ .promiseAt b slot ∈ records ∨ ∃ v, .vote b slot v ∈ records) →
    b ≤ governing P l slot
  vote : ∀ slot b v, floor < slot → IsLastVote records slot b v →
    (l.cellAt P slot).slot = slot ∧ (l.cellAt P slot).voteBallot = b ∧
      (((l.cellAt P slot).state = .voted ∧ (l.cellAt P slot).value = v) ∨
        ∃ w, .chosen slot w ∈ records)
  decision : ∀ slot v, floor < slot → .chosen slot v ∈ records → ledgerChosenAt P l slot = some v

/-! ## The fold does not fail -/

section Replay

variable [DecidableEq V] {log : List (Write V)} {l : Ledger V}

omit [DecidableEq V] in
/-- A claimed cell is the one that was held, or a fresh one. -/
theorem ledgerClaim_cases {l₁ : Ledger V} {slot : Nat} (h : ledgerClaim P l slot = some l₁) :
    (l₁ = l ∧ (l.cellAt P slot).slot = slot) ∨ (l₁.cellAt P slot).state = .empty := by
  unfold ledgerClaim at h
  dsimp only at h
  split_ifs at h with hheld hfree <;> cases h
  · exact Or.inl ⟨rfl, hheld⟩
  · exact Or.inr (by simp [Ledger.cellAt])

/-- The next record is folded without an error. -/
theorem ledgerReplayFold_ok (h : Folded P log l) {w : Write V}
    (horder : ∀ u, 0 < u → u + P.W ≤ w.slot → ∃ v, .chosen u v ∈ log)
    (hslot : (∀ b, w ≠ .promise b) → 0 < w.slot) (htrim : ∀ anchor, w ≠ .trim anchor)
    (hvote : ∀ b s v v', w = .vote b s v → .vote b s v' ∈ log → v' = v)
    (hfirm : Firm log w) : (ledgerReplayFold P l w).2 = .none := by
  have hnone : ∀ {slot : Nat}, w.slot = slot → ledgerClaim P l slot = none →
      (l.cells (cellOf slot P.W)).slot > slot := by
    rintro slot rfl hclaim
    exact h.claim_none horder hclaim
  cases w with
  | promise ballot => rfl
  | trim anchor => exact absurd rfl (htrim anchor)
  | promiseAt ballot slot =>
      have hpos : slot ≠ 0 := (hslot fun b hb => (by cases hb)).ne'
      simp only [ledgerReplayFold, if_neg hpos]
      cases hclaim : ledgerClaim P l slot with
      | none => exact if_pos (hnone rfl hclaim)
      | some l₁ => rfl
  | vote ballot slot value =>
      have hpos : slot ≠ 0 := (hslot fun b hb => (by cases hb)).ne'
      simp only [ledgerReplayFold, if_neg hpos]
      cases hclaim : ledgerClaim P l slot with
      | none => exact if_pos (hnone rfl hclaim)
      | some l₁ =>
          dsimp only
          rw [if_neg]
          rintro ⟨hstate, hballot, hne⟩
          rcases ledgerClaim_cases hclaim with ⟨rfl, hheld⟩ | hempty
          · have hshows := (h.cells (cellOf slot P.W)).shows (by
              show (l₁.cellAt P slot).slot ≠ 0
              omega)
            unfold Shows at hshows
            rw [hstate] at hshows
            have hmem := hshows.1.mem
            rw [hballot, show (l₁.cells (cellOf slot P.W)).slot = slot from hheld] at hmem
            exact hne (hvote _ _ _ _ rfl hmem)
          · rw [show (l₁.cells (cellOf slot P.W)).state = .empty from hempty] at hstate
            cases hstate
  | chosen slot value =>
      have hpos : slot ≠ 0 := (hslot fun b hb => (by cases hb)).ne'
      simp only [ledgerReplayFold, ledgerApply, if_neg hpos]
      cases hclaim : ledgerClaim P l slot with
      | none => rfl
      | some l₁ =>
          dsimp only
          rw [if_neg]
          rintro ⟨hstate, -⟩
          rcases ledgerClaim_cases hclaim with ⟨rfl, hheld⟩ | hempty
          · have hshows := (h.cells (cellOf slot P.W)).shows (by
              show (l₁.cellAt P slot).slot ≠ 0
              omega)
            unfold Shows at hshows
            rw [hstate] at hshows
            have hmem := hshows.mem
            rw [show (l₁.cells (cellOf slot P.W)).slot = slot from hheld] at hmem
            exact hfirm _ hmem
          · rw [show (l₁.cells (cellOf slot P.W)).state = .empty from hempty] at hstate
            cases hstate

variable [Inhabited V]

/-- The fold of records that follow the rules of a live node never fails. -/
theorem replay_ok {through : Nat} (hobeys : Obeys P through (entries log))
    (hfirm : Synod.Ruled Firm log) (htrim : ∀ anchor, .trim anchor ∉ log) :
    ∃ l, replay P log = (l, .none) ∧ Folded P log l := by
  induction log using List.reverseRecOn with
  | nil => exact ⟨_, rfl, replay_folded (Synod.Ruled.nil _) rfl⟩
  | append_singleton log w ih =>
      have horderly : Orderly P (log ++ [w]) := hobeys.orderly
      have hprefix : Obeys P through (entries log) := by
        rw [entries_append] at hobeys
        exact Synod.Ruled.of_append hobeys
      obtain ⟨hlog, hw⟩ := Synod.Ruled.concat_iff.mp hfirm
      obtain ⟨l, hreplay, hfold⟩ := ih hprefix hlog fun anchor hmem =>
        htrim anchor (List.mem_append_left _ hmem)
      have hrule : ∀ e, w.entry? = some e → Rule P through (entries log) e := by
        intro e he
        refine hobeys (entries log) e [] ?_
        rw [entries_append]
        simp [entries, he]
      have hok : (ledgerReplayFold P l w).2 = .none := by
        refine ledgerReplayFold_ok hfold (Synod.Ruled.concat_iff.mp horderly).2 ?_
          (fun anchor heq => htrim anchor (by simp [heq])) ?_ hw
        · intro hpromise
          cases w with
          | promise ballot => exact absurd rfl (hpromise ballot)
          | trim anchor => exact absurd (by simp) (htrim anchor)
          | promiseAt ballot slot => exact ((hrule _ rfl).live fun b hb => (by cases hb)).1
          | vote ballot slot value => exact ((hrule _ rfl).live fun b hb => (by cases hb)).1
          | chosen slot value => exact ((hrule _ rfl).live fun b hb => (by cases hb)).1
        · rintro b s v v' rfl hmem
          rcases (hrule _ rfl).law.2 b v' (vote_mem_entries.mpr hmem) with hlt | ⟨-, heq⟩
          · exact absurd hlt (lt_irrefl _)
          · exact heq
      have hall : replay P (log ++ [w]) = ((ledgerReplayFold P l w).1, .none) := by
        unfold replay at hreplay ⊢
        rw [replayFrom_concat, hreplay]
        exact Prod.ext rfl hok
      exact ⟨_, hall, replay_folded horderly hall⟩

end Replay

/-! ## What a live node records -/

/-- The cell of `slot` holds its decision. -/
def HoldsDecision (P : Params) (n : Node V) (slot : Nat) (v : V) : Prop :=
  (n.ledger.cellAt P slot).slot = slot ∧ (n.ledger.cellAt P slot).state = .chosen ∧
    (n.ledger.cellAt P slot).value = v

/-- The records of a member in the middle of a transition, when nothing was released without a
cell. -/
structure Recording (P : Params) (journal : List (Write V)) (σ : St V) : Prop where
  firm : Synod.Ruled Firm (journal ++ σ.effects.writes)
  kept : ∀ slot v, .chosen slot v ∈ journal ++ σ.effects.writes → σ.node.memoryFloor < slot →
    HoldsDecision P σ.node slot v
  within : ∀ w ∈ journal ++ σ.effects.writes, w.slot ≤ σ.node.memoryFloor + P.W
  untrimmed : ∀ anchor, .trim anchor ∉ journal ++ σ.effects.writes

/-- One more record that follows the rules. -/
theorem Recording.record {journal : List (Write V)} {σ σ' : St V} (h : Recording P journal σ)
    {w : Write V} (hw : σ'.effects.writes = σ.effects.writes ++ [w])
    (hfloor : σ'.node.memoryFloor = σ.node.memoryFloor)
    (hfirm : Firm (journal ++ σ.effects.writes) w) (hwindow : w.slot ≤ σ.node.memoryFloor + P.W)
    (htrim : ∀ anchor, w ≠ .trim anchor)
    (hold : ∀ slot v, σ.node.memoryFloor < slot → HoldsDecision P σ.node slot v →
      HoldsDecision P σ'.node slot v)
    (hnew : ∀ slot v, w = .chosen slot v → HoldsDecision P σ'.node slot v) :
    Recording P journal σ' := by
  have hmem : ∀ x, x ∈ journal ++ σ'.effects.writes ↔
      x ∈ journal ++ σ.effects.writes ∨ x = w := by
    intro x
    rw [hw, ← List.append_assoc, List.mem_append, List.mem_singleton]
  refine ⟨?_, fun slot v hx hlive => ?_, fun x hx => ?_, fun anchor hx => ?_⟩
  · rw [hw, ← List.append_assoc]
    exact h.firm.concat hfirm
  · rw [hfloor] at hlive
    rcases (hmem _).mp hx with hx | hx
    · exact hold slot v hlive (h.kept slot v hx hlive)
    · exact hnew slot v hx.symm
  · rw [hfloor]
    rcases (hmem _).mp hx with hx | rfl
    · exact h.within x hx
    · exact hwindow
  · rcases (hmem _).mp hx with hx | hx
    · exact h.untrimmed anchor hx
    · exact htrim anchor hx.symm

/-- What one small step records. -/
inductive Records (P : Params) (σ σ' : St V) : Prop
  | nothing (h : σ'.effects.writes = σ.effects.writes)
  | promise (b : Nat) (h : σ'.effects.writes = σ.effects.writes ++ [.promise b])
  | live (w : Write V) (h : σ'.effects.writes = σ.effects.writes ++ [w])
      (hlive : σ.node.memoryFloor < w.slot) (hwindow : w.slot ≤ σ.node.memoryFloor + P.W)
      (hopen : (∀ b s, w ≠ .promiseAt b s) → (σ.node.ledger.cellAt P w.slot).state ≠ .chosen)
      (hchosen : ∀ slot v, w = .chosen slot v → HoldsDecision P σ'.node slot v)
  | passed (h : σ'.effects.passedSlots ≠ [])

theorem Learn.records {σ σ' : St V} (h : Learn P I σ σ') : Records P σ σ' := by
  cases h with
  | @choose slot value _ hlive hwindow hheld hopen =>
      refine .live (.chosen slot value) rfl hlive hwindow (fun _ => hopen) ?_
      rintro s v heq
      cases heq
      simp only [Ledger.cellAt] at hheld
      simp [HoldsDecision, St.withLedger, St.addWrite, ledgerRecordChosen_cells, Ledger.cellAt, hheld]
  | pass =>
      refine .passed ?_
      simp [Effects.passedSlots, St.addCommitted]
  | _ => exact .nothing rfl

section Steps

variable [DecidableEq V]

theorem Micro.records {σ σ' : St V} (h : Micro P I σ σ') : Records P σ σ' := by
  cases h with
  | learn h => exact h.records
  | @promise ballot => exact .promise ballot rfl
  | @promiseAt ballot slot hlive hwindow _ _ =>
      exact .live (.promiseAt ballot slot) rfl hlive hwindow (fun h => absurd rfl (h _ _))
        fun s v heq => (by cases heq)
  | @vote sender ballot slot value _ hlive hwindow _ hopen =>
      exact .live (.vote ballot slot value) rfl hlive hwindow (fun _ => hopen)
        fun s v heq => (by cases heq)
  | @drive slot ballot value _ _ hlive hwindow _ hopen =>
      exact .live (.vote ballot slot value) rfl hlive hwindow (fun _ => hopen)
        fun s v heq => (by cases heq)
  | @own slot next value _ _ _ _ _ _ hlive hwindow _ hopen =>
      exact .live (.vote (ownershipBallot σ.node.id) slot value) rfl hlive hwindow (fun _ => hopen)
        fun s v heq => (by cases heq)
  | _ => exact .nothing rfl

/-- A recorded decision stays in its cell while its slot is live. -/
theorem Micro.keeps_decision {σ σ' : St V} (hm : Micro P I σ σ') {slot : Nat} {v : V}
    (hlive : σ.node.memoryFloor < slot) (h : HoldsDecision P σ.node slot v) :
    HoldsDecision P σ'.node slot v := by
  obtain ⟨hslot, hstate, hvalue⟩ := h
  have hcell := hm.cell (cellOf slot P.W)
  have hslot' := (hcell.held hslot hlive).1
  obtain ⟨hstate', hvalue'⟩ := hcell.kept hslot hslot' hstate
  exact ⟨hslot', hstate', hvalue'.trans hvalue⟩

/-- A small step that releases nothing without a cell follows the rules. -/
theorem Micro.recording {journal : List (Write V)} {σ σ' : St V} (hm : Micro P I σ σ')
    (h : Recording P journal σ) (hpassed : σ'.effects.passedSlots = []) :
    Recording P journal σ' := by
  have hfloor := memoryFloor_of_static hm.static
  rcases hm.records with hw | ⟨b, hw⟩ | ⟨w, hw, hlive, hwindow, hopen, hchosen⟩ | hnot
  · refine ⟨by rw [hw]; exact h.firm, fun slot v hmem hs => ?_, ?_, by rw [hw]; exact h.untrimmed⟩
    · rw [hw] at hmem
      rw [hfloor] at hs
      exact hm.keeps_decision hs (h.kept slot v hmem hs)
    · rw [hw, hfloor]
      exact h.within
  · exact h.record hw hfloor trivial (Nat.zero_le _) (fun _ heq => (by cases heq))
      (fun _ _ hlive => hm.keeps_decision hlive) fun _ _ heq => (by cases heq)
  · have hfresh : (∀ b s, w ≠ .promiseAt b s) → ∀ v, .chosen w.slot v ∉ journal ++ σ.effects.writes :=
      fun hne v hmem => hopen hne (h.kept w.slot v hmem hlive).2.1
    refine h.record hw hfloor ?_ hwindow ?_ (fun _ _ hs => hm.keeps_decision hs) hchosen
    · cases w with
      | promise => trivial
      | promiseAt => trivial
      | vote => exact hfresh fun b s heq => (by cases heq)
      | chosen => exact hfresh fun b s heq => (by cases heq)
      | trim => trivial
    · rintro anchor rfl
      exact absurd hlive (Nat.not_lt_zero _)
  · exact absurd hpassed hnot

/-- What was released without a cell stays in the batch. -/
theorem Micro.passed_mono {σ σ' : St V} (hm : Micro P I σ σ')
    (h : σ'.effects.passedSlots = []) : σ.effects.passedSlots = [] := by
  rcases hm.releases with ⟨-, heq⟩ | ⟨-, heq, -⟩ | ⟨-, heq, -⟩
  · rw [← heq, h]
  · rw [← heq, h]
  · rw [heq] at h
    exact absurd h (by simp)

/-- A transition that releases nothing without a cell follows the rules. -/
theorem Completes.recording {journal : List (Write V)} {n₀ : Node V} {σ σ' : St V}
    (hc : Completes P I n₀ σ σ') (h : Recording P journal σ)
    (hpassed : σ'.effects.passedSlots = []) : Recording P journal σ' := by
  obtain ⟨τ, hrun, hlast⟩ := hc
  have hτ : τ.effects.passedSlots = [] → Recording P journal τ :=
    hrun.preserves
      (motive := fun τ => τ.effects.passedSlots = [] → Recording P journal τ)
      (fun hm hrec hp => hm.recording (hrec (hm.passed_mono hp)) hp) fun _ => h
  rcases hlast with rfl | hfinal
  · exact hτ hpassed
  · have hrec := hτ (by rw [← hfinal.releases.2.1, hpassed])
    cases hfinal with
    | campaign =>
        exact hrec.record rfl rfl trivial (Nat.zero_le _) (fun _ heq => (by cases heq))
          (fun _ _ _ hd => hd) fun _ _ heq => (by cases heq)
    | revoke => exact ⟨hrec.firm, hrec.kept, hrec.within, hrec.untrimmed⟩
    | answer => exact ⟨hrec.firm, hrec.kept, hrec.within, hrec.untrimmed⟩

end Steps

/-! ## What the fold holds -/

/-- A recorded slot of the window owns its cell in the fold. -/
theorem Folded.owned {log : List (Write V)} {l : Ledger V} {floor : Nat} (h : Folded P log l)
    (hwithin : ∀ w ∈ log, w.slot ≤ floor + P.W) {w : Write V} (hw : w ∈ log)
    (hlive : floor < w.slot) : (l.cellAt P w.slot).slot = w.slot := by
  have hcell := h.cells (cellOf w.slot P.W)
  have habove : w.slot ≤ (l.cells (cellOf w.slot P.W)).slot := hcell.above w hw (by omega) rfl
  have h0 : (l.cells (cellOf w.slot P.W)).slot ≠ 0 := by omega
  obtain ⟨x, hx, hslot⟩ := h.source _ h0
  have hle := hwithin x hx
  have hlow : floor < (l.cells (cellOf w.slot P.W)).slot := by omega
  rw [hslot] at hle
  exact eq_of_cellOf_eq P hlow hle hlive (hwithin w hw) (hcell.tagged h0)

/-- The fold holds the decision of a recorded slot of the window. -/
theorem Folded.decision {log : List (Write V)} {l : Ledger V} {floor slot : Nat} {v : V}
    (h : Folded P log l) (hwithin : ∀ w ∈ log, w.slot ≤ floor + P.W)
    (hv : .chosen slot v ∈ log) (hlive : floor < slot) :
    (l.cellAt P slot).slot = slot ∧ (l.cellAt P slot).state = .chosen ∧
      DecidedAfter log slot (l.cellAt P slot).voteBallot (l.cellAt P slot).value := by
  have hslot : (l.cellAt P slot).slot = slot := h.owned hwithin hv hlive
  have h0 : (l.cellAt P slot).slot ≠ 0 := by omega
  have hshows := (h.cells (cellOf slot P.W)).shows h0
  unfold Shows at hshows
  cases hstate : (l.cellAt P slot).state with
  | empty =>
      rw [show (l.cells (cellOf slot P.W)).state = .empty from hstate,
        show (l.cells (cellOf slot P.W)).slot = slot from hslot] at hshows
      exact absurd hv (hshows.2.1 v)
  | voted =>
      rw [show (l.cells (cellOf slot P.W)).state = .voted from hstate,
        show (l.cells (cellOf slot P.W)).slot = slot from hslot] at hshows
      exact absurd hv (hshows.2 v)
  | chosen =>
      rw [show (l.cells (cellOf slot P.W)).state = .chosen from hstate,
        show (l.cells (cellOf slot P.W)).slot = slot from hslot] at hshows
      exact ⟨hslot, rfl, hshows⟩

/-- The last vote of a journal is the last vote of every front of it that has all the votes. -/
theorem IsLastVote.unique {log : List (Write V)} {slot b b' : Nat} {v v' : V}
    (h : IsLastVote log slot b v) (h' : IsLastVote log slot b' v') : b = b' ∧ v = v' := by
  obtain ⟨pre, post, hlog, hpost⟩ := h
  obtain ⟨pre', post', hlog', hpost'⟩ := h'
  rw [hlog] at hlog'
  rcases List.append_eq_append_iff.mp hlog' with ⟨mid, rfl, hmid⟩ | ⟨mid, rfl, hmid⟩
  · cases mid with
    | nil =>
        cases hmid
        exact ⟨rfl, rfl⟩
    | cons x mid =>
        rw [List.cons_append] at hmid
        cases hmid
        exact absurd (by simp) (hpost b' v')
  · cases mid with
    | nil =>
        cases hmid
        exact ⟨rfl, rfl⟩
    | cons x mid =>
        rw [List.cons_append] at hmid
        cases hmid
        exact absurd (by simp) (hpost' b v)

/-- A vote comes before the decision of its slot. -/
theorem IsLastVote.before_decision {log pre post : List (Write V)} {slot b : Nat} {v w : V}
    (h : IsLastVote log slot b v) (hfirm : Synod.Ruled Firm log)
    (hlog : log = pre ++ .chosen slot w :: post) : IsLastVote pre slot b v := by
  obtain ⟨front, back, hsplit, hback⟩ := h
  rw [hlog] at hsplit
  rcases List.append_eq_append_iff.mp hsplit with ⟨mid, hfront, hmid⟩ | ⟨mid, rfl, hmid⟩
  · cases mid with
    | nil => cases hmid
    | cons x mid =>
        rw [List.cons_append] at hmid
        cases hmid
        have hvote := hfirm front (.vote b slot v) back (by rw [hlog, hfront]; simp)
        exact absurd (by simp [hfront]) (hvote w)
  · cases mid with
    | nil => cases hmid
    | cons x mid =>
        rw [List.cons_append] at hmid
        cases hmid
        exact ⟨front, mid, rfl, fun b' v' hmem => hback b' v' (List.mem_append_left _ hmem)⟩

/-- The fold of records that follow the rules of a live node is faithful above the floor. -/
theorem Folded.faithful {log : List (Write V)} {l : Ledger V} {floor : Nat} (h : Folded P log l)
    (hfirm : Synod.Ruled Firm log) (hwithin : ∀ w ∈ log, w.slot ≤ floor + P.W) :
    Faithful P log floor l := by
  constructor
  · intro slot b hlive hb
    have hgoverns : ∀ {w : Write V}, w ∈ log → w.slot = slot →
        (.promiseAt b slot ∈ log ∨ ∃ v, .vote b slot v ∈ log) → b ≤ governing P l slot := by
      rintro w hw rfl hrec
      have hslot := h.owned hwithin hw hlive
      have hcell := h.cells (cellOf w.slot P.W)
      have h0 : (l.cells (cellOf w.slot P.W)).slot ≠ 0 := by
        rw [show (l.cells (cellOf w.slot P.W)).slot = w.slot from hslot]
        omega
      have hle := hcell.promises h0 b (by
        rw [show (l.cells (cellOf w.slot P.W)).slot = w.slot from hslot]
        exact hrec)
      unfold governing
      rw [if_pos hslot]
      exact hle.trans (le_max_right _ _)
    rcases hb with hb | hb | ⟨v, hb⟩
    · unfold governing
      split_ifs
      · exact (h.promised b hb).trans (le_max_left _ _)
      · exact h.promised b hb
    · exact hgoverns hb rfl (Or.inl hb)
    · exact hgoverns hb rfl (Or.inr ⟨v, hb⟩)
  · intro slot b v hlive hlast
    have hslot : (l.cellAt P slot).slot = slot := h.owned hwithin hlast.mem hlive
    have h0 : (l.cellAt P slot).slot ≠ 0 := by omega
    have hshows := (h.cells (cellOf slot P.W)).shows h0
    refine ⟨hslot, ?_⟩
    unfold Shows at hshows
    cases hstate : (l.cellAt P slot).state with
    | empty =>
        rw [show (l.cells (cellOf slot P.W)).state = .empty from hstate,
          show (l.cells (cellOf slot P.W)).slot = slot from hslot] at hshows
        exact absurd hlast.mem (hshows.1 b v)
    | voted =>
        rw [show (l.cells (cellOf slot P.W)).state = .voted from hstate,
          show (l.cells (cellOf slot P.W)).slot = slot from hslot] at hshows
        obtain ⟨hballot, hvalue⟩ := hshows.1.unique hlast
        exact ⟨hballot, Or.inl ⟨rfl, hvalue⟩⟩
    | chosen =>
        rw [show (l.cells (cellOf slot P.W)).state = .chosen from hstate,
          show (l.cells (cellOf slot P.W)).slot = slot from hslot] at hshows
        obtain ⟨pre, post, hlog, -, hballot⟩ := hshows.split
        have hpre := hlast.before_decision hfirm hlog
        refine ⟨?_, Or.inr ⟨_, hshows.mem⟩⟩
        rcases hballot with ⟨v', hv'⟩ | ⟨-, hnone⟩
        · exact (hv'.unique hpre).1
        · exact absurd hpre.mem (hnone b v)
  · intro slot v hlive hv
    obtain ⟨hslot, hstate, hafter⟩ := h.decision hwithin hv hlive
    unfold ledgerChosenAt
    rw [if_neg (by omega)]
    dsimp only
    rw [if_neg, hafter.only v hv]
    rintro (hne | hne)
    · exact hne hslot
    · exact hne hstate

/-! ## Whole runs -/

section Runs

variable [DecidableEq V]

/-- The condition on a run: nobody is sent a proposal at a ballot of its own, the log is not
trimmed, and no decision is released through `pass_through`. -/
def Resident (P : Params) (t : Tenure V) : TenureEvent V → Prop
  | .operate op =>
      Fair (op.input t.node) t.node ∧ (∀ anchor, op ≠ .installTrim anchor) ∧
        (operate P t.node op).effects.passedSlots = []
  | .restart _ _ _ => True

/-- The state of a transition that has recorded `batch`. -/
def Tenure.st (t : Tenure V) : St V :=
  { node := t.node, effects := { writes := t.batch } }

/-- What is known of a member between its operations. -/
structure Kept (P : Params) (id : Nat) (t : Tenure V) : Prop where
  id_eq : t.node.id = id
  id_lt : id < 2 ^ 16
  voting : t.node.votingMember = true
  opened : Opened P t.node
  sound : Sound P t.node.memoryFloor t.node (entries (t.journal ++ t.batch))
  recording : Recording P t.journal t.st
  settled_le : t.settled ≤ t.node.deliveredThrough
  settled : ∀ u, 0 < u → u ≤ t.settled → .decided u ∈ entries t.journal

omit [DecidableEq V] in
theorem Sound.mono {through through' : Nat} {n : Node V} {log : Log V} (h : Sound P through n log)
    (hle : through ≤ through') : Sound P through' n log :=
  ⟨h.obeys.mono hle, h.remembers, h.proposes⟩

omit [DecidableEq V] in
/-- Between two operations, all records belong to the journal. -/
theorem Recording.between {journal batch : List (Write V)} {n n' : Node V}
    (h : Recording P journal { node := n, effects := { writes := batch } })
    (hle : n.memoryFloor ≤ n'.memoryFloor) (hcells : n'.ledger.cells = n.ledger.cells) :
    Recording P (journal ++ batch) (St.start n') := by
  have hnil : journal ++ batch ++ (St.start n').effects.writes = journal ++ batch :=
    List.append_nil _
  refine ⟨by rw [hnil]; exact h.firm, fun slot v hv hlive => ?_, fun w hw => ?_,
    by rw [hnil]; exact h.untrimmed⟩
  · rw [hnil] at hv
    have hheld := h.kept slot v hv (Nat.lt_of_le_of_lt hle hlive)
    unfold HoldsDecision Ledger.cellAt at hheld ⊢
    show (n'.ledger.cells _).slot = slot ∧ (n'.ledger.cells _).state = .chosen ∧
      (n'.ledger.cells _).value = v
    rw [hcells]
    exact hheld
  · rw [hnil] at hw
    have := h.within w hw
    exact this.trans (Nat.add_le_add_right hle _)

/-- An operation that meets the condition keeps what is known. -/
theorem Kept.operate {id : Nat} {t : Tenure V} (h : Kept P id t) {op : Operation V}
    (hok : Resident P t (.operate op)) :
    Kept P id
      { node := (PaxosOdin.operate P t.node op).node
        journal := t.journal ++ t.batch
        batch := (PaxosOdin.operate P t.node op).effects.writes
        settled := t.node.deliveredThrough
        passed := t.passed ++ (PaxosOdin.operate P t.node op).effects.passedSlots } := by
  obtain ⟨hfair, htrim, hpassed⟩ := hok
  have hopened := operate_opened h.opened op
  have hdecided := h.sound.remembers.decided
  have hremembered : Remembered (fun _ _ => True) t.node := fun _ _ _ => trivial
  have hdelivered : t.node.deliveredThrough ≤ (PaxosOdin.operate P t.node op).node.deliveredThrough :=
    (operate_delivering h.opened hremembered op).le
  rcases operate_cases h.opened op with hc | ⟨anchor, rfl⟩ | ⟨through, rfl⟩ | ⟨enabled, rfl⟩
  · have hlog : St.log (t.journal ++ t.batch) (St.start t.node) = entries (t.journal ++ t.batch) := by
      simp [St.log, St.start]
    have hsteady : Steady P (op.input t.node) t.node.memoryFloor (t.journal ++ t.batch)
        (St.start t.node) :=
      ⟨by rw [hlog]; exact h.sound, h.opened, hfair, h.id_eq ▸ h.id_lt, le_rfl⟩
    have hafter := hc.steady hsteady
    have hrecording := hc.recording (h.recording.between le_rfl rfl) hpassed
    have hstatic := hc.static
    refine ⟨(congrArg Static.id hstatic).trans h.id_eq, h.id_lt,
      (congrArg Static.votingMember hstatic).trans h.voting, hopened, ?_, ?_, hdelivered, hdecided⟩
    · show Sound P (PaxosOdin.operate P t.node op).node.memoryFloor _ _
      rw [memoryFloor_of_static hstatic]
      exact hafter.sound
    · exact ⟨hrecording.firm, hrecording.kept, hrecording.within, hrecording.untrimmed⟩
  · exact absurd rfl (htrim anchor)
  · have hfloor : t.node.memoryFloor ≤ (nodeAdvanceMemoryFloor t.node through).1.memoryFloor ∧
        (nodeAdvanceMemoryFloor t.node through).1.ledger = t.node.ledger ∧
          (nodeAdvanceMemoryFloor t.node through).1.id = t.node.id ∧
            (nodeAdvanceMemoryFloor t.node through).1.votingMember = t.node.votingMember := by
      unfold nodeAdvanceMemoryFloor
      split_ifs
      · exact ⟨le_rfl, rfl, rfl, rfl⟩
      · exact ⟨le_max_left _ _, rfl, rfl, rfl⟩
    obtain ⟨hle, hledger, hid, hvoting⟩ := hfloor
    have hrecording := h.recording.between hle (congrArg Ledger.cells hledger)
    refine ⟨hid.trans h.id_eq, h.id_lt, hvoting.trans h.voting, hopened, ?_, hrecording, hdelivered,
      hdecided⟩
    rw [show (PaxosOdin.operate P t.node (.advanceFloor through)).effects.writes = [] from rfl,
      List.append_nil]
    exact (h.sound.advanceFloor through).mono hle
  · have hrecording := h.recording.between
      (le_refl (nodeSetCampaignEnabled t.node enabled).memoryFloor) rfl
    refine ⟨h.id_eq, h.id_lt, h.voting, hopened, ?_, hrecording, hdelivered, hdecided⟩
    rw [show (PaxosOdin.operate P t.node (.setCampaignEnabled enabled)).effects.writes = [] from rfl,
      List.append_nil]
    exact h.sound.setCampaignEnabled enabled

omit [DecidableEq V] in
/-- What is durable after a crash is a front of the records. -/
theorem Tenure.durable_front (t : Tenure V) (kept : Nat) :
    t.journal ++ t.batch = t.durable kept ++ t.batch.drop kept := by
  rw [Tenure.durable, List.append_assoc, List.take_append_drop]

omit [DecidableEq V] in
/-- The records a crash leaves follow the rules too. -/
theorem Kept.front {id : Nat} {t : Tenure V} (h : Kept P id t) (kept : Nat) :
    Obeys P t.node.memoryFloor (entries (t.durable kept)) ∧ Synod.Ruled Firm (t.durable kept) ∧
      (∀ w ∈ t.durable kept, w.slot ≤ t.node.memoryFloor + P.W) ∧
        ∀ anchor, .trim anchor ∉ t.durable kept := by
  have hsplit := t.durable_front kept
  have hobeys := h.sound.obeys
  have hrecording := h.recording
  have hmem : ∀ w ∈ t.durable kept, w ∈ t.journal ++ t.batch := fun w hw => by
    rw [hsplit]
    exact List.mem_append_left _ hw
  rw [hsplit, entries_append] at hobeys
  refine ⟨Synod.Ruled.of_append hobeys, ?_, fun w hw => hrecording.within w (hmem w hw),
    fun anchor hw => hrecording.untrimmed anchor (hmem _ hw)⟩
  have hfirm := hrecording.firm
  simp only [Tenure.st, hsplit] at hfirm
  exact Synod.Ruled.of_append hfirm

variable [Inhabited V]

/-- A member is restarted from what a crash left. -/
theorem Kept.restart {id : Nat} {membership : Membership} {t t' : Tenure V} {kept floor : Nat}
    {options : NodeOptions} (hm : membership.Valid) (h : Kept P id t)
    (hstep : t.step P id membership (.restart kept floor options) = some t') : Kept P id t' := by
  obtain ⟨hle, hfloor, hnew, l, hreplay, hrestore⟩ := Tenure.step_restart hstep
  obtain ⟨hobeys, hfirm, hwithin, huntrimmed⟩ := h.front kept
  have hsplit := t.durable_front kept
  have hsub : ∀ e ∈ entries (t.durable kept), e ∈ entries (t.journal ++ t.batch) := fun e he => by
    rw [hsplit, entries_append]
    exact List.mem_append_left _ he
  have hdecided : ∀ u, 0 < u → u ≤ floor → .decided u ∈ entries (t.durable kept) := by
    intro u hu hlast
    have hconsumable := hlast.trans hfloor
    unfold Tenure.consumable at hconsumable
    split_ifs at hconsumable with hall
    · have hfull := h.sound.remembers.decided u hu hconsumable
      rwa [Tenure.durable, List.take_of_length_le hall]
    · rw [Tenure.durable, entries_append]
      exact List.mem_append_left _ (h.settled u hu hconsumable)
  have hlast : floor ≤ maxSlot := by
    refine hfloor.trans (le_trans ?_ h.opened.last)
    unfold Tenure.consumable
    split_ifs
    · exact le_rfl
    · exact h.settled_le
  have hdurable : Durable P id (t.optionsFor options).rotatingOwnership floor (t.durable kept) := by
    refine ⟨hobeys.mono hle, hdecided, hlast, fun hown s hs => ?_, fun hown s v hv => ?_, huntrimmed⟩
    · refine h.sound.proposes.words hown s (hs.imp ?_ (hsub _))
      exact fun ⟨b, v, hv⟩ => ⟨b, v, hsub _ hv⟩
    · have hlt := h.sound.proposes.own hown s v (h.id_eq ▸ hsub _ hv)
      exact Nat.lt_of_lt_of_le hlt (h.opened.aligned h.voting hown).1
  have hrestored : Restored P id membership (t.optionsFor options) floor (t.durable kept) t'.node :=
    ⟨hdurable, hm, hm.small, l, hreplay, hrestore⟩
  obtain ⟨l', hfold, hn⟩ := hrestored.folded
  have hcells := clearOpenCells_cells (P := P) floor l'
  have hbase : t'.node.memoryFloor = floor := hn.memoryFloor
  rw [hnew]
  refine ⟨hn.id_eq, h.id_lt, hn.votingMember, hrestored.opened, ?_, ⟨?_, ?_, ?_, ?_⟩, le_rfl, ?_⟩
  · simp only [List.append_nil, hbase]
    exact hrestored.sound
  · simpa [Tenure.st] using hfirm
  · intro slot v hv hlive
    simp only [Tenure.st, List.append_nil, hbase] at hv hlive
    have hin : ∀ w ∈ t.durable kept, w.slot ≤ floor + P.W := fun w hw =>
      (hwithin w hw).trans (Nat.add_le_add_right hle _)
    obtain ⟨hslot, hstate, hafter⟩ := hfold.decision hin hv hlive
    have hsame : (clearOpenCells P l' floor).cells (cellOf slot P.W) = l'.cells (cellOf slot P.W) :=
      hcells.live (by
        show floor < (l'.cellAt P slot).slot
        omega)
    show (t'.node.ledger.cells (cellOf slot P.W)).slot = slot ∧
      (t'.node.ledger.cells (cellOf slot P.W)).state = .chosen ∧
        (t'.node.ledger.cells (cellOf slot P.W)).value = v
    rw [hn.ledger, hsame]
    exact ⟨hslot, hstate, (hafter.only v hv).symm⟩
  · intro w hw
    simp only [Tenure.st, List.append_nil, hbase] at hw ⊢
    exact (hwithin w hw).trans (Nat.add_le_add_right hle _)
  · simpa [Tenure.st] using huntrimmed
  · intro u hu hlast
    simp only [hn.deliveredThrough] at hlast
    exact hdecided u hu hlast

/-- Every crash of every run that releases nothing without a cell: the fold of the durable records
does not fail, and above the memory floor it is faithful to them. -/
theorem replay_faithful {id : Nat} {membership : Membership} {options : NodeOptions} {n : Node V}
    {t : Tenure V} (hm : membership.Valid) (hinit : nodeInit id membership options = .ok n)
    (h : Tenure.Reaches P id membership (Resident P) { node := n } t) (kept : Nat) :
    ∃ l, replay P (t.durable kept) = (l, .none) ∧
      Faithful P (t.durable kept) t.node.memoryFloor l := by
  have hstart : Kept P id ({ node := n } : Tenure V) := by
    obtain ⟨hsound, hopened⟩ : Sound P n.memoryFloor n [] ∧ Opened P n :=
      nodeInit_sound hm hm.small hinit
    obtain ⟨-, -, -, hvoting⟩ := nodeInit_opened (P := P) hm hinit
    have hid : n.id = id ∧ n.membership = membership := by
      unfold nodeInit at hinit
      split at hinit
      · cases hinit
      · cases hinit
        exact ⟨rfl, rfl⟩
    have hmember := List.mem_of_getElem? (hopened.member hvoting)
    rw [hid.1, hid.2] at hmember
    refine ⟨hid.1, hm.ids_lt id hmember, hvoting, hopened, hsound, ⟨Synod.Ruled.nil _, fun slot v hv => ?_,
      fun w hw => ?_, fun anchor hw => ?_⟩, Nat.zero_le _, fun u hu hle => ?_⟩
    · cases hv
    · cases hw
    · cases hw
    · exact absurd hu (Nat.not_lt.mpr hle)
  have hkept : Kept P id t := by
    refine h.invariant (motive := Kept P id) hstart ?_
    intro t t' e hk hok hstep
    cases e with
    | operate op =>
        cases hstep
        exact hk.operate hok
    | restart kept floor options => exact hk.restart hm hstep
  obtain ⟨hobeys, hfirm, hwithin, huntrimmed⟩ := hkept.front kept
  obtain ⟨l, hreplay, hfold⟩ := replay_ok hobeys hfirm huntrimmed
  exact ⟨l, hreplay, hfold.faithful hfirm hwithin⟩

end Runs

/-- A vote is durable and folded. -/
theorem replay_faithful_vote :
    ∃ t, Tenure.run trioParams 1 trio { node := trioNode {} }
        [.operate (.step ⟨2, 1, .accept (ballotMake 1 0 2) 1 5⟩)] = some t ∧
      t.durable 1 = [.vote (ballotMake 1 0 2) 1 5] ∧
        ∃ l, replay trioParams (t.durable 1) = (l, .none) ∧
          Faithful trioParams (t.durable 1) t.node.memoryFloor l := by
  refine ⟨_, rfl, by decide +kernel, replay_faithful trio_valid (trioNode_init {})
    (Tenure.Reaches.refl.operate (.step ⟨2, 1, .accept (ballotMake 1 0 2) 1 5⟩) ⟨⟨?_, ?_, ?_⟩, ?_, ?_⟩) 1⟩
  · rintro sender b s v heard
    cases heard
    decide
  · intro hown
    cases hown
  · intro hown
    cases hown
  · intro anchor h
    cases h
  · decide +kernel

/-- Slots 1 and 2 are decided and not yet consumed when slot 3 is released without a cell: the
fold gives the cell of slot 1 to slot 3 and forgets a decision above the floor. -/
theorem replay_forgets :
    ¬ ∀ t, Tenure.Reaches trioParams 1 trio (fun _ _ => True)
      { node := (trioNode {} : Node Nat) } t →
      ∀ kept, ∃ l, replay trioParams (t.durable kept) = (l, .none) ∧
        Faithful trioParams (t.durable kept) t.node.memoryFloor l := by
  intro h
  have hrun : (Tenure.run trioParams 1 trio { node := trioNode {} }
      [.operate (.step ⟨2, 1, .commit 1 5⟩), .operate (.step ⟨2, 1, .commit 2 6⟩),
        .operate (.step ⟨2, 1, .commit 3 7⟩)]).map
          (fun t => (t.node.memoryFloor, t.durable 1,
            ledgerChosenAt trioParams (replay trioParams (t.durable 1)).1 1)) =
      some (0, [.chosen 1 5, .chosen 2 6, .chosen 3 7], none) := by
    decide +kernel
  obtain ⟨t, ht, heq⟩ := Option.map_eq_some_iff.mp hrun
  simp only [Prod.mk.injEq] at heq
  obtain ⟨hfloor, hdurable, hlost⟩ := heq
  obtain ⟨l, hreplay, hfaithful⟩ := h t (Tenure.Reaches.refl.of_run ht) 1
  have hheld := hfaithful.decision 1 5 (by omega) (by simp [hdurable])
  rw [hreplay] at hlost
  rw [hlost] at hheld
  cases hheld

end PaxosOdin
