import PaxosOdin.Core.Node
import PaxosOdin.Synod.Log

/-!
# What the fold of a journal holds

The fold of a lifetime journal re-derives the reuse of the window cells from the slot numbers
alone.  Whenever it succeeds, the cell of a slot is owned by the greatest slot that the
journal records for that cell, and holds everything the journal records for its owner.

Main results:

- Theorem `ledgerReplayFold_folded`: one more record.
- Theorem `replay_folded`: what a successful fold holds.
- Theorem `Folded.vote_used`: a recorded vote leaves a used cell, or its cell is owned by a
  later slot.
-/

namespace PaxosOdin

variable {V : Type} {P : Params}

/-! ## Records -/

/-- The slot a record is about; zero for a record about the whole ledger. -/
def Write.slot : Write V → Nat
  | .promise _ => 0
  | .promiseAt _ slot => slot
  | .vote _ slot _ => slot
  | .chosen slot _ => slot
  | .trim _ => 0

/-- The last vote the journal records for `slot`. -/
def IsLastVote (log : List (Write V)) (slot ballot : Nat) (value : V) : Prop :=
  ∃ pre post, log = pre ++ .vote ballot slot value :: post ∧ ∀ b v, .vote b slot v ∉ post

/-- The last vote is a vote of the log. -/
theorem IsLastVote.mem {log : List (Write V)} {slot ballot : Nat} {value : V}
    (h : IsLastVote log slot ballot value) : .vote ballot slot value ∈ log := by
  obtain ⟨pre, post, rfl, -⟩ := h
  simp

/-- Another record leaves the last vote what it was. -/
theorem IsLastVote.concat {log : List (Write V)} {slot ballot : Nat} {value : V} {w : Write V}
    (h : IsLastVote log slot ballot value) (hw : ∀ b v, w ≠ .vote b slot v) :
    IsLastVote (log ++ [w]) slot ballot value := by
  obtain ⟨pre, post, rfl, hpost⟩ := h
  refine ⟨pre, post ++ [w], by simp, fun b v hmem => ?_⟩
  rcases List.mem_append.mp hmem with h | h
  · exact hpost b v h
  · exact hw b v (List.mem_singleton.mp h).symm

/-- A vote at the end of the log is the last one. -/
theorem isLastVote_concat (log : List (Write V)) (slot ballot : Nat) (value : V) :
    IsLastVote (log ++ [.vote ballot slot value]) slot ballot value :=
  ⟨log, [], rfl, fun _ _ h => (by cases h)⟩

/-- The journal decided `slot` to be `value`; `ballot` is that of the last vote before the
decision, or zero when there was none. -/
structure DecidedAfter (log : List (Write V)) (slot ballot : Nat) (value : V) : Prop where
  only : ∀ v, .chosen slot v ∈ log → v = value
  split : ∃ pre post, log = pre ++ .chosen slot value :: post ∧ (∀ v, .chosen slot v ∉ pre) ∧
    ((∃ v, IsLastVote pre slot ballot v) ∨ (ballot = 0 ∧ ∀ b v, .vote b slot v ∉ pre))

/-- A decision of the log is one of its records. -/
theorem DecidedAfter.mem {log : List (Write V)} {slot ballot : Nat} {value : V}
    (h : DecidedAfter log slot ballot value) : .chosen slot value ∈ log := by
  obtain ⟨pre, post, rfl, -⟩ := h.split
  simp

/-- Another record leaves the decision, when it does not decide otherwise. -/
theorem DecidedAfter.concat {log : List (Write V)} {slot ballot : Nat} {value : V} {w : Write V}
    (h : DecidedAfter log slot ballot value) (hw : ∀ v, w = .chosen slot v → v = value) :
    DecidedAfter (log ++ [w]) slot ballot value := by
  obtain ⟨pre, post, hlog, hpre⟩ := h.split
  refine ⟨fun v hv => ?_, pre, post ++ [w], by simp [hlog], hpre⟩
  rcases List.mem_append.mp hv with hv | hv
  · exact h.only v hv
  · exact hw v (List.mem_singleton.mp hv).symm

/-! ## One cell -/

/-- What a cell shows of the records for its owner. -/
def Shows (log : List (Write V)) (c : Cell V) : Prop :=
  match c.state with
  | .empty => (∀ b v, .vote b c.slot v ∉ log) ∧ (∀ v, .chosen c.slot v ∉ log) ∧ c.voteBallot = 0
  | .voted => IsLastVote log c.slot c.voteBallot c.value ∧ ∀ v, .chosen c.slot v ∉ log
  | .chosen => DecidedAfter log c.slot c.voteBallot c.value

/-- The cell `i` is owned by the greatest slot recorded for it and holds the records for its
owner. -/
structure CellFolded (P : Params) (log : List (Write V)) (i : Nat) (c : Cell V) : Prop where
  tagged : c.slot ≠ 0 → cellOf c.slot P.W = i
  above : ∀ w ∈ log, w.slot ≠ 0 → cellOf w.slot P.W = i → w.slot ≤ c.slot
  promises : c.slot ≠ 0 → ∀ b, (.promiseAt b c.slot ∈ log ∨ ∃ v, .vote b c.slot v ∈ log) →
    b ≤ c.promisedAt
  shows : c.slot ≠ 0 → Shows log c
  free : c.slot = 0 → c.state = .empty

/-- A record that is not about the owner of a cell changes nothing there. -/
theorem CellFolded.skip {log : List (Write V)} {i : Nat} {c : Cell V} {w : Write V}
    (h : CellFolded P log i c)
    (hw : w.slot = 0 ∨ cellOf w.slot P.W ≠ i ∨ w.slot < c.slot) : CellFolded P (log ++ [w]) i c := by
  have hother : c.slot ≠ 0 → w.slot ≠ c.slot := by
    intro h0 heq
    rcases hw with hw | hw | hw
    · exact h0 (heq ▸ hw)
    · exact hw (heq ▸ h.tagged h0)
    · omega
  refine ⟨h.tagged, fun x hx hx0 hcell => ?_, fun h0 b hb => h.promises h0 b ?_, fun h0 => ?_, h.free⟩
  · rcases List.mem_append.mp hx with hx | hx
    · exact h.above x hx hx0 hcell
    · obtain rfl := List.mem_singleton.mp hx
      rcases hw with hw | hw | hw
      · exact absurd hw hx0
      · exact absurd hcell hw
      · exact hw.le
  · rcases hb with hb | ⟨v, hb⟩
    · rcases List.mem_append.mp hb with hb | hb
      · exact Or.inl hb
      · exact absurd (congrArg Write.slot (List.mem_singleton.mp hb)).symm (hother h0)
    · rcases List.mem_append.mp hb with hb | hb
      · exact Or.inr ⟨v, hb⟩
      · exact absurd (congrArg Write.slot (List.mem_singleton.mp hb)).symm (hother h0)
  · have hnew : ∀ x : Write V, x.slot = c.slot → x ∈ log ++ [w] → x ∈ log := by
      intro x hxs hx
      rcases List.mem_append.mp hx with hx | hx
      · exact hx
      · exact absurd ((congrArg Write.slot (List.mem_singleton.mp hx)).symm.trans hxs) (hother h0)
    have hshows := h.shows h0
    unfold Shows at hshows ⊢
    cases hstate : c.state with
    | empty =>
        rw [hstate] at hshows
        exact ⟨fun b v hv => hshows.1 b v (hnew _ rfl hv), fun v hv => hshows.2.1 v (hnew _ rfl hv),
          hshows.2.2⟩
    | voted =>
        rw [hstate] at hshows
        exact ⟨hshows.1.concat fun b v hv => hother h0 (congrArg Write.slot hv),
          fun v hv => hshows.2 v (hnew _ rfl hv)⟩
    | chosen =>
        rw [hstate] at hshows
        exact hshows.concat fun v hv => absurd (congrArg Write.slot hv) (hother h0)

/-- A cell opened for a slot beyond its owner shows that nothing was recorded for it. -/
theorem CellFolded.open {log : List (Write V)} {i slot : Nat} {c : Cell V} {value : V}
    (h : CellFolded P log i c) (hcell : cellOf slot P.W = i) (hbeyond : c.slot < slot) :
    CellFolded P log i
      { slot := slot, promisedAt := 0, voteBallot := 0, state := .empty, value := value } := by
  have hnone : ∀ w ∈ log, w.slot ≠ slot := fun w hw heq => by
    have := h.above w hw (by omega) (heq ▸ hcell)
    omega
  refine ⟨fun _ => hcell, fun w hw h0 hc => ?_, fun _ b hb => ?_, fun _ => ?_,
    fun h0 => absurd h0 (by show slot ≠ 0; omega)⟩
  · exact (h.above w hw h0 hc).trans hbeyond.le
  · rcases hb with hb | ⟨v, hb⟩ <;> exact absurd rfl (hnone _ hb)
  · exact ⟨fun b v hv => hnone _ hv rfl, fun v hv => hnone _ hv rfl, rfl⟩

section Owner

variable {log : List (Write V)} {i : Nat} {c : Cell V}

/-- The owner's cell after a record about the owner. -/
theorem CellFolded.record {c' : Cell V} {w : Write V} (h : CellFolded P log i c) (h0 : c.slot ≠ 0)
    (hw : w.slot = c.slot) (hslot : c'.slot = c.slot) (hpromise : c.promisedAt ≤ c'.promisedAt)
    (hnew : ∀ b, (w = .promiseAt b c.slot ∨ ∃ v, w = .vote b c.slot v) → b ≤ c'.promisedAt)
    (hshows : Shows (log ++ [w]) c') : CellFolded P (log ++ [w]) i c' := by
  refine ⟨fun _ => hslot ▸ h.tagged h0, fun x hx hx0 hcell => ?_, fun _ b hb => ?_, fun _ => hshows,
    fun hz => absurd (hslot ▸ hz) h0⟩
  · rw [hslot]
    rcases List.mem_append.mp hx with hx | hx
    · exact h.above x hx hx0 hcell
    · obtain rfl := List.mem_singleton.mp hx
      exact hw.le
  · rw [hslot] at hb
    rcases hb with hb | ⟨v, hb⟩
    · rcases List.mem_append.mp hb with hb | hb
      · exact (h.promises h0 b (Or.inl hb)).trans hpromise
      · exact hnew b (Or.inl (List.mem_singleton.mp hb).symm)
    · rcases List.mem_append.mp hb with hb | hb
      · exact (h.promises h0 b (Or.inr ⟨v, hb⟩)).trans hpromise
      · exact hnew b (Or.inr ⟨v, (List.mem_singleton.mp hb).symm⟩)

/-- A promise for the owner. -/
theorem CellFolded.promiseAt (ballot : Nat) (h : CellFolded P log i c) (h0 : c.slot ≠ 0) :
    CellFolded P (log ++ [.promiseAt ballot c.slot]) i
      { c with promisedAt := max c.promisedAt ballot } := by
  refine h.record h0 rfl rfl (le_max_left _ _) (fun b hb => ?_) ?_
  · rcases hb with hb | ⟨v, hb⟩
    · cases hb
      exact le_max_right _ _
    · cases hb
  · have hshows := h.shows h0
    unfold Shows at hshows ⊢
    cases hstate : c.state with
    | empty =>
        rw [hstate] at hshows
        simpa [hstate] using hshows
    | voted =>
        rw [hstate] at hshows
        refine ⟨hshows.1.concat fun b v hv => (by cases hv), ?_⟩
        simpa using hshows.2
    | chosen =>
        rw [hstate] at hshows
        exact hshows.concat fun v hv => (by cases hv)

/-- A vote for the owner, which is not decided. -/
theorem CellFolded.vote (ballot : Nat) (value : V) (h : CellFolded P log i c) (h0 : c.slot ≠ 0)
    (hopen : c.state ≠ .chosen) :
    CellFolded P (log ++ [.vote ballot c.slot value]) i
      { c with
        promisedAt := max c.promisedAt ballot
        voteBallot := ballot
        value := value
        state := .voted } := by
  refine h.record h0 rfl rfl (le_max_left _ _) (fun b hb => ?_) ?_
  · rcases hb with hb | ⟨v, hb⟩
    · cases hb
    · cases hb
      exact le_max_right _ _
  · refine ⟨isLastVote_concat _ _ _ _, fun v hv => ?_⟩
    have hv : .chosen c.slot v ∈ log := by simpa using hv
    have hshows := h.shows h0
    unfold Shows at hshows
    cases hstate : c.state with
    | empty => rw [hstate] at hshows; exact hshows.2.1 v hv
    | voted => rw [hstate] at hshows; exact hshows.2 v hv
    | chosen => exact hopen hstate

/-- A vote for the owner, which is decided: only the promise grows. -/
theorem CellFolded.lateVote (ballot : Nat) (value : V) (h : CellFolded P log i c)
    (h0 : c.slot ≠ 0) (hchosen : c.state = .chosen) :
    CellFolded P (log ++ [.vote ballot c.slot value]) i
      { c with promisedAt := max c.promisedAt ballot } := by
  refine h.record h0 rfl rfl (le_max_left _ _) (fun b hb => ?_) ?_
  · rcases hb with hb | ⟨v, hb⟩
    · cases hb
    · cases hb
      exact le_max_right _ _
  · have hshows := h.shows h0
    unfold Shows at hshows ⊢
    simp only [hchosen] at hshows ⊢
    exact hshows.concat fun v hv => (by cases hv)

/-- A decision for the owner. -/
theorem CellFolded.choose (value : V) (h : CellFolded P log i c) (h0 : c.slot ≠ 0)
    (hsame : c.state = .chosen → c.value = value) :
    CellFolded P (log ++ [.chosen c.slot value]) i { c with value := value, state := .chosen } := by
  refine h.record h0 rfl rfl le_rfl (fun b hb => ?_) ?_
  · rcases hb with hb | ⟨v, hb⟩ <;> cases hb
  have hshows := h.shows h0
  have hfirst : (∀ v, .chosen c.slot v ∉ log) →
      ((∃ v, IsLastVote log c.slot c.voteBallot v) ∨
        (c.voteBallot = 0 ∧ ∀ b v, .vote b c.slot v ∉ log)) →
      DecidedAfter (log ++ [.chosen c.slot value]) c.slot c.voteBallot value := by
    intro hnone hvotes
    refine ⟨fun v hv => ?_, log, [], rfl, hnone, hvotes⟩
    rcases List.mem_append.mp hv with hv | hv
    · exact absurd hv (hnone v)
    · cases List.mem_singleton.mp hv
      rfl
  unfold Shows at hshows
  show DecidedAfter _ _ _ _
  cases hstate : c.state with
  | empty =>
      rw [hstate] at hshows
      exact hfirst hshows.2.1 (Or.inr ⟨hshows.2.2, hshows.1⟩)
  | voted =>
      rw [hstate] at hshows
      exact hfirst hshows.2 (Or.inl ⟨_, hshows.1⟩)
  | chosen =>
      rw [hstate] at hshows
      rw [hsame hstate] at hshows
      exact hshows.concat fun v hv => (by cases hv; rfl)

end Owner

/-! ## The whole ledger -/

/-- What the fold of `log` holds. -/
structure Folded (P : Params) (log : List (Write V)) (l : Ledger V) : Prop where
  promised : ∀ b, .promise b ∈ log → b ≤ l.promised
  cells : ∀ i, CellFolded P log i (l.cells i)
  used : ∀ i, i ∈ l.used ↔ (l.cells i).state ≠ .empty
  chosen : ∀ i, i ∈ l.chosen ↔ (l.cells i).state = .chosen
  source : ∀ i, (l.cells i).slot ≠ 0 → ∃ w ∈ log, w.slot = (l.cells i).slot

/-- The bitmaps agree with the states of the cells. -/
structure Bits (l : Ledger V) : Prop where
  used : ∀ i, i ∈ l.used ↔ (l.cells i).state ≠ .empty
  chosen : ∀ i, i ∈ l.chosen ↔ (l.cells i).state = .chosen

/-- The bitmaps of a folded ledger are true. -/
theorem Folded.bits {log : List (Write V)} {l : Ledger V} (h : Folded P log l) : Bits l :=
  ⟨h.used, h.chosen⟩

/-- Opening a cell keeps the bitmaps true. -/
theorem Bits.open {l : Ledger V} (h : Bits l) (cell slot : Nat) : Bits (ledgerOpen l cell slot) := by
  constructor <;> intro i <;> rw [ledgerOpen_cells] <;> by_cases hi : i = cell <;>
    simp [ledgerOpen, hi, h.used, h.chosen]

/-- So does a promise. -/
theorem Bits.setPromiseAt {l : Ledger V} (h : Bits l) (cell ballot : Nat) :
    Bits (ledgerSetPromiseAt l cell ballot) := by
  constructor <;> intro i <;> rw [ledgerSetPromiseAt_cells]
  · exact h.used i
  · exact h.chosen i

/-- So does a vote. -/
theorem Bits.recordVote {l : Ledger V} (h : Bits l) {cell ballot : Nat} {value : V}
    (hopen : (l.cells cell).state ≠ .chosen) : Bits (ledgerRecordVote l cell ballot value) := by
  constructor <;> intro i <;> rw [ledgerRecordVote_cells] <;> by_cases hi : i = cell
  · simp [ledgerRecordVote, hi]
  · simp [ledgerRecordVote, hi, h.used]
  · simp [ledgerRecordVote, hi, h.chosen, hopen]
  · simp [ledgerRecordVote, hi, h.chosen]

/-- So does a decision. -/
theorem Bits.recordChosen {l : Ledger V} (h : Bits l) (cell : Nat) (value : V) :
    Bits (ledgerRecordChosen l cell value) := by
  constructor <;> intro i <;> rw [ledgerRecordChosen_cells] <;> by_cases hi : i = cell <;>
    simp [ledgerRecordChosen, hi, h.used, h.chosen]

/-- Claiming a cell in the fold keeps the records of every owner. -/
structure FoldClaimed (P : Params) (log : List (Write V)) (l l' : Ledger V) (slot : Nat) : Prop where
  promised : l'.promised = l.promised
  cells : ∀ i, CellFolded P log i (l'.cells i)
  bits : Bits l'
  held : (l'.cells (cellOf slot P.W)).slot = slot
  other : ∀ i, i ≠ cellOf slot P.W → l'.cells i = l.cells i

/-- What a claim leaves for the fold of a log. -/
theorem ledgerClaim_folded {log : List (Write V)} {l l' : Ledger V} {slot : Nat}
    (h : Folded P log l) (hclaim : ledgerClaim P l slot = some l') :
    FoldClaimed P log l l' slot := by
  unfold ledgerClaim at hclaim
  dsimp only at hclaim
  split_ifs at hclaim with hheld hfree
  · cases hclaim
    exact ⟨rfl, h.cells, h.bits, hheld, fun _ _ => rfl⟩
  · cases hclaim
    have hbeyond : (l.cells (cellOf slot P.W)).slot < slot := by
      rcases hfree with h0 | ⟨hlt, -⟩
      · have : slot ≠ 0 := fun hs => hheld (h0.trans hs.symm)
        omega
      · exact hlt
    refine ⟨rfl, fun i => ?_, h.bits.open _ _, by simp [ledgerOpen], fun i hi => ?_⟩
    · rw [ledgerOpen_cells]
      by_cases hi : i = cellOf slot P.W
      · subst hi
        rw [if_pos rfl]
        exact (h.cells _).open rfl hbeyond
      · rw [if_neg hi]
        exact h.cells i
    · rw [ledgerOpen_cells, if_neg hi]

/-- A record whose cell a later slot owns is skipped. -/
theorem Folded.skip {log : List (Write V)} {l : Ledger V} {w : Write V} (h : Folded P log l)
    (hw : w.slot < (l.cells (cellOf w.slot P.W)).slot) (hp : ∀ b, w ≠ .promise b) :
    Folded P (log ++ [w]) l := by
  refine ⟨fun b hb => h.promised b ?_, fun i => (h.cells i).skip ?_, h.used, h.chosen, fun i h0 => ?_⟩
  · rcases List.mem_append.mp hb with hb | hb
    · exact hb
    · exact absurd (List.mem_singleton.mp hb).symm (hp b)
  · by_cases hi : cellOf w.slot P.W = i
    · exact Or.inr (Or.inr (hi ▸ hw))
    · exact Or.inr (Or.inl hi)
  · obtain ⟨x, hx, hslot⟩ := h.source i h0
    exact ⟨x, List.mem_append_left _ hx, hslot⟩

/-- A record that changes the cell of its slot only. -/
theorem Folded.update {log : List (Write V)} {l l₁ l' : Ledger V} {w : Write V} (h : Folded P log l)
    (hclaimed : FoldClaimed P log l l₁ w.slot) (hp : ∀ b, w ≠ .promise b)
    (hpromised : l'.promised = l₁.promised)
    (hcell : CellFolded P (log ++ [w]) (cellOf w.slot P.W) (l'.cells (cellOf w.slot P.W)))
    (hslot : (l'.cells (cellOf w.slot P.W)).slot = w.slot)
    (hother : ∀ i, i ≠ cellOf w.slot P.W → l'.cells i = l₁.cells i) (hbits : Bits l') :
    Folded P (log ++ [w]) l' := by
  refine ⟨fun b hb => ?_, fun i => ?_, hbits.used, hbits.chosen, fun i h0 => ?_⟩
  · rw [hpromised, hclaimed.promised]
    rcases List.mem_append.mp hb with hb | hb
    · exact h.promised b hb
    · exact absurd (List.mem_singleton.mp hb).symm (hp b)
  · by_cases hi : i = cellOf w.slot P.W
    · rw [hi]
      exact hcell
    · rw [hother i hi]
      exact (hclaimed.cells i).skip (Or.inr (Or.inl (Ne.symm hi)))
  · by_cases hi : i = cellOf w.slot P.W
    · exact ⟨w, by simp, by rw [hi, hslot]⟩
    · rw [hother i hi, hclaimed.other i hi] at h0 ⊢
      obtain ⟨x, hx, hs⟩ := h.source i h0
      exact ⟨x, List.mem_append_left _ hx, hs⟩

/-- A record about the whole ledger. -/
theorem Folded.whole {log : List (Write V)} {l l' : Ledger V} {w : Write V} (h : Folded P log l)
    (hslot : w.slot = 0) (hcells : l'.cells = l.cells) (hused : l'.used = l.used)
    (hchosen : l'.chosen = l.chosen) (hpromised : l.promised ≤ l'.promised)
    (hnew : ∀ b, w = .promise b → b ≤ l'.promised) : Folded P (log ++ [w]) l' := by
  refine ⟨fun b hb => ?_, fun i => ?_, ?_, ?_, fun i h0 => ?_⟩
  · rcases List.mem_append.mp hb with hb | hb
    · exact (h.promised b hb).trans hpromised
    · exact hnew b (List.mem_singleton.mp hb).symm
  · rw [hcells]
    exact (h.cells i).skip (Or.inl hslot)
  · rw [hused, hcells]
    exact h.used
  · rw [hchosen, hcells]
    exact h.chosen
  · rw [hcells] at h0 ⊢
    obtain ⟨x, hx, hs⟩ := h.source i h0
    exact ⟨x, List.mem_append_left _ hx, hs⟩

/-! ## Journals -/

/-- Every record for a slot follows the decisions of the slots that its cell held before. -/
def Orderly (P : Params) (log : List (Write V)) : Prop :=
  Synod.Ruled (fun before w => ∀ u, 0 < u → u + P.W ≤ w.slot → ∃ v, .chosen u v ∈ before) log

/-- Slots of one cell are a window apart. -/
theorem add_window_le (P : Params) {s t : Nat} (hs : 0 < s) (hlt : s < t)
    (h : cellOf s P.W = cellOf t P.W) : s + P.W ≤ t := by
  by_contra hgt
  have hs : s ≤ s - 1 + P.W := by
    have := P.window_pos
    omega
  have ht : t ≤ s - 1 + P.W := by omega
  have := eq_of_cellOf_eq P (by omega) hs (by omega) ht h
  omega

/-- A claim fails only on a cell that a later slot owns, when the journal is orderly. -/
theorem Folded.claim_none {log : List (Write V)} {l : Ledger V} {slot : Nat} (h : Folded P log l)
    (horder : ∀ u, 0 < u → u + P.W ≤ slot → ∃ v, .chosen u v ∈ log)
    (hclaim : ledgerClaim P l slot = none) : slot < (l.cells (cellOf slot P.W)).slot := by
  unfold ledgerClaim at hclaim
  dsimp only at hclaim
  split_ifs at hclaim with hheld hfree
  rw [not_or, not_and] at hfree
  obtain ⟨h0, hopen⟩ := hfree
  by_contra hle
  have hlt : (l.cells (cellOf slot P.W)).slot < slot := by omega
  have hcell := h.cells (cellOf slot P.W)
  obtain ⟨v, hv⟩ := horder _ (Nat.pos_of_ne_zero h0)
    (add_window_le P (Nat.pos_of_ne_zero h0) hlt (hcell.tagged h0))
  have hshows := hcell.shows h0
  have hstate : (l.cells (cellOf slot P.W)).state = .chosen := by
    unfold Shows at hshows
    cases hs : (l.cells (cellOf slot P.W)).state with
    | empty => rw [hs] at hshows; exact absurd hv (hshows.2.1 v)
    | voted => rw [hs] at hshows; exact absurd hv (hshows.2 v)
    | chosen => rfl
  exact hopen hlt (Or.inl hstate)

section Replay

variable [DecidableEq V]

/-- One more record of an orderly journal. -/
theorem ledgerReplayFold_folded {log : List (Write V)} {l l' : Ledger V} {w : Write V}
    (h : Folded P log l) (horder : ∀ u, 0 < u → u + P.W ≤ w.slot → ∃ v, .chosen u v ∈ log)
    (hw : ledgerReplayFold P l w = (l', .none)) : Folded P (log ++ [w]) l' := by
  cases w with
  | promise ballot =>
      cases hw
      refine h.whole rfl rfl rfl rfl (le_max_left _ _) fun b hb => ?_
      cases hb
      exact le_max_right _ _
  | trim anchor =>
      simp only [ledgerReplayFold, ledgerApply] at hw
      split_ifs at hw <;> cases hw
      exact h.whole rfl rfl rfl rfl le_rfl fun b hb => (by cases hb)
  | promiseAt ballot slot =>
      simp only [ledgerReplayFold] at hw
      by_cases h0 : slot = 0
      · rw [if_pos h0] at hw
        cases hw
      rw [if_neg h0] at hw
      rcases hclaim : ledgerClaim P l slot with _ | l₁
      · have hlater := h.claim_none horder hclaim
        rw [hclaim] at hw
        obtain ⟨rfl, -⟩ := Prod.mk.inj hw
        exact h.skip hlater fun b hb => (by cases hb)
      have hc := ledgerClaim_folded h hclaim
      have hheld := hc.held
      rw [hclaim] at hw
      cases hw
      have hcell := (hc.cells (cellOf slot P.W)).promiseAt ballot (by omega)
      rw [hheld] at hcell
      refine h.update hc (fun b hb => (by cases hb)) rfl ?_ ?_ (fun i hi => ?_)
        (hc.bits.setPromiseAt _ _)
      · simpa [ledgerSetPromiseAt_cells, Write.slot, hheld] using hcell
      · simpa [ledgerSetPromiseAt_cells, Write.slot] using hheld
      · have : i ≠ cellOf slot P.W := hi
        simp [ledgerSetPromiseAt_cells, this]
  | vote ballot slot value =>
      simp only [ledgerReplayFold] at hw
      by_cases h0 : slot = 0
      · rw [if_pos h0] at hw
        cases hw
      rw [if_neg h0] at hw
      rcases hclaim : ledgerClaim P l slot with _ | l₁
      · have hlater := h.claim_none horder hclaim
        rw [hclaim] at hw
        obtain ⟨rfl, -⟩ := Prod.mk.inj hw
        exact h.skip hlater fun b hb => (by cases hb)
      have hc := ledgerClaim_folded h hclaim
      have hheld := hc.held
      rw [hclaim] at hw
      dsimp only at hw
      by_cases hconflict : (l₁.cells (cellOf slot P.W)).state = .voted ∧
          (l₁.cells (cellOf slot P.W)).voteBallot = ballot ∧
          (l₁.cells (cellOf slot P.W)).value ≠ value
      · rw [if_pos hconflict] at hw
        cases hw
      rw [if_neg hconflict] at hw
      by_cases hchosen : (l₁.cells (cellOf slot P.W)).state = .chosen
      · rw [if_pos hchosen] at hw
        cases hw
        have hcell := (hc.cells (cellOf slot P.W)).lateVote ballot value
          (by omega) hchosen
        rw [hheld] at hcell
        refine h.update hc (fun b hb => (by cases hb)) rfl ?_ ?_ (fun i hi => ?_)
          (hc.bits.setPromiseAt _ _)
        · simpa [ledgerSetPromiseAt_cells, Write.slot, hheld] using hcell
        · simpa [ledgerSetPromiseAt_cells, Write.slot] using hheld
        · have : i ≠ cellOf slot P.W := hi
          simp [ledgerSetPromiseAt_cells, this]
      · rw [if_neg hchosen] at hw
        cases hw
        have hcell := (hc.cells (cellOf slot P.W)).vote ballot value
          (by omega) hchosen
        rw [hheld] at hcell
        refine h.update hc (fun b hb => (by cases hb)) rfl ?_ ?_ (fun i hi => ?_)
          ((hc.bits.setPromiseAt _ _).recordVote (by simpa [ledgerSetPromiseAt_cells] using hchosen))
        · simpa [ledgerRecordVote_cells, ledgerSetPromiseAt_cells, Write.slot, hheld] using hcell
        · simpa [ledgerRecordVote_cells, ledgerSetPromiseAt_cells, Write.slot] using hheld
        · have : i ≠ cellOf slot P.W := hi
          simp [ledgerRecordVote_cells, ledgerSetPromiseAt_cells, this]
  | chosen slot value =>
      simp only [ledgerReplayFold, ledgerApply] at hw
      by_cases h0 : slot = 0
      · rw [if_pos h0] at hw
        cases hw
      rw [if_neg h0] at hw
      rcases hclaim : ledgerClaim P l slot with _ | l₁
      · have hlater := h.claim_none horder hclaim
        rw [hclaim] at hw
        obtain ⟨rfl, -⟩ := Prod.mk.inj hw
        exact h.skip hlater fun b hb => (by cases hb)
      have hc := ledgerClaim_folded h hclaim
      have hheld := hc.held
      rw [hclaim] at hw
      dsimp only at hw
      by_cases hconflict : (l₁.cells (cellOf slot P.W)).state = .chosen ∧
          (l₁.cells (cellOf slot P.W)).value ≠ value
      · rw [if_pos hconflict] at hw
        cases hw
      rw [if_neg hconflict] at hw
      cases hw
      have hcell := (hc.cells (cellOf slot P.W)).choose value (by omega)
        fun hs => not_not.mp fun hne => hconflict ⟨hs, hne⟩
      rw [hheld] at hcell
      refine h.update hc (fun b hb => (by cases hb)) rfl ?_ ?_ (fun i hi => ?_)
        (hc.bits.recordChosen _ _)
      · simpa [ledgerRecordChosen_cells, Write.slot, hheld] using hcell
      · simpa [ledgerRecordChosen_cells, Write.slot] using hheld
      · have : i ≠ cellOf slot P.W := hi
        simp [ledgerRecordChosen_cells, this]

/-- The fold of a longer journal. -/
theorem replayFrom_concat {l : Ledger V} {log : List (Write V)} {w : Write V} :
    replayFrom P l (log ++ [w]) =
      match replayFrom P l log with
      | (l, .none) => ledgerReplayFold P l w
      | (l, e) => (l, e) := by
  induction log generalizing l with
  | nil =>
      simp only [List.nil_append, replayFrom]
      rcases ledgerReplayFold P l w with ⟨l', e⟩
      cases e <;> rfl
  | cons x log ih =>
      simp only [List.cons_append, replayFrom]
      rcases ledgerReplayFold P l x with ⟨l', e⟩
      cases e with
      | none => exact ih
      | _ => rfl

/-- A successful fold of an orderly journal holds the last records of every owner. -/
theorem replay_folded [Inhabited V] {log : List (Write V)} {l : Ledger V} (horder : Orderly P log)
    (h : replay P log = (l, .none)) : Folded P log l := by
  induction log using List.reverseRecOn generalizing l with
  | nil =>
      cases h
      refine ⟨fun b hb => (by cases hb), fun i => ?_, fun i => ?_, fun i => ?_, fun i h0 => ?_⟩
      · exact ⟨fun h0 => absurd rfl h0, fun w hw => (by cases hw), fun h0 => absurd rfl h0,
          fun h0 => absurd rfl h0, fun _ => rfl⟩
      · simp [Ledger.empty]
      · simp [Ledger.empty]
      · exact absurd rfl h0
  | append_singleton log w ih =>
      obtain ⟨hlog, hw⟩ := Synod.Ruled.concat_iff.mp horder
      unfold replay at h ih
      rw [replayFrom_concat] at h
      rcases hfold : replayFrom P Ledger.empty log with ⟨l₁, e⟩
      rw [hfold] at h
      cases e with
      | none => exact ledgerReplayFold_folded (ih hlog hfold) hw h
      | _ => cases h

end Replay

/-! ## What a restarted acceptor knows -/

/-- A recorded vote leaves a used cell, unless a later slot owns its cell. -/
theorem Folded.vote_used {log : List (Write V)} {l : Ledger V} {slot ballot : Nat} {value : V}
    (h : Folded P log l) (h0 : slot ≠ 0) (hv : .vote ballot slot value ∈ log) :
    slot < (l.cells (cellOf slot P.W)).slot ∨
      ((l.cells (cellOf slot P.W)).slot = slot ∧ (l.cells (cellOf slot P.W)).state ≠ .empty) := by
  have hcell := h.cells (cellOf slot P.W)
  have hle : slot ≤ (l.cells (cellOf slot P.W)).slot := hcell.above _ hv h0 rfl
  rcases Nat.lt_or_eq_of_le hle with hlt | heq
  · exact Or.inl hlt
  · refine Or.inr ⟨heq.symm, fun hempty => ?_⟩
    have hshows := hcell.shows (by omega)
    unfold Shows at hshows
    rw [hempty, ← heq] at hshows
    exact hshows.1 ballot value hv

end PaxosOdin
