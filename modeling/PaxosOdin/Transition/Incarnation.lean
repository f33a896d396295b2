import PaxosOdin.Transition.Accepting

/-!
# What an incarnation keeps

Some fields of a node are set when it is opened and never change; others only grow, or keep
a relation that every transition needs.  This module states what the small steps keep, whichever
procedure they come from.

Main results:

- Theorem `Run.static`: identity, membership, mode and floor are constant in a transition.
- Theorem `Run.opened`: the frontiers of an opened node stay ordered.
- Theorem `Micro.cell`: what a small step may do to one cell.
- Theorem `Micro.governing_mono`: the promise that governs a live slot never decreases.
-/

namespace PaxosOdin

variable {V : Type} {P : Params} {I : Input V}

/-! ## Constant fields -/

/-- The fields that no transition of the system changes. -/
structure Static where
  id : Nat
  membership : Membership
  selfIndex : Nat
  votingMember : Bool
  ownership : Bool
  priority : Fin 256
  memoryFloor : Nat
  anchor : TrimAnchor

/-- The constant fields of a node. -/
def Node.static (n : Node V) : Static where
  id := n.id
  membership := n.membership
  selfIndex := n.selfIndex
  votingMember := n.votingMember
  ownership := n.ownership
  priority := n.priority
  memoryFloor := n.memoryFloor
  anchor := n.ledger.anchor

/-- What the learner leaves alone includes the constant fields. -/
theorem static_of_fixed {n n' : Node V} (h : n'.fixed = n.fixed) : n'.static = n.static := by
  simp only [Node.fixed, Fixed.mk.injEq] at h
  unfold Node.static
  simp only [h]

/-! ## The frontiers of an opened node -/

/-- What holds of a node from the moment it is opened. -/
structure Opened (P : Params) (n : Node V) : Prop where
  member : n.votingMember = true → n.membership.members[n.selfIndex]? = some n.id
  small : n.membership.members.length ≤ maxSlot
  aligned : n.votingMember = true → n.ownership = true → OwnAligned n n.ownNext
  term : n.role = .leader → n.leaderBase ≤ n.nextSlot
  chunk : n.role = .preparing → n.recoverLast < n.recoverBase + P.C ∧ n.recoverLast ≤ maxSlot
  floor : n.memoryFloor ≤ n.deliveredThrough
  last : n.deliveredThrough ≤ maxSlot

theorem OwnAligned.congr {n n' : Node V} {slot : Nat} (h : OwnAligned n slot)
    (hstatic : n'.static = n.static) : OwnAligned n' slot := by
  have hmem : n'.membership = n.membership := congrArg Static.membership hstatic
  have hself : n'.selfIndex = n.selfIndex := congrArg Static.selfIndex hstatic
  unfold OwnAligned at h ⊢
  rw [hmem, hself]
  exact h

section Steps

variable [DecidableEq V]

theorem recordReport_static (n : Node V) (member cell slot vote : Nat) (state : CellState)
    (value : V) : (recordReport n member cell slot vote state value).1.static = n.static := by
  unfold recordReport
  dsimp only
  split_ifs <;> rfl

/-- No small step changes a constant field. -/
theorem Micro.static {σ σ' : St V} (h : Micro P I σ σ') : σ'.node.static = σ.node.static := by
  cases h with
  | learn h => exact static_of_fixed h.fixed
  | report => exact recordReport_static _ _ _ _ _ _ _
  | _ => rfl

/-- A transition keeps the constant fields. -/
theorem Run.static {σ σ' : St V} (h : Run P I σ σ') : σ'.node.static = σ.node.static :=
  h.preserves (motive := fun τ => τ.node.static = σ.node.static)
    (fun hstep hτ => hstep.static.trans hτ) rfl

omit [DecidableEq V] in
/-- The step that ends a transition keeps the constant fields. -/
theorem Final.static {n₀ : Node V} {σ σ' : St V} (h : Final P I n₀ σ σ') :
    σ'.node.static = σ.node.static := by
  cases h <;> rfl

omit [DecidableEq V] in
/-- The fields that bound the frontiers, when only they matter. -/
theorem Opened.congr {n n' : Node V} (h : Opened P n) (hstatic : n'.static = n.static)
    (haligned : n'.votingMember = true → n'.ownership = true → OwnAligned n' n'.ownNext)
    (hterm : n'.role = .leader → n'.leaderBase ≤ n'.nextSlot)
    (hchunk : n'.role = .preparing →
      n'.recoverLast < n'.recoverBase + P.C ∧ n'.recoverLast ≤ maxSlot)
    (hdelivered : n.deliveredThrough ≤ n'.deliveredThrough)
    (hlast : n'.deliveredThrough ≤ maxSlot) : Opened P n' := by
  have hs := hstatic
  simp only [Node.static, Static.mk.injEq] at hs
  refine ⟨?_, ?_, haligned, hterm, hchunk, ?_, hlast⟩
  · rw [hs.1, hs.2.1, hs.2.2.1, hs.2.2.2.1]
    exact h.member
  · rw [hs.2.1]
    exact h.small
  · rw [hs.2.2.2.2.2.2.1]
    exact h.floor.trans hdelivered

omit [DecidableEq V] in
theorem Learn.delivered {σ σ' : St V} (h : Learn P I σ σ')
    (hlast : σ.node.deliveredThrough ≤ maxSlot) :
    σ.node.deliveredThrough ≤ σ'.node.deliveredThrough ∧
      σ'.node.deliveredThrough ≤ maxSlot := by
  cases h with
  | pass _ hnext hmax =>
      subst hnext
      exact ⟨Nat.le_succ _, Nat.lt_of_le_of_ne hlast hmax⟩
  | deliver hmax => exact ⟨Nat.le_succ _, hmax⟩
  | _ => exact ⟨le_rfl, hlast⟩

/-- One small step keeps the frontiers ordered. -/
theorem Micro.opened {σ σ' : St V} (h : Micro P I σ σ') (ho : Opened P σ.node) :
    Opened P σ'.node := by
  have hstatic := h.static
  cases h with
  | learn h =>
      have hfixed := h.fixed
      obtain ⟨hmono, hlast⟩ := h.delivered ho.last
      simp only [Node.fixed, Fixed.mk.injEq] at hfixed
      refine ho.congr hstatic (fun hv hown => ?_) (fun hr => ?_) (fun hr => ?_) hmono hlast
      · rw [hfixed.2.2.2.2.2.2.2.2.2.2.2.2.1]
        exact (ho.aligned (by rw [← hfixed.2.2.2.1]; exact hv)
          (by rw [← hfixed.2.2.2.2.1]; exact hown)).congr hstatic
      · have := ho.term (by rw [← hfixed.2.2.2.2.2.1]; exact hr)
        omega
      · have := ho.chunk (by rw [← hfixed.2.2.2.2.2.1]; exact hr)
        omega
  | idle hrole _ _ hnext hown =>
      refine ho.congr hstatic (fun hv hmode => ?_) (fun hr => ?_) (fun hr => ?_) le_rfl ho.last
      · rcases hown with rfl | ⟨-, haligned⟩
        · exact ho.aligned hv hmode
        · exact haligned
      · rcases hrole with rfl | rfl
        · rcases hnext with heq | ⟨heq, -⟩
          · exact (ho.term hr).trans heq.ge
          · exact (ho.term hr).trans ((Nat.le_succ _).trans heq.ge)
        · cases hr
      · rcases hrole with rfl | rfl
        · exact ho.chunk hr
        · cases hr
  | own _ _ _ _ _ haligned =>
      exact ho.congr hstatic (fun _ _ => haligned) ho.term ho.chunk le_rfl ho.last
  | report _ _ hrole =>
      have hterm : ∀ (n : Node V) (member cell slot vote : Nat) (state : CellState) (value : V),
          n.role = .preparing → Opened P n →
          Opened P (recordReport n member cell slot vote state value).1 := by
        intro n member cell slot vote state value hr h
        have hs := recordReport_static n member cell slot vote state value
        unfold recordReport at hs ⊢
        dsimp only at hs ⊢
        split_ifs at hs ⊢ <;> exact h.congr hs h.aligned h.term h.chunk le_rfl h.last
      exact hterm _ _ _ _ _ _ _ hrole ho
  | nextChunk hrole _ _ hmax =>
      refine ho.congr hstatic ho.aligned (fun hr => ?_) (fun _ => ?_) le_rfl ho.last
      · have : σ.node.role = .leader := hr
        rw [hrole] at this
        cases this
      · have hC := P.chunk_pos
        have hle := slotAdd_le_add (σ.node.recoverLast + 1) (P.C - 1)
        have hlast := (ho.chunk hrole).2
        have hroom := slotAdd_le_maxSlot (P.C - 1) (by omega : σ.node.recoverLast + 1 ≤ maxSlot)
        show (if σ.node.ownership = true then
            min (slotAdd (σ.node.recoverLast + 1) (P.C - 1))
              (max σ.node.highestSeen (σ.node.recoverLast + 1))
          else slotAdd (σ.node.recoverLast + 1) (P.C - 1)) < σ.node.recoverLast + 1 + P.C ∧
          (if σ.node.ownership = true then
            min (slotAdd (σ.node.recoverLast + 1) (P.C - 1))
              (max σ.node.highestSeen (σ.node.recoverLast + 1))
          else slotAdd (σ.node.recoverLast + 1) (P.C - 1)) ≤ maxSlot
        split_ifs <;> omega
  | lead =>
      exact ho.congr hstatic ho.aligned (fun _ => le_rfl) (fun hr => (by cases hr)) le_rfl ho.last
  | _ => exact ho.congr hstatic ho.aligned ho.term ho.chunk le_rfl ho.last

/-- A transition keeps the frontiers ordered. -/
theorem Run.opened {σ σ' : St V} (h : Run P I σ σ') (ho : Opened P σ.node) : Opened P σ'.node :=
  h.preserves (motive := fun τ => Opened P τ.node) (fun hstep hτ => hstep.opened hτ) ho

omit [DecidableEq V] in
/-- The step that ends a transition keeps the frontiers ordered. -/
theorem Final.opened {n₀ : Node V} {σ σ' : St V} (h : Final P I n₀ σ σ')
    (ho : Opened P σ.node) : Opened P σ'.node := by
  have hstatic := h.static
  cases h with
  | campaign _ _ _ hbase =>
      have hC := P.chunk_pos
      have hlast := ho.last
      have hle := slotAdd_le_add (σ.node.deliveredThrough + 1) (P.C - 1)
      have hroom := slotAdd_le_maxSlot (P.C - 1)
        (by omega : σ.node.deliveredThrough + 1 ≤ maxSlot)
      refine ho.congr hstatic ho.aligned (fun hr => (by cases hr)) (fun _ => ⟨?_, hroom⟩) le_rfl ho.last
      show slotAdd (σ.node.deliveredThrough + 1) (P.C - 1) < σ.node.deliveredThrough + 1 + P.C
      omega
  | revoke hmode hnoop hballot hround hcurrent hpromised hvotes hcells hfresh hbase hlast hroom =>
      refine ho.congr hstatic ho.aligned (fun hr => (by cases hr)) (fun _ => ⟨?_, hroom⟩) le_rfl ho.last
      exact Nat.lt_of_le_of_lt hlast (by
        show σ.node.deliveredThrough + P.C < σ.node.deliveredThrough + 1 + P.C
        omega)
  | answer => exact ho.congr hstatic ho.aligned ho.term ho.chunk le_rfl ho.last

end Steps

/-! ## What happens to one cell -/

/-- What a small step may do to the cell `i`: nothing, open it for a live slot when it is free,
or write to it while it holds a live slot.  A decision is never overwritten. -/
inductive CellStep (P : Params) (floor i : Nat) (c c' : Cell V) : Prop
  | same (h : c' = c)
  | opened (slot : Nat) (hcell : cellOf slot P.W = i) (hlive : floor < slot)
      (hwindow : slot ≤ floor + P.W) (hother : c.slot ≠ slot)
      (hfree : c.slot = 0 ∨ (c.slot ≤ floor ∧ c.state = .chosen))
      (h : c' = { slot := slot, promisedAt := 0, voteBallot := 0, state := .empty, value := c.value })
  | written (hcell : cellOf c.slot P.W = i) (hlive : floor < c.slot)
      (hwindow : c.slot ≤ floor + P.W) (hslot : c'.slot = c.slot)
      (hpromise : c.promisedAt ≤ c'.promisedAt)
      (hkept : c.state = .chosen → c'.state = .chosen ∧ c'.value = c.value)
      (hstate : c'.state = .empty → c.state = .empty)

theorem Learn.cell {σ σ' : St V} (h : Learn P I σ σ') (i : Nat) :
    CellStep P σ.node.memoryFloor i (σ.node.ledger.cells i) (σ'.node.ledger.cells i) := by
  cases h with
  | @claim slot hlive hwindow hother hfree =>
      by_cases hi : i = cellOf slot P.W
      · subst hi
        exact .opened slot rfl hlive hwindow hother hfree (by simp [St.withLedger])
      · exact .same (by simp [St.withLedger, ledgerOpen_cells, hi])
  | @choose slot value _ hlive hwindow hheld hopen =>
      by_cases hi : i = cellOf slot P.W
      · subst hi
        simp only [Ledger.cellAt] at hheld hopen
        refine .written (by rw [hheld]) (by omega) (by omega) ?_ ?_ (fun hc => absurd hc hopen) ?_ <;>
          simp [St.withLedger, St.addWrite, ledgerRecordChosen_cells]
      · exact .same (by simp [St.withLedger, St.addWrite, ledgerRecordChosen_cells, hi])
  | _ => exact .same rfl

/-- What a vote writes into a cell. -/
theorem ledgerVote_cells (l : Ledger V) (cell promised ballot : Nat) (value : V) (i : Nat) :
    (ledgerRecordVote (ledgerSetPromiseAt l cell promised) cell ballot value).cells i =
      if i = cell then
        { l.cells i with promisedAt := promised, voteBallot := ballot, value := value, state := .voted }
      else l.cells i := by
  rw [ledgerRecordVote_cells, ledgerSetPromiseAt_cells]
  split_ifs <;> rfl

/-- A vote for a live slot, as seen from one cell. -/
theorem CellStep.ofVote {l : Ledger V} {floor slot promised ballot : Nat} {value : V}
    (hlive : floor < slot) (hwindow : slot ≤ floor + P.W) (hheld : (l.cellAt P slot).slot = slot)
    (hopen : (l.cellAt P slot).state ≠ .chosen) (hle : (l.cellAt P slot).promisedAt ≤ promised)
    (i : Nat) :
    CellStep P floor i (l.cells i)
      ((ledgerRecordVote (ledgerSetPromiseAt l (cellOf slot P.W) promised) (cellOf slot P.W) ballot
        value).cells i) := by
  rw [ledgerVote_cells]
  by_cases hi : i = cellOf slot P.W
  · subst hi
    rw [if_pos rfl]
    simp only [Ledger.cellAt] at hheld hopen hle
    exact .written (by rw [hheld]) (by omega) (by omega) rfl hle (fun hc => absurd hc hopen)
      (fun he => (by cases he))
  · rw [if_neg hi]
    exact .same rfl

section Cells

variable [DecidableEq V]

/-- What one small step does to a cell. -/
theorem Micro.cell {σ σ' : St V} (h : Micro P I σ σ') (i : Nat) :
    CellStep P σ.node.memoryFloor i (σ.node.ledger.cells i) (σ'.node.ledger.cells i) := by
  cases h with
  | learn h => exact h.cell i
  | @promiseAt ballot slot hlive hwindow hheld hle =>
      by_cases hi : i = cellOf slot P.W
      · subst hi
        simp only [Ledger.cellAt] at hheld hle
        refine .written (by rw [hheld]) (by omega) (by omega) ?_ ?_ (fun hc => ?_) (fun he => ?_) <;>
          simp_all [St.withLedger, St.addWrite, ledgerSetPromiseAt_cells]
      · exact .same (by simp [St.withLedger, St.addWrite, ledgerSetPromiseAt_cells, hi])
  | vote _ hlive hwindow hheld hopen _ _ _ hlocal =>
      exact CellStep.ofVote hlive hwindow hheld hopen hlocal i
  | drive _ _ hlive hwindow hheld hopen =>
      exact CellStep.ofVote hlive hwindow hheld hopen (le_max_left _ _) i
  | own _ _ _ _ _ _ hlive hwindow hheld hopen =>
      exact CellStep.ofVote hlive hwindow hheld hopen (le_max_left _ _) i
  | report =>
      refine .same ?_
      show (recordReport _ _ _ _ _ _ _).1.ledger.cells i = _
      unfold recordReport
      dsimp only
      split_ifs <;> rfl
  | _ => exact .same rfl

end Cells

/-- Each owned cell is the cell of its slot. -/
def Tagged (P : Params) (l : Ledger V) : Prop :=
  ∀ i, (l.cells i).slot ≠ 0 → cellOf (l.cells i).slot P.W = i

theorem CellStep.tagged {floor i : Nat} {c c' : Cell V} (h : CellStep P floor i c c')
    (htag : c.slot ≠ 0 → cellOf c.slot P.W = i) : c'.slot ≠ 0 → cellOf c'.slot P.W = i := by
  rcases h with rfl | ⟨slot, hcell, -, -, -, -, rfl⟩ | ⟨hcell, -, -, hslot, -, -, -⟩
  · exact htag
  · exact fun _ => hcell
  · rw [hslot]
    exact fun _ => hcell

/-! ## Cells along a transition -/

/-- A step on a cell never changes whether a live slot of that cell is stuck. -/
theorem CellStep.stuck {n n' : Node V} {slot : Nat}
    (h : CellStep P n.memoryFloor (cellOf slot P.W) (n.ledger.cellAt P slot) (n'.ledger.cellAt P slot))
    (hfloor : n'.memoryFloor = n.memoryFloor) (hlive : n.memoryFloor < slot) :
    Stuck P n' slot ↔ Stuck P n slot := by
  unfold Stuck
  rw [hfloor]
  refine and_congr_right fun hwin => ?_
  rcases h with heq | ⟨opened, hcell, hl, hw, hother, hfree, heq⟩ | ⟨hcell, hl, hw, hslot, -, -, -⟩
  · rw [heq]
  · have : opened = slot := eq_of_cellOf_eq P hl hw hlive hwin hcell
    rw [heq]
    refine iff_of_false (fun h => h.1 this) fun h => ?_
    exact hfree.elim h.2.1 h.2.2
  · have : (n.ledger.cellAt P slot).slot = slot := eq_of_cellOf_eq P hl hw hlive hwin hcell
    rw [hslot]
    exact iff_of_false (fun h => h.1 this) fun h => h.1 this

/-- The promise that governs `slot`: the global one, or the greater promise of the cell while
it holds the slot. -/
def governing (P : Params) (l : Ledger V) (slot : Nat) : Nat :=
  if (l.cellAt P slot).slot = slot then max l.promised (l.cellAt P slot).promisedAt else l.promised

/-- A cell that holds a live slot goes on holding it, and its promise only grows. -/
theorem CellStep.held {floor slot : Nat} {c c' : Cell V} {i : Nat} (h : CellStep P floor i c c')
    (hslot : c.slot = slot) (hlive : floor < slot) :
    c'.slot = slot ∧ c.promisedAt ≤ c'.promisedAt := by
  rcases h with heq | ⟨opened, hcell, hl, hw, hother, hfree, heq⟩ | ⟨-, -, -, hs, hp, -, -⟩
  · rw [heq]
    exact ⟨hslot, le_rfl⟩
  · rcases hfree with h0 | ⟨hle, -⟩ <;> omega
  · exact ⟨hs.trans hslot, hp⟩

/-- A decided cell keeps its decision while it holds its slot. -/
theorem CellStep.kept {floor slot : Nat} {c c' : Cell V} {i : Nat} (h : CellStep P floor i c c')
    (hslot : c.slot = slot) (hslot' : c'.slot = slot) (hchosen : c.state = .chosen) :
    c'.state = .chosen ∧ c'.value = c.value := by
  rcases h with heq | ⟨opened, hcell, hl, hw, hother, hfree, heq⟩ | ⟨-, -, -, -, -, hkept, -⟩
  · rw [heq]
    exact ⟨hchosen, rfl⟩
  · rw [heq] at hslot'
    exact absurd (hslot.trans hslot'.symm) hother
  · exact hkept hchosen

section Runs

variable [DecidableEq V]

omit [DecidableEq V] in
theorem memoryFloor_of_static {n n' : Node V} (h : n'.static = n.static) :
    n'.memoryFloor = n.memoryFloor :=
  congrArg Static.memoryFloor h

/-- A transition never changes whether a live slot is stuck. -/
theorem Run.stuck {σ σ' : St V} (h : Run P I σ σ') {slot : Nat}
    (hlive : σ.node.memoryFloor < slot) : Stuck P σ'.node slot ↔ Stuck P σ.node slot := by
  have hstep : ∀ {τ τ' : St V}, Micro P I τ τ' →
      τ.node.memoryFloor = σ.node.memoryFloor ∧ (Stuck P τ.node slot ↔ Stuck P σ.node slot) →
      τ'.node.memoryFloor = σ.node.memoryFloor ∧ (Stuck P τ'.node slot ↔ Stuck P σ.node slot) := by
    rintro τ τ' hm ⟨hfloor, hiff⟩
    have hfloor' := memoryFloor_of_static hm.static
    exact ⟨hfloor'.trans hfloor,
      ((hm.cell (cellOf slot P.W)).stuck hfloor' (by rw [hfloor]; exact hlive)).trans hiff⟩
  exact (h.preserves hstep ⟨rfl, Iff.rfl⟩).2

theorem Micro.promised_mono {σ σ' : St V} (h : Micro P I σ σ') :
    σ.node.ledger.promised ≤ σ'.node.ledger.promised := by
  cases h with
  | learn h => cases h <;> exact le_rfl
  | promise hle => exact hle
  | report =>
      show _ ≤ (recordReport _ _ _ _ _ _ _).1.ledger.promised
      unfold recordReport
      dsimp only
      split_ifs <;> exact le_rfl
  | _ => exact le_rfl

/-- Along a transition a live slot stays in its cell, and its promises only grow. -/
theorem Run.held {σ σ' : St V} (h : Run P I σ σ') {slot : Nat}
    (hslot : (σ.node.ledger.cellAt P slot).slot = slot) (hlive : σ.node.memoryFloor < slot) :
    (σ'.node.ledger.cellAt P slot).slot = slot ∧
      (σ.node.ledger.cellAt P slot).promisedAt ≤ (σ'.node.ledger.cellAt P slot).promisedAt := by
  have hstep : ∀ {τ τ' : St V}, Micro P I τ τ' →
      τ.node.memoryFloor = σ.node.memoryFloor ∧ (τ.node.ledger.cellAt P slot).slot = slot ∧
        (σ.node.ledger.cellAt P slot).promisedAt ≤ (τ.node.ledger.cellAt P slot).promisedAt →
      τ'.node.memoryFloor = σ.node.memoryFloor ∧ (τ'.node.ledger.cellAt P slot).slot = slot ∧
        (σ.node.ledger.cellAt P slot).promisedAt ≤ (τ'.node.ledger.cellAt P slot).promisedAt := by
    rintro τ τ' hm ⟨hfloor, hs, hp⟩
    obtain ⟨hs', hp'⟩ := (hm.cell (cellOf slot P.W)).held hs (by rw [hfloor]; exact hlive)
    exact ⟨(memoryFloor_of_static hm.static).trans hfloor, hs', hp.trans hp'⟩
  exact (h.preserves hstep ⟨rfl, hslot, le_rfl⟩).2

/-- A transition keeps every owned cell the cell of its slot. -/
theorem Run.tagged {σ σ' : St V} (h : Run P I σ σ') (htag : Tagged P σ.node.ledger) :
    Tagged P σ'.node.ledger :=
  h.preserves (motive := fun τ => Tagged P τ.node.ledger)
    (fun hm hτ i => (hm.cell i).tagged (hτ i)) htag

/-- The promise that governs a live slot never decreases. -/
theorem Micro.governing_mono {σ σ' : St V} (h : Micro P I σ σ') {slot : Nat}
    (hlive : σ.node.memoryFloor < slot) :
    governing P σ.node.ledger slot ≤ governing P σ'.node.ledger slot := by
  have hpromised := h.promised_mono
  unfold governing
  by_cases hslot : (σ.node.ledger.cellAt P slot).slot = slot
  · obtain ⟨hs, hp⟩ := (h.cell (cellOf slot P.W)).held hslot hlive
    rw [if_pos hslot, if_pos hs]
    exact max_le_max hpromised hp
  · rw [if_neg hslot]
    split_ifs
    · exact hpromised.trans (le_max_left _ _)
    · exact hpromised

end Runs

end PaxosOdin
