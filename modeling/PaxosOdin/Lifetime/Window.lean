import PaxosOdin.Lifetime.Tenure

/-!
# The live window

A decision that is released without a cell leaves its slot open to a late message: when the floor
then comes within a window of that slot, the slot takes a cell again, and when the floor passes it
the cell is never decided and never reused.  The same decision, read back at a floor more than a
window below it, takes the cell of a live slot.  Where the host's floors avoid the slots released
that way, every slot of the window has a cell.

Main results:

- Theorem `Micro.usable`: a small step keeps the cells of the window usable.
- Theorem `window_usable`: so does every run whose floors avoid the passed slots.
- Theorem `window_lost`: without that condition a slot of the window can lose its cell for ever.
-/

namespace PaxosOdin

variable {V : Type} {P : Params} {I : Input V}

/-- The window of the node is usable: a cell at or below the floor is decided, no cell is ahead
of the window, and so every slot of the window can be claimed. -/
structure WindowUsable (P : Params) (n : Node V) : Prop where
  decided : ∀ i, (n.ledger.cells i).slot ≠ 0 → (n.ledger.cells i).slot ≤ n.memoryFloor →
    (n.ledger.cells i).state = .chosen
  within : ∀ i, (n.ledger.cells i).slot ≤ n.memoryFloor + P.W
  claims : ∀ slot, n.memoryFloor < slot → slot ≤ n.memoryFloor + P.W →
    (claimLive P n slot).2 = some (cellOf slot P.W)

/-- The floor is past each of the slots, or more than a window below it. -/
def Avoids (P : Params) (slots : List Nat) (floor : Nat) : Prop :=
  ∀ s ∈ slots, s ≤ floor ∨ floor + P.W < s

/-- The cells of a node that released `passed` without a cell. -/
structure Usable (P : Params) (passed : List Nat) (n : Node V) : Prop where
  within : ∀ i, (n.ledger.cells i).slot ≤ n.memoryFloor + P.W
  released : ∀ i, (n.ledger.cells i).slot ≠ 0 → (n.ledger.cells i).slot ≤ n.deliveredThrough →
    (n.ledger.cells i).state = .chosen
  avoids : Avoids P passed n.memoryFloor
  resident : ∀ s, n.memoryFloor < s → s ≤ n.deliveredThrough →
    s ∈ passed ∨ (n.ledger.cellAt P s).slot = s
  floor : n.memoryFloor ≤ n.deliveredThrough

/-- No slot of the window is stuck. -/
theorem Usable.not_stuck {passed : List Nat} {n : Node V} (h : Usable P passed n) {slot : Nat}
    (hlive : n.memoryFloor < slot) (htag : ∀ i, (n.ledger.cells i).slot ≠ 0 →
      cellOf (n.ledger.cells i).slot P.W = i) : ¬ Stuck P n slot := by
  rintro ⟨hwindow, hother, h0, hheld⟩
  by_cases hle : (n.ledger.cellAt P slot).slot ≤ n.memoryFloor
  · exact hheld ⟨hle, h.released _ h0 (hle.trans h.floor)⟩
  · have hwithin := h.within (cellOf slot P.W)
    exact hother (eq_of_cellOf_eq P (Nat.lt_of_not_le hle) hwithin hlive hwindow (htag _ h0))

theorem Usable.window {passed : List Nat} {n : Node V} (h : Usable P passed n)
    (htag : ∀ i, (n.ledger.cells i).slot ≠ 0 → cellOf (n.ledger.cells i).slot P.W = i) :
    WindowUsable P n where
  decided := fun i h0 hle => h.released i h0 (hle.trans h.floor)
  within := h.within
  claims := by
    intro slot hlive hwindow
    have hsome : (claimLive P n slot).2 ≠ none := by
      rw [Ne, claimLive_none_iff]
      rintro (hlow | hhigh | hstuck)
      · omega
      · omega
      · exact h.not_stuck hlive htag hstuck
    cases hclaim : (claimLive P n slot).2 with
    | none => exact absurd hclaim hsome
    | some cell =>
        have hclaimed := claimLive_some (Prod.ext rfl hclaim)
        rw [hclaimed.cell_eq]

/-! ## Small steps -/

/-- What one small step releases. -/
inductive Releases (P : Params) (σ σ' : St V) : Prop
  | nothing (hdelivered : σ'.node.deliveredThrough = σ.node.deliveredThrough)
      (hpassed : σ'.effects.passedSlots = σ.effects.passedSlots)
  | held (hdelivered : σ'.node.deliveredThrough = σ.node.deliveredThrough + 1)
      (hpassed : σ'.effects.passedSlots = σ.effects.passedSlots)
      (hcells : σ'.node.ledger = σ.node.ledger)
      (hheld : (σ.node.ledger.cellAt P (σ.node.deliveredThrough + 1)).slot =
        σ.node.deliveredThrough + 1)
      (hchosen : (σ.node.ledger.cellAt P (σ.node.deliveredThrough + 1)).state = .chosen)
  | passed (hdelivered : σ'.node.deliveredThrough = σ.node.deliveredThrough + 1)
      (hpassed : σ'.effects.passedSlots =
        σ.effects.passedSlots ++ [σ.node.deliveredThrough + 1])
      (hcells : σ'.node.ledger = σ.node.ledger)
      (hclaim : (claimLive P σ.node (σ.node.deliveredThrough + 1)).2 = none)

theorem St.setPassThrough_passedSlots (σ : St V) (value : V) :
    (σ.setPassThrough value).effects.passedSlots = σ.effects.passedSlots := by
  simp only [Effects.passedSlots, St.setPassThrough]
  induction σ.effects.committed with
  | nil => rfl
  | cons c committed ih =>
      cases hp : c.passThrough with
      | true => simpa [hp] using ih
      | false => simpa [hp] using ih

theorem Learn.releases {σ σ' : St V} (h : Learn P I σ σ') : Releases P σ σ' := by
  cases h with
  | @pass slot value _ hnext _ _ hclaim _ _ =>
      subst hnext
      refine .passed rfl ?_ rfl hclaim
      rw [← σ.setPassThrough_passedSlots value]
      simp [Effects.passedSlots, St.addCommitted, St.addWrite]
  | deliver _ hheld hchosen =>
      refine .held rfl ?_ rfl hheld hchosen
      simp [Effects.passedSlots, St.addCommitted]
  | _ => exact .nothing rfl rfl

section Steps

variable [DecidableEq V]

theorem Micro.releases {σ σ' : St V} (h : Micro P I σ σ') : Releases P σ σ' := by
  cases h with
  | learn h => exact h.releases
  | report =>
      refine .nothing ?_ rfl
      unfold recordReport
      dsimp only
      split_ifs <;> rfl
  | _ => exact .nothing rfl rfl

omit [DecidableEq V] in
theorem Final.releases {n₀ : Node V} {σ σ' : St V} (h : Final P I n₀ σ σ') :
    σ'.node.deliveredThrough = σ.node.deliveredThrough ∧
      σ'.effects.passedSlots = σ.effects.passedSlots ∧
        σ'.node.ledger.cells = σ.node.ledger.cells := by
  cases h <;> exact ⟨rfl, rfl, rfl⟩

/-- The cells of a state in the middle of a transition, after earlier transitions that released
`passed` without a cell. -/
structure UsableSt (P : Params) (passed : List Nat) (σ : St V) : Prop where
  usable : Usable P (passed ++ σ.effects.passedSlots) σ.node
  tagged : Tagged P σ.node.ledger

/-- A small step keeps the cells of the window usable. -/
theorem Micro.usable {passed : List Nat} {σ σ' : St V} (hm : Micro P I σ σ')
    (h : UsableSt P passed σ) : UsableSt P passed σ' := by
  have hfloor := memoryFloor_of_static hm.static
  have hcell := fun i => hm.cell i
  obtain ⟨hu, htag⟩ := h
  refine ⟨?_, fun i => (hcell i).tagged (htag i)⟩
  have hwithin : ∀ i, (σ'.node.ledger.cells i).slot ≤ σ.node.memoryFloor + P.W := by
    intro i
    have hold := hu.within i
    rcases hcell i with heq | ⟨slot, -, -, hwindow, -, -, heq⟩ | ⟨-, -, hwindow, hslot, -, -, -⟩
    · rw [heq]
      exact hold
    · rw [heq]
      exact hwindow
    · rw [hslot]
      exact hwindow
  rcases hm.releases with ⟨hdelivered, hpassed⟩ | ⟨hdelivered, hpassed, hcells, hheld, hchosen⟩ |
    ⟨hdelivered, hpassed, hcells, hclaim⟩
  · -- A cell that is opened belongs to a slot that is still to be released.
    constructor
    · rw [hfloor]
      exact hwithin
    · intro i h0 hle
      rw [hdelivered] at hle
      rcases hcell i with heq | ⟨slot, hi, hlive, hwindow, hother, -, heq⟩ |
        ⟨hi, hlive, hwindow, hslot, -, hkept, -⟩
      · rw [heq] at h0 hle ⊢
        exact hu.released i h0 hle
      · rw [heq] at hle
        subst hi
        rcases hu.resident slot hlive hle with hmem | hres
        · rcases hu.avoids slot hmem with hpast | hfar <;> omega
        · exact absurd hres hother
      · rw [hslot] at h0 hle
        exact (hkept (hu.released i h0 hle)).1
    · rw [hfloor, hpassed]
      exact hu.avoids
    · intro s hlive hle
      rw [hfloor] at hlive
      rw [hdelivered] at hle
      rw [hpassed]
      refine (hu.resident s hlive hle).imp id fun hres => ?_
      exact ((hcell (cellOf s P.W)).held hres hlive).1
    · rw [hfloor, hdelivered]
      exact hu.floor
  · -- The next decision is released from its cell.
    have hle := hu.floor
    rw [hpassed]
    constructor
    · rw [hfloor]
      exact hwithin
    · intro i h0 hi
      rw [hcells] at h0 hi ⊢
      rcases Nat.lt_or_eq_of_le (hdelivered ▸ hi) with hlt | heq
      · exact hu.released i h0 (Nat.le_of_lt_succ hlt)
      · have := htag i h0
        rw [heq] at this
        rw [← this]
        exact hchosen
    · rw [hfloor]
      exact hu.avoids
    · intro s hlive hs
      rw [hfloor] at hlive
      rw [hdelivered] at hs
      rw [hcells]
      rcases Nat.lt_or_eq_of_le hs with hlt | rfl
      · exact hu.resident s hlive (Nat.le_of_lt_succ hlt)
      · exact Or.inr hheld
    · rw [hfloor, hdelivered]
      omega
  · -- The next decision has no cell: it is ahead of the window.
    have hle := hu.floor
    have hfar : σ.node.memoryFloor + P.W < σ.node.deliveredThrough + 1 := by
      rcases claimLive_none_iff.mp hclaim with hlow | hhigh | hstuck
      · omega
      · exact hhigh
      · exact absurd hstuck (hu.not_stuck (by omega) htag)
    rw [hpassed, ← List.append_assoc]
    constructor
    · rw [hfloor]
      exact hwithin
    · intro i h0 hi
      rw [hcells] at h0 hi ⊢
      have := hu.within i
      exact hu.released i h0 (by omega)
    · rw [hfloor]
      intro s hs
      rcases List.mem_append.mp hs with hs | hs
      · exact hu.avoids s hs
      · rw [List.mem_singleton.mp hs]
        exact Or.inr hfar
    · intro s hlive hs
      rw [hfloor] at hlive
      rw [hdelivered] at hs
      rw [hcells, List.mem_append]
      rcases Nat.lt_or_eq_of_le hs with hlt | rfl
      · exact (hu.resident s hlive (Nat.le_of_lt_succ hlt)).imp Or.inl id
      · exact Or.inl (Or.inr List.mem_cons_self)
    · rw [hfloor, hdelivered]
      omega

/-- A whole transition keeps the cells of the window usable. -/
theorem Completes.usable {passed : List Nat} {n₀ : Node V} {σ σ' : St V}
    (hc : Completes P I n₀ σ σ') (h : UsableSt P passed σ) : UsableSt P passed σ' := by
  obtain ⟨τ, hrun, hlast⟩ := hc
  have hτ : UsableSt P passed τ :=
    hrun.preserves (motive := UsableSt P passed) (fun hm hu => hm.usable hu) h
  rcases hlast with rfl | hfinal
  · exact hτ
  · obtain ⟨hdelivered, hpassed, hcells⟩ := hfinal.releases
    have hfloor := memoryFloor_of_static hfinal.static
    obtain ⟨⟨hwithin, hreleased, havoids, hresident, hle⟩, htag⟩ := hτ
    refine ⟨⟨?_, ?_, ?_, ?_, ?_⟩, ?_⟩
    · rw [hcells, hfloor]
      exact hwithin
    · rw [hcells, hdelivered]
      exact hreleased
    · rw [hpassed, hfloor]
      exact havoids
    · unfold Ledger.cellAt
      rw [hcells, hpassed, hfloor, hdelivered]
      exact hresident
    · rw [hfloor, hdelivered]
      exact hle
    · unfold Tagged
      rw [hcells]
      exact htag

/-! ## Host operations -/

omit [DecidableEq V] in
/-- The floor is moved to where it avoids the passed slots. -/
theorem Usable.setFloor {passed : List Nat} {n n' : Node V} (h : Usable P passed n)
    (hcells : n'.ledger.cells = n.ledger.cells)
    (hdelivered : n'.deliveredThrough = n.deliveredThrough) (hle : n.memoryFloor ≤ n'.memoryFloor)
    (hfloor : n'.memoryFloor ≤ n.deliveredThrough) (havoids : Avoids P passed n'.memoryFloor) :
    Usable P passed n' := by
  constructor
  · intro i
    have := h.within i
    rw [hcells]
    omega
  · rw [hcells, hdelivered]
    exact h.released
  · exact havoids
  · intro s hlive hs
    unfold Ledger.cellAt
    rw [hcells]
    rw [hdelivered] at hs
    exact h.resident s (Nat.lt_of_le_of_lt hle hlive) hs
  · rw [hdelivered]
    exact hfloor

omit [DecidableEq V] in
/-- Where a trim leaves the floor. -/
theorem nodeInstallChosenTrim_floor (n : Node V) (anchor : TrimAnchor) :
    (nodeInstallChosenTrim n anchor).1.node.memoryFloor = n.memoryFloor ∨
      (anchor.chosenTrimSlot ≤ n.deliveredThrough ∧
        (nodeInstallChosenTrim n anchor).1.node.memoryFloor =
          max n.memoryFloor anchor.chosenTrimSlot) := by
  unfold nodeInstallChosenTrim
  dsimp only
  split
  · exact Or.inl rfl
  next hover =>
    split
    · exact Or.inl rfl
    split
    · exact Or.inl rfl
    split
    · exact Or.inl rfl
    split
    · next habove =>
        refine Or.inr ⟨by omega, ?_⟩
        show min anchor.chosenTrimSlot n.deliveredThrough = max n.memoryFloor anchor.chosenTrimSlot
        omega
    · exact Or.inl rfl

/-- The condition on the floors a host sets: past every slot that this incarnation released
without a cell or more than a window below it, and for a restart, at most a window below every
slot the journal records (each a 64-bit word). -/
def Careful (P : Params) (t : Tenure V) : TenureEvent V → Prop
  | .operate (.advanceFloor through) =>
      through ≤ t.node.deliveredThrough → Avoids P t.passed (max t.node.memoryFloor through)
  | .operate (.installTrim anchor) =>
      anchor.chosenTrimSlot ≤ t.node.deliveredThrough →
        Avoids P t.passed (max t.node.memoryFloor anchor.chosenTrimSlot)
  | .operate _ => True
  | .restart kept floor _ => ∀ w ∈ t.durable kept, w.Word ∧ w.slot ≤ floor + P.W

/-- One operation keeps the cells of the window usable. -/
theorem operate_usable {t : Tenure V} (ho : Opened P t.node) (h : Usable P t.passed t.node)
    (htag : Tagged P t.node.ledger) (op : Operation V) (hok : Careful P t (.operate op)) :
    Usable P (t.passed ++ (operate P t.node op).effects.passedSlots) (operate P t.node op).node ∧
      Tagged P (operate P t.node op).node.ledger := by
  rcases operate_cases ho op with hc | ⟨anchor, rfl⟩ | ⟨through, rfl⟩ | ⟨enabled, rfl⟩
  · have hstart : UsableSt P t.passed (St.start t.node) :=
      ⟨by simpa [St.start, Effects.passedSlots] using h, htag⟩
    exact ⟨(hc.usable hstart).usable, (hc.usable hstart).tagged⟩
  · obtain ⟨hdelivered, hcells, hcommitted⟩ := nodeInstallChosenTrim_quiet t.node anchor
    have hpassed : (operate P t.node (.installTrim anchor)).effects.passedSlots = [] := by
      simp [operate, Effects.passedSlots, hcommitted]
    rw [hpassed, List.append_nil]
    have hle := h.floor
    refine ⟨?_, fun i => ?_⟩
    · rcases nodeInstallChosenTrim_floor t.node anchor with heq | ⟨hanchor, heq⟩
      · exact h.setFloor hcells hdelivered heq.ge (heq.trans_le hle) (by rw [operate, heq]; exact h.avoids)
      · exact h.setFloor hcells hdelivered (heq ▸ le_max_left _ _)
          (heq.trans_le (max_le hle hanchor)) (by rw [operate, heq]; exact hok hanchor)
    · simp only [operate, hcells]
      exact htag i
  · have hle := h.floor
    simp only [operate, St.start, Effects.passedSlots, List.filter_nil, List.map_nil,
      List.append_nil, nodeAdvanceMemoryFloor]
    split_ifs with hover
    · exact ⟨h, htag⟩
    · exact ⟨h.setFloor rfl rfl (le_max_left _ _) (max_le hle (Nat.le_of_not_lt hover))
        (hok (Nat.le_of_not_lt hover)), htag⟩
  · refine ⟨?_, htag⟩
    simp only [operate, St.start, Effects.passedSlots, List.filter_nil, List.map_nil,
      List.append_nil]
    exact h.setFloor rfl rfl le_rfl h.floor h.avoids

/-! ## Restarts -/

variable [Inhabited V]

/-- A node that was restored at most a window below every record has a usable window. -/
theorem restored_usable {id floor : Nat} {membership : Membership} {options : NodeOptions}
    {log : List (Write V)} {l : Ledger V} {n : Node V} (hreplay : replay P log = (l, .none))
    (hrestore : nodeRestore P id membership l floor options = .ok n)
    (hwithin : ∀ w ∈ log, w.slot ≤ floor + P.W) :
    Usable P [] n ∧ Tagged P n.ledger := by
  obtain ⟨hcells, hdelivered, hfloor⟩ : (∃ base, floor ≤ base ∧ n.memoryFloor = base ∧
      n.ledger = clearOpenCells P l base) ∧ n.deliveredThrough = n.memoryFloor ∧
        floor ≤ n.memoryFloor := by
    unfold nodeRestore at hrestore
    split at hrestore
    · cases hrestore
    · next n₀ hinit =>
        cases hrestore
        have hbase : floor ≤ max floor l.anchor.chosenTrimSlot := le_max_left _ _
        unfold nodeResumeAt
        dsimp only
        split_ifs <;> exact ⟨⟨_, hbase, rfl, rfl⟩, rfl, hbase⟩
  obtain ⟨base, hbase, hnode, hledger⟩ := hcells
  have hclear := clearOpenCells_cells (P := P) base l
  have hcase : ∀ i, (n.ledger.cells i).slot = 0 ∨
      (n.ledger.cells i = l.cells i ∧ ¬ Clears base (l.cells i)) := by
    intro i
    rw [hledger, hclear.cells]
    split_ifs with hc
    · exact Or.inl rfl
    · by_cases h0 : (l.cells i).slot = 0
      · exact Or.inl h0
      · refine Or.inr ⟨rfl, fun hclears => hc ⟨?_, hclears⟩⟩
        rw [← ((replay_source hreplay).owner i h0).1]
        exact List.mem_range.mpr (cellOf_lt P _)
  refine ⟨⟨fun i => ?_, fun i h0 hle => ?_, fun s hs => (by cases hs), fun s hlive hs => ?_, ?_⟩,
    fun i h0 => ?_⟩
  · rcases hcase i with h0 | ⟨heq, -⟩
    · omega
    · by_cases h0 : (l.cells i).slot = 0
      · rw [heq, h0]
        exact Nat.zero_le _
      · obtain ⟨-, w, hw, hslot⟩ := (replay_source hreplay).owner i h0
        have := hwithin w hw
        rw [heq, ← hslot]
        omega
  · rcases hcase i with hzero | ⟨heq, hnot⟩
    · exact absurd hzero h0
    · rw [heq] at h0 hle ⊢
      by_contra hopen
      exact hnot ⟨h0, by rw [hdelivered, hnode] at hle; exact hle, hopen⟩
  · omega
  · exact hdelivered.ge
  · rcases hcase i with hzero | ⟨heq, -⟩
    · exact absurd hzero h0
    · rw [heq] at h0 ⊢
      exact ((replay_source hreplay).owner i h0).1

/-! ## Whole runs -/

/-- In every run whose floors avoid the slots that were released without a cell, the window of
the node is usable in every state. -/
theorem window_usable {id : Nat} {membership : Membership} {options : NodeOptions} {n : Node V}
    {t : Tenure V} (hm : membership.Valid) (hinit : nodeInit id membership options = .ok n)
    (h : Tenure.Reaches P id membership (Careful P) { node := n } t) : WindowUsable P t.node := by
  obtain ⟨hopened, -, hledger, -⟩ := nodeInit_opened (P := P) hm hinit
  have hstart : Opened P n ∧ Usable P [] n ∧ Tagged P n.ledger := by
    have hslot : ∀ i, (n.ledger.cells i).slot = 0 := by simp [hledger, Ledger.empty]
    have hdelivered : n.deliveredThrough = 0 := by
      unfold nodeInit at hinit
      split at hinit
      · cases hinit
      · cases hinit
        rfl
    refine ⟨hopened, ⟨fun i => ?_, fun i h0 => absurd (hslot i) h0, fun s hs => (by cases hs),
      fun s hlive hs => ?_, hopened.floor⟩, fun i h0 => absurd (hslot i) h0⟩
    · rw [hslot]
      exact Nat.zero_le _
    · omega
  have hall : (Opened P t.node ∧ t.settled ≤ maxSlot) ∧ Usable P t.passed t.node ∧
      Tagged P t.node.ledger := by
    refine h.invariant (motive := fun t => (Opened P t.node ∧ t.settled ≤ maxSlot) ∧
      Usable P t.passed t.node ∧ Tagged P t.node.ledger)
      ⟨⟨hstart.1, Nat.zero_le _⟩, hstart.2⟩ ?_
    rintro t t' e ⟨⟨ho, hsettled⟩, hu, htag⟩ hok hstep
    cases e with
    | operate op =>
        cases hstep
        exact ⟨⟨operate_opened ho op, ho.last⟩, operate_usable ho hu htag op hok⟩
    | restart kept floor options =>
        obtain ⟨-, hfloor, hnew, l, hreplay, hrestore⟩ := Tenure.step_restart hstep
        have hwords := (replay_source hreplay).words fun w hw => (hok w hw).1
        have hlast : floor ≤ maxSlot := by
          refine hfloor.trans ?_
          unfold Tenure.consumable
          split_ifs
          · exact ho.last
          · exact hsettled
        have hopened := (Begins.restore hm hlast hwords hrestore).opened.1
        rw [hnew]
        exact ⟨⟨hopened, hopened.last⟩,
          restored_usable hreplay hrestore fun w hw => (hok w hw).2⟩
  exact hall.2.1.window hall.2.2

end Steps

/-- A decision is released without a cell and the floor moves past it: the window is usable. -/
theorem window_usable_passed :
    ∃ t, Tenure.run trioParams 1 trio { node := trioNode {} }
        [.operate (.step ⟨2, 1, .commit 1 5⟩), .operate (.step ⟨2, 1, .commit 2 6⟩),
          .operate (.step ⟨2, 1, .commit 3 7⟩), .operate (.advanceFloor 3)] = some t ∧
      t.passed = [3] ∧ WindowUsable trioParams t.node := by
  refine ⟨_, rfl, rfl, window_usable trio_valid (trioNode_init {})
    ((((Tenure.Reaches.refl.operate (.step ⟨2, 1, .commit 1 5⟩) trivial).operate
      (.step ⟨2, 1, .commit 2 6⟩) trivial).operate (.step ⟨2, 1, .commit 3 7⟩) trivial).operate
        (.advanceFloor 3) ?_)⟩
  intro _ s hs
  cases List.mem_singleton.mp hs
  exact Or.inl (le_max_right _ _)

/-- Slot 3 is released without a cell, a floor of 1 lets a late Accept open its cell, and a floor of
3 leaves that cell open for ever: slot 5 of the window cannot be claimed. -/
theorem window_lost :
    ¬ ∀ t, Tenure.Reaches trioParams 1 trio (fun _ _ => True)
      { node := (trioNode {} : Node Nat) } t →
      WindowUsable trioParams t.node := by
  intro h
  have hrun : (Tenure.run trioParams 1 trio { node := trioNode {} }
      [.operate (.step ⟨2, 1, .commit 1 5⟩), .operate (.step ⟨2, 1, .commit 2 6⟩),
        .operate (.step ⟨2, 1, .commit 3 7⟩), .operate (.advanceFloor 1),
        .operate (.step ⟨2, 1, .accept (ballotMake 1 0 2) 3 7⟩),
        .operate (.advanceFloor 3)]).map
          (fun t => (t.node.memoryFloor, (claimLive trioParams t.node 5).2)) = some (3, none) := by
    decide +kernel
  obtain ⟨t, ht, heq⟩ := Option.map_eq_some_iff.mp hrun
  obtain ⟨hfloor, hclaim⟩ := Prod.mk.inj heq
  have hwindow := (h t (Tenure.Reaches.refl.of_run ht)).claims 5 (by omega) (by rw [hfloor]; decide)
  rw [hclaim] at hwindow
  cases hwindow

end PaxosOdin
