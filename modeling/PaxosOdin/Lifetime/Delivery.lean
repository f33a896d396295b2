import PaxosOdin.Lifetime.Operations

/-!
# Contiguous exactly-once delivery

The entries released over the lifetime of a node are the slots above the one it resumed at, in
order and without a gap, whatever it hears and wherever its host puts the memory floor.

Main results:

- Theorem `Micro.delivering`: one small step releases at most the next slot, and what it releases
  is on record.
- Theorem `delivers_contiguously`: the released entries of a whole lifetime.
-/

namespace PaxosOdin

variable {V : Type} {P : Params} {I : Input V} {Known : Nat → V → Prop} {origin : Nat}

/-- The decision is on record: known from before, or a record of this batch. -/
def OnRecord (Known : Nat → V → Prop) (e : Effects V) (slot : Nat) (value : V) : Prop :=
  Known slot value ∨ .chosen slot value ∈ e.writes

/-- What a transition that began with the frontier at `origin` has released so far. -/
structure Delivering (Known : Nat → V → Prop) (origin : Nat) (σ : St V) : Prop where
  le : origin ≤ σ.node.deliveredThrough
  slots : σ.effects.committed.map (·.slot) =
    List.range' (origin + 1) (σ.node.deliveredThrough - origin)
  backed : ∀ c ∈ σ.effects.committed, OnRecord Known σ.effects c.slot c.value
  passed : ∀ c ∈ σ.effects.committed, c.passThrough = true →
    .chosen c.slot c.value ∈ σ.effects.writes
  cells : ∀ i, (σ.node.ledger.cells i).state = .chosen →
    σ.node.deliveredThrough < (σ.node.ledger.cells i).slot →
    OnRecord Known σ.effects (σ.node.ledger.cells i).slot (σ.node.ledger.cells i).value

namespace Delivering

theorem slot_le {σ : St V} (h : Delivering Known origin σ) {c : Committed V}
    (hc : c ∈ σ.effects.committed) : c.slot ≤ σ.node.deliveredThrough := by
  have hmem : c.slot ∈ σ.effects.committed.map (·.slot) := List.mem_map_of_mem hc
  rw [h.slots, List.mem_range'_1] at hmem
  have := h.le
  omega

/-- Two released entries of one slot are the same entry. -/
theorem entry_unique {σ : St V} (h : Delivering Known origin σ) {c d : Committed V}
    (hc : c ∈ σ.effects.committed) (hd : d ∈ σ.effects.committed) (heq : c.slot = d.slot) :
    c = d := by
  have hnodup : (σ.effects.committed.map (·.slot)).Nodup := by
    rw [h.slots]
    exact List.nodup_range'
  exact List.inj_on_of_nodup_map hnodup hc hd heq

/-- A step that releases nothing and forgets no record. -/
theorem frame {σ σ' : St V} (h : Delivering Known origin σ)
    (hdelivered : σ'.node.deliveredThrough = σ.node.deliveredThrough)
    (hcommitted : σ'.effects.committed = σ.effects.committed)
    (hwrites : ∀ w ∈ σ.effects.writes, w ∈ σ'.effects.writes)
    (hcells : ∀ i, (σ'.node.ledger.cells i).state = .chosen →
      ((σ.node.ledger.cells i).state = .chosen ∧
          (σ'.node.ledger.cells i).slot = (σ.node.ledger.cells i).slot ∧
          (σ'.node.ledger.cells i).value = (σ.node.ledger.cells i).value) ∨
        .chosen (σ'.node.ledger.cells i).slot (σ'.node.ledger.cells i).value ∈ σ'.effects.writes) :
    Delivering Known origin σ' := by
  have hrecord : ∀ {slot : Nat} {value : V}, OnRecord Known σ.effects slot value →
      OnRecord Known σ'.effects slot value := fun hr => hr.imp_right (hwrites _)
  constructor
  · rw [hdelivered]
    exact h.le
  · rw [hdelivered, hcommitted]
    exact h.slots
  · intro c hc
    rw [hcommitted] at hc
    exact hrecord (h.backed c hc)
  · intro c hc hpass
    rw [hcommitted] at hc
    exact hwrites _ (h.passed c hc hpass)
  · intro i hstate hlt
    rcases hcells i hstate with ⟨hold, hslot, hvalue⟩ | hmem
    · rw [hslot, hvalue]
      rw [hslot, hdelivered] at hlt
      exact hrecord (h.cells i hold hlt)
    · exact Or.inr hmem

/-- A step that writes to no decided cell and releases nothing. -/
theorem quiet {σ σ' : St V} (h : Delivering Known origin σ)
    (hdelivered : σ'.node.deliveredThrough = σ.node.deliveredThrough)
    (hcommitted : σ'.effects.committed = σ.effects.committed)
    (hwrites : ∀ w ∈ σ.effects.writes, w ∈ σ'.effects.writes)
    (hcells : ∀ i, (σ'.node.ledger.cells i).state = .chosen →
      (σ.node.ledger.cells i).state = .chosen ∧
        (σ'.node.ledger.cells i).slot = (σ.node.ledger.cells i).slot ∧
        (σ'.node.ledger.cells i).value = (σ.node.ledger.cells i).value) :
    Delivering Known origin σ' :=
  h.frame hdelivered hcommitted hwrites fun i hs => Or.inl (hcells i hs)

/-- The next slot is released with a value that is on record. -/
theorem release {σ : St V} (h : Delivering Known origin σ) {value : V} {n' : Node V}
    (hrecord : OnRecord Known σ.effects (σ.node.deliveredThrough + 1) value)
    (hn' : n' = { σ.node with deliveredThrough := σ.node.deliveredThrough + 1 }) :
    Delivering Known origin
      { σ.addCommitted ⟨σ.node.deliveredThrough + 1, value, false⟩ with node := n' } := by
  subst hn'
  constructor
  · exact Nat.le_succ_of_le h.le
  · have hle := h.le
    have hcount : σ.node.deliveredThrough + 1 - origin = σ.node.deliveredThrough - origin + 1 := by
      omega
    have hnext : origin + 1 + (σ.node.deliveredThrough - origin) = σ.node.deliveredThrough + 1 := by
      omega
    simp only [St.addCommitted, List.map_append, List.map_cons, List.map_nil, h.slots, hcount,
      List.range'_concat, Nat.one_mul, hnext]
  · intro c hc
    rcases List.mem_append.mp hc with hc | hc
    · exact h.backed c hc
    · cases List.mem_singleton.mp hc
      exact hrecord
  · intro c hc hpass
    rcases List.mem_append.mp hc with hc | hc
    · exact h.passed c hc hpass
    · cases List.mem_singleton.mp hc
      cases hpass
  · intro i hstate hlt
    exact h.cells i hstate (lt_trans (Nat.lt_succ_self _) hlt)

/-- A record for a slot that was not released through the field keeps its value. -/
theorem rebind_mem {writes : List (Write V)} {slots : List Nat} {value v : V} {slot : Nat}
    (hslot : slot ∉ slots) (hw : .chosen slot v ∈ writes) :
    .chosen slot v ∈ writes.map (Write.rebind slots value) := by
  refine List.mem_map.mpr ⟨_, hw, ?_⟩
  simp [Write.rebind, hslot]

/-- A record for a slot that was released through the field takes the new value. -/
theorem rebind_mem_of_mem {writes : List (Write V)} {slots : List Nat} {value v : V} {slot : Nat}
    (hslot : slot ∈ slots) (hw : .chosen slot v ∈ writes) :
    .chosen slot value ∈ writes.map (Write.rebind slots value) := by
  refine List.mem_map.mpr ⟨_, hw, ?_⟩
  simp [Write.rebind, hslot]

/-- The field is overwritten: the records and the entries that point at it change together. -/
theorem setPassThrough {σ : St V} (h : Delivering Known origin σ) (value : V) :
    Delivering Known origin (σ.setPassThrough value) := by
  have hslots : ∀ slot, slot ∈ (σ.effects.committed.filter (·.passThrough)).map (·.slot) ↔
      ∃ c ∈ σ.effects.committed, c.passThrough = true ∧ c.slot = slot := by
    intro slot
    simp [List.mem_map, List.mem_filter, and_assoc]
  have hkept : ∀ {slot : Nat} {v : V},
      (∀ c ∈ σ.effects.committed, c.passThrough = true → c.slot ≠ slot) →
      OnRecord Known σ.effects slot v → OnRecord Known (σ.setPassThrough value).effects slot v := by
    intro slot v hnone hr
    refine hr.imp_right (rebind_mem fun hmem => ?_)
    obtain ⟨c, hc, hpass, heq⟩ := (hslots slot).mp hmem
    exact hnone c hc hpass heq
  have hpassed : ∀ c ∈ σ.effects.committed, c.passThrough = true →
      .chosen c.slot value ∈ (σ.setPassThrough value).effects.writes := by
    intro c hc hpass
    exact rebind_mem_of_mem ((hslots _).mpr ⟨c, hc, hpass, rfl⟩) (h.passed c hc hpass)
  constructor
  · exact h.le
  · rw [← show σ.node.deliveredThrough = (σ.setPassThrough value).node.deliveredThrough from rfl,
      ← h.slots]
    simp only [St.setPassThrough, List.map_map]
    refine List.map_congr_left fun c _ => ?_
    simp only [Function.comp_apply]
    split_ifs <;> rfl
  · intro c hc
    obtain ⟨d, hd, rfl⟩ := List.mem_map.mp hc
    split_ifs with hpass
    · exact Or.inr (hpassed d hd hpass)
    · refine hkept (fun c hc hp heq => hpass ?_) (h.backed d hd)
      rw [← h.entry_unique hc hd heq]
      exact hp
  · intro c hc hp
    obtain ⟨d, hd, rfl⟩ := List.mem_map.mp hc
    split_ifs at hp ⊢ with hpass
    · exact hpassed d hd hpass
    · exact absurd hp hpass
  · intro i hstate hlt
    refine hkept (fun c hc _ heq => ?_) (h.cells i hstate hlt)
    have hle := h.slot_le hc
    exact absurd (heq ▸ hlt) (not_lt.mpr hle)

end Delivering

/-- A vote leaves every decided cell as it was. -/
theorem vote_keeps_decided {l : Ledger V} {cell promised ballot : Nat} {value : V} (i : Nat)
    (hs : ((ledgerRecordVote (ledgerSetPromiseAt l cell promised) cell ballot value).cells i).state =
      .chosen) :
    (ledgerRecordVote (ledgerSetPromiseAt l cell promised) cell ballot value).cells i =
      l.cells i := by
  rw [ledgerVote_cells] at hs ⊢
  by_cases hi : i = cell
  · rw [if_pos hi] at hs
    cases hs
  · rw [if_neg hi]

theorem Learn.delivering {σ σ' : St V} (hl : Learn P I σ σ') (h : Delivering Known origin σ) :
    Delivering Known origin σ' := by
  cases hl with
  | note => exact h.quiet rfl rfl (fun _ hw => hw) fun _ hs => ⟨hs, rfl, rfl⟩
  | claim =>
      refine h.quiet rfl rfl (fun _ hw => hw) fun i => ?_
      simp only [St.withLedger, ledgerOpen_cells]
      split_ifs with hi
      · intro hs
        cases hs
      · intro hs
        exact ⟨hs, rfl, rfl⟩
  | @choose slot value _ _ _ hheld _ =>
      refine h.frame rfl rfl (fun _ hw => List.mem_append_left _ hw) fun i hs => ?_
      simp only [St.withLedger, St.addWrite, ledgerRecordChosen_cells] at hs ⊢
      split_ifs at hs ⊢ with hi
      · right
        subst hi
        simp only [Ledger.cellAt] at hheld
        simp [hheld]
      · exact Or.inl ⟨hs, trivial, rfl⟩
  | @pass slot value _ hnext _ _ _ _ _ =>
      subst hnext
      have hset := h.setPassThrough value
      have hwritten : Delivering Known origin ((σ.setPassThrough value).addWrite
          (.chosen (σ.node.deliveredThrough + 1) value)) :=
        hset.quiet rfl rfl (fun _ hw => List.mem_append_left _ hw) fun _ hs => ⟨hs, rfl, rfl⟩
      have hmem : Write.chosen (σ.node.deliveredThrough + 1) value ∈ ((σ.setPassThrough value).addWrite
          (.chosen (σ.node.deliveredThrough + 1) value)).effects.writes := by
        simp [St.addWrite]
      have hreleased := hwritten.release (Or.inr hmem) rfl
      refine ⟨hreleased.le, ?_, fun c hc => ?_, fun c hc _ => ?_, hreleased.cells⟩
      · have hslots := hreleased.slots
        simp only [St.addCommitted, List.map_append] at hslots ⊢
        exact hslots
      · rcases List.mem_append.mp hc with hc | hc
        · exact hwritten.backed c hc
        · cases List.mem_singleton.mp hc
          exact Or.inr hmem
      · rcases List.mem_append.mp hc with hc | hc
        · exact hwritten.passed c hc ‹_›
        · cases List.mem_singleton.mp hc
          exact hmem
  | deliver _ hheld hchosen =>
      refine h.release ?_ rfl
      have hrecord := h.cells _ hchosen (by rw [hheld]; exact Nat.lt_succ_self _)
      rwa [hheld] at hrecord
  | send => exact h.quiet rfl rfl (fun _ hw => hw) fun _ hs => ⟨hs, rfl, rfl⟩
  | request => exact h.quiet rfl rfl (fun _ hw => hw) fun _ hs => ⟨hs, rfl, rfl⟩

section Steps

variable [DecidableEq V]

/-- One small step releases at most the next slot, and what it releases is on record. -/
theorem Micro.delivering {σ σ' : St V} (hm : Micro P I σ σ') (h : Delivering Known origin σ) :
    Delivering Known origin σ' := by
  cases hm with
  | learn hl => exact hl.delivering h
  | promise =>
      exact h.quiet rfl rfl (fun _ hw => List.mem_append_left _ hw) fun _ hs => ⟨hs, rfl, rfl⟩
  | promiseAt =>
      refine h.quiet rfl rfl (fun _ hw => List.mem_append_left _ hw) fun i hs => ?_
      simp only [St.withLedger, St.addWrite, ledgerSetPromiseAt_cells] at hs ⊢
      exact ⟨hs, trivial, trivial⟩
  | vote =>
      refine h.quiet rfl rfl (fun _ hw => List.mem_append_left _ hw) fun i hs => ?_
      have heq := vote_keeps_decided i hs
      exact ⟨heq ▸ hs, congrArg _ heq, congrArg _ heq⟩
  | drive =>
      refine h.quiet rfl rfl (fun _ hw => List.mem_append_left _ hw) fun i hs => ?_
      have heq := vote_keeps_decided i hs
      exact ⟨heq ▸ hs, congrArg _ heq, congrArg _ heq⟩
  | own =>
      refine h.quiet rfl rfl (fun _ hw => List.mem_append_left _ hw) fun i hs => ?_
      have heq := vote_keeps_decided i hs
      exact ⟨heq ▸ hs, congrArg _ heq, congrArg _ heq⟩
  | report =>
      refine h.quiet ?_ rfl (fun _ hw => hw) fun i => ?_
      · unfold recordReport
        dsimp only
        split_ifs <;> rfl
      · unfold recordReport
        dsimp only
        split_ifs <;> exact fun hs => ⟨hs, rfl, rfl⟩
  | _ => exact h.quiet rfl rfl (fun _ hw => hw) fun _ hs => ⟨hs, rfl, rfl⟩

omit [DecidableEq V] in
theorem Final.delivering {n₀ : Node V} {σ σ' : St V} (hf : Final P I n₀ σ σ')
    (h : Delivering Known origin σ) : Delivering Known origin σ' := by
  cases hf with
  | campaign =>
      exact h.quiet rfl rfl (fun _ hw => List.mem_append_left _ hw) fun _ hs => ⟨hs, rfl, rfl⟩
  | revoke => exact h.quiet rfl rfl (fun _ hw => hw) fun _ hs => ⟨hs, rfl, rfl⟩
  | answer => exact h.quiet rfl rfl (fun _ hw => hw) fun _ hs => ⟨hs, rfl, rfl⟩

theorem Completes.delivering {n₀ : Node V} {σ σ' : St V} (hc : Completes P I n₀ σ σ')
    (h : Delivering Known origin σ) : Delivering Known origin σ' := by
  obtain ⟨τ, hrun, hlast⟩ := hc
  have hτ : Delivering Known origin τ :=
    hrun.preserves (motive := fun τ => Delivering Known origin τ) (fun hm hd => hm.delivering hd) h
  rcases hlast with rfl | hfinal
  · exact hτ
  · exact hfinal.delivering hτ

/-! ## Over a lifetime -/

/-- Every decision above the frontier of the node is known. -/
def Remembered (Known : Nat → V → Prop) (n : Node V) : Prop :=
  ∀ i, (n.ledger.cells i).state = .chosen → n.deliveredThrough < (n.ledger.cells i).slot →
    Known (n.ledger.cells i).slot (n.ledger.cells i).value

omit [DecidableEq V] in
theorem Remembered.delivering {n : Node V} (h : Remembered Known n) :
    Delivering Known n.deliveredThrough (St.start n) where
  le := le_rfl
  slots := by simp [St.start]
  backed := fun c hc => absurd hc (List.not_mem_nil)
  passed := fun c hc => absurd hc (List.not_mem_nil)
  cells := fun i hstate hlt => Or.inl (h i hstate hlt)

omit [DecidableEq V] in
/-- A trim that is adopted releases nothing and touches no cell. -/
theorem nodeInstallChosenTrim_quiet (n : Node V) (anchor : TrimAnchor) :
    (nodeInstallChosenTrim n anchor).1.node.deliveredThrough = n.deliveredThrough ∧
      (nodeInstallChosenTrim n anchor).1.node.ledger.cells = n.ledger.cells ∧
      (nodeInstallChosenTrim n anchor).1.effects.committed = [] := by
  unfold nodeInstallChosenTrim
  dsimp only
  split
  · exact ⟨rfl, rfl, rfl⟩
  split
  · exact ⟨rfl, rfl, rfl⟩
  split
  · exact ⟨rfl, rfl, rfl⟩
  split
  · exact ⟨rfl, rfl, rfl⟩
  split <;> exact ⟨rfl, rfl, rfl⟩

/-- What one operation releases. -/
theorem operate_delivering {n : Node V} (ho : Opened P n) (h : Remembered Known n)
    (op : Operation V) : Delivering Known n.deliveredThrough (operate P n op) := by
  rcases operate_cases ho op with hc | ⟨anchor, rfl⟩ | ⟨through, rfl⟩ | ⟨enabled, rfl⟩
  · exact hc.delivering h.delivering
  · obtain ⟨hdelivered, hcells, hcommitted⟩ := nodeInstallChosenTrim_quiet n anchor
    refine h.delivering.quiet hdelivered hcommitted (fun _ hw => absurd hw (List.not_mem_nil)) ?_
    intro i
    simp only [operate, hcells]
    exact fun hs => ⟨hs, rfl, rfl⟩
  · refine h.delivering.quiet ?_ rfl (fun _ hw => hw) ?_
    · simp only [operate, nodeAdvanceMemoryFloor]
      split_ifs <;> rfl
    · simp only [operate, nodeAdvanceMemoryFloor]
      split_ifs <;> exact fun _ hs => ⟨hs, rfl, rfl⟩
  · exact h.delivering.quiet rfl rfl (fun _ hw => hw) fun _ hs => ⟨hs, rfl, rfl⟩

omit [DecidableEq V] in
/-- After a batch, its records are known. -/
theorem Delivering.remembered {σ : St V} (h : Delivering Known origin σ) :
    Remembered (OnRecord Known σ.effects) σ.node :=
  h.cells

/-- The decisions in the cells of a node. -/
def Node.Holds (n : Node V) (slot : Nat) (value : V) : Prop :=
  ∃ i, (n.ledger.cells i).state = .chosen ∧ (n.ledger.cells i).slot = slot ∧
    (n.ledger.cells i).value = value

/-- The entries that a sequence of operations releases, in order. -/
def released (P : Params) (n : Node V) (ops : List (Operation V)) : List (Committed V) :=
  (batches P n ops).flatMap (·.committed)

/-- The released slots of a lifetime. -/
theorem operateAll_slots {n : Node V} (ho : Opened P n) (h : Remembered Known n)
    (ops : List (Operation V)) :
    n.deliveredThrough ≤ (operateAll P n ops).deliveredThrough ∧
      (released P n ops).map (·.slot) = List.range' (n.deliveredThrough + 1)
        ((operateAll P n ops).deliveredThrough - n.deliveredThrough) := by
  induction ops generalizing n Known with
  | nil => exact ⟨le_rfl, by simp [released, batches, operateAll]⟩
  | cons op ops ih =>
      have hstep := operate_delivering ho h op
      have hrest := ih (operate_opened ho op) hstep.remembered
      have hle := hstep.le
      have hle' := hrest.1
      change (operate P n op).node.deliveredThrough ≤
        (operateAll P n (op :: ops)).deliveredThrough at hle'
      refine ⟨hle.trans hle', ?_⟩
      have hsplit : released P n (op :: ops) =
          (operate P n op).effects.committed ++ released P (operate P n op).node ops := by
        simp [released, batches]
      have hsum : (operateAll P n (op :: ops)).deliveredThrough - n.deliveredThrough =
          ((operate P n op).node.deliveredThrough - n.deliveredThrough) +
            ((operateAll P n (op :: ops)).deliveredThrough -
              (operate P n op).node.deliveredThrough) := by
        omega
      have hnext : n.deliveredThrough + 1 +
          ((operate P n op).node.deliveredThrough - n.deliveredThrough) =
            (operate P n op).node.deliveredThrough + 1 := by
        omega
      rw [hsplit, List.map_append, hstep.slots, hrest.2, hsum, ← List.range'_append_1, hnext]
      rfl

/-- A released entry was known, or its record is in its own batch or an earlier one. -/
theorem operateAll_backed {n : Node V} (ho : Opened P n) (h : Remembered Known n)
    (ops : List (Operation V)) {k : Nat} {e : Effects V} (hk : (batches P n ops)[k]? = some e)
    {c : Committed V} (hc : c ∈ e.committed) :
    Known c.slot c.value ∨
      ∃ j ≤ k, ∃ e', (batches P n ops)[j]? = some e' ∧ .chosen c.slot c.value ∈ e'.writes := by
  induction ops generalizing n Known k with
  | nil => simp [batches] at hk
  | cons op ops ih =>
      have hstep := operate_delivering ho h op
      have hearlier : OnRecord Known (operate P n op).effects c.slot c.value →
          Known c.slot c.value ∨ ∃ j ≤ k, ∃ e', (batches P n (op :: ops))[j]? = some e' ∧
            .chosen c.slot c.value ∈ e'.writes :=
        Or.imp_right fun hmem => ⟨0, Nat.zero_le k, _, rfl, hmem⟩
      cases k with
      | zero =>
          cases hk
          exact hearlier (hstep.backed c hc)
      | succ k =>
          rcases ih (operate_opened ho op) hstep.remembered hk with hr | ⟨j, hj, e', he', hmem⟩
          · exact hearlier hr
          · exact Or.inr ⟨j + 1, Nat.succ_le_succ hj, e', he', hmem⟩

variable [Inhabited V]

/-- Over every lifetime, from every way to begin it: the released entries are the slots above the
one it resumed at, in order and once each; the memory floor stays at or below the last of them;
and every entry carries a decision that was in the ledger at the start or was recorded in the same
or an earlier batch. -/
theorem delivers_contiguously {n : Node V} {base : Nat} (hbegins : Begins P n base)
    (ops : List (Operation V)) :
    base ≤ (operateAll P n ops).deliveredThrough ∧
      (released P n ops).map (·.slot) =
        List.range' (base + 1) ((operateAll P n ops).deliveredThrough - base) ∧
      (operateAll P n ops).memoryFloor ≤ (operateAll P n ops).deliveredThrough ∧
      ∀ (k : Nat) (e : Effects V), (batches P n ops)[k]? = some e → ∀ c ∈ e.committed,
        n.Holds c.slot c.value ∨
          ∃ j ≤ k, ∃ e', (batches P n ops)[j]? = some e' ∧ .chosen c.slot c.value ∈ e'.writes := by
  obtain ⟨ho, rfl, -⟩ := hbegins.opened
  have hheld : Remembered n.Holds n := fun i hstate _ => ⟨i, hstate, rfl, rfl⟩
  obtain ⟨hle, hslots⟩ := operateAll_slots ho hheld ops
  refine ⟨hle, hslots, (operateAll_opened ho ops).floor, fun k e hk c hc => ?_⟩
  exact operateAll_backed ho hheld ops hk hc

end Steps

/-- Two decisions that are learned in the wrong order are released in the right one. -/
theorem delivers_contiguously_reordered :
    (released trioParams (trioNode {}) [.step ⟨2, 1, .commit 2 7⟩, .step ⟨3, 1, .commit 1 5⟩]).map
        (·.slot) =
      List.range' (0 + 1)
        ((operateAll trioParams (trioNode {})
          [.step ⟨2, 1, .commit 2 7⟩, .step ⟨3, 1, .commit 1 5⟩]).deliveredThrough - 0) ∧
      (operateAll trioParams (trioNode {})
        [.step ⟨2, 1, .commit 2 7⟩, .step ⟨3, 1, .commit 1 5⟩]).deliveredThrough = 2 :=
  ⟨(delivers_contiguously (.init trio_valid (trioNode_init {})) _).2.1, by decide +kernel⟩

end PaxosOdin
