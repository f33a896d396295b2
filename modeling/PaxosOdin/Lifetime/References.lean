import PaxosOdin.Lifetime.Capacity
import PaxosOdin.Transition.Sending

/-!
# Values carried by reference

Records, messages and released entries do not hold their value: they point at the cell of their
slot or at `pass_through`.  A reference is good as long as nobody writes to that storage before the
transition ends.

This module follows the references of one transition up to its last vote or decision: a cell that
is referred to is decided, or its slot lies below the next slot to vote in.  Only `pass_through`
can be written to twice, so the batch is stable if and only if every slot that was passed through
it was told the same decision.

Main definitions:

- Definition `Effects.references`: every value of a batch, with its storage.
- Definition `decisionFor`: the decision of a slot that a transition is given.
- Definition `Stable`: every reference of a batch reads what it read when it was made.
- Definition `Lent`: what the batch of a transition owes `pass_through`.
- Definition `Lasting`: no cell referred to so far can be overwritten by what is left to do.

Main results:

- Theorem `Lent.stable_iff`: a batch is stable where the slots passed through agree.
- Theorem `Lasting.recordCommit`: recording a decision keeps the references to cells good.
- Theorem `Lasting.sendAccept`: so does a proposal in a slot that was not voted in yet.
-/

namespace PaxosOdin

variable {V : Type} {P : Params}

/-! ## References -/

/-- Where a value that is carried by reference is stored. -/
inductive Storage where
  | cell (i : Nat)
  | passThrough
deriving DecidableEq, Repr

/-- What a pointer into the node reads. -/
def Node.load (n : Node V) : Storage → V
  | .cell i => (n.ledger.cells i).value
  | .passThrough => n.passThrough

/-- A value carried by reference: the slot it is about, its storage, and what the batch shows. -/
structure Reference (V : Type) where
  slot : Nat
  storage : Storage
  value : V
deriving DecidableEq

/-- A pointer at the cell of its slot. -/
def Reference.inCell (P : Params) (slot : Nat) (value : V) : Reference V :=
  ⟨slot, .cell (cellOf slot P.W), value⟩

/-- A pointer at `pass_through`. -/
def Reference.passed (slot : Nat) (value : V) : Reference V :=
  ⟨slot, .passThrough, value⟩

/-- The reference in a record; the slots `passed` were released through `pass_through`. -/
def Write.references (P : Params) (passed : List Nat) : Write V → List (Reference V)
  | .vote _ slot value => [.inCell P slot value]
  | .chosen slot value => [if slot ∈ passed then .passed slot value else .inCell P slot value]
  | _ => []

/-- The reference in a message. -/
def Message.references (P : Params) : Message V → List (Reference V)
  | .promise _ slot _ _ value => [.inCell P slot value]
  | .accept _ slot value => [.inCell P slot value]
  | .commit slot value => [.inCell P slot value]
  | _ => []

/-- The reference in a released entry. -/
def Committed.reference (P : Params) (c : Committed V) : Reference V :=
  if c.passThrough then .passed c.slot c.value else .inCell P c.slot c.value

/-- Every reference of a batch. -/
def Effects.references (P : Params) (e : Effects V) : List (Reference V) :=
  e.writes.flatMap (Write.references P e.passedSlots) ++
    e.messages.flatMap (fun envelope => envelope.message.references P) ++
      e.committed.map (Committed.reference P)

theorem Message.references_inCell {m : Message V} {r : Reference V} (h : r ∈ m.references P) :
    r = .inCell P r.slot r.value := by
  cases m <;> simp only [Message.references, List.mem_singleton, List.not_mem_nil] at h <;>
    subst h <;> rfl

/-! ## Decisions given to a transition -/

/-- The decision of `slot` in the scratch of the recovery. -/
def Node.recoveredDecision (n : Node V) (slot : Nat) : Option V :=
  let r := n.recovered (slot - n.recoverBase)
  if r.slot = slot ∧ r.state = .chosen then some r.value else none

/-- The decision of `slot` that a message hands to `record_commit`, directly or through the
scratch of the recovery. -/
def heardDecision (P : Params) (n : Node V) (slot : Nat) : Message V → Option V
  | .commit s value => if s = slot then some value else none
  | .accepted _ s _ => if s = slot then some (n.ledger.cellAt P s).value else none
  | .promise _ s _ state value =>
      if n.role = .preparing then
        (n.recoveredDecision slot).or (if s = slot ∧ state = .chosen then some value else none)
      else none
  | .promiseRange .. => if n.role = .preparing then n.recoveredDecision slot else none
  | _ => none

/-- The decision of `slot` that an operation hands to `record_commit`. -/
def decisionFor (P : Params) (n : Node V) (op : Operation V) (slot : Nat) : Option V :=
  match op with
  | .step e => heardDecision P n slot e.message
  | .learnChosen _ s value => if s = slot then some value else none
  | .call (.tick _) => if n.role = .preparing then n.recoveredDecision slot else none
  | _ => none

/-- What a reference read when it was made: its value, or for `pass_through` the decision that was
put there for its slot. -/
def Reference.denoted (told : Nat → Option V) (r : Reference V) : Option V :=
  match r.storage with
  | .cell _ => some r.value
  | .passThrough => told r.slot

/-- Every reference of a batch reads what the batch shows and what it read when it was made. -/
structure Stable (P : Params) (told : Nat → Option V) (σ : St V) : Prop where
  loads : ∀ r ∈ σ.effects.references P, σ.node.load r.storage = r.value
  denotes : ∀ r ∈ σ.effects.references P, r.denoted told = some r.value

/-- Two slots of the window that wait for release and have no cell, though every slot between them
has one, are told two values. -/
structure Clash (P : Params) (n : Node V) (told : Nat → Option V) (first second : Nat) : Prop where
  waiting : n.deliveredThrough < first
  apart : first + 1 < second
  window : second ≤ n.memoryFloor + P.W
  unclaimed : (claimLive P n first).2 = none ∧ (claimLive P n second).2 = none
  between : ∀ slot, first < slot → slot < second → (claimLive P n slot).2 ≠ none
  differ : ∃ v w, told first = some v ∧ told second = some w ∧ v ≠ w

/-! ## References at the end and under way -/

/-- A cell still holds the slot and the value, and what is left of the transition will not change
it: the slot is decided, or lies below the next slot to vote in. -/
structure Anchored (P : Params) (n : Node V) (next slot : Nat) (value : V) : Prop where
  live : n.memoryFloor < slot
  held : (n.ledger.cellAt P slot).slot = slot
  value : (n.ledger.cellAt P slot).value = value
  final : (n.ledger.cellAt P slot).state = .chosen ∨ slot < next

/-- The slots that a transition from `n₀` has released through `pass_through`: they have no cell,
the transition was told a decision for each, the field holds that of the last one, and no two of
them are neighbours. -/
structure Passing (P : Params) (told : Nat → Option V) (n₀ : Node V) (σ : St V) : Prop where
  unclaimed : ∀ slot ∈ σ.effects.passedSlots, (claimLive P n₀ slot).2 = none
  given : ∀ slot ∈ σ.effects.passedSlots, ∃ value, told slot = some value
  recent : ∀ slot, σ.effects.passedSlots.getLast? = some slot →
    told slot = some σ.node.passThrough
  apart : ∀ slot ∈ σ.effects.passedSlots, slot + 1 ∉ σ.effects.passedSlots
  near : ∀ slot ∈ σ.effects.passedSlots, ∀ slot' ∈ σ.effects.passedSlots, slot < slot' →
    slot' ≤ n₀.memoryFloor + P.W

/-- A batch at the end of a transition from `n₀`: every reference reads what the batch shows, those
to `pass_through` are about slots that were passed through it, and every other slot released has a
cell. -/
structure Lent (P : Params) (told : Nat → Option V) (n₀ : Node V) (σ : St V) : Prop where
  loads : ∀ r ∈ σ.effects.references P, σ.node.load r.storage = r.value
  borrowed : ∀ r ∈ σ.effects.references P, r.storage = .passThrough →
    r.slot ∈ σ.effects.passedSlots
  passing : Passing P told n₀ σ
  between : ∀ slot ∈ σ.effects.passedSlots, ∀ slot' ∈ σ.effects.passedSlots, ∀ s, slot < s →
    s < slot' → s ∉ σ.effects.passedSlots → (claimLive P n₀ s).2 ≠ none
  waiting : ∀ slot ∈ σ.effects.passedSlots, n₀.deliveredThrough < slot

/-- A reference that lasts, in the state of a transition. -/
inductive Reference.Lasts (P : Params) (σ : St V) (next : Nat) : Reference V → Prop
  | inCell {slot : Nat} {value : V} (h : Anchored P σ.node next slot value) :
      Reference.Lasts P σ next (.inCell P slot value)
  | passed {slot : Nat} {value : V} (hpassed : slot ∈ σ.effects.passedSlots)
      (hfield : σ.node.passThrough = value) : Reference.Lasts P σ next (.passed slot value)

/-- A state that a transition from `n₀` can reach: its references last, and it released the slots
up to `deliveredThrough`, one entry each. -/
structure Lasting (P : Params) (told : Nat → Option V) (n₀ : Node V) (next : Nat) (σ : St V) :
    Prop where
  tagged : Tagged P σ.node.ledger
  base : σ.node.memoryFloor = n₀.memoryFloor
  live : n₀.memoryFloor ≤ n₀.deliveredThrough
  delivered : n₀.deliveredThrough ≤ σ.node.deliveredThrough
  claims : ∀ slot, (claimLive P σ.node slot).2 = none ↔ (claimLive P n₀ slot).2 = none
  lasts : ∀ r ∈ σ.effects.references P, r.Lasts P σ next
  passing : Passing P told n₀ σ
  released : ∀ c ∈ σ.effects.committed, n₀.deliveredThrough < c.slot ∧
    c.slot ≤ σ.node.deliveredThrough
  covered : ∀ slot, n₀.deliveredThrough < slot → slot ≤ σ.node.deliveredThrough →
    ∃ c ∈ σ.effects.committed, c.slot = slot
  last : ∀ c, σ.effects.committed.getLast? = some c → c.slot = σ.node.deliveredThrough

theorem Anchored.claims {n : Node V} {next slot : Nat} {value : V}
    (h : Anchored P n next slot value) (hwindow : slot ≤ n.memoryFloor + P.W) :
    (claimLive P n slot).2 ≠ none := by
  have hlive := h.live
  rw [Ne, claimLive_none_iff]
  rintro (hlow | hhigh | hstuck)
  · omega
  · omega
  · exact hstuck.2.1 h.held

/-- What was passed through depends on the released entries and on the field. -/
theorem Passing.congr {told : Nat → Option V} {n₀ : Node V} {σ σ' : St V}
    (h : Passing P told n₀ σ) (hpassed : σ'.effects.passedSlots = σ.effects.passedSlots)
    (hfield : σ'.node.passThrough = σ.node.passThrough) : Passing P told n₀ σ' := by
  constructor
  · rw [hpassed]
    exact h.unclaimed
  · rw [hpassed]
    exact h.given
  · rw [hpassed, hfield]
    exact h.recent
  · rw [hpassed]
    exact h.apart
  · rw [hpassed]
    exact h.near

/-- A slot is anchored as long as its cell keeps slot and value. -/
theorem Anchored.congr {n n' : Node V} {next next' slot : Nat} {value : V}
    (h : Anchored P n next slot value) (hfloor : n'.memoryFloor = n.memoryFloor)
    (hnext : next ≤ next')
    (hslot : (n'.ledger.cellAt P slot).slot = (n.ledger.cellAt P slot).slot)
    (hvalue : (n'.ledger.cellAt P slot).value = (n.ledger.cellAt P slot).value)
    (hstate : (n.ledger.cellAt P slot).state = .chosen → (n'.ledger.cellAt P slot).state = .chosen) :
    Anchored P n' next' slot value where
  live := by
    rw [hfloor]
    exact h.live
  held := hslot.trans h.held
  value := hvalue.trans h.value
  final := h.final.imp hstate fun hlt => hlt.trans_le hnext

/-- Steps on cells give no live slot a cell and take none away. -/
theorem claimLive_none_congr {n n' : Node V} (hfloor : n'.memoryFloor = n.memoryFloor)
    (hcells : ∀ i, CellStep P n.memoryFloor i (n.ledger.cells i) (n'.ledger.cells i)) (slot : Nat) :
    (claimLive P n' slot).2 = none ↔ (claimLive P n slot).2 = none := by
  rw [claimLive_none_iff, claimLive_none_iff, hfloor]
  by_cases hlive : n.memoryFloor < slot
  · rw [(hcells _).stuck hfloor hlive]
  · simp only [not_lt.mp hlive, true_or]

/-! ## Adding effects -/

theorem Effects.mem_references {e : Effects V} {r : Reference V} :
    r ∈ e.references P ↔ (∃ w ∈ e.writes, r ∈ w.references P e.passedSlots) ∨
      (∃ envelope ∈ e.messages, r ∈ envelope.message.references P) ∨
        ∃ c ∈ e.committed, c.reference P = r := by
  simp only [Effects.references, List.mem_append, List.mem_flatMap, List.mem_map, or_assoc]

/-- An entry passed through `pass_through` makes its slot a passed slot, and only that does. -/
theorem Effects.mem_passedSlots {e : Effects V} {slot : Nat} :
    slot ∈ e.passedSlots ↔ ∃ c ∈ e.committed, c.passThrough = true ∧ c.slot = slot := by
  simp only [Effects.passedSlots, List.mem_map, List.mem_filter, and_assoc]

/-- What a batch shows once `pass_through` is written to: what it showed of the cells, and the new
value for every slot that was passed through. -/
theorem St.setPassThrough_references {σ : St V} {value : V} {r : Reference V}
    (hr : r ∈ (σ.setPassThrough value).effects.references P) :
    (∃ slot v, r = .inCell P slot v ∧ r ∈ σ.effects.references P) ∨
      ∃ slot ∈ σ.effects.passedSlots, r = .passed slot value := by
  rw [Effects.mem_references, St.setPassThrough_passedSlots] at hr
  rcases hr with ⟨_, hmap, hr⟩ | ⟨e, he, hr⟩ | ⟨_, hmap, rfl⟩
  · obtain ⟨w, hw, rfl⟩ := List.mem_map.mp hmap
    change r ∈ (w.rebind σ.effects.passedSlots value).references P σ.effects.passedSlots at hr
    have hold : r ∈ w.references P σ.effects.passedSlots → r ∈ σ.effects.references P :=
      fun hr => Effects.mem_references.mpr (Or.inl ⟨w, hw, hr⟩)
    cases w with
    | chosen slot v =>
        by_cases hmem : slot ∈ σ.effects.passedSlots
        · right
          refine ⟨slot, hmem, ?_⟩
          simpa [Write.rebind, Write.references, hmem] using hr
        · left
          have hcell : r = .inCell P slot v := by
            simpa [Write.rebind, Write.references, hmem] using hr
          exact ⟨slot, v, hcell, hold (by simpa [Write.references, hmem] using hcell)⟩
    | vote ballot slot v => exact Or.inl ⟨slot, v, List.mem_singleton.mp hr, hold hr⟩
    | _ => cases hr
  · exact Or.inl ⟨_, _, Message.references_inCell hr,
      Effects.mem_references.mpr (Or.inr (Or.inl ⟨e, he, hr⟩))⟩
  · obtain ⟨c, hc, rfl⟩ := List.mem_map.mp hmap
    cases hflag : c.passThrough with
    | true =>
        right
        refine ⟨c.slot, Effects.mem_passedSlots.mpr ⟨c, hc, hflag, rfl⟩, ?_⟩
        simp [Committed.reference]
    | false =>
        left
        refine ⟨c.slot, c.value, by simp [Committed.reference, hflag], ?_⟩
        exact Effects.mem_references.mpr (Or.inr (Or.inr ⟨c, hc, by simp [Committed.reference, hflag]⟩))

/-- Every reference of the batch reads what it read when it was made if and only if the slots that
were passed through were told the same decision. -/
theorem Lent.stable_iff {told : Nat → Option V} {n₀ : Node V} {σ : St V} (h : Lent P told n₀ σ) :
    Stable P told σ ↔
      ∀ slot ∈ σ.effects.passedSlots, ∀ slot' ∈ σ.effects.passedSlots, told slot = told slot' := by
  constructor
  · intro hstable
    have hshown : ∀ slot ∈ σ.effects.passedSlots, told slot = some σ.node.passThrough := by
      intro slot hslot
      obtain ⟨c, hc, hflag, rfl⟩ := Effects.mem_passedSlots.mp hslot
      have hr : Reference.passed c.slot c.value ∈ σ.effects.references P :=
        Effects.mem_references.mpr (Or.inr (Or.inr ⟨c, hc, by simp [Committed.reference, hflag]⟩))
      have hread : σ.node.passThrough = c.value := hstable.loads _ hr
      rw [hread]
      exact hstable.denotes _ hr
    intro slot hslot slot' hslot'
    rw [hshown slot hslot, hshown slot' hslot']
  · intro hagree
    refine ⟨h.loads, fun r hr => ?_⟩
    have hload := h.loads r hr
    have hborrowed := h.borrowed r hr
    obtain ⟨slot, storage, value⟩ := r
    cases storage with
    | cell i => rfl
    | passThrough =>
        have hslot := hborrowed rfl
        obtain ⟨last, hlast⟩ : ∃ last, σ.effects.passedSlots.getLast? = some last := by
          cases hget : σ.effects.passedSlots.getLast? with
          | none =>
              rw [List.getLast?_eq_none_iff.mp hget] at hslot
              cases hslot
          | some last => exact ⟨last, rfl⟩
        have htold := h.passing.recent last hlast
        rw [← hagree slot hslot last (List.mem_of_getLast? hlast)] at htold
        exact htold.trans (congrArg some hload)

/-- Slots that were passed through and told two decisions clash: those of them that are closest to
each other have only slots with a cell between them. -/
theorem Lent.stable_of_calm {told : Nat → Option V} {n₀ : Node V} {σ : St V} (h : Lent P told n₀ σ)
    (hcalm : ∀ first second, ¬ Clash P n₀ told first second) : Stable P told σ := by
  rw [h.stable_iff]
  -- two slots at a distance, by induction on it
  have hless : ∀ gap, ∀ first ∈ σ.effects.passedSlots, ∀ second ∈ σ.effects.passedSlots,
      second = first + gap → told first = told second := by
    intro gap
    induction gap using Nat.strong_induction_on with
    | _ gap ih =>
        intro first hfirst second hsecond hgap
        by_cases hwithin : ∃ s ∈ σ.effects.passedSlots, first < s ∧ s < second
        · obtain ⟨s, hs, hlow, hhigh⟩ := hwithin
          exact (ih (s - first) (by omega) first hfirst s hs (by omega)).trans
            (ih (second - s) (by omega) s hs second hsecond (by omega))
        · by_contra hdiffer
          have hne : first ≠ second := by
            rintro rfl
            exact hdiffer rfl
          obtain ⟨v, hv⟩ := h.passing.given first hfirst
          obtain ⟨w, hw⟩ := h.passing.given second hsecond
          refine hcalm first second ⟨h.waiting first hfirst, ?_, ?_,
            ⟨h.passing.unclaimed first hfirst, h.passing.unclaimed second hsecond⟩,
            fun s hlow hhigh => ?_, v, w, hv, hw, ?_⟩
          · have hapart := h.passing.apart first hfirst
            have : second ≠ first + 1 := fun heq => hapart (heq ▸ hsecond)
            omega
          · exact h.passing.near first hfirst second hsecond (by omega)
          · exact h.between first hfirst second hsecond s hlow hhigh fun hs =>
              hwithin ⟨s, hs, hlow, hhigh⟩
          · rintro rfl
            exact hdiffer (hv.trans hw.symm)
  intro slot hslot slot' hslot'
  rcases Nat.le_total slot slot' with hle | hle
  · exact hless (slot' - slot) slot hslot slot' hslot' (by omega)
  · exact (hless (slot - slot') slot' hslot' slot hslot (by omega)).symm

namespace Lasting

variable {told : Nat → Option V} {n₀ : Node V} {next next' : Nat} {σ : St V}

/-- A transition begins without references. -/
theorem start {n : Node V} (htag : Tagged P n.ledger) (hledger : n.ledger = n₀.ledger)
    (hfloor : n.memoryFloor = n₀.memoryFloor)
    (hdelivered : n.deliveredThrough = n₀.deliveredThrough)
    (hlive : n₀.memoryFloor ≤ n₀.deliveredThrough) : Lasting P told n₀ next (St.start n) where
  tagged := htag
  base := hfloor
  live := hlive
  delivered := hdelivered.ge
  claims := by
    apply claimLive_none_congr hfloor
    intro i
    refine .same ?_
    show n.ledger.cells i = n₀.ledger.cells i
    rw [hledger]
  lasts := by
    intro r hr
    simp [Effects.references, St.start] at hr
  passing := by
    constructor <;> simp [St.start, Effects.passedSlots]
  released := by
    intro c hc
    cases hc
  covered := by
    intro slot hlow hhigh
    simp only [St.start] at hhigh
    omega
  last := by
    intro c hc
    simp [St.start] at hc

theorem mono (h : Lasting P told n₀ next σ) (hle : next ≤ next') : Lasting P told n₀ next' σ := by
  refine { h with lasts := fun r hr => ?_ }
  cases h.lasts r hr with
  | inCell hanchor => exact .inCell (hanchor.congr rfl hle rfl rfl id)
  | passed hpassed hfield => exact .passed hpassed hfield

/-- The node changes, and every anchored slot stays anchored. -/
theorem withNode (h : Lasting P told n₀ next σ) {n : Node V}
    (hfloor : n.memoryFloor = σ.node.memoryFloor)
    (hdelivered : n.deliveredThrough = σ.node.deliveredThrough)
    (hfield : n.passThrough = σ.node.passThrough)
    (hcells : ∀ i, CellStep P σ.node.memoryFloor i (σ.node.ledger.cells i) (n.ledger.cells i))
    (hanchor : ∀ slot value, Anchored P σ.node next slot value → Anchored P n next' slot value) :
    Lasting P told n₀ next' { σ with node := n } where
  tagged := fun i => (hcells i).tagged (h.tagged i)
  base := hfloor.trans h.base
  live := h.live
  delivered := h.delivered.trans hdelivered.ge
  claims := by
    intro slot
    exact (claimLive_none_congr hfloor hcells slot).trans (h.claims slot)
  lasts := by
    intro r hr
    cases h.lasts r hr with
    | inCell h => exact .inCell (hanchor _ _ h)
    | passed hpassed hvalue => exact .passed hpassed (hfield.trans hvalue)
  passing := h.passing.congr rfl hfield
  released := by
    show ∀ c ∈ σ.effects.committed, n₀.deliveredThrough < c.slot ∧ c.slot ≤ n.deliveredThrough
    rw [hdelivered]
    exact h.released
  covered := by
    show ∀ slot, n₀.deliveredThrough < slot → slot ≤ n.deliveredThrough → _
    rw [hdelivered]
    exact h.covered
  last := by
    intro c hc
    exact (h.last c hc).trans hdelivered.symm

/-- The node changes in what no reference looks at. -/
theorem behind (h : Lasting P told n₀ next σ) {n : Node V} (hledger : n.ledger = σ.node.ledger)
    (hfloor : n.memoryFloor = σ.node.memoryFloor)
    (hdelivered : n.deliveredThrough = σ.node.deliveredThrough)
    (hfield : n.passThrough = σ.node.passThrough) :
    Lasting P told n₀ next { σ with node := n } := by
  apply h.withNode hfloor hdelivered hfield
  · intro i
    rw [hledger]
    exact .same rfl
  · intro slot value hanchor
    apply hanchor.congr hfloor le_rfl <;> rw [hledger]
    exact id

/-- A record is added. -/
theorem addWrite (h : Lasting P told n₀ next σ) {w : Write V}
    (hw : ∀ r ∈ w.references P σ.effects.passedSlots, r.Lasts P σ next) :
    Lasting P told n₀ next (σ.addWrite w) := by
  have hold : ∀ {r : Reference V}, r.Lasts P σ next → r.Lasts P (σ.addWrite w) next := by
    intro r hr
    cases hr with
    | inCell hanchor => exact .inCell hanchor
    | passed hpassed hfield => exact .passed hpassed hfield
  refine { h with lasts := fun r hr => hold ?_, passing := h.passing.congr rfl rfl }
  rw [Effects.mem_references] at hr
  rcases hr with ⟨x, hx, hr⟩ | hr
  · rcases List.mem_append.mp hx with hx | hx
    · exact h.lasts r (Effects.mem_references.mpr (Or.inl ⟨x, hx, hr⟩))
    · cases List.mem_singleton.mp hx
      exact hw r hr
  · exact h.lasts r (Effects.mem_references.mpr (Or.inr hr))

/-- Messages are added. -/
theorem addMessages (h : Lasting P told n₀ next σ) {es : List (Envelope V)}
    (hes : ∀ e ∈ es, ∀ r ∈ e.message.references P, Anchored P σ.node next r.slot r.value) :
    Lasting P told n₀ next (σ.addMessages es) := by
  have hold : ∀ {r : Reference V}, r.Lasts P σ next → r.Lasts P (σ.addMessages es) next := by
    intro r hr
    cases hr with
    | inCell hanchor => exact .inCell hanchor
    | passed hpassed hfield => exact .passed hpassed hfield
  refine { h with lasts := fun r hr => hold ?_, passing := h.passing.congr rfl rfl }
  rw [Effects.mem_references] at hr
  rcases hr with hr | ⟨e, he, hr⟩ | hr
  · exact h.lasts r (Effects.mem_references.mpr (Or.inl hr))
  · rcases List.mem_append.mp he with he | he
    · exact h.lasts r (Effects.mem_references.mpr (Or.inr (Or.inl ⟨e, he, hr⟩)))
    · rw [Message.references_inCell hr]
      exact .inCell (hes e he r hr)
  · exact h.lasts r (Effects.mem_references.mpr (Or.inr (Or.inr hr)))

theorem sendTo (h : Lasting P told n₀ next σ) (peer : Nat) {msg : Message V}
    (hmsg : ∀ r ∈ msg.references P, Anchored P σ.node next r.slot r.value) :
    Lasting P told n₀ next (PaxosOdin.sendTo σ peer msg) := by
  apply h.addMessages
  intro e he
  cases List.mem_singleton.mp he
  exact hmsg

theorem broadcastPeers (h : Lasting P told n₀ next σ) {msg : Message V}
    (hmsg : ∀ r ∈ msg.references P, Anchored P σ.node next r.slot r.value) :
    Lasting P told n₀ next (PaxosOdin.broadcastPeers σ msg) := by
  apply h.addMessages
  intro e he
  obtain ⟨peer, -, rfl⟩ := List.mem_map.mp he
  exact hmsg

theorem broadcastAll (h : Lasting P told n₀ next σ) {msg : Message V}
    (hmsg : ∀ r ∈ msg.references P, Anchored P σ.node next r.slot r.value) :
    Lasting P told n₀ next (PaxosOdin.broadcastAll σ msg) := by
  apply h.addMessages
  intro e he
  obtain ⟨peer, -, rfl⟩ := List.mem_map.mp he
  exact hmsg

/-- The anchored slots of a batch that shows `value` for `slot` in its cell. -/
theorem anchored (h : Lasting P told n₀ next σ) {slot : Nat} {value : V}
    (hr : .inCell P slot value ∈ σ.effects.references P) : Anchored P σ.node next slot value := by
  generalize hr' : Reference.inCell P slot value = r at hr
  cases h.lasts r hr with
  | inCell hanchor =>
      cases hr'
      exact hanchor
  | passed => cases hr'

/-- A released entry that is still in its cell. -/
theorem held (h : Lasting P told n₀ next σ) {c : Committed V} (hc : c ∈ σ.effects.committed)
    (hflag : c.passThrough = false) : Anchored P σ.node next c.slot c.value := by
  apply h.anchored
  rw [Effects.mem_references]
  refine Or.inr (Or.inr ⟨c, hc, ?_⟩)
  simp [Committed.reference, hflag]

/-- A released slot that was not passed through has a cell. -/
theorem claimed (h : Lasting P told n₀ next σ) {slot : Nat} (hlow : n₀.deliveredThrough < slot)
    (hhigh : slot ≤ σ.node.deliveredThrough) (hwindow : slot ≤ n₀.memoryFloor + P.W)
    (hpassed : slot ∉ σ.effects.passedSlots) : (claimLive P n₀ slot).2 ≠ none := by
  obtain ⟨c, hc, rfl⟩ := h.covered slot hlow hhigh
  have hflag : c.passThrough = false := by
    by_contra hflag
    exact hpassed (Effects.mem_passedSlots.mpr ⟨c, hc, by simpa using hflag, rfl⟩)
  rw [Ne, ← h.claims c.slot]
  exact (h.held hc hflag).claims (h.base ▸ hwindow)

/-- A slot that was passed through was released. -/
theorem passed_le (h : Lasting P told n₀ next σ) {slot : Nat}
    (hpassed : slot ∈ σ.effects.passedSlots) :
    n₀.deliveredThrough < slot ∧ slot ≤ σ.node.deliveredThrough := by
  obtain ⟨c, hc, -, rfl⟩ := Effects.mem_passedSlots.mp hpassed
  exact h.released c hc

/-- Where every reference lasts, the batch is lent. -/
theorem lent (h : Lasting P told n₀ next σ) : Lent P told n₀ σ where
  loads := by
    intro r hr
    cases h.lasts r hr with
    | inCell hanchor => exact hanchor.value
    | passed _ hfield => exact hfield
  borrowed := by
    intro r hr hstorage
    cases h.lasts r hr with
    | inCell => cases hstorage
    | passed hpassed _ => exact hpassed
  passing := h.passing
  between := by
    intro slot hslot slot' hslot' s hlow hhigh hs
    have hnear := h.passing.near slot hslot slot' hslot' (by omega)
    have hfirst := h.passed_le hslot
    have hlast := h.passed_le hslot'
    exact h.claimed (by omega) (by omega) (by omega) hs
  waiting := fun slot hslot => (h.passed_le hslot).1

/-! ## Releases -/

/-- A decision is released from its cell. -/
theorem release (h : Lasting P told n₀ next σ)
    (hheld : (σ.node.ledger.cellAt P (σ.node.deliveredThrough + 1)).slot =
      σ.node.deliveredThrough + 1)
    (hchosen : (σ.node.ledger.cellAt P (σ.node.deliveredThrough + 1)).state = .chosen) :
    Lasting P told n₀ next
      { (σ.addCommitted ⟨σ.node.deliveredThrough + 1,
          (σ.node.ledger.cellAt P (σ.node.deliveredThrough + 1)).value, false⟩) with
        node := { σ.node with deliveredThrough := σ.node.deliveredThrough + 1 } } := by
  have hlive := h.live
  have hbase := h.base
  have hdelivered := h.delivered
  have hpassed : (σ.addCommitted ⟨σ.node.deliveredThrough + 1,
      (σ.node.ledger.cellAt P (σ.node.deliveredThrough + 1)).value, false⟩).effects.passedSlots =
        σ.effects.passedSlots := by
    simp [Effects.passedSlots, St.addCommitted]
  constructor
  · exact h.tagged
  · exact hbase
  · exact hlive
  · exact hdelivered.trans (Nat.le_succ _)
  · intro slot
    rw [← h.claims slot]
    apply claimLive_none_congr
    · rfl
    · intro i
      exact .same rfl
  · intro r hr
    have hcases : r ∈ σ.effects.references P ∨ r = .inCell P (σ.node.deliveredThrough + 1)
        (σ.node.ledger.cellAt P (σ.node.deliveredThrough + 1)).value := by
      rw [Effects.mem_references] at hr ⊢
      rcases hr with ⟨w, hw, hr⟩ | hr | ⟨c, hc, rfl⟩
      · exact Or.inl (Or.inl ⟨w, hw, hpassed ▸ hr⟩)
      · exact Or.inl (Or.inr (Or.inl hr))
      · rcases List.mem_append.mp hc with hc | hc
        · exact Or.inl (Or.inr (Or.inr ⟨c, hc, rfl⟩))
        · cases List.mem_singleton.mp hc
          exact Or.inr rfl
    rcases hcases with hr | rfl
    · cases h.lasts r hr with
      | inCell hanchor => exact .inCell (hanchor.congr rfl le_rfl rfl rfl id)
      | passed hmem hfield => exact .passed (hpassed ▸ hmem) hfield
    · refine .inCell ⟨?_, hheld, rfl, Or.inl hchosen⟩
      show σ.node.memoryFloor < σ.node.deliveredThrough + 1
      omega
  · exact h.passing.congr hpassed rfl
  · intro c hc
    rcases List.mem_append.mp hc with hc | hc
    · obtain ⟨hlow, hhigh⟩ := h.released c hc
      exact ⟨hlow, hhigh.trans (Nat.le_succ _)⟩
    · cases List.mem_singleton.mp hc
      exact ⟨Nat.lt_succ_of_le hdelivered, le_rfl⟩
  · intro slot hlow hhigh
    by_cases hlast : slot = σ.node.deliveredThrough + 1
    · exact ⟨_, List.mem_append_right _ (List.mem_singleton_self _), hlast.symm⟩
    · obtain ⟨c, hc, hslot⟩ := h.covered slot hlow (Nat.le_of_lt_succ (lt_of_le_of_ne hhigh hlast))
      exact ⟨c, List.mem_append_left _ hc, hslot⟩
  · intro c hc
    simp only [St.addCommitted, List.getLast?_append, List.getLast?_singleton, Option.some_or,
      Option.some.injEq] at hc
    rw [← hc]

/-- Every newly contiguous decision is released. -/
theorem emitContiguous (h : Lasting P told n₀ next σ) :
    Lasting P told n₀ next (PaxosOdin.emitContiguous P σ) := by
  unfold PaxosOdin.emitContiguous
  generalize P.W = fuel
  induction fuel generalizing σ with
  | zero => exact h
  | succ fuel ih =>
      unfold emitContiguousLoop
      dsimp only
      split_ifs with hmax hheld
      · exact h
      · rw [not_or, not_not, not_not] at hheld
        exact ih (h.release hheld.1 hheld.2)
      · exact h

/-- The guard of `record_commit`: the slot of the frontier was not passed through. -/
theorem frontier_unpassed (h : Lasting P told n₀ next σ)
    (hroom : σ.node.deliveredThrough + 1 ≤ n₀.memoryFloor + P.W ∨ σ.effects = {})
    (hlast : lastReleasedPassedThrough σ.effects = false) :
    σ.node.deliveredThrough ∉ σ.effects.passedSlots := by
  intro hmem
  rcases hroom with hroom | hempty
  · unfold lastReleasedPassedThrough at hlast
    cases hget : σ.effects.committed.getLast? with
    | none =>
        rw [List.getLast?_eq_none_iff] at hget
        simp [Effects.passedSlots, hget] at hmem
    | some l =>
        rw [hget] at hlast
        have hheld := h.held (List.mem_of_getLast? hget) hlast
        rw [h.last l hget] at hheld
        have hbase := h.base
        apply hheld.claims (by omega)
        rw [h.claims]
        exact h.passing.unclaimed _ hmem
  · simp [hempty, Effects.passedSlots] at hmem

/-- A decision without a cell is released through `pass_through`. -/
theorem pass (h : Lasting P told n₀ next σ) {value : V}
    (hclaim : (claimLive P n₀ (σ.node.deliveredThrough + 1)).2 = none)
    (htold : told (σ.node.deliveredThrough + 1) = some value)
    (hroom : σ.node.deliveredThrough + 1 ≤ n₀.memoryFloor + P.W ∨ σ.effects = {})
    (hlast : lastReleasedPassedThrough σ.effects = false) :
    Lasting P told n₀ next
      { (((σ.setPassThrough value).addWrite
            (.chosen (σ.node.deliveredThrough + 1) value)).addCommitted
              ⟨σ.node.deliveredThrough + 1, value, true⟩) with
        node := { (σ.setPassThrough value).node with
          deliveredThrough := σ.node.deliveredThrough + 1 } } := by
  have hdelivered := h.delivered
  have hfrontier := h.frontier_unpassed hroom hlast
  generalize hslot : σ.node.deliveredThrough + 1 = slot at hclaim htold hroom ⊢
  -- a slot whose decision is recorded has a cell
  have hunclaimed : ∀ s v, .inCell P s v ∈ σ.effects.references P → s ≠ slot := by
    rintro s v hr rfl
    rcases hroom with hroom | hempty
    · apply (h.anchored hr).claims (h.base ▸ hroom)
      rw [h.claims]
      exact hclaim
    · rw [hempty] at hr
      simp [Effects.references] at hr
  have hlow : ∀ s ∈ σ.effects.passedSlots, s < slot := by
    intro s hs
    have := (h.passed_le hs).2
    omega
  have hunrecorded : ∀ s v, .chosen s v ∈ (σ.setPassThrough value).effects.writes → s ≠ slot := by
    intro s v hw
    by_cases hmem : s ∈ σ.effects.passedSlots
    · exact (hlow s hmem).ne
    · refine hunclaimed s v ?_
      have hr : Reference.inCell P s v ∈ (σ.setPassThrough value).effects.references P := by
        rw [Effects.mem_references, St.setPassThrough_passedSlots]
        exact Or.inl ⟨_, hw, by simp [Write.references, hmem]⟩
      rcases St.setPassThrough_references hr with ⟨_, _, -, hold⟩ | ⟨_, -, heq⟩
      · exact hold
      · cases heq
  generalize hτ : ({ (((σ.setPassThrough value).addWrite (.chosen slot value)).addCommitted
      ⟨slot, value, true⟩) with
    node := { (σ.setPassThrough value).node with deliveredThrough := slot } } : St V) = τ
  have hpassed : τ.effects.passedSlots = σ.effects.passedSlots ++ [slot] := by
    rw [← hτ, ← σ.setPassThrough_passedSlots value]
    simp [Effects.passedSlots, St.addCommitted, St.addWrite]
  have hcommitted : ∀ c ∈ τ.effects.committed, c.slot = slot ∨ ∃ d ∈ σ.effects.committed,
      d.slot = c.slot := by
    intro c hc
    rw [← hτ] at hc
    rcases List.mem_append.mp hc with hc | hc
    · obtain ⟨d, hd, rfl⟩ := List.mem_map.mp hc
      refine Or.inr ⟨d, hd, ?_⟩
      split_ifs <;> rfl
    · cases List.mem_singleton.mp hc
      exact Or.inl rfl
  have hkept : ∀ d ∈ σ.effects.committed, ∃ c ∈ τ.effects.committed, c.slot = d.slot := by
    intro d hd
    rw [← hτ]
    refine ⟨_, List.mem_append_left _ (List.mem_map_of_mem hd), ?_⟩
    split_ifs <;> rfl
  have hreferences : ∀ r ∈ τ.effects.references P,
      (∃ s v, r = .inCell P s v ∧ r ∈ σ.effects.references P) ∨
        ∃ s ∈ τ.effects.passedSlots, r = .passed s value := by
    intro r hr
    rw [Effects.mem_references, hpassed] at hr
    have hold : r ∈ (σ.setPassThrough value).effects.references P →
        (∃ s v, r = .inCell P s v ∧ r ∈ σ.effects.references P) ∨
          ∃ s ∈ τ.effects.passedSlots, r = .passed s value := by
      intro hr
      rcases St.setPassThrough_references hr with hkeep | ⟨s, hs, heq⟩
      · exact Or.inl hkeep
      · refine Or.inr ⟨s, ?_, heq⟩
        rw [hpassed]
        exact List.mem_append_left _ hs
    have hnew : r = .passed slot value → ∃ s ∈ τ.effects.passedSlots, r = .passed s value :=
      fun heq => ⟨slot, by simp [hpassed], heq⟩
    rw [← hτ] at hr
    rcases hr with ⟨w, hw, hr⟩ | hr | ⟨c, hc, rfl⟩
    · rcases List.mem_append.mp hw with hw | hw
      · apply hold
        rw [Effects.mem_references, St.setPassThrough_passedSlots]
        refine Or.inl ⟨w, hw, ?_⟩
        cases w with
        | chosen s v =>
            have hs := hunrecorded s v hw
            simpa [Write.references, hs] using hr
        | _ => exact hr
      · cases List.mem_singleton.mp hw
        right
        apply hnew
        simpa [Write.references] using hr
    · exact hold (Effects.mem_references.mpr (Or.inr (Or.inl hr)))
    · rcases List.mem_append.mp hc with hc | hc
      · exact hold (Effects.mem_references.mpr (Or.inr (Or.inr ⟨c, hc, rfl⟩)))
      · cases List.mem_singleton.mp hc
        exact Or.inr (hnew rfl)
  constructor
  · rw [← hτ]
    exact h.tagged
  · rw [← hτ]
    exact h.base
  · exact h.live
  · rw [← hτ]
    show n₀.deliveredThrough ≤ slot
    omega
  · intro s
    rw [← h.claims s, ← hτ]
    apply claimLive_none_congr
    · rfl
    · intro i
      exact .same rfl
  · intro r hr
    rcases hreferences r hr with ⟨s, v, rfl, hr⟩ | ⟨s, hs, rfl⟩
    · refine .inCell ((h.anchored hr).congr ?_ le_rfl ?_ ?_ ?_) <;> rw [← hτ]
      · rfl
      · rfl
      · rfl
      · exact id
    · refine .passed hs ?_
      rw [← hτ]
      rfl
  · constructor
    · rw [hpassed]
      exact List.forall_mem_append.mpr ⟨h.passing.unclaimed, by simpa using hclaim⟩
    · rw [hpassed]
      exact List.forall_mem_append.mpr ⟨h.passing.given, by simpa using ⟨value, htold⟩⟩
    · intro s hs
      rw [hpassed, List.getLast?_append, List.getLast?_singleton, Option.some_or,
        Option.some.injEq] at hs
      rw [← hs, htold, ← hτ]
      rfl
    · rw [hpassed]
      intro s hs hnext
      rcases List.mem_append.mp hs with hs | hs
      · rcases List.mem_append.mp hnext with hnext | hnext
        · exact h.passing.apart s hs hnext
        · have hs' : s = σ.node.deliveredThrough := by
            have := List.mem_singleton.mp hnext
            omega
          exact hfrontier (hs' ▸ hs)
      · have := List.mem_singleton.mp hs
        rcases List.mem_append.mp hnext with hnext | hnext
        · have := hlow _ hnext
          omega
        · have := List.mem_singleton.mp hnext
          omega
    · rw [hpassed]
      intro s hs s' hs' hlt
      rcases List.mem_append.mp hs' with hs' | hs'
      · rcases List.mem_append.mp hs with hs | hs
        · exact h.passing.near s hs s' hs' hlt
        · have := List.mem_singleton.mp hs
          have := hlow _ hs'
          omega
      · rw [List.mem_singleton.mp hs'] at hlt ⊢
        refine hroom.resolve_right fun hempty => ?_
        rcases List.mem_append.mp hs with hs | hs
        · simp [hempty, Effects.passedSlots] at hs
        · have := List.mem_singleton.mp hs
          omega
  · intro c hc
    have hthrough : τ.node.deliveredThrough = slot := by
      rw [← hτ]
    rcases hcommitted c hc with hs | ⟨d, hd, hs⟩
    · omega
    · have := h.released d hd
      omega
  · intro s hlow hhigh
    have hthrough : τ.node.deliveredThrough = slot := by
      rw [← hτ]
    by_cases hlast : s = slot
    · refine ⟨⟨slot, value, true⟩, ?_, hlast.symm⟩
      rw [← hτ]
      exact List.mem_append_right _ (List.mem_singleton_self _)
    · obtain ⟨d, hd, hs⟩ := h.covered s hlow (by omega)
      obtain ⟨c, hc, hslot⟩ := hkept d hd
      exact ⟨c, hc, hslot.trans hs⟩
  · intro c hc
    rw [← hτ] at hc ⊢
    simp only [St.addCommitted, List.getLast?_append, List.getLast?_singleton, Option.some_or,
      Option.some.injEq] at hc
    rw [← hc]

end Lasting

/-! ## Procedures -/

/-- A procedure keeps every reference good, the anchored slots anchored and the fixed fields as
they are; from `σ'` on, votes go to slots from `next'` on. -/
structure Extends (P : Params) (told : Nat → Option V) (n₀ : Node V) (next next' : Nat)
    (σ σ' : St V) : Prop where
  lasting : Lasting P told n₀ next' σ'
  fixed : σ'.node.fixed = σ.node.fixed
  anchored : ∀ slot value, Anchored P σ.node next slot value → Anchored P σ'.node next' slot value

section Procedures

variable {told : Nat → Option V} {n₀ : Node V} {next next' next'' : Nat} {σ σ' σ'' : St V}

theorem Extends.trans (h : Extends P told n₀ next next' σ σ')
    (h' : Extends P told n₀ next' next'' σ' σ'') : Extends P told n₀ next next'' σ σ'' where
  lasting := h'.lasting
  fixed := h'.fixed.trans h.fixed
  anchored := fun slot value hanchor => h'.anchored slot value (h.anchored slot value hanchor)

theorem Extends.mono (h : Extends P told n₀ next next' σ σ') (hle : next' ≤ next'') :
    Extends P told n₀ next next'' σ σ' where
  lasting := h.lasting.mono hle
  fixed := h.fixed
  anchored := fun slot value hanchor =>
    (h.anchored slot value hanchor).congr rfl hle rfl rfl id

/-- The node changes in what no reference looks at. -/
theorem Lasting.extendsBehind (h : Lasting P told n₀ next σ) {n : Node V}
    (hledger : n.ledger = σ.node.ledger)
    (hdelivered : n.deliveredThrough = σ.node.deliveredThrough)
    (hfield : n.passThrough = σ.node.passThrough) (hfixed : n.fixed = σ.node.fixed) :
    Extends P told n₀ next next σ { σ with node := n } where
  lasting := h.behind hledger (memoryFloor_of_fixed hfixed) hdelivered hfield
  fixed := hfixed
  anchored := by
    intro slot value hanchor
    refine hanchor.congr (memoryFloor_of_fixed hfixed) le_rfl ?_ ?_ ?_ <;> rw [hledger]
    exact id

/-- `claim_live` opens no cell that is referred to. -/
theorem Lasting.claim (h : Lasting P told n₀ next σ) {n : Node V} {slot cell : Nat}
    (hc : Claimed P σ.node n slot cell) :
    Extends P told n₀ next next σ { σ with node := n } := by
  rcases hc.cases with rfl | ⟨rfl, hother, hfree⟩
  · exact ⟨h, rfl, fun _ _ hanchor => hanchor⟩
  have hanchored : ∀ s v, Anchored P σ.node next s v →
      Anchored P { σ.node with ledger := ledgerOpen σ.node.ledger (cellOf slot P.W) slot } next s v := by
    intro s v hanchor
    have hne : cellOf s P.W ≠ cellOf slot P.W := by
      intro heq
      have hheld := hanchor.held
      have hlive := hanchor.live
      simp only [Ledger.cellAt, heq] at hheld hother hfree
      rcases hfree with hzero | ⟨hlow, -⟩ <;> omega
    have hcell : (ledgerOpen σ.node.ledger (cellOf slot P.W) slot).cellAt P s =
        σ.node.ledger.cellAt P s := ledgerOpen_of_ne _ hne
    refine hanchor.congr rfl le_rfl ?_ ?_ ?_ <;> rw [hcell]
    exact id
  refine ⟨h.withNode rfl rfl rfl ?_ hanchored, rfl, hanchored⟩
  intro i
  by_cases hi : i = cellOf slot P.W
  · subst hi
    exact .opened slot rfl hc.live hc.window hother hfree (ledgerOpen_self _ _ _)
  · exact .same (ledgerOpen_of_ne _ hi)

/-- Releasing decisions changes no cell. -/
theorem Lasting.extendsEmit (h : Lasting P told n₀ next σ) :
    Extends P told n₀ next next σ (PaxosOdin.emitContiguous P σ) := by
  have hlasting := h.emitContiguous
  obtain ⟨through, entries, -, heq⟩ := emitContiguous_eq P σ
  refine ⟨hlasting, by rw [heq]; rfl, ?_⟩
  intro slot value hanchor
  rw [heq]
  exact hanchor.congr rfl le_rfl rfl rfl id

/-- A decision is recorded in its cell.  An open vote of this transition is for the value that was
decided. -/
theorem Lasting.choose (h : Lasting P told n₀ next σ) {slot : Nat} {value : V}
    (hlive : σ.node.memoryFloor < slot) (hwindow : slot ≤ σ.node.memoryFloor + P.W)
    (hheld : (σ.node.ledger.cellAt P slot).slot = slot)
    (hopen : (σ.node.ledger.cellAt P slot).state ≠ .chosen)
    (hfresh : next ≤ slot ∨ (σ.node.ledger.cellAt P slot).value = value) :
    Extends P told n₀ next next σ
      ((σ.withLedger (ledgerRecordChosen σ.node.ledger (cellOf slot P.W) value)).addWrite
        (.chosen slot value)) := by
  have hcell : ∀ i, (ledgerRecordChosen σ.node.ledger (cellOf slot P.W) value).cells i =
      if i = cellOf slot P.W then
        { σ.node.ledger.cells i with value := value, state := .chosen }
      else σ.node.ledger.cells i := by
    intro i
    rw [ledgerRecordChosen_cells]
    split_ifs <;> rfl
  have hnew : Anchored P (σ.withLedger
      (ledgerRecordChosen σ.node.ledger (cellOf slot P.W) value)).node next slot value := by
    refine ⟨hlive, ?_, ?_, Or.inl ?_⟩ <;> simp only [St.withLedger, Ledger.cellAt, hcell, if_true]
    exact hheld
  have hanchored : ∀ s v, Anchored P σ.node next s v → Anchored P (σ.withLedger
      (ledgerRecordChosen σ.node.ledger (cellOf slot P.W) value)).node next s v := by
    intro s v hanchor
    by_cases heq : cellOf s P.W = cellOf slot P.W
    · have hs : s = slot := by
        rw [← hanchor.held, ← hheld, Ledger.cellAt, Ledger.cellAt, heq]
      subst hs
      have hbelow : ¬ next ≤ s := not_le.mpr (hanchor.final.resolve_left hopen)
      rw [← hanchor.value, hfresh.resolve_left hbelow]
      exact hnew
    · refine hanchor.congr rfl le_rfl ?_ ?_ ?_ <;>
        simp only [St.withLedger, Ledger.cellAt, hcell, if_neg heq]
      exact id
  have hsteps : ∀ i, CellStep P σ.node.memoryFloor i (σ.node.ledger.cells i)
      ((ledgerRecordChosen σ.node.ledger (cellOf slot P.W) value).cells i) := by
    intro i
    by_cases hi : i = cellOf slot P.W
    · subst hi
      simp only [Ledger.cellAt] at hheld hopen
      refine .written (by rw [hheld]) (by omega) (by omega) ?_ ?_ (absurd · hopen) ?_ <;>
        simp [hcell]
    · exact .same (by rw [hcell, if_neg hi])
  have hlasting : Lasting P told n₀ next
      (σ.withLedger (ledgerRecordChosen σ.node.ledger (cellOf slot P.W) value)) :=
    h.withNode (n := (σ.withLedger (ledgerRecordChosen σ.node.ledger (cellOf slot P.W) value)).node)
      rfl rfl rfl hsteps hanchored
  refine ⟨hlasting.addWrite ?_, rfl, hanchored⟩
  intro r hr
  have hpassed : slot ∉ σ.effects.passedSlots := by
    intro hmem
    apply hnew.claims hwindow
    rw [hlasting.claims]
    exact h.passing.unclaimed slot hmem
  have hr' : r = .inCell P slot value := by
    simpa [Write.references, St.withLedger, hpassed] using hr
  rw [hr']
  exact .inCell hnew

/-- A vote is cast in a slot that was not voted in yet. -/
theorem Lasting.vote (h : Lasting P told n₀ next σ) {n : Node V} {slot : Nat}
    (promised ballot : Nat) (value : V)
    (hledger : n.ledger = ledgerRecordVote (ledgerSetPromiseAt σ.node.ledger (cellOf slot P.W) promised)
      (cellOf slot P.W) ballot value)
    (hfloor : n.memoryFloor = σ.node.memoryFloor)
    (hdelivered : n.deliveredThrough = σ.node.deliveredThrough)
    (hfield : n.passThrough = σ.node.passThrough) (hlive : σ.node.memoryFloor < slot)
    (hwindow : slot ≤ σ.node.memoryFloor + P.W)
    (hheld : (σ.node.ledger.cellAt P slot).slot = slot)
    (hopen : (σ.node.ledger.cellAt P slot).state ≠ .chosen)
    (hle : (σ.node.ledger.cellAt P slot).promisedAt ≤ promised) (hnext : next ≤ slot) :
    Lasting P told n₀ (slot + 1) (St.addWrite { σ with node := n } (.vote ballot slot value)) ∧
      (∀ s v, Anchored P σ.node next s v → Anchored P n (slot + 1) s v) ∧
        Anchored P n (slot + 1) slot value := by
  have hcell : ∀ i, n.ledger.cells i = if i = cellOf slot P.W then
      { σ.node.ledger.cells i with
        promisedAt := promised, voteBallot := ballot, value := value, state := .voted }
      else σ.node.ledger.cells i := by
    intro i
    rw [hledger, ledgerVote_cells]
  have hnew : Anchored P n (slot + 1) slot value := by
    refine ⟨hfloor ▸ hlive, ?_, ?_, Or.inr (Nat.lt_succ_self slot)⟩ <;>
      simp only [Ledger.cellAt, hcell, if_true]
    exact hheld
  have hanchored : ∀ s v, Anchored P σ.node next s v → Anchored P n (slot + 1) s v := by
    intro s v hanchor
    have hne : cellOf s P.W ≠ cellOf slot P.W := by
      intro heq
      have hs : s = slot := by
        rw [← hanchor.held, ← hheld, Ledger.cellAt, Ledger.cellAt, heq]
      subst hs
      exact hopen (hanchor.final.resolve_right (not_lt.mpr hnext))
    refine hanchor.congr hfloor (hnext.trans (Nat.le_succ slot)) ?_ ?_ ?_ <;>
      simp only [Ledger.cellAt, hcell, if_neg hne]
    exact id
  have hlasting : Lasting P told n₀ (slot + 1) { σ with node := n } := by
    apply h.withNode hfloor hdelivered hfield _ hanchored
    intro i
    rw [hledger]
    exact CellStep.ofVote hlive hwindow hheld hopen hle i
  refine ⟨hlasting.addWrite ?_, hanchored, hnew⟩
  intro r hr
  rw [List.mem_singleton.mp hr]
  exact .inCell hnew

/-- A suggestion is queued again, or nothing happens. -/
theorem requeue_eq (n : Node V) (value : V) (requeue : Prop) [Decidable requeue] :
    ∃ resubmit dropped, (if requeue then queueResubmit P n value else n) =
      { n with resubmit := resubmit, resubmitsDropped := dropped } := by
  unfold queueResubmit
  split_ifs <;> exact ⟨_, _, rfl⟩

section Decide

variable [DecidableEq V]

/-- Recording a decision keeps the references good. -/
theorem Lasting.recordCommit (h : Lasting P told n₀ next σ) {slot : Nat} (value : V)
    (htold : (claimLive P n₀ slot).2 = none → told slot = some value)
    (hroom : slot ≤ n₀.memoryFloor + P.W ∨ σ.effects = {})
    (hfresh : next ≤ slot ∨ ((σ.node.ledger.cellAt P slot).slot = slot ∧
      (σ.node.ledger.cellAt P slot).value = value)) :
    Extends P told n₀ next next σ (PaxosOdin.recordCommit P σ slot value).1 := by
  unfold PaxosOdin.recordCommit
  by_cases hzero : slot = 0
  · rw [if_pos hzero]
    exact h.extendsBehind rfl rfl rfl rfl
  rw [if_neg hzero]
  dsimp only
  have hseen : Extends P told n₀ next next σ
      { σ with node := { σ.node with highestSeen := max σ.node.highestSeen slot } } :=
    h.extendsBehind rfl rfl rfl rfl
  by_cases hlow : slot ≤ σ.node.memoryFloor ∨ slot ≤ σ.node.ledger.anchor.chosenTrimSlot
  · rw [if_pos hlow]
    exact hseen
  rw [if_neg hlow]
  rcases hcase : claimLive P { σ.node with highestSeen := max σ.node.highestSeen slot } slot with
    ⟨n, _ | cell⟩
  · dsimp only
    split_ifs with hreleased hnext
    · exact hseen
    · -- the slot past the prefix does not wrap, since it is not zero
      obtain rfl : slot = σ.node.deliveredThrough + 1 := by
        unfold slotSucc at hnext
        split_ifs at hnext
        · exact absurd hnext hzero
        · exact hnext
      have hnone : (claimLive P n₀ (σ.node.deliveredThrough + 1)).2 = none :=
        (hseen.lasting.claims _).mp (by rw [hcase])
      have hpass := hseen.lasting.pass hnone (htold hnone) hroom (Bool.eq_false_iff.mpr hreleased)
      exact hseen.trans (Extends.trans
        ⟨hpass, rfl, fun _ _ hanchor => hanchor.congr rfl le_rfl rfl rfl id⟩ hpass.extendsEmit)
    · exact hseen
  · have hc := claimLive_some hcase
    have hclaimed := hseen.trans (hseen.lasting.claim hc)
    have hcell := hc.cell_eq
    subst hcell
    dsimp only
    by_cases hchosen : (n.ledger.cells (cellOf slot P.W)).state = .chosen
    · rw [if_pos hchosen]
      split_ifs
      · exact hclaimed
      · exact hclaimed.trans hclaimed.lasting.extendsEmit
    · rw [if_neg hchosen]
      obtain ⟨resubmit, dropped, heq⟩ := requeue_eq (P := P) n
        (n.ledger.cells (cellOf slot P.W)).value (n.ownership ∧
          (n.ledger.cells (cellOf slot P.W)).state = .voted ∧
            (n.ledger.cells (cellOf slot P.W)).voteBallot = ownershipBallot n.id ∧
              (n.ledger.cells (cellOf slot P.W)).value ≠ value)
      rw [heq]
      have hqueued := hclaimed.trans (hclaimed.lasting.extendsBehind
        (n := { n with resubmit := resubmit, resubmitsDropped := dropped }) rfl rfl rfl rfl)
      have hfloor : n.memoryFloor = σ.node.memoryFloor := memoryFloor_of_fixed hc.fixed
      have hagreed : next ≤ slot ∨ (n.ledger.cellAt P slot).value = value := by
        refine hfresh.imp_right fun hcell => ?_
        rcases hc.cases with rfl | ⟨-, hother, -⟩
        · exact hcell.2
        · exact absurd hcell.1 hother
      have hlive : n.memoryFloor < slot := hfloor ▸ hc.live
      have hwindow : slot ≤ n.memoryFloor + P.W := hfloor ▸ hc.window
      have hchoose := hqueued.lasting.choose hlive hwindow hc.held hchosen hagreed
      exact hqueued.trans (hchoose.trans hchoose.lasting.extendsEmit)

/-- A proposal that was voted for is announced. -/
theorem Lasting.announceProposal (h : Lasting P told n₀ next σ) {slot ballot : Nat} {value : V}
    (hanchor : Anchored P σ.node next slot value) (hwindow : slot ≤ σ.node.memoryFloor + P.W) :
    Extends P told n₀ next next σ (PaxosOdin.announceProposal P σ slot ballot value).1 := by
  have hmsg : ∀ {n : Node V}, Anchored P n next slot value →
      ∀ r ∈ (Message.accept ballot slot value).references P, Anchored P n next r.slot r.value := by
    intro n hn r hr
    rw [List.mem_singleton.mp hr]
    exact hn
  unfold PaxosOdin.announceProposal
  split_ifs with hquorum
  · have hclaims : (claimLive P n₀ slot).2 ≠ none := by
      rw [Ne, ← h.claims]
      exact hanchor.claims hwindow
    have hcommit := h.recordCommit value (absurd · hclaims) (Or.inl (h.base ▸ hwindow))
      (Or.inr ⟨hanchor.held, hanchor.value⟩)
    rcases hcase : PaxosOdin.recordCommit P σ slot value with ⟨τ, e⟩
    rw [hcase] at hcommit
    cases e with
    | none =>
        have hkept := hcommit.anchored slot value hanchor
        exact ⟨hcommit.lasting.broadcastPeers (hmsg hkept), hcommit.fixed, hcommit.anchored⟩
    | _ => exact hcommit
  · exact ⟨h.broadcastPeers (hmsg hanchor), rfl, fun _ _ hs => hs⟩

/-- A proposal in a slot that was not voted in yet keeps the references good. -/
theorem Lasting.sendAccept (h : Lasting P told n₀ next σ) {slot : Nat} (ballot : Nat) (value : V)
    (hnext : next ≤ slot) :
    Extends P told n₀ next (slot + 1) σ (PaxosOdin.sendAccept P σ slot ballot value).1 := by
  have hsame : Extends P told n₀ next (slot + 1) σ σ :=
    (⟨h, rfl, fun _ _ hs => hs⟩ : Extends P told n₀ next next σ σ).mono
      (hnext.trans (Nat.le_succ slot))
  unfold PaxosOdin.sendAccept
  rcases hcase : claimLive P σ.node slot with ⟨n, _ | cell⟩
  · exact hsame
  have hc := claimLive_some hcase
  have hclaimed := h.claim hc
  have hcell := hc.cell_eq
  subst hcell
  have hfloor : n.memoryFloor = σ.node.memoryFloor := memoryFloor_of_fixed hc.fixed
  have hstay := hclaimed.mono (hnext.trans (Nat.le_succ slot))
  dsimp only
  split_ifs with hchosen hconflict hpromise
  · exact hstay
  · exact hstay
  · exact hstay
  · have hwindow : slot ≤ n.memoryFloor + P.W := hfloor ▸ hc.window
    obtain ⟨hlasting, hanchored, hnew⟩ := hclaimed.lasting.vote _ ballot value
      (n := (voteForProposal { σ with node := n } (cellOf slot P.W) slot ballot value).node)
      rfl rfl rfl rfl (show n.memoryFloor < slot from hfloor ▸ hc.live) hwindow hc.held hchosen
      (le_max_left _ _) hnext
    have hvote : Extends P told n₀ next (slot + 1) { σ with node := n }
        (voteForProposal { σ with node := n } (cellOf slot P.W) slot ballot value) :=
      ⟨hlasting, rfl, hanchored⟩
    exact hclaimed.trans (hvote.trans (hlasting.announceProposal hnew hwindow))

end Decide

end Procedures

end PaxosOdin
