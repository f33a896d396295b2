import PaxosOdin.Transition.Micro

/-!
# The learner's procedures as small steps

Claiming a cell, releasing contiguous decisions and recording a decision are runs of the
learner's small steps, and such a run leaves the rest of the node alone.

Main results:

- Theorem `recordCommit_run`: recording a decision is a run of the learner.
- Theorem `LearnRun.fixed`: a run of the learner keeps every field of `Fixed`.
- Theorem `LearnRun.bump`: a run of the learner does not depend on `own_next`.
-/

namespace PaxosOdin

variable {V : Type} {P : Params} {I : Input V}

/-! ## What a learner leaves alone -/

/-- The fields that no step of the learner changes. -/
structure Fixed (V : Type) where
  id : Nat
  membership : Membership
  selfIndex : Nat
  votingMember : Bool
  ownership : Bool
  role : Role
  ballot : Nat
  highestObservedRound : Nat
  nextSlot : Nat
  leaderBase : Nat
  memoryFloor : Nat
  noop : Option V
  ownNext : Nat
  election : Nat → ElectionPeer
  promiseSeen : Nat → Finset Nat
  recoverBase : Nat
  recoverLast : Nat
  recovered : Nat → Recovered V
  recoveryReady : Bool
  recoveryMore : Bool
  priority : Fin 256
  anchor : TrimAnchor

/-- The fixed fields of a node. -/
def Node.fixed (n : Node V) : Fixed V where
  id := n.id
  membership := n.membership
  selfIndex := n.selfIndex
  votingMember := n.votingMember
  ownership := n.ownership
  role := n.role
  ballot := n.ballot
  highestObservedRound := n.highestObservedRound
  nextSlot := n.nextSlot
  leaderBase := n.leaderBase
  memoryFloor := n.memoryFloor
  noop := n.noop
  ownNext := n.ownNext
  election := n.election
  promiseSeen := n.promiseSeen
  recoverBase := n.recoverBase
  recoverLast := n.recoverLast
  recovered := n.recovered
  recoveryReady := n.recoveryReady
  recoveryMore := n.recoveryMore
  priority := n.priority
  anchor := n.ledger.anchor

/-- Doing nothing is a run of the learner. -/
theorem LearnRun.refl (σ : St V) : LearnRun P I σ σ :=
  Relation.ReflTransGen.refl

/-- One step is a run of the learner. -/
theorem LearnRun.single {σ σ' : St V} (h : Learn P I σ σ') : LearnRun P I σ σ' :=
  Relation.ReflTransGen.single h

/-- Runs of the learner compose. -/
theorem LearnRun.trans {σ σ' σ'' : St V} (h : LearnRun P I σ σ') (h' : LearnRun P I σ' σ'') :
    LearnRun P I σ σ'' :=
  Relation.ReflTransGen.trans h h'

/-- What every step of the learner keeps, a run keeps. -/
theorem LearnRun.preserves {motive : St V → Prop}
    (hstep : ∀ {σ σ' : St V}, Learn P I σ σ' → motive σ → motive σ') {σ σ' : St V}
    (h : LearnRun P I σ σ') (hσ : motive σ) : motive σ' := by
  induction h with
  | refl => exact hσ
  | tail _ hlast ih => exact hstep hlast ih

/-- A step of the learner keeps every field of `Fixed`. -/
theorem Learn.fixed {σ σ' : St V} (h : Learn P I σ σ') : σ'.node.fixed = σ.node.fixed := by
  cases h <;> rfl

/-- A run of the learner keeps every field of `Fixed`. -/
theorem LearnRun.fixed {σ σ' : St V} (h : LearnRun P I σ σ') :
    σ'.node.fixed = σ.node.fixed :=
  h.preserves (motive := fun τ => τ.node.fixed = σ.node.fixed)
    (fun hstep hτ => hstep.fixed.trans hτ) rfl

/-- A step of the learner keeps the proposals this node drives. -/
theorem Learn.lead {σ σ' : St V} (h : Learn P I σ σ') : σ'.node.lead = σ.node.lead := by
  cases h <;> rfl

/-- A run of the learner keeps the proposals this node drives. -/
theorem LearnRun.lead {σ σ' : St V} (h : LearnRun P I σ σ') : σ'.node.lead = σ.node.lead :=
  h.preserves (motive := fun τ => τ.node.lead = σ.node.lead)
    (fun hstep hτ => hstep.lead.trans hτ) rfl

/-- Moving `pass_through` touches decisions only, so votes stay what they are. -/
theorem Write.rebind_eq_vote {slots : List Nat} {value v : V} {w : Write V} {ballot slot : Nat} :
    w.rebind slots value = .vote ballot slot v ↔ w = .vote ballot slot v := by
  cases w <;> simp [Write.rebind]

/-- A vote that is in the batch stays in it. -/
theorem Learn.vote_mem {σ σ' : St V} (h : Learn P I σ σ') {ballot slot : Nat} {value : V}
    (hw : .vote ballot slot value ∈ σ.effects.writes) :
    .vote ballot slot value ∈ σ'.effects.writes := by
  cases h with
  | note => exact hw
  | claim => exact hw
  | choose => exact List.mem_append_left _ hw
  | pass =>
      refine List.mem_append_left _ (List.mem_map.mpr ⟨_, hw, ?_⟩)
      exact Write.rebind_eq_vote.mpr rfl
  | deliver => exact hw
  | send => exact hw
  | request => exact hw

/-- A vote of the batch stays in the batch. -/
theorem LearnRun.vote_mem {σ σ' : St V} (h : LearnRun P I σ σ') {ballot slot : Nat} {value : V}
    (hw : .vote ballot slot value ∈ σ.effects.writes) :
    .vote ballot slot value ∈ σ'.effects.writes :=
  h.preserves (motive := fun τ => .vote ballot slot value ∈ τ.effects.writes)
    (fun hstep hτ => hstep.vote_mem hτ) hw

/-- A step of the learner does not look at the next slot to propose in. -/
theorem Learn.bump {σ σ' : St V} (h : Learn P I σ σ') (next : Nat) :
    Learn P I (σ.bump next) (σ'.bump next) := by
  have hdecision : ∀ {τ : St V} {slot : Nat} {value : V}, Decision P I τ.node slot value →
      Decision P I (τ.bump next).node slot value := by
    rintro τ slot value (⟨sender, hheard⟩ | ⟨hdrives, hslot, hstate, hvalue⟩ | hacked)
    · exact .heard sender hheard
    · exact .recovered ⟨hdrives.role, hdrives.frozen, hdrives.base, hdrives.last, hdrives.above⟩
        hslot hstate hvalue
    · exact .acked ⟨hacked.lead, hacked.acked, hacked.held, hacked.state, hacked.ballot,
        hacked.value⟩
  cases h with
  | note hseen hresubmit => exact Learn.note (σ := σ.bump next) hseen hresubmit
  | claim hlive hwindow hother hfree =>
      exact Learn.claim (σ := σ.bump next) hlive hwindow hother hfree
  | choose hsource hlive hwindow hheld hopen =>
      exact Learn.choose (σ := σ.bump next) (hdecision hsource) hlive hwindow hheld hopen
  | @pass slot value hsource hnext hmax hlive hclaim hfirst hlast =>
      have hclaim' : (claimLive P (σ.bump next).node slot).2 = none := by
        rw [← hclaim]
        unfold claimLive St.bump
        simp only
        split_ifs <;> rfl
      exact Learn.pass (σ := σ.bump next) (hdecision hsource) hnext hmax hlive hclaim' hfirst
        hlast
  | deliver hmax hheld hchosen => exact Learn.deliver (σ := σ.bump next) hmax hheld hchosen
  | send hsend =>
      refine Learn.send (σ := σ.bump next) fun e he => ?_
      obtain ⟨hsender, hkind⟩ := hsend e he
      refine ⟨hsender, ?_⟩
      cases hm : e.message with
      | commit slot value =>
          rw [hm] at hkind
          exact hkind.imp id fun h => ⟨h.lead, h.acked, h.held, h.state, h.ballot, h.value⟩
      | _ => rw [hm] at hkind; exact hkind
  | request => exact Learn.request (σ := σ.bump next)

/-- A run of the learner does not depend on `own_next`. -/
theorem LearnRun.bump {σ σ' : St V} (h : LearnRun P I σ σ') (next : Nat) :
    LearnRun P I (σ.bump next) (σ'.bump next) := by
  induction h with
  | refl => exact LearnRun.refl _
  | tail _ hlast ih => exact ih.tail (hlast.bump next)

/-! ## Claiming a cell -/

/-- What a successful `claim_live` establishes: the window, and the slot's cell, which was
held already or is freshly opened. -/
structure Claimed (P : Params) (n n' : Node V) (slot cell : Nat) : Prop where
  cell_eq : cell = cellOf slot P.W
  live : n.memoryFloor < slot
  window : slot ≤ n.memoryFloor + P.W
  held : (n'.ledger.cellAt P slot).slot = slot
  cases : n' = n ∨
    (n' = { n with ledger := ledgerOpen n.ledger (cellOf slot P.W) slot } ∧
      (n.ledger.cellAt P slot).slot ≠ slot ∧
      ((n.ledger.cellAt P slot).slot = 0 ∨
        ((n.ledger.cellAt P slot).slot ≤ n.memoryFloor ∧
          (n.ledger.cellAt P slot).state = .chosen)))

/-- An opened cell is empty. -/
@[simp]
theorem ledgerOpen_self (l : Ledger V) (cell slot : Nat) :
    (ledgerOpen l cell slot).cells cell =
      { slot := slot, promisedAt := 0, voteBallot := 0, state := .empty,
        value := (l.cells cell).value } := by
  simp [ledgerOpen]

/-- Opening a cell leaves the other cells alone. -/
theorem ledgerOpen_of_ne (l : Ledger V) {cell other slot : Nat} (h : other ≠ cell) :
    (ledgerOpen l cell slot).cells other = l.cells other := by
  simp [ledgerOpen, Function.update_of_ne h]

/-- What `claim_live` leaves when it finds a cell. -/
theorem claimLive_some {n n' : Node V} {slot cell : Nat}
    (h : claimLive P n slot = (n', some cell)) : Claimed P n n' slot cell := by
  unfold claimLive at h
  simp only at h
  split_ifs at h with hwin hheld hfree
  · cases h
  · obtain ⟨rfl, hcell⟩ := Prod.mk.inj h
    exact ⟨(Option.some.inj hcell).symm, by omega, by omega, hheld, Or.inl rfl⟩
  · obtain ⟨rfl, hcell⟩ := Prod.mk.inj h
    exact ⟨(Option.some.inj hcell).symm, by omega, by omega, by simp [Ledger.cellAt],
      Or.inr ⟨rfl, hheld, hfree⟩⟩
  · cases h

/-- `claim_live` leaves the node alone when it finds no cell. -/
theorem claimLive_none_fst {n n' : Node V} {slot : Nat} (h : claimLive P n slot = (n', none)) :
    n' = n := by
  unfold claimLive at h
  simp only at h
  split_ifs at h <;> cases h <;> rfl

/-- `claim_live` fails exactly outside the window and on a stuck cell. -/
theorem claimLive_none_iff {n : Node V} {slot : Nat} :
    (claimLive P n slot).2 = none ↔
      slot ≤ n.memoryFloor ∨ n.memoryFloor + P.W < slot ∨ Stuck P n slot := by
  unfold claimLive Stuck
  simp only
  split_ifs with hwin hheld hfree
  · simp only [true_iff]
    rcases hwin with hlow | hhigh
    · exact Or.inl hlow
    · exact Or.inr (Or.inl (by omega))
  · simp only [false_iff]
    rintro (h | h | ⟨-, h, -⟩)
    · omega
    · omega
    · exact h hheld
  · simp only [false_iff]
    rintro (h | h | ⟨-, -, h0, h⟩)
    · omega
    · omega
    · rcases hfree with hzero | hrel
      · exact h0 hzero
      · exact h hrel
  · simp only [true_iff]
    exact Or.inr (Or.inr ⟨by omega, hheld, fun h0 => hfree (Or.inl h0),
      fun hrel => hfree (Or.inr hrel)⟩)

/-- A claim changes nothing but the ledger. -/
theorem Claimed.ledger_only {n n' : Node V} {slot cell : Nat} (h : Claimed P n n' slot cell) :
    n' = { n with ledger := n'.ledger } := by
  rcases h.cases with rfl | ⟨heq, -⟩
  · rfl
  · rw [heq]

/-- A claim keeps every field of `Fixed`. -/
theorem Claimed.fixed {n n' : Node V} {slot cell : Nat} (h : Claimed P n n' slot cell) :
    n'.fixed = n.fixed := by
  rcases h.cases with rfl | ⟨rfl, -⟩ <;> rfl

/-- Claiming a cell is a step of the learner. -/
theorem Claimed.run {σ : St V} {n' : Node V} {slot cell : Nat}
    (h : Claimed P σ.node n' slot cell) : LearnRun P I σ { σ with node := n' } := by
  rcases h.cases with rfl | ⟨rfl, hother, hfree⟩
  · exact LearnRun.refl σ
  · exact LearnRun.single (Learn.claim h.live h.window hother hfree)

/-! ## Releasing and recording decisions -/

/-- Every round of `emit_contiguous` releases one decided entry. -/
theorem emitContiguousLoop_run (fuel : Nat) (σ : St V) :
    LearnRun P I σ (emitContiguousLoop P fuel σ) := by
  induction fuel generalizing σ with
  | zero => exact LearnRun.refl σ
  | succ fuel ih =>
      unfold emitContiguousLoop
      simp only
      split_ifs with hmax hstop
      · exact LearnRun.refl σ
      · rw [not_or, not_not, not_not] at hstop
        exact (LearnRun.single (Learn.deliver hmax hstop.1 hstop.2)).trans (ih _)
      · exact LearnRun.refl σ

/-- Releasing the contiguous decisions is a run of the learner. -/
theorem emitContiguous_run (σ : St V) : LearnRun P I σ (emitContiguous P σ) :=
  emitContiguousLoop_run P.W σ

/-- A reason to take a value for decided depends only on the fixed fields, the lead and the
slot's cell. -/
theorem Decision.congr {n n' : Node V} {slot : Nat} {value : V}
    (h : Decision P I n slot value) (hfixed : n'.fixed = n.fixed) (hlead : n'.lead = n.lead)
    (hcell : QuorumAcked P n slot value → n'.ledger.cellAt P slot = n.ledger.cellAt P slot) :
    Decision P I n' slot value := by
  have hid := congrArg Fixed.id hfixed
  have hmem := congrArg Fixed.membership hfixed
  have hrole := congrArg Fixed.role hfixed
  have helection := congrArg Fixed.election hfixed
  have hbase := congrArg Fixed.recoverBase hfixed
  have hlast := congrArg Fixed.recoverLast hfixed
  have hrec := congrArg Fixed.recovered hfixed
  have hready := congrArg Fixed.recoveryReady hfixed
  have hanchor := congrArg Fixed.anchor hfixed
  simp only [Node.fixed] at hid hmem hrole helection hbase hlast hrec hready hanchor
  rcases h with ⟨sender, hheard⟩ | ⟨hdrives, hslot, hstate, hvalue⟩ | hacked
  · exact .heard sender (by rw [Input.Hears, hid]; exact hheard)
  · refine .recovered ⟨hrole.trans hdrives.role, hready.trans hdrives.frozen, ?_, ?_, ?_⟩ ?_ ?_ ?_
    · rw [hbase]; exact hdrives.base
    · rw [hlast]; exact hdrives.last
    · unfold AboveReports
      rw [hmem, helection, hanchor]
      exact hdrives.above
    · rw [hrec, hbase]; exact hslot
    · rw [hrec, hbase]; exact hstate
    · rw [hrec, hbase]; exact hvalue
  · have hc := hcell hacked
    refine .acked ⟨?_, ?_, ?_, ?_, ?_, ?_⟩
    · rw [hlead]; exact hacked.lead
    · rw [hlead, hmem]; exact hacked.acked
    · rw [hc]; exact hacked.held
    · rw [hc]; exact hacked.state
    · rw [hc, hlead]; exact hacked.ballot
    · rw [hc]; exact hacked.value

/-- Putting an overwritten suggestion into the queue is a step of the learner. -/
theorem queueResubmit_run {σ : St V} {value : V} (h : OwnSuggestion σ.node value) :
    LearnRun P I σ { σ with node := queueResubmit P σ.node value } := by
  unfold queueResubmit
  split_ifs
  · refine LearnRun.single (Learn.note (σ := σ) le_rfl fun v hv => ?_)
    rcases List.mem_append.mp hv with hv | hv
    · exact Or.inl hv
    · rw [List.mem_singleton.mp hv]
      exact Or.inr h
  · exact LearnRun.single (Learn.note (σ := σ) le_rfl fun v hv => Or.inl hv)

/-- What an owner queues before its cell changes is its own suggestion. -/
theorem requeue_run {σ : St V} {value : V} (requeue : Prop) [Decidable requeue]
    (hown : requeue → OwnSuggestion σ.node value) :
    LearnRun P I σ
      { σ with node := if requeue then queueResubmit P σ.node value else σ.node } := by
  split_ifs with h
  · exact queueResubmit_run (hown h)
  · exact LearnRun.refl σ

/-- The queue of resubmissions is no part of the ledger. -/
theorem requeue_ledger (n : Node V) (value : V) (requeue : Prop) [Decidable requeue] :
    (if requeue then queueResubmit P n value else n).ledger = n.ledger := by
  unfold queueResubmit
  split_ifs <;> rfl

/-- A decision recorded in its claimed cell. -/
theorem choose_run {σ : St V} {n' : Node V} {slot : Nat} {value : V}
    (hrun : LearnRun P I σ { σ with node := n' }) (hledger : n'.ledger = σ.node.ledger)
    (hsource : Decision P I σ.node slot value) (hlive : σ.node.memoryFloor < slot)
    (hwindow : slot ≤ σ.node.memoryFloor + P.W)
    (hheld : (σ.node.ledger.cellAt P slot).slot = slot)
    (hopen : (σ.node.ledger.cellAt P slot).state ≠ .chosen) :
    LearnRun P I σ
      (St.addWrite
        { σ with node :=
          { n' with ledger := ledgerRecordChosen n'.ledger (cellOf slot P.W) value } }
        (.chosen slot value)) := by
  have hfixed : n'.fixed = σ.node.fixed := hrun.fixed
  have hfloor : n'.memoryFloor = σ.node.memoryFloor := congrArg Fixed.memoryFloor hfixed
  refine hrun.trans (LearnRun.single (Learn.choose (σ := { σ with node := n' })
    (hsource.congr hfixed hrun.lead fun _ => by simp only [hledger]) ?_ ?_ ?_ ?_))
  · rw [hfloor]; exact hlive
  · rw [hfloor]; exact hwindow
  · rw [hledger]; exact hheld
  · rw [hledger]; exact hopen

variable [DecidableEq V]

/-- Recording a decision is a run of the learner. -/
theorem recordCommit_run {σ : St V} {slot : Nat} {value : V}
    (hsource : Decision P I σ.node slot value)
    (hfirst : σ.effects.committed = [] ∨ slot ≤ σ.node.memoryFloor + P.W) :
    LearnRun P I σ (recordCommit P σ slot value).1 := by
  unfold recordCommit
  by_cases hzero : slot = 0
  · rw [if_pos hzero]
    exact LearnRun.refl σ
  rw [if_neg hzero]
  -- the node after `highest_seen` was raised
  set n₁ : Node V := { σ.node with highestSeen := max σ.node.highestSeen slot }
  have hseen : LearnRun P I σ { σ with node := n₁ } :=
    LearnRun.single (Learn.note (σ := σ) (le_max_left _ _) fun v hv => Or.inl hv)
  have hsource₁ : Decision P I n₁ slot value :=
    hsource.congr rfl rfl fun _ => rfl
  dsimp only
  by_cases hlow : slot ≤ σ.node.memoryFloor ∨ slot ≤ σ.node.ledger.anchor.chosenTrimSlot
  · rw [if_pos hlow]
    exact hseen
  rw [if_neg hlow]
  rcases hclaim : claimLive P n₁ slot with ⟨n₂, _ | cell⟩
  · dsimp only
    split_ifs with hreleased hnext
    · exact hseen
    · have hnext' : slot = n₁.deliveredThrough + 1 ∧ n₁.deliveredThrough ≠ maxSlot := by
        unfold slotSucc at hnext
        split_ifs at hnext with hmax
        · exact absurd hnext hzero
        · exact ⟨hnext, hmax⟩
      refine hseen.trans (LearnRun.trans (LearnRun.single (Learn.pass (σ := { σ with node := n₁ })
        hsource₁ hnext'.1 hnext'.2 ?_ ?_ hfirst ?_)) (emitContiguous_run _))
      · exact Nat.lt_of_not_le fun hle => hlow (Or.inl hle)
      · rw [hclaim]
      · exact Bool.eq_false_iff.mpr hreleased
    · exact hseen
  · have hc := claimLive_some hclaim
    have hcell := hc.cell_eq
    subst hcell
    have hclaimed : LearnRun P I σ { σ with node := n₂ } :=
      hseen.trans (Claimed.run (σ := { σ with node := n₁ }) hc)
    have hsource₂ : Decision P I n₂ slot value := by
      refine hsource₁.congr hc.fixed ?_ fun hacked => ?_
      · rcases hc.cases with rfl | ⟨rfl, -⟩ <;> rfl
      · rcases hc.cases with rfl | ⟨-, hother, -⟩
        · rfl
        · exact absurd hacked.held hother
    have hfloor : n₂.memoryFloor = n₁.memoryFloor := congrArg Fixed.memoryFloor hc.fixed
    dsimp only
    by_cases hchosen : (n₂.ledger.cells (cellOf slot P.W)).state = .chosen
    · rw [if_pos hchosen]
      split_ifs
      · exact hclaimed
      · exact hclaimed.trans (emitContiguous_run _)
    · rw [if_neg hchosen]
      refine hclaimed.trans (LearnRun.trans ?_ (emitContiguous_run _))
      refine choose_run (σ := { σ with node := n₂ }) ?_ ?_ hsource₂ ?_ ?_ hc.held hchosen
      · exact requeue_run (σ := { σ with node := n₂ }) _ fun h => ⟨_, h.2.1, h.2.2.1, rfl⟩
      · exact requeue_ledger _ _ _
      · show n₂.memoryFloor < slot
        rw [hfloor]; exact hc.live
      · show slot ≤ n₂.memoryFloor + P.W
        rw [hfloor]; exact hc.window

end PaxosOdin
