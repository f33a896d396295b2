import PaxosOdin.Acceptor.Restart
import PaxosOdin.Transition.Calls

/-!
# The lifetime of a node

One incarnation of a participant: how it begins, and the operations its host performs on it, one
after the other.  Nothing is assumed about the messages and the arguments.

Main results:

- Theorem `Begins.opened`: a node is opened with its frontiers in order.
- Theorem `operate_opened`: every operation keeps them in order.
- Theorem `operate_cases`: an operation takes small steps, or moves a frontier.
-/

namespace PaxosOdin

variable {V : Type}

/-- Everything a host may ask of a participant. -/
inductive Operation (V : Type) where
  | call (c : Call V)
  | step (e : Envelope V)
  | learnChosen (sender slot : Nat) (value : V)
  | installTrim (anchor : TrimAnchor)
  | advanceFloor (through : Nat)
  | setCampaignEnabled (enabled : Bool)

/-- What an operation gives to the node. -/
def Operation.input (n : Node V) : Operation V → Input V
  | .call c => c.input
  | .step e => e.input
  | .learnChosen sender slot value => learnInput n sender slot value
  | _ => {}

/-- The slot numbers of a ledger are 64-bit words. -/
structure Ledger.Words (l : Ledger V) : Prop where
  slots : ∀ cell, (l.cells cell).slot ≤ maxSlot
  anchor : l.anchor.chosenTrimSlot ≤ maxSlot

section Lifetime

variable [DecidableEq V] {P : Params}

/-- The node and the effects after one operation. -/
def operate (P : Params) (n : Node V) : Operation V → St V
  | .call c => runCall P n c
  | .step e => (nodeStep P n e).1
  | .learnChosen sender slot value => (nodeLearnChosen P n sender slot value).1
  | .installTrim anchor => (nodeInstallChosenTrim n anchor).1
  | .advanceFloor through => St.start (nodeAdvanceMemoryFloor n through).1
  | .setCampaignEnabled enabled => St.start (nodeSetCampaignEnabled n enabled)

/-- The node after a sequence of operations. -/
def operateAll (P : Params) (n : Node V) (ops : List (Operation V)) : Node V :=
  ops.foldl (fun n op => (operate P n op).node) n

/-- The batches of a sequence of operations. -/
def batches (P : Params) : Node V → List (Operation V) → List (Effects V)
  | _, [] => []
  | n, op :: ops => (operate P n op).effects :: batches P (operate P n op).node ops

/-- The ways an incarnation begins, with the slot it resumes at. -/
inductive Begins [Inhabited V] (P : Params) : Node V → Nat → Prop
  | init {id : Nat} {membership : Membership} {options : NodeOptions} {n : Node V}
      (hm : membership.Valid) (h : nodeInit id membership options = .ok n) : Begins P n 0
  | restore {id floor : Nat} {membership : Membership} {ledger : Ledger V} {options : NodeOptions}
      {n : Node V} (hm : membership.Valid) (hfloor : floor ≤ maxSlot) (hwords : ledger.Words)
      (h : nodeRestore P id membership ledger floor options = .ok n) :
      Begins P n (max floor ledger.anchor.chosenTrimSlot)
  | continueAt {id floor : Nat} {membership : Membership} {anchor : TrimAnchor}
      {options : NodeOptions} {n : Node V} (hm : membership.Valid) (hfloor : floor ≤ maxSlot)
      (h : nodeContinueAt P id membership floor anchor options = .ok n) : Begins P n floor
  | recover {n n' : Node V} {base : Nat} {ops : List (Operation V)} {anchor : TrimAnchor}
      (hn : Begins P n base) (hwords : (operateAll P n ops).ledger.Words)
      (hanchor : anchor.chosenTrimSlot ≤ maxSlot)
      (h : nodeBeginRecovery P (operateAll P n ops) anchor = .ok n') :
      Begins P n' anchor.chosenTrimSlot

/-! ## The frontiers of every node -/

theorem Membership.Valid.small {m : Membership} (hm : m.Valid) : m.members.length ≤ maxSlot := by
  have hsub : m.members ⊆ List.range (2 ^ 16) := fun id hid =>
    List.mem_range.mpr (hm.ids_lt id hid)
  have hle := (hm.nodup.subperm hsub).length_le
  rw [List.length_range] at hle
  unfold maxSlot
  omega

omit [DecidableEq V] in
/-- A node whose window is resumed has its frontiers in order. -/
theorem nodeResumeAt_opened {n : Node V} {base : Nat} (hrole : n.role = .follower)
    (hmember : n.votingMember = true → n.membership.members[n.selfIndex]? = some n.id)
    (hsmall : n.membership.members.length ≤ maxSlot) (hslots : ∀ cell, (n.ledger.cells cell).slot ≤ maxSlot)
    (hbase : base ≤ maxSlot) : Opened P (nodeResumeAt P n base) := by
  have hclear := clearOpenCells_cells (P := P) base n.ledger
  have hhigh : ledgerHighestUsed P (clearOpenCells P n.ledger base) ≤ maxSlot := by
    refine (ledgerHighestUsed_bounds _).2 maxSlot fun i _ _ => ?_
    rw [hclear.cells]
    split_ifs
    · exact Nat.zero_le _
    · exact hslots i
  have hnext := slotAdd_le_maxSlot 1 (max_le hhigh hbase)
  unfold nodeResumeAt
  dsimp only
  split_ifs with hv
  · have hself : n.selfIndex < n.membership.members.length :=
      (List.getElem?_eq_some_iff.mp (hmember hv)).1
    refine ⟨hmember, hsmall, fun _ _ => ?_, fun hr => ?_, fun hr => ?_, le_rfl, hbase⟩
    · exact (ownSlotFrom_spec _ hself hsmall hnext).1
    · exact absurd (hrole.symm.trans hr) (by decide)
    · exact absurd (hrole.symm.trans hr) (by decide)
  · refine ⟨fun h => absurd h hv, hsmall, fun h => absurd h hv, fun hr => ?_, fun hr => ?_, le_rfl,
      hbase⟩
    · exact absurd (hrole.symm.trans hr) (by decide)
    · exact absurd (hrole.symm.trans hr) (by decide)

omit [DecidableEq V] in
/-- A node that was just initialized knows its place, and its frontiers are in order. -/
theorem nodeInit_opened [Inhabited V] {id : Nat} {membership : Membership} {options : NodeOptions}
    {n : Node V} (hm : membership.Valid) (h : nodeInit id membership options = .ok n) :
    Opened P n ∧ n.role = .follower ∧ n.ledger = Ledger.empty ∧ n.votingMember = true := by
  have hopened := (nodeInit_sound hm hm.small h : Sound P 0 n [] ∧ Opened P n).2
  unfold nodeInit at h
  cases hindex : membershipIndexOf membership id with
  | none =>
      rw [hindex] at h
      cases h
  | some selfIndex =>
      rw [hindex] at h
      cases h
      exact ⟨hopened, rfl, rfl, rfl⟩

omit [DecidableEq V] in
/-- A trim that is adopted keeps the frontiers in order. -/
theorem nodeInstallChosenTrim_opened {n : Node V} {anchor : TrimAnchor} (ho : Opened P n) :
    Opened P (nodeInstallChosenTrim n anchor).1.node := by
  unfold nodeInstallChosenTrim
  dsimp only
  split
  · exact ho
  split
  · exact ho
  split
  · exact ho
  split
  · exact ho
  split
  · exact ⟨ho.member, ho.small, ho.aligned, ho.term, ho.chunk, min_le_right _ _, ho.last⟩
  · exact ⟨ho.member, ho.small, ho.aligned, ho.term, ho.chunk, ho.floor, ho.last⟩

/-- A transition keeps the constant fields of its node. -/
theorem Completes.static {I : Input V} {n₀ : Node V} {σ σ' : St V} (h : Completes P I n₀ σ σ') :
    σ'.node.static = σ.node.static := by
  obtain ⟨τ, hrun, hlast⟩ := h
  rcases hlast with rfl | hfinal
  · exact hrun.static
  · exact hfinal.static.trans hrun.static

theorem Completes.opened {I : Input V} {n₀ : Node V} {σ σ' : St V} (h : Completes P I n₀ σ σ')
    (ho : Opened P σ.node) : Opened P σ'.node := by
  obtain ⟨τ, hrun, hlast⟩ := h
  have hτ : Opened P τ.node := hrun.opened ho
  rcases hlast with rfl | hfinal
  · exact hτ
  · exact hfinal.opened hτ

/-- An operation takes small steps, or only moves a frontier of the host. -/
theorem operate_cases {n : Node V} (ho : Opened P n) (op : Operation V) :
    Completes P (op.input n) n (St.start n) (operate P n op) ∨
      (∃ anchor, op = .installTrim anchor) ∨ (∃ through, op = .advanceFloor through) ∨
        ∃ enabled, op = .setCampaignEnabled enabled := by
  cases op with
  | call c => exact Or.inl (runCall_completes ho c)
  | step e => exact Or.inl (nodeStep_completes ho rfl (Or.inl rfl))
  | learnChosen sender slot value => exact Or.inl (nodeLearnChosen_completes rfl)
  | installTrim anchor => exact Or.inr (Or.inl ⟨anchor, rfl⟩)
  | advanceFloor through => exact Or.inr (Or.inr (Or.inl ⟨through, rfl⟩))
  | setCampaignEnabled enabled => exact Or.inr (Or.inr (Or.inr ⟨enabled, rfl⟩))

/-- Every operation keeps the frontiers in order. -/
theorem operate_opened {n : Node V} (ho : Opened P n) (op : Operation V) :
    Opened P (operate P n op).node := by
  rcases operate_cases ho op with h | ⟨anchor, rfl⟩ | ⟨through, rfl⟩ | ⟨enabled, rfl⟩
  · exact h.opened ho
  · exact nodeInstallChosenTrim_opened ho
  · exact ho.advanceFloor through
  · exact ho.setCampaignEnabled enabled

theorem operateAll_opened {n : Node V} (ho : Opened P n) (ops : List (Operation V)) :
    Opened P (operateAll P n ops) := by
  induction ops generalizing n with
  | nil => exact ho
  | cons op ops ih => exact ih (operate_opened ho op)

/-- A trim record leaves every cell as it was. -/
theorem ledgerApply_trim_cells {l l' : Ledger V} {anchor : TrimAnchor} {e : Error}
    (h : ledgerApply P l (.trim anchor) = (l', e)) : l'.cells = l.cells := by
  unfold ledgerApply at h
  dsimp only at h
  split_ifs at h <;> cases h <;> rfl

/-- A node is opened with its frontiers in order, at the slot it resumes at. -/
theorem Begins.opened [Inhabited V] {n : Node V} {base : Nat} (h : Begins P n base) :
    Opened P n ∧ n.deliveredThrough = base ∧ n.memoryFloor = base := by
  have hresume : ∀ (n : Node V) (base : Nat), (nodeResumeAt P n base).deliveredThrough = base ∧
      (nodeResumeAt P n base).memoryFloor = base := by
    intro n base
    unfold nodeResumeAt
    dsimp only
    split_ifs <;> exact ⟨rfl, rfl⟩
  induction h with
  | init hm h =>
      obtain ⟨hopened, -⟩ := nodeInit_opened hm h
      unfold nodeInit at h
      split at h
      · cases h
      · cases h
        exact ⟨hopened, rfl, rfl⟩
  | restore hm hfloor hwords h =>
      unfold nodeRestore at h
      split at h
      · cases h
      · next n₀ hinit =>
          cases h
          obtain ⟨hopened, hrole, -⟩ := nodeInit_opened (P := P) hm hinit
          exact ⟨nodeResumeAt_opened hrole hopened.member hopened.small hwords.slots
            (max_le hfloor hwords.anchor), hresume _ _⟩
  | continueAt hm hfloor h =>
      unfold nodeContinueAt at h
      split_ifs at h with hanchor
      split at h
      · cases h
      · next n₀ hinit =>
          cases h
          obtain ⟨hopened, hrole, hledger, -⟩ := nodeInit_opened (P := P) hm hinit
          refine ⟨nodeResumeAt_opened hrole hopened.member hopened.small (fun cell => ?_) hfloor,
            hresume _ _⟩
          simp [hledger, Ledger.empty]
  | @recover n n' base ops anchor _ hwords hanchor h ih =>
      have hopened := operateAll_opened ih.1 ops
      unfold nodeBeginRecovery at h
      split at h
      · next l hl =>
          cases h
          have hcells := ledgerApply_trim_cells hl
          refine ⟨nodeResumeAt_opened rfl hopened.member hopened.small (fun cell => ?_) hanchor,
            hresume _ _⟩
          show (l.cells cell).slot ≤ maxSlot
          rw [hcells]
          exact hwords.slots cell
      · cases h

end Lifetime

/-! ## A small configuration -/

/-- Three members, a window of two slots and chunks of one. -/
def trioParams : Params where
  M := 3
  W := 2
  C := 1
  members_pos := by decide
  members_le := by decide
  window_pow := ⟨1, rfl⟩
  chunk_pos := by decide
  chunk_le := by decide

/-- The same with a window of four slots and chunks of four. -/
def quadParams : Params :=
  { trioParams with
    W := 4
    C := 4
    window_pow := ⟨2, rfl⟩
    chunk_pos := by decide
    chunk_le := by decide }

/-- Three members with majority quorums. -/
def trio : Membership := ⟨[1, 2, 3], 2, 2⟩

theorem trio_valid : trio.Valid := by
  constructor <;> decide

/-- The first member of the trio, just initialized. -/
def trioNode [Inhabited V] (options : NodeOptions) : Node V :=
  { initialNode 1 0 trio options with ownNext := 1 }

theorem trioNode_init [Inhabited V] (options : NodeOptions) :
    nodeInit (V := V) 1 trio options = .ok (trioNode options) :=
  rfl

end PaxosOdin
