import PaxosOdin.Lifetime.CatchUp
import PaxosOdin.Transition.Probing

/-!
# Batches of suggestions

An owner that is asked for a batch probes for its slots first, and refuses the batch unless there is
one for every value.  The probe keeps what the doc comment of `own_slot_probe` promises, except for
one kind of slot: a decision that was released through `pass_through` has no cell, and once the
memory floor makes room for one the probe takes the slot for a free one.

Main definitions:

- Definition `Outlived`: a cell that has not forgotten a slot, or has moved on to a later one.
- Definition `Leads`: what the proposer's records say about the cells they belong to.
- Definition `Continues`: a node, with everything it did since an earlier state.

Main results:

- Theorem `Micro.leads`: small steps keep the records of the proposer.
- Theorem `Continues.spent`: no slot that was suggested in is suggested in again.
- Theorem `ownership_batch_iff`: batches are all-or-nothing, and take no decided slot exactly when
  no slot that was released without a cell fits.
- Theorem `ownership_batch_released`: a batch that takes a slot the owner has released.
-/

namespace PaxosOdin

variable {V : Type} {P : Params} {I : Input V}

/-! ## Cells that remember -/

/-- The cell has moved on to a later slot, or still holds a vote in `slot`, promised to `ballot`. -/
def Outlived (c : Cell V) (slot ballot : Nat) : Prop :=
  slot < c.slot ∨ (c.slot = slot ∧ c.state ≠ .empty ∧ ballot ≤ c.promisedAt)

/-- A cell never goes back to an earlier slot. -/
theorem CellStep.outlived {floor i slot ballot : Nat} {c c' : Cell V} (h : CellStep P floor i c c')
    (hslot : slot ≠ 0) (hc : Outlived c slot ballot) : Outlived c' slot ballot := by
  rcases h with heq | ⟨opened, -, hlive, -, -, hfree, heq⟩ | ⟨-, -, -, hs, hp, -, hstate⟩
  · rw [heq]
    exact hc
  · refine Or.inl ?_
    rw [heq]
    rcases hc with hlater | ⟨hheld, -, -⟩
    · rcases hfree with hzero | ⟨hle, -⟩
      · omega
      · show slot < opened
        omega
    · rcases hfree with hzero | ⟨hle, -⟩
      · omega
      · show slot < opened
        omega
  · rcases hc with hlater | ⟨hheld, hused, hpromised⟩
    · exact Or.inl (hs.symm ▸ hlater)
    · exact Or.inr ⟨hs.trans hheld, fun hempty => hused (hstate hempty), hpromised.trans hp⟩

/-- A slot that this node has suggested in: a state image covers it, its cell has moved on to a later
slot, or its cell still holds it and `own_next` is past it. -/
def Spent (P : Params) (n : Node V) (slot : Nat) : Prop :=
  (slot ≤ n.memoryFloor ∧ slot ≤ n.ledger.anchor.chosenTrimSlot) ∨
    (Outlived (n.ledger.cellAt P slot) slot 0 ∧ slot < n.ownNext) ∨
      slot < (n.ledger.cellAt P slot).slot

/-- A spent slot takes no suggestion. -/
theorem Spent.not_suggestible {n : Node V} {slot : Nat} (h : Spent P n slot)
    (hnext : n.ownNext ≤ slot) : ¬ Suggestible P n slot := by
  intro hs
  have hlive := hs.live
  rcases h with ⟨hlow, -⟩ | ⟨-, hlt⟩ | hlater
  · omega
  · omega
  · have hclaims := hs.claims
    rw [Ne, claimLive_none_iff, not_or, not_or] at hclaims
    exact hclaims.2.2 ⟨hs.window, by omega, by omega, fun hfree => by omega⟩

/-! ## The records of a proposer -/

/-- What the record of a driven slot says about its cell. -/
structure Led (P : Params) (n : Node V) (cell : Nat) : Prop where
  place : cellOf (n.lead cell).slot P.W = cell
  pos : (n.lead cell).slot ≠ 0
  outlived : Outlived (n.ledger.cells cell) (n.lead cell).slot (n.lead cell).ballot
  origin : 0 < ballotRound (n.lead cell).ballot ∨
    ((n.lead cell).ballot = ownershipBallot n.id ∧ (n.lead cell).slot < n.ownNext)

/-- A record that was never made. -/
def Idle (n : Node V) (cell : Nat) : Prop :=
  (n.lead cell).slot = 0 ∧ (n.lead cell).ballot = 0

/-- The records of a proposer: a campaign has a round of its own, and every record belongs to a cell
that this node voted in. -/
structure Leads (P : Params) (n : Node V) : Prop where
  driving : n.role ≠ .follower → 0 < ballotRound n.ballot
  led : ∀ cell, Idle n cell ∨ Led P n cell

/-- Fresh records. -/
theorem Leads.fresh {n : Node V} (hrole : n.role = .follower) (hlead : ∀ cell, n.lead cell = {}) :
    Leads P n := by
  refine ⟨fun h => absurd hrole h, fun cell => Or.inl ?_⟩
  unfold Idle
  rw [hlead]
  exact ⟨rfl, rfl⟩

/-- No slot that a suggestion could take from `own_next` on is recorded. -/
theorem Leads.unled {n : Node V} (h : Leads P n) (hid : n.id < 2 ^ 16) : Unled P n := by
  intro slot hnext hs hlead hheld _
  have hlive := hs.live
  rcases h.led (cellOf slot P.W) with ⟨hidle, -⟩ | hled
  · omega
  · have hpromised := hs.promised
    unfold governing at hpromised
    rw [if_pos hheld] at hpromised
    have hballot : (n.lead (cellOf slot P.W)).ballot ≤ ownershipBallot n.id := by
      rcases hled.outlived with hlater | ⟨-, -, hle⟩
      · rw [hlead] at hlater
        simp only [Ledger.cellAt] at hheld
        omega
      · exact hle.trans ((le_max_right _ _).trans hpromised)
    rcases hled.origin with hround | ⟨-, hlt⟩
    · have hmono := ballotRound_mono hballot
      rw [ballotRound_ownership hid] at hmono
      omega
    · omega

section Steps

variable [DecidableEq V]

/-- `own_next` never goes back in a transition. -/
theorem Micro.ownNext_mono {σ σ' : St V} (h : Micro P I σ σ') :
    σ.node.ownNext ≤ σ'.node.ownNext := by
  cases h with
  | learn h => exact (congrArg Fixed.ownNext h.fixed).ge
  | idle _ _ _ _ hown =>
      rcases hown with rfl | ⟨hle, -⟩
      · exact le_rfl
      · exact hle
  | own _ _ _ hbeyond hnext => exact hbeyond.trans hnext.le
  | report =>
      show _ ≤ (recordReport _ _ _ _ _ _ _).1.ownNext
      unfold recordReport
      dsimp only
      split_ifs <;> exact le_rfl
  | _ => exact le_rfl

/-- A small step keeps a spent slot spent. -/
theorem Micro.spent {σ σ' : St V} (h : Micro P I σ σ') {slot : Nat} (hslot : slot ≠ 0)
    (hs : Spent P σ.node slot) : Spent P σ'.node slot := by
  have hnext := h.ownNext_mono
  have hcell := h.cell (cellOf slot P.W)
  rcases hs with ⟨hlow, htrim⟩ | ⟨hout, hlt⟩ | hlater
  · refine Or.inl ⟨?_, ?_⟩
    · rw [memoryFloor_of_static h.static]
      exact hlow
    · have hanchor : σ'.node.ledger.anchor = σ.node.ledger.anchor :=
        congrArg Static.anchor h.static
      rw [hanchor]
      exact htrim
  · exact Or.inr (Or.inl ⟨hcell.outlived hslot hout, by omega⟩)
  · have hout : Outlived (σ.node.ledger.cellAt P slot) slot 0 := Or.inl hlater
    refine Or.inr (Or.inr ?_)
    rcases hcell with heq | ⟨opened, -, hlive, -, -, hfree, heq⟩ | ⟨-, -, -, hs, -, -, -⟩
    · rw [Ledger.cellAt, heq]
      exact hlater
    · rw [Ledger.cellAt, heq]
      simp only [Ledger.cellAt] at hlater
      show slot < opened
      omega
    · rw [Ledger.cellAt, hs]
      exact hlater

/-- A record that stays as it is goes on describing its cell. -/
theorem Led.step {σ σ' : St V} (h : Micro P I σ σ') {cell : Nat} (hled : Led P σ.node cell)
    (hslot : (σ'.node.lead cell).slot = (σ.node.lead cell).slot)
    (hballot : (σ'.node.lead cell).ballot = (σ.node.lead cell).ballot) : Led P σ'.node cell := by
  have hnext := h.ownNext_mono
  have hid : σ'.node.id = σ.node.id := congrArg Static.id h.static
  refine ⟨?_, ?_, ?_, ?_⟩
  · rw [hslot]
    exact hled.place
  · rw [hslot]
    exact hled.pos
  · rw [hslot, hballot]
    exact (h.cell cell).outlived hled.pos hled.outlived
  · rw [hslot, hballot, hid]
    rcases hled.origin with hround | ⟨hmine, hlt⟩
    · exact Or.inl hround
    · exact Or.inr ⟨hmine, by omega⟩

omit [DecidableEq V] in
/-- A vote for a proposal is recorded for the cell that holds it. -/
theorem voteForProposal_outlived {σ : St V} {slot ballot : Nat} {value : V}
    (hheld : (σ.node.ledger.cellAt P slot).slot = slot) :
    Outlived ((voteForProposal σ (cellOf slot P.W) slot ballot value).node.ledger.cellAt P slot)
      slot ballot := by
  refine Or.inr ?_
  simp only [voteForProposal, St.addWrite, Ledger.cellAt, ledgerVote_cells, if_pos]
  exact ⟨hheld, by decide, le_max_right _ _⟩

/-- The records after a small step. -/
theorem Micro.leads {σ σ' : St V} (h : Micro P I σ σ') (hl : Leads P σ.node) :
    Leads P σ'.node := by
  have hkeep : ∀ cell, (σ'.node.lead cell).slot = (σ.node.lead cell).slot →
      (σ'.node.lead cell).ballot = (σ.node.lead cell).ballot →
        Idle σ'.node cell ∨ Led P σ'.node cell := by
    intro cell hslot hballot
    rcases hl.led cell with ⟨hslot₀, hballot₀⟩ | hled
    · exact Or.inl ⟨hslot.trans hslot₀, hballot.trans hballot₀⟩
    · exact Or.inr (hled.step h hslot hballot)
  have hsame : σ'.node.lead = σ.node.lead → ∀ cell, Idle σ'.node cell ∨ Led P σ'.node cell := by
    intro heq cell
    exact hkeep cell (by rw [heq]) (by rw [heq])
  cases h with
  | learn h =>
      have hballot : σ'.node.ballot = σ.node.ballot := congrArg Fixed.ballot h.fixed
      have hrole : σ'.node.role = σ.node.role := congrArg Fixed.role h.fixed
      refine ⟨fun hr => ?_, hsame h.lead⟩
      rw [hballot]
      exact hl.driving (by rw [← hrole]; exact hr)
  | idle hrole =>
      refine ⟨fun hr => ?_, hsame rfl⟩
      rcases hrole with rfl | rfl
      · exact hl.driving hr
      · exact absurd rfl hr
  | @drive slot ballot value hballot hsource hlive hwindow hheld =>
      refine ⟨hl.driving, fun cell => ?_⟩
      by_cases hcell : cell = cellOf slot P.W
      · subst hcell
        have hround : 0 < ballotRound ballot := by
          rw [hballot]
          refine hl.driving ?_
          cases hsource with
          | drive hdrives =>
              rw [hdrives.role]
              simp
          | lead hrole =>
              rw [hrole]
              simp
        have hlead : (voteForProposal σ (cellOf slot P.W) slot ballot value).node.lead
            (cellOf slot P.W) = ⟨slot, ballot, {σ.node.selfIndex}, 1⟩ := by
          simp [voteForProposal, St.addWrite]
        refine Or.inr ⟨?_, ?_, ?_, ?_⟩ <;> rw [hlead]
        · show slot ≠ 0
          omega
        · exact voteForProposal_outlived hheld
        · exact Or.inl hround
      · apply hkeep cell <;> simp [voteForProposal, St.addWrite, hcell]
  | @own slot next value hmode hvalue hmine hbeyond hnext haligned hlive hwindow hheld =>
      refine ⟨hl.driving, fun cell => ?_⟩
      by_cases hcell : cell = cellOf slot P.W
      · subst hcell
        have hlead : ((voteForProposal σ (cellOf slot P.W) slot (ownershipBallot σ.node.id)
            value).bump next).node.lead (cellOf slot P.W) =
              ⟨slot, ownershipBallot σ.node.id, {σ.node.selfIndex}, 1⟩ := by
          simp [voteForProposal, St.addWrite, St.bump]
        refine Or.inr ⟨?_, ?_, ?_, ?_⟩ <;> rw [hlead]
        · show slot ≠ 0
          omega
        · exact voteForProposal_outlived hheld
        · exact Or.inr ⟨rfl, hnext⟩
      · apply hkeep cell <;> simp [voteForProposal, St.addWrite, St.bump, hcell]
  | @acknowledge sender member ballot slot decidedThrough lead hheard hmember hslot hballot hnew hlead =>
      refine ⟨hl.driving, fun cell => ?_⟩
      by_cases hcell : cell = cellOf slot P.W
      · subst hcell
        apply hkeep <;> simp [hlead]
      · apply hkeep cell <;> simp [hcell]
  | report =>
      have hfields : ∀ (n : Node V) (member cell slot vote : Nat) (state : CellState) (value : V),
          (recordReport n member cell slot vote state value).1.lead = n.lead ∧
            (recordReport n member cell slot vote state value).1.role = n.role ∧
              (recordReport n member cell slot vote state value).1.ballot = n.ballot := by
        intro n member cell slot vote state value
        unfold recordReport
        dsimp only
        split_ifs <;> exact ⟨rfl, rfl, rfl⟩
      obtain ⟨hlead, hrole, hballot⟩ := hfields σ.node _ _ _ _ _ _
      exact ⟨fun hr => hballot ▸ hl.driving (hrole ▸ hr), hsame hlead⟩
  | lead hrole =>
      refine ⟨fun _ => hl.driving ?_, hsame rfl⟩
      rw [hrole]
      simp
  | _ => exact ⟨hl.driving, hsame rfl⟩

/-! ## What a transition sends and records -/

/-- An Accept of a small step is one that the node's records back. -/
theorem Micro.accept_mem {σ σ' : St V} (h : Micro P I σ σ') {e : Envelope V}
    (he : e ∈ σ'.effects.messages) {ballot slot : Nat} {value : V}
    (hmsg : e.message = .accept ballot slot value) :
    e ∈ σ.effects.messages ∨ Sendable P I σ e := by
  cases h with
  | learn hl =>
      cases hl with
      | send hs =>
          rcases List.mem_append.mp he with he | he
          · exact Or.inl he
          · exact Or.inr (hs e he)
      | _ => exact Or.inl he
  | nextChunk =>
      rcases List.mem_append.mp he with he | he
      · exact Or.inl he
      · obtain ⟨peer, -, rfl⟩ := List.mem_map.mp he
        cases hmsg
  | _ => exact Or.inl he

omit [DecidableEq V] in
/-- The step that ends a transition sends no Accept. -/
theorem Final.accept_mem {n₀ : Node V} {σ σ' : St V} (h : Final P I n₀ σ σ') {e : Envelope V}
    (he : e ∈ σ'.effects.messages) {ballot slot : Nat} {value : V}
    (hmsg : e.message = .accept ballot slot value) : e ∈ σ.effects.messages := by
  cases h with
  | answer =>
      rcases List.mem_append.mp he with he | he
      · rcases List.mem_append.mp he with he | he
        · exact he
        · obtain ⟨cell, -, rfl⟩ := List.mem_map.mp he
          cases hmsg
      · cases List.mem_singleton.mp he
        cases hmsg
  | _ =>
      rcases List.mem_append.mp he with he | he
      · exact he
      · obtain ⟨peer, -, rfl⟩ := List.mem_map.mp he
        cases hmsg

/-- Why a small step records a vote. -/
inductive VoteSource (P : Params) (I : Input V) (σ σ' : St V) (ballot slot : Nat) (value : V) :
    Prop
  | heard (sender : Nat) (h : I.Hears σ.node sender (.accept ballot slot value))
  | drove (hrole : σ.node.role ≠ .follower) (hballot : ballot = σ.node.ballot)
  | owned (hballot : ballot = ownershipBallot σ.node.id) (hpos : slot ≠ 0)
      (hspent : Spent P σ'.node slot) (hmode : σ.node.ownership = true)
      (hvalue : value ∈ I.values ∨ value ∈ I.noops ∨ value ∈ σ.node.resubmit)

omit [DecidableEq V] in
/-- The small steps of a learner record no vote. -/
theorem Learn.vote_back {σ σ' : St V} (h : Learn P I σ σ') {ballot slot : Nat} {value : V}
    (hw : .vote ballot slot value ∈ σ'.effects.writes) :
    .vote ballot slot value ∈ σ.effects.writes := by
  cases h with
  | choose =>
      rcases List.mem_append.mp hw with hw | hw
      · exact hw
      · cases List.mem_singleton.mp hw
  | pass =>
      rcases List.mem_append.mp hw with hw | hw
      · obtain ⟨w, hw, heq⟩ := List.mem_map.mp hw
        rw [Write.rebind_eq_vote] at heq
        exact heq ▸ hw
      · cases List.mem_singleton.mp hw
  | _ => exact hw

/-- A vote that a small step records has a source. -/
theorem Micro.vote_mem {σ σ' : St V} (h : Micro P I σ σ') {ballot slot : Nat} {value : V}
    (hw : .vote ballot slot value ∈ σ'.effects.writes) :
    .vote ballot slot value ∈ σ.effects.writes ∨ VoteSource P I σ σ' ballot slot value := by
  cases h with
  | learn hl => exact Or.inl (hl.vote_back hw)
  | promise =>
      rcases List.mem_append.mp hw with hw | hw
      · exact Or.inl hw
      · cases List.mem_singleton.mp hw
  | promiseAt =>
      rcases List.mem_append.mp hw with hw | hw
      · exact Or.inl hw
      · cases List.mem_singleton.mp hw
  | vote hheard =>
      rcases List.mem_append.mp hw with hw | hw
      · exact Or.inl hw
      · cases List.mem_singleton.mp hw
        exact Or.inr (.heard _ hheard)
  | drive hballot hsource =>
      rcases List.mem_append.mp hw with hw | hw
      · exact Or.inl hw
      · cases List.mem_singleton.mp hw
        refine Or.inr (.drove ?_ hballot)
        cases hsource with
        | drive hdrives =>
            rw [hdrives.role]
            simp
        | lead hrole =>
            rw [hrole]
            simp
  | own hmode hvalue _ _ hnext _ hlive _ hheld =>
      rcases List.mem_append.mp hw with hw | hw
      · exact Or.inl hw
      · cases List.mem_singleton.mp hw
        refine Or.inr (.owned rfl (by omega) (Or.inr (Or.inl ⟨?_, hnext⟩)) hmode hvalue)
        rcases @voteForProposal_outlived V P σ slot (ownershipBallot σ.node.id) value hheld with
          hlater | ⟨hslot, hused, -⟩
        · exact Or.inl hlater
        · exact Or.inr ⟨hslot, hused, Nat.zero_le _⟩
  | _ => exact Or.inl hw

/-- The suggestions of a transition so far are spent: those it announced, and, when it heard no
Accept, those it voted for. -/
structure Tracked (P : Params) (I : Input V) (σ : St V) : Prop where
  leads : Leads P σ.node
  sent : ∀ e ∈ σ.effects.messages, ∀ slot value,
    e.message = .accept (ownershipBallot σ.node.id) slot value → slot ≠ 0 ∧ Spent P σ.node slot
  voted : (∀ e ballot slot value, I.heard = some e → e.message ≠ .accept ballot slot value) →
    ∀ slot value, .vote (ownershipBallot σ.node.id) slot value ∈ σ.effects.writes →
      slot ≠ 0 ∧ Spent P σ.node slot

/-- Every small step keeps the suggestions of its transition spent. -/
theorem Micro.tracked {σ σ' : St V} (h : Micro P I σ σ') (hid : σ.node.id < 2 ^ 16)
    (hpos : σ.node.id ≠ 0) (ht : Tracked P I σ) : Tracked P I σ' := by
  have hsame : σ'.node.id = σ.node.id := congrArg Static.id h.static
  have hmine : ownershipBallot σ.node.id ≠ 0 := by
    rw [ownershipBallot_eq]
    exact hpos
  refine ⟨h.leads ht.leads, fun e he slot value hmsg => ?_, fun hdeaf slot value hw => ?_⟩
  · rw [hsame] at hmsg
    rcases h.accept_mem he hmsg with hold | hback
    · obtain ⟨hslot, hspent⟩ := ht.sent e hold slot value hmsg
      exact ⟨hslot, h.spent hslot hspent⟩
    · obtain ⟨-, hback⟩ := hback
      rw [hmsg] at hback
      obtain ⟨-, cell, hslot, hballot, -⟩ := hback
      -- the record behind the Accept is one of this node's suggestions
      rcases ht.leads.led cell with ⟨-, hidle⟩ | hled
      · exact absurd (hballot.symm.trans hidle) hmine
      · have hplace := hled.place
        have hslot0 := hled.pos
        have hout := hled.outlived
        rw [hslot] at hplace hslot0 hout
        refine ⟨hslot0, h.spent hslot0 (Or.inr ?_)⟩
        rcases hled.origin with hround | ⟨-, hlt⟩
        · rw [hballot, ballotRound_ownership hid] at hround
          exact absurd hround (lt_irrefl 0)
        · refine Or.inl ⟨?_, by rw [← hslot]; exact hlt⟩
          rw [Ledger.cellAt, hplace]
          rcases hout with hlater | ⟨hheld, hused, -⟩
          · exact Or.inl hlater
          · exact Or.inr ⟨hheld, hused, Nat.zero_le _⟩
  · rw [hsame] at hw
    rcases h.vote_mem hw with hold | hsource
    · obtain ⟨hslot, hspent⟩ := ht.voted hdeaf slot value hold
      exact ⟨hslot, h.spent hslot hspent⟩
    · cases hsource with
      | heard sender hheard => exact absurd rfl (hdeaf _ _ _ _ hheard)
      | drove hrole hballot =>
          have hround := ht.leads.driving hrole
          rw [← hballot, ballotRound_ownership hid] at hround
          exact absurd hround (lt_irrefl 0)
      | owned _ hslot hspent => exact ⟨hslot, hspent⟩

omit [DecidableEq V] in
theorem Final.spent {n₀ : Node V} {σ σ' : St V} (h : Final P I n₀ σ σ') {slot : Nat}
    (hs : Spent P σ.node slot) : Spent P σ'.node slot := by
  cases h <;> exact hs

omit [DecidableEq V] in
/-- The step that ends a transition suggests nothing. -/
theorem Final.tracked {n₀ : Node V} {σ σ' : St V} (h : Final P I n₀ σ σ')
    (hid : σ.node.id < 2 ^ 16) (ht : Tracked P I σ) : Tracked P I σ' := by
  have hsame : σ'.node.id = σ.node.id := congrArg Static.id h.static
  refine ⟨?_, fun e he slot value hmsg => ?_, fun hdeaf slot value hw => ?_⟩
  · cases h with
    | campaign _ _ hround =>
        refine ⟨fun _ => ?_, fun cell => Or.inl ⟨rfl, rfl⟩⟩
        have hfresh := (nextRound_fresh hround).current
        show 0 < ballotRound (ballotMake _ _ _)
        rw [ballotMake_round σ.node.priority.isLt hid]
        exact Nat.zero_lt_of_lt hfresh
    | @revoke round ballot _ _ _ _ hballot _ hcurrent =>
        refine ⟨fun _ => ?_, fun cell => Or.inl ⟨rfl, rfl⟩⟩
        show 0 < ballotRound ballot
        rw [hballot, ballotMake_round σ.node.priority.isLt hid]
        exact Nat.zero_lt_of_lt hcurrent
    | answer => exact ht.leads
  · rw [hsame] at hmsg
    obtain ⟨hslot, hs⟩ := ht.sent e (h.accept_mem he hmsg) slot value hmsg
    exact ⟨hslot, h.spent hs⟩
  · rw [hsame] at hw
    have hold : .vote (ownershipBallot σ.node.id) slot value ∈ σ.effects.writes := by
      cases h with
      | campaign =>
          rcases List.mem_append.mp hw with hw | hw
          · exact hw
          · cases List.mem_singleton.mp hw
      | _ => exact hw
    obtain ⟨hslot, hs⟩ := ht.voted hdeaf slot value hold
    exact ⟨hslot, h.spent hs⟩

/-! ## Operations -/

/-- What an operation of the host that only moves a frontier leaves alone. -/
structure Hosted (n : Node V) (σ : St V) : Prop where
  lead : σ.node.lead = n.lead
  cells : σ.node.ledger.cells = n.ledger.cells
  ownNext : σ.node.ownNext = n.ownNext
  ballot : σ.node.ballot = n.ballot
  role : σ.node.role = n.role ∨ σ.node.role = .follower
  floor : n.memoryFloor ≤ σ.node.memoryFloor
  anchor : n.ledger.anchor.chosenTrimSlot ≤ σ.node.ledger.anchor.chosenTrimSlot
  id : σ.node.id = n.id
  membership : σ.node.membership = n.membership
  modes : σ.node.votingMember = n.votingMember ∧ σ.node.ownership = n.ownership
  messages : σ.effects.messages = []
  votes : ∀ ballot slot value, .vote ballot slot value ∉ σ.effects.writes

omit [DecidableEq V] in
theorem Hosted.still (n : Node V) : Hosted n (St.start n) :=
  ⟨rfl, rfl, rfl, rfl, Or.inl rfl, le_rfl, le_rfl, rfl, rfl, ⟨rfl, rfl⟩, rfl,
    fun _ _ _ h => absurd h List.not_mem_nil⟩

omit [DecidableEq V] in
theorem nodeInstallChosenTrim_hosted (n : Node V) (anchor : TrimAnchor) :
    Hosted n (nodeInstallChosenTrim n anchor).1 := by
  unfold nodeInstallChosenTrim
  dsimp only
  split_ifs with hdelivered htrim hsame hequal hback hahead
  · exact .still n
  · exact .still n
  · exact .still n
  · exact .still n
  · exact .still n
  · refine ⟨rfl, rfl, rfl, rfl, Or.inl rfl, ?_, Nat.le_of_not_lt hback, rfl, rfl, ⟨rfl, rfl⟩, rfl,
      fun _ _ _ h => (by cases List.mem_singleton.mp h)⟩
    exact le_min hahead.le (hahead.le.trans (Nat.le_of_not_lt hdelivered))
  · exact ⟨rfl, rfl, rfl, rfl, Or.inl rfl, le_rfl, Nat.le_of_not_lt hback, rfl, rfl, ⟨rfl, rfl⟩, rfl,
      fun _ _ _ h => (by cases List.mem_singleton.mp h)⟩

omit [DecidableEq V] in
theorem nodeAdvanceMemoryFloor_hosted (n : Node V) (through : Nat) :
    Hosted n (St.start (nodeAdvanceMemoryFloor n through).1) := by
  unfold nodeAdvanceMemoryFloor
  split_ifs
  · exact .still n
  · exact ⟨rfl, rfl, rfl, rfl, Or.inl rfl, le_max_left _ _, le_rfl, rfl, rfl, ⟨rfl, rfl⟩, rfl,
      fun _ _ _ h => absurd h List.not_mem_nil⟩

omit [DecidableEq V] in
theorem nodeSetCampaignEnabled_hosted (n : Node V) (enabled : Bool) :
    Hosted n (St.start (nodeSetCampaignEnabled n enabled)) := by
  refine ⟨rfl, rfl, rfl, rfl, ?_, le_rfl, le_rfl, rfl, rfl, ⟨rfl, rfl⟩, rfl,
    fun _ _ _ h => absurd h List.not_mem_nil⟩
  show (if !enabled && n.role = .preparing then Role.follower else n.role) = n.role ∨
    (if !enabled && n.role = .preparing then Role.follower else n.role) = .follower
  split_ifs
  · exact Or.inr rfl
  · exact Or.inl rfl

omit [DecidableEq V] in
/-- The host keeps the records of the proposer. -/
theorem Hosted.leads {n : Node V} {σ : St V} (h : Hosted n σ) (hl : Leads P n) :
    Leads P σ.node := by
  refine ⟨fun hr => ?_, fun cell => ?_⟩
  · rw [h.ballot]
    rcases h.role with heq | heq
    · exact hl.driving (heq ▸ hr)
    · exact absurd heq hr
  · rcases hl.led cell with hidle | hled
    · refine Or.inl ?_
      unfold Idle
      rw [h.lead]
      exact hidle
    · refine Or.inr ⟨?_, ?_, ?_, ?_⟩
      · rw [h.lead]
        exact hled.place
      · rw [h.lead]
        exact hled.pos
      · rw [h.lead, h.cells]
        exact hled.outlived
      · rw [h.lead, h.id, h.ownNext]
        exact hled.origin

omit [DecidableEq V] in
theorem Hosted.spent {n : Node V} {σ : St V} (h : Hosted n σ) {slot : Nat} (hs : Spent P n slot) :
    Spent P σ.node slot := by
  unfold Spent Ledger.cellAt at hs ⊢
  rw [h.cells, h.ownNext]
  rcases hs with ⟨hfloor, hanchor⟩ | hrest
  · exact Or.inl ⟨hfloor.trans h.floor, hanchor.trans h.anchor⟩
  · exact Or.inr hrest

/-- An operation takes small steps, or is the host's. -/
theorem operate_hosted {n : Node V} (ho : Opened P n) (op : Operation V) :
    Completes P (op.input n) n (St.start n) (operate P n op) ∨ Hosted n (operate P n op) := by
  rcases operate_cases ho op with h | ⟨anchor, rfl⟩ | ⟨through, rfl⟩ | ⟨enabled, rfl⟩
  · exact Or.inl h
  · exact Or.inr (nodeInstallChosenTrim_hosted n anchor)
  · exact Or.inr (nodeAdvanceMemoryFloor_hosted n through)
  · exact Or.inr (nodeSetCampaignEnabled_hosted n enabled)

/-- An operation keeps its own suggestions spent. -/
theorem operate_tracked {n : Node V} (ho : Opened P n) (hid : n.id < 2 ^ 16) (hpos : n.id ≠ 0)
    (hl : Leads P n) (op : Operation V) : Tracked P (op.input n) (operate P n op) := by
  rcases operate_hosted ho op with ⟨τ, hrun, hlast⟩ | hhost
  · have hstart : Tracked P (op.input n) (St.start n) :=
      ⟨hl, fun _ h => absurd h List.not_mem_nil, fun _ _ _ h => absurd h List.not_mem_nil⟩
    have hτ : τ.node.id = n.id ∧ Tracked P (op.input n) τ := by
      refine hrun.preserves (motive := fun τ => τ.node.id = n.id ∧ Tracked P (op.input n) τ) ?_
        ⟨rfl, hstart⟩
      rintro τ τ' hm ⟨hsame, ht⟩
      refine ⟨(congrArg Static.id hm.static).trans hsame, hm.tracked ?_ ?_ ht⟩
      · rw [hsame]
        exact hid
      · rw [hsame]
        exact hpos
    rcases hlast with heq | hfinal
    · rw [heq]
      exact hτ.2
    · exact hfinal.tracked (by rw [hτ.1]; exact hid) hτ.2
  · refine ⟨hhost.leads hl, fun e he => ?_, fun _ slot value hw => absurd hw (hhost.votes _ _ _)⟩
    rw [hhost.messages] at he
    cases he

/-- An operation keeps the suggestions of earlier ones spent. -/
theorem operate_spent {n : Node V} (ho : Opened P n) (op : Operation V) {slot : Nat}
    (hslot : slot ≠ 0) (hs : Spent P n slot) : Spent P (operate P n op).node slot := by
  rcases operate_hosted ho op with ⟨τ, hrun, hlast⟩ | hhost
  · have hτ : Spent P τ.node slot :=
      hrun.preserves (motive := fun τ => Spent P τ.node slot) (fun hm h => hm.spent hslot h) hs
    rcases hlast with heq | hfinal
    · rw [heq]
      exact hτ
    · exact hfinal.spent hτ
  · exact hhost.spent hs

end Steps

/-! ## Every reachable state -/

section Reachability

variable [DecidableEq V] [Inhabited V]

/-- A place in the membership that never changes: only a voter runs in ownership mode. -/
structure Seated (n : Node V) : Prop where
  valid : n.membership.Valid
  voter : n.ownership = true → n.votingMember = true

omit [DecidableEq V] [Inhabited V] in
theorem nodeResumeAt_seated {n : Node V} (base : Nat) (h : Seated n) :
    Seated (nodeResumeAt P n base) := by
  unfold nodeResumeAt
  dsimp only
  split_ifs <;> exact ⟨h.valid, h.voter⟩

/-- Every reachable node has such a place, and records that describe its cells. -/
theorem Reachable.seated {n : Node V} (h : Reachable P n) : Seated n := by
  have hinit : ∀ {id : Nat} {membership : Membership} {options : NodeOptions} {n : Node V},
      Compiled P membership → nodeInit id membership options = .ok n →
        Seated n ∧ n.ownership = options.rotatingOwnership := by
    intro id membership options n hm h
    unfold nodeInit at h
    split at h
    · cases h
    · cases h
      exact ⟨⟨hm.sized.1, fun _ => rfl⟩, rfl⟩
  have hlearner : ∀ {id : Nat} {membership : Membership} {n : Node V}, Compiled P membership →
      nodeInitLearner id membership = .ok n → Seated n := by
    intro id membership n hm h
    unfold nodeInitLearner at h
    split_ifs at h
    split at h
    · cases h
    · next n₀ hn₀ =>
        obtain ⟨hseated, hmode⟩ := hinit hm hn₀
        cases h
        exact ⟨hseated.valid, fun hown => absurd (hmode.symm.trans hown) (by simp)⟩
  induction h with
  | init hm h => exact (hinit hm h).1
  | learner hm h => exact hlearner hm h
  | restore hm _ _ _ h =>
      unfold nodeRestore at h
      split at h
      · cases h
      · next n₀ hn₀ =>
          cases h
          have hseated := (hinit hm hn₀).1
          exact nodeResumeAt_seated _ ⟨hseated.valid, hseated.voter⟩
  | restoreLearner hm _ _ h =>
      unfold nodeRestoreLearner at h
      split at h
      · cases h
      · next n₀ hn₀ =>
          cases h
          have hseated := hlearner hm hn₀
          exact nodeResumeAt_seated _ ⟨hseated.valid, hseated.voter⟩
  | continueAt hm _ h =>
      unfold nodeContinueAt at h
      split_ifs at h
      split at h
      · cases h
      · next n₀ hn₀ =>
          cases h
          have hseated := (hinit hm hn₀).1
          exact nodeResumeAt_seated _ ⟨hseated.valid, hseated.voter⟩
  | recover _ _ _ h ih =>
      unfold nodeBeginRecovery at h
      split at h
      · cases h
        exact nodeResumeAt_seated _ ⟨ih.valid, ih.voter⟩
      · cases h
  | @operate n hn op ih =>
      rcases operate_hosted hn.fit.opened op with hc | hhost
      · have hstatic := hc.static
        have hmembers : (PaxosOdin.operate P n op).node.membership = n.membership :=
          congrArg Static.membership hstatic
        have hvoting : (PaxosOdin.operate P n op).node.votingMember = n.votingMember :=
          congrArg Static.votingMember hstatic
        have hmode : (PaxosOdin.operate P n op).node.ownership = n.ownership :=
          congrArg Static.ownership hstatic
        refine ⟨?_, ?_⟩
        · rw [hmembers]
          exact ih.valid
        · rw [hvoting, hmode]
          exact ih.voter
      · refine ⟨?_, ?_⟩
        · rw [hhost.membership]
          exact ih.valid
        · rw [hhost.modes.1, hhost.modes.2]
          exact ih.voter

/-- The identifier of a voter is a word of 16 bits, and not zero. -/
theorem Reachable.id_bounds {n : Node V} (h : Reachable P n) (hv : n.votingMember = true) :
    n.id < 2 ^ 16 ∧ n.id ≠ 0 := by
  have hmem : n.id ∈ n.membership.members :=
    List.mem_of_getElem? (h.fit.opened.member hv)
  exact ⟨h.seated.valid.ids_lt _ hmem, (h.seated.valid.ids_pos _ hmem).ne'⟩

omit [Inhabited V] in
/-- Every operation leaves identity and mode as they are. -/
theorem operate_modes {n : Node V} (ho : Opened P n) (op : Operation V) :
    (operate P n op).node.id = n.id ∧ (operate P n op).node.votingMember = n.votingMember ∧
      (operate P n op).node.ownership = n.ownership := by
  rcases operate_hosted ho op with hc | hhost
  · have hstatic := hc.static
    exact ⟨congrArg Static.id hstatic, congrArg Static.votingMember hstatic,
      congrArg Static.ownership hstatic⟩
  · exact ⟨hhost.id, hhost.modes⟩

omit [DecidableEq V] [Inhabited V] in
theorem nodeResumeAt_lead {n : Node V} (base : Nat) : (nodeResumeAt P n base).lead = n.lead := by
  unfold nodeResumeAt
  dsimp only
  split_ifs <;> rfl

omit [DecidableEq V] [Inhabited V] in
theorem nodeResumeAt_role {n : Node V} (base : Nat) : (nodeResumeAt P n base).role = n.role := by
  unfold nodeResumeAt
  dsimp only
  split_ifs <;> rfl

/-- An opened node follows, and drives nothing. -/
theorem Opens.idle {n : Node V} (h : Opens P n) : n.role = .follower ∧ n.lead = fun _ => {} := by
  have hinit : ∀ {id : Nat} {membership : Membership} {options : NodeOptions} {n : Node V},
      nodeInit id membership options = .ok n → n.role = .follower ∧ n.lead = fun _ => {} := by
    intro id membership options n h
    unfold nodeInit at h
    split at h
    · cases h
    · cases h
      exact ⟨rfl, rfl⟩
  have hlearner : ∀ {id : Nat} {membership : Membership} {n : Node V},
      nodeInitLearner id membership = .ok n → n.role = .follower ∧ n.lead = fun _ => {} := by
    intro id membership n h
    unfold nodeInitLearner at h
    split_ifs at h
    split at h
    · cases h
    · next n₀ hn₀ =>
        have hfresh := hinit hn₀
        cases h
        exact hfresh
  have hresume : ∀ {n : Node V} (l : Ledger V) (base : Nat), n.role = .follower ∧
      (n.lead = fun _ => {}) → (nodeResumeAt P { n with ledger := l } base).role = .follower ∧
        (nodeResumeAt P { n with ledger := l } base).lead = fun _ => {} := by
    intro n l base h
    rw [nodeResumeAt_role, nodeResumeAt_lead]
    exact h
  cases h with
  | init _ h => exact hinit h
  | learner _ h => exact hlearner h
  | restore _ _ _ _ h =>
      unfold nodeRestore at h
      split at h
      · cases h
      · next n₀ hn₀ =>
          cases h
          exact hresume _ _ (hinit hn₀)
  | restoreLearner _ _ _ h =>
      unfold nodeRestoreLearner at h
      split at h
      · cases h
      · next n₀ hn₀ =>
          cases h
          exact hresume _ _ (hlearner hn₀)
  | continueAt _ _ h =>
      unfold nodeContinueAt at h
      split_ifs at h
      split at h
      · cases h
      · next n₀ hn₀ =>
          cases h
          exact hresume _ _ (hinit hn₀)

omit [Inhabited V] in
/-- So does a node that recovered from a state image. -/
theorem nodeBeginRecovery_idle {n n' : Node V} {anchor : TrimAnchor}
    (h : nodeBeginRecovery P n anchor = .ok n') : n'.role = .follower ∧ n'.lead = fun _ => {} := by
  unfold nodeBeginRecovery at h
  split at h
  · cases h
    rw [nodeResumeAt_role, nodeResumeAt_lead]
    exact ⟨rfl, rfl⟩
  · cases h

/-- The records of every reachable voter describe its cells. -/
theorem Reachable.leads {n : Node V} (h : Reachable P n) : n.votingMember = true → Leads P n := by
  have hopened : ∀ {n : Node V}, Opens P n → Leads P n := fun h =>
    .fresh h.idle.1 fun cell => by rw [h.idle.2]
  induction h with
  | init hm h => exact fun _ => hopened (.init hm h)
  | learner hm h => exact fun _ => hopened (.learner hm h)
  | restore hm hfloor hwords hreplay h =>
      exact fun _ => hopened (.restore hm hfloor hwords hreplay h)
  | restoreLearner hm hwords hreplay h =>
      exact fun _ => hopened (.restoreLearner hm hwords hreplay h)
  | continueAt hm hfloor h => exact fun _ => hopened (.continueAt hm hfloor h)
  | recover _ _ _ h =>
      obtain ⟨hrole, hlead⟩ := nodeBeginRecovery_idle h
      exact fun _ => .fresh hrole fun cell => by rw [hlead]
  | @operate n hn op ih =>
      intro hv
      rw [(operate_modes hn.fit.opened op).2.1] at hv
      obtain ⟨hid, hpos⟩ := hn.id_bounds hv
      exact (operate_tracked hn.fit.opened hid hpos (ih hv) op).leads

omit [DecidableEq V] [Inhabited V] in
/-- A window that is resumed above every suggestion it forgets keeps them spent. -/
theorem nodeResumeAt_spent {n : Node V} {base slot : Nat} (hv : n.votingMember = true)
    (hself : n.selfIndex < n.membership.members.length)
    (hsmall : n.membership.members.length ≤ maxSlot) (hnext : n.ownNext ≤ maxSlot)
    (hslots : ∀ cell, (n.ledger.cells cell).slot ≤ maxSlot) (hbits : Bits n.ledger)
    (hbase : base ≤ maxSlot) (hanchor : n.ledger.anchor.chosenTrimSlot = base)
    (hs : slot ≤ base ∨ (Outlived (n.ledger.cellAt P slot) slot 0 ∧ slot < n.ownNext) ∨
      slot < (n.ledger.cellAt P slot).slot) : Spent P (nodeResumeAt P n base) slot := by
  have hclear := clearOpenCells_cells (P := P) base n.ledger
  have hcleared := hclear.bits hbits
  have hhigh : ledgerHighestUsed P (clearOpenCells P n.ledger base) ≤ maxSlot := by
    refine (ledgerHighestUsed_bounds _).2 maxSlot fun i _ _ => ?_
    rw [hclear.cells]
    split_ifs
    · exact Nat.zero_le _
    · exact hslots i
  have hroom := slotAdd_le_maxSlot 1 (max_le hhigh hbase)
  unfold nodeResumeAt
  dsimp only
  rw [if_pos hv]
  unfold Spent
  by_cases hlow : slot ≤ base
  · refine Or.inl ⟨hlow, ?_⟩
    show slot ≤ (clearOpenCells P n.ledger base).anchor.chosenTrimSlot
    rw [hclear.anchor, hanchor]
    exact hlow
  · refine Or.inr ?_
    -- a cell above the base survives
    have hcell : (slot < (n.ledger.cellAt P slot).slot ∨ (n.ledger.cellAt P slot).slot = slot) →
        (clearOpenCells P n.ledger base).cellAt P slot = n.ledger.cellAt P slot := by
      intro hle
      apply hclear.live
      simp only [Ledger.cellAt] at hle
      omega
    have hlater : slot < (n.ledger.cellAt P slot).slot →
        slot < ((clearOpenCells P n.ledger base).cellAt P slot).slot := by
      intro hlt
      rw [hcell (Or.inl hlt)]
      exact hlt
    rcases hs with hle | ⟨hout, hlt⟩ | hlt
    · exact absurd hle hlow
    · rcases hout with hover | ⟨hheld, hused, -⟩
      · exact Or.inr (hlater hover)
      · have hsame := hcell (Or.inr hheld)
        have husedBit : cellOf slot P.W ∈ (clearOpenCells P n.ledger base).used := by
          rw [hcleared.used]
          show ((clearOpenCells P n.ledger base).cellAt P slot).state ≠ .empty
          rw [hsame]
          exact hused
        have hreach := (ledgerHighestUsed_bounds (P := P) (clearOpenCells P n.ledger base)).1 _
          (cellOf_lt P slot) husedBit
        have hslot : ((clearOpenCells P n.ledger base).cells (cellOf slot P.W)).slot = slot := by
          have := congrArg Cell.slot hsame
          exact this.trans hheld
        rw [hslot] at hreach
        obtain ⟨-, hge⟩ := @ownSlotFrom_spec V
          { n with
            ledger := clearOpenCells P n.ledger base
            memoryFloor := base
            deliveredThrough := base
            nextSlot :=
              slotAdd (max (ledgerHighestUsed P (clearOpenCells P n.ledger base)) base) 1
            leaderBase :=
              slotAdd (max (ledgerHighestUsed P (clearOpenCells P n.ledger base)) base) 1
            highestSeen := max n.highestSeen
              (slotAdd (max (ledgerHighestUsed P (clearOpenCells P n.ledger base)) base) 1 - 1) }
          (slotAdd (max (ledgerHighestUsed P (clearOpenCells P n.ledger base)) base) 1) hself hsmall
          hroom
        refine Or.inl ⟨Or.inr ⟨hslot, ?_, Nat.zero_le _⟩, Nat.lt_of_lt_of_le ?_ hge⟩
        · show ((clearOpenCells P n.ledger base).cellAt P slot).state ≠ .empty
          rw [hsame]
          exact hused
        · have hmax := le_max_left (ledgerHighestUsed P (clearOpenCells P n.ledger base)) base
          unfold slotAdd
          omega
    · exact Or.inr (hlater hlt)

/-- A state image keeps every suggestion of the node spent. -/
theorem nodeBeginRecovery_spent {n n' : Node V} {anchor : TrimAnchor} {slot : Nat}
    (hn : Reachable P n) (hv : n.votingMember = true) (hmode : n.ownership = true)
    (hwords : n.ledger.Words) (hanchor : anchor.chosenTrimSlot ≤ maxSlot)
    (h : nodeBeginRecovery P n anchor = .ok n') (hs : Spent P n slot) : Spent P n' slot := by
  have haligned := hn.fit.opened.aligned hv hmode
  unfold nodeBeginRecovery at h
  split at h
  · next l hl =>
      cases h
      -- the image only moves the anchor
      obtain ⟨hle, rfl⟩ : n.ledger.anchor.chosenTrimSlot ≤ anchor.chosenTrimSlot ∧
          l = { n.ledger with anchor := anchor } := by
        unfold ledgerApply at hl
        dsimp only at hl
        split_ifs at hl with hback <;> cases hl
        exact ⟨by omega, rfl⟩
      refine nodeResumeAt_spent hv (hn.fit.opened.selfIndex_lt hv) hn.fit.opened.small haligned.1
        hwords.slots (hn.bits.congr rfl rfl rfl) hanchor rfl ?_
      rcases hs with ⟨-, hlow⟩ | hrest
      · exact Or.inl (hlow.trans hle)
      · exact Or.inr hrest
  · cases h

/-! ## What a node did -/

/-- The node `n` with everything it did since it was `n₀`: its operations and their batches, with the
state images that its host installed in between. -/
inductive Continues (P : Params) (n₀ : Node V) : Node V → List (Operation V × Effects V) → Prop
  | start : Continues P n₀ n₀ []
  | operate {n : Node V} {trace : List (Operation V × Effects V)} (h : Continues P n₀ n trace)
      (op : Operation V) :
      Continues P n₀ (operate P n op).node (trace ++ [(op, (operate P n op).effects)])
  | recover {n n' : Node V} {trace : List (Operation V × Effects V)} {anchor : TrimAnchor}
      (h : Continues P n₀ n trace) (hwords : n.ledger.Words) (hanchor : anchor.chosenTrimSlot ≤ maxSlot)
      (hrecovered : nodeBeginRecovery P n anchor = .ok n') : Continues P n₀ n' trace

/-- Member `id` suggested in `slot`: it announced the slot at its round-zero ballot, or voted there
at that ballot in an operation that delivered no envelope. -/
def SuggestedIn (id : Nat) (trace : List (Operation V × Effects V)) (slot : Nat) : Prop :=
  ∃ x ∈ trace, (∃ e ∈ x.2.messages, ∃ value, e.message = .accept (ownershipBallot id) slot value) ∨
    ((∀ e, x.1 ≠ .step e) ∧ ∃ value, .vote (ownershipBallot id) slot value ∈ x.2.writes)

/-- A reachable owner, with what it did: no slot that it suggested in is suggested in again. -/
theorem Continues.spent {n₀ n : Node V} {trace : List (Operation V × Effects V)}
    (hn₀ : Reachable P n₀) (hmode : n₀.ownership = true) (h : Continues P n₀ n trace) :
    Reachable P n ∧ n.ownership = true ∧ n.id = n₀.id ∧
      ∀ slot, SuggestedIn n₀.id trace slot → slot ≠ 0 ∧ Spent P n slot := by
  induction h with
  | start =>
      refine ⟨hn₀, hmode, rfl, ?_⟩
      rintro slot ⟨x, hx, -⟩
      cases hx
  | @operate n trace h op ih =>
      obtain ⟨hn, hown, hid, hspent⟩ := ih
      have hv := hn.seated.voter hown
      have ho := hn.fit.opened
      obtain ⟨hlt, hpos⟩ := hn.id_bounds hv
      obtain ⟨hid', -, hmode'⟩ := operate_modes ho op
      have htracked := operate_tracked ho hlt hpos (hn.leads hv) op
      refine ⟨hn.operate op, hmode'.trans hown, hid'.trans hid, ?_⟩
      rintro slot ⟨x, hx, hsource⟩
      rcases List.mem_append.mp hx with hx | hx
      · obtain ⟨hslot, hs⟩ := hspent slot ⟨x, hx, hsource⟩
        exact ⟨hslot, operate_spent ho op hslot hs⟩
      · rw [List.mem_singleton.mp hx, ← hid, ← hid'] at hsource
        rcases hsource with ⟨e, he, value, hmsg⟩ | ⟨hdeaf, value, hw⟩
        · exact htracked.sent e he slot value hmsg
        · refine htracked.voted (fun e ballot s v he hmsg => ?_) slot value hw
          -- only an envelope is heard with an Accept in it
          cases op with
          | step e' => exact hdeaf e' rfl
          | call c => cases c <;> cases he
          | learnChosen sender s' v' =>
              cases he
              cases hmsg
          | installTrim => cases he
          | advanceFloor => cases he
          | setCampaignEnabled => cases he
  | @recover n n' trace anchor h hwords hanchor hrecovered ih =>
      obtain ⟨hn, hown, hid, hspent⟩ := ih
      have hv := hn.seated.voter hown
      have hfields : n'.ownership = n.ownership ∧ n'.id = n.id := by
        unfold nodeBeginRecovery at hrecovered
        split at hrecovered
        · cases hrecovered
          unfold nodeResumeAt
          dsimp only
          split_ifs <;> exact ⟨rfl, rfl⟩
        · cases hrecovered
      refine ⟨hn.recover hwords hanchor hrecovered, hfields.1.trans hown, hfields.2.trans hid, ?_⟩
      intro slot hsuggested
      obtain ⟨hslot, hs⟩ := hspent slot hsuggested
      exact ⟨hslot, nodeBeginRecovery_spent hn hv hown hwords hanchor hrecovered hs⟩

/-! ## Batches -/

/-- An owner is asked for a batch that is well formed, and has a slot for each of its values. -/
def SuggestsBatch (P : Params) (n : Node V) (count capacity : Nat) : Prop :=
  count ≠ 0 ∧ count ≤ P.C ∧ count ≤ capacity ∧ ownSlotsAvailable P n count n.ownNext = .none

/-- A slot that the owner has released, without a cell for its decision, fits a suggestion. -/
def ReleasedFits (P : Params) (n : Node V) : Prop :=
  ∃ slot, OwnAligned n slot ∧ slot ≠ maxSlot ∧ n.ownNext ≤ slot ∧ slot ≤ n.deliveredThrough ∧
    Suggestible P n slot

/-- What a batch owes each slot that it takes. -/
structure Taken (P : Params) (n : Node V) (trace : List (Operation V × Effects V)) (slot : Nat) :
    Prop where
  owner : ownerOf n slot = n.id
  live : n.memoryFloor < slot
  window : slot ≤ n.memoryFloor + P.W
  undecided : n.deliveredThrough < slot ∧ ledgerChosenAt P n.ledger slot = none
  fresh : ¬ SuggestedIn n.id trace slot
  promised : ballotRound (governing P n.ledger slot) = 0

/-- What an owner owes the batch `values`: the probe predicts the proposals, a refused batch changes
nothing, the slots of an accepted one are good, and the loops end with no word wrapped. -/
structure AllOrNothing (P : Params) (n : Node V) (trace : List (Operation V × Effects V))
    (values : List V) (capacity : Nat) : Prop where
  predicted : ownSlotsAvailable P n values.length n.ownNext = .none ↔
    (proposeAll (proposeOwned P) (St.start n) values).2.2 = .none
  refused : (nodeProposeBatch P n values capacity).2.2 ≠ .none →
    (nodeProposeBatch P n values capacity).1 = St.start n
  accepted : (nodeProposeBatch P n values capacity).2.2 = .none →
    (nodeProposeBatch P n values capacity).2.1.length = values.length ∧
      (nodeProposeBatch P n values capacity).2.1.Pairwise (· < ·) ∧
        ∀ slot ∈ (nodeProposeBatch P n values capacity).2.1, Taken P n trace slot
  probes : ∀ rounds wanted, P.W < rounds → ownSlotsAvailableWords P n rounds wanted n.ownNext =
    some (ownSlotsAvailable P n wanted n.ownNext)
  proposals : ∀ rounds fuel (earlier : List V) value, P.W < rounds →
    proposeOwnedWords P value rounds (fuel + 1)
        (proposeAll (proposeOwned P) (St.start n) earlier).1 =
      some (proposeOwned P (proposeAll (proposeOwned P) (St.start n) earlier).1 value)

omit [Inhabited V] in
/-- A batch is refused with nothing changed, or it is the sequence of its suggestions. -/
theorem nodeProposeBatch_owned {n : Node V} (hv : n.votingMember = true) (hmode : n.ownership = true)
    (values : List V) (capacity : Nat) :
    (SuggestsBatch P n values.length capacity →
      nodeProposeBatch P n values capacity = proposeAll (proposeOwned P) (St.start n) values) ∧
    (¬ SuggestsBatch P n values.length capacity →
      ∃ e, e ≠ .none ∧ nodeProposeBatch P n values capacity = (St.start n, [], e)) := by
  have hgate : proposalGate n = .none := by simp [proposalGate, hv, hmode]
  unfold nodeProposeBatch
  rw [hgate]
  dsimp only
  constructor
  · rintro ⟨hempty, hlarge, hbuffer, havailable⟩
    rw [if_neg hempty, if_neg (by omega), if_neg (by omega), if_pos hmode, havailable]
  · intro hnot
    split_ifs with hempty hlarge hbuffer
    · exact ⟨_, by simp, rfl⟩
    · exact ⟨_, by simp, rfl⟩
    · exact ⟨_, by simp, rfl⟩
    · cases havailable : ownSlotsAvailable P n values.length n.ownNext with
      | none => exact absurd ⟨hempty, by omega, by omega, havailable⟩ hnot
      | _ => exact ⟨_, by simp, rfl⟩

/-- Batches of suggestions are all-or-nothing, and their slots are undecided exactly when no slot fits
that the owner has released without a cell. -/
theorem ownership_batch_iff {n₀ n : Node V} {trace : List (Operation V × Effects V)}
    (hn₀ : Reachable P n₀) (hmode : n₀.ownership = true) (h : Continues P n₀ n trace)
    (values : List V) (capacity : Nat) :
    AllOrNothing P n trace values capacity ↔
      (SuggestsBatch P n values.length capacity → ¬ ReleasedFits P n) := by
  obtain ⟨hn, hown, hid, hspent⟩ := h.spent hn₀ hmode
  have hv := hn.seated.voter hown
  have ho := hn.fit.opened
  obtain ⟨hword, -⟩ := hn.id_bounds hv
  have howner : Owner P (St.start n).node := ⟨ho, hv, hown, (hn.leads hv).unled hword⟩
  have haligned := ho.aligned hv hown
  obtain ⟨hplaced, hfailed⟩ := @proposeAll_owned V P _ values _ howner
  obtain ⟨hasked, hrefused⟩ := nodeProposeBatch_owned (P := P) hv hown values capacity
  have hpredicted : ownSlotsAvailable P n values.length n.ownNext = .none ↔
      (proposeAll (proposeOwned P) (St.start n) values).2.2 = .none := by
    constructor
    · intro havailable
      obtain ⟨σ', slots, hall, -⟩ := hplaced havailable
      rw [hall]
    · intro hall
      by_contra hne
      exact hfailed hne hall
  have hprobes : ∀ rounds wanted, P.W < rounds →
      ownSlotsAvailableWords P n rounds wanted n.ownNext =
        some (ownSlotsAvailable P n wanted n.ownNext) := fun rounds wanted hrounds =>
    ownSlotsAvailableWords_eq ho hv hrounds wanted haligned
  have hproposals : ∀ rounds fuel (earlier : List V) value, P.W < rounds →
      proposeOwnedWords P value rounds (fuel + 1)
          (proposeAll (proposeOwned P) (St.start n) earlier).1 =
        some (proposeOwned P (proposeAll (proposeOwned P) (St.start n) earlier).1 value) :=
    fun rounds fuel earlier value hrounds =>
      proposeOwnedWords_eq (proposeAll_owner howner) hrounds value fuel
  by_cases hasks : SuggestsBatch P n values.length capacity
  · obtain ⟨σ', slots, hall, hlength, hslots⟩ := hplaced hasks.2.2.2
    have hbatch : nodeProposeBatch P n values capacity = (σ', slots, .none) :=
      (hasked hasks).trans hall
    constructor
    · rintro hdone - ⟨slot, halign, hmax, hnext, hreleased, hfit⟩
      have hne : values ≠ [] := by
        intro hnil
        exact hasks.1 (by rw [hnil]; rfl)
      obtain ⟨first, hfirst, hle⟩ := proposeAll_owned_le howner hfit halign hmax hnext hne hall
      have htaken := (hdone.accepted (by rw [hbatch])).2.2 first (by rw [hbatch]; exact hfirst)
      have := htaken.undecided.1
      omega
    · intro hnone
      refine ⟨hpredicted, fun hne => ?_, fun _ => ?_, hprobes, hproposals⟩
      · rw [hbatch] at hne
        exact absurd rfl hne
      · rw [hbatch]
        refine ⟨hlength, hslots.increasing, fun slot hslot => ?_⟩
        obtain ⟨halign, hmax⟩ := hslots.owned slot hslot
        obtain ⟨hnext, hfit⟩ := hslots.suggestible slot hslot
        refine ⟨halign.owner ho hv hmax, hfit.live, hfit.window, ⟨?_, hfit.undecided⟩, ?_, ?_⟩
        · by_contra hreleased
          exact hnone hasks ⟨slot, halign, hmax, hnext, Nat.le_of_not_lt hreleased, hfit⟩
        · intro hsuggested
          rw [hid] at hsuggested
          exact (hspent slot hsuggested).2.not_suggestible hnext hfit
        · have hmono : ballotRound (governing P n.ledger slot) ≤
              ballotRound (ownershipBallot n.id) := ballotRound_mono hfit.promised
          rw [ballotRound_ownership hword] at hmono
          exact Nat.le_zero.mp hmono
  · obtain ⟨e, he, hbatch⟩ := hrefused hasks
    refine iff_of_true ⟨hpredicted, fun _ => ?_, fun hdone => ?_, hprobes, hproposals⟩
      fun h => absurd h hasks
    · rw [hbatch]
    · rw [hbatch] at hdone
      exact absurd hdone he

end Reachability

/-- The options of an owner. -/
def ownerOptions : NodeOptions :=
  { NodeOptions.zero with rotatingOwnership := true }

/-- With a window of four slots the trio's first member owns slots 1 and 4, and suggests a batch of
two values there. -/
theorem ownership_batch_suggests :
    let n := trioNode (V := Nat) ownerOptions
    (nodeProposeBatch quadParams n [5, 6] 2).2 = ([1, 4], .none) ∧
      AllOrNothing quadParams n [] [5, 6] 2 := by
  intro n
  have hreach : Reachable quadParams n :=
    .init ⟨[1, 2, 3], 0, 0, by decide, by decide⟩ (trioNode_init ownerOptions)
  have hiff := ownership_batch_iff hreach rfl .start [5, 6] 2
  refine ⟨by decide +kernel, hiff.mpr fun _ => ?_⟩
  rintro ⟨slot, -, -, -, hreleased, hfit⟩
  have hlive := hfit.live
  have hdelivered : n.deliveredThrough = 0 := rfl
  omega

/-- The trio's first member releases slot 4, its own, through `pass_through`.  Once its host has
consumed slot 2 it suggests in slot 4, which it knows to be decided. -/
theorem ownership_batch_released :
    ¬ ∀ (n : Node Nat), Reachable trioParams n → n.ownership = true → ∀ values capacity,
      (nodeProposeBatch trioParams n values capacity).2.2 = .none →
        ∀ slot ∈ (nodeProposeBatch trioParams n values capacity).2.1, n.deliveredThrough < slot := by
  intro h
  have hreach : Reachable trioParams (operateAll trioParams (trioNode (V := Nat) ownerOptions)
      [.step ⟨2, 1, .commit 1 11⟩, .step ⟨2, 1, .commit 2 12⟩, .advanceFloor 1,
        .step ⟨2, 1, .commit 3 13⟩, .step ⟨2, 1, .commit 4 14⟩, .advanceFloor 2]) :=
    (trioNode_reachable ownerOptions).all _
  have hsuggests := h _ hreach (by decide +kernel) [99] 1 (by decide +kernel) 4 (by decide +kernel)
  revert hsuggests
  decide +kernel

end PaxosOdin
