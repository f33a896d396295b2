import PaxosOdin.Lifetime.Window
import PaxosOdin.Transition.Growth

/-!
# The capacities of a batch

The arrays of a batch hold the most that one transition can emit, in every state that an incarnation
can reach.  A batch only grows during its transition, so a transition whose finished batch fits never
overran it.

Main definitions:

- Definition `Reachable`: the states of every incarnation, restored ones included.
- Definition `Emitted`: an envelope that a participant with the same parameters sent.

Main results:

- Theorem `operate_adds`: what one operation adds to its batch.
- Theorem `Spread.length_le`: a transition releases at most the window and one slot more.
- Theorem `effects_within_capacity`: no batch outgrows its arrays.
-/

namespace PaxosOdin

variable {V : Type} {P : Params} {I : Input V}

/-! ## The operations -/

/-- A Prepare covers at most one chunk. -/
def Message.Narrow (P : Params) : Message V → Prop
  | .prepare _ first last _ => last < first + P.C
  | _ => True

/-- What every batch of a node relies on. -/
structure Fit (P : Params) (n : Node V) : Prop where
  opened : Opened P n
  sized : Sized P n
  tagged : Tagged P n.ledger
  queue : n.resubmit.length ≤ P.C

section Operations

variable [DecidableEq V]

theorem proposeNext_adds {σ : St V} (hn : Sized P σ.node) (value : V) :
    Adds P σ (proposeNext P σ value).1 2 P.M 0 := by
  have hnext : Adds P σ { σ with node := { σ.node with nextSlot := slotSucc σ.node.nextSlot } } 0 0 0 :=
    .ofNode rfl (le_max_right _ _)
  exact (hnext.trans (sendAccept_adds (hnext.sized hn) σ.node.nextSlot σ.node.ballot value).1).mono
    (Nat.le_of_eq (Nat.zero_add _)) (Nat.le_of_eq (Nat.zero_add _)) le_rfl

theorem nodePropose_adds {n : Node V} (hn : Sized P n) (value : V) :
    Adds P (St.start n) (nodePropose P n value).1 2 P.M 0 := by
  unfold nodePropose
  cases proposalGate n with
  | none =>
      dsimp only
      split_ifs
      · exact (proposeOwned_adds hn value).1
      · exact (Adds.refl _).free
      · exact (Adds.refl _).free
      · exact proposeNext_adds hn value
  | _ => exact (Adds.refl _).free

omit [DecidableEq V] in
/-- A batch adds what its proposals add. -/
theorem proposeAll_adds {propose : St V → V → St V × Nat × Error}
    (hstep : ∀ {σ : St V}, Sized P σ.node → ∀ value, Adds P σ (propose σ value).1 2 P.M 0)
    (values : List V) {σ : St V} (hn : Sized P σ.node) :
    Adds P σ (proposeAll propose σ values).1 (2 * values.length) (P.M * values.length) 0 := by
  induction values generalizing σ with
  | nil => exact .refl σ
  | cons value rest ih =>
      have hfirst := hstep hn value
      unfold proposeAll
      rcases hcase : propose σ value with ⟨τ, slot, e⟩
      rw [hcase] at hfirst
      dsimp only at hfirst
      have hstop : Adds P σ τ (2 * (rest.length + 1)) (P.M * (rest.length + 1)) 0 :=
        hfirst.mono (by omega) (by rw [Nat.mul_succ]; omega) le_rfl
      cases e with
      | none =>
          have hrest : Adds P σ (proposeAll propose τ rest).1 (2 * (rest.length + 1))
              (P.M * (rest.length + 1)) 0 :=
            (hfirst.trans (ih (hfirst.sized hn))).mono (by omega) (by rw [Nat.mul_succ]; omega) le_rfl
          dsimp only
          rcases hcase' : proposeAll propose τ rest with ⟨ρ, slots, e⟩
          rw [hcase'] at hrest
          cases e <;> exact hrest
      | _ => exact hstop

theorem nodeProposeBatch_adds {n : Node V} (hn : Sized P n) (values : List V) (capacity : Nat) :
    Adds P (St.start n) (nodeProposeBatch P n values capacity).1 (2 * P.C) (P.M * P.C) 0 := by
  unfold nodeProposeBatch
  cases proposalGate n with
  | none =>
      dsimp only
      by_cases hempty : values.length = 0
      · rw [if_pos hempty]
        exact (Adds.refl _).free
      rw [if_neg hempty]
      by_cases hlarge : values.length > P.C
      · rw [if_pos hlarge]
        exact (Adds.refl _).free
      rw [if_neg hlarge]
      have hfits : ∀ {propose : St V → V → St V × Nat × Error},
          (∀ {σ : St V}, Sized P σ.node → ∀ value, Adds P σ (propose σ value).1 2 P.M 0) →
          Adds P (St.start n) (proposeAll propose (St.start n) values).1 (2 * P.C) (P.M * P.C) 0 :=
        fun hstep => (proposeAll_adds hstep values hn).mono (by omega)
          (Nat.mul_le_mul_left _ (Nat.le_of_not_lt hlarge)) le_rfl
      split_ifs
      · exact (Adds.refl _).free
      · cases ownSlotsAvailable P n values.length n.ownNext with
        | none => exact hfits fun hσ value => (proposeOwned_adds hσ value).1
        | _ => exact (Adds.refl _).free
      · exact (Adds.refl _).free
      · exact (Adds.refl _).free
      · exact hfits fun hσ value => proposeNext_adds hσ value
  | _ => exact (Adds.refl _).free

omit [DecidableEq V] in
/-- A leader's tick adds a campaign, or a heartbeat and a retransmission to every peer. -/
theorem tickLeader_adds {σ : St V} (hn : Sized P σ.node) (noop : V) :
    Adds P σ (tickLeader P σ noop).1 1 (P.M * P.C + 2 * P.M) 0 := by
  unfold tickLeader
  dsimp only
  by_cases hcampaign : decide (σ.node.deliveredThrough < slotSub σ.node.leaderBase 1) = true ∧
      (if decide (σ.node.deliveredThrough < slotSub σ.node.leaderBase 1) = true then
        saturatingIncrement σ.node.gapTicks else 0) ≥ σ.node.electionTimeoutTicks
  · rw [if_pos hcampaign]
    have hgap : Adds P σ { σ with node := { σ.node with gapTicks := 0 } } 0 0 0 :=
      .ofNode rfl (le_max_right _ _)
    exact (hgap.trans (startCampaign_adds (hgap.sized hn) noop)).mono (by omega) (by omega) le_rfl
  rw [if_neg hcampaign]
  generalize (if decide (σ.node.deliveredThrough < slotSub σ.node.leaderBase 1) = true then
    saturatingIncrement σ.node.gapTicks else 0) = ticks
  generalize hheart : (if σ.node.heartbeatTicks ≥ σ.node.heartbeatIntervalTicks then
    broadcastPeers
      { σ with node := { σ.node with gapTicks := ticks, heartbeatTicks := 0 } }
      (.heartbeat σ.node.ballot σ.node.deliveredThrough)
    else { σ with node := { σ.node with gapTicks := ticks } }) = τ
  have hτ : Adds P σ τ 0 P.M 0 := by
    subst hheart
    split_ifs
    · refine (Adds.broadcastPeers ?_ hn _).mono le_rfl (Nat.le_of_eq (Nat.zero_add _)) le_rfl
      exact .ofNode rfl (le_max_right _ _)
    · refine Adds.free ?_
      exact .ofNode rfl (le_max_right _ _)
  have hresend : (P.C + 1) * P.M = P.M * P.C + P.M := by
    rw [Nat.add_mul, Nat.mul_comm P.C, Nat.one_mul]
  split_ifs
  · have hreset : Adds P σ { τ with node := { τ.node with resendTicks := 0 } } 0 P.M 0 :=
      hτ.withNode rfl (le_max_right _ _)
    exact (hreset.trans (resendToPeers_adds (hreset.sized hn))).mono (Nat.zero_le _) (by omega) le_rfl
  · exact hτ.mono (Nat.zero_le _) (by omega) le_rfl

theorem nodeTick_adds {n : Node V} (hn : Fit P n) (noop : V) :
    Adds P (St.start n) (nodeTick P n noop).1 (2 * P.C + 1) (P.M * P.C + 2 * P.M + 1) 0 := by
  have hchunk : n.role = .preparing → n.recoverLast < n.recoverBase + P.C :=
    fun h => (hn.opened.chunk h).1
  unfold nodeTick
  by_cases hv : (!n.votingMember) = true
  · rw [if_pos hv]
    exact (Adds.refl _).free
  rw [if_neg hv]
  dsimp only
  have htimers : Adds P (St.start n)
      (St.start { n with
        electionTicks := saturatingIncrement n.electionTicks
        heartbeatTicks := saturatingIncrement n.heartbeatTicks
        resendTicks := saturatingIncrement n.resendTicks }) 0 0 0 :=
    ⟨rfl, le_rfl, le_rfl, le_rfl, le_max_right _ _⟩
  have hsized := htimers.sized hn.sized
  split_ifs with hown hlead hprep hcampaign
  · exact (htimers.trans (tickOwnership_adds hsized hchunk hn.queue noop)).mono (by omega) (by omega)
      le_rfl
  · exact (htimers.trans (tickLeader_adds hsized noop)).mono (by omega) (by omega) le_rfl
  · exact (htimers.trans (maybeResolveChunk_adds hsized (hchunk hprep.1))).mono (by omega) (by omega)
      le_rfl
  · exact (htimers.trans (startCampaign_adds hsized noop)).mono (by omega) (by omega) le_rfl
  · exact htimers.free

/-- The most envelopes that one operation adds, whatever the node hears: a batch of messages, or the
reports of the whole window. -/
def Params.messageBound (P : Params) : Nat :=
  max (P.M * P.C + 2 * P.M + 1) (P.W + 1)

/-- The dispatch of a voter: a wide Prepare may report the whole window. -/
theorem dispatch_adds {σ : St V} (hn : Sized P σ.node) (htag : Tagged P σ.node.ledger)
    (hchunk : σ.node.role = .preparing → σ.node.recoverLast < σ.node.recoverBase + P.C)
    (sender member : Nat) (msg : Message V) :
    Adds P σ (dispatch P σ sender member msg).1 (2 * P.C + 1) P.messageBound P.M ∧
      (msg.Narrow P →
        Adds P σ (dispatch P σ sender member msg).1 (2 * P.C + 1) (P.M * P.C + 2 * P.M + 1) P.M) := by
  have hM := P.members_pos
  have hC : P.C ≤ P.M * P.C := Nat.le_mul_of_pos_left _ hM
  have hall : ∀ {τ : St V}, Adds P σ τ (2 * P.C + 1) (P.M * P.C + 2 * P.M + 1) P.M →
      Adds P σ τ (2 * P.C + 1) P.messageBound P.M ∧
        (msg.Narrow P → Adds P σ τ (2 * P.C + 1) (P.M * P.C + 2 * P.M + 1) P.M) :=
    fun h => ⟨h.mono le_rfl (le_max_left _ _) le_rfl, fun _ => h⟩
  cases msg with
  | prepare ballot first last scope =>
      refine ⟨(onPrepare_adds_wide htag first last sender ballot scope).mono (by omega)
        (le_max_right _ _) (Nat.zero_le _), fun hnarrow => ?_⟩
      exact (onPrepare_adds htag hnarrow sender ballot scope).mono (by omega) (by omega)
        (Nat.zero_le _)
  | promise =>
      exact hall ((onPromise_adds hn hchunk _ _ _ _ _ _).mono (by omega) (by omega) (Nat.zero_le _))
  | promiseRange =>
      exact hall ((onPromiseRange_adds hn hchunk _ _ _ _ _ _ _ _).mono (by omega) (by omega)
        (Nat.zero_le _))
  | accept => exact hall ((onAccept_adds σ _ _ _ _).mono (by omega) (by omega) (Nat.zero_le _))
  | accepted => exact hall ((onAccepted_adds hn _ _ _).mono (by omega) (by omega) (Nat.zero_le _))
  | commit => exact hall ((onCommit_adds σ _ _ _).mono (by omega) (Nat.zero_le _) (Nat.zero_le _))
  | learn => exact hall ((onLearn_adds htag _ _ _).mono (Nat.zero_le _) (by omega) hM)
  | nack rejected promised slot decidedThrough =>
      refine hall (Adds.free (.ofNode ?_ ?_))
      · unfold onNack
        dsimp only
        split_ifs <;> rfl
      · unfold onNack
        dsimp only
        split_ifs <;> exact le_max_right _ _
  | heartbeat => exact hall ((onHeartbeat_adds σ _ _ _).mono (by omega) (by omega) (Nat.zero_le _))

/-- One envelope: a wide Prepare may report the whole window. -/
theorem nodeStep_adds {n : Node V} (hn : Fit P n) (e : Envelope V) :
    Adds P (St.start n) (nodeStep P n e).1 (2 * P.C + 1) P.messageBound P.M ∧
      (e.message.Narrow P →
        Adds P (St.start n) (nodeStep P n e).1 (2 * P.C + 1) (P.M * P.C + 2 * P.M + 1) P.M) := by
  have hfree : ∀ {τ : St V}, Adds P (St.start n) τ 0 0 0 →
      Adds P (St.start n) τ (2 * P.C + 1) P.messageBound P.M ∧
        (e.message.Narrow P →
          Adds P (St.start n) τ (2 * P.C + 1) (P.M * P.C + 2 * P.M + 1) P.M) :=
    fun h => ⟨h.free, fun _ => h.free⟩
  unfold nodeStep
  by_cases hrecipient : e.recipient ≠ n.id
  · rw [if_pos hrecipient]
    exact hfree (Adds.refl _)
  rw [if_neg hrecipient]
  cases membershipIndexOf n.membership e.sender with
  | none => exact hfree (Adds.refl _)
  | some member =>
      dsimp only
      generalize hσ : St.start (notePeerProgress n member e.message) = σ
      obtain ⟨hnoted, htag, hchunk⟩ : Adds P (St.start n) σ 0 0 0 ∧ Tagged P σ.node.ledger ∧
          (σ.node.role = .preparing → σ.node.recoverLast < σ.node.recoverBase + P.C) := by
        subst hσ
        unfold notePeerProgress
        cases messageDecidedThrough e.message with
        | none => exact ⟨.refl _, hn.tagged, fun h => (hn.opened.chunk h).1⟩
        | some progress =>
            exact ⟨⟨rfl, le_rfl, le_rfl, le_rfl, le_max_right _ _⟩, hn.tagged,
              fun h => (hn.opened.chunk h).1⟩
      have hsized := hnoted.sized hn.sized
      by_cases hv : (!n.votingMember) = true
      · rw [if_pos hv]
        cases e.message with
        | commit slot value =>
            have hcommit : Adds P (St.start n) (onCommit P σ e.sender slot value).1 (2 * P.C + 1)
                (P.M * P.C + 2 * P.M + 1) P.M :=
              (hnoted.trans (onCommit_adds σ e.sender slot value)).mono (by omega) (Nat.zero_le _)
                (Nat.zero_le _)
            exact ⟨hcommit.mono le_rfl (le_max_left _ _) le_rfl, fun _ => hcommit⟩
        | _ => exact ⟨hnoted.free, fun _ => hnoted.free⟩
      · rw [if_neg hv]
        obtain ⟨hwide, hnarrow⟩ := dispatch_adds hsized htag hchunk e.sender member e.message
        exact ⟨(hnoted.trans hwide).mono (by omega) (by omega) (by omega),
          fun he => (hnoted.trans (hnarrow he)).mono (by omega) (by omega) (by omega)⟩

/-- What one operation adds to its batch. -/
theorem operate_adds {n : Node V} (hn : Fit P n) {op : Operation V}
    (hop : ∀ e, op = .step e → e.message.Narrow P) :
    Adds P (St.start n) (operate P n op) (2 * P.C + 1) (P.M * P.C + 2 * P.M + 1) P.M := by
  have hM := P.members_pos
  have hC : P.C ≤ P.M * P.C := Nat.le_mul_of_pos_left _ hM
  cases op with
  | call c =>
      cases c with
      | campaign noop =>
          show Adds P (St.start n) (nodeCampaign P n noop).1 _ _ _
          unfold nodeCampaign
          split_ifs
          · exact (Adds.refl _).free
          · exact (Adds.refl _).free
          · exact (startCampaign_adds hn.sized noop).mono (by omega) (by omega) (Nat.zero_le _)
      | propose value =>
          exact (nodePropose_adds hn.sized value).mono (by have := P.chunk_pos; omega) (by omega)
            (Nat.zero_le _)
      | proposeBatch values capacity =>
          exact (nodeProposeBatch_adds hn.sized values capacity).mono (by omega) (by omega)
            (Nat.zero_le _)
      | tick noop => exact (nodeTick_adds hn noop).mono le_rfl le_rfl (Nat.zero_le _)
      | reconnected peer =>
          show Adds P (St.start n) (nodeReconnected P n peer).1 _ _ _
          unfold nodeReconnected
          split_ifs
          · exact (Adds.refl _).free
          · exact (Adds.refl _).free
          · exact (resendTo_adds _ peer).mono (Nat.zero_le _) (by omega) (Nat.zero_le _)
          · exact ((Adds.refl _).requestLearn peer).mono (Nat.zero_le _) (by omega) (Nat.zero_le _)
          · exact (Adds.refl _).free
      | requestCatchUp peer fromSlot =>
          show Adds P (St.start n) (nodeRequestCatchUp P n peer fromSlot).1 _ _ _
          unfold nodeRequestCatchUp
          split_ifs
          · exact (Adds.refl _).free
          · exact (Adds.refl _).free
          · exact ((Adds.refl _).sendTo peer _).mono (Nat.zero_le _) (by omega) (Nat.zero_le _)
  | step e => exact (nodeStep_adds hn e).2 (hop e rfl)
  | learnChosen sender slot value =>
      show Adds P (St.start n) (nodeLearnChosen P n sender slot value).1 _ _ _
      unfold nodeLearnChosen
      split_ifs
      · exact (Adds.refl _).free
      · exact (Adds.refl _).free
      · have hhint : Adds P (St.start n)
            (St.start { n with leaderHint := some sender, electionTicks := 0 }) 0 0 0 :=
          ⟨rfl, le_rfl, le_rfl, le_rfl, le_max_right _ _⟩
        exact (hhint.trans (recordCommit_adds _ slot value)).mono (by omega) (Nat.zero_le _)
          (Nat.zero_le _)
  | installTrim anchor =>
      show Adds P (St.start n) (nodeInstallChosenTrim n anchor).1 _ _ _
      unfold nodeInstallChosenTrim
      dsimp only
      have htrim : Adds P (St.start n) ((St.addWrite { node := n } (.trim anchor)).withLedger
          { n.ledger with anchor := anchor }) 1 0 0 := by
        refine ((Adds.refl (St.start n)).addWrite (.trim anchor)).withNode rfl (le_max_right _ _)
      split_ifs
      · exact (Adds.refl _).free
      · exact (Adds.refl _).free
      · exact (Adds.refl _).free
      · exact (Adds.refl _).free
      · exact (Adds.refl _).free
      · refine Adds.mono (htrim.withNode rfl (le_max_right _ _)) (by omega) (Nat.zero_le _)
          (Nat.zero_le _)
      · exact htrim.mono (by omega) (Nat.zero_le _) (Nat.zero_le _)
  | advanceFloor through =>
      show Adds P (St.start n) (St.start (nodeAdvanceMemoryFloor n through).1) _ _ _
      refine Adds.free ⟨?_, le_rfl, le_rfl, le_rfl, ?_⟩ <;>
        unfold nodeAdvanceMemoryFloor <;> split_ifs
      · rfl
      · rfl
      · exact le_max_right _ _
      · exact le_max_right _ _
  | setCampaignEnabled enabled => exact Adds.free ⟨rfl, le_rfl, le_rfl, le_rfl, le_max_right _ _⟩

/-- What one operation adds to its batch, whatever the node hears. -/
theorem operate_bounded {n : Node V} (hn : Fit P n) (op : Operation V) :
    Adds P (St.start n) (operate P n op) (2 * P.C + 1) P.messageBound P.M := by
  by_cases hstep : ∃ e, op = .step e
  · obtain ⟨e, rfl⟩ := hstep
    exact (nodeStep_adds hn e).1
  · have hother : ∀ e, op = .step e → e.message.Narrow P := fun e he => absurd ⟨e, he⟩ hstep
    exact (operate_adds hn hother).mono le_rfl (le_max_left _ _) le_rfl

end Operations

/-! ## What a transition releases -/

theorem cellOf_add_window (P : Params) {slot : Nat} (hslot : 0 < slot) :
    cellOf (slot + P.W) P.W = cellOf slot P.W := by
  rw [cellOf_eq_mod P hslot, cellOf_eq_mod P (by omega),
    show slot + P.W - 1 = slot - 1 + P.W by omega, Nat.add_mod_right]

/-- Nothing is known of the decisions from before a transition. -/
abbrev Anything : Nat → V → Prop :=
  fun _ _ => True

/-- What a transition that began with the frontier at `origin` has released: an entry is still in
its cell, or was passed through; a passed entry is the first one or lies in the window, and no two
in a row were passed. -/
structure Spread (P : Params) (floor origin : Nat) (σ : St V) : Prop where
  delivering : Delivering Anything origin σ
  base : σ.node.memoryFloor = floor
  live : floor ≤ origin
  held : ∀ c ∈ σ.effects.committed, c.passThrough = false →
    (σ.node.ledger.cellAt P c.slot).slot = c.slot
  near : ∀ c ∈ σ.effects.committed, c.passThrough = true →
    c.slot = origin + 1 ∨ c.slot ≤ floor + P.W
  apart : ∀ c ∈ σ.effects.committed, ∀ d ∈ σ.effects.committed, d.slot = c.slot + 1 →
    c.passThrough = true → d.passThrough = false

namespace Spread

variable {floor origin : Nat}

theorem lt_slot {σ : St V} (h : Spread P floor origin σ) {c : Committed V}
    (hc : c ∈ σ.effects.committed) : origin < c.slot := by
  have hmem : c.slot ∈ σ.effects.committed.map (·.slot) := List.mem_map_of_mem hc
  rw [h.delivering.slots, List.mem_range'_1] at hmem
  omega

/-- The entry of a released slot. -/
theorem entry {σ : St V} (h : Spread P floor origin σ) {slot : Nat} (hlow : origin < slot)
    (hhigh : slot ≤ σ.node.deliveredThrough) : ∃ c ∈ σ.effects.committed, c.slot = slot := by
  have hmem : slot ∈ σ.effects.committed.map (·.slot) := by
    rw [h.delivering.slots, List.mem_range'_1]
    omega
  exact List.mem_map.mp hmem

/-- The batch holds one entry for each slot released. -/
theorem length_eq {σ : St V} (h : Spread P floor origin σ) :
    σ.effects.committed.length = σ.node.deliveredThrough - origin := by
  have hlength := congrArg List.length h.delivering.slots
  rwa [List.length_map, List.length_range'] at hlength

/-- The entry of the frontier is the last one, so it tells whether the next slot may be passed. -/
theorem frontier_held {σ : St V} (h : Spread P floor origin σ)
    (hlast : lastReleasedPassedThrough σ.effects = false) {c : Committed V}
    (hc : c ∈ σ.effects.committed) (hslot : c.slot = σ.node.deliveredThrough) :
    c.passThrough = false := by
  unfold lastReleasedPassedThrough at hlast
  cases hget : σ.effects.committed.getLast? with
  | none =>
      rw [List.getLast?_eq_none_iff] at hget
      rw [hget] at hc
      cases hc
  | some l =>
      rw [hget] at hlast
      have hl : l ∈ σ.effects.committed := List.mem_of_getLast? hget
      have hlslot : l.slot = σ.node.deliveredThrough := by
        have hmapped : (σ.effects.committed.map (·.slot)).getLast? = some l.slot := by
          rw [List.getLast?_map, hget]
          rfl
        have hlow := h.lt_slot hc
        rw [h.delivering.slots, show σ.node.deliveredThrough - origin =
          (σ.node.deliveredThrough - origin - 1) + 1 by omega, List.range'_concat,
          List.getLast?_concat] at hmapped
        have := Option.some.inj hmapped
        omega
      rw [h.delivering.entry_unique hc hl (hslot.trans hlslot.symm)]
      exact hlast

/-- A step that releases nothing. -/
theorem frame {σ σ' : St V} (h : Spread P floor origin σ) (hdelivering : Delivering Anything origin σ')
    (hfloor : σ'.node.memoryFloor = σ.node.memoryFloor)
    (hcommitted : σ'.effects.committed = σ.effects.committed)
    (hcells : ∀ i, CellStep P σ.node.memoryFloor i (σ.node.ledger.cells i)
      (σ'.node.ledger.cells i)) : Spread P floor origin σ' := by
  refine ⟨hdelivering, hfloor.trans h.base, h.live, ?_, ?_, ?_⟩ <;> rw [hcommitted]
  · intro c hc hpass
    have hlive := h.lt_slot hc
    have hle := h.live
    exact ((hcells _).held (h.held c hc hpass) (by rw [h.base]; omega)).1
  · exact h.near
  · exact h.apart

/-- The next slot is released from its cell. -/
theorem deliver {σ σ' : St V} (h : Spread P floor origin σ)
    (hdelivering : Delivering Anything origin σ') (hledger : σ'.node.ledger = σ.node.ledger)
    (hfloor : σ'.node.memoryFloor = σ.node.memoryFloor) {value : V}
    (hcommitted : σ'.effects.committed = σ.effects.committed ++
      [⟨σ.node.deliveredThrough + 1, value, false⟩])
    (hheld : (σ.node.ledger.cellAt P (σ.node.deliveredThrough + 1)).slot =
      σ.node.deliveredThrough + 1) : Spread P floor origin σ' := by
  refine ⟨hdelivering, hfloor.trans h.base, h.live, ?_, ?_, ?_⟩ <;> rw [hcommitted]
  · intro c hc hpass
    rw [hledger]
    rcases List.mem_append.mp hc with hc | hc
    · exact h.held c hc hpass
    · cases List.mem_singleton.mp hc
      exact hheld
  · intro c hc hpass
    rcases List.mem_append.mp hc with hc | hc
    · exact h.near c hc hpass
    · cases List.mem_singleton.mp hc
      cases hpass
  · intro c hc d hd hnext hpass
    rcases List.mem_append.mp hd with hd | hd
    · rcases List.mem_append.mp hc with hc | hc
      · exact h.apart c hc d hd hnext hpass
      · cases List.mem_singleton.mp hc
        cases hpass
    · cases List.mem_singleton.mp hd
      rfl

/-- The next slot is released through `pass_through`, whose field the earlier entries share. -/
theorem pass {σ σ' : St V} (h : Spread P floor origin σ)
    (hdelivering : Delivering Anything origin σ') (hledger : σ'.node.ledger = σ.node.ledger)
    (hfloor : σ'.node.memoryFloor = σ.node.memoryFloor) {value : V}
    {rebind : Committed V → Committed V}
    (hrebind : ∀ c, (rebind c).slot = c.slot ∧ (rebind c).passThrough = c.passThrough)
    (hcommitted : σ'.effects.committed = σ.effects.committed.map rebind ++
      [⟨σ.node.deliveredThrough + 1, value, true⟩])
    (hfirst : σ.effects.committed = [] ∨ σ.node.deliveredThrough + 1 ≤ σ.node.memoryFloor + P.W)
    (hlast : lastReleasedPassedThrough σ.effects = false) : Spread P floor origin σ' := by
  have hcases : ∀ c ∈ σ'.effects.committed,
      (∃ c₀ ∈ σ.effects.committed, c.slot = c₀.slot ∧ c.passThrough = c₀.passThrough) ∨
        (c.slot = σ.node.deliveredThrough + 1 ∧ c.passThrough = true) := by
    intro c hc
    rw [hcommitted] at hc
    rcases List.mem_append.mp hc with hc | hc
    · obtain ⟨c₀, hc₀, rfl⟩ := List.mem_map.mp hc
      exact Or.inl ⟨c₀, hc₀, hrebind c₀⟩
    · cases List.mem_singleton.mp hc
      exact Or.inr ⟨rfl, rfl⟩
  refine ⟨hdelivering, hfloor.trans h.base, h.live, ?_, ?_, ?_⟩
  · intro c hc hpass
    rw [hledger]
    rcases hcases c hc with ⟨c₀, hc₀, hslot, hflag⟩ | ⟨-, hflag⟩
    · rw [hslot]
      exact h.held c₀ hc₀ (hflag ▸ hpass)
    · rw [hflag] at hpass
      cases hpass
  · intro c hc hpass
    rcases hcases c hc with ⟨c₀, hc₀, hslot, hflag⟩ | ⟨hslot, -⟩
    · rw [hslot]
      exact h.near c₀ hc₀ (hflag ▸ hpass)
    · rcases hfirst with hempty | hwindow
      · have hlength := h.length_eq
        have hle := h.delivering.le
        rw [hempty, List.length_nil] at hlength
        left
        omega
      · rw [h.base] at hwindow
        exact Or.inr (hslot ▸ hwindow)
  · intro c hc d hd hnext hpass
    rcases hcases d hd with ⟨d₀, hd₀, hslot, hflag⟩ | ⟨hslot, -⟩
    · rcases hcases c hc with ⟨c₀, hc₀, hslot', hflag'⟩ | ⟨hslot', -⟩
      · rw [hflag]
        exact h.apart c₀ hc₀ d₀ hd₀ (by omega) (hflag' ▸ hpass)
      · have hle := h.delivering.slot_le hd₀
        omega
    · rcases hcases c hc with ⟨c₀, hc₀, hslot', hflag'⟩ | ⟨hslot', -⟩
      · have hheld := h.frontier_held hlast hc₀ (by omega)
        rw [hflag', hheld] at hpass
        cases hpass
      · omega

/-- A transition releases at most the window and one slot more. -/
theorem length_le {σ : St V} (h : Spread P floor origin σ) :
    σ.effects.committed.length ≤ P.W + 1 := by
  by_contra hlong
  rw [h.length_eq] at hlong
  have hW := P.window_pos
  have hlive := h.live
  -- a slot a window above another released one was not passed, so the lower one was
  have hpassed : ∀ slot, origin < slot → slot + P.W ≤ σ.node.deliveredThrough →
      ∃ c ∈ σ.effects.committed, c.slot = slot ∧ c.passThrough = true := by
    intro slot hlow hhigh
    obtain ⟨c, hc, hcslot⟩ := h.entry hlow (by omega)
    obtain ⟨d, hd, hdslot⟩ := h.entry (show origin < slot + P.W by omega) hhigh
    refine ⟨c, hc, hcslot, ?_⟩
    have hdheld : (σ.node.ledger.cellAt P d.slot).slot = d.slot := by
      refine h.held d hd ?_
      rw [Bool.eq_false_iff]
      intro hpass
      rcases h.near d hd hpass with hnear | hnear <;> omega
    by_contra hpass
    have hcheld := h.held c hc (Bool.eq_false_iff.mpr hpass)
    rw [hdslot, Ledger.cellAt, cellOf_add_window P (by omega)] at hdheld
    rw [hcslot, Ledger.cellAt] at hcheld
    omega
  obtain ⟨c, hc, hcslot, hcpass⟩ := hpassed (origin + 1) (by omega) (by omega)
  obtain ⟨d, hd, hdslot, hdpass⟩ := hpassed (origin + 2) (by omega) (by omega)
  have hfalse := h.apart c hc d hd (by omega) hcpass
  rw [hdpass] at hfalse
  cases hfalse

end Spread

section Steps

variable [DecidableEq V] {floor origin : Nat}

/-- What one small step releases, and from where. -/
theorem Micro.spread {σ σ' : St V} (hm : Micro P I σ σ') (h : Spread P floor origin σ) :
    Spread P floor origin σ' := by
  have hdelivering := hm.delivering h.delivering
  have hfloor := memoryFloor_of_static hm.static
  have hcells := fun i => hm.cell i
  cases hm with
  | learn hl =>
      cases hl with
      | deliver _ hheld _ => exact h.deliver hdelivering rfl rfl rfl hheld
      | @pass slot value _ hnext _ _ _ hfirst hlast =>
          subst hnext
          refine h.pass hdelivering rfl rfl (fun c => ?_) rfl hfirst hlast
          split_ifs <;> exact ⟨rfl, rfl⟩
      | _ => exact h.frame hdelivering hfloor rfl hcells
  | _ => exact h.frame hdelivering hfloor rfl hcells

theorem Completes.spread {n₀ : Node V} {σ σ' : St V} (hc : Completes P I n₀ σ σ')
    (h : Spread P floor origin σ) : Spread P floor origin σ' := by
  obtain ⟨τ, hrun, hlast⟩ := hc
  have hτ : Spread P floor origin τ :=
    hrun.preserves (motive := Spread P floor origin) (fun hm hs => hm.spread hs) h
  rcases hlast with rfl | hfinal
  · exact hτ
  · have hcells := hfinal.releases.2.2
    refine hτ.frame (hfinal.delivering hτ.delivering) (memoryFloor_of_static hfinal.static)
      ?_ fun i => .same (by rw [hcells])
    cases hfinal <;> rfl

/-- A whole transition releases at most the window and one slot more. -/
theorem Completes.committed_le {n : Node V} {σ : St V} (hc : Completes P I n (St.start n) σ)
    (ho : Opened P n) : σ.effects.committed.length ≤ P.W + 1 := by
  have hstart : Spread P n.memoryFloor n.deliveredThrough (St.start n) := by
    refine ⟨Remembered.delivering fun _ _ _ => trivial, rfl, ho.floor, ?_, ?_, ?_⟩
    · exact fun _ hc => absurd hc List.not_mem_nil
    · exact fun _ hc => absurd hc List.not_mem_nil
    · exact fun _ hc => absurd hc List.not_mem_nil
  exact (hc.spread hstart).length_le

/-- One operation releases at most the window and one slot more. -/
theorem operate_committed {n : Node V} (ho : Opened P n) (op : Operation V) :
    (operate P n op).effects.committed.length ≤ P.W + 1 := by
  rcases operate_cases ho op with hc | ⟨anchor, rfl⟩ | ⟨through, rfl⟩ | ⟨enabled, rfl⟩
  · exact hc.committed_le ho
  · rw [show (operate P n (.installTrim anchor)).effects.committed = [] from
      (nodeInstallChosenTrim_quiet n anchor).2.2]
    exact Nat.zero_le _
  · exact Nat.zero_le _
  · exact Nat.zero_le _

/-! ## What a participant sends -/

omit [DecidableEq V] in
/-- A trim that is adopted sends nothing. -/
theorem nodeInstallChosenTrim_silent (n : Node V) (anchor : TrimAnchor) :
    (nodeInstallChosenTrim n anchor).1.effects.messages = [] := by
  unfold nodeInstallChosenTrim
  dsimp only
  split_ifs <;> rfl

/-- A small step announces at most one chunk. -/
theorem Micro.narrow {σ σ' : St V} (hm : Micro P I σ σ')
    (h : ∀ e ∈ σ.effects.messages, e.message.Narrow P) :
    ∀ e ∈ σ'.effects.messages, e.message.Narrow P := by
  cases hm with
  | learn hl =>
      cases hl with
      | send hs =>
          intro e he
          rcases List.mem_append.mp he with he | he
          · exact h e he
          · obtain ⟨-, hback⟩ := hs e he
            cases hmsg : e.message with
            | prepare =>
                rw [hmsg] at hback
                exact hback.elim
            | _ => trivial
      | _ => exact h
  | nextChunk =>
      intro e he
      have hchunk := P.chunk_pos
      have hlast := slotAdd_le_add (σ.node.recoverLast + 1) (P.C - 1)
      rcases List.mem_append.mp he with he | he
      · exact h e he
      · obtain ⟨peer, -, rfl⟩ := List.mem_map.mp he
        show (if σ.node.ownership = true then
          min (slotAdd (σ.node.recoverLast + 1) (P.C - 1))
            (max σ.node.highestSeen (σ.node.recoverLast + 1))
          else slotAdd (σ.node.recoverLast + 1) (P.C - 1)) < σ.node.recoverLast + 1 + P.C
        split_ifs <;> omega
  | _ => exact h

omit [DecidableEq V] in
/-- A campaign announces at most one chunk, and an answer is no Prepare. -/
theorem Final.narrow {n₀ : Node V} {σ σ' : St V} (hf : Final P I n₀ σ σ')
    (h : ∀ e ∈ σ.effects.messages, e.message.Narrow P) :
    ∀ e ∈ σ'.effects.messages, e.message.Narrow P := by
  have hchunk := P.chunk_pos
  cases hf with
  | campaign =>
      intro e he
      have hlast := slotAdd_le_add (σ.node.deliveredThrough + 1) (P.C - 1)
      rcases List.mem_append.mp he with he | he
      · exact h e he
      · obtain ⟨peer, -, rfl⟩ := List.mem_map.mp he
        show slotAdd (σ.node.deliveredThrough + 1) (P.C - 1) < σ.node.deliveredThrough + 1 + P.C
        omega
  | @revoke _ _ last _ _ _ _ _ _ _ _ _ _ _ hlast =>
      intro e he
      rcases List.mem_append.mp he with he | he
      · exact h e he
      · obtain ⟨peer, -, rfl⟩ := List.mem_map.mp he
        show last < σ.node.deliveredThrough + 1 + P.C
        omega
  | answer =>
      intro e he
      rcases List.mem_append.mp he with he | he
      · rcases List.mem_append.mp he with he | he
        · exact h e he
        · obtain ⟨cell, -, rfl⟩ := List.mem_map.mp he
          trivial
      · cases List.mem_singleton.mp he
        trivial

/-- Whatever an operation sends announces at most one chunk. -/
theorem operate_narrow {n : Node V} (ho : Opened P n) (op : Operation V) :
    ∀ e ∈ (operate P n op).effects.messages, e.message.Narrow P := by
  rcases operate_cases ho op with ⟨τ, hrun, hlast⟩ | ⟨anchor, rfl⟩ | ⟨through, rfl⟩ | ⟨enabled, rfl⟩
  · have hτ : ∀ e ∈ τ.effects.messages, e.message.Narrow P :=
      hrun.preserves (motive := fun τ => ∀ e ∈ τ.effects.messages, e.message.Narrow P)
        (fun hm hn => hm.narrow hn) fun _ he => absurd he List.not_mem_nil
    rcases hlast with heq | hfinal
    · rwa [heq]
    · exact hfinal.narrow hτ
  · have hadds := nodeInstallChosenTrim_silent n anchor
    intro e he
    rw [show (operate P n (.installTrim anchor)).effects.messages = [] from hadds] at he
    cases he
  · exact fun _ he => absurd he List.not_mem_nil
  · exact fun _ he => absurd he List.not_mem_nil

end Steps

/-! ## Every reachable state -/

/-- A membership that `membership_init` admits for these parameters. -/
def Compiled (P : Params) (membership : Membership) : Prop :=
  ∃ nodeIds readQuorum writeQuorum, (∀ id ∈ nodeIds, id < 2 ^ 16) ∧
    membershipInit P nodeIds readQuorum writeQuorum = .ok membership

section Reachability

variable [DecidableEq V] [Inhabited V]

/-- The states of every incarnation in either mode: opened, restored from a replayed journal or
continued after a stop, and then whatever the host asks and whatever the node hears. -/
inductive Reachable (P : Params) : Node V → Prop
  | init {id : Nat} {membership : Membership} {options : NodeOptions} {n : Node V}
      (hm : Compiled P membership) (h : nodeInit id membership options = .ok n) : Reachable P n
  | learner {id : Nat} {membership : Membership} {n : Node V} (hm : Compiled P membership)
      (h : nodeInitLearner id membership = .ok n) : Reachable P n
  | restore {id floor : Nat} {membership : Membership} {options : NodeOptions}
      {journal : List (Write V)} {ledger : Ledger V} {n : Node V} (hm : Compiled P membership)
      (hfloor : floor ≤ maxSlot) (hwords : ∀ w ∈ journal, w.Word)
      (hreplay : replay P journal = (ledger, .none))
      (h : nodeRestore P id membership ledger floor options = .ok n) : Reachable P n
  | restoreLearner {id : Nat} {membership : Membership} {journal : List (Write V)}
      {ledger : Ledger V} {n : Node V} (hm : Compiled P membership)
      (hwords : ∀ w ∈ journal, w.Word) (hreplay : replay P journal = (ledger, .none))
      (h : nodeRestoreLearner P id membership ledger = .ok n) : Reachable P n
  | continueAt {id floor : Nat} {membership : Membership} {anchor : TrimAnchor}
      {options : NodeOptions} {n : Node V} (hm : Compiled P membership) (hfloor : floor ≤ maxSlot)
      (h : nodeContinueAt P id membership floor anchor options = .ok n) : Reachable P n
  | recover {n n' : Node V} {anchor : TrimAnchor} (hn : Reachable P n)
      (hwords : n.ledger.Words) (hanchor : anchor.chosenTrimSlot ≤ maxSlot)
      (h : nodeBeginRecovery P n anchor = .ok n') : Reachable P n'
  | operate {n : Node V} (hn : Reachable P n) (op : Operation V) :
      Reachable P (operate P n op).node

/-- The ways a node is opened: freshly, from the fold of its journal, or at the floor of an earlier
configuration. -/
inductive Opens (P : Params) : Node V → Prop
  | init {id : Nat} {membership : Membership} {options : NodeOptions} {n : Node V}
      (hm : Compiled P membership) (h : nodeInit id membership options = .ok n) : Opens P n
  | learner {id : Nat} {membership : Membership} {n : Node V} (hm : Compiled P membership)
      (h : nodeInitLearner id membership = .ok n) : Opens P n
  | restore {id floor : Nat} {membership : Membership} {options : NodeOptions}
      {journal : List (Write V)} {ledger : Ledger V} {n : Node V} (hm : Compiled P membership)
      (hfloor : floor ≤ maxSlot) (hwords : ∀ w ∈ journal, w.Word)
      (hreplay : replay P journal = (ledger, .none))
      (h : nodeRestore P id membership ledger floor options = .ok n) : Opens P n
  | restoreLearner {id : Nat} {membership : Membership} {journal : List (Write V)}
      {ledger : Ledger V} {n : Node V} (hm : Compiled P membership)
      (hwords : ∀ w ∈ journal, w.Word) (hreplay : replay P journal = (ledger, .none))
      (h : nodeRestoreLearner P id membership ledger = .ok n) : Opens P n
  | continueAt {id floor : Nat} {membership : Membership} {anchor : TrimAnchor}
      {options : NodeOptions} {n : Node V} (hm : Compiled P membership) (hfloor : floor ≤ maxSlot)
      (h : nodeContinueAt P id membership floor anchor options = .ok n) : Opens P n

/-- An opened node is reachable. -/
theorem Opens.reachable {n : Node V} (h : Opens P n) : Reachable P n := by
  cases h with
  | init hm h => exact .init hm h
  | learner hm h => exact .learner hm h
  | restore hm hfloor hwords hreplay h => exact .restore hm hfloor hwords hreplay h
  | restoreLearner hm hwords hreplay h => exact .restoreLearner hm hwords hreplay h
  | continueAt hm hfloor h => exact .continueAt hm hfloor h

/-- Whatever follows leaves a reachable node reachable. -/
theorem Reachable.all {n : Node V} (hn : Reachable P n) (ops : List (Operation V)) :
    Reachable P (operateAll P n ops) := by
  induction ops generalizing n with
  | nil => exact hn
  | cons op ops ih => exact ih (hn.operate op)

omit [DecidableEq V] [Inhabited V] in
theorem Compiled.sized {membership : Membership} (h : Compiled P membership) :
    membership.Valid ∧ membership.members.length ≤ P.M := by
  obtain ⟨nodeIds, readQuorum, writeQuorum, hids, hinit⟩ := h
  refine ⟨membershipInit_valid hids hinit, ?_⟩
  unfold membershipInit at hinit
  simp only at hinit
  split_ifs at hinit
  cases hinit
  rw [List.length_insertionSort]
  omega

omit [DecidableEq V] in
/-- A node that was just initialized is a fit one, with an empty ledger. -/
theorem nodeInit_fit {id : Nat} {membership : Membership} {options : NodeOptions} {n : Node V}
    (hm : Compiled P membership) (h : nodeInit id membership options = .ok n) :
    Fit P n ∧ n.role = .follower := by
  obtain ⟨hopened, hrole, hledger, -⟩ := nodeInit_opened hm.sized.1 h
  unfold nodeInit at h
  split at h
  · cases h
  · cases h
    refine ⟨⟨hopened, hm.sized.2, fun i h0 => ?_, Nat.zero_le _⟩, hrole⟩
    rw [hledger] at h0
    exact absurd rfl h0

omit [DecidableEq V] [Inhabited V] in
/-- A fit follower stays fit when its window is resumed. -/
theorem Fit.resumed {n : Node V} (h : Fit P n) (hrole : n.role = .follower)
    (hslots : ∀ cell, (n.ledger.cells cell).slot ≤ maxSlot) {base : Nat} (hbase : base ≤ maxSlot) :
    Fit P (nodeResumeAt P n base) := by
  refine ⟨nodeResumeAt_opened hrole h.opened.member h.opened.small hslots hbase, ?_, ?_, ?_⟩
  · have hsized := h.sized
    unfold Sized nodeResumeAt at *
    dsimp only
    split_ifs <;> exact hsized
  · have hledger : (nodeResumeAt P n base).ledger = clearOpenCells P n.ledger base := by
      unfold nodeResumeAt
      dsimp only
      split_ifs <;> rfl
    intro i
    rw [hledger, (clearOpenCells_cells base n.ledger).cells]
    split_ifs
    · exact fun h0 => absurd rfl h0
    · exact h.tagged i
  · have hqueue := h.queue
    unfold nodeResumeAt
    dsimp only
    split_ifs <;> exact hqueue

omit [Inhabited V] in
/-- Every operation keeps a node fit, whatever it hears. -/
theorem operate_fit {n : Node V} (hn : Fit P n) (op : Operation V) :
    Fit P (operate P n op).node := by
  have hadds := operate_bounded hn op
  refine ⟨operate_opened hn.opened op, ?_, ?_, hadds.queue.trans (max_le le_rfl hn.queue)⟩
  · unfold Sized
    rw [hadds.membership]
    exact hn.sized
  · rcases operate_cases hn.opened op with ⟨τ, hrun, hlast⟩ | ⟨anchor, rfl⟩ | ⟨through, rfl⟩ |
      ⟨enabled, rfl⟩
    · have hτ : Tagged P τ.node.ledger := hrun.tagged hn.tagged
      rcases hlast with heq | hfinal
      · rwa [heq]
      · unfold Tagged
        rw [hfinal.releases.2.2]
        exact hτ
    · have hcells := (nodeInstallChosenTrim_quiet n anchor).2.1
      unfold Tagged
      rw [show (operate P n (.installTrim anchor)).node.ledger.cells = n.ledger.cells from hcells]
      exact hn.tagged
    · show Tagged P (nodeAdvanceMemoryFloor n through).1.ledger
      unfold nodeAdvanceMemoryFloor
      split_ifs <;> exact hn.tagged
    · exact hn.tagged

/-- Every reachable node is a fit one. -/
theorem Reachable.fit {n : Node V} (h : Reachable P n) : Fit P n := by
  have hledger : ∀ {n : Node V} {l : Ledger V}, Fit P n → Tagged P l →
      Fit P { n with ledger := l } := fun hn htag =>
    ⟨⟨hn.opened.member, hn.opened.small, hn.opened.aligned, hn.opened.term, hn.opened.chunk,
      hn.opened.floor, hn.opened.last⟩, hn.sized, htag, hn.queue⟩
  have hlearner : ∀ {id : Nat} {membership : Membership} {n : Node V}, Compiled P membership →
      nodeInitLearner id membership = .ok n → Fit P n ∧ n.role = .follower := by
    intro id membership n hm h
    unfold nodeInitLearner at h
    split_ifs at h
    split at h
    · cases h
    · next n₀ hinit =>
        cases h
        obtain ⟨⟨hopened, hsized, htag, hqueue⟩, hrole⟩ := nodeInit_fit hm hinit
        refine ⟨⟨⟨fun h => (by cases h), hopened.small, fun h => (by cases h), hopened.term,
          hopened.chunk, hopened.floor, hopened.last⟩, hsized, htag, hqueue⟩, hrole⟩
  induction h with
  | init hm h => exact (nodeInit_fit hm h).1
  | learner hm h => exact (hlearner hm h).1
  | restore hm hfloor hwords hreplay h =>
      have hsource := replay_source hreplay
      unfold nodeRestore at h
      split at h
      · cases h
      · next n₀ hinit =>
          cases h
          obtain ⟨hfit, hrole⟩ := nodeInit_fit hm hinit
          have hledger' := hsource.words hwords
          exact (hledger hfit fun i h0 => (hsource.owner i h0).1).resumed hrole
            hledger'.slots (max_le hfloor hledger'.anchor)
  | restoreLearner hm hwords hreplay h =>
      have hsource := replay_source hreplay
      unfold nodeRestoreLearner at h
      split at h
      · cases h
      · next n₀ hinit =>
          cases h
          obtain ⟨hfit, hrole⟩ := hlearner hm hinit
          have hledger' := hsource.words hwords
          exact (hledger hfit fun i h0 => (hsource.owner i h0).1).resumed hrole
            hledger'.slots hledger'.anchor
  | @continueAt id floor membership anchor options n hm hfloor h =>
      unfold nodeContinueAt at h
      split_ifs at h with hanchor
      split at h
      · cases h
      · next n₀ hinit =>
          cases h
          obtain ⟨hfit, hrole⟩ := nodeInit_fit hm hinit
          have hcells := (nodeInit_opened (P := P) hm.sized.1 hinit).2.2.1
          have htag : Tagged P { n₀.ledger with anchor := anchor } := hfit.tagged
          refine (hledger hfit htag).resumed hrole (fun cell => ?_) hfloor
          show (n₀.ledger.cells cell).slot ≤ maxSlot
          rw [hcells]
          exact Nat.zero_le _
  | @recover n n' anchor _ hwords hanchor h ih =>
      unfold nodeBeginRecovery at h
      split at h
      · next l hl =>
          cases h
          have hcells := ledgerApply_trim_cells hl
          have htag : Tagged P l := by
            unfold Tagged
            rw [hcells]
            exact ih.tagged
          obtain ⟨hopened, hsized, -, hqueue⟩ := ih
          refine Fit.resumed ?_ rfl (fun cell => ?_) hanchor
          · exact ⟨⟨hopened.member, hopened.small, hopened.aligned, fun h => (by cases h),
              fun h => (by cases h), hopened.floor, hopened.last⟩, hsized, htag, hqueue⟩
          · show (l.cells cell).slot ≤ maxSlot
            rw [hcells]
            exact hwords.slots cell
      · cases h
  | operate _ op ih => exact operate_fit ih op

/-- An envelope of a participant with these parameters: sent by a transition, or a decision that its
host serves. -/
inductive Emitted (P : Params) (e : Envelope V) : Prop
  | sent {n : Node V} (hn : Reachable P n) (op : Operation V)
      (h : e ∈ (operate P n op).effects.messages)
  | served {slot : Nat} {value : V} (h : e.message = .commit slot value)

theorem Emitted.narrow {e : Envelope V} (h : Emitted P e) : e.message.Narrow P := by
  cases h with
  | sent hn op h => exact operate_narrow hn.fit.opened op e h
  | served h =>
      rw [h]
      trivial

/-- The batch fits the arrays of `Effects`. -/
structure Effects.WithinCapacity (P : Params) (e : Effects V) : Prop where
  writes : e.writes.length ≤ 2 * P.C + 1
  messages : e.messages.length ≤ P.M * P.C + 2 * P.M + 1
  committed : e.committed.length ≤ P.W + 1
  requests : e.requests.length ≤ P.M

omit [DecidableEq V] [Inhabited V] in
/-- Whatever fits when a transition goes on has always fitted. -/
theorem Effects.WithinCapacity.of_le {e e' : Effects V} (h : e'.WithinCapacity P)
    (hwrites : e.writes.length ≤ e'.writes.length)
    (hmessages : e.messages.length ≤ e'.messages.length)
    (hcommitted : e.committed.length ≤ e'.committed.length)
    (hrequests : e.requests.length ≤ e'.requests.length) : e.WithinCapacity P :=
  ⟨hwrites.trans h.writes, hmessages.trans h.messages, hcommitted.trans h.committed,
    hrequests.trans h.requests⟩

omit [Inhabited V] in
/-- A batch only grows while its transition goes on. -/
theorem Micro.within_capacity {σ σ' : St V} (hm : Micro P I σ σ')
    (h : σ'.effects.WithinCapacity P) : σ.effects.WithinCapacity P := by
  have happend : ∀ {α : Type} (l l' : List α), l.length ≤ (l ++ l').length := fun l l' => by
    rw [List.length_append]
    exact Nat.le_add_right _ _
  cases hm with
  | learn hl =>
      cases hl with
      | choose => exact h.of_le (happend _ _) le_rfl le_rfl le_rfl
      | pass =>
          refine h.of_le ?_ le_rfl ?_ le_rfl
          · exact (List.length_map _).ge.trans (happend _ _)
          · exact (List.length_map _).ge.trans (happend _ _)
      | deliver => exact h.of_le le_rfl le_rfl (happend _ _) le_rfl
      | send => exact h.of_le le_rfl (happend _ _) le_rfl le_rfl
      | request => exact h.of_le le_rfl le_rfl le_rfl (happend _ _)
      | _ => exact h
  | promise | promiseAt | vote | drive | own => exact h.of_le (happend _ _) le_rfl le_rfl le_rfl
  | nextChunk => exact h.of_le le_rfl (happend _ _) le_rfl le_rfl
  | _ => exact h

omit [DecidableEq V] [Inhabited V] in
theorem Final.within_capacity {n₀ : Node V} {σ σ' : St V} (hf : Final P I n₀ σ σ')
    (h : σ'.effects.WithinCapacity P) : σ.effects.WithinCapacity P := by
  have happend : ∀ {α : Type} (l l' : List α), l.length ≤ (l ++ l').length := fun l l' => by
    rw [List.length_append]
    exact Nat.le_add_right _ _
  cases hf with
  | campaign => exact h.of_le (happend _ _) (happend _ _) le_rfl le_rfl
  | revoke => exact h.of_le le_rfl (happend _ _) le_rfl le_rfl
  | answer => exact h.of_le le_rfl ((happend _ _).trans (happend _ _)) le_rfl le_rfl

omit [Inhabited V] in
theorem Completes.within_capacity {n₀ : Node V} {σ σ' : St V} (hc : Completes P I n₀ σ σ')
    (h : σ'.effects.WithinCapacity P) : σ.effects.WithinCapacity P := by
  obtain ⟨τ, hrun, hlast⟩ := hc
  have hτ : τ.effects.WithinCapacity P := by
    rcases hlast with rfl | hfinal
    · exact h
    · exact hfinal.within_capacity h
  clear hlast h
  induction hrun with
  | refl => exact hτ
  | tail _ hm ih => exact ih (hm.within_capacity hτ)

/-- No transition of a reachable node outgrows its batch, neither at its end nor on its way. -/
theorem effects_within_capacity {n : Node V} (hn : Reachable P n) {op : Operation V}
    (hheard : ∀ e, op = .step e → Emitted P e) :
    (operate P n op).effects.WithinCapacity P ∧
      ∀ τ, Run P (op.input n) (St.start n) τ → Completes P (op.input n) n τ (operate P n op) →
        τ.effects.WithinCapacity P := by
  have hadds := operate_adds hn.fit fun e he => (hheard e he).narrow
  have hempty : ∀ {α : Type} {k : Nat}, ([] : List α).length + k = k := fun {_ _} => Nat.zero_add _
  have hfits : (operate P n op).effects.WithinCapacity P :=
    ⟨hadds.writes.trans hempty.le, hadds.messages.trans hempty.le,
      operate_committed hn.fit.opened op, hadds.requests.trans hempty.le⟩
  exact ⟨hfits, fun τ _ hrest => hrest.within_capacity hfits⟩

/-- A member answers its own Prepare. -/
theorem effects_within_capacity_prepare :
    let n := (nodeCampaign trioParams (trioNode (V := Nat) {}) 0).1.node
    (operate trioParams n (.step ⟨1, 1, .prepare n.ballot 1 1 .global⟩)).effects.WithinCapacity
      trioParams := by
  have hopened : Reachable trioParams (trioNode (V := Nat) {}) :=
    .init ⟨[1, 2, 3], 0, 0, by decide, by decide⟩ (trioNode_init {})
  refine (effects_within_capacity (hopened.operate (.call (.campaign 0))) fun e he => ?_).1
  cases he
  exact .sent hopened (.call (.campaign 0)) (by decide)

end Reachability

end PaxosOdin
