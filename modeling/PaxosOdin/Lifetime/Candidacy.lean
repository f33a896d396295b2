import PaxosOdin.Lifetime.Authority
import PaxosOdin.Lifetime.CatchUp
import PaxosOdin.Lifetime.Suggesting

/-!
# Who may campaign

The host may forbid a voter to campaign.  Every way into a campaign looks at that flag but one: a
leader whose inherited gap has timed out runs phase one again without asking.  So a node that may not
campaign takes a new ballot exactly when such a timeout ends in one of its ticks.

Main definitions:

- Definition `Campaigned`: a transition took a new ballot, promised it and asked for it.
- Definition `GapTimesOut`: the tick in which a leader gives up on its inherited gap.

Main results:

- Theorem `campaigned_iff`: the campaigns of a node that may not campaign.
- Theorem `campaign_disabled`: a run has none exactly when no gap times out in it.
- Theorem `disabled_leader_campaigns`: a leader that was told not to campaign does.
-/

namespace PaxosOdin

variable {V : Type} [DecidableEq V] {P : Params}

/-- The transition chose `ballot`, raised the node's own promise to it, and asked every member for
theirs. -/
structure Campaigned (P : Params) (n : Node V) (op : Operation V) (ballot : Nat) : Prop where
  fresh : n.ballot < ballot
  chosen : (operate P n op).node.ballot = ballot
  promised : (operate P n op).node.ledger.promised = ballot
  written : .promise ballot ∈ (operate P n op).effects.writes
  asked : ∀ peer ∈ n.membership.members, ∃ first last,
    ⟨n.id, peer, .prepare ballot first last .global⟩ ∈ (operate P n op).effects.messages

/-- A tick in which a leader's wait for its inherited gap runs out, while slots and rounds are left. -/
structure GapTimesOut (P : Params) (n : Node V) (op : Operation V) : Prop where
  tick : ∃ noop, op = .call (.tick noop)
  voter : n.votingMember = true
  leads : n.role = .leader
  gap : n.deliveredThrough < slotSub n.leaderBase 1
  timeout : n.electionTimeoutTicks ≤ saturatingIncrement n.gapTicks
  slots : n.deliveredThrough ≠ maxSlot
  rounds : nextRound P n ≠ none

/-! ## Transitions that keep the ballot -/

theorem Run.ballot {I : Input V} {σ σ' : St V} (h : Run P I σ σ') :
    σ'.node.ballot = σ.node.ballot :=
  h.preserves (motive := fun τ => τ.node.ballot = σ.node.ballot) (fun hm h => hm.ballot.trans h) rfl

omit [DecidableEq V] in
/-- A transition that is given no no-op ends with the ballot it had. -/
theorem Final.ballot_of_noops {I : Input V} {n₀ : Node V} {σ σ' : St V} (h : Final P I n₀ σ σ')
    (hnoops : I.noops = []) : σ'.node.ballot = σ.node.ballot := by
  cases h with
  | campaign _ hnoop =>
      rw [hnoops] at hnoop
      cases hnoop
  | revoke _ hnoop =>
      rw [hnoops] at hnoop
      cases hnoop
  | answer => rfl

/-- What is given no no-op cannot start a campaign. -/
theorem operate_ballot_of_noops {n : Node V} (ho : Opened P n) {op : Operation V}
    (hnoops : (op.input n).noops = []) : (operate P n op).node.ballot = n.ballot := by
  rcases operate_cases ho op with ⟨τ, hrun, hlast⟩ | ⟨anchor, rfl⟩ | ⟨through, rfl⟩ | ⟨enabled, rfl⟩
  · have hτ : τ.node.ballot = n.ballot := hrun.ballot
    rcases hlast with heq | hfinal
    · rw [heq]
      exact hτ
    · rw [hfinal.ballot_of_noops hnoops]
      exact hτ
  · show (nodeInstallChosenTrim n anchor).1.node.ballot = n.ballot
    unfold nodeInstallChosenTrim
    dsimp only
    split_ifs <;> rfl
  · show (nodeAdvanceMemoryFloor n through).1.ballot = n.ballot
    unfold nodeAdvanceMemoryFloor
    split_ifs <;> rfl
  · rfl

/-- A leader's tick keeps its ballot until its gap times out. -/
theorem tickLeader_ballot {σ : St V} {noop : V}
    (hgap : ¬(σ.node.deliveredThrough < slotSub σ.node.leaderBase 1 ∧
      σ.node.electionTimeoutTicks ≤ saturatingIncrement σ.node.gapTicks)) :
    (tickLeader P σ noop).1.node.ballot = σ.node.ballot := by
  unfold tickLeader
  dsimp only
  rw [if_neg]
  · generalize (if decide (σ.node.deliveredThrough < slotSub σ.node.leaderBase 1) = true then
      saturatingIncrement σ.node.gapTicks else 0) = ticks
    have hresend : ∀ τ : St V, (resendToPeers P τ).node.ballot = τ.node.ballot := by
      intro τ
      exact congrArg Fixed.ballot (resendToPeers_run (I := ({} : Input V)) τ).2
    split_ifs
    · rw [hresend]
      rfl
    · rfl
    · rw [hresend]
    · rfl
  · rintro ⟨hstalled, htimeout⟩
    rw [decide_eq_true_eq] at hstalled
    rw [if_pos (by simpa using hstalled)] at htimeout
    exact hgap ⟨hstalled, htimeout⟩

/-- A tick of a node that may not campaign keeps the ballot until an inherited gap times out. -/
theorem nodeTick_ballot {n : Node V} (ho : Opened P n) (hmode : n.ownership = false)
    (hdisabled : n.campaignEnabled = false) {noop : V}
    (hgap : ¬(n.votingMember = true ∧ n.role = .leader ∧
      n.deliveredThrough < slotSub n.leaderBase 1 ∧
      n.electionTimeoutTicks ≤ saturatingIncrement n.gapTicks)) :
    (nodeTick P n noop).1.node.ballot = n.ballot := by
  unfold nodeTick
  by_cases hv : n.votingMember = true
  · rw [if_neg (by simp [hv])]
    dsimp only
    generalize hσ : St.start { n with
      electionTicks := saturatingIncrement n.electionTicks
      heartbeatTicks := saturatingIncrement n.heartbeatTicks
      resendTicks := saturatingIncrement n.resendTicks } = σ
    have hrun : Run P ({} : Input V) (St.start n) σ := by
      subst hσ
      exact Run.single (Micro.idle (σ := St.start n) (Or.inl rfl) le_rfl le_rfl (Or.inl rfl)
        (Or.inl rfl) fun _ h => h)
    have hballot : σ.node.ballot = n.ballot := hrun.ballot
    have hrole : σ.node.role = n.role := by
      subst hσ
      rfl
    rw [if_neg (by simp [hmode])]
    split_ifs with hlead hprep hcampaign
    · rw [tickLeader_ballot, hballot]
      rintro ⟨hstalled, htimeout⟩
      subst hσ
      exact hgap ⟨hv, hlead, hstalled, htimeout⟩
    · have hchunk := (hrun.opened ho).chunk (hrole.trans hprep.1)
      rw [(maybeResolveChunk_run (I := ({} : Input V)) (hrole.trans hprep.1) hchunk.1
        (Or.inl rfl)).ballot, hballot]
    · rw [hdisabled] at hcampaign
      exact absurd hcampaign.1 (by decide)
    · exact hballot
  · rw [if_pos (by simpa using hv)]
    rfl

/-! ## Campaigns of a node that may not campaign -/

omit [DecidableEq V] in
theorem startCampaign_eq {σ : St V} {round : Nat} (hslots : σ.node.deliveredThrough ≠ maxSlot)
    (hround : nextRound P σ.node = some round) (noop : V) :
    (startCampaign P σ noop).1 =
      broadcastAll
        (St.addWrite
          { σ with node :=
            campaignNode P σ.node (ballotMake round σ.node.priority σ.node.id) noop }
          (.promise (ballotMake round σ.node.priority σ.node.id)))
        (.prepare (ballotMake round σ.node.priority σ.node.id) (σ.node.deliveredThrough + 1)
          (slotAdd (σ.node.deliveredThrough + 1) (P.C - 1)) .global) := by
  unfold startCampaign
  dsimp only
  rw [if_neg hslots, hround]
  rfl

omit [DecidableEq V] in
theorem startCampaign_refused {σ : St V}
    (h : σ.node.deliveredThrough = maxSlot ∨ nextRound P σ.node = none) (noop : V) :
    (startCampaign P σ noop).1 = σ := by
  unfold startCampaign
  dsimp only
  by_cases hslots : σ.node.deliveredThrough = maxSlot
  · rw [if_pos hslots]
  · rw [if_neg hslots, h.resolve_left hslots]

/-- The node whose leader gives up on its gap. -/
def gapNode (n : Node V) : Node V :=
  { n with
    electionTicks := saturatingIncrement n.electionTicks
    heartbeatTicks := saturatingIncrement n.heartbeatTicks
    resendTicks := saturatingIncrement n.resendTicks
    gapTicks := 0 }

/-- The tick of a leader whose gap times out. -/
theorem nodeTick_gap {n : Node V} (hmode : n.ownership = false) (hvoter : n.votingMember = true)
    (hleads : n.role = .leader) (hgap : n.deliveredThrough < slotSub n.leaderBase 1)
    (htimeout : n.electionTimeoutTicks ≤ saturatingIncrement n.gapTicks) (noop : V) :
    (nodeTick P n noop).1 = (startCampaign P (St.start (gapNode n)) noop).1 := by
  unfold nodeTick tickLeader
  rw [if_neg (by simp [hvoter])]
  dsimp only [St.start]
  rw [if_neg (by simp [hmode]), if_pos hleads, if_pos]
  · rfl
  · simp only [decide_eq_true_eq, hgap, if_true]
    exact ⟨trivial, htimeout⟩

/-- A gap that times out makes the leader campaign. -/
theorem GapTimesOut.campaigned {n : Node V} {op : Operation V} (h : GapTimesOut P n op)
    (hmode : n.ownership = false) : ∃ ballot, Campaigned P n op ballot := by
  obtain ⟨noop, rfl⟩ := h.tick
  cases hround : nextRound P n with
  | none => exact absurd hround h.rounds
  | some round =>
      have hround' : nextRound P (St.start (gapNode n)).node = some round := hround
      have hslots : (St.start (gapNode n)).node.deliveredThrough ≠ maxSlot := h.slots
      have hrun : operate P n (.call (.tick noop)) = _ :=
        (nodeTick_gap hmode h.voter h.leads h.gap h.timeout noop).trans
          (startCampaign_eq hslots hround' noop)
      exists ballotMake round n.priority n.id
      constructor
      · exact lt_ballotMake (nextRound_fresh hround).current
      · rw [hrun]
        rfl
      · rw [hrun]
        rfl
      · rw [hrun]
        simp [broadcastAll, St.addMessages, St.addWrite, St.start, gapNode]
      · intro peer hpeer
        exists n.deliveredThrough + 1, slotAdd (n.deliveredThrough + 1) (P.C - 1)
        rw [hrun]
        apply List.mem_append_right
        apply List.mem_map.2
        exact ⟨peer, hpeer, rfl⟩

/-- A node that may not campaign does so exactly when an inherited gap of its term times out. -/
theorem campaigned_iff {n : Node V} (ho : Opened P n) (hmode : n.ownership = false)
    (hdisabled : n.campaignEnabled = false) (op : Operation V) :
    (∃ ballot, Campaigned P n op ballot) ↔ GapTimesOut P n op := by
  constructor
  · rintro ⟨ballot, hcampaigned⟩
    have hraised : (operate P n op).node.ballot ≠ n.ballot := by
      rw [hcampaigned.chosen]
      exact hcampaigned.fresh.ne'
    cases op with
    | call c =>
        cases c with
        | campaign noop =>
            exfalso
            apply hraised
            show (nodeCampaign P n noop).1.node.ballot = n.ballot
            unfold nodeCampaign
            rw [hdisabled]
            split_ifs <;> first | rfl | simp_all
        | tick noop =>
            by_cases hgap : n.votingMember = true ∧ n.role = .leader ∧
                n.deliveredThrough < slotSub n.leaderBase 1 ∧
                n.electionTimeoutTicks ≤ saturatingIncrement n.gapTicks
            · obtain ⟨hvoter, hleads, hstalled, htimeout⟩ := hgap
              refine ⟨⟨noop, rfl⟩, hvoter, hleads, hstalled, htimeout, ?_, ?_⟩
              all_goals
                intro hover
                apply hraised
                show (nodeTick P n noop).1.node.ballot = n.ballot
                rw [nodeTick_gap hmode hvoter hleads hstalled htimeout noop,
                  startCampaign_refused (by first | exact .inl hover | exact .inr hover)]
                rfl
            · exact absurd (nodeTick_ballot ho hmode hdisabled hgap) hraised
        | _ => exact absurd (operate_ballot_of_noops ho rfl) hraised
    | _ => exact absurd (operate_ballot_of_noops ho rfl) hraised
  · intro hgap
    exact hgap.campaigned hmode

/-- The mode of a node never changes. -/
theorem operateAll_mode {n : Node V} (ho : Opened P n) (hmode : n.ownership = false)
    (ops : List (Operation V)) : (operateAll P n ops).ownership = false := by
  induction ops generalizing n with
  | nil => exact hmode
  | cons op ops ih =>
      apply ih (operate_opened ho op)
      rw [(operate_modes ho op).2.2]
      exact hmode

/-- A run of a node in campaign mode never campaigns while it may not, exactly when none of its ticks
then finds a leader whose inherited gap has timed out. -/
theorem campaign_disabled [Inhabited V] {n : Node V} (hn : Reachable P n)
    (hmode : n.ownership = false) (ops : List (Operation V)) :
    (∀ done op rest, ops = done ++ op :: rest →
        (operateAll P n done).campaignEnabled = false →
        ¬∃ ballot, Campaigned P (operateAll P n done) op ballot) ↔
      ∀ done op rest, ops = done ++ op :: rest →
        (operateAll P n done).campaignEnabled = false →
        ¬GapTimesOut P (operateAll P n done) op := by
  have hsame : ∀ done op, (operateAll P n done).campaignEnabled = false →
      ((∃ ballot, Campaigned P (operateAll P n done) op ballot) ↔
        GapTimesOut P (operateAll P n done) op) := by
    intro done op hdisabled
    have ho : Opened P (operateAll P n done) := operateAll_opened hn.fit.opened done
    exact campaigned_iff ho (operateAll_mode hn.fit.opened hmode done) hdisabled op
  constructor
  · intro hnone done op rest hops hdisabled hgap
    exact hnone done op rest hops hdisabled ((hsame done op hdisabled).2 hgap)
  · intro hnone done op rest hops hdisabled hcampaigned
    exact hnone done op rest hops hdisabled ((hsame done op hdisabled).1 hcampaigned)

/-- The trio's first member wins a term above slot 1, which member 2 reports as decided. -/
def gapTerm : List (Operation Nat) :=
  [.call (.campaign 0), .step ⟨1, 1, .prepare (ballotMake 1 0 1) 1 1 .global⟩,
    .step ⟨1, 1, .promiseRange (ballotMake 1 0 1) {} 0 1 1 0 false⟩,
    .step ⟨2, 1, .promiseRange (ballotMake 1 0 1) {} 1 1 1 0 false⟩]

/-- The leader is told not to campaign, and then waits for slot 1 for `ticks` ticks. -/
def gapTicking (ticks : Nat) : List (Operation Nat) :=
  gapTerm ++ .setCampaignEnabled false :: List.replicate ticks (.call (.tick 0))

/-- The gap closes in time when slot 1 is learned after five ticks: the leader, told not to campaign,
does not in any of the ten ticks that follow. -/
theorem campaign_disabled_leader :
    let ops := gapTicking 5 ++ .step ⟨2, 1, .commit 1 7⟩ :: List.replicate 10 (.call (.tick 0))
    (operateAll trioParams (trioNode {}) (gapTicking 5)).gapTicks = 5 ∧
      (operateAll trioParams (trioNode {}) ops).role = .leader ∧
        ∀ done op rest, ops = done ++ op :: rest →
          (operateAll trioParams (trioNode {}) done).campaignEnabled = false →
            ¬∃ ballot, Campaigned trioParams (operateAll trioParams (trioNode {}) done) op ballot := by
  intro ops
  refine ⟨by decide +kernel, by decide +kernel, ?_⟩
  apply (campaign_disabled (trioNode_reachable {}) rfl ops).mpr
  intro done op rest hops _ hgap
  have hearly : ∀ k ∈ List.range 21,
      (operateAll trioParams (trioNode {}) (ops.take k)).deliveredThrough <
          slotSub (operateAll trioParams (trioNode {}) (ops.take k)).leaderBase 1 →
        saturatingIncrement (operateAll trioParams (trioNode {}) (ops.take k)).gapTicks <
          (operateAll trioParams (trioNode {}) (ops.take k)).electionTimeoutTicks := by
    decide +kernel
  have hdone : ops.take done.length = done := by
    rw [hops, List.take_left]
  have hlength : done.length < 21 := by
    have hlengths := congrArg List.length hops
    have hall : ops.length = 21 := by decide
    rw [hall, List.length_append, List.length_cons] at hlengths
    omega
  have hticks := hearly done.length (List.mem_range.mpr hlength)
  rw [hdone] at hticks
  exact absurd (hticks hgap.gap) (not_lt.mpr hgap.timeout)

/-- A leader that was told not to campaign takes a new ballot when its gap times out. -/
theorem disabled_leader_campaigns :
    ¬∀ (P : Params) (n : Node Nat), Reachable P n → n.ownership = false →
        ∀ ops done op rest, ops = done ++ op :: rest →
          (operateAll P n done).campaignEnabled = false →
          ¬∃ ballot, Campaigned P (operateAll P n done) op ballot := by
  intro hall
  apply hall trioParams (trioNode {}) (trioNode_reachable {}) rfl (gapTicking 10) (gapTicking 9)
    (.call (.tick 0)) [] rfl (by decide +kernel)
  apply GapTimesOut.campaigned
  · constructor
    · exact ⟨0, rfl⟩
    all_goals decide +kernel
  · decide +kernel

end PaxosOdin
