import PaxosOdin.Transition.Owning
import PaxosOdin.Cluster.Host

/-!
# Every public operation is a sequence of small steps

Each operation of a participant starts from reset effects, takes small steps and ends with
at most one step of `Final`.

Main results:

- Theorem `runCall_completes`: the operations a host calls.
- Theorem `nodeStep_completes`: one authenticated envelope.
- Theorem `nodeLearnChosen_completes`: a certified decision, on a learner.
-/

namespace PaxosOdin

variable {V : Type} [DecidableEq V] {P : Params} {I : Input V}

/-- What a call gives to the node. -/
def Call.input : Call V → Input V
  | .campaign noop => { noops := [noop] }
  | .propose value => { values := [value] }
  | .proposeBatch values _ => { values := values }
  | .tick noop => { noops := [noop] }
  | .reconnected _ => {}
  | .requestCatchUp _ fromSlot => { catchUp := some fromSlot }

/-- What an envelope gives to the node. -/
def Envelope.input (e : Envelope V) : Input V :=
  { heard := some e }

/-! ## Campaigns -/

omit [DecidableEq V] in
/-- A campaign ends its transition, or is refused. -/
theorem startCampaign_run {n₀ : Node V} {σ : St V} {noop : V} (hmode : n₀.ownership = false)
    (hnoop : noop ∈ I.noops) :
    (startCampaign P σ noop).1 = σ ∨ Final P I n₀ σ (startCampaign P σ noop).1 := by
  unfold startCampaign
  dsimp only
  by_cases hmax : σ.node.deliveredThrough = maxSlot
  · rw [if_pos hmax]
    exact Or.inl rfl
  rw [if_neg hmax]
  rcases hround : nextRound P σ.node with _ | round
  · exact Or.inl rfl
  · exact Or.inr (Final.campaign hmode hnoop hround hmax)

/-- Starting a campaign takes the moves of a campaign. -/
theorem startCampaign_completes {n₀ : Node V} {σ : St V} {noop : V} (hmode : n₀.ownership = false)
    (hnoop : noop ∈ I.noops) : Completes P I n₀ σ (startCampaign P σ noop).1 :=
  ⟨σ, Run.refl σ, startCampaign_run hmode hnoop⟩

/-- So does the call that asks for one. -/
theorem nodeCampaign_completes {n : Node V} {noop : V} (hnoop : noop ∈ I.noops) :
    Completes P I n (St.start n) (nodeCampaign P n noop).1 := by
  unfold nodeCampaign
  split_ifs with hv hmode
  · exact (Run.refl _).completes
  · exact (Run.refl _).completes
  · simp only [Bool.not_eq_true, Bool.or_eq_false_iff] at hmode
    exact startCampaign_completes hmode.2 hnoop

/-! ## Proposals -/

/-- What a leader needs to propose `count` values in a row. -/
structure Leading (I : Input V) (count : Nat) (σ : St V) : Prop where
  role : σ.node.role = .leader
  mode : σ.node.ownership = false
  term : σ.node.leaderBase ≤ σ.node.nextSlot
  room : ∀ k < count, σ.node.nextSlot + k ≠ maxSlot

/-- A leader's proposal is a run of small steps. -/
theorem proposeNext_run {σ : St V} {value : V} (count : Nat) (hvalue : value ∈ I.values)
    (h : Leading I (count + 1) σ) :
    Run P I σ (proposeNext P σ value).1 ∧ Leading I count (proposeNext P σ value).1 := by
  have hsucc : slotSucc σ.node.nextSlot = σ.node.nextSlot + 1 :=
    if_neg (h.room 0 (Nat.succ_pos count))
  unfold proposeNext
  dsimp only
  rw [hsucc]
  have hidle : Run P I σ { σ with node := { σ.node with nextSlot := σ.node.nextSlot + 1 } } :=
    Run.single (Micro.idle (σ := σ) (Or.inl rfl) le_rfl le_rfl
      (Or.inr ⟨rfl, h.room 0 (Nat.succ_pos count)⟩) (Or.inl rfl) fun _ h => h)
  have hsend := sendAccept_run (P := P) (I := I)
    (σ := { σ with node := { σ.node with nextSlot := σ.node.nextSlot + 1 } })
    (Proposal.lead h.role h.mode h.term hvalue (Nat.lt_succ_self _))
  refine ⟨hidle.trans hsend.run, ?_⟩
  have hf := hsend.fixed
  have hterm := h.term
  simp only [Node.fixed, Fixed.mk.injEq] at hf
  refine ⟨hf.2.2.2.2.2.1.trans h.role, hf.2.2.2.2.1.trans h.mode, ?_, fun k hk => ?_⟩
  · rw [hf.2.2.2.2.2.2.2.2.1, hf.2.2.2.2.2.2.2.2.2.1]
    omega
  · rw [hf.2.2.2.2.2.2.2.2.1]
    have := h.room (k + 1) (Nat.succ_lt_succ hk)
    omega

/-- A batch is a run when each of its proposals is one. -/
theorem proposeAll_run {propose : St V → V → St V × Nat × Error} {Q : Nat → St V → Prop}
    (hstep : ∀ {count : Nat} {σ : St V} {value : V}, value ∈ I.values → Q (count + 1) σ →
      Run P I σ (propose σ value).1 ∧ Q count (propose σ value).1) :
    ∀ {values : List V} {σ : St V}, (∀ v ∈ values, v ∈ I.values) → Q values.length σ →
      Run P I σ (proposeAll propose σ values).1 := by
  intro values
  induction values with
  | nil => exact fun _ _ => Run.refl _
  | cons value rest ih =>
      intro σ hvalues hσ
      obtain ⟨hrun, hnext⟩ := hstep (hvalues value (by simp)) hσ
      simp only [proposeAll]
      rcases hp : propose σ value with ⟨τ, slot, e⟩
      rw [hp] at hrun hnext
      cases e with
      | none =>
          have hrest := ih (fun v hv => hvalues v (by simp [hv])) hnext
          dsimp only
          rcases hall : proposeAll propose τ rest with ⟨ρ, slots, e⟩
          rw [hall] at hrest
          cases e <;> exact hrun.trans hrest
      | _ => exact hrun

omit [DecidableEq V] in
/-- What the gate admits. -/
theorem proposalGate_none {n : Node V} (h : proposalGate n = .none) :
    n.votingMember = true ∧ (n.ownership = true ∨ (n.ownership = false ∧ n.role = .leader)) := by
  unfold proposalGate at h
  split_ifs at h with hv hmode hrole hgate
  · exact ⟨by simpa using hv, Or.inl hmode⟩
  · exact ⟨by simpa using hv, Or.inr ⟨by simpa using hmode, not_not.mp hrole⟩⟩

/-- A proposal takes moves with its own value only. -/
theorem nodePropose_run {n : Node V} {value : V} (ho : Opened P n) (hvalue : value ∈ I.values) :
    Run P I (St.start n) (nodePropose P n value).1 := by
  unfold nodePropose
  cases hgate : proposalGate n with
  | none =>
      obtain ⟨hv, hmode⟩ := proposalGate_none hgate
      dsimp only
      split_ifs with hown hmax hfull
      · exact proposeOwned_run ⟨ho, hv, hown, Or.inl hvalue⟩
      · exact Run.refl _
      · exact Run.refl _
      · rcases hmode with hmode | ⟨hmode, hrole⟩
        · exact absurd hmode hown
        · refine (proposeNext_run 0 hvalue ⟨hrole, hmode, ho.term hrole, fun k hk => ?_⟩).1
          have : k = 0 := by omega
          subst this
          exact hmax
  | _ => exact Run.refl _

/-- A batch takes moves with its own values only. -/
theorem nodeProposeBatch_run {n : Node V} {values : List V} {capacity : Nat} (ho : Opened P n)
    (hvalues : ∀ v ∈ values, v ∈ I.values) :
    Run P I (St.start n) (nodeProposeBatch P n values capacity).1 := by
  have howned : ∀ {count : Nat} {σ : St V} {value : V}, value ∈ I.values →
      (Opened P σ.node ∧ σ.node.votingMember = true ∧ σ.node.ownership = true) →
      Run P I σ (proposeOwned P σ value).1 ∧
        (Opened P (proposeOwned P σ value).1.node ∧
          (proposeOwned P σ value).1.node.votingMember = true ∧
          (proposeOwned P σ value).1.node.ownership = true) := by
    rintro _ σ value hvalue ⟨ho, hv, hown⟩
    have hs : Suggesting P I σ value := ⟨ho, hv, hown, Or.inl hvalue⟩
    have hrun := proposeOwned_run hs
    have hafter := hs.after hrun (Or.inl hvalue)
    exact ⟨hrun, hafter.opened, hafter.voter, hafter.mode⟩
  unfold nodeProposeBatch
  cases hgate : proposalGate n with
  | none =>
      obtain ⟨hv, hmode⟩ := proposalGate_none hgate
      dsimp only
      split_ifs with hempty hlarge hbuffer hown hexhausted hfull
      · exact Run.refl _
      · exact Run.refl _
      · exact Run.refl _
      · cases ownSlotsAvailable P n values.length n.ownNext with
        | none =>
          exact proposeAll_run (Q := fun _ σ => Opened P σ.node ∧ σ.node.votingMember = true ∧
            σ.node.ownership = true) @howned hvalues ⟨ho, hv, hown⟩
        | _ => exact Run.refl _
      · exact Run.refl _
      · exact Run.refl _
      · rcases hmode with hmode | ⟨hmode, hrole⟩
        · exact absurd hmode hown
        · refine proposeAll_run (Q := Leading I) (fun hvalue h => proposeNext_run _ hvalue h) hvalues
            ⟨hrole, hmode, ho.term hrole, fun k hk => ?_⟩
          show n.nextSlot + k ≠ maxSlot
          omega
  | _ => exact Run.refl _

/-! ## The timer -/

/-- The tick of a leader resends, drives an inherited slot or campaigns again. -/
theorem tickLeader_completes {n₀ : Node V} {σ : St V} {noop : V} (hmode : n₀.ownership = false)
    (hrole : σ.node.role = .leader) (hnoop : noop ∈ I.noops) :
    Completes P I n₀ σ (tickLeader P σ noop).1 := by
  have hgap : ∀ ticks, Run P I σ { σ with node := { σ.node with gapTicks := ticks } } :=
    fun ticks => Run.single (Micro.idle (σ := σ) (Or.inl rfl) le_rfl le_rfl (Or.inl rfl)
      (Or.inl rfl) fun _ h => h)
  unfold tickLeader
  dsimp only
  by_cases hcampaign : decide (σ.node.deliveredThrough < slotSub σ.node.leaderBase 1) = true ∧
      (if decide (σ.node.deliveredThrough < slotSub σ.node.leaderBase 1) = true then
        saturatingIncrement σ.node.gapTicks else 0) ≥ σ.node.electionTimeoutTicks
  · rw [if_pos hcampaign]
    exact (startCampaign_completes hmode hnoop).before (hgap 0)
  rw [if_neg hcampaign]
  generalize (if decide (σ.node.deliveredThrough < slotSub σ.node.leaderBase 1) = true then
    saturatingIncrement σ.node.gapTicks else 0) = ticks
  -- the heartbeat, when it is due
  generalize hheart : (if σ.node.heartbeatTicks ≥ σ.node.heartbeatIntervalTicks then
    broadcastPeers
      { σ with node := { σ.node with gapTicks := ticks, heartbeatTicks := 0 } }
      (.heartbeat σ.node.ballot σ.node.deliveredThrough)
    else { σ with node := { σ.node with gapTicks := ticks } }) = τ
  have hτ : Run P I σ τ := by
    subst hheart
    split_ifs
    · have hreset : Run P I σ
          { σ with node := { σ.node with gapTicks := ticks, heartbeatTicks := 0 } } :=
        Run.single (Micro.idle (σ := σ) (Or.inl rfl) le_rfl le_rfl (Or.inl rfl) (Or.inl rfl)
          fun _ h => h)
      refine hreset.trans (LearnRun.single (Learn.send fun e he => ?_)).run
      obtain ⟨peer, -, rfl⟩ := List.mem_map.mp he
      exact ⟨rfl, hrole, rfl, rfl⟩
    · exact hgap ticks
  split_ifs
  · exact (hτ.trans ((Run.single (Micro.idle (σ := τ) (Or.inl rfl) le_rfl le_rfl (Or.inl rfl)
      (Or.inl rfl) fun _ h => h)).trans (resendToPeers_run _).1)).completes
  · exact hτ.completes

/-- The state in which a tick calls `maybe_resolve_chunk`, if it does. -/
def tickResolves (n : Node V) : Option (St V) :=
  let n :=
    { n with
      electionTicks := saturatingIncrement n.electionTicks
      heartbeatTicks := saturatingIncrement n.heartbeatTicks
      resendTicks := saturatingIncrement n.resendTicks }
  if n.votingMember = true ∧ n.role = .preparing ∧ n.electionTicks < n.electionTimeoutTicks then
    some (St.start n)
  else none

/-- A tick takes moves with its own no-op only. -/
theorem nodeTick_completes {n : Node V} {noop : V} (ho : Opened P n) (hnoop : noop ∈ I.noops)
    (honward : I.onward = true ∨ (tickResolves n).bind (nextChunkState P) = none) :
    Completes P I n (St.start n) (nodeTick P n noop).1 := by
  unfold tickResolves at honward
  unfold nodeTick
  by_cases hv : n.votingMember = true
  · rw [if_neg (by simp [hv])]
    dsimp only
    generalize hσ : St.start { n with
      electionTicks := saturatingIncrement n.electionTicks
      heartbeatTicks := saturatingIncrement n.heartbeatTicks
      resendTicks := saturatingIncrement n.resendTicks } = σ
    have hrun : Run P I (St.start n) σ := by
      subst hσ
      exact Run.single (Micro.idle (σ := St.start n) (Or.inl rfl) le_rfl le_rfl (Or.inl rfl)
        (Or.inl rfl) fun _ h => h)
    have hrole : σ.node.role = n.role := by subst hσ; rfl
    have honward : I.onward = true ∨ (σ.node.role = .preparing →
        σ.node.electionTicks < σ.node.electionTimeoutTicks → nextChunkState P σ = none) := by
      refine honward.imp_right fun hquiet hprep hticks => ?_
      subst hσ
      rw [if_pos ⟨hv, hprep, hticks⟩] at hquiet
      exact hquiet
    split_ifs with hown hlead hprep hcampaign
    · exact (tickOwnership_run hrun ho hv hown hnoop honward).before hrun
    · exact (tickLeader_completes (by simpa using hown) (hrole.trans hlead) hnoop).before hrun
    · have hprep' := hrole.trans hprep.1
      have honward := honward.imp_right fun hquiet => hquiet hprep' (by subst hσ; exact hprep.2)
      have hchunk := (hrun.opened ho).chunk hprep'
      exact (maybeResolveChunk_run hprep' hchunk.1 honward).completes.before hrun
    · exact (startCampaign_completes (by simpa using hown) hnoop).before hrun
    · exact hrun.completes
  · rw [if_pos (by simpa using hv)]
    exact (Run.refl _).completes

/-! ## Messages -/

/-- Noting the progress of a peer is a move. -/
theorem notePeerProgress_run {n : Node V} {sender member : Nat} {msg : Message V}
    (hheard : I.Hears n sender msg)
    (hmember : membershipIndexOf n.membership sender = some member) :
    Run P I (St.start n) (St.start (notePeerProgress n member msg)) := by
  unfold notePeerProgress
  cases hreports : messageDecidedThrough msg with
  | none => exact Run.refl _
  | some progress =>
      exact Run.single (Micro.progress (σ := St.start n) hheard hmember hreports)

/-- The dispatch of a voter is a sequence of small steps. -/
theorem dispatch_completes {n₀ : Node V} {σ : St V} {sender member : Nat} {msg : Message V}
    (ho : Opened P σ.node) (hheard : I.Hears σ.node sender msg)
    (hmember : membershipIndexOf σ.node.membership sender = some member)
    (honward : I.onward = true ∨
      (messageResolves P σ member msg).bind (nextChunkState P) = none)
    (hmessages : σ.effects.messages = []) (hcommitted : σ.effects.committed = []) :
    Completes P I n₀ σ (dispatch P σ sender member msg).1 := by
  cases msg with
  | prepare => exact onPrepare_run hheard hmessages
  | promise => exact (onPromise_run hheard hmember honward fun h => (ho.chunk h).1).completes
  | promiseRange =>
      exact (onPromiseRange_run hheard hmember honward fun h => (ho.chunk h).1).completes
  | accept => exact (onAccept_run hheard).completes
  | accepted => exact (onAccepted_run hheard hmember hcommitted).completes
  | commit => exact (onCommit_run hheard hcommitted).completes
  | learn => exact (onLearn_run σ sender _ _).completes
  | nack => exact (onNack_run σ _ _).completes
  | heartbeat => exact (onHeartbeat_run σ sender _ _).completes

/-- One envelope is processed in small steps. -/
theorem nodeStep_completes {n : Node V} {e : Envelope V} (ho : Opened P n)
    (heard : I.heard = some e)
    (honward : I.onward = true ∨ ∀ member, e.recipient = n.id → n.votingMember = true →
      membershipIndexOf n.membership e.sender = some member →
        (messageResolves P (St.start (notePeerProgress n member e.message)) member e.message).bind
          (nextChunkState P) = none) :
    Completes P I n (St.start n) (nodeStep P n e).1 := by
  unfold nodeStep
  by_cases hrecipient : e.recipient = n.id
  · rw [if_neg (not_not.mpr hrecipient)]
    rcases hmember : membershipIndexOf n.membership e.sender with _ | member
    · exact (Run.refl _).completes
    dsimp only
    have hrun : Run P I (St.start n) (St.start (notePeerProgress n member e.message)) := by
      refine notePeerProgress_run ?_ hmember
      unfold Input.Hears
      rw [heard, ← hrecipient]
    have honward := honward.imp_right fun hquiet hv => hquiet member hrecipient hv hmember
    generalize hσ : St.start (notePeerProgress n member e.message) = σ at hrun honward
    have hstatic := hrun.static
    have hid : σ.node.id = n.id := congrArg Static.id hstatic
    have hmembership : σ.node.membership = n.membership := congrArg Static.membership hstatic
    have hempty : σ.effects = {} := by subst hσ; rfl
    have hheard : I.Hears σ.node e.sender e.message := by
      unfold Input.Hears
      rw [heard, hid, ← hrecipient]
    refine Completes.before ?_ hrun
    by_cases hv : (!n.votingMember) = true
    · rw [if_pos hv]
      cases hmsg : e.message with
      | commit slot value => exact (onCommit_run (hmsg ▸ hheard) (by rw [hempty])).completes
      | _ => exact (Run.refl _).completes
    · rw [if_neg hv]
      have honward := honward.imp_right fun hquiet => hquiet (by simpa using hv)
      exact dispatch_completes (hrun.opened ho) hheard (by rw [hmembership]; exact hmember) honward
        (by rw [hempty]) (by rw [hempty])
  · rw [if_pos hrecipient]
    exact (Run.refl _).completes

/-! ## Other operations -/

/-- A certified decision, as a Commit of its source would give it. -/
def learnInput (n : Node V) (sender slot : Nat) (value : V) : Input V :=
  { heard := some ⟨sender, n.id, .commit slot value⟩ }

/-- A decision from the outside takes the moves of a `Commit`. -/
theorem nodeLearnChosen_completes {n : Node V} {sender slot : Nat} {value : V}
    (hheard : I.Hears n sender (.commit slot value)) :
    Completes P I n (St.start n) (nodeLearnChosen P n sender slot value).1 := by
  unfold nodeLearnChosen
  split_ifs
  · exact (Run.refl _).completes
  · exact (Run.refl _).completes
  · have hidle : Run P I (St.start n)
        (St.start { n with leaderHint := some sender, electionTicks := 0 }) :=
      Run.single (Micro.idle (σ := St.start n) (Or.inl rfl) le_rfl le_rfl (Or.inl rfl) (Or.inl rfl)
        fun _ h => h)
    exact (hidle.trans (LearnRun.run (recordCommit_run (.heard sender hheard) (Or.inl rfl)))).completes

/-- A peer that is back is sent what it may have missed. -/
theorem nodeReconnected_run {n : Node V} {peer : Nat} :
    Run P I (St.start n) (nodeReconnected P n peer).1 := by
  unfold nodeReconnected
  split_ifs with hmember hself hlead hhint
  · exact Run.refl _
  · exact Run.refl _
  · exact (resendTo_run _ hself).1
  · exact (requestLearn_run _ _).run
  · exact Run.refl _

/-- A request to catch up is one message. -/
theorem nodeRequestCatchUp_run {n : Node V} {peer fromSlot : Nat}
    (hcatchUp : I.catchUp = some fromSlot) :
    Run P I (St.start n) (nodeRequestCatchUp P n peer fromSlot).1 := by
  unfold nodeRequestCatchUp
  split_ifs
  · exact Run.refl _
  · exact Run.refl _
  · refine (LearnRun.single (Learn.send fun e he => ?_)).run
    obtain rfl := List.mem_singleton.mp he
    exact ⟨rfl, Or.inr hcatchUp⟩

/-- Every operation a host calls is a sequence of small steps. -/
theorem runCall_completes {n : Node V} (ho : Opened P n) (c : Call V) :
    Completes P c.input n (St.start n) (runCall P n c) := by
  cases c with
  | campaign noop => exact nodeCampaign_completes (by simp [Call.input])
  | propose value => exact (nodePropose_run ho (by simp [Call.input])).completes
  | proposeBatch values capacity =>
      exact (nodeProposeBatch_run ho (by simp [Call.input])).completes
  | tick noop => exact nodeTick_completes ho (by simp [Call.input]) (Or.inl rfl)
  | reconnected peer => exact nodeReconnected_run.completes
  | requestCatchUp peer fromSlot => exact (nodeRequestCatchUp_run rfl).completes

end PaxosOdin
