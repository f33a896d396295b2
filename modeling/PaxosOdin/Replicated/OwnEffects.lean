import PaxosOdin.Lifetime.CatchUp
import PaxosOdin.Lifetime.Midway
import PaxosOdin.Lifetime.Values

/-!
# Each call's effects are its own

A host that persists, applies and sends the effects after every call of a log node.  A call that
the log layer refuses before the inner transition resets the effects leaves those of the previous
call in place, and a call whose inner transition fails after it released an entry skips the seal
bookkeeping.  Every other call leaves the batch of its own inner transition, cut at the seal.

Main definitions:

- Definition `FailsMidway`: a call that may release an entry and fail in a later slot.
- Definition `StopFree`: nothing that the call could release seals the configuration.
- Definition `Own`: what a call leaves.
- Definition `Applied`: what the host has applied.

Main results:

- Theorem `reads_sealed`: what a sealed log shows ends at the seal.
- Theorem `observeEffects_sealed`: what the seal bookkeeping leaves released.
- Theorem `calls_own_effects`: every run whose calls avoid the two cases.
- Theorem `stale_effects`: a run that does not.
-/

namespace PaxosOdin

variable {V : Type} {P : Params}

/-! ## The seal -/

/-- What the released entries do to the seal. -/
structure Observed (n n' : ReplicatedLogNode V) (cs : List (Committed (Entry V))) : Prop where
  core : n'.core = n.core
  configurationId : n'.configurationId = n.configurationId
  source : (n'.stopSign = n.stopSign ∧ n'.stopSlot = n.stopSlot) ∨
    ∃ c ∈ cs, nextStop n.configurationId c.value = n'.stopSign ∧ n'.stopSlot = c.slot
  kept : n.stopSign ≠ none → n'.stopSign ≠ none ∧ n'.stopSlot ≤ n.stopSlot
  lowest : ∀ c ∈ cs, nextStop n.configurationId c.value ≠ none →
    n'.stopSign ≠ none ∧ n'.stopSlot ≤ c.slot

theorem observeStop_observed (n : ReplicatedLogNode V) (c : Committed (Entry V)) :
    Observed n (observeStop n c.slot c.value) [c] := by
  unfold observeStop
  cases hstop : nextStop n.configurationId c.value with
  | none =>
      refine ⟨rfl, rfl, Or.inl ⟨rfl, rfl⟩, fun h => ⟨h, le_rfl⟩, fun d hd hne => ?_⟩
      cases List.mem_singleton.mp hd
      exact absurd hstop hne
  | some sign =>
      dsimp only
      split_ifs with hlower
      · refine ⟨rfl, rfl, Or.inr ⟨c, by simp, hstop, rfl⟩, fun h => ⟨by simp, ?_⟩, fun d hd _ => ?_⟩
        · exact (hlower.resolve_left h).le
        · cases List.mem_singleton.mp hd
          exact ⟨by simp, le_rfl⟩
      · rw [not_or, not_lt] at hlower
        refine ⟨rfl, rfl, Or.inl ⟨rfl, rfl⟩, fun h => ⟨h, le_rfl⟩, fun d hd _ => ?_⟩
        cases List.mem_singleton.mp hd
        exact hlower

theorem Observed.trans {n n' n'' : ReplicatedLogNode V} {cs ds : List (Committed (Entry V))}
    (h : Observed n n' cs) (h' : Observed n' n'' ds) : Observed n n'' (cs ++ ds) := by
  have hid := h.configurationId
  refine ⟨h'.core.trans h.core, h'.configurationId.trans hid, ?_, fun hn => ?_, fun c hc hne => ?_⟩
  · rcases h'.source with ⟨hsign, hslot⟩ | ⟨c, hc, hsign, hslot⟩
    · rw [hsign, hslot]
      refine h.source.imp_right fun ⟨c, hc, hs⟩ => ⟨c, List.mem_append_left _ hc, hs⟩
    · exact Or.inr ⟨c, List.mem_append_right _ hc, hid ▸ hsign, hslot⟩
  · obtain ⟨hsign, hle⟩ := h.kept hn
    obtain ⟨hsign', hle'⟩ := h'.kept hsign
    exact ⟨hsign', hle'.trans hle⟩
  · rcases List.mem_append.mp hc with hc | hc
    · obtain ⟨hsign, hle⟩ := h.lowest c hc hne
      obtain ⟨hsign', hle'⟩ := h'.kept hsign
      exact ⟨hsign', hle'.trans hle⟩
    · exact h'.lowest c hc (by rw [hid]; exact hne)

theorem observeStop_fold (n : ReplicatedLogNode V) (cs : List (Committed (Entry V))) :
    Observed n (cs.foldl (fun n c => observeStop n c.slot c.value) n) cs := by
  induction cs generalizing n with
  | nil =>
      exact ⟨rfl, rfl, Or.inl ⟨rfl, rfl⟩, fun h => ⟨h, le_rfl⟩, fun c hc => (by cases hc)⟩
  | cons c cs ih =>
      rw [List.foldl_cons]
      exact (observeStop_observed n c).trans (ih _)

theorem observeEffects_observed (n : ReplicatedLogNode V) (e : Effects (Entry V)) :
    Observed n (observeEffects P n e).1 e.committed := by
  have h := observeStop_fold n e.committed
  exact ⟨h.core, h.configurationId, h.source, h.kept, h.lowest⟩

theorem abandoned_iff {n : ReplicatedLogNode V} {slot : Nat} :
    abandoned n slot = true ↔ n.stopSign ≠ none ∧ n.stopSlot < slot := by
  unfold abandoned
  rw [Bool.and_eq_true, decide_eq_true_eq, Option.isSome_iff_ne_none]

/-- What a sealed log shows of its decisions ends at the seal. -/
theorem reads_sealed {n : ReplicatedLogNode V} (hsealed : n.stopSign ≠ none) :
    (∀ slot value, replicatedLogRead P n slot = some value → slot ≤ n.stopSlot) ∧
    (∀ fromSlot capacity out, replicatedLogReadDecided P n fromSlot capacity = .ok out →
      ∀ e ∈ out, replicatedLogRead P n e.1 = some e.2) ∧
    replicatedLogDecidedThrough n ≤ n.stopSlot := by
  refine ⟨fun slot value hread => ?_, fun fromSlot capacity out hread e he => ?_, ?_⟩
  · unfold replicatedLogRead at hread
    split_ifs at hread with hcut
    rw [abandoned_iff, not_and, not_lt] at hcut
    exact hcut hsealed
  · unfold replicatedLogReadDecided nodeReadDecided at hread
    dsimp only at hread
    split_ifs at hread
    · cases hread
      cases he
    · split at hread
      · next entries hentries =>
          cases hread
          split at hentries
          · next out hloop =>
              cases hentries
              have hshown := readDecidedLoop_some hloop (List.takeWhile_subset _ he)
              have hcut := List.all_eq_true.mp List.all_takeWhile e he
              unfold replicatedLogRead
              rw [if_neg (by simpa using hcut)]
              exact hshown
          · cases hentries
      · cases hread
  · unfold replicatedLogDecidedThrough
    rw [if_pos (Option.isSome_iff_ne_none.mpr hsealed)]
    exact min_le_right _ _

/-- The released entries of a batch, after the bookkeeping: cut at the seal, and a released stop
sign is the seal. -/
structure Sealed (n n' : ReplicatedLogNode V) (cs : List (Committed (Entry V))) : Prop where
  cut : ∀ c ∈ cs, abandoned n' c.slot = false
  recorded : ∀ c ∈ cs, ∀ sign, nextStop n.configurationId c.value = some sign →
    n'.stopSlot = c.slot ∧
      (n'.stopSign = some sign ∨ (n.stopSign ≠ none ∧ n.stopSlot = c.slot))

/-- The seal bookkeeping leaves the batch cut and the seal recorded. -/
theorem observeEffects_sealed (n : ReplicatedLogNode V) (e : Effects (Entry V))
    (hslots : (e.committed.map (·.slot)).Nodup) :
    Sealed n (observeEffects P n e).1 (observeEffects P n e).2.committed := by
  have hobs := observeEffects_observed (P := P) n e
  have hcut : ∀ c ∈ (observeEffects P n e).2.committed,
      abandoned (observeEffects P n e).1 c.slot = false := by
    intro c hc
    have hkeep := List.all_eq_true.mp List.all_takeWhile c hc
    exact Bool.eq_false_of_not_eq_true' hkeep
  refine ⟨hcut, fun c hc sign hsign => ?_⟩
  have hmem : c ∈ e.committed := List.takeWhile_subset _ hc
  have hne : nextStop n.configurationId c.value ≠ none := by simp [hsign]
  obtain ⟨hsome, hle⟩ := hobs.lowest c hmem hne
  have hslot : (observeEffects P n e).1.stopSlot = c.slot := by
    have hnot := hcut c hc
    by_contra hdiff
    have hlt : (observeEffects P n e).1.stopSlot < c.slot := by omega
    rw [abandoned_iff.mpr ⟨hsome, hlt⟩] at hnot
    cases hnot
  refine ⟨hslot, ?_⟩
  rcases hobs.source with ⟨hold, holdslot⟩ | ⟨d, hd, hdsign, hdslot⟩
  · exact Or.inr ⟨hold ▸ hsome, holdslot ▸ hslot⟩
  · left
    have heq : d = c := List.inj_on_of_nodup_map hslots hd hmem (hdslot.symm.trans hslot)
    rw [← hdsign, heq, hsign]

/-! ## Calls -/

section Calls

variable [DecidableEq V]

/-- Whether the log layer refuses a call before the inner transition resets the effects. -/
def refusedEarly (P : Params) (maxMetadata : Nat) (n : ReplicatedLogNode V) : LogCall V → Bool
  | .propose _ => isSealed n
  | .proposeBatch values _ => isSealed n || values.length == 0 || decide (P.C < values.length)
  | .proposeStopSign nextConfigurationId nextMembers metadata =>
      isSealed n || decide (nextConfigurationId ≤ n.configurationId) ||
        (stopSignInit P.M maxMetadata nextConfigurationId nextMembers metadata).toOption.isNone
  | _ => false

/-- The inner transition of a call that is not refused early; a call for another configuration only
resets the effects. -/
def innerCall (P : Params) (maxMetadata : Nat) (n : ReplicatedLogNode V) :
    LogCall V → St (Entry V) × Error
  | .campaign noop => nodeCampaign P n.core (.command noop)
  | .propose value => ((nodePropose P n.core (.command value)).1,
      (nodePropose P n.core (.command value)).2.2)
  | .proposeBatch values capacity =>
      ((nodeProposeBatch P n.core (values.map .command) capacity).1,
        (nodeProposeBatch P n.core (values.map .command) capacity).2.2)
  | .proposeStopSign nextConfigurationId nextMembers metadata =>
      match stopSignInit P.M maxMetadata nextConfigurationId nextMembers metadata with
      | .error e => (St.start n.core, e)
      | .ok stop => ((nodePropose P n.core (.stop stop)).1, (nodePropose P n.core (.stop stop)).2.2)
  | .tick noop => nodeTick P n.core (.command noop)
  | .step envelope => nodeStep P n.core envelope
  | .stepChecked configurationId envelope =>
      if configurationId ≠ n.configurationId then (St.start n.core, .configurationMismatch)
      else nodeStep P n.core envelope

/-- A call that is refused early changes nothing, not even the effects. -/
theorem logCall_refused {maxMetadata : Nat} {n : ReplicatedLogNode V} (effects : Effects (Entry V))
    {c : LogCall V} (h : refusedEarly P maxMetadata n c = true) :
    (logCall P maxMetadata n effects c).1 = (n, effects) := by
  cases c with
  | propose value =>
      simp only [refusedEarly] at h
      simp [logCall, replicatedLogPropose, h]
  | proposeBatch values capacity =>
      simp only [refusedEarly, Bool.or_eq_true, beq_iff_eq, decide_eq_true_eq] at h
      rcases h with (hs | h0) | hC
      · simp [logCall, replicatedLogProposeBatch, hs]
      · simp only [logCall, replicatedLogProposeBatch, h0, if_true]
        split_ifs <;> rfl
      · have h0 : values.length ≠ 0 := by omega
        simp only [logCall, replicatedLogProposeBatch, h0, hC, if_true, if_false]
        split_ifs <;> rfl
  | proposeStopSign nextConfigurationId nextMembers metadata =>
      simp only [refusedEarly, Bool.or_eq_true, decide_eq_true_eq] at h
      simp only [logCall, replicatedLogProposeStopSign]
      split_ifs with hs hid
      · rfl
      · rfl
      · cases hstop : stopSignInit P.M maxMetadata nextConfigurationId nextMembers metadata with
        | error e => rfl
        | ok stop => simp [hs, hid, hstop, Except.toOption] at h
  | _ => cases h

/-- Every other call is its inner transition and the bookkeeping after it. -/
theorem logCall_inner {maxMetadata : Nat} {n : ReplicatedLogNode V} (effects : Effects (Entry V))
    {c : LogCall V} (h : refusedEarly P maxMetadata n c = false) :
    (logCall P maxMetadata n effects c).1 =
      afterInner P n (innerCall P maxMetadata n c).1 (innerCall P maxMetadata n c).2 := by
  cases c with
  | campaign noop => rfl
  | tick noop => rfl
  | step envelope => rfl
  | stepChecked configurationId envelope =>
      simp only [logCall, replicatedLogStepChecked, innerCall]
      by_cases hid : configurationId ≠ n.configurationId
      · rw [if_pos hid, if_pos hid]
        rfl
      · rw [if_neg hid, if_neg hid]
        rfl
  | propose value =>
      simp only [refusedEarly] at h
      simp [logCall, replicatedLogPropose, innerCall, h]
  | proposeBatch values capacity =>
      simp only [refusedEarly, Bool.or_eq_false_iff, beq_eq_false_iff_ne, decide_eq_false_iff_not]
        at h
      simp [logCall, replicatedLogProposeBatch, innerCall, h]
  | proposeStopSign nextConfigurationId nextMembers metadata =>
      simp only [refusedEarly, Bool.or_eq_false_iff, decide_eq_false_iff_not] at h
      obtain ⟨⟨hs, hid⟩, hstop⟩ := h
      simp only [logCall, replicatedLogProposeStopSign, innerCall]
      rw [if_neg (by simp [hs]), if_neg hid]
      cases hinit : stopSignInit P.M maxMetadata nextConfigurationId nextMembers metadata with
      | error e => simp [hinit, Except.toOption] at hstop
      | ok stop => rfl

/-- What a call gives to the inner transition. -/
def LogCall.input : LogCall V → Input (Entry V)
  | .campaign noop => { noops := [.command noop] }
  | .propose value => { values := [.command value] }
  | .proposeBatch values _ => { values := values.map .command }
  | .proposeStopSign nextConfigurationId nextMembers metadata =>
      { values := [.stop ⟨nextConfigurationId, nextMembers, metadata⟩] }
  | .tick noop => { noops := [.command noop] }
  | .step envelope => { heard := some envelope }
  | .stepChecked _ envelope => { heard := some envelope }

/-- The inner transition of a call takes small steps. -/
theorem innerCall_completes (maxMetadata : Nat) {n : ReplicatedLogNode V} (ho : Opened P n.core)
    (c : LogCall V) :
    Completes P c.input n.core (St.start n.core) (innerCall P maxMetadata n c).1 := by
  have hsame : Completes P c.input n.core (St.start n.core) (St.start n.core) :=
    (Run.refl _).completes
  cases c with
  | campaign noop => exact runCall_completes ho (.campaign (.command noop))
  | propose value => exact runCall_completes ho (.propose (.command value))
  | proposeBatch values capacity =>
      exact runCall_completes ho (.proposeBatch (values.map .command) capacity)
  | proposeStopSign nextConfigurationId nextMembers metadata =>
      simp only [innerCall]
      cases hstop : stopSignInit P.M maxMetadata nextConfigurationId nextMembers metadata with
      | error e => exact hsame
      | ok stop =>
          have hsign : stop = ⟨nextConfigurationId, nextMembers, metadata⟩ := by
            unfold stopSignInit at hstop
            split_ifs at hstop
            cases hmembers : stopSignValidateMembers P.M nextMembers with
            | none =>
                rw [hmembers] at hstop
                exact (Except.ok.inj hstop).symm
            | _ =>
                rw [hmembers] at hstop
                cases hstop
          subst hsign
          exact runCall_completes ho (.propose (.stop _))
  | tick noop => exact runCall_completes ho (.tick (.command noop))
  | step envelope => exact nodeStep_completes ho rfl (Or.inl rfl)
  | stepChecked configurationId envelope =>
      simp only [innerCall]
      by_cases hid : configurationId ≠ n.configurationId
      · rw [if_pos hid]
        exact hsame
      · rw [if_neg hid]
        exact nodeStep_completes ho rfl (Or.inl rfl)

/-! ## Runs -/

/-- A log node with the effects structure that its host passes to every call, and what the host has
applied. -/
structure LogHost (V : Type) where
  node : ReplicatedLogNode V
  effects : Effects (Entry V) := {}
  applied : List (Committed (Entry V)) := []

/-- A call, after which the host applies the released entries; or a host operation without
effects. -/
inductive LogEvent (V : Type) where
  | call (c : LogCall V)
  | advanceFloor (through : Nat)
  | setCampaignEnabled (enabled : Bool)

/-- One event of a host that persists, applies and sends the effects after every call. -/
def LogHost.after (P : Params) (maxMetadata : Nat) (h : LogHost V) : LogEvent V → LogHost V
  | .call c =>
      let r := (logCall P maxMetadata h.node h.effects c).1
      { node := r.1, effects := r.2, applied := h.applied ++ r.2.committed }
  | .advanceFloor through =>
      { h with node := { h.node with core := (nodeAdvanceMemoryFloor h.node.core through).1 } }
  | .setCampaignEnabled enabled =>
      { h with node := { h.node with core := nodeSetCampaignEnabled h.node.core enabled } }

/-- One event after the other. -/
def LogHost.run (P : Params) (maxMetadata : Nat) (h : LogHost V) : List (LogEvent V) → LogHost V :=
  List.foldl (LogHost.after P maxMetadata) h

/-- The states of the runs whose events all meet the condition `ok`. -/
inductive LogHost.Reaches (P : Params) (maxMetadata : Nat) (ok : LogHost V → LogEvent V → Prop)
    (start : LogHost V) : LogHost V → Prop
  | refl : LogHost.Reaches P maxMetadata ok start start
  | step {h : LogHost V} {e : LogEvent V} (hr : LogHost.Reaches P maxMetadata ok start h)
      (hok : ok h e) : LogHost.Reaches P maxMetadata ok start (h.after P maxMetadata e)

theorem LogHost.reaches_run {maxMetadata : Nat} (start : LogHost V) (events : List (LogEvent V)) :
    LogHost.Reaches P maxMetadata (fun _ _ => True) start (start.run P maxMetadata events) := by
  induction events using List.reverseRecOn with
  | nil => exact .refl
  | append_singleton events e ih =>
      rw [LogHost.run, List.foldl_append]
      exact .step ih trivial

/-- Entries for which the seal bookkeeping has nothing to do: none is above the seal, and none holds
a stop sign for a newer configuration, unless it is the seal. -/
def NothingToSeal (n : ReplicatedLogNode V) (cs : List (Committed (Entry V))) : Prop :=
  ∀ c ∈ cs, abandoned n c.slot = false ∧
    (nextStop n.configurationId c.value ≠ none → n.stopSign ≠ none ∧ n.stopSlot = c.slot)

/-- A call that may release an entry and fail in a later slot: a batch or a tick of a proposer whose
vote alone decides, or a call that drives a chunk, with a slot ahead that cannot be settled. -/
def FailsMidway (P : Params) (n : ReplicatedLogNode V) : LogCall V → Prop
  | .proposeBatch values capacity => ¬ BatchHolds P n.core (values.map .command) capacity
  | .tick _ => TickStops P n.core
  | .step envelope =>
      n.core.role = .preparing ∧ envelope.message.reportsAt n.core.ballot = true ∧
        DriveStops P n.core
  | .stepChecked configurationId envelope =>
      configurationId = n.configurationId ∧ n.core.role = .preparing ∧
        envelope.message.reportsAt n.core.ballot = true ∧ DriveStops P n.core
  | _ => False

/-- Nothing that a call could release seals this configuration: there is no seal, and neither the
node nor the call holds a stop sign for a newer one. -/
structure StopFree (n : ReplicatedLogNode V) (c : LogCall V) : Prop where
  unsealed : n.stopSign = none
  held : n.core.Carries (fun _ v => nextStop n.configurationId v = none) (fun _ => True)
  heard : ∀ e, c.input.heard = some e →
    e.message.Carries (fun _ v => nextStop n.configurationId v = none) (fun _ => True)
  values : ∀ v ∈ c.input.values, nextStop n.configurationId v = none

/-- The condition on a call: the log layer does not refuse it while the effects still hold an
earlier batch, and it cannot fail half-way unless there is nothing to seal. -/
def Resets (P : Params) (maxMetadata : Nat) (h : LogHost V) : LogEvent V → Prop
  | .call c =>
      (refusedEarly P maxMetadata h.node c = true → h.effects = {}) ∧
        (FailsMidway P h.node c → StopFree h.node c)
  | _ => True

/-- What a call leaves: the batch of its own inner transition cut at the seal, which is the earliest
of the old seal and the stop signs that this batch released. -/
structure Own (P : Params) (maxMetadata : Nat) (h : LogHost V) (c : LogCall V) : Prop where
  refused : refusedEarly P maxMetadata h.node c = true →
    (h.after P maxMetadata (.call c)).effects = {} ∧
      (h.after P maxMetadata (.call c)).node = h.node
  core : refusedEarly P maxMetadata h.node c = false →
    (h.after P maxMetadata (.call c)).node.core = (innerCall P maxMetadata h.node c).1.node
  batch : refusedEarly P maxMetadata h.node c = false →
    (h.after P maxMetadata (.call c)).effects =
      abandonAboveSeal (h.after P maxMetadata (.call c)).node
        (innerCall P maxMetadata h.node c).1.effects
  sealing : refusedEarly P maxMetadata h.node c = false →
    Observed { h.node with core := (innerCall P maxMetadata h.node c).1.node }
      (h.after P maxMetadata (.call c)).node
      (innerCall P maxMetadata h.node c).1.effects.committed
  bookkept : Sealed h.node (h.after P maxMetadata (.call c)).node
    (h.after P maxMetadata (.call c)).effects.committed

/-- What the host has applied: every slot once and in order, up to the delivered prefix or to the
seal, and nothing above the seal. -/
structure Applied (base : Nat) (h : LogHost V) (count : Nat) : Prop where
  slots : h.applied.map (·.slot) = List.range' (base + 1) count
  le : base + count ≤ h.node.core.deliveredThrough
  frontier : base + count = h.node.core.deliveredThrough ∨
    (h.node.stopSign ≠ none ∧ h.node.stopSlot ≤ base + count)
  uncut : ∀ d ∈ h.applied, abandoned h.node d.slot = false

/-- A call that cannot fail half-way releases nothing when it fails. -/
theorem innerCall_failed {maxMetadata : Nat} {n : ReplicatedLogNode V} (ho : Opened P n.core)
    {c : LogCall V} (h : ¬ FailsMidway P n c) :
    (innerCall P maxMetadata n c).2 = .none ∨
      (innerCall P maxMetadata n c).1.effects.committed = [] := by
  cases c with
  | campaign noop => exact Or.inr (nodeCampaign_unreleased n.core _)
  | propose value => exact nodePropose_failed n.core _
  | proposeBatch values capacity => exact nodeProposeBatch_failed ho (not_not.mp h)
  | proposeStopSign nextConfigurationId nextMembers metadata =>
      simp only [innerCall]
      cases stopSignInit P.M maxMetadata nextConfigurationId nextMembers metadata with
      | error e => exact Or.inr rfl
      | ok stop => exact nodePropose_failed n.core _
  | tick noop => exact nodeTick_failed ho h
  | step envelope =>
      exact nodeStep_failed ho fun hrole hreports hstops => h ⟨hrole, hreports, hstops⟩
  | stepChecked configurationId envelope =>
      simp only [innerCall]
      by_cases hid : configurationId = n.configurationId
      · rw [if_neg (not_not.mpr hid)]
        exact nodeStep_failed ho fun hrole hreports hstops => h ⟨hid, hrole, hreports, hstops⟩
      · rw [if_pos hid]
        exact Or.inr rfl

/-- A call without stop signs releases none. -/
theorem StopFree.released {maxMetadata : Nat} {n : ReplicatedLogNode V} {c : LogCall V}
    (h : StopFree n c) (ho : Opened P n.core) :
    ∀ d ∈ (innerCall P maxMetadata n c).1.effects.committed,
      nextStop n.configurationId d.value = none := by
  have hcarries := (innerCall_completes maxMetadata ho c).carries h.held
    ⟨fun _ _ _ => trivial, h.heard, fun v hv _ => ?_, fun v hv _ _ _ => h.values v hv,
      fun _ _ _ hv _ => hv⟩
  · exact (hcarries.anywhere fun _ _ _ hv => hv).2
  · cases c with
    | campaign noop =>
        cases List.mem_singleton.mp hv
        rfl
    | tick noop =>
        cases List.mem_singleton.mp hv
        rfl
    | _ => cases hv

/-- Under the condition a call that fails has nothing to seal. -/
theorem Resets.nothing {maxMetadata : Nat} {h : LogHost V} {c : LogCall V}
    (hok : Resets P maxMetadata h (.call c)) (ho : Opened P h.node.core)
    (herror : (innerCall P maxMetadata h.node c).2 ≠ .none) :
    NothingToSeal h.node (innerCall P maxMetadata h.node c).1.effects.committed := by
  by_cases hmidway : FailsMidway P h.node c
  · have hfree := hok.2 hmidway
    intro d hd
    refine ⟨?_, fun hstop => absurd (hfree.released ho d hd) hstop⟩
    simp [abandoned, hfree.unsealed]
  · rw [(innerCall_failed ho hmidway).resolve_left herror]
    intro d hd
    cases hd

omit [DecidableEq V] in
/-- Where there is nothing to seal, nothing is cut. -/
theorem NothingToSeal.uncut {n : ReplicatedLogNode V} {core : Node (Entry V)}
    {e : Effects (Entry V)} (h : NothingToSeal n e.committed) :
    abandonAboveSeal { n with core := core } e = e := by
  have hall : ∀ cs : List (Committed (Entry V)), NothingToSeal n cs →
      cs.takeWhile (fun d => !abandoned { n with core := core } d.slot) = cs := by
    intro cs
    induction cs with
    | nil => exact fun _ => rfl
    | cons d ds ih =>
        intro hcs
        have hkept : abandoned { n with core := core } d.slot = false :=
          (hcs d List.mem_cons_self).1
        rw [List.takeWhile_cons_of_pos (by simp [hkept]),
          ih fun c hc => hcs c (List.mem_cons_of_mem _ hc)]
  unfold abandonAboveSeal
  rw [hall _ h]

omit [DecidableEq V] in
/-- Where there is nothing to seal, the bookkeeping has been done. -/
theorem NothingToSeal.observed {n : ReplicatedLogNode V} {core : Node (Entry V)}
    {cs : List (Committed (Entry V))} (h : NothingToSeal n cs) :
    Observed { n with core := core } { n with core := core } cs := by
  refine ⟨rfl, rfl, Or.inl ⟨rfl, rfl⟩, fun hsign => ⟨hsign, le_rfl⟩, fun d hd hstop => ?_⟩
  obtain ⟨hsome, hslot⟩ := (h d hd).2 hstop
  exact ⟨hsome, hslot.le⟩

/-- The effects of one call, under the condition. -/
theorem LogHost.call_own {maxMetadata : Nat} {h : LogHost V} (ho : Opened P h.node.core)
    {c : LogCall V} (hok : Resets P maxMetadata h (.call c)) : Own P maxMetadata h c := by
  cases hr : refusedEarly P maxMetadata h.node c with
  | true =>
      have hcall := logCall_refused h.effects hr
      have heffects : (h.after P maxMetadata (.call c)).effects = {} :=
        (congrArg Prod.snd hcall).trans (hok.1 hr)
      have hnode : (h.after P maxMetadata (.call c)).node = h.node := congrArg Prod.fst hcall
      refine ⟨fun _ => ⟨heffects, hnode⟩, by simp [hr], by simp [hr], by simp [hr], ?_⟩
      rw [heffects]
      exact ⟨fun _ hc => (by cases hc), fun _ hc => (by cases hc)⟩
  | false =>
      have hcall := logCall_inner h.effects hr
      have hnode : (h.after P maxMetadata (.call c)).node =
          (afterInner P h.node (innerCall P maxMetadata h.node c).1
            (innerCall P maxMetadata h.node c).2).1 := congrArg Prod.fst hcall
      have heffects : (h.after P maxMetadata (.call c)).effects =
          (afterInner P h.node (innerCall P maxMetadata h.node c).1
            (innerCall P maxMetadata h.node c).2).2 := congrArg Prod.snd hcall
      have hremembered : Remembered (fun _ _ => True) h.node.core := fun _ _ _ => trivial
      have hdelivering :=
        (innerCall_completes maxMetadata ho c).delivering hremembered.delivering
      cases herror : (innerCall P maxMetadata h.node c).2 with
      | none =>
          rw [herror] at hnode heffects
          have hslots :
              ((innerCall P maxMetadata h.node c).1.effects.committed.map (·.slot)).Nodup := by
            rw [hdelivering.slots]
            exact List.nodup_range'
          have hsealed := observeEffects_sealed (P := P)
            { h.node with core := (innerCall P maxMetadata h.node c).1.node }
            (innerCall P maxMetadata h.node c).1.effects hslots
          have hobs := observeEffects_observed (P := P)
            { h.node with core := (innerCall P maxMetadata h.node c).1.node }
            (innerCall P maxMetadata h.node c).1.effects
          refine ⟨by simp [hr], fun _ => ?_, fun _ => ?_, fun _ => ?_, ?_⟩
          · rw [hnode]
            exact hobs.core
          · rw [hnode, heffects]
            rfl
          · rw [hnode]
            exact hobs
          · rw [hnode, heffects]
            exact ⟨hsealed.cut, hsealed.recorded⟩
      | _ =>
          have hnothing := hok.nothing ho (by rw [herror]; exact fun h => (by cases h))
          rw [herror] at hnode heffects
          refine ⟨by simp [hr], fun _ => ?_, fun _ => ?_, fun _ => ?_, ?_⟩
          · rw [hnode]
            rfl
          · rw [hnode, heffects]
            exact hnothing.uncut.symm
          · rw [hnode]
            exact hnothing.observed
          · rw [hnode, heffects]
            refine ⟨fun d hd => (hnothing d hd).1, fun d hd sign hsign => ?_⟩
            obtain ⟨hsome, hslot⟩ := (hnothing d hd).2 (by simp [hsign])
            exact ⟨hslot, Or.inr ⟨hsome, hslot⟩⟩

omit [DecidableEq V] in
/-- Entries of consecutive slots, cut at the seal: they end where the batch ends, or at the seal. -/
theorem takeWhile_slots (n : ReplicatedLogNode V) {cs : List (Committed (Entry V))} {first : Nat}
    (hslots : cs.map (·.slot) = List.range' first cs.length) :
    ∃ k ≤ cs.length,
      (cs.takeWhile fun c => !abandoned n c.slot).map (·.slot) = List.range' first k ∧
        (k = cs.length ∨ (n.stopSign ≠ none ∧ n.stopSlot < first + k)) := by
  induction cs generalizing first with
  | nil => exact ⟨0, le_rfl, rfl, Or.inl rfl⟩
  | cons c cs ih =>
      rw [List.map_cons, List.length_cons, List.range'_succ, List.cons.injEq] at hslots
      obtain ⟨hfirst, hrest⟩ := hslots
      cases hc : abandoned n c.slot with
      | true =>
          refine ⟨0, Nat.zero_le _, by simp [hc], Or.inr ?_⟩
          rw [← hfirst]
          exact abandoned_iff.mp hc
      | false =>
          obtain ⟨k, hle, hkept, hend⟩ := ih hrest
          refine ⟨k + 1, Nat.succ_le_succ hle, ?_, ?_⟩
          · rw [List.takeWhile_cons_of_pos (by simp [hc]), List.map_cons, hkept, hfirst,
              List.range'_succ]
          · refine hend.imp (congrArg (· + 1)) fun ⟨hsign, hlt⟩ => ⟨hsign, ?_⟩
            omega

/-- What the host has applied stays contiguous over a call. -/
theorem LogHost.call_applied {maxMetadata base count : Nat} {h : LogHost V}
    (ho : Opened P h.node.core) (happlied : Applied base h count) {c : LogCall V}
    (hok : Resets P maxMetadata h (.call c)) :
    Opened P (h.after P maxMetadata (.call c)).node.core ∧
      ∃ count', Applied base (h.after P maxMetadata (.call c)) count' := by
  have hown := LogHost.call_own ho hok
  obtain ⟨hslots, hle, hfrontier, huncut⟩ := happlied
  have happend : (h.after P maxMetadata (.call c)).applied =
      h.applied ++ (h.after P maxMetadata (.call c)).effects.committed := rfl
  cases hr : refusedEarly P maxMetadata h.node c with
  | true =>
      obtain ⟨heffects, hnode⟩ := hown.refused hr
      rw [hnode]
      refine ⟨ho, count, ?_⟩
      rw [heffects, show ({} : Effects (Entry V)).committed = [] from rfl, List.append_nil] at happend
      exact ⟨by rw [happend]; exact hslots, by rw [hnode]; exact hle,
        by rw [hnode]; exact hfrontier, by rw [happend, hnode]; exact huncut⟩
  | false =>
      have hcore := hown.core hr
      have hbatch := hown.batch hr
      have hobs := hown.sealing hr
      have hcompletes := innerCall_completes maxMetadata ho c
      have hremembered : Remembered (fun _ _ => True) h.node.core := fun _ _ _ => trivial
      obtain ⟨hmono, hinner, -, -, -⟩ := hcompletes.delivering hremembered.delivering
      generalize innerCall P maxMetadata h.node c = inner at *
      generalize h.after P maxMetadata (.call c) = h' at *
      have hlength : inner.1.effects.committed.length =
          inner.1.node.deliveredThrough - h.node.core.deliveredThrough := by
        simpa using congrArg List.length hinner
      rw [← hlength] at hinner
      have hkept : h'.applied = h.applied ++
          inner.1.effects.committed.takeWhile fun d => !abandoned h'.node d.slot := by
        rw [happend, hbatch]
        rfl
      -- a seal is only moved to a slot that was just released
      have hold : ∀ d ∈ h.applied, abandoned h'.node d.slot = false := by
        intro d hd
        have hslot : d.slot ≤ base + count := by
          have hmem : d.slot ∈ h.applied.map (·.slot) := List.mem_map_of_mem hd
          rw [hslots, List.mem_range'_1] at hmem
          omega
        by_contra habandoned
        obtain ⟨hsign, hlt⟩ := abandoned_iff.mp (Bool.eq_true_of_not_eq_false habandoned)
        rcases hobs.source with ⟨hsame, hsameSlot⟩ | ⟨r, hrel, -, hrslot⟩
        · have hcut := huncut d hd
          rw [abandoned_iff.mpr ⟨hsame ▸ hsign, hsameSlot ▸ hlt⟩] at hcut
          cases hcut
        · have hmem : r.slot ∈ inner.1.effects.committed.map (·.slot) := List.mem_map_of_mem hrel
          rw [hinner, List.mem_range'_1] at hmem
          omega
      have huncut' : ∀ d ∈ h'.applied, abandoned h'.node d.slot = false := by
        intro d hd
        rw [hkept] at hd
        rcases List.mem_append.mp hd with hd | hd
        · exact hold d hd
        · exact Bool.eq_false_of_not_eq_true' (List.all_eq_true.mp List.all_takeWhile d hd)
      obtain ⟨k, hk, hcut, hend⟩ := takeWhile_slots h'.node hinner
      refine ⟨hcore ▸ hcompletes.opened ho, ?_⟩
      rcases hfrontier with hfront | ⟨hsign, hseal⟩
      · refine ⟨count + k, ?_, ?_, ?_, huncut'⟩
        · rw [hkept, List.map_append, hslots, hcut, ← List.range'_append_1]
          congr 2
          omega
        · rw [hcore]
          omega
        · rw [hcore]
          rcases hend with hall | ⟨hsome, hlt⟩
          · left
            omega
          · exact Or.inr ⟨hsome, by omega⟩
      · -- the seal is behind the delivered prefix, so the whole batch is cut
        obtain ⟨hsome, hlower⟩ := hobs.kept hsign
        have hlower : h'.node.stopSlot ≤ h.node.stopSlot := hlower
        refine ⟨count, ?_, ?_, Or.inr ⟨hsome, hlower.trans hseal⟩, huncut'⟩
        · have hnone : inner.1.effects.committed.takeWhile
              (fun d => !abandoned h'.node d.slot) = [] := by
            cases hcs : inner.1.effects.committed with
            | nil => rfl
            | cons d ds =>
                rw [hcs, List.map_cons, List.length_cons, List.range'_succ, List.cons.injEq] at hinner
                have habandoned := abandoned_iff.mpr
                  ⟨hsome, show h'.node.stopSlot < d.slot by omega⟩
                rw [List.takeWhile_cons_of_neg (by simp [habandoned])]
          rw [hkept, hnone, List.append_nil]
          exact hslots
        · rw [hcore]
          exact hle.trans hmono

/-- In every run whose calls all meet the condition: every call leaves the batch of its own inner
transition cut at the seal, with a released stop sign recorded as the seal, and the host applies
every slot once and in order, up to the delivered prefix or to the seal. -/
theorem calls_own_effects {maxMetadata base : Nat} {n : ReplicatedLogNode V} {h : LogHost V}
    (hbegins : Begins P n.core base)
    (hreaches : LogHost.Reaches P maxMetadata (Resets P maxMetadata) { node := n } h) :
    (∃ count, Applied base h count) ∧
      ∀ c, Resets P maxMetadata h (.call c) → Own P maxMetadata h c := by
  obtain ⟨hopened, hdelivered, -⟩ := hbegins.opened
  have hall : Opened P h.node.core ∧ ∃ count, Applied base h count := by
    induction hreaches with
    | refl =>
        exact ⟨hopened, 0, rfl, hdelivered.ge, Or.inl hdelivered.symm, fun d hd => (by cases hd)⟩
    | @step h e _ hok ih =>
        obtain ⟨ho, count, happlied⟩ := ih
        cases e with
        | call c => exact LogHost.call_applied ho happlied hok
        | advanceFloor through =>
            have hsame : (nodeAdvanceMemoryFloor h.node.core through).1.deliveredThrough =
                h.node.core.deliveredThrough := by
              unfold nodeAdvanceMemoryFloor
              split_ifs <;> rfl
            refine ⟨ho.advanceFloor through, count, happlied.slots, ?_, ?_, happlied.uncut⟩
            · exact hsame.symm ▸ happlied.le
            · exact hsame.symm ▸ happlied.frontier
        | setCampaignEnabled enabled =>
            exact ⟨ho.setCampaignEnabled enabled, count, happlied.slots, happlied.le,
              happlied.frontier, happlied.uncut⟩
  obtain ⟨ho, hcount⟩ := hall
  exact ⟨hcount, fun c hok => LogHost.call_own ho hok⟩

/-- Hears of slot 2, then of a stop sign in slot 1, which cuts slot 2 off, then refuses a step of
another configuration. -/
theorem calls_own_effects_cut :
    ∃ h, ({ node := .opened (trioNode {}) 1 } : LogHost Nat).run trioParams 0
        [.call (.step ⟨2, 1, .commit 2 (.command 7)⟩),
          .call (.step ⟨2, 1, .commit 1 (.stop ⟨2, [1, 2, 3], []⟩)⟩),
          .call (.stepChecked 2 ⟨2, 1, .commit 2 (.command 7)⟩)] = h ∧
      h.node.core.deliveredThrough = 2 ∧ h.applied.map (·.slot) = [1] ∧
      (∃ count, Applied 0 h count) ∧
      ∀ c, Resets trioParams 0 h (.call c) → Own trioParams 0 h c := by
  have hfollows : ∀ {h : LogHost Nat} {e : Envelope (Entry Nat)}, h.node.core.role = .follower →
      Resets trioParams 0 h (.call (.step e)) := fun hrole =>
    ⟨fun hr => (by cases hr), fun hm => absurd (hm.1.symm.trans hrole) (by decide)⟩
  have hhears : LogHost.Reaches trioParams 0 (Resets trioParams 0)
      ({ node := .opened (trioNode {}) 1 } : LogHost Nat) _ :=
    .step (e := .call (.step ⟨2, 1, .commit 2 (.command 7)⟩)) .refl (hfollows rfl)
  have hseals := hhears.step (e := .call (.step ⟨2, 1, .commit 1 (.stop ⟨2, [1, 2, 3], []⟩)⟩))
    (hfollows (by decide +kernel))
  have hrefuses := hseals.step (e := .call (.stepChecked 2 ⟨2, 1, .commit 2 (.command 7)⟩))
    ⟨fun hr => (by cases hr), fun hm => absurd hm.1 (by decide +kernel)⟩
  exact ⟨_, rfl, by decide +kernel, by decide +kernel,
    calls_own_effects (.init trio_valid (trioNode_init {})) hrefuses⟩

/-- A proposal that the sealed node refuses leaves the batch with the stop sign in the effects, and
the host applies slot 1 again. -/
theorem stale_effects :
    ¬ ∀ h, LogHost.Reaches trioParams 0 (fun _ _ => True)
      ({ node := .opened (trioNode {}) 1 } : LogHost Nat) h →
        (∃ count, h.applied.map (·.slot) = List.range' (0 + 1) count) ∧
          ∀ c, Own trioParams 0 h c := by
  intro hall
  have hrun : (({ node := .opened (trioNode {}) 1 } : LogHost Nat).run trioParams 0
      [.call (.step ⟨2, 1, .commit 1 (.stop ⟨2, [1, 2, 3], []⟩)⟩),
        .call (.propose 5)]).applied.map (·.slot) = [1, 1] := by decide +kernel
  obtain ⟨count, hcount⟩ := (hall _ (LogHost.reaches_run _ _)).1
  have hsame := hrun.symm.trans hcount
  match count with
  | 0 => cases hsame
  | 1 => cases hsame
  | n + 2 => simp [List.range'_succ] at hsame

end Calls

end PaxosOdin
