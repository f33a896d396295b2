import PaxosOdin.Lifetime.References
import PaxosOdin.Lifetime.Validity

/-!
# What a transition lends

One transition may vote in many slots, resolve a whole chunk and release many entries.  Whatever it
does, the references of its batch to cells still read at the end what they read when they were
made, and those to `pass_through` are about slots that were passed through it.

Main definitions:

- Definition `Quiet`: steps that leave every stored value as it is.

Main results:

- Theorem `Lasting.resolveLoop`: driving a chunk keeps the references to cells good.
- Theorem `operate_lent`: so does every operation on a valid node.
- Theorem `operate_stable`: where no two slots clash, the batch is stable.
-/

namespace PaxosOdin

variable {V : Type} {P : Params}

section Loops

variable {told : Nat → Option V} {n₀ : Node V} {next : Nat} {σ : St V}

/-! ## Resolving a chunk -/

/-- What the scratch says depends on the fixed fields. -/
theorem recoveredDecision_of_fixed {n n' : Node V} (h : n'.fixed = n.fixed) (slot : Nat) :
    n'.recoveredDecision slot = n.recoveredDecision slot := by
  have hrecovered : n'.recovered = n.recovered := congrArg Fixed.recovered h
  have hbase : n'.recoverBase = n.recoverBase := congrArg Fixed.recoverBase h
  unfold Node.recoveredDecision
  rw [hrecovered, hbase]

/-- A decision shown by the ledger is announced. -/
theorem Lasting.announceChosen (h : Lasting P told n₀ next σ) {slot : Nat} {value : V}
    (hlive : n₀.memoryFloor < slot) (hchosen : ledgerChosenAt P σ.node.ledger slot = some value) :
    Lasting P told n₀ next (PaxosOdin.broadcastPeers σ (.commit slot value)) := by
  obtain ⟨hheld, hstate, hvalue⟩ := ledgerChosenAt_eq_some hchosen
  apply h.broadcastPeers
  intro r hr
  rw [List.mem_singleton.mp hr]
  exact ⟨h.base ▸ hlive, hheld, hvalue, Or.inl hstate⟩

section Decide

variable [DecidableEq V]

/-- Driving a chunk keeps the references good: every round votes in a slot of its own. -/
theorem Lasting.resolveLoop {noop : V} (fuel : Nat) {slot : Nat} (h : Lasting P told n₀ slot σ)
    (htold : ∀ s v, σ.node.recoveredDecision s = some v → told s = some v)
    (hlive : n₀.memoryFloor < slot) (hroom : slot + fuel ≤ n₀.memoryFloor + P.W + 1) :
    Lasting P told n₀ (slot + fuel) (PaxosOdin.resolveLoop P noop fuel σ slot).1 := by
  induction fuel generalizing σ slot with
  | zero => exact h
  | succ fuel ih =>
      unfold PaxosOdin.resolveLoop
      by_cases hmax : slot = maxSlot
      · rw [if_pos hmax]
        exact h.mono (Nat.le_add_right _ _)
      rw [if_neg hmax]
      dsimp only
      have hnext : slot + (fuel + 1) = slot + 1 + fuel := by omega
      rw [hnext] at hroom ⊢
      have hlater : slot ≤ slot + 1 + fuel := by omega
      -- the next round, from a state with the same scratch
      have hround : ∀ {τ : St V}, Lasting P told n₀ (slot + 1) τ → τ.node.fixed = σ.node.fixed →
          Lasting P told n₀ (slot + 1 + fuel)
            (PaxosOdin.resolveLoop P noop fuel τ (slot + 1)).1 := by
        intro τ hτ hfixed
        apply ih hτ _ (hlive.trans (Nat.lt_succ_self slot)) hroom
        intro s v hs
        rw [recoveredDecision_of_fixed hfixed] at hs
        exact htold s v hs
      cases hshown : ledgerChosenAt P σ.node.ledger slot with
      | some value =>
          exact hround ((h.announceChosen hlive hshown).mono (Nat.le_succ slot)) rfl
      | none =>
          by_cases hrecovered : (σ.node.recovered (slot - σ.node.recoverBase)).slot = slot ∧
              (σ.node.recovered (slot - σ.node.recoverBase)).state = .chosen
          · rw [if_pos hrecovered]
            have hdecision : told slot =
                some (σ.node.recovered (slot - σ.node.recoverBase)).value := by
              apply htold
              unfold Node.recoveredDecision
              rw [if_pos hrecovered]
            have hcommit := h.recordCommit _ (fun _ => hdecision) (Or.inl (by omega))
              (Or.inl le_rfl)
            rcases hcase : PaxosOdin.recordCommit P σ slot
              (σ.node.recovered (slot - σ.node.recoverBase)).value with ⟨τ, e⟩
            rw [hcase] at hcommit
            cases e with
            | none =>
                dsimp only
                cases hdecided : ledgerChosenAt P τ.node.ledger slot with
                | some decided =>
                    exact hround ((hcommit.lasting.announceChosen hlive hdecided).mono
                      (Nat.le_succ slot)) hcommit.fixed
                | none => exact hround (hcommit.lasting.mono (Nat.le_succ slot)) hcommit.fixed
            | _ => exact hcommit.lasting.mono hlater
          · rw [if_neg hrecovered]
            generalize (if (σ.node.recovered (slot - σ.node.recoverBase)).slot = slot ∧
                (σ.node.recovered (slot - σ.node.recoverBase)).state = .voted then
              (σ.node.recovered (slot - σ.node.recoverBase)).value else noop) = value
            have hsend := h.sendAccept σ.node.ballot value le_rfl
            rcases hcase : PaxosOdin.sendAccept P σ slot σ.node.ballot value with ⟨τ, e⟩
            rw [hcase] at hsend
            have hvoted := hsend.lasting.mono (Nat.le_add_right (slot + 1) fuel)
            cases e with
            | none => exact hround hsend.lasting hsend.fixed
            | notLeader => exact hvoted.behind rfl rfl rfl rfl
            | _ => exact hvoted

/-- `resolve_chunk` keeps the references good. -/
theorem Lasting.resolveChunk (h : Lasting P told n₀ 0 σ) (noop : V) (anyMore : Bool)
    (htold : ∀ s v, σ.node.recoveredDecision s = some v → told s = some v) :
    ∃ next, Lasting P told n₀ next (PaxosOdin.resolveChunk P σ noop anyMore).1 := by
  unfold PaxosOdin.resolveChunk
  dsimp only
  by_cases hfence : max (quorumFences σ.node).trim (quorumFences σ.node).chosen = maxSlot
  · rw [if_pos hfence]
    exact ⟨0, h⟩
  rw [if_neg hfence]
  have hdriven : ∃ next, Lasting P told n₀ next
      (PaxosOdin.resolveLoop P noop (min (driveGoal P σ.node anyMore)
        (slotAdd σ.node.memoryFloor P.W) + 1 - driveStart σ.node) σ (driveStart σ.node)).1 := by
    have hstart : n₀.memoryFloor < driveStart σ.node := by
      have := h.live
      have := h.delivered
      have := (quorumFences_bounds σ.node).2.1
      unfold driveStart
      omega
    have hwindow := slotAdd_le_add σ.node.memoryFloor P.W
    rw [h.base] at hwindow ⊢
    by_cases hempty : min (driveGoal P σ.node anyMore) (slotAdd n₀.memoryFloor P.W) + 1 ≤
        driveStart σ.node
    · rw [Nat.sub_eq_zero_of_le hempty]
      exact ⟨0, h⟩
    · refine ⟨_, (h.mono (Nat.zero_le _)).resolveLoop _ htold hstart ?_⟩
      omega
  rcases hcase : PaxosOdin.resolveLoop P noop (min (driveGoal P σ.node anyMore)
    (slotAdd σ.node.memoryFloor P.W) + 1 - driveStart σ.node) σ (driveStart σ.node) with
    ⟨τ, _ | ⟨resolved, e⟩⟩
  · rw [hcase] at hdriven
    obtain ⟨next, hτ⟩ := hdriven
    refine ⟨next, ?_⟩
    dsimp only
    split_ifs
    · cases (quorumFences σ.node).chosenPeer with
      | none => exact hτ
      | some peer => exact hτ.sendTo peer nofun
    · exact hτ
  · rw [hcase] at hdriven
    exact hdriven

/-- The next chunk is announced, or the candidate leads. -/
theorem Lasting.resolveFrozen (h : Lasting P told n₀ 0 σ) (noop : V)
    (htold : ∀ s v, σ.node.recoveredDecision s = some v → told s = some v) :
    ∃ next, Lasting P told n₀ next (PaxosOdin.resolveFrozen P σ noop).1 := by
  obtain ⟨next, hchunk⟩ := h.resolveChunk noop σ.node.recoveryMore htold
  refine ⟨next, ?_⟩
  unfold PaxosOdin.resolveFrozen
  rcases hcase : PaxosOdin.resolveChunk P σ noop σ.node.recoveryMore with ⟨τ, resolved, e⟩
  rw [hcase] at hchunk
  dsimp only
  rw [hcase]
  cases e with
  | none =>
      dsimp only
      split_ifs
      · exact hchunk
      · exact hchunk
      · unfold beginNextChunk
        dsimp only
        apply Lasting.broadcastAll
        · exact hchunk.behind rfl rfl rfl rfl
        · intro r hr
          cases hr
      · unfold becomeLeader
        dsimp only
        split_ifs
        · apply Lasting.emitContiguous
          exact hchunk.behind rfl rfl rfl rfl
        · apply Lasting.emitContiguous
          exact hchunk.behind rfl rfl rfl rfl
  | _ => exact hchunk

/-- `maybe_resolve_chunk` keeps the references good: freezing the selection touches none. -/
theorem Lasting.maybeResolveChunk (h : Lasting P told n₀ 0 σ)
    (htold : ∀ s v, σ.node.recoveredDecision s = some v → told s = some v) :
    Lent P told n₀ (PaxosOdin.maybeResolveChunk P σ).1 := by
  unfold PaxosOdin.maybeResolveChunk
  cases σ.node.noop with
  | none => exact h.lent
  | some noop =>
      dsimp only
      split_ifs
      · exact h.lent
      · have hfrozen : Lasting P told n₀ 0 { σ with node := freezeSelection σ.node } := by
          unfold freezeSelection
          split_ifs
          · exact h
          · exact h.behind rfl rfl rfl rfl
        obtain ⟨next, hnext⟩ := hfrozen.resolveFrozen noop <| by
          intro s v hs
          apply htold s v
          rw [← hs]
          show _ = (freezeSelection σ.node).recoveredDecision s
          unfold freezeSelection
          split_ifs <;> rfl
        exact hnext.lent

/-- The scratch after a report holds its earlier decisions, and the reported one. -/
theorem mergeReport_decision {r : Recovered V} {slot vote s : Nat} {state : CellState}
    {value v : V} (hslot : (mergeReport r slot vote state value).1.slot = s)
    (hstate : (mergeReport r slot vote state value).1.state = .chosen)
    (hvalue : (mergeReport r slot vote state value).1.value = v) :
    (if r.slot = s ∧ r.state = .chosen then some r.value else none).or
      (if slot = s ∧ state = .chosen then some value else none) = some v := by
  unfold mergeReport at hslot hstate hvalue
  dsimp only at hslot hstate hvalue
  by_cases hother : r.slot ≠ slot
  · simp only [if_pos hother] at hslot hstate hvalue
    subst hslot hvalue
    simp [hother, hstate]
  · simp only [if_neg hother] at hslot hstate hvalue
    rw [not_not] at hother
    cases hr : r.state with
    | empty =>
        simp only [hr] at hslot hstate hvalue
        simp [hother.symm.trans hslot, hstate, hvalue]
    | chosen =>
        simp only [hr] at hslot hstate hvalue
        simp [hslot, hvalue]
    | voted =>
        simp only [hr] at hslot hstate hvalue
        split_ifs at hslot hstate hvalue with hchosen hsame hgreater
        · simp only at hslot hvalue
          simp [hother.symm.trans hslot, hchosen, hvalue]
        · rw [hr] at hstate
          cases hstate
        · simp only [hr] at hstate
          cases hstate
        · rw [hr] at hstate
          cases hstate

/-- The same of the scratch of the whole chunk. -/
theorem recordReport_decision {n : Node V} {member cell slot vote s : Nat} {state : CellState}
    {value v : V} (h : (recordReport n member cell slot vote state value).1.recoveredDecision s = some v) :
    (n.recoveredDecision s).or (if slot = s ∧ state = .chosen then some value else none) =
      some v := by
  have hrecovered : (recordReport n member cell slot vote state value).1.recovered =
      Function.update n.recovered cell
        (mergeReport (n.recovered cell) slot vote state value).1 := by
    unfold recordReport
    dsimp only
    split_ifs <;> rfl
  have hbase : (recordReport n member cell slot vote state value).1.recoverBase =
      n.recoverBase := by
    unfold recordReport
    dsimp only
    split_ifs <;> rfl
  unfold Node.recoveredDecision at h ⊢
  rw [hrecovered, hbase] at h
  dsimp only at h ⊢
  by_cases hs : s - n.recoverBase = cell
  · subst hs
    rw [Function.update_self] at h
    split_ifs at h with hdecided
    exact mergeReport_decision hdecided.1 hdecided.2 (Option.some.inj h)
  · rw [Function.update_of_ne hs] at h
    rw [h, Option.some_or]

/-- A report keeps the references good, and so does the resolution that it completes. -/
theorem Lasting.onPromise (h : Lasting P told n₀ 0 σ) {member ballot slot vote : Nat}
    {state : CellState} {value : V}
    (htold : σ.node.role = .preparing → ∀ s v, (σ.node.recoveredDecision s).or
      (if slot = s ∧ state = .chosen then some value else none) = some v → told s = some v) :
    Lent P told n₀
      (PaxosOdin.onPromise P σ member ballot slot vote state value).1 := by
  unfold PaxosOdin.onPromise
  by_cases hstale : σ.node.role ≠ .preparing ∨ ballot ≠ σ.node.ballot
  · rw [if_pos hstale]
    exact h.lent
  rw [if_neg hstale]
  rw [not_or, not_not] at hstale
  have htold := htold hstale.1
  by_cases hready : σ.node.recoveryReady = true
  · rw [if_pos hready]
    apply h.maybeResolveChunk
    intro s v hs
    apply htold s v
    rw [hs, Option.some_or]
  rw [if_neg hready]
  cases hcell : recoveryIndex P σ.node slot with
  | none => exact h.lent
  | some cell =>
      dsimp only
      by_cases hempty : state = .empty
      · rw [if_pos hempty]
        exact h.lent
      rw [if_neg hempty]
      have hreport : Lasting P told n₀ 0
          { σ with node := (recordReport σ.node member cell slot vote state value).1 } := by
        apply h.behind <;> unfold recordReport <;> dsimp only <;> split_ifs <;> rfl
      have hdecision : ∀ s v, (recordReport σ.node member cell slot vote state value).1.recoveredDecision
          s = some v → told s = some v := by
        intro s v hs
        exact htold s v (recordReport_decision hs)
      rcases hcase : recordReport σ.node member cell slot vote state value with ⟨n, e⟩
      rw [hcase] at hreport hdecision
      cases e with
      | none => exact hreport.maybeResolveChunk hdecision
      | _ => exact hreport.lent

/-- So does a manifest. -/
theorem Lasting.onPromiseRange (h : Lasting P told n₀ 0 σ)
    {member ballot chosenThrough first last reported : Nat} {anchor : TrimAnchor} {more : Bool}
    (htold : σ.node.role = .preparing →
      ∀ s v, σ.node.recoveredDecision s = some v → told s = some v) :
    Lent P told n₀
      (PaxosOdin.onPromiseRange P σ member ballot anchor chosenThrough first last reported more).1 := by
  unfold PaxosOdin.onPromiseRange
  by_cases hstale : σ.node.role ≠ .preparing ∨ ballot ≠ σ.node.ballot
  · rw [if_pos hstale]
    exact h.lent
  rw [if_neg hstale]
  rw [not_or, not_not] at hstale
  have htold := htold hstale.1
  have hmanifest : Lasting P told n₀ 0
      { σ with node := recordManifest σ.node member anchor chosenThrough first last reported more } :=
    h.behind rfl rfl rfl rfl
  split_ifs
  · exact h.maybeResolveChunk htold
  · exact h.lent
  · exact h.lent
  · exact hmanifest.lent
  · exact hmanifest.maybeResolveChunk htold

/-! ## Proposing in own slots -/

omit [DecidableEq V] in
/-- The next own slot is not behind. -/
theorem le_ownSlotFrom (n : Node V) (start : Nat) : start ≤ ownSlotFrom n start := by
  unfold ownSlotFrom slotAdd
  dsimp only
  split_ifs <;> omega

omit [DecidableEq V] in
/-- A probe never goes back. -/
theorem ownSlotProbe_ge {n : Node V} {start slot : Nat} (h : ownSlotProbe P n start = .ok slot) :
    start ≤ slot := by
  have hloop : ∀ fuel first, ownSlotProbeLoop P n fuel first = .ok slot → first ≤ slot := by
    intro fuel
    induction fuel with
    | zero =>
        intro first hfound
        cases hfound
    | succ fuel ih =>
        intro first hfound
        have hskip : ownSlotProbeLoop P n fuel (ownSlotFrom n (first + 1)) = .ok slot →
            first ≤ slot := by
          intro hrest
          have := ih _ hrest
          have := le_ownSlotFrom n (first + 1)
          omega
        unfold ownSlotProbeLoop at hfound
        dsimp only at hfound
        split_ifs at hfound
        · exact (Except.ok.inj hfound).le
        · exact hskip hfound
        · exact (Except.ok.inj hfound).le
        · exact hskip hfound
  unfold ownSlotProbe at h
  split_ifs at h with hmax hlow
  · have := hloop _ _ h
    have := le_ownSlotFrom n (n.memoryFloor + 1)
    omega
  · exact hloop _ _ h

/-- A proposal is never refused for a full window. -/
theorem sendAccept_not_full (σ : St V) (slot ballot : Nat) (value : V) :
    (sendAccept P σ slot ballot value).2 ≠ .windowFull := by
  unfold sendAccept
  rcases claimLive P σ.node slot with ⟨n, _ | cell⟩
  · nofun
  · dsimp only
    split_ifs
    · nofun
    · nofun
    · nofun
    · exact (announceProposal_error _ slot ballot value).2

/-- A proposal in an own slot keeps the references good, and goes on from the slot after it. -/
theorem Lasting.proposeOwned (h : Lasting P told n₀ σ.node.ownNext σ) (value : V) :
    ∃ next, Lasting P told n₀ next (PaxosOdin.proposeOwned P σ value).1 ∧
      ((PaxosOdin.proposeOwned P σ value).2.2 = .none ∨
        (PaxosOdin.proposeOwned P σ value).2.2 = .windowFull →
          next ≤ (PaxosOdin.proposeOwned P σ value).1.node.ownNext) := by
  unfold PaxosOdin.proposeOwned
  generalize P.W + 1 = fuel
  induction fuel generalizing σ with
  | zero => exact ⟨_, h, fun _ => le_rfl⟩
  | succ fuel ih =>
      unfold proposeOwnedLoop nextUsableOwnSlot
      cases hprobe : ownSlotProbe P σ.node σ.node.ownNext with
      | error e => exact ⟨_, h, fun _ => le_rfl⟩
      | ok slot =>
          have hstart : Lasting P told n₀ σ.node.ownNext
              { σ with node := { σ.node with ownNext := slot } } := h.behind rfl rfl rfl rfl
          have hsend := hstart.sendAccept (ownershipBallot σ.node.id) value
            (ownSlotProbe_ge hprobe)
          have hfull := sendAccept_not_full (P := P)
            { σ with node := { σ.node with ownNext := slot } } slot (ownershipBallot σ.node.id) value
          dsimp only
          rcases hcase : PaxosOdin.sendAccept P { σ with node := { σ.node with ownNext := slot } } slot
            (ownershipBallot σ.node.id) value with ⟨τ, e⟩
          rw [hcase] at hsend hfull
          have hlater := le_ownSlotFrom τ.node (slot + 1)
          have hbumped := hsend.lasting.mono hlater
          cases e with
          | none => exact ⟨_, hbumped.behind rfl rfl rfl rfl, fun _ => le_rfl⟩
          | notLeader => exact ih (hbumped.behind rfl rfl rfl rfl)
          | windowFull => exact absurd rfl hfull
          | _ => exact ⟨_, hsend.lasting, fun hend => by rcases hend with hend | hend <;> cases hend⟩

/-- Filling idle own slots keeps the references good. -/
theorem Lasting.skipLoop (noop : V) (fuel : Nat) (h : Lasting P told n₀ σ.node.ownNext σ) (sent : Nat) :
    ∃ next, Lasting P told n₀ next (PaxosOdin.skipLoop P noop fuel σ sent).1 := by
  induction fuel generalizing σ sent with
  | zero => exact ⟨_, h⟩
  | succ fuel ih =>
      unfold PaxosOdin.skipLoop
      by_cases hbehind : σ.node.ownNext ≤ σ.node.highestSeen
      · rw [if_pos hbehind]
        obtain ⟨next, hnext, hend⟩ := h.proposeOwned noop
        rcases hcase : PaxosOdin.proposeOwned P σ noop with ⟨τ, slot, e⟩
        rw [hcase] at hnext hend
        cases e with
        | none => exact ih (hnext.mono (hend (Or.inl rfl))) (sent + 1)
        | _ => exact ⟨next, hnext⟩
      · rw [if_neg hbehind]
        exact ⟨_, h⟩

/-- So does suggesting queued values again, each in a slot past the last. -/
theorem Lasting.drainLoop (fuel : Nat) (h : Lasting P told n₀ σ.node.ownNext σ) (sent : Nat) :
    ∃ next, Lasting P told n₀ next (PaxosOdin.drainLoop P fuel σ sent).1 ∧
      ((PaxosOdin.drainLoop P fuel σ sent).2.2 = .none →
        next ≤ (PaxosOdin.drainLoop P fuel σ sent).1.node.ownNext) := by
  induction fuel generalizing σ sent with
  | zero => exact ⟨_, h, fun _ => le_rfl⟩
  | succ fuel ih =>
      unfold PaxosOdin.drainLoop
      cases σ.node.resubmit with
      | nil => exact ⟨_, h, fun _ => le_rfl⟩
      | cons value rest =>
          dsimp only
          obtain ⟨next, hnext, hend⟩ := h.proposeOwned value
          rcases hcase : PaxosOdin.proposeOwned P σ value with ⟨τ, slot, e⟩
          rw [hcase] at hnext hend
          cases e with
          | none =>
              apply ih
              exact (hnext.mono (hend (Or.inl rfl))).behind rfl rfl rfl rfl
          | windowFull => exact ⟨next, hnext, fun _ => hend (Or.inr rfl)⟩
          | _ => exact ⟨next, hnext, fun hnone => by cases hnone⟩

/-! ## Proposing -/

omit [DecidableEq V] in
/-- A batch of proposals keeps the references good when each of them does and moves the next slot
to vote in past its own. -/
theorem Lasting.proposeAll {propose : St V → V → St V × Nat × Error} (frontier : St V → Nat)
    (room : St V → Nat → Prop)
    (hone : ∀ σ value k, room σ (k + 1) → Lasting P told n₀ (frontier σ) σ →
      (∃ next, Lasting P told n₀ next (propose σ value).1) ∧
        ((propose σ value).2.2 = .none → Lasting P told n₀ (frontier (propose σ value).1)
          (propose σ value).1 ∧ room (propose σ value).1 k))
    (values : List V) (hroom : room σ values.length) (h : Lasting P told n₀ (frontier σ) σ) :
    ∃ next, Lasting P told n₀ next (PaxosOdin.proposeAll propose σ values).1 := by
  induction values generalizing σ with
  | nil => exact ⟨_, h⟩
  | cons value rest ih =>
      unfold PaxosOdin.proposeAll
      obtain ⟨hlasting, hnext⟩ := hone σ value rest.length hroom h
      rcases hcase : propose σ value with ⟨τ, slot, e⟩
      rw [hcase] at hlasting hnext
      cases e with
      | none =>
          obtain ⟨hτ, hroom'⟩ := hnext rfl
          have hrest := ih hroom' hτ
          dsimp only
          rcases hcase' : PaxosOdin.proposeAll propose τ rest with ⟨υ, slots, e⟩
          rw [hcase'] at hrest
          cases e <;> exact hrest
      | _ => exact hlasting

/-- A proposal in the next slot of the term. -/
theorem Lasting.proposeNext (h : Lasting P told n₀ σ.node.nextSlot σ) (value : V)
    (hmax : σ.node.nextSlot ≠ maxSlot) :
    (PaxosOdin.proposeNext P σ value).1.node.nextSlot = σ.node.nextSlot + 1 ∧
      Lasting P told n₀ (σ.node.nextSlot + 1) (PaxosOdin.proposeNext P σ value).1 := by
  unfold PaxosOdin.proposeNext
  have hstart : Lasting P told n₀ σ.node.nextSlot
      { σ with node := { σ.node with nextSlot := slotSucc σ.node.nextSlot } } :=
    h.behind rfl rfl rfl rfl
  have hsend := hstart.sendAccept σ.node.ballot value le_rfl
  refine ⟨?_, hsend.lasting⟩
  exact (congrArg Fixed.nextSlot hsend.fixed).trans (slotSucc_of_ne hmax)

end Decide

end Loops

/-! ## Steps that store no value -/

/-- No stored value changes, no decision is released, and what is added is good. -/
structure Quiet (P : Params) (σ σ' : St V) : Prop where
  tagged : Tagged P σ.node.ledger → Tagged P σ'.node.ledger
  load : ∀ s, σ'.node.load s = σ.node.load s
  committed : σ'.effects.committed = σ.effects.committed
  writes : ∀ w ∈ σ'.effects.writes, w ∈ σ.effects.writes ∨ ∀ passed, w.references P passed = []
  messages : ∀ e ∈ σ'.effects.messages, e ∈ σ.effects.messages ∨
    ∀ r ∈ e.message.references P, σ.node.load r.storage = r.value

namespace Quiet

variable {σ σ' σ'' : St V}

/-- Nothing happens. -/
theorem refl (σ : St V) : Quiet P σ σ :=
  ⟨id, fun _ => rfl, rfl, fun _ hw => Or.inl hw, fun _ he => Or.inl he⟩

/-- One quiet step after another. -/
theorem trans (h : Quiet P σ σ') (h' : Quiet P σ' σ'') : Quiet P σ σ'' where
  tagged := h'.tagged ∘ h.tagged
  load := fun s => (h'.load s).trans (h.load s)
  committed := h'.committed.trans h.committed
  writes := by
    intro w hw
    rcases h'.writes w hw with hw | hnone
    · exact h.writes w hw
    · exact Or.inr hnone
  messages := by
    intro e he
    rcases h'.messages e he with he | hgood
    · exact h.messages e he
    · right
      intro r hr
      rw [← h.load]
      exact hgood r hr

/-- The node changes outside its ledger. -/
theorem ofNode {n : Node V} (hledger : n.ledger = σ.node.ledger)
    (hfield : n.passThrough = σ.node.passThrough) : Quiet P σ { σ with node := n } where
  tagged := by
    intro htag
    show Tagged P n.ledger
    rw [hledger]
    exact htag
  load := by
    intro s
    cases s with
    | cell i =>
        show (n.ledger.cells i).value = _
        rw [hledger]
        rfl
    | passThrough => exact hfield
  committed := rfl
  writes := fun _ hw => Or.inl hw
  messages := fun _ he => Or.inl he

/-- Steps from a node that differs outside its ledger only. -/
theorem behind {τ : St V} (h : Quiet P τ σ') (hledger : τ.node.ledger = σ.node.ledger)
    (hfield : τ.node.passThrough = σ.node.passThrough) (heffects : τ.effects = σ.effects) :
    Quiet P σ σ' := by
  have hnode := ofNode (P := P) (σ := σ) hledger hfield
  rw [← heffects] at hnode
  exact hnode.trans h

/-- Messages are added whose references read what they show. -/
theorem addMessages {es : List (Envelope V)}
    (hes : ∀ e ∈ es, ∀ r ∈ e.message.references P, σ.node.load r.storage = r.value) :
    Quiet P σ (σ.addMessages es) where
  tagged := id
  load := fun _ => rfl
  committed := rfl
  writes := fun _ hw => Or.inl hw
  messages := fun e he => (List.mem_append.mp he).imp_right (hes e)

/-- A message without a value is sent to one peer. -/
theorem sendTo (peer : Nat) {msg : Message V} (hmsg : msg.references P = []) :
    Quiet P σ (PaxosOdin.sendTo σ peer msg) := by
  apply addMessages
  intro e he r hr
  rw [List.mem_singleton.mp he, hmsg] at hr
  cases hr

/-- It is sent to every member. -/
theorem broadcastAll {msg : Message V} (hmsg : msg.references P = []) :
    Quiet P σ (PaxosOdin.broadcastAll σ msg) := by
  apply addMessages
  intro e he r hr
  obtain ⟨peer, -, rfl⟩ := List.mem_map.mp he
  rw [hmsg] at hr
  cases hr

/-- It is sent to every peer. -/
theorem broadcastPeers {msg : Message V} (hmsg : msg.references P = []) :
    Quiet P σ (PaxosOdin.broadcastPeers σ msg) := by
  apply addMessages
  intro e he r hr
  obtain ⟨peer, -, rfl⟩ := List.mem_map.mp he
  rw [hmsg] at hr
  cases hr

/-- A promise is recorded: cells keep their slots and values. -/
theorem promise {l : Ledger V} {w : Write V}
    (hslot : ∀ i, (l.cells i).slot = (σ.node.ledger.cells i).slot)
    (hvalue : ∀ i, (l.cells i).value = (σ.node.ledger.cells i).value)
    (hw : ∀ passed, w.references P passed = []) : Quiet P σ ((σ.withLedger l).addWrite w) where
  tagged := by
    intro htag i
    show (l.cells i).slot ≠ 0 → cellOf (l.cells i).slot P.W = i
    rw [hslot]
    exact htag i
  load := by
    intro s
    cases s with
    | cell i => exact hvalue i
    | passThrough => rfl
  committed := rfl
  writes := by
    intro x hx
    rcases List.mem_append.mp hx with hx | hx
    · exact Or.inl hx
    · rw [List.mem_singleton.mp hx]
      exact Or.inr hw
  messages := fun _ he => Or.inl he

/-- What is lent stays so. -/
theorem lent {told : Nat → Option V} {n₀ : Node V} (h : Quiet P σ σ') (hσ : Lent P told n₀ σ) :
    Lent P told n₀ σ' := by
  have hpassed : σ'.effects.passedSlots = σ.effects.passedSlots := by
    unfold Effects.passedSlots
    rw [h.committed]
  have hcases : ∀ r ∈ σ'.effects.references P, r ∈ σ.effects.references P ∨
      (σ.node.load r.storage = r.value ∧ r = .inCell P r.slot r.value) := by
    intro r hr
    rw [Effects.mem_references, hpassed, h.committed] at hr
    rcases hr with ⟨w, hw, hr⟩ | ⟨e, he, hr⟩ | hr
    · rcases h.writes w hw with hw | hnone
      · exact Or.inl (Effects.mem_references.mpr (Or.inl ⟨w, hw, hr⟩))
      · rw [hnone] at hr
        cases hr
    · rcases h.messages e he with he | hgood
      · exact Or.inl (Effects.mem_references.mpr (Or.inr (Or.inl ⟨e, he, hr⟩)))
      · exact Or.inr ⟨hgood r hr, Message.references_inCell hr⟩
    · exact Or.inl (Effects.mem_references.mpr (Or.inr (Or.inr hr)))
  constructor
  · intro r hr
    rw [h.load]
    rcases hcases r hr with hold | hgood
    · exact hσ.loads r hold
    · exact hgood.1
  · intro r hr hstorage
    rw [hpassed]
    rcases hcases r hr with hold | ⟨-, hcell⟩
    · exact hσ.borrowed r hold hstorage
    · rw [hcell] at hstorage
      cases hstorage
  · exact hσ.passing.congr hpassed (h.load .passThrough)
  · rw [hpassed]
    exact hσ.between
  · rw [hpassed]
    exact hσ.waiting

end Quiet

/-- What a cell tagged with its slot shows is what a message about it refers to. -/
theorem Tagged.load {n : Node V} (htag : Tagged P n.ledger) {i : Nat}
    (hslot : (n.ledger.cells i).slot ≠ 0) :
    n.load (.cell (cellOf (n.ledger.cells i).slot P.W)) = (n.ledger.cells i).value := by
  rw [htag i hslot]
  rfl

/-! ### Retransmission and catch-up -/

section Messages

variable {σ : St V}

/-- A resent proposal or decision shows what its cell holds. -/
theorem resendMessage_load {n : Node V} (htag : Tagged P n.ledger) {acknowledged cell : Nat}
    {msg : Message V} (h : resendMessage n acknowledged cell = some msg) {r : Reference V}
    (hr : r ∈ msg.references P) : n.load r.storage = r.value := by
  unfold resendMessage at h
  dsimp only at h
  by_cases hlow : (n.ledger.cells cell).slot ≤ acknowledged
  · rw [if_pos hlow] at h
    cases h
  rw [if_neg hlow] at h
  have hload := htag.load (i := cell) (by omega)
  cases hstate : (n.ledger.cells cell).state with
  | empty =>
      rw [hstate] at h
      cases h
  | chosen =>
      rw [hstate] at h
      cases h
      rw [List.mem_singleton.mp hr]
      exact hload
  | voted =>
      rw [hstate] at h
      dsimp only at h
      split_ifs at h
      cases h
      rw [List.mem_singleton.mp hr]
      exact hload

/-- A catch-up request carries no value. -/
theorem requestLearn_quiet (peer : Nat) : Quiet P σ (requestLearn P σ peer) :=
  Quiet.sendTo peer rfl

/-- A resend refers to cells that it does not write. -/
theorem resendTo_quiet (htag : Tagged P σ.node.ledger) (peer : Nat) :
    Quiet P σ (resendTo P σ peer) := by
  unfold resendTo
  cases membershipIndexOf σ.node.membership peer with
  | none => exact Quiet.refl σ
  | some i =>
      dsimp only
      have hlearn : Quiet P σ (if σ.node.peerDecidedThrough i > σ.node.deliveredThrough then
          requestLearn P σ peer else σ) := by
        split_ifs
        · exact requestLearn_quiet peer
        · exact Quiet.refl σ
      generalize (if σ.node.peerDecidedThrough i > σ.node.deliveredThrough then
        requestLearn P σ peer else σ) = τ at hlearn ⊢
      have hsent : Quiet P τ (τ.addMessages ((resendLoop P τ.node (σ.node.peerDecidedThrough i)
          (τ.node.resendCursor i) P.W (τ.node.resendCursor i) false 0).1.map fun msg =>
            ⟨τ.node.id, peer, msg⟩)) := by
        apply Quiet.addMessages
        intro e he r hr
        obtain ⟨msg, hmsg, rfl⟩ := List.mem_map.mp he
        obtain ⟨cell, hcell⟩ := resendLoop_messages hmsg
        exact resendMessage_load (hlearn.tagged htag) hcell hr
      exact hlearn.trans (hsent.trans (Quiet.ofNode rfl rfl))

/-- So do resends to all peers. -/
theorem resendToPeers_quiet (htag : Tagged P σ.node.ledger) : Quiet P σ (resendToPeers P σ) := by
  unfold resendToPeers
  generalize σ.node.membership.members.filter (· ≠ σ.node.id) = peers
  induction peers generalizing σ with
  | nil => exact Quiet.refl σ
  | cons peer rest ih =>
      have hone := resendTo_quiet (P := P) htag peer
      exact hone.trans (ih (hone.tagged htag))

/-- So does an answer to a catch-up request. -/
theorem onLearn_quiet (htag : Tagged P σ.node.ledger) (sender fromSlot count : Nat) :
    Quiet P σ (onLearn P σ sender fromSlot count).1 := by
  unfold onLearn
  by_cases hinvalid : fromSlot = 0 ∨ count = 0 ∨ count > P.C
  · rw [if_pos hinvalid]
    exact Quiet.refl σ
  rw [if_neg hinvalid]
  rw [not_or] at hinvalid
  dsimp only
  have hrequest : Quiet P σ (if fromSlot ≤ σ.node.memoryFloor then
      σ.addRequest ⟨sender, fromSlot,
        min (slotAdd fromSlot (count - 1)) σ.node.memoryFloor - fromSlot + 1⟩ else σ) := by
    split_ifs
    · exact ⟨id, fun _ => rfl, rfl, fun _ hw => Or.inl hw, fun _ he => Or.inl he⟩
    · exact Quiet.refl σ
  generalize (if fromSlot ≤ σ.node.memoryFloor then
      σ.addRequest ⟨sender, fromSlot,
        min (slotAdd fromSlot (count - 1)) σ.node.memoryFloor - fromSlot + 1⟩ else σ) = τ
    at hrequest ⊢
  apply hrequest.trans
  apply Quiet.addMessages
  intro e he r hr
  obtain ⟨cell, hcell, rfl⟩ := List.mem_map.mp he
  rw [List.mem_singleton.mp hr]
  have hbounds := of_decide_eq_true (List.mem_filter.mp hcell).2
  apply (hrequest.tagged htag).load
  omega

/-- So do the reports of an acceptor. -/
theorem answerPrepare_quiet (htag : Tagged P σ.node.ledger) (sender ballot first last : Nat) :
    Quiet P σ (answerPrepare P σ sender ballot first last) := by
  unfold answerPrepare
  dsimp only
  apply Quiet.trans _ (Quiet.sendTo sender rfl)
  apply Quiet.addMessages
  intro e he r hr
  obtain ⟨cell, hcell, rfl⟩ := List.mem_map.mp he
  rw [List.mem_singleton.mp hr]
  have hbounds := of_decide_eq_true (List.mem_filter.mp hcell).2
  apply htag.load
  omega

/-! ### Promises -/

/-- A range of claims opens cells that hold no live slot. -/
theorem claimRange_quiet (ballot : Nat) (slots : List Nat) {n : Node V} {e : Effects V} :
    Quiet P ⟨n, e⟩ ⟨(claimRange P ballot n slots).1, e⟩ := by
  induction slots generalizing n with
  | nil => exact Quiet.refl _
  | cons slot rest ih =>
      unfold claimRange
      by_cases hlow : slot ≤ n.memoryFloor
      · rw [if_pos hlow]
        exact ih
      rw [if_neg hlow]
      rcases hcase : claimLive P n slot with ⟨n', _ | cell⟩
      · rw [claimLive_none_fst hcase]
        exact Quiet.refl _
      have hclaim : Quiet P ⟨n, e⟩ ⟨n', e⟩ := by
        have hc := claimLive_some hcase
        rcases hc.cases with rfl | ⟨rfl, -⟩
        · exact Quiet.refl _
        refine ⟨?_, ?_, rfl, fun _ hw => Or.inl hw, fun _ he => Or.inl he⟩
        · intro htag i
          show ((ledgerOpen n.ledger (cellOf slot P.W) slot).cells i).slot ≠ 0 →
            cellOf ((ledgerOpen n.ledger (cellOf slot P.W) slot).cells i).slot P.W = i
          rw [ledgerOpen_cells]
          split_ifs with hi
          · exact fun _ => hi.symm
          · exact htag i
        · intro s
          cases s with
          | cell i =>
              show ((ledgerOpen n.ledger (cellOf slot P.W) slot).cells i).value = _
              rw [ledgerOpen_cells]
              split_ifs with hi
              · rw [hi]
                rfl
              · rfl
          | passThrough => rfl
      dsimp only
      split_ifs
      · exact hclaim
      · exact hclaim.trans ih

/-- A range of promises changes no value. -/
theorem promiseRange_quiet (ballot : Nat) (slots : List Nat) :
    Quiet P σ (promiseRange P ballot σ slots) := by
  induction slots generalizing σ with
  | nil => exact Quiet.refl σ
  | cons slot rest ih =>
      unfold promiseRange
      dsimp only
      split_ifs
      · exact ih
      · exact ih
      · apply Quiet.trans _ ih
        apply Quiet.promise
        · intro i
          rw [ledgerSetPromiseAt_cells]
        · intro i
          rw [ledgerSetPromiseAt_cells]
        · intro passed
          rfl

/-- Neither does a bounded promise. -/
theorem promiseBounded_quiet (ballot first last : Nat) :
    Quiet P σ (promiseBounded P σ ballot first last).1 := by
  unfold promiseBounded
  by_cases hwide : slotSub last first ≥ P.C
  · rw [if_pos hwide]
    exact Quiet.refl σ
  rw [if_neg hwide]
  dsimp only
  have hclaim := claimRange_quiet (P := P) ballot
    ((List.range (slotSub last first + 1)).map (first + ·)) (n := σ.node) (e := σ.effects)
  rcases hcase : claimRange P ballot σ.node
    ((List.range (slotSub last first + 1)).map (first + ·)) with ⟨n, _ | _⟩
  · rw [hcase] at hclaim
    exact hclaim
  · rw [hcase] at hclaim
    exact hclaim.trans (promiseRange_quiet ballot _)

/-- A promise for every decree is recorded. -/
theorem promise_quiet (ballot : Nat) : Quiet P σ
    ((σ.withLedger { σ.node.ledger with promised := ballot }).addWrite (.promise ballot)) :=
  Quiet.promise (fun _ => rfl) (fun _ => rfl) fun _ => rfl

/-- An answer to a Prepare is quiet. -/
theorem onPrepare_quiet (htag : Tagged P σ.node.ledger) (sender ballot first last : Nat)
    (scope : PrepareScope) : Quiet P σ (onPrepare P σ sender ballot first last scope).1 := by
  unfold onPrepare
  dsimp only
  by_cases hlow : ballot < σ.node.ledger.promised
  · rw [if_pos hlow]
    exact Quiet.sendTo sender rfl
  rw [if_neg hlow]
  by_cases hinvalid : first = 0 ∨ last < first
  · rw [if_pos hinvalid]
    exact Quiet.refl σ
  rw [if_neg hinvalid]
  cases scope with
  | global =>
      dsimp only
      have hpromise : Quiet P σ (if ballot ≠ σ.node.ledger.promised then
          (σ.withLedger { σ.node.ledger with promised := ballot }).addWrite (.promise ballot)
          else σ) := by
        split_ifs
        · exact promise_quiet ballot
        · exact Quiet.refl σ
      generalize (if ballot ≠ σ.node.ledger.promised then
        (σ.withLedger { σ.node.ledger with promised := ballot }).addWrite (.promise ballot)
        else σ) = τ at hpromise ⊢
      have hobserved := hpromise.trans
        (Quiet.ofNode (n := observeLeader τ.node sender ballot) rfl rfl)
      exact hobserved.trans (answerPrepare_quiet (hobserved.tagged htag) sender ballot first last)
  | bounded =>
      dsimp only
      have hbounded := promiseBounded_quiet (P := P) (σ := σ) ballot first last
      rcases hcase : promiseBounded P σ ballot first last with ⟨τ, _ | _⟩
      · rw [hcase] at hbounded
        exact hbounded
      · rw [hcase] at hbounded
        have hobserved := hbounded.trans (Quiet.ofNode (n := { τ.node with
          highestObservedRound := max τ.node.highestObservedRound (ballotRound ballot) }) rfl rfl)
        exact hobserved.trans
          (answerPrepare_quiet (hobserved.tagged htag) sender ballot first last)

/-- So is a heartbeat. -/
theorem onHeartbeat_quiet (sender ballot decidedThrough : Nat) :
    Quiet P σ (onHeartbeat P σ sender ballot decidedThrough) := by
  unfold onHeartbeat
  dsimp only
  by_cases hlow : ballot < σ.node.ledger.promised
  · rw [if_pos hlow]
    exact Quiet.sendTo sender rfl
  rw [if_neg hlow]
  have hpromise : Quiet P σ (if ballot ≠ σ.node.ledger.promised then
      (σ.withLedger { σ.node.ledger with promised := ballot }).addWrite (.promise ballot)
      else σ) := by
    split_ifs
    · exact promise_quiet ballot
    · exact Quiet.refl σ
  generalize (if ballot ≠ σ.node.ledger.promised then
    (σ.withLedger { σ.node.ledger with promised := ballot }).addWrite (.promise ballot)
    else σ) = τ at hpromise ⊢
  have hobserved := hpromise.trans
    (Quiet.ofNode (n := observeLeader τ.node sender ballot) rfl rfl)
  split_ifs
  · exact hobserved.trans (requestLearn_quiet sender)
  · exact hobserved

/-! ### Campaigns -/

/-- So is the beginning of a campaign. -/
theorem startCampaign_quiet (noop : V) : Quiet P σ (startCampaign P σ noop).1 := by
  unfold startCampaign
  dsimp only
  by_cases hmax : σ.node.deliveredThrough = maxSlot
  · rw [if_pos hmax]
    exact Quiet.refl σ
  rw [if_neg hmax]
  cases nextRound P σ.node with
  | none => exact Quiet.refl σ
  | some round =>
      dsimp only
      apply Quiet.trans _ (Quiet.broadcastAll rfl)
      refine ⟨id, ?_, rfl, ?_, fun _ he => Or.inl he⟩
      · intro s
        cases s <;> rfl
      · intro w hw
        rcases List.mem_append.mp hw with hw | hw
        · exact Or.inl hw
        · rw [List.mem_singleton.mp hw]
          exact Or.inr fun _ => rfl

/-- So is the beginning of a revocation. -/
theorem startRevocation_quiet (noop : V) : Quiet P σ (startRevocation P σ noop).1 := by
  unfold startRevocation
  dsimp only
  cases nextRound P σ.node with
  | none => exact Quiet.refl σ
  | some round =>
      dsimp only
      by_cases hmax : σ.node.deliveredThrough = maxSlot
      · rw [if_pos hmax]
        exact Quiet.refl σ
      rw [if_neg hmax]
      have hbounded := promiseBounded_quiet (P := P) (σ := σ)
        (ballotMake round σ.node.priority σ.node.id) (σ.node.deliveredThrough + 1)
        (revocationLast P σ.node (σ.node.deliveredThrough + 1))
      rcases hcase : promiseBounded P σ (ballotMake round σ.node.priority σ.node.id)
        (σ.node.deliveredThrough + 1) (revocationLast P σ.node (σ.node.deliveredThrough + 1)) with
        ⟨τ, _ | _⟩
      · rw [hcase] at hbounded
        exact hbounded.trans (Quiet.ofNode rfl rfl)
      · rw [hcase] at hbounded
        dsimp only
        apply Quiet.trans _ (Quiet.broadcastAll rfl)
        exact hbounded.trans (Quiet.ofNode rfl rfl)

/-- So is the tick of an owner that waits. -/
theorem tickStalled_quiet (htag : Tagged P σ.node.ledger) (noop : V) (proposed : Nat) :
    Quiet P σ (tickStalled P σ noop proposed).1 := by
  unfold tickStalled
  dsimp only
  have hresend : Quiet P σ (if proposed = 0 ∧ σ.node.resendTicks ≥ σ.node.resendIntervalTicks then
      resendToPeers P { σ with node := { σ.node with resendTicks := 0 } } else σ) := by
    split_ifs
    · refine Quiet.behind (resendToPeers_quiet ?_) ?_ ?_ ?_
      · exact htag
      · rfl
      · rfl
      · rfl
    · exact Quiet.refl σ
  generalize (if proposed = 0 ∧ σ.node.resendTicks ≥ σ.node.resendIntervalTicks then
    resendToPeers P { σ with node := { σ.node with resendTicks := 0 } } else σ) = τ at hresend ⊢
  have hstalled := hresend.trans (Quiet.ofNode
    (n := { τ.node with stallTicks := saturatingIncrement τ.node.stallTicks }) rfl rfl)
  split_ifs
  · exact hresend.trans (Quiet.ofNode rfl rfl)
  · exact hstalled.trans (startRevocation_quiet noop)
  · exact hstalled.trans (requestLearn_quiet _)
  · exact hstalled
  · exact hstalled

/-- So is the tick of a leader. -/
theorem tickLeader_quiet (htag : Tagged P σ.node.ledger) (noop : V) :
    Quiet P σ (tickLeader P σ noop).1 := by
  unfold tickLeader
  dsimp only
  generalize (if decide (σ.node.deliveredThrough < slotSub σ.node.leaderBase 1) = true then
    saturatingIncrement σ.node.gapTicks else 0) = gapTicks
  by_cases hgap : decide (σ.node.deliveredThrough < slotSub σ.node.leaderBase 1) = true ∧
      gapTicks ≥ σ.node.electionTimeoutTicks
  · rw [if_pos hgap]
    exact (startCampaign_quiet noop).behind rfl rfl rfl
  rw [if_neg hgap]
  have hbeat : Quiet P σ (if σ.node.heartbeatTicks ≥ σ.node.heartbeatIntervalTicks then
      broadcastPeers { σ with node := { σ.node with gapTicks := gapTicks, heartbeatTicks := 0 } }
        (.heartbeat σ.node.ballot σ.node.deliveredThrough)
      else { σ with node := { σ.node with gapTicks := gapTicks } }) := by
    split_ifs
    · exact (Quiet.broadcastPeers rfl).behind rfl rfl rfl
    · exact Quiet.ofNode rfl rfl
  generalize (if σ.node.heartbeatTicks ≥ σ.node.heartbeatIntervalTicks then
      broadcastPeers { σ with node := { σ.node with gapTicks := gapTicks, heartbeatTicks := 0 } }
        (.heartbeat σ.node.ballot σ.node.deliveredThrough)
      else { σ with node := { σ.node with gapTicks := gapTicks } }) = τ at hbeat ⊢
  split_ifs
  · apply hbeat.trans
    refine Quiet.behind (resendToPeers_quiet ?_) ?_ ?_ ?_
    · exact hbeat.tagged htag
    · rfl
    · rfl
    · rfl
  · exact hbeat

end Messages

/-! ## Transitions -/

section Transitions

variable [DecidableEq V] {told : Nat → Option V} {n₀ : Node V} {σ : St V}

/-- A vote for another proposer's value, or the decision that answers it. -/
theorem onAccept_lent (h : Lasting P told n₀ 0 σ) (sender ballot slot : Nat) (value : V) :
    Lent P told n₀ (onAccept P σ sender ballot slot value).1 := by
  unfold onAccept
  dsimp only
  by_cases hzero : slot = 0
  · rw [if_pos hzero]
    exact h.lent
  rw [if_neg hzero]
  by_cases htrim : slot ≤ σ.node.ledger.anchor.chosenTrimSlot
  · rw [if_pos htrim]
    exact h.lent
  rw [if_neg htrim]
  by_cases hround : ballotRound ballot = 0 ∧
      ((!σ.node.ownership) = true ∨ ballotNode ballot ≠ ownerOf σ.node slot)
  · rw [if_pos hround]
    exact h.lent
  rw [if_neg hround]
  by_cases hlow : ballot < σ.node.ledger.promised
  · rw [if_pos hlow]
    exact (Quiet.sendTo sender rfl).lent h.lent
  rw [if_neg hlow]
  rcases hcase : claimLive P σ.node slot with ⟨n, _ | cell⟩
  · exact h.lent
  have hc := claimLive_some hcase
  have hcell := hc.cell_eq
  subst hcell
  have hfloor : n.memoryFloor = σ.node.memoryFloor := memoryFloor_of_fixed hc.fixed
  have hlive : n.memoryFloor < slot := hfloor ▸ hc.live
  have hseen := (h.claim hc).lasting.behind
    (n := { n with highestSeen := max n.highestSeen slot }) rfl rfl rfl rfl
  dsimp only
  by_cases hpromise : ballot < (n.ledger.cells (cellOf slot P.W)).promisedAt
  · rw [if_pos hpromise]
    exact (Quiet.sendTo sender rfl).lent hseen.lent
  rw [if_neg hpromise]
  by_cases hchosen : (n.ledger.cells (cellOf slot P.W)).state = .chosen
  · rw [if_pos hchosen]
    by_cases hvalue : (n.ledger.cells (cellOf slot P.W)).value = value
    · rw [if_pos hvalue]
      exact (Quiet.sendTo sender rfl).lent hseen.lent
    · rw [if_neg hvalue]
      apply (hseen.sendTo sender _).lent
      intro r hr
      rw [List.mem_singleton.mp hr]
      exact ⟨hlive, hc.held, rfl, Or.inl hchosen⟩
  rw [if_neg hchosen]
  by_cases hvoted : (n.ledger.cells (cellOf slot P.W)).state = .voted ∧
      (n.ledger.cells (cellOf slot P.W)).voteBallot = ballot
  · rw [if_pos hvoted]
    by_cases hvalue : (n.ledger.cells (cellOf slot P.W)).value ≠ value
    · rw [if_pos hvalue]
      exact hseen.lent
    · rw [if_neg hvalue]
      exact (Quiet.sendTo sender rfl).lent hseen.lent
  rw [if_neg hvoted]
  obtain ⟨resubmit, dropped, heq⟩ := requeue_eq (P := P)
    { n with highestSeen := max n.highestSeen slot } (n.ledger.cells (cellOf slot P.W)).value
    ((n.ledger.cells (cellOf slot P.W)).state = .voted ∧ n.ownership ∧
      (n.ledger.cells (cellOf slot P.W)).voteBallot = ownershipBallot n.id ∧
        (n.ledger.cells (cellOf slot P.W)).value ≠ value)
  rw [heq]
  refine (Quiet.sendTo sender rfl).lent (hseen.vote ballot ballot value ?_ ?_ ?_ ?_ hlive
    (hfloor ▸ hc.window) hc.held hchosen (not_lt.mp hpromise) (Nat.zero_le _)).1.lent
  all_goals split_ifs <;> rfl

/-- An acknowledgement decides with the value of its own cell. -/
theorem onAccepted_lent (h : Lasting P told n₀ 0 σ) (hempty : σ.effects = {})
    {member ballot slot : Nat}
    (htold : told slot = some (σ.node.ledger.cellAt P slot).value) :
    Lent P told n₀ (onAccepted P σ member ballot slot).1 := by
  unfold onAccepted
  dsimp only
  generalize (if member ∈ (σ.node.lead (cellOf slot P.W)).acknowledgements then
    σ.node.lead (cellOf slot P.W) else
    { σ.node.lead (cellOf slot P.W) with
      acknowledgements := insert member (σ.node.lead (cellOf slot P.W)).acknowledgements
      acknowledged := (σ.node.lead (cellOf slot P.W)).acknowledged + 1 }) = lead
  have hcounted : Lasting P told n₀ 0
      { σ with node := { σ.node with lead := Function.update σ.node.lead (cellOf slot P.W) lead } } :=
    h.behind rfl rfl rfl rfl
  have hcommit := (hcounted.recordCommit (σ.node.ledger.cells (cellOf slot P.W)).value (fun _ => htold) (Or.inr hempty) (Or.inl (Nat.zero_le slot))).lasting.lent
  split_ifs
  · exact h.lent
  · exact h.lent
  · exact hcounted.lent
  · exact hcounted.lent
  · exact hcounted.lent
  · exact hcounted.lent
  · rcases hcase : recordCommit P
      { σ with node := { σ.node with lead := Function.update σ.node.lead (cellOf slot P.W) lead } } slot
      (σ.node.ledger.cells (cellOf slot P.W)).value with ⟨τ, e⟩
    rw [hcase] at hcommit
    cases e with
    | none =>
        refine (Quiet.addMessages ?_).lent hcommit
        intro e he r hr
        obtain ⟨peer, -, rfl⟩ := List.mem_map.mp he
        rw [List.mem_singleton.mp hr]
        rfl
    | _ => exact hcommit

omit [DecidableEq V] in
/-- A transition without effects lends nothing. -/
theorem lent_start (n : Node V) : Lent P told n₀ (St.start n) := by
  constructor
  · simp [Effects.references, St.start]
  · simp [Effects.references, St.start]
  · constructor <;> simp [St.start, Effects.passedSlots]
  · simp [St.start, Effects.passedSlots]
  · simp [St.start, Effects.passedSlots]

/-- A decision handed to `record_commit` at the start of a transition. -/
theorem learned_lent (h : Lasting P told n₀ 0 σ) (hempty : σ.effects = {}) {slot : Nat} {value : V} (htold : told slot = some value) :
    Lent P told n₀ (recordCommit P σ slot value).1 :=
  (h.recordCommit value (fun _ => htold) (Or.inr hempty)
    (Or.inl (Nat.zero_le slot))).lasting.lent

/-- A voter's answer to a message. -/
theorem dispatch_lent {n : Node V} (htag : Tagged P n.ledger)
    (hlive : n.memoryFloor ≤ n.deliveredThrough) (sender member : Nat) (msg : Message V) :
    Lent P (fun slot => heardDecision P n slot msg) n
      (dispatch P (St.start (notePeerProgress n member msg)) sender member msg).1 := by
  have hledger : (notePeerProgress n member msg).ledger = n.ledger := by
    unfold notePeerProgress
    split <;> rfl
  have htag' : Tagged P (notePeerProgress n member msg).ledger := by
    rw [hledger]
    exact htag
  have hstart : Lasting P (fun slot => heardDecision P n slot msg) n 0
      (St.start (notePeerProgress n member msg)) := by
    apply Lasting.start htag' hledger _ _ hlive <;> unfold notePeerProgress <;> split <;> rfl
  have hlent := hstart.lent
  cases msg with
  | prepare ballot first last scope =>
      exact (onPrepare_quiet htag' sender ballot first last scope).lent hlent
  | promise ballot slot vote state value =>
      apply hstart.onPromise
      intro hrole s v hs
      exact (if_pos hrole).trans hs
  | promiseRange ballot anchor chosenThrough first last reported more =>
      apply hstart.onPromiseRange
      intro hrole s v hs
      exact (if_pos hrole).trans hs
  | accept ballot slot value => exact onAccept_lent hstart sender ballot slot value
  | accepted ballot slot decidedThrough =>
      apply onAccepted_lent hstart rfl
      exact if_pos rfl
  | commit slot value =>
      apply learned_lent (σ := { node := { notePeerProgress n member (.commit slot value) with
        leaderHint := some sender, electionTicks := 0 } }) (hstart.behind rfl rfl rfl rfl) rfl
      exact if_pos rfl
  | learn fromSlot count => exact (onLearn_quiet htag' sender fromSlot count).lent hlent
  | nack rejected promised slot decidedThrough =>
      refine (Quiet.ofNode ?_ ?_).lent hlent <;> unfold onNack <;> dsimp only <;> split_ifs <;> rfl
  | heartbeat ballot decidedThrough =>
      exact (onHeartbeat_quiet sender ballot decidedThrough).lent hlent

/-- A proposal for one value. -/
theorem nodePropose_lent {n : Node V} (htag : Tagged P n.ledger)
    (hlive : n.memoryFloor ≤ n.deliveredThrough) (value : V) :
    Lent P told n (nodePropose P n value).1 := by
  unfold nodePropose
  cases proposalGate n with
  | none =>
      dsimp only
      by_cases hmode : n.ownership = true
      · rw [if_pos hmode]
        have hstart : Lasting P told n (St.start n).node.ownNext (St.start n) :=
          Lasting.start htag rfl rfl rfl hlive
        obtain ⟨next, hnext, -⟩ := hstart.proposeOwned value
        exact hnext.lent
      rw [if_neg hmode]
      split_ifs with hmax hfull
      · exact lent_start n
      · exact lent_start n
      · have hstart : Lasting P told n (St.start n).node.nextSlot (St.start n) :=
          Lasting.start htag rfl rfl rfl hlive
        exact (hstart.proposeNext value hmax).2.lent
  | _ => exact lent_start n

/-- A batch of client values: every value goes to a slot past the last. -/
theorem nodeProposeBatch_lent {n : Node V} (htag : Tagged P n.ledger)
    (hlive : n.memoryFloor ≤ n.deliveredThrough) (values : List V) (capacity : Nat) :
    Lent P told n (nodeProposeBatch P n values capacity).1 := by
  have hstart : ∀ next, Lasting P told n next (St.start n) := fun next =>
    Lasting.start htag rfl rfl rfl hlive
  unfold nodeProposeBatch
  cases proposalGate n with
  | none =>
      dsimp only
      by_cases hempty : values.length = 0
      · rw [if_pos hempty]
        exact lent_start n
      rw [if_neg hempty]
      by_cases hlarge : values.length > P.C
      · rw [if_pos hlarge]
        exact lent_start n
      rw [if_neg hlarge]
      by_cases hbuffer : capacity < values.length
      · rw [if_pos hbuffer]
        exact lent_start n
      rw [if_neg hbuffer]
      by_cases hmode : n.ownership = true
      · rw [if_pos hmode]
        cases ownSlotsAvailable P n values.length n.ownNext with
        | none =>
            have hone : ∀ σ value (k : Nat), True → Lasting P told n σ.node.ownNext σ →
                (∃ next, Lasting P told n next (proposeOwned P σ value).1) ∧
                  ((proposeOwned P σ value).2.2 = .none →
                    Lasting P told n (proposeOwned P σ value).1.node.ownNext
                      (proposeOwned P σ value).1 ∧ True) := by
              intro σ value k _ hσ
              obtain ⟨next, hnext, hend⟩ := hσ.proposeOwned value
              exact ⟨⟨next, hnext⟩, fun hnone => ⟨hnext.mono (hend (Or.inl hnone)), trivial⟩⟩
            obtain ⟨next, hnext⟩ := Lasting.proposeAll (fun σ => σ.node.ownNext) (fun _ _ => True)
              hone values trivial (hstart (St.start n).node.ownNext)
            exact hnext.lent
        | _ => exact lent_start n
      rw [if_neg hmode]
      by_cases hexhausted : values.length > maxSlot - n.nextSlot
      · rw [if_pos hexhausted]
        exact lent_start n
      rw [if_neg hexhausted]
      split_ifs
      · exact lent_start n
      · have hone : ∀ σ value k, σ.node.nextSlot + (k + 1) ≤ maxSlot →
            Lasting P told n σ.node.nextSlot σ →
              (∃ next, Lasting P told n next (proposeNext P σ value).1) ∧
                ((proposeNext P σ value).2.2 = .none →
                  Lasting P told n (proposeNext P σ value).1.node.nextSlot
                      (proposeNext P σ value).1 ∧
                    (proposeNext P σ value).1.node.nextSlot + k ≤ maxSlot) := by
          intro σ value k hroom hσ
          obtain ⟨hslot, hnext⟩ := hσ.proposeNext value (by omega)
          refine ⟨⟨_, hnext⟩, fun _ => ⟨hslot ▸ hnext, ?_⟩⟩
          omega
        obtain ⟨next, hnext⟩ := Lasting.proposeAll (fun σ => σ.node.nextSlot)
          (fun σ k => σ.node.nextSlot + k ≤ maxSlot) hone values
          (show n.nextSlot + values.length ≤ maxSlot by omega)
          (hstart (St.start n).node.nextSlot)
        exact hnext.lent
  | _ => exact lent_start n

/-- The ownership side of a tick: the chunk is driven, or own slots are filled and what follows
stores no value. -/
theorem tickOwnership_lent (h : ∀ next, Lasting P told n₀ next σ)
    (htold : σ.node.role = .preparing →
      ∀ s v, σ.node.recoveredDecision s = some v → told s = some v) (noop : V) :
    Lent P told n₀ (tickOwnership P σ noop).1 := by
  unfold tickOwnership
  by_cases hrole : σ.node.role = .preparing
  · rw [if_pos hrole]
    split_ifs
    · exact (h 0).maybeResolveChunk (htold hrole)
    · exact (startRevocation_quiet noop).lent (h 0).lent
  rw [if_neg hrole]
  obtain ⟨next, hdrained, hend⟩ := (h σ.node.ownNext).drainLoop σ.node.resubmit.length 0
  unfold drainResubmits
  rcases hcase : drainLoop P σ.node.resubmit.length σ 0 with ⟨τ, drained, e⟩
  rw [hcase] at hdrained hend
  cases e with
  | none =>
      dsimp only
      obtain ⟨next', hskipped⟩ := (hdrained.mono (hend rfl)).skipLoop noop
        (min (P.C - drained) skipBurst) 0
      unfold skipIdleSlots
      rcases hcase' : skipLoop P noop (min (P.C - drained) skipBurst) τ 0 with ⟨υ, skipped, e⟩
      rw [hcase'] at hskipped
      cases e with
      | none => exact (tickStalled_quiet hskipped.tagged noop _).lent hskipped.lent
      | _ => exact hskipped.lent
  | _ => exact hdrained.lent

/-- A tick, in either mode. -/
theorem nodeTick_lent {n : Node V} (htag : Tagged P n.ledger)
    (hlive : n.memoryFloor ≤ n.deliveredThrough)
    (htold : n.role = .preparing → ∀ s v, n.recoveredDecision s = some v → told s = some v)
    (noop : V) : Lent P told n (nodeTick P n noop).1 := by
  unfold nodeTick
  by_cases hvoter : (!n.votingMember) = true
  · rw [if_pos hvoter]
    exact lent_start n
  rw [if_neg hvoter]
  dsimp only
  have hstart : ∀ next, Lasting P told n next (St.start
      { n with
        electionTicks := saturatingIncrement n.electionTicks
        heartbeatTicks := saturatingIncrement n.heartbeatTicks
        resendTicks := saturatingIncrement n.resendTicks }) := fun next =>
    Lasting.start htag rfl rfl rfl hlive
  split_ifs with hmode hleader hpreparing hcampaign
  · exact tickOwnership_lent hstart htold noop
  · exact (tickLeader_quiet htag noop).lent (lent_start _)
  · exact (hstart 0).maybeResolveChunk (htold hpreparing.1)
  · exact (startCampaign_quiet noop).lent (lent_start _)
  · exact lent_start _

/-- The batch of every operation on a valid node. -/
theorem operate_lent {n : Node V} (htag : Tagged P n.ledger)
    (hlive : n.memoryFloor ≤ n.deliveredThrough) (op : Operation V) :
    Lent P (decisionFor P n op) n (operate P n op) := by
  have hstart : Lasting P (decisionFor P n op) n 0 (St.start n) :=
    Lasting.start htag rfl rfl rfl hlive
  cases op with
  | call c =>
      cases c with
      | campaign noop =>
          show Lent P _ n (nodeCampaign P n noop).1
          unfold nodeCampaign
          split_ifs
          · exact lent_start n
          · exact lent_start n
          · exact (startCampaign_quiet noop).lent (lent_start n)
      | propose value => exact nodePropose_lent htag hlive value
      | proposeBatch values capacity => exact nodeProposeBatch_lent htag hlive values capacity
      | tick noop =>
          apply nodeTick_lent htag hlive
          intro hrole s v hs
          exact (if_pos hrole).trans hs
      | reconnected peer =>
          show Lent P _ n (nodeReconnected P n peer).1
          unfold nodeReconnected
          split_ifs
          · exact lent_start n
          · exact lent_start n
          · exact (resendTo_quiet htag peer).lent (lent_start n)
          · exact (requestLearn_quiet peer).lent (lent_start n)
          · exact lent_start n
      | requestCatchUp peer fromSlot =>
          show Lent P _ n (nodeRequestCatchUp P n peer fromSlot).1
          unfold nodeRequestCatchUp
          split_ifs
          · exact lent_start n
          · exact lent_start n
          · exact (Quiet.sendTo peer rfl).lent (lent_start n)
  | step e =>
      show Lent P _ n (nodeStep P n e).1
      unfold nodeStep
      by_cases hrecipient : e.recipient ≠ n.id
      · rw [if_pos hrecipient]
        exact lent_start n
      rw [if_neg hrecipient]
      cases membershipIndexOf n.membership e.sender with
      | none => exact lent_start n
      | some member =>
          obtain ⟨sender, recipient, msg⟩ := e
          dsimp only
          by_cases hvoter : (!n.votingMember) = true
          · rw [if_pos hvoter]
            cases msg with
            | commit slot value =>
                apply learned_lent (σ := { node :=
                  { notePeerProgress n member (.commit slot value) with
                    leaderHint := some sender, electionTicks := 0 } })
                  (hstart.behind rfl rfl rfl rfl) rfl
                exact if_pos rfl
            | _ => exact lent_start _
          · rw [if_neg hvoter]
            exact dispatch_lent htag hlive sender member msg
  | learnChosen sender slot value =>
      show Lent P _ n (nodeLearnChosen P n sender slot value).1
      unfold nodeLearnChosen
      split_ifs
      · exact lent_start n
      · exact lent_start n
      · apply learned_lent (σ := St.start { n with leaderHint := some sender, electionTicks := 0 })
          (hstart.behind rfl rfl rfl rfl) rfl
        exact if_pos rfl
  | installTrim anchor =>
      have htrim : Quiet P (St.start n)
          (St.addWrite ((St.start n).withLedger { n.ledger with anchor := anchor }) (.trim anchor)) :=
        Quiet.promise (fun _ => rfl) (fun _ => rfl) fun _ => rfl
      show Lent P _ n (nodeInstallChosenTrim n anchor).1
      unfold nodeInstallChosenTrim
      dsimp only
      split
      · exact lent_start n
      split
      · exact lent_start n
      split
      · exact lent_start n
      split
      · exact lent_start n
      split
      · apply Quiet.lent _ (lent_start n)
        apply htrim.trans
        exact Quiet.ofNode rfl rfl
      · exact htrim.lent (lent_start n)
  | advanceFloor through => exact lent_start _
  | setCampaignEnabled enabled => exact lent_start _

/-- Where no two slots clash the batch is stable. -/
theorem operate_stable {n : Node V} (htag : Tagged P n.ledger)
    (hlive : n.memoryFloor ≤ n.deliveredThrough) (op : Operation V)
    (hcalm : ∀ first second, ¬ Clash P n (decisionFor P n op) first second) :
    Stable P (decisionFor P n op) (operate P n op) :=
  (operate_lent htag hlive op).stable_of_calm hcalm

end Transitions

end PaxosOdin
