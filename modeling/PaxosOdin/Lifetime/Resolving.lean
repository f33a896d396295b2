import PaxosOdin.Lifetime.Operations

/-!
# Where a transition resolves a chunk

`maybe_resolve_chunk` is called by the tick of a candidate and by the messages of phase one, each
after it has merged what it brought.  The state of that call, the frozen state in which the chunk is
driven and the proposals that the drive makes are read off the procedures here, so that the
properties of a drive can be stated about the calls themselves.

Main definitions:

- Definition `resolvingState`: the state in which an operation calls `maybe_resolve_chunk`.
- Definition `driveCalls`: the calls of `send_accept` that the drive makes.

Main results:

- Theorem `operate_resolving`: the operation ends as that call does.
- Theorem `resolvingState_run`: it reaches the call in small steps.
-/

namespace PaxosOdin

variable {V : Type} {P : Params} {I : Input V}

/-! ## The calls -/

section Calls

variable [DecidableEq V]

/-- The state in which an operation calls `maybe_resolve_chunk`, if it does. -/
def resolvingState (P : Params) (n : Node V) : Operation V → Option (St V)
  | .call (.tick _) => tickResolves n
  | .step e =>
      if e.recipient ≠ n.id ∨ n.votingMember = false then none
      else
        match membershipIndexOf n.membership e.sender with
        | none => none
        | some member =>
            messageResolves P (St.start (notePeerProgress n member e.message)) member e.message
  | _ => none

/-- The calls of `send_accept` in the loop of `resolve_chunk`: the state, the slot and the value of
each. -/
def resolveCalls (P : Params) (noop : V) : Nat → St V → Nat → List (St V × Nat × V)
  | 0, _, _ => []
  | fuel + 1, σ, slot =>
      if slot = maxSlot then []
      else
        let r := σ.node.recovered (slot - σ.node.recoverBase)
        match ledgerChosenAt P σ.node.ledger slot with
        | some value =>
            resolveCalls P noop fuel (broadcastPeers σ (.commit slot value)) (slot + 1)
        | none =>
            if r.slot = slot ∧ r.state = .chosen then
              match recordCommit P σ slot r.value with
              | (σ, .none) =>
                  let σ :=
                    match ledgerChosenAt P σ.node.ledger slot with
                    | some decided => broadcastPeers σ (.commit slot decided)
                    | none => σ
                  resolveCalls P noop fuel σ (slot + 1)
              | _ => []
            else
              let value := if r.slot = slot ∧ r.state = .voted then r.value else noop
              (σ, slot, value) ::
                match sendAccept P σ slot σ.node.ballot value with
                | (σ, .none) => resolveCalls P noop fuel σ (slot + 1)
                | _ => []

/-- The calls of `send_accept` that `resolve_chunk` makes from a frozen state. -/
def driveCalls (P : Params) (σ : St V) (noop : V) : List (St V × Nat × V) :=
  let fence := max (quorumFences σ.node).trim (quorumFences σ.node).chosen
  if fence = maxSlot then []
  else
    let driveLimit := min (driveGoal P σ.node σ.node.recoveryMore) (slotAdd σ.node.memoryFloor P.W)
    resolveCalls P noop (driveLimit + 1 - driveStart σ.node) σ (driveStart σ.node)

/-! ## They are the calls of the procedures -/

/-- When a report calls `maybe_resolve_chunk`. -/
theorem messageResolves_promise {σ τ : St V} {member ballot slot vote : Nat} {state : CellState}
    {value : V} (h : messageResolves P σ member (.promise ballot slot vote state value) = some τ) :
    σ.node.role = .preparing ∧ ballot = σ.node.ballot ∧
      ((σ.node.recoveryReady = true ∧ τ = σ) ∨ (σ.node.recoveryReady = false ∧
        ∃ cell n, recoveryIndex P σ.node slot = some cell ∧ state ≠ .empty ∧
          recordReport σ.node member cell slot vote state value = (n, .none) ∧
            τ = { σ with node := n })) := by
  unfold messageResolves at h
  dsimp only at h
  by_cases hstale : σ.node.role ≠ .preparing ∨ ballot ≠ σ.node.ballot
  · rw [if_pos hstale] at h
    cases h
  rw [if_neg hstale] at h
  rw [not_or, not_not, not_not] at hstale
  refine ⟨hstale.1, hstale.2, ?_⟩
  by_cases hready : σ.node.recoveryReady = true
  · rw [if_pos hready] at h
    cases h
    exact Or.inl ⟨hready, rfl⟩
  rw [if_neg hready] at h
  refine Or.inr ⟨by simpa using hready, ?_⟩
  cases hoffset : recoveryIndex P σ.node slot with
  | none =>
      rw [hoffset] at h
      cases h
  | some cell =>
      rw [hoffset] at h
      dsimp only at h
      by_cases hempty : state = .empty
      · rw [if_pos hempty] at h
        cases h
      rw [if_neg hempty] at h
      rcases hrecord : recordReport σ.node member cell slot vote state value with ⟨n, e⟩
      rw [hrecord] at h
      cases e with
      | none =>
          cases h
          exact ⟨cell, n, rfl, hempty, hrecord, rfl⟩
      | _ => cases h

/-- A `Promise` that completes the chunk resolves it. -/
theorem onPromise_resolving {σ τ : St V} {member ballot slot vote : Nat} {state : CellState}
    {value : V} (h : messageResolves P σ member (.promise ballot slot vote state value) = some τ) :
    onPromise P σ member ballot slot vote state value = maybeResolveChunk P τ := by
  obtain ⟨hrole, hballot, hcase⟩ := messageResolves_promise h
  unfold onPromise
  rw [if_neg (by rw [not_or, not_not, not_not]; exact ⟨hrole, hballot⟩)]
  rcases hcase with ⟨hready, rfl⟩ | ⟨hready, cell, n, hoffset, hempty, hrecord, rfl⟩
  · rw [if_pos hready]
  · rw [if_neg (by simp [hready]), hoffset]
    dsimp only
    rw [if_neg hempty, hrecord]

/-- So does a manifest that completes it. -/
theorem onPromiseRange_resolving {σ τ : St V} {member ballot : Nat} {anchor : TrimAnchor}
    {chosenThrough first last reported : Nat} {more : Bool}
    (h : messageResolves P σ member
      (.promiseRange ballot anchor chosenThrough first last reported more) = some τ) :
    onPromiseRange P σ member ballot anchor chosenThrough first last reported more =
      maybeResolveChunk P τ := by
  unfold messageResolves at h
  unfold onPromiseRange
  dsimp only at h ⊢
  split_ifs at h with hstale hready hinvalid hother
  · rw [if_neg hstale, if_pos hready]
    cases h
    rfl
  · rw [not_or, not_not, not_not] at hother
    rw [if_neg hstale, if_neg hready, if_neg hinvalid, if_neg (fun h => h.2 hother.2),
      if_neg (not_not.mpr hother.1)]
    cases h
    rfl

/-- The tick of an owner under revocation tries to resolve again. -/
theorem tickOwnership_preparing {σ : St V} {noop : V} (hrole : σ.node.role = .preparing)
    (hticks : σ.node.electionTicks < σ.node.electionTimeoutTicks) :
    tickOwnership P σ noop = maybeResolveChunk P σ := by
  unfold tickOwnership
  rw [if_pos hrole, if_pos hticks]

/-- The operation ends as the call does. -/
theorem operate_resolving {n : Node V} {op : Operation V} {τ : St V}
    (h : resolvingState P n op = some τ) : operate P n op = (maybeResolveChunk P τ).1 := by
  unfold resolvingState at h
  cases op with
  | call c =>
      cases c with
      | tick noop =>
          dsimp only at h
          unfold tickResolves at h
          dsimp only at h
          split_ifs at h with hcond
          cases h
          obtain ⟨hv, hrole, hticks⟩ := hcond
          show (nodeTick P n noop).1 = _
          unfold nodeTick
          rw [if_neg (by simp [hv])]
          dsimp only at hrole hticks ⊢
          by_cases hown : n.ownership = true
          · rw [if_pos hown]
            exact congrArg Prod.fst (tickOwnership_preparing (σ := St.start _) hrole hticks)
          · rw [if_neg hown, if_neg (by simp [hrole]), if_pos ⟨hrole, hticks⟩]
      | _ => cases h
  | step e =>
      dsimp only at h
      split_ifs at h with hcond
      rw [not_or, not_not, Bool.not_eq_false] at hcond
      obtain ⟨hrecipient, hv⟩ := hcond
      show (nodeStep P n e).1 = _
      unfold nodeStep
      rw [if_neg (not_not.mpr hrecipient)]
      cases hmember : membershipIndexOf n.membership e.sender with
      | none =>
          rw [hmember] at h
          cases h
      | some member =>
          rw [hmember] at h
          dsimp only at h ⊢
          rw [if_neg (by simp [hv])]
          obtain ⟨sender, recipient, message⟩ := e
          dsimp only at h ⊢
          cases message with
          | promise => exact congrArg Prod.fst (onPromise_resolving h)
          | promiseRange => exact congrArg Prod.fst (onPromiseRange_resolving h)
          | _ => cases h
  | _ => cases h

/-! ## Small steps to the call -/

/-- A `Promise` leads to `maybe_resolve_chunk` only through the moves of an answer. -/
theorem onPromise_reaches {σ τ : St V} {sender member ballot slot vote : Nat} {state : CellState}
    {value : V} (hheard : I.Hears σ.node sender (.promise ballot slot vote state value))
    (hmember : membershipIndexOf σ.node.membership sender = some member)
    (h : messageResolves P σ member (.promise ballot slot vote state value) = some τ) :
    Run P I σ τ ∧ τ.node.role = .preparing := by
  obtain ⟨hrole, hballot, hcase⟩ := messageResolves_promise h
  rcases hcase with ⟨-, rfl⟩ | ⟨hready, cell, n, hoffset, hempty, hrecord, rfl⟩
  · exact ⟨Run.refl _, hrole⟩
  · have hmicro : Micro P I σ
        { σ with node := (recordReport σ.node member cell slot vote state value).1 } :=
      Micro.report hheard hmember hrole hballot hready hoffset hempty
    have hsame : (recordReport σ.node member cell slot vote state value).1.role = σ.node.role := by
      unfold recordReport
      dsimp only
      split_ifs <;> rfl
    rw [hrecord] at hmicro hsame
    exact ⟨Run.single hmicro, hsame.trans hrole⟩

/-- So does a manifest. -/
theorem onPromiseRange_reaches {σ τ : St V} {sender member ballot : Nat} {anchor : TrimAnchor}
    {chosenThrough first last reported : Nat} {more : Bool}
    (hheard : I.Hears σ.node sender
      (.promiseRange ballot anchor chosenThrough first last reported more))
    (hmember : membershipIndexOf σ.node.membership sender = some member)
    (h : messageResolves P σ member
      (.promiseRange ballot anchor chosenThrough first last reported more) = some τ) :
    Run P I σ τ ∧ τ.node.role = .preparing := by
  unfold messageResolves at h
  dsimp only at h
  split_ifs at h with hstale hready hinvalid hother
  · cases h
    rw [not_or, not_not] at hstale
    exact ⟨Run.refl _, hstale.1⟩
  · cases h
    rw [not_or, not_not, not_not] at hstale hother
    exact ⟨Run.single (Micro.manifest hheard hmember hstale.1 hstale.2 (by simpa using hready)
      fun _ => hother.2), hstale.1⟩

/-- An operation reaches the call in small steps, as a candidate. -/
theorem resolvingState_reaches {n : Node V} {op : Operation V} {τ : St V}
    (heard : ∀ e, op = .step e → I.heard = some e) (h : resolvingState P n op = some τ) :
    Run P I (St.start n) τ ∧ τ.node.role = .preparing := by
  unfold resolvingState at h
  cases op with
  | call c =>
      cases c with
      | tick noop =>
          dsimp only at h
          unfold tickResolves at h
          dsimp only at h
          split_ifs at h with hcond
          cases h
          exact ⟨Run.single (Micro.idle (σ := St.start n) (Or.inl rfl) le_rfl le_rfl (Or.inl rfl)
            (Or.inl rfl) fun _ h => h), hcond.2.1⟩
      | _ => cases h
  | step e =>
      dsimp only at h
      split_ifs at h with hcond
      rw [not_or, not_not] at hcond
      cases hmember : membershipIndexOf n.membership e.sender with
      | none =>
          rw [hmember] at h
          cases h
      | some member =>
          rw [hmember] at h
          obtain ⟨sender, recipient, message⟩ := e
          dsimp only at h hcond hmember
          obtain ⟨rfl, -⟩ := hcond
          have hnote : Run P I (St.start n) (St.start (notePeerProgress n member message)) :=
            notePeerProgress_run (heard _ rfl) hmember
          have hstatic := hnote.static
          have hid : (notePeerProgress n member message).id = n.id := congrArg Static.id hstatic
          have hmembership : (notePeerProgress n member message).membership = n.membership :=
            congrArg Static.membership hstatic
          have hheard : I.Hears (notePeerProgress n member message) sender message := by
            unfold Input.Hears
            rw [hid]
            exact heard _ rfl
          rw [← hmembership] at hmember
          cases message with
          | promise =>
              obtain ⟨hrun, hrole⟩ := onPromise_reaches hheard hmember h
              exact ⟨hnote.trans hrun, hrole⟩
          | promiseRange =>
              obtain ⟨hrun, hrole⟩ := onPromiseRange_reaches hheard hmember h
              exact ⟨hnote.trans hrun, hrole⟩
          | _ => cases h
  | _ => cases h

theorem resolvingState_run {n : Node V} {op : Operation V} {τ : St V}
    (h : resolvingState P n op = some τ) :
    Run P (op.input n) (St.start n) τ ∧ τ.node.role = .preparing :=
  resolvingState_reaches (by rintro e rfl; rfl) h

/-- The selection is frozen in at most one small step. -/
theorem frozenState_run {σ τ : St V} {noop : V} (hrole : σ.node.role = .preparing)
    (h : frozenState σ = some (τ, noop)) :
    Run P I σ τ ∧ τ.node.role = .preparing ∧ τ.node.recoveryReady = true ∧
      τ.node.noop = some noop := by
  unfold frozenState at h
  cases hnoop : σ.node.noop with
  | none =>
      rw [hnoop] at h
      cases h
  | some w =>
      rw [hnoop] at h
      dsimp only at h
      split_ifs at h with hwait
      cases h
      unfold freezeSelection
      split_ifs with hready
      · exact ⟨Run.refl _, hrole, hready, hnoop⟩
      · refine ⟨Run.single (Micro.freeze hrole (by simpa using hready) ?_), hrole, rfl, hnoop⟩
        by_contra hlt
        exact hwait ⟨by simpa using hready, by omega⟩

end Calls

end PaxosOdin
