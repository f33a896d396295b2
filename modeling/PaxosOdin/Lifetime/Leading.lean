import PaxosOdin.Lifetime.Resolving
import PaxosOdin.Transition.Sending

/-!
# Where a node becomes leader

`become_leader` is called at the end of a drive and nowhere else: every other path of a transition
keeps the role, gives it up or starts a campaign.  So a node that an operation makes a leader drove
its last chunk in that operation, and the state of the call can be named.

Main definitions:

- Definition `leadingState`: the state in which an operation calls `become_leader`.

Main results:

- Theorem `operate_leading`: the operation ends as that call does.
- Theorem `leadingState_of_leader`: a node becomes leader in no other way.
-/

namespace PaxosOdin

variable {V : Type} {P : Params} {I : Input V}

/-! ## The call of `become_leader` -/

/-- The greatest reported decided prefix or trim anchor. -/
def fenceOf (n : Node V) : Nat :=
  max (quorumFences n).trim (quorumFences n).chosen

section Leading

variable [DecidableEq V]

/-- The state in which a driven chunk calls `become_leader`, if it does. -/
def drivenState (P : Params) (τ : St V) (noop : V) : Option (St V) :=
  match resolveChunk P τ noop τ.node.recoveryMore with
  | (ρ, true, .none) =>
      if τ.node.recoveryMore = true ∨ ρ.node.ownership = true then none else some ρ
  | _ => none

/-- The state in which an operation calls `become_leader`, if it does. -/
def leadingState (P : Params) (n : Node V) (op : Operation V) : Option (St V) :=
  ((resolvingState P n op).bind frozenState).bind fun τ => drivenState P τ.1 τ.2

/-- The chunk was resolved, and it was the last one of a campaign. -/
theorem drivenState_some {τ ρ : St V} {noop : V} (h : drivenState P τ noop = some ρ) :
    resolveChunk P τ noop τ.node.recoveryMore = (ρ, true, .none) ∧
      τ.node.recoveryMore = false ∧ ρ.node.ownership = false := by
  unfold drivenState at h
  rcases hres : resolveChunk P τ noop τ.node.recoveryMore with ⟨σ, resolved, e⟩
  rw [hres] at h
  cases resolved with
  | false => cases h
  | true =>
      cases e with
      | none =>
          dsimp only at h
          split_ifs at h with hcond
          cases h
          rw [not_or] at hcond
          exact ⟨rfl, by simpa using hcond.1, by simpa using hcond.2⟩
      | _ => cases h

/-- The state was reached through a resolution and a frozen selection. -/
theorem leadingState_some {n : Node V} {op : Operation V} {ρ : St V}
    (h : leadingState P n op = some ρ) :
    ∃ σ τ noop, resolvingState P n op = some σ ∧ frozenState σ = some (τ, noop) ∧
      drivenState P τ noop = some ρ := by
  unfold leadingState at h
  obtain ⟨⟨τ, noop⟩, hτ, hρ⟩ := Option.bind_eq_some_iff.mp h
  obtain ⟨σ, hσ, hτ⟩ := Option.bind_eq_some_iff.mp hτ
  exact ⟨σ, τ, noop, hσ, hτ, hρ⟩

/-- The operation ends as `become_leader` does. -/
theorem operate_leading {n : Node V} {op : Operation V} {ρ : St V}
    (h : leadingState P n op = some ρ) : operate P n op = becomeLeader P ρ := by
  obtain ⟨σ, τ, noop, hσ, hτ, hρ⟩ := leadingState_some h
  obtain ⟨hres, hmore, -⟩ := drivenState_some hρ
  rw [operate_resolving hσ, maybeResolveChunk_frozen hτ]
  unfold resolveFrozen
  dsimp only
  rw [hres]
  simp [hmore]

end Leading

/-- A new leader has the ledger and the ballot of the candidate. -/
theorem becomeLeader_led {σ : St V} (hmode : σ.node.ownership = false) :
    (becomeLeader P σ).node.role = .leader ∧
      (becomeLeader P σ).node.leaderBase = max σ.node.nextSlot
        (slotAdd (max (ledgerHighestUsed P σ.node.ledger) (fenceOf σ.node)) 1) ∧
      (becomeLeader P σ).node.ledger = σ.node.ledger ∧
      (becomeLeader P σ).node.ballot = σ.node.ballot := by
  unfold becomeLeader
  dsimp only
  rw [if_neg (by simp [hmode])]
  obtain ⟨through, entries, -, heq⟩ := emitContiguous_eq P
    { σ with node :=
      { σ.node with
        role := .leader
        leaderHint := some σ.node.id
        nextSlot := max σ.node.nextSlot (slotAdd (max (ledgerHighestUsed P σ.node.ledger)
          (max (quorumFences σ.node).trim (quorumFences σ.node).chosen)) 1)
        leaderBase := max σ.node.nextSlot (slotAdd (max (ledgerHighestUsed P σ.node.ledger)
          (max (quorumFences σ.node).trim (quorumFences σ.node).chosen)) 1) } }
  rw [heq]
  exact ⟨rfl, rfl, rfl, rfl⟩

/-! ## The role in a transition -/

/-- A release changes no role. -/
theorem emitContiguous_role (σ : St V) : (emitContiguous P σ).node.role = σ.node.role := by
  obtain ⟨through, entries, -, heq⟩ := emitContiguous_eq P σ
  rw [heq]

/-- Neither does a suggestion that is queued again. -/
theorem queueResubmit_role (n : Node V) (value : V) (requeue : Prop) [Decidable requeue] :
    (if requeue then queueResubmit P n value else n).role = n.role := by
  unfold queueResubmit
  split_ifs <;> rfl

/-- Neither does a claim. -/
theorem Claimed.role {n n' : Node V} {slot cell : Nat} (h : Claimed P n n' slot cell) :
    n'.role = n.role :=
  congrArg Fixed.role h.fixed

/-- A node that hears of a leader follows it or keeps its role. -/
theorem observeLeader_unled {n : Node V} (sender ballot : Nat) (h : n.role ≠ .leader) :
    (observeLeader n sender ballot).role ≠ .leader := by
  unfold observeLeader
  dsimp only
  split_ifs
  · simp
  · exact h

section Roles

variable [DecidableEq V]

/-- Neither does a decision. -/
theorem recordCommit_role (σ : St V) (slot : Nat) (value : V) :
    (recordCommit P σ slot value).1.node.role = σ.node.role := by
  unfold recordCommit
  by_cases hzero : slot = 0
  · rw [if_pos hzero]
  rw [if_neg hzero]
  set n₁ : Node V := { σ.node with highestSeen := max σ.node.highestSeen slot }
  dsimp only
  by_cases hlow : slot ≤ σ.node.memoryFloor ∨ slot ≤ σ.node.ledger.anchor.chosenTrimSlot
  · rw [if_pos hlow]
  rw [if_neg hlow]
  rcases hclaim : claimLive P n₁ slot with ⟨n, _ | cell⟩
  · dsimp only
    split_ifs
    · rfl
    · rw [emitContiguous_role]
      rfl
    · rfl
  · have hrole : n.role = σ.node.role := (claimLive_some hclaim).role
    dsimp only
    by_cases hchosen : (n.ledger.cells cell).state = .chosen
    · rw [if_pos hchosen]
      split_ifs
      · exact hrole
      · rw [emitContiguous_role]
        exact hrole
    · rw [if_neg hchosen, emitContiguous_role]
      simp only [St.addWrite, queueResubmit_role]
      exact hrole

/-- Neither does a proposal. -/
theorem sendAccept_role (σ : St V) (slot ballot : Nat) (value : V) :
    (sendAccept P σ slot ballot value).1.node.role = σ.node.role := by
  unfold sendAccept
  rcases hclaim : claimLive P σ.node slot with ⟨n, _ | cell⟩
  · rfl
  have hrole : n.role = σ.node.role := (claimLive_some hclaim).role
  dsimp only
  split_ifs
  · exact hrole
  · exact hrole
  · exact hrole
  have hcommit := recordCommit_role (P := P)
    (voteForProposal { σ with node := n } cell slot ballot value) slot value
  unfold announceProposal
  split_ifs
  · rcases hres : recordCommit P (voteForProposal { σ with node := n } cell slot ballot value) slot
      value with ⟨τ, e⟩
    rw [hres] at hcommit
    cases e <;> exact hcommit.trans hrole
  · exact hrole

/-- The loop of `resolve_chunk` makes nobody a leader. -/
theorem resolveLoop_unled {noop : V} :
    ∀ {fuel : Nat} {σ : St V} {slot : Nat}, σ.node.role ≠ .leader →
      (resolveLoop P noop fuel σ slot).1.node.role ≠ .leader := by
  intro fuel
  induction fuel with
  | zero => exact fun h => h
  | succ fuel ih =>
      intro σ slot hrole
      unfold resolveLoop
      split_ifs
      · exact hrole
      dsimp only
      cases ledgerChosenAt P σ.node.ledger slot with
      | some value => exact ih hrole
      | none =>
          dsimp only
          by_cases hchosen : (σ.node.recovered (slot - σ.node.recoverBase)).slot = slot ∧
              (σ.node.recovered (slot - σ.node.recoverBase)).state = .chosen
          · rw [if_pos hchosen]
            have hcommit := recordCommit_role (P := P) σ slot
              (σ.node.recovered (slot - σ.node.recoverBase)).value
            rcases hres : recordCommit P σ slot
              (σ.node.recovered (slot - σ.node.recoverBase)).value with ⟨τ, e⟩
            rw [hres] at hcommit
            have hτ : τ.node.role ≠ .leader := by
              rw [show τ.node.role = σ.node.role from hcommit]
              exact hrole
            cases e with
            | none =>
                dsimp only
                cases ledgerChosenAt P τ.node.ledger slot <;> exact ih hτ
            | _ => exact hτ
          · rw [if_neg hchosen]
            generalize (if (σ.node.recovered (slot - σ.node.recoverBase)).slot = slot ∧
              (σ.node.recovered (slot - σ.node.recoverBase)).state = .voted then
                (σ.node.recovered (slot - σ.node.recoverBase)).value else noop) = value
            have hcast := sendAccept_role (P := P) σ slot σ.node.ballot value
            rcases haccept : sendAccept P σ slot σ.node.ballot value with ⟨τ, e⟩
            rw [haccept] at hcast
            have hτ : τ.node.role ≠ .leader := by
              rw [show τ.node.role = σ.node.role from hcast]
              exact hrole
            cases e with
            | none => exact ih hτ
            | notLeader => simp
            | _ => exact hτ

/-- The drive of a chunk makes no leader; it may lose the candidate its role. -/
theorem resolveChunk_unled {σ : St V} {noop : V} {anyMore : Bool} (h : σ.node.role ≠ .leader) :
    (resolveChunk P σ noop anyMore).1.node.role ≠ .leader := by
  have hloop := @resolveLoop_unled V P _ noop
    (min (driveGoal P σ.node anyMore) (slotAdd σ.node.memoryFloor P.W) + 1 - driveStart σ.node) σ
    (driveStart σ.node) h
  unfold resolveChunk
  dsimp only
  split_ifs
  · exact h
  rcases hres : resolveLoop P noop
      (min (driveGoal P σ.node anyMore) (slotAdd σ.node.memoryFloor P.W) + 1 - driveStart σ.node) σ
      (driveStart σ.node) with ⟨τ, _ | ⟨resolved, e⟩⟩
  · rw [hres] at hloop
    dsimp only
    split_ifs
    · cases (quorumFences σ.node).chosenPeer <;> exact hloop
    · exact hloop
  · rw [hres] at hloop
    exact hloop

/-- A drive makes its node a leader by `become_leader` alone. -/
theorem resolveFrozen_led {τ : St V} {noop : V} (hrole : τ.node.role ≠ .leader)
    (hled : (resolveFrozen P τ noop).1.node.role = .leader) :
    ∃ ρ, drivenState P τ noop = some ρ := by
  unfold resolveFrozen at hled
  unfold drivenState
  dsimp only at hled
  have hunled := @resolveChunk_unled V P _ τ noop τ.node.recoveryMore hrole
  rcases hres : resolveChunk P τ noop τ.node.recoveryMore with ⟨ρ, resolved, e⟩
  rw [hres] at hled hunled
  cases e with
  | none =>
      dsimp only at hled hunled ⊢
      cases resolved with
      | false => exact absurd hled hunled
      | true =>
          by_cases hmore : τ.node.recoveryMore = true
          · simp only [hmore, Bool.not_true, Bool.false_eq_true, if_false, if_true] at hled
            split_ifs at hled
            · exact absurd hled hunled
            · exact absurd hled hunled
          · by_cases hmode : ρ.node.ownership = true
            · simp only [hmore, Bool.not_true, Bool.false_eq_true, if_false] at hled
              unfold becomeLeader at hled
              dsimp only at hled
              rw [if_pos hmode, emitContiguous_role] at hled
              cases hled
            · exact ⟨ρ, if_neg (by simp [hmore, hmode])⟩
  | _ => exact absurd hled hunled

/-! ## The other paths -/

/-- An answer to a Prepare makes no leader. -/
theorem onPrepare_unled {σ : St V} {sender ballot first last : Nat} {scope : PrepareScope}
    (h : σ.node.role ≠ .leader) :
    (onPrepare P σ sender ballot first last scope).1.node.role ≠ .leader := by
  unfold onPrepare
  dsimp only
  by_cases hlow : ballot < σ.node.ledger.promised
  · rw [if_pos hlow]
    exact h
  rw [if_neg hlow]
  by_cases hinvalid : first = 0 ∨ last < first
  · rw [if_pos hinvalid]
    exact h
  rw [if_neg hinvalid]
  rw [not_or, Nat.not_lt] at hinvalid
  cases scope with
  | global =>
      dsimp only
      split_ifs <;> exact observeLeader_unled sender ballot h
  | bounded =>
      dsimp only
      obtain ⟨hfail, hdone⟩ := promiseBounded_run (P := P) (σ := σ)
        (I := { heard := some ⟨sender, σ.node.id, .prepare ballot first last .bounded⟩ })
        ballot hinvalid.2 (Or.inr ⟨sender, first, last, rfl⟩)
      rcases hbounded : promiseBounded P σ ballot first last with ⟨τ, _ | _⟩
      · have hrole : τ.node.role = σ.node.role := congrArg Fixed.role (hfail τ hbounded).fixed
        show τ.node.role ≠ .leader
        rw [hrole]
        exact h
      · have hrole : τ.node.role = σ.node.role :=
          congrArg Fixed.role (hdone τ hbounded).reserved.fixed
        show τ.node.role ≠ .leader
        rw [hrole]
        exact h

/-- A vote makes none. -/
theorem onAccept_unled {σ : St V} {sender ballot slot : Nat} {value : V}
    (h : σ.node.role ≠ .leader) :
    (onAccept P σ sender ballot slot value).1.node.role ≠ .leader := by
  unfold onAccept
  dsimp only
  by_cases hzero : slot = 0
  · rw [if_pos hzero]
    exact h
  rw [if_neg hzero]
  by_cases htrim : slot ≤ σ.node.ledger.anchor.chosenTrimSlot
  · rw [if_pos htrim]
    exact h
  rw [if_neg htrim]
  by_cases howner : ballotRound ballot = 0 ∧
      ((!σ.node.ownership) = true ∨ ballotNode ballot ≠ ownerOf σ.node slot)
  · rw [if_pos howner]
    exact h
  rw [if_neg howner]
  by_cases hlow : ballot < σ.node.ledger.promised
  · rw [if_pos hlow]
    exact h
  rw [if_neg hlow]
  rcases hclaim : claimLive P σ.node slot with ⟨n, _ | cell⟩
  · exact h
  have hn : n.role ≠ .leader := by
    rw [(claimLive_some hclaim).role]
    exact h
  dsimp only
  by_cases hrefused : ballot < (n.ledger.cells cell).promisedAt
  · rw [if_pos hrefused]
    exact hn
  rw [if_neg hrefused]
  by_cases hchosen : (n.ledger.cells cell).state = .chosen
  · rw [if_pos hchosen]
    split_ifs <;> exact hn
  rw [if_neg hchosen]
  by_cases hvoted : (n.ledger.cells cell).state = .voted ∧ (n.ledger.cells cell).voteBallot = ballot
  · rw [if_pos hvoted]
    split_ifs <;> exact hn
  rw [if_neg hvoted]
  -- the suggestion that the vote replaces goes to the queue, and the sender is observed
  have hqueued : ∀ (requeue : Prop) [Decidable requeue],
      (if requeue then queueResubmit P { n with highestSeen := max n.highestSeen slot }
        (n.ledger.cells cell).value
      else { n with highestSeen := max n.highestSeen slot }).role ≠ .leader := by
    intro requeue _
    rw [queueResubmit_role]
    exact hn
  by_cases hround : ballotRound ballot > 0
  · rw [if_pos hround]
    exact observeLeader_unled sender ballot (hqueued _)
  · rw [if_neg hround]
    exact hqueued _

/-- An acknowledgement makes none. -/
theorem onAccepted_unled {σ : St V} {member ballot slot : Nat} (h : σ.node.role ≠ .leader) :
    (onAccepted P σ member ballot slot).1.node.role ≠ .leader := by
  unfold onAccepted
  by_cases hzero : slot = 0
  · rw [if_pos hzero]
    exact h
  rw [if_neg hzero]
  dsimp only
  by_cases hstale : (σ.node.lead (cellOf slot P.W)).slot ≠ slot ∨
      (σ.node.lead (cellOf slot P.W)).ballot ≠ ballot
  · rw [if_pos hstale]
    exact h
  rw [if_neg hstale]
  generalize (if member ∈ (σ.node.lead (cellOf slot P.W)).acknowledgements then
      σ.node.lead (cellOf slot P.W)
    else
      { σ.node.lead (cellOf slot P.W) with
        acknowledgements := insert member (σ.node.lead (cellOf slot P.W)).acknowledgements
        acknowledged := (σ.node.lead (cellOf slot P.W)).acknowledged + 1 }) = lead
  split_ifs
  · exact h
  · exact h
  · exact h
  · exact h
  have hcommit := recordCommit_role (P := P)
    { σ with node :=
      { σ.node with lead := Function.update σ.node.lead (cellOf slot P.W) lead } } slot
    (σ.node.ledger.cells (cellOf slot P.W)).value
  rcases hres : recordCommit P
      { σ with node :=
        { σ.node with lead := Function.update σ.node.lead (cellOf slot P.W) lead } } slot
      (σ.node.ledger.cells (cellOf slot P.W)).value with ⟨τ, e⟩
  rw [hres] at hcommit
  have hτ : τ.node.role ≠ .leader := by
    rw [show τ.node.role = σ.node.role from hcommit]
    exact h
  cases e <;> exact hτ

omit [DecidableEq V] in
/-- A heartbeat makes none. -/
theorem onHeartbeat_unled {σ : St V} {sender ballot decidedThrough : Nat}
    (h : σ.node.role ≠ .leader) :
    (onHeartbeat P σ sender ballot decidedThrough).node.role ≠ .leader := by
  unfold onHeartbeat
  dsimp only
  split_ifs <;> first | exact h | exact observeLeader_unled sender ballot h

omit [DecidableEq V] in
/-- An answer to a catch-up request makes none. -/
theorem onLearn_unled {σ : St V} {sender fromSlot count : Nat} (h : σ.node.role ≠ .leader) :
    (onLearn P σ sender fromSlot count).1.node.role ≠ .leader := by
  unfold onLearn
  dsimp only
  split_ifs <;> exact h

omit [DecidableEq V] in
/-- A rejection makes none. -/
theorem onNack_unled {n : Node V} {rejected promised : Nat} (h : n.role ≠ .leader) :
    (onNack n rejected promised).role ≠ .leader := by
  unfold onNack
  dsimp only
  split_ifs
  · exact h
  · simp

omit [DecidableEq V] in
/-- A campaign begins with a candidate. -/
theorem startCampaign_unled {σ : St V} {noop : V} (h : σ.node.role ≠ .leader) :
    (startCampaign P σ noop).1.node.role ≠ .leader := by
  unfold startCampaign
  dsimp only
  split_ifs
  · exact h
  cases nextRound P σ.node with
  | none => exact h
  | some round => exact fun hrole => by cases hrole

/-- A report that resolves nothing makes nobody a leader. -/
theorem onPromise_unled {σ : St V} {member ballot slot vote : Nat} {state : CellState} {value : V}
    (hnone : messageResolves P σ member (.promise ballot slot vote state value) = none)
    (h : σ.node.role ≠ .leader) :
    (onPromise P σ member ballot slot vote state value).1.node.role ≠ .leader := by
  unfold messageResolves at hnone
  unfold onPromise
  dsimp only at hnone
  by_cases hstale : σ.node.role ≠ .preparing ∨ ballot ≠ σ.node.ballot
  · rw [if_pos hstale]
    exact h
  rw [if_neg hstale] at hnone ⊢
  by_cases hready : σ.node.recoveryReady = true
  · rw [if_pos hready] at hnone
    cases hnone
  rw [if_neg hready] at hnone ⊢
  cases hoffset : recoveryIndex P σ.node slot with
  | none => exact h
  | some cell =>
      rw [hoffset] at hnone
      dsimp only at hnone ⊢
      by_cases hempty : state = .empty
      · rw [if_pos hempty]
        exact h
      rw [if_neg hempty] at hnone ⊢
      have hsame : (recordReport σ.node member cell slot vote state value).1.role = σ.node.role := by
        unfold recordReport
        dsimp only
        split_ifs <;> rfl
      rcases hrecord : recordReport σ.node member cell slot vote state value with ⟨n, e⟩
      rw [hrecord] at hnone hsame
      have hn : n.role ≠ .leader := by
        rw [show n.role = σ.node.role from hsame]
        exact h
      cases e with
      | none => cases hnone
      | _ => exact hn

/-- A manifest that resolves nothing makes no leader. -/
theorem onPromiseRange_unled {σ : St V} {member ballot : Nat} {anchor : TrimAnchor}
    {chosenThrough first last reported : Nat} {more : Bool}
    (hnone : messageResolves P σ member
      (.promiseRange ballot anchor chosenThrough first last reported more) = none)
    (h : σ.node.role ≠ .leader) :
    (onPromiseRange P σ member ballot anchor chosenThrough first last reported more).1.node.role ≠
      .leader := by
  unfold messageResolves at hnone
  unfold onPromiseRange
  dsimp only at hnone ⊢
  by_cases hstale : σ.node.role ≠ .preparing ∨ ballot ≠ σ.node.ballot
  · rw [if_pos hstale]
    exact h
  rw [if_neg hstale] at hnone ⊢
  by_cases hready : σ.node.recoveryReady = true
  · rw [if_pos hready] at hnone
    cases hnone
  rw [if_neg hready] at hnone ⊢
  by_cases hinvalid : reported > P.C ∨ last < first
  · rw [if_pos hinvalid]
    exact h
  rw [if_neg hinvalid] at hnone ⊢
  by_cases hfirst : first = σ.node.recoverBase
  · by_cases hlast : last = σ.node.recoverLast
    · rw [if_neg (by simp [hfirst, hlast])] at hnone
      cases hnone
    · rw [if_pos ⟨hfirst, hlast⟩]
      exact h
  · rw [if_neg (fun hboth => hfirst hboth.1), if_pos hfirst]
    exact h

/-- A message that resolves nothing makes nobody a leader. -/
theorem dispatch_unled {σ : St V} {sender member : Nat} {msg : Message V}
    (hnone : messageResolves P σ member msg = none) (h : σ.node.role ≠ .leader) :
    (dispatch P σ sender member msg).1.node.role ≠ .leader := by
  cases msg with
  | prepare => exact onPrepare_unled h
  | promise => exact onPromise_unled hnone h
  | promiseRange => exact onPromiseRange_unled hnone h
  | accept => exact onAccept_unled h
  | accepted => exact onAccepted_unled h
  | commit slot value =>
      show (recordCommit P _ slot value).1.node.role ≠ .leader
      rw [recordCommit_role]
      exact h
  | learn => exact onLearn_unled h
  | nack => exact onNack_unled h
  | heartbeat => exact onHeartbeat_unled h

/-- An envelope that resolves nothing makes no leader. -/
theorem nodeStep_unled {n : Node V} {e : Envelope V}
    (hnone : resolvingState P n (.step e) = none) (h : n.role ≠ .leader) :
    (nodeStep P n e).1.node.role ≠ .leader := by
  unfold resolvingState at hnone
  unfold nodeStep
  dsimp only at hnone
  by_cases hrecipient : e.recipient ≠ n.id
  · rw [if_pos hrecipient]
    exact h
  rw [if_neg hrecipient]
  cases hmember : membershipIndexOf n.membership e.sender with
  | none => exact h
  | some member =>
      dsimp only
      have hnote : ∀ msg : Message V, (notePeerProgress n member msg).role ≠ .leader := by
        intro msg
        unfold notePeerProgress
        cases messageDecidedThrough msg <;> exact h
      by_cases hv : n.votingMember = true
      · rw [if_neg (by simp [hv])]
        rw [if_neg (by simp [hv, not_not.mp hrecipient]), hmember] at hnone
        exact dispatch_unled hnone (hnote _)
      · rw [if_pos (by simpa using hv)]
        cases e.message with
        | commit slot value =>
            show (recordCommit P _ slot value).1.node.role ≠ .leader
            rw [recordCommit_role]
            exact hnote _
        | _ => exact hnote _

/-- A tick of a node in campaign mode makes it a leader at the end of a drive only. -/
theorem nodeTick_unled {n : Node V} {noop : V} (hmode : n.ownership = false)
    (hnone : resolvingState P n (.call (.tick noop)) = none) (h : n.role ≠ .leader) :
    (nodeTick P n noop).1.node.role ≠ .leader := by
  unfold resolvingState tickResolves at hnone
  dsimp only at hnone
  unfold nodeTick
  by_cases hv : n.votingMember = true
  · rw [if_neg (by simp [hv])]
    dsimp only
    rw [if_neg (by simp [hmode]), if_neg h]
    by_cases hresolves : n.role = .preparing ∧
        saturatingIncrement n.electionTicks < n.electionTimeoutTicks
    · rw [if_pos ⟨hv, hresolves⟩] at hnone
      cases hnone
    · rw [if_neg hresolves]
      split_ifs
      · exact startCampaign_unled h
      · exact h
  · rw [if_pos (by simpa using hv)]
    exact h

omit [DecidableEq V] in
/-- Only a leader passes the gate of a campaign. -/
theorem proposalGate_closed {n : Node V} (hmode : n.ownership = false) (h : n.role ≠ .leader) :
    proposalGate n ≠ .none := by
  intro hgate
  obtain ⟨-, hown | ⟨-, hrole⟩⟩ := proposalGate_none hgate
  · rw [hmode] at hown
    cases hown
  · exact h hrole

/-- A node in campaign mode becomes leader by the call of `become_leader`, and in no other way. -/
theorem leadingState_of_leader {n : Node V} {op : Operation V} (hmode : n.ownership = false)
    (hbefore : n.role ≠ .leader) (hafter : (operate P n op).node.role = .leader) :
    ∃ ρ, leadingState P n op = some ρ := by
  cases hσ : resolvingState P n op with
  | some σ =>
      have hrole : σ.node.role ≠ .leader := by
        rw [(resolvingState_run (P := P) hσ).2]
        simp
      rw [operate_resolving hσ] at hafter
      cases hτ : frozenState σ with
      | none =>
          refine absurd hafter ?_
          unfold frozenState at hτ
          unfold maybeResolveChunk
          cases hnoop : σ.node.noop with
          | none => exact hrole
          | some noop =>
              rw [hnoop] at hτ
              dsimp only at hτ ⊢
              split_ifs at hτ ⊢
              exact hrole
      | some frozen =>
          obtain ⟨τ, noop⟩ := frozen
          rw [maybeResolveChunk_frozen hτ] at hafter
          have hτrole : τ.node.role ≠ .leader := by
            rw [(frozenState_run (P := P) (I := {}) (resolvingState_run (P := P) hσ).2 hτ).2.1]
            simp
          obtain ⟨ρ, hρ⟩ := resolveFrozen_led hτrole hafter
          exact ⟨ρ, by rw [leadingState, hσ, Option.bind_some, hτ, Option.bind_some]; exact hρ⟩
  | none =>
      refine absurd hafter ?_
      cases op with
      | step e => exact nodeStep_unled hσ hbefore
      | learnChosen sender slot value =>
          show (nodeLearnChosen P n sender slot value).1.node.role ≠ .leader
          unfold nodeLearnChosen
          split_ifs
          · exact hbefore
          · exact hbefore
          · rw [recordCommit_role]
            exact hbefore
      | installTrim anchor =>
          show (nodeInstallChosenTrim n anchor).1.node.role ≠ .leader
          unfold nodeInstallChosenTrim
          dsimp only
          split_ifs <;> exact hbefore
      | advanceFloor through =>
          show (nodeAdvanceMemoryFloor n through).1.role ≠ .leader
          unfold nodeAdvanceMemoryFloor
          split_ifs <;> exact hbefore
      | setCampaignEnabled enabled =>
          show (if !enabled && n.role = .preparing then Role.follower else n.role) ≠ .leader
          split_ifs
          · simp
          · exact hbefore
      | call c =>
          cases c with
          | campaign noop =>
              show (nodeCampaign P n noop).1.node.role ≠ .leader
              unfold nodeCampaign
              split_ifs
              · exact hbefore
              · exact hbefore
              · exact startCampaign_unled hbefore
          | tick noop => exact nodeTick_unled hmode hσ hbefore
          | propose value =>
              show (nodePropose P n value).1.node.role ≠ .leader
              unfold nodePropose
              cases hgate : proposalGate n with
              | none => exact absurd hgate (proposalGate_closed hmode hbefore)
              | _ => exact hbefore
          | proposeBatch values capacity =>
              show (nodeProposeBatch P n values capacity).1.node.role ≠ .leader
              unfold nodeProposeBatch
              cases hgate : proposalGate n with
              | none => exact absurd hgate (proposalGate_closed hmode hbefore)
              | _ => exact hbefore
          | reconnected peer =>
              show (nodeReconnected P n peer).1.node.role ≠ .leader
              unfold nodeReconnected
              rw [if_neg (c := n.role = .leader) hbefore]
              split_ifs <;> exact hbefore
          | requestCatchUp peer fromSlot =>
              show (nodeRequestCatchUp P n peer fromSlot).1.node.role ≠ .leader
              unfold nodeRequestCatchUp
              split_ifs <;> exact hbefore

end Roles

end PaxosOdin
