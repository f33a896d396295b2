import PaxosOdin.Transition.Recovering
import PaxosOdin.Transition.Accepting
import PaxosOdin.Transition.Incarnation

/-!
# How much a transition can emit

Every procedure adds a bounded number of records, envelopes and host requests to its batch, and
keeps the queue of suggestions within one chunk.  The bounds compose: a procedure adds what its
calls add.

Main definitions:

- Definition `Adds`: what a procedure adds at most.

Main results:

- Theorem `sendAccept_adds`: a proposal adds two records and one envelope for each member.
- Theorem `maybeResolveChunk_adds`: driving a chunk, and then announcing the next one.
- Theorem `tickOwnership_adds`: the ownership side of a tick, whose proposals share one chunk.
-/

namespace PaxosOdin

variable {V : Type} {P : Params}

/-- The membership fits the compiled capacity. -/
def Sized (P : Params) (n : Node V) : Prop :=
  n.membership.members.length ≤ P.M

/-- From `σ` to `σ'` at most so many records, envelopes and requests are added, and the queue of
suggestions stays within one chunk. -/
structure Adds (P : Params) (σ σ' : St V) (writes messages requests : Nat) : Prop where
  membership : σ'.node.membership = σ.node.membership
  writes : σ'.effects.writes.length ≤ σ.effects.writes.length + writes
  messages : σ'.effects.messages.length ≤ σ.effects.messages.length + messages
  requests : σ'.effects.requests.length ≤ σ.effects.requests.length + requests
  queue : σ'.node.resubmit.length ≤ max P.C σ.node.resubmit.length

namespace Adds

variable {σ σ' σ'' : St V} {w w' m m' r r' : Nat}

/-- Doing nothing adds nothing. -/
theorem refl (σ : St V) : Adds P σ σ 0 0 0 :=
  ⟨rfl, le_rfl, le_rfl, le_rfl, le_max_right _ _⟩

/-- A change of the node that leaves the batch alone. -/
theorem ofNode {n : Node V} (hmembership : n.membership = σ.node.membership)
    (hqueue : n.resubmit.length ≤ max P.C σ.node.resubmit.length) :
    Adds P σ { σ with node := n } 0 0 0 :=
  ⟨hmembership, le_rfl, le_rfl, le_rfl, hqueue⟩

/-- What two parts of a transition add, they add together. -/
theorem trans (h : Adds P σ σ' w m r) (h' : Adds P σ' σ'' w' m' r') :
    Adds P σ σ'' (w + w') (m + m') (r + r') := by
  obtain ⟨hm, hw, he, hr, hq⟩ := h
  obtain ⟨hm', hw', he', hr', hq'⟩ := h'
  exact ⟨hm'.trans hm, by omega, by omega, by omega, by omega⟩

/-- A bound may be made larger. -/
theorem mono (h : Adds P σ σ' w m r) (hw : w ≤ w') (hm : m ≤ m') (hr : r ≤ r') :
    Adds P σ σ' w' m' r' := by
  obtain ⟨hmembership, hwrites, hmessages, hrequests, hqueue⟩ := h
  exact ⟨hmembership, by omega, by omega, by omega, hqueue⟩

/-- Whatever adds nothing fits any bound. -/
theorem free (h : Adds P σ σ' 0 0 0) : Adds P σ σ' w m r :=
  h.mono (Nat.zero_le _) (Nat.zero_le _) (Nat.zero_le _)

/-- What adds to a batch keeps the sizes of the node. -/
theorem sized (h : Adds P σ σ' w m r) (hn : Sized P σ.node) : Sized P σ'.node := by
  unfold Sized
  rw [h.membership]
  exact hn

/-- One more record. -/
theorem addWrite (h : Adds P σ σ' w m r) (x : Write V) : Adds P σ (σ'.addWrite x) (w + 1) m r := by
  obtain ⟨hmembership, hwrites, hmessages, hrequests, hqueue⟩ := h
  refine ⟨hmembership, ?_, hmessages, hrequests, hqueue⟩
  simp only [St.addWrite, List.length_append, List.length_singleton]
  omega

/-- A few more messages. -/
theorem addMessages (h : Adds P σ σ' w m r) {es : List (Envelope V)} (count : Nat)
    (hcount : es.length ≤ count) : Adds P σ (σ'.addMessages es) w (m + count) r := by
  obtain ⟨hmembership, hwrites, hmessages, hrequests, hqueue⟩ := h
  refine ⟨hmembership, hwrites, ?_, hrequests, hqueue⟩
  simp only [St.addMessages, List.length_append]
  omega

/-- One more message, to one peer. -/
theorem sendTo (h : Adds P σ σ' w m r) (peer : Nat) (msg : Message V) :
    Adds P σ (PaxosOdin.sendTo σ' peer msg) w (m + 1) r :=
  h.addMessages 1 le_rfl

/-- A request for missing decisions is one more message. -/
theorem requestLearn (h : Adds P σ σ' w m r) (peer : Nat) :
    Adds P σ (PaxosOdin.requestLearn P σ' peer) w (m + 1) r :=
  h.addMessages 1 le_rfl

/-- A broadcast to the peers takes at most a message for each member. -/
theorem broadcastPeers (h : Adds P σ σ' w m r) (hn : Sized P σ.node) (msg : Message V) :
    Adds P σ (PaxosOdin.broadcastPeers σ' msg) w (m + P.M) r := by
  refine h.addMessages P.M ?_
  rw [List.length_map]
  exact (List.length_filter_le _ _).trans (h.sized hn)

/-- So does a broadcast to all members. -/
theorem broadcastAll (h : Adds P σ σ' w m r) (hn : Sized P σ.node) (msg : Message V) :
    Adds P σ (PaxosOdin.broadcastAll σ' msg) w (m + P.M) r := by
  refine h.addMessages P.M ?_
  rw [List.length_map]
  exact h.sized hn

/-- A change of the node after the step. -/
theorem withNode (h : Adds P σ σ' w m r) {n : Node V} (hmembership : n.membership = σ'.node.membership)
    (hqueue : n.resubmit.length ≤ max P.C σ'.node.resubmit.length) :
    Adds P σ { σ' with node := n } w m r :=
  h.trans (ofNode hmembership hqueue)

/-- A release after the step. -/
theorem release (h : Adds P σ σ' w m r) (c : Committed V) {n : Node V}
    (hmembership : n.membership = σ'.node.membership)
    (hqueue : n.resubmit.length ≤ max P.C σ'.node.resubmit.length) :
    Adds P σ { σ'.addCommitted c with node := n } w m r :=
  h.trans (show Adds P σ' { σ'.addCommitted c with node := n } 0 0 0 from
    ⟨hmembership, Nat.le_refl _, Nat.le_refl _, Nat.le_refl _, hqueue⟩)

end Adds

/-! ## Decisions and proposals -/

/-- The queue of resubmissions never outgrows a chunk. -/
theorem queueResubmit_length (n : Node V) (value : V) :
    (queueResubmit P n value).resubmit.length ≤ max P.C n.resubmit.length := by
  unfold queueResubmit
  split_ifs with hroom
  · simp only [List.length_append, List.length_singleton]
    omega
  · exact le_max_right _ _

/-- Queueing a value leaves the membership alone. -/
theorem queueResubmit_membership (n : Node V) (value : V) :
    (queueResubmit P n value).membership = n.membership := by
  unfold queueResubmit
  split_ifs <;> rfl

/-- Claiming a cell adds nothing. -/
theorem claimLive_adds (σ : St V) (slot : Nat) :
    Adds P σ { σ with node := (claimLive P σ.node slot).1 } 0 0 0 := by
  unfold claimLive
  dsimp only
  split_ifs <;> exact .ofNode rfl (le_max_right _ _)

/-- A release takes none of the room that is counted here. -/
theorem emitContiguousLoop_adds (fuel : Nat) (σ : St V) :
    Adds P σ (emitContiguousLoop P fuel σ) 0 0 0 := by
  induction fuel generalizing σ with
  | zero => exact .refl σ
  | succ fuel ih =>
      unfold emitContiguousLoop
      dsimp only
      split_ifs
      · exact .refl σ
      · refine Adds.trans ?_ (ih _)
        exact (Adds.refl σ).release _ rfl (le_max_right _ _)
      · exact .refl σ

/-- Nor do all the releases of a transition. -/
theorem emitContiguous_adds (σ : St V) : Adds P σ (emitContiguous P σ) 0 0 0 :=
  emitContiguousLoop_adds P.W σ

/-- Pointing the batch at `pass_through` adds nothing. -/
theorem setPassThrough_adds (σ : St V) (value : V) : Adds P σ (σ.setPassThrough value) 0 0 0 := by
  refine ⟨rfl, ?_, le_rfl, le_rfl, le_max_right _ _⟩
  simp only [St.setPassThrough, List.length_map]
  exact le_rfl

section Decide

variable [DecidableEq V]

/-- Recording a decision adds one record. -/
theorem recordCommit_adds (σ : St V) (slot : Nat) (value : V) :
    Adds P σ (recordCommit P σ slot value).1 1 0 0 := by
  unfold recordCommit
  by_cases hzero : slot = 0
  · rw [if_pos hzero]
    exact (Adds.refl σ).free
  rw [if_neg hzero]
  dsimp only
  have hseen : Adds P σ { σ with node := { σ.node with highestSeen := max σ.node.highestSeen slot } }
      0 0 0 := .ofNode rfl (le_max_right _ _)
  by_cases hlow : slot ≤ σ.node.memoryFloor ∨ slot ≤ σ.node.ledger.anchor.chosenTrimSlot
  · rw [if_pos hlow]
    exact hseen.free
  rw [if_neg hlow]
  have hclaim := hseen.trans (claimLive_adds (P := P) _ slot)
  rcases hcase : claimLive P { σ.node with highestSeen := max σ.node.highestSeen slot } slot with
    ⟨n, _ | cell⟩
  · dsimp only
    split_ifs with hreleased hnext
    · exact hseen.free
    · have hset := hseen.trans (setPassThrough_adds (P := P) _ value)
      have hwrite := hset.addWrite (.chosen slot value)
      refine Adds.trans ?_ (emitContiguous_adds _)
      exact hwrite.release ⟨slot, value, true⟩ rfl (le_max_right _ _)
    · exact hseen.free
  · rw [hcase] at hclaim
    dsimp only at hclaim ⊢
    by_cases hchosen : (n.ledger.cells cell).state = .chosen
    · rw [if_pos hchosen]
      split_ifs
      · exact hclaim.free
      · exact (hclaim.trans (emitContiguous_adds _)).free
    · rw [if_neg hchosen]
      refine (Adds.addWrite ?_ _).trans (emitContiguous_adds _)
      refine hclaim.withNode ?_ ?_ <;> split_ifs
      · exact queueResubmit_membership _ _
      · rfl
      · exact queueResubmit_length _ _
      · exact le_max_right _ _

/-- The errors that recording a decision can end in. -/
theorem recordCommit_error (σ : St V) (slot : Nat) (value : V) :
    (recordCommit P σ slot value).2 = .none ∨ (recordCommit P σ slot value).2 = .invalidSlot ∨
      (recordCommit P σ slot value).2 = .conflictingCommit := by
  unfold recordCommit
  by_cases hzero : slot = 0
  · rw [if_pos hzero]
    exact Or.inr (Or.inl rfl)
  rw [if_neg hzero]
  dsimp only
  by_cases hlow : slot ≤ σ.node.memoryFloor ∨ slot ≤ σ.node.ledger.anchor.chosenTrimSlot
  · rw [if_pos hlow]
    exact Or.inl rfl
  rw [if_neg hlow]
  rcases claimLive P { σ.node with highestSeen := max σ.node.highestSeen slot } slot with
    ⟨n, _ | cell⟩
  · dsimp only
    by_cases hreleased : lastReleasedPassedThrough σ.effects = true
    · rw [if_pos hreleased]
      exact Or.inl rfl
    · rw [if_neg hreleased]
      by_cases hnext : slot = slotSucc σ.node.deliveredThrough
      · rw [if_pos hnext]
        exact Or.inl rfl
      · rw [if_neg hnext]
        exact Or.inl rfl
  · dsimp only
    by_cases hchosen : (n.ledger.cells cell).state = .chosen
    · rw [if_pos hchosen]
      by_cases hvalue : (n.ledger.cells cell).value ≠ value
      · rw [if_pos hvalue]
        exact Or.inr (Or.inr rfl)
      · rw [if_neg hvalue]
        exact Or.inl rfl
    · rw [if_neg hchosen]
      exact Or.inl rfl

/-- Announcing a proposal adds at most the decision and the Accepts. -/
theorem announceProposal_adds {σ : St V} (hn : Sized P σ.node) (slot ballot : Nat) (value : V) :
    Adds P σ (announceProposal P σ slot ballot value).1 1 P.M 0 := by
  unfold announceProposal
  split_ifs
  · have hcommit := recordCommit_adds (P := P) σ slot value
    rcases hcase : recordCommit P σ slot value with ⟨τ, e⟩
    rw [hcase] at hcommit
    cases e with
    | none => exact (hcommit.broadcastPeers hn _).mono le_rfl (by omega) le_rfl
    | _ => exact hcommit.mono le_rfl (Nat.zero_le _) le_rfl
  · exact ((Adds.refl σ).broadcastPeers hn _).mono (Nat.zero_le _) (by omega) le_rfl

/-- The errors that announcing a proposal never ends in. -/
theorem announceProposal_error (σ : St V) (slot ballot : Nat) (value : V) :
    (announceProposal P σ slot ballot value).2 ≠ .notLeader ∧
      (announceProposal P σ slot ballot value).2 ≠ .windowFull := by
  unfold announceProposal
  split_ifs
  · have herror := recordCommit_error (P := P) σ slot value
    rcases hcase : recordCommit P σ slot value with ⟨τ, e⟩
    rw [hcase] at herror
    rcases herror with rfl | rfl | rfl <;> exact ⟨nofun, nofun⟩
  · exact ⟨nofun, nofun⟩

/-- A proposal adds its vote, its decision when it is alone in the quorum, and the Accepts; one that
is refused for a higher ballot adds nothing. -/
theorem sendAccept_adds {σ : St V} (hn : Sized P σ.node) (slot ballot : Nat) (value : V) :
    Adds P σ (sendAccept P σ slot ballot value).1 2 P.M 0 ∧
      ((sendAccept P σ slot ballot value).2 = .notLeader →
        Adds P σ (sendAccept P σ slot ballot value).1 0 0 0) ∧
      (sendAccept P σ slot ballot value).2 ≠ .windowFull := by
  unfold sendAccept
  have hclaim := claimLive_adds (P := P) σ slot
  rcases hcase : claimLive P σ.node slot with ⟨n, _ | cell⟩
  · exact ⟨(Adds.refl σ).free, nofun, nofun⟩
  rw [hcase] at hclaim
  dsimp only at hclaim ⊢
  split_ifs with hchosen hconflict hpromise
  · exact ⟨hclaim.free, nofun, nofun⟩
  · exact ⟨hclaim.free, nofun, nofun⟩
  · exact ⟨hclaim.free, fun _ => hclaim, nofun⟩
  · have hvote : Adds P σ (voteForProposal { σ with node := n } cell slot ballot value) 1 0 0 := by
      unfold voteForProposal
      dsimp only
      refine Adds.addWrite (hclaim.withNode ?_ ?_) _
      · rfl
      · exact le_max_right _ _
    obtain ⟨hleader, hfull⟩ := announceProposal_error (P := P)
      (voteForProposal { σ with node := n } cell slot ballot value) slot ballot value
    exact ⟨(hvote.trans (announceProposal_adds (hvote.sized hn) slot ballot value)).mono le_rfl
      (by omega) le_rfl, fun h => absurd h hleader, hfull⟩

/-! ## Messages of phase two -/

/-- `on_accept` adds one record and one answer. -/
theorem onAccept_adds (σ : St V) (sender ballot slot : Nat) (value : V) :
    Adds P σ (onAccept P σ sender ballot slot value).1 1 1 0 := by
  have hreply : ∀ {τ : St V} {w : Nat}, Adds P σ τ w 0 0 → w ≤ 1 → ∀ msg,
      Adds P σ (sendTo τ sender msg) 1 1 0 :=
    fun h hw msg => (h.sendTo sender msg).mono hw le_rfl le_rfl
  unfold onAccept
  dsimp only
  by_cases hzero : slot = 0
  · rw [if_pos hzero]
    exact (Adds.refl σ).free
  rw [if_neg hzero]
  by_cases htrim : slot ≤ σ.node.ledger.anchor.chosenTrimSlot
  · rw [if_pos htrim]
    exact (Adds.refl σ).free
  rw [if_neg htrim]
  by_cases hround : ballotRound ballot = 0 ∧
      ((!σ.node.ownership) = true ∨ ballotNode ballot ≠ ownerOf σ.node slot)
  · rw [if_pos hround]
    exact (Adds.refl σ).free
  rw [if_neg hround]
  by_cases hlow : ballot < σ.node.ledger.promised
  · rw [if_pos hlow]
    exact hreply (.refl σ) (Nat.zero_le _) _
  rw [if_neg hlow]
  have hclaim := claimLive_adds (P := P) σ slot
  rcases hcase : claimLive P σ.node slot with ⟨n, _ | cell⟩
  · exact (Adds.refl σ).free
  rw [hcase] at hclaim
  dsimp only at hclaim ⊢
  have hseen : Adds P σ { σ with node := { n with highestSeen := max n.highestSeen slot } } 0 0 0 :=
    hclaim.withNode rfl (le_max_right _ _)
  by_cases hpromise : ballot < (n.ledger.cells cell).promisedAt
  · rw [if_pos hpromise]
    exact hreply hseen (Nat.zero_le _) _
  rw [if_neg hpromise]
  by_cases hchosen : (n.ledger.cells cell).state = .chosen
  · rw [if_pos hchosen]
    by_cases hvalue : (n.ledger.cells cell).value = value
    · rw [if_pos hvalue]
      exact hreply hseen (Nat.zero_le _) _
    · rw [if_neg hvalue]
      exact hreply hseen (Nat.zero_le _) _
  rw [if_neg hchosen]
  by_cases hvoted : (n.ledger.cells cell).state = .voted ∧ (n.ledger.cells cell).voteBallot = ballot
  · rw [if_pos hvoted]
    by_cases hvalue : (n.ledger.cells cell).value ≠ value
    · rw [if_pos hvalue]
      exact hseen.free
    · rw [if_neg hvalue]
      exact hreply hseen (Nat.zero_le _) _
  rw [if_neg hvoted]
  refine hreply (Adds.addWrite (hseen.withNode ?_ ?_) _) le_rfl _
  · split_ifs
    all_goals first
      | exact queueResubmit_membership _ _
      | rfl
  · split_ifs
    all_goals first
      | exact queueResubmit_length _ _
      | exact le_max_right _ _

/-- `on_accepted` adds one record and a `Commit` for each member. -/
theorem onAccepted_adds {σ : St V} (hn : Sized P σ.node) (member ballot slot : Nat) :
    Adds P σ (onAccepted P σ member ballot slot).1 1 P.M 0 := by
  have hcount : ∀ lead : Nat → Lead,
      Adds P σ { σ with node := { σ.node with lead := lead } } 0 0 0 :=
    fun _ => .ofNode rfl (le_max_right _ _)
  unfold onAccepted
  by_cases hzero : slot = 0
  · rw [if_pos hzero]
    exact (Adds.refl σ).free
  rw [if_neg hzero]
  dsimp only
  by_cases hlead : (σ.node.lead (cellOf slot P.W)).slot ≠ slot ∨
      (σ.node.lead (cellOf slot P.W)).ballot ≠ ballot
  · rw [if_pos hlead]
    exact (Adds.refl σ).free
  rw [if_neg hlead]
  generalize (if member ∈ (σ.node.lead (cellOf slot P.W)).acknowledgements then
    σ.node.lead (cellOf slot P.W)
    else { σ.node.lead (cellOf slot P.W) with
      acknowledgements := insert member (σ.node.lead (cellOf slot P.W)).acknowledgements
      acknowledged := (σ.node.lead (cellOf slot P.W)).acknowledged + 1 }) = lead
  have hcounted := hcount (Function.update σ.node.lead (cellOf slot P.W) lead)
  split_ifs
  · exact hcounted.free
  · exact hcounted.free
  · exact hcounted.free
  · exact hcounted.free
  have hcommit := hcounted.trans (recordCommit_adds (P := P)
    { σ with node := { σ.node with lead := Function.update σ.node.lead (cellOf slot P.W) lead } } slot
    (σ.node.ledger.cells (cellOf slot P.W)).value)
  rcases hcase : recordCommit P
    { σ with node := { σ.node with lead := Function.update σ.node.lead (cellOf slot P.W) lead } } slot
    (σ.node.ledger.cells (cellOf slot P.W)).value with ⟨τ, e⟩
  rw [hcase] at hcommit
  cases e with
  | none => exact (hcommit.broadcastPeers hn _).mono (by omega) (by omega) le_rfl
  | _ => exact hcommit.mono (by omega) (Nat.zero_le _) le_rfl

/-- `on_commit` adds one record. -/
theorem onCommit_adds (σ : St V) (sender slot : Nat) (value : V) :
    Adds P σ (onCommit P σ sender slot value).1 1 0 0 := by
  have hhint : Adds P σ
      { σ with node := { σ.node with leaderHint := some sender, electionTicks := 0 } } 0 0 0 :=
    .ofNode rfl (le_max_right _ _)
  exact hhint.trans (recordCommit_adds _ slot value)

end Decide

/-- `on_heartbeat` adds one promise and one request. -/
theorem onHeartbeat_adds (σ : St V) (sender ballot decidedThrough : Nat) :
    Adds P σ (onHeartbeat P σ sender ballot decidedThrough) 1 1 0 := by
  unfold onHeartbeat
  dsimp only
  by_cases hlow : ballot < σ.node.ledger.promised
  · rw [if_pos hlow]
    exact ((Adds.refl σ).sendTo sender _).mono (Nat.zero_le _) le_rfl le_rfl
  rw [if_neg hlow]
  generalize hpromise : (if ballot ≠ σ.node.ledger.promised then
    (σ.withLedger { σ.node.ledger with promised := ballot }).addWrite (.promise ballot) else σ) = τ
  have hτ : Adds P σ τ 1 0 0 := by
    subst hpromise
    split_ifs
    · refine Adds.addWrite ?_ _
      exact .ofNode rfl (le_max_right _ _)
    · exact (Adds.refl σ).free
  have hleader : Adds P σ { τ with node := observeLeader τ.node sender ballot } 1 0 0 :=
    hτ.withNode rfl (le_max_right _ _)
  split_ifs
  · exact hleader.requestLearn sender
  · exact hleader.mono le_rfl (Nat.zero_le _) le_rfl

/-! ## The acceptor -/

/-- A scan of a bit set meets each member once. -/
theorem bitSetScan_nodup (bits : Finset Nat) (size : Nat) : (bitSetScan bits size).Nodup :=
  List.nodup_range.filter _

/-- Distinct cells that hold slots of an interval are at most as many as its slots. -/
theorem cells_between_length {l : Ledger V}
    (htag : Tagged P l) (cells : List Nat) (first last : Nat) (hfirst : first ≠ 0) (hnodup : cells.Nodup)
    (hbetween : ∀ c ∈ cells, first ≤ (l.cells c).slot ∧ (l.cells c).slot ≤ last) :
    cells.length ≤ last + 1 - first := by
  have hslots : (cells.map fun c => (l.cells c).slot).Nodup := by
    refine hnodup.map_on fun c hc d hd heq => ?_
    have hc0 : (l.cells c).slot ≠ 0 := by
      have := (hbetween c hc).1
      omega
    have hd0 : (l.cells d).slot ≠ 0 := by
      have := (hbetween d hd).1
      omega
    rw [← htag c hc0, ← htag d hd0, heq]
  have hsub : (cells.map fun c => (l.cells c).slot) ⊆ List.range' first (last + 1 - first) := by
    intro slot hslot
    obtain ⟨c, hc, rfl⟩ := List.mem_map.mp hslot
    obtain ⟨hlow, hhigh⟩ := hbetween c hc
    rw [List.mem_range'_1]
    omega
  have hlength := (hslots.subperm hsub).length_le
  rwa [List.length_map, List.length_range'] at hlength

/-- Claiming the cells of a range adds nothing. -/
theorem claimRange_adds (ballot : Nat) (slots : List Nat) (σ : St V) :
    Adds P σ { σ with node := (claimRange P ballot σ.node slots).1 } 0 0 0 := by
  induction slots generalizing σ with
  | nil => exact .refl σ
  | cons slot rest ih =>
      unfold claimRange
      by_cases hlow : slot ≤ σ.node.memoryFloor
      · rw [if_pos hlow]
        exact ih σ
      rw [if_neg hlow]
      have hclaim := claimLive_adds (P := P) σ slot
      rcases hcase : claimLive P σ.node slot with ⟨n, _ | cell⟩
      · rw [hcase] at hclaim
        exact hclaim
      · rw [hcase] at hclaim
        dsimp only at hclaim ⊢
        split_ifs
        · exact hclaim
        · exact hclaim.trans (ih { σ with node := n })

/-- Promising a range adds one record for each of its slots. -/
theorem promiseRange_adds (ballot : Nat) (slots : List Nat) (σ : St V) :
    Adds P σ (promiseRange P ballot σ slots) slots.length 0 0 := by
  induction slots generalizing σ with
  | nil => exact .refl σ
  | cons slot rest ih =>
      unfold promiseRange
      dsimp only
      split_ifs
      · exact (ih σ).mono (by simp) le_rfl le_rfl
      · exact (ih σ).mono (by simp) le_rfl le_rfl
      · have hwrite : Adds P σ
            ((σ.withLedger (ledgerSetPromiseAt σ.node.ledger (cellOf slot P.W) ballot)).addWrite
              (.promiseAt ballot slot)) 1 0 0 := by
          refine Adds.addWrite ?_ _
          exact .ofNode rfl (le_max_right _ _)
        exact (hwrite.trans (ih _)).mono (by rw [List.length_cons]; omega) le_rfl le_rfl

/-- A bounded promise adds one record for each slot of a chunk. -/
theorem promiseBounded_adds (σ : St V) (ballot first last : Nat) :
    Adds P σ (promiseBounded P σ ballot first last).1 P.C 0 0 := by
  unfold promiseBounded
  by_cases hlong : slotSub last first ≥ P.C
  · rw [if_pos hlong]
    exact (Adds.refl σ).free
  rw [if_neg hlong]
  dsimp only
  have hclaim := claimRange_adds (P := P) ballot
    ((List.range (slotSub last first + 1)).map (first + ·)) σ
  rcases hcase : claimRange P ballot σ.node
    ((List.range (slotSub last first + 1)).map (first + ·)) with ⟨n, _ | _⟩
  · rw [hcase] at hclaim
    exact hclaim.free
  · rw [hcase] at hclaim
    refine (hclaim.trans (promiseRange_adds ballot _ _)).mono ?_ le_rfl le_rfl
    rw [List.length_map, List.length_range]
    omega

/-- An answer adds its reports and their manifest. -/
theorem answerPrepare_adds {σ : St V} {first last count : Nat}
    (hcells : (reportedCells P σ.node.ledger first last).length ≤ count) (sender ballot : Nat) :
    Adds P σ (answerPrepare P σ sender ballot first last) 0 (count + 1) 0 := by
  unfold answerPrepare
  refine (Adds.sendTo (Adds.addMessages (Adds.refl σ) count ?_) sender _).mono le_rfl
    (by omega) le_rfl
  rw [List.length_map]
  exact hcells

/-- A Prepare adds the promises of one chunk, and its reports with their manifest. -/
theorem onPrepare_adds_reports [DecidableEq V] {σ : St V} (htag : Tagged P σ.node.ledger)
    {first last count : Nat}
    (hcells : ∀ l : Ledger V, Tagged P l → first ≠ 0 →
      (reportedCells P l first last).length ≤ count)
    (sender ballot : Nat) (scope : PrepareScope) :
    Adds P σ (onPrepare P σ sender ballot first last scope).1 P.C (count + 1) 0 := by
  have hC := P.chunk_pos
  unfold onPrepare
  dsimp only
  by_cases hlow : ballot < σ.node.ledger.promised
  · rw [if_pos hlow]
    exact ((Adds.refl σ).sendTo sender _).mono (Nat.zero_le _) (by omega) le_rfl
  rw [if_neg hlow]
  by_cases hinvalid : first = 0 ∨ last < first
  · rw [if_pos hinvalid]
    exact (Adds.refl σ).free
  rw [if_neg hinvalid]
  rw [not_or, Nat.not_lt] at hinvalid
  cases scope with
  | global =>
      dsimp only
      generalize hpromise : (if ballot ≠ σ.node.ledger.promised then
        (σ.withLedger { σ.node.ledger with promised := ballot }).addWrite (.promise ballot)
        else σ) = τ
      have hτ : Adds P σ τ 1 0 0 ∧ τ.node.ledger.cells = σ.node.ledger.cells := by
        subst hpromise
        split_ifs
        · refine ⟨Adds.addWrite ?_ _, rfl⟩
          exact .ofNode rfl (le_max_right _ _)
        · exact ⟨(Adds.refl σ).free, rfl⟩
      have hleader : Adds P σ { τ with node := observeLeader τ.node sender ballot } 1 0 0 :=
        hτ.1.withNode rfl (le_max_right _ _)
      refine (hleader.trans (answerPrepare_adds (hcells _ ?_ hinvalid.1) sender ballot)).mono hC
        (by omega) le_rfl
      intro i
      show (τ.node.ledger.cells i).slot ≠ 0 → cellOf (τ.node.ledger.cells i).slot P.W = i
      rw [hτ.2]
      exact htag i
  | bounded =>
      dsimp only
      have hadds := promiseBounded_adds (P := P) σ ballot first last
      have hrun := promiseBounded_run (P := P) (σ := σ) ballot hinvalid.2 (Or.inr ⟨sender, first, last,
        show ({ heard := some ⟨sender, σ.node.id, .prepare ballot first last .bounded⟩ } :
          Input V).Hears _ _ _ from rfl⟩)
      rcases hcase : promiseBounded P σ ballot first last with ⟨τ, _ | _⟩
      · rw [hcase] at hadds
        exact hadds.mono le_rfl (Nat.zero_le _) le_rfl
      · rw [hcase] at hadds
        dsimp only at hadds ⊢
        have hround : Adds P σ { τ with node :=
            { τ.node with
              highestObservedRound := max τ.node.highestObservedRound (ballotRound ballot) } }
            P.C 0 0 := hadds.withNode rfl (le_max_right _ _)
        refine (hround.trans (answerPrepare_adds (hcells _ ?_ hinvalid.1) sender ballot)).mono le_rfl
          (by omega) le_rfl
        exact (hrun.2 τ hcase).run.tagged htag

/-- A Prepare for a chunk adds the reports of one chunk. -/
theorem onPrepare_adds [DecidableEq V] {σ : St V} (htag : Tagged P σ.node.ledger)
    {first last : Nat} (hnarrow : last < first + P.C) (sender ballot : Nat) (scope : PrepareScope) :
    Adds P σ (onPrepare P σ sender ballot first last scope).1 P.C (P.C + 1) 0 := by
  refine onPrepare_adds_reports htag (fun l hl hfirst => ?_) sender ballot scope
  have hlength := cells_between_length hl (reportedCells P l first last) first last
    hfirst ((bitSetScan_nodup _ _).filter _) fun c hc => by
      have hin := of_decide_eq_true (List.mem_filter.mp hc).2
      exact ⟨hin.2.1, hin.2.2⟩
  omega

/-- A Prepare of any width adds at most the reports of the whole window. -/
theorem onPrepare_adds_wide [DecidableEq V] {σ : St V} (htag : Tagged P σ.node.ledger)
    (first last sender ballot : Nat) (scope : PrepareScope) :
    Adds P σ (onPrepare P σ sender ballot first last scope).1 P.C (P.W + 1) 0 := by
  refine onPrepare_adds_reports htag (fun l _ _ => ?_) sender ballot scope
  unfold reportedCells bitSetScan
  refine (List.length_filter_le _ _).trans ((List.length_filter_le _ _).trans ?_)
  rw [List.length_range]

/-- An answer to a catch-up request sends at most one chunk of decisions, and asks the host once. -/
theorem onLearn_adds {σ : St V}
    (htag : Tagged P σ.node.ledger)
    (sender fromSlot count : Nat) :
    Adds P σ (onLearn P σ sender fromSlot count).1 0 P.C 1 := by
  unfold onLearn
  by_cases hinvalid : fromSlot = 0 ∨ count = 0 ∨ count > P.C
  · rw [if_pos hinvalid]
    exact (Adds.refl σ).free
  rw [if_neg hinvalid]
  rw [not_or, not_or, Nat.not_lt] at hinvalid
  dsimp only
  generalize hrequest : (if fromSlot ≤ σ.node.memoryFloor then
    σ.addRequest ⟨sender, fromSlot,
      min (slotAdd fromSlot (count - 1)) σ.node.memoryFloor - fromSlot + 1⟩ else σ) = τ
  have hτ : Adds P σ τ 0 0 1 ∧ τ.node = σ.node := by
    subst hrequest
    split_ifs
    · refine ⟨⟨rfl, le_rfl, le_rfl, ?_, le_max_right _ _⟩, rfl⟩
      simp [St.addRequest]
    · exact ⟨(Adds.refl σ).free, rfl⟩
  refine (hτ.1.addMessages P.C ?_).mono le_rfl (by omega) le_rfl
  rw [List.length_map, hτ.2]
  have hlimit := slotAdd_le_add fromSlot (count - 1)
  have hlength := cells_between_length htag
    ((bitSetScan σ.node.ledger.chosen P.W).filter fun cell =>
      decide (fromSlot ≤ (σ.node.ledger.cells cell).slot ∧
        (σ.node.ledger.cells cell).slot ≤ slotAdd fromSlot (count - 1)))
    fromSlot (slotAdd fromSlot (count - 1)) hinvalid.1 ((bitSetScan_nodup _ _).filter _)
    fun c hc => of_decide_eq_true (List.mem_filter.mp hc).2
  omega

/-! ## The candidate -/

section Candidate

variable [DecidableEq V]

/-- Each slot of the drive adds at most a vote, a decision and one envelope for each member. -/
theorem resolveLoop_adds {σ : St V} (hn : Sized P σ.node) (noop : V) (fuel slot : Nat) :
    Adds P σ (resolveLoop P noop fuel σ slot).1 (2 * fuel) (P.M * fuel) 0 := by
  induction fuel generalizing σ slot with
  | zero => exact .refl σ
  | succ fuel ih =>
      have hrest : ∀ {τ : St V}, Adds P σ τ 2 P.M 0 →
          Adds P σ (resolveLoop P noop fuel τ (slot + 1)).1 (2 * (fuel + 1)) (P.M * (fuel + 1)) 0 :=
        fun h => (h.trans (ih (h.sized hn) (slot + 1))).mono (by omega) (by rw [Nat.mul_succ]; omega)
          le_rfl
      have hstop : ∀ {τ : St V}, Adds P σ τ 2 P.M 0 →
          Adds P σ τ (2 * (fuel + 1)) (P.M * (fuel + 1)) 0 :=
        fun h => h.mono (by omega) (by rw [Nat.mul_succ]; omega) le_rfl
      unfold resolveLoop
      by_cases hmax : slot = maxSlot
      · rw [if_pos hmax]
        exact (Adds.refl σ).free
      rw [if_neg hmax]
      dsimp only
      cases ledgerChosenAt P σ.node.ledger slot with
      | some value =>
          exact hrest (((Adds.refl σ).broadcastPeers hn _).mono (Nat.zero_le _) (by omega) le_rfl)
      | none =>
          dsimp only
          by_cases hchosen : (σ.node.recovered (slot - σ.node.recoverBase)).slot = slot ∧
              (σ.node.recovered (slot - σ.node.recoverBase)).state = .chosen
          · rw [if_pos hchosen]
            have hcommit := recordCommit_adds (P := P) σ slot
              (σ.node.recovered (slot - σ.node.recoverBase)).value
            rcases hcase : recordCommit P σ slot
              (σ.node.recovered (slot - σ.node.recoverBase)).value with ⟨τ, e⟩
            rw [hcase] at hcommit
            cases e with
            | none =>
                dsimp only at hcommit ⊢
                cases ledgerChosenAt P τ.node.ledger slot with
                | none => exact hrest (hcommit.mono (by omega) (Nat.zero_le _) le_rfl)
                | some decided =>
                    exact hrest ((hcommit.broadcastPeers hn _).mono (by omega) (by omega) le_rfl)
            | _ => exact hstop (hcommit.mono (by omega) (Nat.zero_le _) le_rfl)
          · rw [if_neg hchosen]
            generalize (if (σ.node.recovered (slot - σ.node.recoverBase)).slot = slot ∧
                (σ.node.recovered (slot - σ.node.recoverBase)).state = .voted then
              (σ.node.recovered (slot - σ.node.recoverBase)).value else noop) = value
            have hsend := (sendAccept_adds (P := P) hn slot σ.node.ballot value).1
            rcases hcase : sendAccept P σ slot σ.node.ballot value with ⟨τ, e⟩
            rw [hcase] at hsend
            cases e with
            | none => exact hrest hsend
            | notLeader => exact hstop (hsend.withNode rfl (le_max_right _ _))
            | _ => exact hstop hsend

/-- Driving a chunk adds what its slots add, and one catch-up request. -/
theorem resolveChunk_adds {σ : St V} (hn : Sized P σ.node)
    (hchunk : σ.node.recoverLast < σ.node.recoverBase + P.C) (noop : V) (anyMore : Bool) :
    Adds P σ (resolveChunk P σ noop anyMore).1 (2 * P.C) (P.M * P.C + 1) 0 := by
  unfold resolveChunk
  dsimp only
  by_cases hmax : max (quorumFences σ.node).trim (quorumFences σ.node).chosen = maxSlot
  · rw [if_pos hmax]
    exact (Adds.refl σ).free
  rw [if_neg hmax]
  have hgoal : driveGoal P σ.node anyMore ≤ σ.node.recoverLast := by
    unfold driveGoal
    dsimp only
    split_ifs
    · exact le_rfl
    · exact min_le_left _ _
  have hstart : σ.node.recoverBase ≤ driveStart σ.node := le_max_left _ _
  have hfuel : min (driveGoal P σ.node anyMore) (slotAdd σ.node.memoryFloor P.W) + 1 -
      driveStart σ.node ≤ P.C := by
    have := min_le_left (driveGoal P σ.node anyMore) (slotAdd σ.node.memoryFloor P.W)
    omega
  have hloop := (resolveLoop_adds hn noop (min (driveGoal P σ.node anyMore)
    (slotAdd σ.node.memoryFloor P.W) + 1 - driveStart σ.node) (driveStart σ.node)).mono
      (Nat.mul_le_mul_left 2 hfuel) (Nat.mul_le_mul_left P.M hfuel) le_rfl
  rcases hcase : resolveLoop P noop (min (driveGoal P σ.node anyMore)
    (slotAdd σ.node.memoryFloor P.W) + 1 - driveStart σ.node) σ (driveStart σ.node) with ⟨τ, _ | r⟩
  · rw [hcase] at hloop
    dsimp only at hloop ⊢
    split_ifs
    · cases (quorumFences σ.node).chosenPeer with
      | none => exact hloop.mono le_rfl (Nat.le_succ _) le_rfl
      | some peer => exact hloop.requestLearn peer
    · exact hloop.mono le_rfl (Nat.le_succ _) le_rfl
  · rw [hcase] at hloop
    exact hloop.mono le_rfl (Nat.le_succ _) le_rfl

omit [DecidableEq V] in
/-- Asking for the next chunk adds one Prepare for each member. -/
theorem beginNextChunk_adds {σ : St V} (hn : Sized P σ.node) :
    Adds P σ (beginNextChunk P σ) 0 P.M 0 := by
  unfold beginNextChunk
  dsimp only
  refine (Adds.broadcastAll ?_ hn _).mono le_rfl (Nat.le_of_eq (Nat.zero_add _)) le_rfl
  exact .ofNode rfl (le_max_right _ _)

omit [DecidableEq V] in
/-- Becoming leader adds nothing by itself. -/
theorem becomeLeader_adds (σ : St V) : Adds P σ (becomeLeader P σ) 0 0 0 := by
  unfold becomeLeader
  dsimp only
  split_ifs
  · refine Adds.trans ?_ (emitContiguous_adds _)
    exact .ofNode rfl (le_max_right _ _)
  · refine Adds.trans ?_ (emitContiguous_adds _)
    exact .ofNode rfl (le_max_right _ _)

/-- Resolving a chunk: what the drive adds, and the Prepares of the next chunk. -/
theorem maybeResolveChunk_adds {σ : St V} (hn : Sized P σ.node)
    (hchunk : σ.node.recoverLast < σ.node.recoverBase + P.C) :
    Adds P σ (maybeResolveChunk P σ).1 (2 * P.C) (P.M * P.C + P.M + 1) 0 := by
  unfold maybeResolveChunk
  cases σ.node.noop with
  | none => exact (Adds.refl σ).free
  | some noop =>
      dsimp only
      split_ifs
      · exact (Adds.refl σ).free
      have hfreeze : Adds P σ { σ with node := freezeSelection σ.node } 0 0 0 ∧
          (freezeSelection σ.node).recoverLast < (freezeSelection σ.node).recoverBase + P.C := by
        unfold freezeSelection
        split_ifs
        · exact ⟨.refl σ, hchunk⟩
        · exact ⟨.ofNode rfl (le_max_right _ _), hchunk⟩
      unfold resolveFrozen
      dsimp only
      have hdrive := hfreeze.1.trans (resolveChunk_adds (hfreeze.1.sized hn) hfreeze.2 noop
        (freezeSelection σ.node).recoveryMore)
      rcases hcase : resolveChunk P { σ with node := freezeSelection σ.node } noop
        (freezeSelection σ.node).recoveryMore with ⟨τ, resolved, e⟩
      rw [hcase] at hdrive
      cases e with
      | none =>
          dsimp only at hdrive ⊢
          split_ifs
          · exact hdrive.mono (by omega) (by omega) le_rfl
          · exact hdrive.mono (by omega) (by omega) le_rfl
          · exact (hdrive.trans (beginNextChunk_adds (hdrive.sized hn))).mono (by omega) (by omega)
              le_rfl
          · exact (hdrive.trans (becomeLeader_adds τ)).mono (by omega) (by omega) le_rfl
      | _ => exact hdrive.mono (by omega) (by omega) le_rfl

/-- A report leaves the chunk under recovery and the roles alone. -/
theorem recordReport_chunk (n : Node V) (member cell slot vote : Nat) (state : CellState)
    (value : V) :
    (recordReport n member cell slot vote state value).1.recoverBase = n.recoverBase ∧
      (recordReport n member cell slot vote state value).1.recoverLast = n.recoverLast ∧
      (recordReport n member cell slot vote state value).1.resubmit = n.resubmit := by
  unfold recordReport
  dsimp only
  split_ifs <;> exact ⟨rfl, rfl, rfl⟩

/-- The last `Promise` of a quorum may resolve the whole chunk. -/
theorem onPromise_adds {σ : St V} (hn : Sized P σ.node)
    (hchunk : σ.node.role = .preparing → σ.node.recoverLast < σ.node.recoverBase + P.C)
    (member ballot slot vote : Nat) (state : CellState) (value : V) :
    Adds P σ (onPromise P σ member ballot slot vote state value).1 (2 * P.C)
      (P.M * P.C + P.M + 1) 0 := by
  unfold onPromise
  by_cases hstale : σ.node.role ≠ .preparing ∨ ballot ≠ σ.node.ballot
  · rw [if_pos hstale]
    exact (Adds.refl σ).free
  rw [if_neg hstale]
  rw [not_or, not_not] at hstale
  by_cases hready : σ.node.recoveryReady = true
  · rw [if_pos hready]
    exact maybeResolveChunk_adds hn (hchunk hstale.1)
  rw [if_neg hready]
  cases recoveryIndex P σ.node slot with
  | none => exact (Adds.refl σ).free
  | some cell =>
      dsimp only
      by_cases hempty : state = .empty
      · rw [if_pos hempty]
        exact (Adds.refl σ).free
      rw [if_neg hempty]
      obtain ⟨hbase, hlast, hqueue⟩ := recordReport_chunk σ.node member cell slot vote state value
      have hmembership := recordReport_membership σ.node member cell slot vote state value
      have hreport : Adds P σ
          { σ with node := (recordReport σ.node member cell slot vote state value).1 } 0 0 0 :=
        .ofNode hmembership (by rw [hqueue]; exact le_max_right _ _)
      rcases hcase : recordReport σ.node member cell slot vote state value with ⟨n, e⟩
      rw [hcase] at hreport hbase hlast
      cases e with
      | none =>
          refine (hreport.trans (maybeResolveChunk_adds (hreport.sized hn) ?_)).mono (by omega)
            (by omega) le_rfl
          have := hchunk hstale.1
          dsimp only at hbase hlast ⊢
          omega
      | _ => exact hreport.free

/-- So may the last manifest. -/
theorem onPromiseRange_adds {σ : St V} (hn : Sized P σ.node)
    (hchunk : σ.node.role = .preparing → σ.node.recoverLast < σ.node.recoverBase + P.C)
    (member ballot : Nat) (anchor : TrimAnchor) (chosenThrough first last reported : Nat)
    (more : Bool) :
    Adds P σ (onPromiseRange P σ member ballot anchor chosenThrough first last reported more).1
      (2 * P.C) (P.M * P.C + P.M + 1) 0 := by
  unfold onPromiseRange
  by_cases hstale : σ.node.role ≠ .preparing ∨ ballot ≠ σ.node.ballot
  · rw [if_pos hstale]
    exact (Adds.refl σ).free
  rw [if_neg hstale]
  rw [not_or, not_not] at hstale
  dsimp only
  have hmanifest : Adds P σ
      { σ with
        node := recordManifest σ.node member anchor chosenThrough first last reported more } 0 0 0 :=
    .ofNode rfl (le_max_right _ _)
  split_ifs
  · exact maybeResolveChunk_adds hn (hchunk hstale.1)
  · exact (Adds.refl σ).free
  · exact (Adds.refl σ).free
  · exact hmanifest.free
  · exact (hmanifest.trans (maybeResolveChunk_adds (hmanifest.sized hn) (hchunk hstale.1))).mono
      (by omega) (by omega) le_rfl

omit [DecidableEq V] in
/-- A campaign adds its promise and its Prepares. -/
theorem startCampaign_adds {σ : St V} (hn : Sized P σ.node) (noop : V) :
    Adds P σ (startCampaign P σ noop).1 1 P.M 0 := by
  unfold startCampaign
  dsimp only
  by_cases hmax : σ.node.deliveredThrough = maxSlot
  · rw [if_pos hmax]
    exact (Adds.refl σ).free
  rw [if_neg hmax]
  cases nextRound P σ.node with
  | none => exact (Adds.refl σ).free
  | some round =>
      refine (Adds.broadcastAll (Adds.addWrite ?_ _) hn _).mono le_rfl
        (Nat.le_of_eq (Nat.zero_add _)) le_rfl
      exact .ofNode rfl (le_max_right _ _)

end Candidate

/-! ## Retransmission -/

/-- A retransmission sends at most one chunk. -/
theorem resendLoop_length (n : Node V) (acknowledged start fuel cursor : Nat) (wrapped : Bool)
    (sent : Nat) (hroom : sent < P.C) :
    (resendLoop P n acknowledged start fuel cursor wrapped sent).1.length + sent ≤ P.C := by
  induction fuel generalizing cursor wrapped sent with
  | zero =>
      show 0 + sent ≤ P.C
      omega
  | succ fuel ih =>
      unfold resendLoop
      rcases resendNext P n.ledger start cursor wrapped with ⟨_ | cell, cursor', wrapped'⟩
      · show 0 + sent ≤ P.C
        omega
      · dsimp only
        cases resendMessage n acknowledged cell with
        | none => exact ih (cell + 1) wrapped' sent hroom
        | some msg =>
            dsimp only
            by_cases hlast : sent + 1 = P.C
            · rw [if_pos hlast]
              show 1 + sent ≤ P.C
              omega
            · rw [if_neg hlast]
              have := ih (cell + 1) wrapped' (sent + 1) (by omega)
              rw [List.length_cons]
              omega

/-- Resending to one peer takes at most a chunk of messages and one `Learn`. -/
theorem resendTo_adds (σ : St V) (peer : Nat) : Adds P σ (resendTo P σ peer) 0 (P.C + 1) 0 := by
  unfold resendTo
  cases membershipIndexOf σ.node.membership peer with
  | none => exact (Adds.refl σ).free
  | some i =>
      dsimp only
      generalize hlearn : (if σ.node.peerDecidedThrough i > σ.node.deliveredThrough then
        requestLearn P σ peer else σ) = τ
      have hτ : Adds P σ τ 0 1 0 := by
        subst hlearn
        split_ifs
        · exact (Adds.refl σ).requestLearn peer
        · exact (Adds.refl σ).free
      refine Adds.withNode ((hτ.addMessages P.C ?_).mono le_rfl (by omega) le_rfl) rfl
        (le_max_right _ _)
      rw [List.length_map]
      exact resendLoop_length _ _ _ _ _ _ 0 P.chunk_pos

/-- Resending to all peers takes that much for each of them. -/
theorem resendAll_adds (peers : List Nat) (σ : St V) :
    Adds P σ (peers.foldl (resendTo P) σ) 0 ((P.C + 1) * peers.length) 0 := by
  induction peers generalizing σ with
  | nil => exact .refl σ
  | cons peer peers ih =>
      rw [List.foldl_cons, List.length_cons, Nat.mul_succ]
      exact ((resendTo_adds σ peer).trans (ih _)).mono le_rfl (by omega) le_rfl

/-- Retransmission to every peer adds one chunk and one catch-up request for each. -/
theorem resendToPeers_adds {σ : St V} (hn : Sized P σ.node) :
    Adds P σ (resendToPeers P σ) 0 ((P.C + 1) * P.M) 0 :=
  (resendAll_adds _ σ).mono le_rfl
    (Nat.mul_le_mul_left _ ((List.length_filter_le _ _).trans hn)) le_rfl

/-! ## The owner -/

section Owner

variable [DecidableEq V]

/-- A suggestion adds what a proposal adds; one that finds no room adds nothing. -/
theorem proposeOwnedLoop_adds {σ : St V} (hn : Sized P σ.node) (value : V) (fuel : Nat) :
    Adds P σ (proposeOwnedLoop P value fuel σ).1 2 P.M 0 ∧
      ((proposeOwnedLoop P value fuel σ).2.2 = .windowFull →
        Adds P σ (proposeOwnedLoop P value fuel σ).1 0 0 0) := by
  induction fuel generalizing σ with
  | zero => exact ⟨(Adds.refl σ).free, fun _ => .refl σ⟩
  | succ fuel ih =>
      unfold proposeOwnedLoop
      have hnext : Adds P σ { σ with node := (nextUsableOwnSlot P σ.node).1 } 0 0 0 := by
        unfold nextUsableOwnSlot
        cases ownSlotProbe P σ.node σ.node.ownNext <;> exact .ofNode rfl (le_max_right _ _)
      rcases hslot : nextUsableOwnSlot P σ.node with ⟨n, e | slot⟩
      · rw [hslot] at hnext
        exact ⟨hnext.free, fun _ => hnext⟩
      · rw [hslot] at hnext
        dsimp only at hnext ⊢
        obtain ⟨hsend, hrefused, hfull⟩ := sendAccept_adds (P := P) (hnext.sized hn) slot
          (ownershipBallot n.id) value
        rcases hcase : sendAccept P { σ with node := n } slot (ownershipBallot n.id) value with ⟨τ, e⟩
        rw [hcase] at hsend hrefused hfull
        cases e with
        | notLeader =>
            have hskip : Adds P σ
                { τ with node := { τ.node with ownNext := ownSlotFrom τ.node (slot + 1) } } 0 0 0 :=
              (hnext.trans (hrefused rfl)).withNode rfl (le_max_right _ _)
            obtain ⟨hloop, hnothing⟩ := ih (hskip.sized hn)
            exact ⟨(hskip.trans hloop).mono (by omega) (by omega) le_rfl,
              fun h => hskip.trans (hnothing h)⟩
        | none =>
            refine ⟨?_, fun h => (by cases h)⟩
            exact ((hnext.trans hsend).mono (by omega) (by omega) le_rfl).withNode rfl
              (le_max_right _ _)
        | windowFull => exact absurd rfl hfull
        | _ =>
            exact ⟨(hnext.trans hsend).mono (by omega) (by omega) le_rfl, fun h => (by cases h)⟩

/-- A suggestion in an own slot takes no more than a proposal. -/
theorem proposeOwned_adds {σ : St V} (hn : Sized P σ.node) (value : V) :
    Adds P σ (proposeOwned P σ value).1 2 P.M 0 ∧
      ((proposeOwned P σ value).2.2 = .windowFull →
        Adds P σ (proposeOwned P σ value).1 0 0 0) :=
  proposeOwnedLoop_adds hn value (P.W + 1)

/-- What the proposals of a loop of `fuel` rounds add: those that were made count, and a loop that
fails has at most used up its rounds. -/
structure Proposals (P : Params) (σ : St V) (fuel sent : Nat) (r : St V × Nat × Error) : Prop where
  made : r.2.2 = .none → sent ≤ r.2.1 ∧ r.2.1 ≤ sent + fuel ∧
    Adds P σ r.1 (2 * (r.2.1 - sent)) (P.M * (r.2.1 - sent)) 0
  all : Adds P σ r.1 (2 * fuel) (P.M * fuel) 0

omit [DecidableEq V] in
/-- A loop that ends with nothing more proposed. -/
theorem Proposals.stop {σ τ : St V} {fuel sent : Nat} {e : Error} (h : Adds P σ τ 0 0 0) :
    Proposals P σ fuel sent (τ, sent, e) := by
  refine ⟨fun _ => ⟨le_rfl, Nat.le_add_right _ _, ?_⟩, h.free⟩
  exact h.free

omit [DecidableEq V] in
/-- One proposal, and the rest of the loop. -/
theorem Proposals.more {σ τ : St V} {fuel sent : Nat} {r : St V × Nat × Error}
    (hstep : Adds P σ τ 2 P.M 0) (h : Proposals P τ fuel (sent + 1) r) :
    Proposals P σ (fuel + 1) sent r := by
  refine ⟨fun hok => ?_, ?_⟩
  · obtain ⟨hle, hbound, hadds⟩ := h.made hok
    have hcount : r.2.1 - sent = (r.2.1 - (sent + 1)) + 1 := by omega
    refine ⟨by omega, by omega, (hstep.trans hadds).mono (by omega) ?_ le_rfl⟩
    rw [hcount, Nat.mul_succ]
    omega
  · exact (hstep.trans h.all).mono (by omega) (by rw [Nat.mul_succ]; omega) le_rfl

omit [DecidableEq V] in
/-- A loop that ends with an error. -/
theorem Proposals.fail {σ τ : St V} {fuel sent : Nat} {e : Error} (hstep : Adds P σ τ 2 P.M 0)
    (he : e ≠ .none) : Proposals P σ (fuel + 1) sent (τ, sent, e) :=
  ⟨fun h => absurd h he, hstep.mono (by omega) (by rw [Nat.mul_succ]; omega) le_rfl⟩

/-- The skips of a tick take one proposal each. -/
theorem skipLoop_adds {σ : St V} (hn : Sized P σ.node) (noop : V) (fuel sent : Nat) :
    Proposals P σ fuel sent (skipLoop P noop fuel σ sent) := by
  induction fuel generalizing σ sent with
  | zero => exact .stop (.refl σ)
  | succ fuel ih =>
      unfold skipLoop
      by_cases hidle : σ.node.ownNext ≤ σ.node.highestSeen
      · rw [if_pos hidle]
        obtain ⟨hpropose, hfull⟩ := proposeOwned_adds (P := P) hn noop
        rcases hcase : proposeOwned P σ noop with ⟨τ, slot, e⟩
        rw [hcase] at hpropose hfull
        cases e with
        | windowFull => exact .stop (hfull rfl)
        | none => exact .more hpropose (ih (hpropose.sized hn) (sent + 1))
        | _ => exact .fail hpropose nofun
      · rw [if_neg hidle]
        exact .stop (.refl σ)

/-- So do the resubmissions of a tick. -/
theorem drainLoop_adds {σ : St V} (hn : Sized P σ.node) (fuel sent : Nat) :
    Proposals P σ fuel sent (drainLoop P fuel σ sent) := by
  induction fuel generalizing σ sent with
  | zero => exact .stop (.refl σ)
  | succ fuel ih =>
      unfold drainLoop
      cases σ.node.resubmit with
      | nil => exact .stop (.refl σ)
      | cons value rest =>
          dsimp only
          obtain ⟨hpropose, hfull⟩ := proposeOwned_adds (P := P) hn value
          rcases hcase : proposeOwned P σ value with ⟨τ, slot, e⟩
          rw [hcase] at hpropose hfull
          dsimp only at hpropose
          cases e with
          | windowFull => exact .stop (hfull rfl)
          | none =>
              have hremove : Adds P σ
                  { τ with node := { τ.node with resubmit := τ.node.resubmit.tail } } 2 P.M 0 := by
                refine hpropose.withNode rfl ?_
                rw [List.length_tail]
                omega
              exact .more hremove (ih (hremove.sized hn) (sent + 1))
          | _ => exact .fail hpropose nofun

omit [DecidableEq V] in
/-- A revocation adds the promises of one chunk, and its Prepares. -/
theorem startRevocation_adds {σ : St V} (hn : Sized P σ.node) (noop : V) :
    Adds P σ (startRevocation P σ noop).1 P.C P.M 0 := by
  unfold startRevocation
  dsimp only
  cases nextRound P σ.node with
  | none => exact (Adds.refl σ).free
  | some round =>
      dsimp only
      by_cases hmax : σ.node.deliveredThrough = maxSlot
      · rw [if_pos hmax]
        exact (Adds.refl σ).free
      rw [if_neg hmax]
      have hpromise := promiseBounded_adds (P := P) σ (ballotMake round σ.node.priority σ.node.id)
        (σ.node.deliveredThrough + 1) (revocationLast P σ.node (σ.node.deliveredThrough + 1))
      rcases hcase : promiseBounded P σ (ballotMake round σ.node.priority σ.node.id)
        (σ.node.deliveredThrough + 1) (revocationLast P σ.node (σ.node.deliveredThrough + 1)) with
        ⟨τ, _ | _⟩
      · rw [hcase] at hpromise
        dsimp only at hpromise ⊢
        refine Adds.mono ?_ le_rfl (Nat.zero_le _) le_rfl
        exact hpromise.withNode rfl (le_max_right _ _)
      · rw [hcase] at hpromise
        dsimp only at hpromise ⊢
        refine (Adds.broadcastAll ?_ hn _).mono le_rfl (Nat.le_of_eq (Nat.zero_add _)) le_rfl
        exact hpromise.withNode rfl (le_max_right _ _)

omit [DecidableEq V] in
/-- The quiet part of an ownership tick. -/
theorem tickStalled_adds {σ : St V} (hn : Sized P σ.node) (hM : 0 < P.M) (noop : V)
    (proposed : Nat) :
    Adds P σ (tickStalled P σ noop proposed).1 (if proposed = 0 then P.C else 0)
      (if proposed = 0 then (P.C + 1) * P.M + P.M else 1) 0 := by
  unfold tickStalled
  dsimp only
  generalize hresend : (if proposed = 0 ∧ σ.node.resendTicks ≥ σ.node.resendIntervalTicks then
    resendToPeers P { σ with node := { σ.node with resendTicks := 0 } } else σ) = τ
  have hτ : Adds P σ τ 0 (if proposed = 0 then (P.C + 1) * P.M else 0) 0 := by
    subst hresend
    by_cases hquiet : proposed = 0 ∧ σ.node.resendTicks ≥ σ.node.resendIntervalTicks
    · rw [if_pos hquiet, if_pos hquiet.1]
      have hreset : Adds P σ { σ with node := { σ.node with resendTicks := 0 } } 0 0 0 :=
        .ofNode rfl (le_max_right _ _)
      exact (hreset.trans (resendToPeers_adds (hreset.sized hn))).mono le_rfl
        (Nat.le_of_eq (Nat.zero_add _)) le_rfl
    · rw [if_neg hquiet]
      exact (Adds.refl σ).free
  have hmessages : (if proposed = 0 then (P.C + 1) * P.M else 0) + 1 ≤
      (if proposed = 0 then (P.C + 1) * P.M + P.M else 1) := by
    split_ifs <;> omega
  have hquiet : ∀ ticks, Adds P σ { τ with node := { τ.node with stallTicks := ticks } } 0
      (if proposed = 0 then (P.C + 1) * P.M else 0) 0 := fun _ => hτ.withNode rfl (le_max_right _ _)
  by_cases hcaught : τ.node.deliveredThrough ≥ τ.node.highestSeen
  · rw [if_pos hcaught]
    exact (hquiet 0).mono (Nat.zero_le _) (by omega) le_rfl
  rw [if_neg hcaught]
  have hstalled := hquiet (saturatingIncrement τ.node.stallTicks)
  by_cases hrevoke : saturatingIncrement τ.node.stallTicks ≥ τ.node.electionTimeoutTicks ∧
      proposed = 0
  · rw [if_pos hrevoke]
    refine (hstalled.trans (startRevocation_adds (hstalled.sized hn) noop)).mono ?_ ?_ le_rfl
    · rw [if_pos hrevoke.2]
      omega
    · rw [if_pos hrevoke.2, if_pos hrevoke.2]
  rw [if_neg hrevoke]
  have hmute := hstalled.mono (Nat.zero_le (if proposed = 0 then P.C else 0))
    (Nat.le_of_succ_le hmessages) le_rfl
  generalize (if proposed = 0 then P.C else 0) = writes at hmute ⊢
  generalize (if proposed = 0 then (P.C + 1) * P.M + P.M else 1) = messages at hmessages hmute ⊢
  split_ifs
  · exact (hstalled.requestLearn _).mono (Nat.zero_le _) hmessages le_rfl
  · exact hmute
  · exact hmute

/-- The ownership side of a tick: at most one chunk of proposals, or a quiet tick. -/
theorem tickOwnership_adds {σ : St V} (hn : Sized P σ.node)
    (hchunk : σ.node.role = .preparing → σ.node.recoverLast < σ.node.recoverBase + P.C)
    (hqueue : σ.node.resubmit.length ≤ P.C) (noop : V) :
    Adds P σ (tickOwnership P σ noop).1 (2 * P.C + 1) (P.M * P.C + 2 * P.M + 1) 0 := by
  have hM := P.members_pos
  unfold tickOwnership
  by_cases hrole : σ.node.role = .preparing
  · rw [if_pos hrole]
    split_ifs
    · exact (maybeResolveChunk_adds hn (hchunk hrole)).mono (by omega) (by omega) le_rfl
    · exact (startRevocation_adds hn noop).mono (by omega) (by omega) le_rfl
  rw [if_neg hrole]
  have hdrain := drainLoop_adds (P := P) hn σ.node.resubmit.length 0
  unfold drainResubmits
  rcases hcase : drainLoop P σ.node.resubmit.length σ 0 with ⟨τ, drained, e⟩
  rw [hcase] at hdrain
  have hshared : ∀ k, k ≤ P.C → P.M * k ≤ P.M * P.C := fun k hk => Nat.mul_le_mul_left _ hk
  cases e with
  | none =>
      obtain ⟨-, hdrained, hmade⟩ := hdrain.made rfl
      dsimp only at hdrained hmade ⊢
      have hskip := skipLoop_adds (P := P) (hmade.sized hn) noop (min (P.C - drained) skipBurst) 0
      unfold skipIdleSlots
      rcases hcase' : skipLoop P noop (min (P.C - drained) skipBurst) τ 0 with ⟨ρ, skipped, e⟩
      rw [hcase'] at hskip
      have hbudget := min_le_left (P.C - drained) skipBurst
      cases e with
      | none =>
          obtain ⟨-, hskipped, hmade'⟩ := hskip.made rfl
          dsimp only at hskipped hmade' ⊢
          have hproposed := hmade.trans hmade'
          refine (hproposed.trans (tickStalled_adds (hproposed.sized hn) hM noop
            (drained + skipped))).mono ?_ ?_ le_rfl
          · split_ifs <;> omega
          · have hmul : P.M * (drained - 0) + P.M * (skipped - 0) = P.M * (drained + skipped) := by
              rw [Nat.mul_add, Nat.sub_zero, Nat.sub_zero]
            rw [hmul]
            split_ifs with hquiet
            · rw [hquiet, Nat.mul_zero, Nat.add_mul, Nat.mul_comm P.C P.M]
              omega
            · have := hshared (drained + skipped) (by omega)
              omega
      | _ =>
          have hall := hmade.trans hskip.all
          refine hall.mono (by omega) ?_ le_rfl
          rw [Nat.sub_zero, ← Nat.mul_add]
          have := hshared (drained + min (P.C - drained) skipBurst) (by omega)
          omega
  | _ =>
      refine hdrain.all.mono (by omega) ?_ le_rfl
      have := hshared σ.node.resubmit.length hqueue
      omega

end Owner

end PaxosOdin
