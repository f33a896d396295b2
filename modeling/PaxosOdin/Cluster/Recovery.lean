import PaxosOdin.Cluster.Answers
import PaxosOdin.Cluster.Decisions
import PaxosOdin.Synod.Safety

/-!
# What a candidate may propose

A candidate proposes the recovered vote of a slot, or the no-op where nothing was recovered, once a
read quorum has described its chunk.  As long as the answers of the members are true, a value that is
proposed so is safe: at every lower ballot no other value was or will be chosen.

There is one exception.  A member that has learned of a decision a window later has given the cell
away and reports nothing.  Unless the slot lies behind a reported frontier, the decision then fell at
a later ballot, so the slot is overtaken: the candidate is no longer heeded by any read quorum, and
what it proposes is never chosen.

Main definitions:

- Definition `Known`: what is known of the durable records and of the answers on the network.
- Definition `Founded`: a vote for a safe value, or at a ballot that was overtaken.
- Definition `Heeds`: what the scratch of a candidate stands for.

Main results:

- Theorem `Heeds.complete`: what a member that is counted as complete has promised and reported.
- Theorem `Heeds.late`: a decision a window later fell at a later ballot.
- Theorem `Heeds.silent`: where nothing was recovered, a read quorum is silent.
- Theorem `Heeds.safe`: what a candidate proposes is safe.
-/

namespace PaxosOdin

variable {V : Type} {P : Params} {I : Input V}

/-! ## What is known -/

/-- The quorums of a valid membership, counted by size. -/
def Membership.quorums (M : Membership) (hm : M.Valid) : Synod.QuorumSystem Nat :=
  .ofSizes M.members.toFinset M.readQuorumSize M.writeQuorumSize
    ((List.toFinset_card_le _).trans_lt hm.intersect)

/-- A decided value is chosen at some ballot. -/
theorem Ratified.chosenAt {M : Membership} (hm : M.Valid) {logs : Nat → Log V} {slot : Nat}
    {value : V} (h : Ratified M logs slot value) :
    ∃ ballot, Synod.ChosenAt (M.quorums hm) (Synod.Board.ofLogs logs slot) ballot value := by
  obtain ⟨ballot, q, hq, hcard⟩ := h
  refine ⟨ballot, q, ⟨fun m hmem => ?_, hcard⟩, fun m hmem => (hq m hmem).2⟩
  exact List.mem_toFinset.mpr (hq m hmem).1

/-- A read quorum promised the ballot. -/
def Elected (M : Membership) (hm : M.Valid) (D : Nat → Log V) (ballot : Nat) : Prop :=
  ∃ q ∈ (M.quorums hm).read, ∀ a ∈ q, .promise ballot ∈ D a

/-- A slot a window above was decided at a later ballot. -/
def Overtaken (M : Membership) (hm : M.Valid) (P : Params) (D : Nat → Log V) (ballot slot : Nat) :
    Prop :=
  ∃ later above value, ballot < later ∧ slot + P.W ≤ above ∧
    Synod.ChosenAt (M.quorums hm) (Synod.Board.ofLogs D above) later value

/-- A vote at a ballot that was won, for a value that is safe, unless the ballot is dead for the slot
because it was overtaken. -/
structure Founded (M : Membership) (hm : M.Valid) (P : Params) (D : Nat → Log V)
    (ballot slot : Nat) (value : V) : Prop where
  round : 0 < ballotRound ballot
  room : slot < maxSlot
  elected : Elected M hm D ballot
  safe : Synod.SafeAt (M.quorums hm) (Synod.Board.ofLogs D slot) ballot value ∨
    (Synod.Dead (M.quorums hm) (Synod.Board.ofLogs D slot) ballot ∧
      Overtaken M hm P D ballot slot)

/-- What is known of the durable records `D` of the members and of the network: the answers are
true, every vote is founded, one ballot carries one value, and every decision was voted for. -/
structure Known (M : Membership) (hm : M.Valid) (P : Params) (net : List (Envelope V))
    (D : Nat → Log V) : Prop where
  told : ∀ id ballot s vote state value, Told net id ballot s vote state value →
    Truthful (D id) ballot s vote state value
  manifests : ∀ e ∈ net, ∀ ballot anchor through first last reported more,
    e.message = .promiseRange ballot anchor through first last reported more →
      Answered P (D e.sender) net net e.sender ballot anchor through first last reported more
  votes : ∀ id b s v, .vote b s v ∈ D id → Founded M hm P D b s v
  unique : ∀ id id' b s v w, .vote b s v ∈ D id → .vote b s w ∈ D id' → v = w
  decided : ∀ id s, .decided s ∈ D id → ∃ value, Ratified M D s value

section Growth

variable {M : Membership} {hm : M.Valid} {D D' : Nat → Log V} {ballot slot : Nat}

/-- What was won stays won while the records grow. -/
theorem Elected.mono (h : Elected M hm D ballot) (hgrow : ∀ a, ∃ more, D' a = D a ++ more) :
    Elected M hm D' ballot := by
  obtain ⟨q, hq, hall⟩ := h
  refine ⟨q, hq, fun a ha => ?_⟩
  obtain ⟨more, hmore⟩ := hgrow a
  rw [hmore]
  exact List.mem_append_left _ (hall a ha)

/-- What was overtaken stays so. -/
theorem Overtaken.mono (h : Overtaken M hm P D ballot slot)
    (hgrow : ∀ a, ∃ more, D' a = D a ++ more) (hlawful : ∀ a, Synod.Lawful (D' a)) :
    Overtaken M hm P D' ballot slot := by
  obtain ⟨later, above, value, hlater, habove, hchosen⟩ := h
  exact ⟨later, above, value, hlater, habove,
    hchosen.mono (Synod.Board.ofLogs_extends hgrow hlawful above)⟩

/-- A vote stays founded. -/
theorem Founded.mono {value : V} (h : Founded M hm P D ballot slot value)
    (hgrow : ∀ a, ∃ more, D' a = D a ++ more) (hlawful : ∀ a, Synod.Lawful (D' a)) :
    Founded M hm P D' ballot slot value := by
  have hext := Synod.Board.ofLogs_extends hgrow hlawful slot
  refine ⟨h.round, h.room, h.elected.mono hgrow, ?_⟩
  rcases h.safe with hsafe | ⟨hdead, hovertaken⟩
  · exact Or.inl (hsafe.mono hext)
  · exact Or.inr ⟨hdead.mono hext, hovertaken.mono hgrow hlawful⟩

/-- A ballot that was overtaken in a slot without votes is dead there: the quorum of the later ballot
closed it. -/
theorem Overtaken.dead {net : List (Envelope V)} (h : Overtaken M hm P D ballot slot)
    (hk : Known M hm P net D) (hnone : ∀ a v, .vote ballot slot v ∉ D a) :
    Synod.Dead (M.quorums hm) (Synod.Board.ofLogs D slot) ballot := by
  obtain ⟨later, above, value, hlater, -, r, hr, hvotes⟩ := h
  obtain ⟨a, ha⟩ := Finset.card_pos.mp (Nat.lt_of_lt_of_le hm.write_pos hr.2)
  obtain ⟨q, hq, hall⟩ := (hk.votes a later above value (hvotes a ha)).elected
  exact ⟨q, hq, fun a ha => ⟨⟨later, hlater, Or.inl (hall a ha)⟩, fun w hw => hnone a w hw⟩⟩

end Growth

/-! ## Merging reports -/

/-- The scratch entry of the slot holds a decision, or a vote that is not older than the reported
one. -/
def Recovered.Covers (r : Recovered V) (slot vote : Nat) (state : CellState) : Prop :=
  r.slot = slot ∧ (r.state = .chosen ∨ (r.state = .voted ∧ state = .voted ∧ vote ≤ r.ballot))

section Merging

variable [DecidableEq V]

/-- What a further report makes of a scratch entry. -/
theorem mergeReport_cases (r : Recovered V) (slot vote : Nat) (state : CellState) (value : V) :
    ((r.slot ≠ slot ∨ r.state = .empty) ∧
      (mergeReport r slot vote state value).1 = ⟨slot, vote, state, value⟩) ∨
    (r.slot = slot ∧ ((mergeReport r slot vote state value).1 = r ∧
        (r.state = .chosen ∨ (r.state = .voted ∧ state ≠ .chosen ∧ vote ≤ r.ballot)) ∨
      r.state = .voted ∧ (state = .chosen ∧
          (mergeReport r slot vote state value).1 = { r with state := .chosen, value := value } ∨
        state ≠ .chosen ∧ r.ballot < vote ∧
          (mergeReport r slot vote state value).1 = { r with ballot := vote, value := value }))) := by
  unfold mergeReport
  dsimp only
  by_cases hslot : r.slot = slot
  · rw [if_neg (not_not.mpr hslot)]
    cases hr : r.state with
    | empty => exact Or.inl ⟨Or.inr rfl, by rw [← hslot]⟩
    | chosen => exact Or.inr ⟨hslot, Or.inl ⟨rfl, Or.inl rfl⟩⟩
    | voted =>
        refine Or.inr ⟨hslot, ?_⟩
        dsimp only
        by_cases hchosen : state = .chosen
        · rw [if_pos hchosen]
          exact Or.inr ⟨rfl, Or.inl ⟨hchosen, rfl⟩⟩
        rw [if_neg hchosen]
        by_cases hsame : vote = r.ballot
        · rw [if_pos hsame]
          exact Or.inl ⟨rfl, Or.inr ⟨rfl, hchosen, hsame.le⟩⟩
        rw [if_neg hsame]
        by_cases hlater : vote > r.ballot
        · rw [if_pos hlater]
          exact Or.inr ⟨rfl, Or.inr ⟨hchosen, hlater, by rw [← hr]⟩⟩
        · rw [if_neg hlater]
          exact Or.inl ⟨rfl, Or.inr ⟨rfl, hchosen, by omega⟩⟩
  · rw [if_pos hslot]
    exact Or.inl ⟨Or.inl hslot, rfl⟩

/-- A merged report is covered. -/
theorem mergeReport_covers (r : Recovered V) (slot vote : Nat) {state : CellState} (value : V)
    (hstate : state ≠ .empty) : (mergeReport r slot vote state value).1.Covers slot vote state := by
  have hvoted : state ≠ .chosen → state = .voted := by
    intro hchosen
    cases state with
    | empty => exact absurd rfl hstate
    | chosen => exact absurd rfl hchosen
    | voted => rfl
  rcases mergeReport_cases r slot vote state value with ⟨-, heq⟩ | ⟨hslot, ⟨heq, hr⟩ |
    ⟨hr, ⟨-, heq⟩ | ⟨hchosen, -, heq⟩⟩⟩
  · rw [heq]
    by_cases hchosen : state = .chosen
    · exact ⟨rfl, Or.inl hchosen⟩
    · exact ⟨rfl, Or.inr ⟨hvoted hchosen, hvoted hchosen, le_rfl⟩⟩
  · rw [heq]
    exact ⟨hslot, hr.imp_right fun ⟨hr, hchosen, hle⟩ => ⟨hr, hvoted hchosen, hle⟩⟩
  · rw [heq]
    exact ⟨hslot, Or.inl rfl⟩
  · rw [heq]
    exact ⟨hslot, Or.inr ⟨hr, hvoted hchosen, le_rfl⟩⟩

/-- What was covered stays covered. -/
theorem Recovered.Covers.merge {r : Recovered V} {slot vote' : Nat} {state' : CellState}
    (h : r.Covers slot vote' state') (vote : Nat) (state : CellState) (value : V) :
    (mergeReport r slot vote state value).1.Covers slot vote' state' := by
  obtain ⟨hslot, hcovers⟩ := h
  rcases mergeReport_cases r slot vote state value with ⟨hfresh, -⟩ | ⟨-, ⟨heq, -⟩ |
    ⟨hr, ⟨-, heq⟩ | ⟨-, hlater, heq⟩⟩⟩
  · rcases hfresh with hother | hempty
    · exact absurd hslot hother
    · rw [hempty] at hcovers
      rcases hcovers with hr | ⟨hr, -⟩ <;> cases hr
  · rw [heq]
    exact ⟨hslot, hcovers⟩
  · rw [heq]
    exact ⟨hslot, Or.inl rfl⟩
  · rw [heq]
    rw [hr] at hcovers
    rcases hcovers with hr | ⟨-, hstate, hle⟩
    · cases hr
    · exact ⟨hslot, Or.inr ⟨hr, hstate, hle.trans hlater.le⟩⟩

/-- A vote in the scratch was there before, or is the reported one. -/
theorem mergeReport_voted {r : Recovered V} {slot vote : Nat} {state : CellState} {value : V}
    (hstate : state ≠ .empty) (h : (mergeReport r slot vote state value).1.state = .voted) :
    (mergeReport r slot vote state value).1 = r ∨
      (state = .voted ∧ (mergeReport r slot vote state value).1.slot = slot ∧
        (mergeReport r slot vote state value).1.ballot = vote ∧
          (mergeReport r slot vote state value).1.value = value) := by
  rcases mergeReport_cases r slot vote state value with ⟨-, heq⟩ | ⟨hslot, ⟨heq, -⟩ |
    ⟨hr, ⟨-, heq⟩ | ⟨hchosen, -, heq⟩⟩⟩
  · rw [heq] at h ⊢
    exact Or.inr ⟨h, rfl, rfl, rfl⟩
  · exact Or.inl heq
  · rw [heq] at h
    cases h
  · rw [heq]
    cases state with
    | empty => exact absurd rfl hstate
    | chosen => exact absurd rfl hchosen
    | voted => exact Or.inr ⟨rfl, hslot, rfl, rfl⟩

end Merging

/-! ## The scratch of a candidate -/

/-- The fields that the reports of a chunk are gathered in. -/
structure Scratch (V : Type) where
  membership : Membership
  ballot : Nat
  recoverBase : Nat
  recoverLast : Nat
  election : Nat → ElectionPeer
  promiseSeen : Nat → Finset Nat
  recovered : Nat → Recovered V
  recoveryReady : Bool
  recoveryMore : Bool

/-- The scratch of a node. -/
def Node.scratch (n : Node V) : Scratch V where
  membership := n.membership
  ballot := n.ballot
  recoverBase := n.recoverBase
  recoverLast := n.recoverLast
  election := n.election
  promiseSeen := n.promiseSeen
  recovered := n.recovered
  recoveryReady := n.recoveryReady
  recoveryMore := n.recoveryMore

/-- What the scratch of a candidate stands for: what it took from a manifest is what the manifest
says, each counted Promise was sent and is covered, each recovered vote was reported, and a frozen
selection is that of a read quorum. -/
structure Heeds (net : List (Envelope V)) (n : Node V) : Prop where
  described : ∀ i a, n.membership.members[i]? = some a → (n.election i).rangeDescribed = true →
    ∃ e ∈ net, e.sender = a ∧ ∃ anchor through, e.message = .promiseRange n.ballot anchor through
      n.recoverBase n.recoverLast (n.election i).expectedInRange (n.election i).more ∧
        through ≤ (n.election i).chosenThrough
  received : ∀ i a, n.membership.members[i]? = some a →
    (n.election i).receivedInRange ≤ (n.promiseSeen i).card
  seen : ∀ i a, n.membership.members[i]? = some a → ∀ p ∈ n.promiseSeen i,
    n.recoverBase + p ≤ n.recoverLast ∧ ∃ vote state value,
      Told net a n.ballot (n.recoverBase + p) vote state value ∧
        (n.recovered p).Covers (n.recoverBase + p) vote state
  votes : ∀ p, (n.recovered p).state = .voted → ∃ a,
    Told net a n.ballot (n.recovered p).slot (n.recovered p).ballot .voted (n.recovered p).value
  frozen : n.recoveryReady = true →
    n.membership.readQuorumSize ≤ (completeMembers n).length ∧
      n.recoveryMore = (completeMembers n).any fun i => (n.election i).more

section Heeding

variable {net : List (Envelope V)} {n n' : Node V}

/-- The scratch is all that matters. -/
theorem Heeds.congr (h : Heeds net n) (hscratch : n'.scratch = n.scratch) : Heeds net n' := by
  obtain ⟨hmembership, hballot, hbase, hlast, helection, hseen, hrecovered, hready, hmore⟩ :
      n'.membership = n.membership ∧ n'.ballot = n.ballot ∧ n'.recoverBase = n.recoverBase ∧
        n'.recoverLast = n.recoverLast ∧ n'.election = n.election ∧
          n'.promiseSeen = n.promiseSeen ∧ n'.recovered = n.recovered ∧
            n'.recoveryReady = n.recoveryReady ∧ n'.recoveryMore = n.recoveryMore := by
    simpa [Node.scratch] using hscratch
  have hcomplete : completeMembers n' = completeMembers n := by
    unfold completeMembers peerComplete
    rw [hmembership, helection]
  constructor
  · rw [hmembership, hballot, hbase, hlast, helection]
    exact h.described
  · rw [hmembership, helection, hseen]
    exact h.received
  · rw [hmembership, hballot, hbase, hlast, hseen, hrecovered]
    exact h.seen
  · rw [hballot, hrecovered]
    exact h.votes
  · rw [hmembership, hready, hmore, hcomplete, helection]
    exact h.frozen

/-- What the scratch stands for stays true in a greater network. -/
theorem Heeds.mono {net' : List (Envelope V)} (h : Heeds net n) (hle : net ⊆ net') :
    Heeds net' n := by
  constructor
  · intro i a ha hdescribed
    obtain ⟨e, he, hmanifest⟩ := h.described i a ha hdescribed
    exact ⟨e, hle he, hmanifest⟩
  · exact h.received
  · intro i a ha p hp
    obtain ⟨hlast, vote, state, value, htold, hcovers⟩ := h.seen i a ha p hp
    exact ⟨hlast, vote, state, value, htold.mono hle, hcovers⟩
  · intro p hp
    obtain ⟨a, htold⟩ := h.votes p hp
    exact ⟨a, htold.mono hle⟩
  · exact h.frozen

/-- A scratch that was just cleared. -/
theorem Heeds.fresh (helection : ∀ i a, n.membership.members[i]? = some a →
      (n.election i).rangeDescribed = false ∧ (n.election i).receivedInRange = 0)
    (hseen : ∀ i, n.promiseSeen i = ∅) (hrecovered : ∀ p, (n.recovered p).state = .empty)
    (hready : n.recoveryReady = false) : Heeds net n := by
  constructor
  · intro i a ha hdescribed
    rw [(helection i a ha).1] at hdescribed
    cases hdescribed
  · intro i a ha
    rw [(helection i a ha).2]
    exact Nat.zero_le _
  · intro i a _ p hp
    rw [hseen i] at hp
    exact absurd hp (Finset.notMem_empty p)
  · intro p hp
    rw [hrecovered p] at hp
    cases hp
  · intro hfrozen
    rw [hready] at hfrozen
    cases hfrozen

/-- The selection is frozen when a read quorum has described the chunk. -/
theorem Heeds.freeze (h : Heeds net n)
    (hquorum : n.membership.readQuorumSize ≤ (completeMembers n).length) :
    Heeds net { n with
      recoveryReady := true
      recoveryMore := (completeMembers n).any fun i => (n.election i).more } :=
  ⟨h.described, h.received, h.seen, h.votes, fun _ => ⟨hquorum, rfl⟩⟩

/-- What the offset of a slot says. -/
theorem recoveryIndex_eq_some {slot offset : Nat} (h : recoveryIndex P n slot = some offset) :
    n.recoverBase + offset = slot ∧ slot ≤ n.recoverLast := by
  unfold recoveryIndex at h
  split_ifs at h with houtside hfar
  cases h
  omega

/-- A further report of a member. -/
theorem Heeds.report [DecidableEq V] (h : Heeds net n) (hopen : n.recoveryReady = false)
    {member offset slot vote a : Nat} {state : CellState} {value : V}
    (hmember : n.membership.members[member]? = some a)
    (htold : Told net a n.ballot slot vote state value)
    (hoffset : recoveryIndex P n slot = some offset) (hstate : state ≠ .empty) :
    Heeds net (recordReport n member offset slot vote state value).1 := by
  obtain ⟨rfl, hlast⟩ := recoveryIndex_eq_some hoffset
  -- the reports of the member are counted by their slots
  obtain ⟨received, hreceived, heq⟩ : ∃ received,
      received ≤ (insert offset (n.promiseSeen member)).card ∧
        (recordReport n member offset (n.recoverBase + offset) vote state value).1 =
          { n with
            promiseSeen := Function.update n.promiseSeen member
              (insert offset (n.promiseSeen member))
            election := Function.update n.election member
              { n.election member with receivedInRange := received }
            recovered := Function.update n.recovered offset
              (mergeReport (n.recovered offset) (n.recoverBase + offset) vote state value).1 } := by
    have hcount := h.received member a hmember
    unfold recordReport
    dsimp only
    by_cases hseen : offset ∈ n.promiseSeen member
    · refine ⟨(n.election member).receivedInRange, ?_, ?_⟩
      · rw [Finset.insert_eq_of_mem hseen]
        exact hcount
      · rw [if_pos hseen, Finset.insert_eq_of_mem hseen, Function.update_eq_self,
          Function.update_eq_self]
    · refine ⟨(n.election member).receivedInRange + 1, ?_, ?_⟩
      · rw [Finset.card_insert_of_notMem hseen]
        exact Nat.succ_le_succ hcount
      · rw [if_neg hseen]
  rw [heq]
  have hfields : ∀ i, (Function.update n.election member
      { n.election member with receivedInRange := received } i).rangeDescribed =
        (n.election i).rangeDescribed ∧
      (Function.update n.election member
        { n.election member with receivedInRange := received } i).expectedInRange =
          (n.election i).expectedInRange ∧
      (Function.update n.election member
        { n.election member with receivedInRange := received } i).more = (n.election i).more ∧
      (Function.update n.election member
        { n.election member with receivedInRange := received } i).chosenThrough =
          (n.election i).chosenThrough := by
    intro i
    by_cases hi : i = member
    · subst hi
      rw [Function.update_self]
      exact ⟨rfl, rfl, rfl, rfl⟩
    · rw [Function.update_of_ne hi]
      exact ⟨rfl, rfl, rfl, rfl⟩
  constructor
  · intro i b hb hdescribed
    obtain ⟨hsame, hexpected, hmore, hthrough⟩ := hfields i
    obtain ⟨e, he, hmanifest⟩ := h.described i b hb (hsame ▸ hdescribed)
    refine ⟨e, he, ?_⟩
    dsimp only
    rw [hexpected, hmore, hthrough]
    exact hmanifest
  · intro i b hb
    by_cases hi : i = member
    · subst hi
      dsimp only
      rw [Function.update_self, Function.update_self]
      exact hreceived
    · dsimp only
      rw [Function.update_of_ne hi, Function.update_of_ne hi]
      exact h.received i b hb
  · intro i b hb p hp
    have hcovered : ∀ {vote' : Nat} {state' : CellState},
        (n.recovered p).Covers (n.recoverBase + p) vote' state' →
          (Function.update n.recovered offset (mergeReport (n.recovered offset)
            (n.recoverBase + offset) vote state value).1 p).Covers (n.recoverBase + p) vote'
              state' := by
      intro vote' state' hcovers
      by_cases hp : p = offset
      · subst hp
        rw [Function.update_self]
        exact hcovers.merge vote state value
      · rw [Function.update_of_ne hp]
        exact hcovers
    have hp' : (i = member ∧ p = offset) ∨ p ∈ n.promiseSeen i := by
      by_cases hi : i = member
      · subst hi
        dsimp only at hp
        rw [Function.update_self] at hp
        exact (Finset.mem_insert.mp hp).imp_left fun heq => ⟨rfl, heq⟩
      · dsimp only at hp
        rw [Function.update_of_ne hi] at hp
        exact Or.inr hp
    rcases hp' with ⟨rfl, rfl⟩ | hp
    · obtain rfl : a = b := Option.some.inj (hmember.symm.trans hb)
      refine ⟨hlast, vote, state, value, htold, ?_⟩
      dsimp only
      rw [Function.update_self]
      exact mergeReport_covers _ _ _ _ hstate
    · obtain ⟨hinside, vote', state', value', htold', hcovers⟩ := h.seen i b hb p hp
      exact ⟨hinside, vote', state', value', htold', hcovered hcovers⟩
  · intro p hp
    by_cases hoff : p = offset
    · subst hoff
      dsimp only at hp ⊢
      rw [Function.update_self] at hp ⊢
      rcases mergeReport_voted hstate hp with hsame | ⟨rfl, hslot, hballot, hvalue⟩
      · rw [hsame] at hp ⊢
        exact h.votes p hp
      · rw [hslot, hballot, hvalue]
        exact ⟨a, htold⟩
    · dsimp only at hp ⊢
      rw [Function.update_of_ne hoff] at hp ⊢
      exact h.votes p hp
  · intro hready
    exact absurd (hopen.symm.trans hready) (by decide)

/-- A manifest of a member. -/
theorem Heeds.manifest (h : Heeds net n) (hopen : n.recoveryReady = false)
    {member a through first last reported : Nat} {anchor : TrimAnchor} {more : Bool}
    (hmember : n.membership.members[member]? = some a)
    (htold : ∃ e ∈ net, e.sender = a ∧
      e.message = .promiseRange n.ballot anchor through first last reported more)
    (hlast : first = n.recoverBase → last = n.recoverLast) :
    Heeds net (recordManifest n member anchor through first last reported more) := by
  have hothers : ∀ i, i ≠ member →
      (recordManifest n member anchor through first last reported more).election i =
        n.election i := fun i hi => Function.update_of_ne hi _ _
  have hself : ((recordManifest n member anchor through first last reported more).election
      member).receivedInRange = (n.election member).receivedInRange := by
    unfold recordManifest
    dsimp only
    rw [Function.update_self]
    split_ifs <;> rfl
  constructor
  · intro i b hb hdescribed
    by_cases hi : i = member
    · subst hi
      obtain rfl : a = b := Option.some.inj (hmember.symm.trans hb)
      revert hdescribed
      unfold recordManifest
      dsimp only
      rw [Function.update_self]
      by_cases hfirst : first ≠ n.recoverBase
      · rw [if_pos hfirst]
        intro hdescribed
        obtain ⟨e, he, hid, anchor', through', hmsg, hle⟩ := h.described i a hmember hdescribed
        exact ⟨e, he, hid, anchor', through', hmsg, hle.trans (le_max_left _ _)⟩
      · rw [if_neg hfirst]
        intro _
        obtain rfl := not_not.mp hfirst
        obtain rfl := hlast rfl
        obtain ⟨e, he, hid, hmsg⟩ := htold
        exact ⟨e, he, hid, anchor, through, hmsg, le_max_right _ _⟩
    · rw [hothers i hi] at hdescribed ⊢
      exact h.described i b hb hdescribed
  · intro i b hb
    by_cases hi : i = member
    · subst hi
      rw [hself]
      exact h.received i b hb
    · rw [hothers i hi]
      exact h.received i b hb
  · exact h.seen
  · exact h.votes
  · intro hready
    exact absurd (hopen.symm.trans hready) (by decide)

end Heeding

/-! ## A read quorum that described its chunk -/

section Quorum

variable {M : Membership} {hm : M.Valid} {net : List (Envelope V)} {D : Nat → Log V} {n : Node V}

/-- A member that described the chunk promised the ballot, and it has voted at lower ballots only in
the window of the frontier that it reported. -/
theorem Heeds.promised (h : Heeds net n) (hk : Known M hm P net D) {i a : Nat}
    (ha : n.membership.members[i]? = some a) (hcomplete : peerComplete n i = true) :
    (n.ballot = 0 ∨ .promise n.ballot ∈ D a) ∧ ∀ k s v, .vote k s v ∈ D a → k < n.ballot →
      s ≤ (n.election i).chosenThrough + P.W := by
  obtain ⟨hdescribed, -⟩ : (n.election i).rangeDescribed = true ∧
      (n.election i).expectedInRange ≤ (n.election i).receivedInRange := by
    simpa [peerComplete] using hcomplete
  obtain ⟨e, he, rfl, anchor, through, hmsg, hthrough⟩ := h.described i a ha hdescribed
  have hanswered := hk.manifests e he _ _ _ _ _ _ _ hmsg
  refine ⟨hanswered.promised, fun k s v hv hlt => ?_⟩
  exact (hanswered.window k s v hv hlt).trans (Nat.add_le_add_right hthrough _)

/-- What a member that described the chunk voted for at lower ballots is covered, or lies in a
decided prefix that it reported, or above the chunk, or a decision a window later is on record. -/
theorem Heeds.complete (h : Heeds net n) (hk : Known M hm P net D) {i a : Nat}
    (ha : n.membership.members[i]? = some a) (hcomplete : peerComplete n i = true) {k s : Nat}
    {w : V} (hvote : .vote k s w ∈ D a) (hlt : k < n.ballot) (hbase : n.recoverBase ≤ s)
    (habove : (n.election i).chosenThrough < s) :
    (s ≤ n.recoverLast ∧ (n.recovered (s - n.recoverBase)).Covers s k .voted) ∨
      (n.recoverLast < s ∧ (n.election i).more = true) ∨
        ∃ above, s + P.W ≤ above ∧ .decided above ∈ D a := by
  obtain ⟨hdescribed, hcount⟩ : (n.election i).rangeDescribed = true ∧
      (n.election i).expectedInRange ≤ (n.election i).receivedInRange := by
    simpa [peerComplete] using hcomplete
  obtain ⟨e, he, rfl, anchor, through, hmsg, hthrough⟩ := h.described i a ha hdescribed
  have hanswered := hk.manifests e he _ _ _ _ _ _ _ hmsg
  rcases hanswered.votes k s w hvote hlt hbase with hle | ⟨hlast, hlisted⟩ | habove'
  · omega
  · -- as many slots were seen as were reported, so this one was seen
    obtain ⟨slots, hcard, hslots⟩ := hanswered.counted
    have hsubset : (n.promiseSeen i).image (n.recoverBase + ·) ⊆ slots := by
      intro t ht
      obtain ⟨p, hp, rfl⟩ := Finset.mem_image.mp ht
      obtain ⟨hinside, vote', state', value', htold', -⟩ := h.seen i e.sender ha p hp
      exact hslots _ ⟨_, _, _, htold'⟩ (Nat.le_add_right _ _) hinside
    have hseen : ((n.promiseSeen i).image (n.recoverBase + ·)).card = (n.promiseSeen i).card :=
      Finset.card_image_of_injective _ (add_right_injective _)
    have hreceived := h.received i e.sender ha
    have hall : (n.promiseSeen i).image (n.recoverBase + ·) = slots :=
      Finset.eq_of_subset_of_card_le hsubset (by omega)
    have hs : s ∈ (n.promiseSeen i).image (n.recoverBase + ·) :=
      hall ▸ hslots s hlisted hbase hlast
    obtain ⟨p, hp, rfl⟩ := Finset.mem_image.mp hs
    obtain ⟨-, vote, state, value, htold, hslot, hcovers⟩ := h.seen i e.sender ha p hp
    refine Or.inl ⟨hlast, ?_⟩
    rw [Nat.add_sub_cancel_left]
    refine ⟨hslot, ?_⟩
    rcases hcovers with hchosen | ⟨hvoted, rfl, hle⟩
    · exact Or.inl hchosen
    · rcases (hk.told _ _ _ _ _ _ htold).covers k w hvote hlt with hchosen | ⟨-, hle'⟩
      · cases hchosen
      · exact Or.inr ⟨hvoted, rfl, hle'.trans hle⟩
  · exact Or.inr habove'

/-- The members whose descriptions froze the selection are a read quorum. -/
theorem Heeds.quorum (h : Heeds net n) (hm : M.Valid) (hmembership : n.membership = M)
    (hready : n.recoveryReady = true) :
    ∃ q ∈ (M.quorums hm).read, ∀ a ∈ q, ∃ i, n.membership.members[i]? = some a ∧
      i < n.membership.members.length ∧ peerComplete n i = true ∧
        (n.recoveryMore = false → (n.election i).more = false) := by
  obtain ⟨hcount, hmore⟩ := h.frozen hready
  have hmem : ∀ i ∈ completeMembers n, i < n.membership.members.length ∧
      peerComplete n i = true := by
    intro i hi
    obtain ⟨hrange, hcomplete⟩ := List.mem_filter.mp hi
    exact ⟨List.mem_range.mp hrange, hcomplete⟩
  have hget : ∀ i ∈ completeMembers n,
      n.membership.members[i]? = some (n.membership.members.getD i 0) := by
    intro i hi
    have hlt := (hmem i hi).1
    rw [List.getD_eq_getElem?_getD, List.getElem?_eq_getElem hlt, Option.getD_some]
  have hnodup : n.membership.members.Nodup := hmembership ▸ hm.sorted.imp fun hlt => hlt.ne
  have hdistinct : (completeMembers n).Nodup := List.nodup_range.filter _
  refine ⟨((completeMembers n).toFinset).image fun i => n.membership.members.getD i 0, ⟨?_, ?_⟩,
    ?_⟩
  · intro a ha
    obtain ⟨i, hi, rfl⟩ := Finset.mem_image.mp ha
    rw [List.mem_toFinset, ← hmembership]
    exact List.mem_of_getElem? (hget i (List.mem_toFinset.mp hi))
  · rw [Finset.card_image_of_injOn, List.toFinset_card_of_nodup hdistinct, ← hmembership]
    · exact hcount
    · intro i hi j hj heq
      have hi' := hget i (List.mem_toFinset.mp hi)
      have hj' := hget j (List.mem_toFinset.mp hj)
      have heq' : n.membership.members.getD i 0 = n.membership.members.getD j 0 := heq
      rw [heq', ← hj'] at hi'
      exact (List.getElem?_inj (hmem i (List.mem_toFinset.mp hi)).1 hnodup).mp hi'
  · intro a ha
    obtain ⟨i, hi, rfl⟩ := Finset.mem_image.mp ha
    have hi' := List.mem_toFinset.mp hi
    refine ⟨i, hget i hi', (hmem i hi').1, (hmem i hi').2, fun hnone => ?_⟩
    rw [hmore] at hnone
    exact Bool.eq_false_iff.mpr (List.any_eq_false.mp hnone i hi')

/-- A candidate whose selection is frozen has won its ballot. -/
theorem Heeds.elected (h : Heeds net n) (hk : Known M hm P net D) (hmembership : n.membership = M)
    (hround : 0 < ballotRound n.ballot) (hready : n.recoveryReady = true) :
    Elected M hm D n.ballot := by
  obtain ⟨q, hq, hall⟩ := h.quorum hm hmembership hready
  refine ⟨q, hq, fun a ha => ?_⟩
  obtain ⟨i, hi, -, hcomplete, -⟩ := hall a ha
  refine (h.promised hk hi hcomplete).1.resolve_left fun hzero => ?_
  rw [hzero] at hround
  exact absurd hround (by decide)

/-- A decision a window above a live slot that no reported frontier covers fell at a later ballot:
the quorum has no vote of a lower ballot there, and the candidate itself is not that far. -/
theorem Heeds.late (h : Heeds net n) (hk : Known M hm P net D) (hmembership : n.membership = M)
    (hready : n.recoveryReady = true)
    (hwindow : ∀ a s v, .vote n.ballot s v ∈ D a → s ≤ n.memoryFloor + P.W) {s above later : Nat}
    {v : V} (hlive : n.memoryFloor < s)
    (habove : ∀ i < n.membership.members.length, (n.election i).chosenThrough < s)
    (hlate : s + P.W ≤ above)
    (hchosen : Synod.ChosenAt (M.quorums hm) (Synod.Board.ofLogs D above) later v) :
    Overtaken M hm P D n.ballot s := by
  refine ⟨later, above, v, ?_, hlate, hchosen⟩
  obtain ⟨r, hr, hvotes⟩ := hchosen
  by_contra hle
  rcases Nat.lt_or_eq_of_le (not_lt.mp hle) with hlt | rfl
  · obtain ⟨q, hq, hall⟩ := h.quorum hm hmembership hready
    obtain ⟨a, haq, har⟩ := (M.quorums hm).meet q hq r hr
    obtain ⟨i, hi, hmem, hcomplete, -⟩ := hall a haq
    have hnear := (h.promised hk hi hcomplete).2 later above v (hvotes a har) hlt
    have hfar := habove i hmem
    omega
  · obtain ⟨a, ha⟩ := Finset.card_pos.mp (Nat.lt_of_lt_of_le hm.write_pos hr.2)
    have hnear := hwindow a above v (hvotes a ha)
    omega

/-- Where no member of the quorum has reported anything, the quorum is silent, unless the slot is
overtaken. -/
theorem Heeds.silent (h : Heeds net n) (hk : Known M hm P net D) (hmembership : n.membership = M)
    (hready : n.recoveryReady = true)
    (hwindow : ∀ a s v, .vote n.ballot s v ∈ D a → s ≤ n.memoryFloor + P.W) {s : Nat}
    (hlive : n.memoryFloor < s) (hbase : n.recoverBase ≤ s)
    (habove : ∀ i < n.membership.members.length, (n.election i).chosenThrough < s)
    (hnone : s ≤ n.recoverLast → (n.recovered (s - n.recoverBase)).slot = s →
      (n.recovered (s - n.recoverBase)).state = .empty)
    (hmore : n.recoverLast < s → n.recoveryMore = false) :
    Synod.Silent (M.quorums hm) (Synod.Board.ofLogs D s) n.ballot ∨
      Overtaken M hm P D n.ballot s := by
  by_cases hlate : Overtaken M hm P D n.ballot s
  · exact Or.inr hlate
  left
  obtain ⟨q, hq, hall⟩ := h.quorum hm hmembership hready
  refine ⟨q, hq, fun a ha k hlt => ?_⟩
  obtain ⟨i, hi, hmem, hcomplete, hbeyond⟩ := hall a ha
  have hpromised := (h.promised hk hi hcomplete).1.resolve_left (by omega)
  refine ⟨⟨n.ballot, hlt, Or.inl hpromised⟩, fun w hw => ?_⟩
  rcases h.complete hk hi hcomplete hw hlt hbase (habove i hmem) with ⟨hlast, hslot, hcovers⟩ |
    ⟨hlast, hreported⟩ | ⟨above, hfar, hdecided⟩
  · rw [hnone hlast hslot] at hcovers
    rcases hcovers with hstate | ⟨hstate, -⟩ <;> cases hstate
  · rw [hbeyond (hmore hlast)] at hreported
    cases hreported
  · obtain ⟨v, hratified⟩ := hk.decided a above hdecided
    obtain ⟨later, hchosen⟩ := hratified.chosenAt hm
    exact hlate (h.late hk hmembership hready hwindow hlive habove hfar hchosen)

/-- What a candidate proposes is safe, unless the slot is overtaken. -/
theorem Heeds.safe (h : Heeds net n) (hk : Known M hm P net D) (hmembership : n.membership = M)
    (hwindow : ∀ a s v, .vote n.ballot s v ∈ D a → s ≤ n.memoryFloor + P.W) {slot : Nat} {value : V}
    (hlive : n.memoryFloor < slot) (hdrives : Drives n slot) (hselects : Selects n slot value) :
    Synod.SafeAt (M.quorums hm) (Synod.Board.ofLogs D slot) n.ballot value ∨
      Overtaken M hm P D n.ballot slot := by
  have habove : ∀ i < n.membership.members.length, (n.election i).chosenThrough < slot :=
    fun i hi => (hdrives.above.2 i hi).1
  have hlate : ∀ {above later : Nat} {v : V}, slot + P.W ≤ above →
      Synod.ChosenAt (M.quorums hm) (Synod.Board.ofLogs D above) later v →
        Overtaken M hm P D n.ballot slot :=
    fun hfar hchosen => h.late hk hmembership hdrives.frozen hwindow hlive habove hfar hchosen
  by_cases hovertaken : Overtaken M hm P D n.ballot slot
  · exact Or.inr hovertaken
  left
  rcases hselects with ⟨hslot, hvoted, rfl⟩ | ⟨hempty, -⟩
  · -- the recovered vote is the greatest that the quorum cast, and it was safe
    obtain ⟨q, hq, hall⟩ := h.quorum hm hmembership hdrives.frozen
    have hcomplete : ∀ a ∈ q, ∀ k < n.ballot, Synod.Closed (D a) slot k ∧ ∀ w,
        .vote k slot w ∈ D a → k ≤ (n.recovered (slot - n.recoverBase)).ballot := by
      intro a ha k hlt
      obtain ⟨i, hi, hmem, hcomplete, -⟩ := hall a ha
      have hpromised := (h.promised hk hi hcomplete).1.resolve_left (by omega)
      refine ⟨⟨n.ballot, hlt, Or.inl hpromised⟩, fun w hw => ?_⟩
      rcases h.complete hk hi hcomplete hw hlt hdrives.base (habove i hmem) with
        ⟨-, -, hcovers⟩ | ⟨hlast, -⟩ | ⟨above, hfar, hdecided⟩
      · rw [hvoted] at hcovers
        rcases hcovers with hstate | ⟨-, -, hle⟩
        · cases hstate
        · exact hle
      · exact absurd hdrives.last (by omega)
      · obtain ⟨v, hratified⟩ := hk.decided a above hdecided
        obtain ⟨later, hchosen⟩ := hratified.chosenAt hm
        exact absurd (hlate hfar hchosen) hovertaken
    obtain ⟨a, htold⟩ := h.votes _ hvoted
    have hvote := (hk.told _ _ _ _ _ _ htold).sent rfl
    rw [hslot] at hvote
    rcases (hk.votes _ _ _ _ hvote).safe with hsafe | ⟨-, later, above, v, -, hfar, hchosen⟩
    · refine Synod.SafeAt.of_reports hq (fun a ha k hlt => (hcomplete a ha k hlt).1)
        (fun a ha k hlt w hw => (hcomplete a ha k hlt).2 w hw) hsafe ?_
      exact fun b w hw => hk.unique _ _ _ _ _ _ hw hvote
    · exact absurd (hlate hfar hchosen) hovertaken
  · refine Synod.SafeAt.of_silent ((h.silent hk hmembership hdrives.frozen hwindow hlive
      hdrives.base habove (fun _ => hempty) fun hlast => ?_).resolve_right hovertaken) value
    exact absurd hdrives.last (by omega)

end Quorum

end PaxosOdin
