import PaxosOdin.Cluster.Records
import PaxosOdin.Lifetime.Authority

/-!
# One value for each ballot and slot

A ballot belongs to one member, and to one of its incarnations.  A campaign ballot is used by the
incarnation that promised it durably before it asked anybody; a later one starts above it, whatever
was lost.  A round-zero ballot is used in all incarnations, but its proposals leave after they are
durable, and each own slot is used once.  So all that was ever proposed at one ballot in one slot is
one value.

Main definitions:

- Definition `ProposedAt`: what was sent or recorded at a ballot.
- Definition `Booked`: the campaign ballots of a cluster are used by one incarnation each.

Main results:

- Theorem `Cluster.Reaches.booked`: in every run in campaign mode.
- Theorem `Cluster.Reaches.suggested`: the round-zero ballots of every run.
- Theorem `one_value_per_ballot`: two proposals at one ballot and slot carry one value.
-/

namespace PaxosOdin

variable {V : Type} {P : Params} {I : Input V}

/-- The log of a host: its journal, and the records that are not durable yet. -/
def Host.log (h : Host V) : Log V :=
  entries (h.journal ++ h.pending)

theorem Host.journal_subset_log (h : Host V) : entries h.journal ⊆ h.log := by
  intro e he
  unfold Host.log
  rw [entries_append]
  exact List.mem_append_left _ he

/-- The value was sent in a proposal, or is recorded in a vote. -/
def ProposedAt (c : Cluster V) (ballot slot : Nat) (value : V) : Prop :=
  (∃ e ∈ c.net, e.message = .accept ballot slot value) ∨
    ∃ id, .vote ballot slot value ∈ (c.hosts id).log

/-- The ballots that a node may still propose at. -/
def Uses (n : Node V) (ballot : Nat) : Prop :=
  n.ballot = ballot ∨ ∃ cell, (n.lead cell).slot ≠ 0 ∧ (n.lead cell).ballot = ballot

/-! ## The ballots of one transition -/

section Transitions

variable [DecidableEq V]

/-- A small step uses no new ballot, but for suggestions. -/
theorem Micro.uses {σ σ' : St V} (h : Micro P I σ σ') {b : Nat} (hu : Uses σ'.node b) :
    Uses σ.node b ∨ b = ownershipBallot σ.node.id := by
  have hballot := h.ballot
  have hsame : σ'.node.lead = σ.node.lead → Uses σ.node b := by
    intro hlead
    unfold Uses at hu
    rwa [hballot, hlead] at hu
  cases h with
  | learn hl => exact Or.inl (hsame hl.lead)
  | @drive slot ballot value hb =>
      rcases hu with hu | ⟨cell, hslot, hu⟩
      · exact Or.inl (Or.inl hu)
      · by_cases hcell : cell = cellOf slot P.W
        · subst hcell
          simp only [voteForProposal, St.addWrite, Function.update_self] at hu
          exact Or.inl (Or.inl (hb.symm.trans hu))
        · refine Or.inl (Or.inr ⟨cell, ?_, ?_⟩)
          · simpa [voteForProposal, St.addWrite, hcell] using hslot
          · simpa [voteForProposal, St.addWrite, hcell] using hu
  | @own slot next value =>
      rcases hu with hu | ⟨cell, hslot, hu⟩
      · exact Or.inl (Or.inl hu)
      · by_cases hcell : cell = cellOf slot P.W
        · subst hcell
          simp only [St.bump, voteForProposal, St.addWrite, Function.update_self] at hu
          exact Or.inr hu.symm
        · refine Or.inl (Or.inr ⟨cell, ?_, ?_⟩)
          · simpa [St.bump, voteForProposal, St.addWrite, hcell] using hslot
          · simpa [St.bump, voteForProposal, St.addWrite, hcell] using hu
  | @acknowledge sender member ballot slot decidedThrough lead _ _ _ _ _ hlead =>
      rcases hu with hu | ⟨cell, hslot, hu⟩
      · exact Or.inl (Or.inl hu)
      · by_cases hcell : cell = cellOf slot P.W
        · subst hcell
          simp only [Function.update_self, hlead] at hslot hu
          exact Or.inl (Or.inr ⟨_, hslot, hu⟩)
        · refine Or.inl (Or.inr ⟨cell, ?_, ?_⟩)
          · simpa [hcell] using hslot
          · simpa [hcell] using hu
  | report =>
      refine Or.inl (hsame ?_)
      unfold recordReport
      dsimp only
      split_ifs <;> rfl
  | _ => exact Or.inl (hsame rfl)

/-- What a transition that began at `n` has done with its ballots. -/
structure Balloting (I : Input V) (journal : List (Write V)) (n : Node V) (σ : St V) : Prop where
  id_eq : σ.node.id = n.id
  ballot : σ.node.ballot = n.ballot
  role : σ.node.role ≠ .follower → n.role ≠ .follower
  uses : ∀ b, Uses σ.node b → Uses n b ∨ b = ownershipBallot n.id
  votes : ∀ b s v, .vote b s v ∈ σ.log journal → .vote b s v ∈ entries journal ∨
    (∃ sender, I.Hears n sender (.accept b s v)) ∨ (b = n.ballot ∧ n.role ≠ .follower) ∨
      b = ownershipBallot n.id

omit [DecidableEq V] in
theorem Balloting.start (journal : List (Write V)) (n : Node V) :
    Balloting I journal n (St.start n) := by
  refine ⟨rfl, rfl, id, fun b hb => Or.inl hb, fun b s v hv => Or.inl ?_⟩
  simpa [St.log, St.start] using hv

omit [DecidableEq V] in
theorem mem_log_iff {journal : List (Write V)} {σ : St V} {b s : Nat} {v : V} :
    .vote b s v ∈ σ.log journal ↔
      .vote b s v ∈ entries journal ∨ .vote b s v ∈ σ.effects.writes := by
  unfold St.log
  rw [entries_append, List.mem_append]
  exact or_congr_right vote_mem_entries

theorem Micro.balloting {journal : List (Write V)} {n : Node V} {σ σ' : St V} (h : Micro P I σ σ')
    (hb : Balloting I journal n σ) : Balloting I journal n σ' := by
  have hid : σ'.node.id = σ.node.id := congrArg Static.id h.static
  refine ⟨hid.trans hb.id_eq, h.ballot.trans hb.ballot, fun hr => hb.role ?_, fun b hu => ?_,
    fun b s v hv => ?_⟩
  · cases h with
    | learn hl =>
        have hrole : σ'.node.role = σ.node.role := congrArg Fixed.role hl.fixed
        rwa [hrole] at hr
    | idle hrole =>
        rcases hrole with heq | heq
        · rwa [heq] at hr
        · exact absurd heq hr
    | report hheard hmember hrole => simp [hrole]
    | lead hrole => simp [hrole]
    | _ => exact hr
  · rcases h.uses hu with hu | heq
    · exact hb.uses b hu
    · exact Or.inr (heq.trans (congrArg ownershipBallot hb.id_eq))
  · rcases mem_log_iff.mp hv with hj | hw
    · exact Or.inl hj
    · rcases h.vote_mem hw with hold | hsource
      · exact hb.votes b s v (mem_log_iff.mpr (Or.inr hold))
      · cases hsource with
        | heard sender hheard =>
            refine Or.inr (Or.inl ⟨sender, ?_⟩)
            unfold Input.Hears at hheard ⊢
            rwa [hb.id_eq] at hheard
        | drove hrole hballot =>
            exact Or.inr (Or.inr (Or.inl ⟨hballot.trans hb.ballot, hb.role hrole⟩))
        | owned hballot =>
            exact Or.inr (Or.inr (Or.inr (hballot.trans (congrArg ownershipBallot hb.id_eq))))

/-- What a whole transition has done with its ballots: a campaign takes a ballot that is above every
promise of the log. -/
structure Balloted (I : Input V) (journal : List (Write V)) (n : Node V) (σ : St V) : Prop where
  uses : ∀ b, Uses σ.node b → Uses n b ∨ b = ownershipBallot n.id ∨
    (b = σ.node.ballot ∧ ballotNode b = n.id ∧ 0 < ballotRound b ∧
      (n.ownership = false → .promise b ∈ σ.log journal) ∧
        ∀ p, .promise p ∈ entries journal → p < b)
  votes : ∀ b s v, .vote b s v ∈ σ.log journal → .vote b s v ∈ entries journal ∨
    (∃ sender, I.Hears n sender (.accept b s v)) ∨ (b = n.ballot ∧ n.role ≠ .follower) ∨
      b = ownershipBallot n.id

theorem Completes.balloted {journal : List (Write V)} {through : Nat} {n : Node V} {σ : St V}
    (hc : Completes P I n (St.start n) σ) (ht : Transit P I through journal (St.start n)) :
    Balloted I journal n σ := by
  obtain ⟨τ, hrun, hlast⟩ := hc
  have hb : Balloting I journal n τ :=
    hrun.preserves (motive := Balloting I journal n) (fun hm hb => hm.balloting hb)
      (.start journal n)
  have hτ : Transit P I through journal τ :=
    hrun.preserves (motive := Transit P I through journal) (fun hm ht => hm.transit ht) ht
  have hidle : Balloted I journal n τ :=
    ⟨fun b hu => (hb.uses b hu).imp_right Or.inl, hb.votes⟩
  have hpromised : ∀ p, .promise p ∈ entries journal → p ≤ τ.node.ledger.promised := by
    intro p hp
    refine hτ.steady.sound.remembers.promised p ?_
    unfold St.log
    rw [entries_append]
    exact List.mem_append_left _ hp
  have hid := hτ.steady.id_lt
  rcases hlast with rfl | hfinal
  · exact hidle
  · cases hfinal with
    | @campaign round noop hmode hnoop hround =>
        have hfresh := nextRound_fresh hround
        refine ⟨fun b hu => ?_, fun b s v hv => hb.votes b s v ?_⟩
        · rcases hu with hu | ⟨cell, hslot, -⟩
          · refine Or.inr (Or.inr ⟨hu.symm, ?_, ?_, fun _ => ?_, fun p hp => ?_⟩) <;> subst hu
            · exact (ballotMake_node hid).trans hb.id_eq
            · show 0 < ballotRound (ballotMake _ _ _)
              rw [ballotMake_round τ.node.priority.isLt hid]
              exact Nat.zero_lt_of_lt hfresh.current
            · rw [St.log_append journal τ _ rfl rfl]
              exact List.mem_append_right _ (List.mem_singleton.mpr rfl)
            · exact Nat.lt_of_le_of_lt (hpromised p hp) (lt_ballotMake hfresh.promised)
          · exact absurd rfl hslot
        · rw [St.log_append journal τ _ rfl rfl] at hv
          simpa using hv
    | @revoke round ballot last noop hmode hnoop hballot hround hcurrent hpromisedRound =>
        refine ⟨fun b hu => ?_, hb.votes⟩
        rcases hu with hu | ⟨cell, hslot, -⟩
        · refine Or.inr (Or.inr ⟨hu.symm, ?_, ?_, fun hmode' => ?_, fun p hp => ?_⟩)
          · rw [← hu]
            show ballotNode ballot = n.id
            rw [hballot]
            exact (ballotMake_node hid).trans hb.id_eq
          · rw [← hu]
            show 0 < ballotRound ballot
            rw [hballot, ballotMake_round τ.node.priority.isLt hid]
            exact Nat.zero_lt_of_lt hcurrent
          · rw [hmode'] at hmode
            cases hmode
          · rw [← hu]
            show p < ballot
            rw [hballot]
            exact Nat.lt_of_le_of_lt (hpromised p hp) (lt_ballotMake hpromisedRound)
        · exact absurd rfl hslot
    | answer => exact ⟨hidle.uses, hidle.votes⟩

end Transitions

/-! ## The ballots of a cluster -/

/-- A proposal at a campaign ballot is one of the incarnation that uses the ballot, which promised
it durably first. -/
structure Booked (c : Cluster V) : Prop where
  unique : ∀ b s v w, 0 < ballotRound b → ProposedAt c b s v → ProposedAt c b s w → v = w
  used : ∀ id n, (c.hosts id).node = some n → ∀ b, 0 < ballotRound b → Uses n b →
    ballotNode b = id ∧ .promise b ∈ (c.hosts id).log ∧
      ∀ s v, ProposedAt c b s v → .vote b s v ∈ (c.hosts id).log
  promised : ∀ b s v, 0 < ballotRound b → ProposedAt c b s v →
    .promise b ∈ entries (c.hosts (ballotNode b)).journal

/-- A proposal at a round-zero ballot is a vote of the ballot's owner, durable before anybody else
learns of it. -/
structure Suggested (c : Cluster V) : Prop where
  sent : ∀ e ∈ c.net, ∀ b s v, ballotRound b = 0 → e.message = .accept b s v →
    .vote b s v ∈ entries (c.hosts (ballotNode b)).journal
  voted : ∀ id b s v, ballotRound b = 0 → .vote b s v ∈ (c.hosts id).log →
    ballotNode b = id ∨ .vote b s v ∈ entries (c.hosts (ballotNode b)).journal

section Clusters

variable [DecidableEq V] [Inhabited V] {d : Deployment} {id : Nat}

/-- What a change does to the records of a host: they stay, or the node made a transition, or what
was not durable is lost. -/
theorem Change.log {h h' : Host V} {net es : List (Envelope V)} {asked : Option (Operation V)}
    (hc : Change d net id h asked h' es) :
    entries h.journal ⊆ entries h'.journal ∧
      (h'.log = h.log ∨ h'.log = entries h.journal ∨
        ∃ n op, h.node = some n ∧ h.pending = [] ∧ Serves net id op ∧
          h'.node = some (operate d.params n op).node ∧
          h'.log = (operate d.params n op).log h.journal) := by
  have hrefl : entries h.journal ⊆ entries h.journal := fun e he => he
  cases hc with
  | operated hnode hpending _ hserves =>
      exact ⟨hrefl, Or.inr (Or.inr ⟨_, _, hnode, hpending, hserves, rfl, rfl⟩)⟩
  | @persisted w rest hpending =>
      refine ⟨fun e he => ?_, Or.inl ?_⟩
      · rw [entries_append]
        exact List.mem_append_left _ he
      · unfold Host.log
        simp [hpending]
  | crashed => exact ⟨hrefl, Or.inr (Or.inl (by simp [Host.log]))⟩
  | restarted hdown hrestart =>
      unfold Host.restarted at hrestart
      split at hrestart
      swap
      · cases hrestart
      split at hrestart
      swap
      · cases hrestart
      cases hrestart
      exact ⟨hrefl, Or.inr (Or.inl (by simp [Host.log]))⟩
  | _ => exact ⟨hrefl, Or.inl rfl⟩

/-- The vote of a proposal that a change hands to the network is on record. -/
theorem Change.accept {h h' : Host V} {net es : List (Envelope V)} {asked : Option (Operation V)}
    (hr : Recorded d id h) (hc : Change d net id h asked h' es) {e : Envelope V} (he : e ∈ es)
    {b s : Nat} {v : V} (hmsg : e.message = .accept b s v) :
    ballotNode b = id ∧ .vote b s v ∈ h.log ∧
      (ballotRound b = 0 → .vote b s v ∈ entries h.journal) := by
  have hback : ∀ e ∈ h.outbox, e.message = .accept b s v →
      .vote b s v ∈ h.log ∧ ballotNode b = id := by
    intro e he hmsg
    obtain ⟨-, hvouched⟩ := hr.outbox e he
    rw [hmsg] at hvouched
    exact ⟨hvouched.1, hvouched.2.1⟩
  cases hc with
  | @sent e' rest hpending houtbox =>
      obtain rfl := List.mem_singleton.mp he
      obtain ⟨hvote, hnode⟩ := hback e (by simp [houtbox]) hmsg
      refine ⟨hnode, hvote, fun _ => ?_⟩
      unfold Host.log at hvote
      rwa [hpending, List.append_nil] at hvote
  | @hastened e' hmem hpre =>
      obtain rfl := List.mem_singleton.mp he
      obtain ⟨hvote, hnode⟩ := hback e hmem hmsg
      refine ⟨hnode, hvote, fun hzero => ?_⟩
      unfold Envelope.isPreDurable at hpre
      simp [hmsg, hzero] at hpre
  | served =>
      obtain rfl := List.mem_singleton.mp he
      cases hmsg
  | _ => cases he

omit [DecidableEq V] [Inhabited V] in
/-- All records of a host obey the acceptor law. -/
theorem Recorded.lawful {h : Host V} (hr : Recorded d id h) : Synod.Lawful h.log := by
  rcases hnode : h.node with _ | n
  · unfold Host.log
    rw [(hr.down hnode).1, List.append_nil]
    exact hr.durable.obeys.lawful
  · exact (hr.works n hnode).sound.obeys.lawful

/-- What a change newly proposes. -/
theorem Change.proposed {c c' : Cluster V} {h' : Host V} {es : List (Envelope V)}
    {asked : Option (Operation V)}
    (hr : Recorded d id (c.hosts id)) (hnet : ∀ e ∈ c.net, e.Authentic d.ownership)
    (hc : Change d c.net id (c.hosts id) asked h' es)
    (hhosts : c'.hosts = Function.update c.hosts id h') (hes : c'.net = c.net ++ es)
    {b s : Nat} {v : V} (hp : ProposedAt c' b s v) :
    ProposedAt c b s v ∨ (.vote b s v ∈ h'.log ∧ ∃ n, (c.hosts id).node = some n ∧
      (c.hosts id).pending = [] ∧
        ((b = n.ballot ∧ n.role ≠ .follower) ∨ b = ownershipBallot n.id)) := by
  rcases hp with ⟨e, he, hmsg⟩ | ⟨other, hvote⟩
  · rw [hes] at he
    rcases List.mem_append.mp he with he | he
    · exact Or.inl (Or.inl ⟨e, he, hmsg⟩)
    · exact Or.inl (Or.inr ⟨id, (hc.accept hr he hmsg).2.1⟩)
  rw [hhosts] at hvote
  by_cases hother : other = id
  swap
  · rw [Function.update_of_ne hother] at hvote
    exact Or.inl (Or.inr ⟨other, hvote⟩)
  subst hother
  rw [Function.update_self] at hvote
  rcases hc.log.2 with heq | heq | ⟨n, op, hnode, hpending, hserves, -, heq⟩
  · exact Or.inl (Or.inr ⟨other, heq ▸ hvote⟩)
  · exact Or.inl (Or.inr ⟨other, Host.journal_subset_log _ (heq ▸ hvote)⟩)
  · obtain ⟨hstart, hdone⟩ := hr.begins hnet hnode hpending hserves
    rcases (hdone.balloted hstart).votes b s v (heq ▸ hvote) with hold | ⟨sender, heard⟩ | hmine
    · exact Or.inl (Or.inr ⟨other, Host.journal_subset_log _ hold⟩)
    · refine Or.inl (Or.inl ?_)
      rcases hserves with ⟨call, rfl⟩ | ⟨e, he, -, rfl⟩
      · cases call <;> cases heard
      · cases heard
        exact ⟨_, he, rfl⟩
    · exact Or.inr ⟨hvote, n, hnode, hpending, hmine⟩

omit [DecidableEq V] in
/-- A restarted node follows, and has proposed nothing. -/
theorem nodeRestore_fresh {through : Nat} {membership : Membership} {options : NodeOptions}
    {l : Ledger V} {n : Node V} (h : nodeRestore P id membership l through options = .ok n) :
    n.ballot = 0 ∧ n.lead = (fun _ => {}) ∧ n.role = .follower := by
  unfold nodeRestore at h
  split at h
  · cases h
  · next n₀ hinit =>
      cases h
      unfold nodeInit at hinit
      split at hinit
      · cases hinit
      · cases hinit
        unfold nodeResumeAt
        dsimp only
        split_ifs <;> exact ⟨rfl, rfl, rfl⟩

/-- A campaign ballot that a node uses after a change was used before, or is above every durable
promise. -/
theorem Change.uses {h h' : Host V} {net es : List (Envelope V)} {n' : Node V}
    {asked : Option (Operation V)} (hmode : d.ownership = false) (hr : Recorded d id h)
    (hnet : ∀ e ∈ net, e.Authentic d.ownership) (hc : Change d net id h asked h' es)
    (hnode : h'.node = some n') {b : Nat} (hround : 0 < ballotRound b) (hu : Uses n' b) :
    (∃ n, h.node = some n ∧ Uses n b ∧ h.log ⊆ h'.log) ∨
      (h.pending = [] ∧ ballotNode b = id ∧ .promise b ∈ h'.log ∧
        ∀ p, .promise p ∈ entries h.journal → p < b) := by
  have hsame : ∀ n : Node V, h.node = some n → n'.ballot = n.ballot → n'.lead = n.lead →
      h'.log = h.log → ∃ n, h.node = some n ∧ Uses n b ∧ h.log ⊆ h'.log := by
    intro n hn hballot hlead hlog
    unfold Uses at hu
    rw [hballot, hlead] at hu
    exact ⟨n, hn, hu, by rw [hlog]; exact fun e he => he⟩
  cases hc with
  | @operated n op hn hpending _ hserves =>
      cases hnode
      obtain ⟨hstart, hdone⟩ := hr.begins hnet hn hpending hserves
      have hw := hr.works n hn
      rcases (hdone.balloted hstart).uses b hu with hold | heq | ⟨-, hown, -, hpromise, habove⟩
      · refine Or.inl ⟨n, hn, hold, fun e he => ?_⟩
        unfold Host.log at he ⊢
        rw [hpending, List.append_nil] at he
        rw [entries_append]
        exact List.mem_append_left _ he
      · have hid : n.id < 2 ^ 16 := hw.id_eq ▸ hw.id_lt
        rw [heq, ballotRound_ownership hid] at hround
        exact absurd hround (lt_irrefl 0)
      · exact Or.inr ⟨hpending, hown.trans hw.id_eq, hpromise (hw.mode.trans hmode), habove⟩
  | @adjusted n op hn hop =>
      cases hnode
      have hhost : Hosted n (operate d.params n op) := by
        rcases hop with ⟨through, -, rfl⟩ | ⟨enabled, rfl⟩
        · exact nodeAdvanceMemoryFloor_hosted n through
        · exact nodeSetCampaignEnabled_hosted n enabled
      exact Or.inl (hsame n hn hhost.ballot hhost.lead rfl)
  | @persisted w rest hpending =>
      refine Or.inl (hsame n' hnode rfl rfl ?_)
      unfold Host.log
      simp [hpending]
  | crashed => cases hnode
  | restarted _ hrestart =>
      unfold Host.restarted at hrestart
      split at hrestart
      swap
      · cases hrestart
      split at hrestart
      swap
      · cases hrestart
      next hn =>
      cases hrestart
      cases hnode
      obtain ⟨hballot, hlead, -⟩ := nodeRestore_fresh hn
      rcases hu with hu | ⟨cell, hslot, -⟩
      · rw [← hu, hballot] at hround
        exact absurd hround (by decide)
      · rw [hlead] at hslot
        exact absurd rfl hslot
  | _ => exact Or.inl (hsame n' hnode rfl rfl rfl)

/-- Every change keeps the campaign ballots booked. -/
theorem Booked.change {c c' : Cluster V} {h' : Host V} {es : List (Envelope V)}
    {asked : Option (Operation V)}
    (hmode : d.ownership = false) (hb : Booked c) (hr : ∀ id, Recorded d id (c.hosts id))
    (hnet : ∀ e ∈ c.net, e.Authentic d.ownership) (hc : Change d c.net id (c.hosts id) asked h' es)
    (hhosts : c'.hosts = Function.update c.hosts id h') (hes : c'.net = c.net ++ es) :
    Booked c' := by
  have hself : c'.hosts id = h' := by rw [hhosts, Function.update_self]
  have hothers : ∀ other, other ≠ id → c'.hosts other = c.hosts other := fun other hother => by
    rw [hhosts, Function.update_of_ne hother]
  have hjournal : ∀ other, entries (c.hosts other).journal ⊆ entries (c'.hosts other).journal := by
    intro other
    by_cases hother : other = id
    · rw [hother, hself]
      exact hc.log.1
    · rw [hothers other hother]
      exact fun e he => he
  -- a new vote is at the ballot of the candidate or leader that casts it
  have hnew : ∀ b s v, 0 < ballotRound b → ProposedAt c' b s v → ProposedAt c b s v ∨
      (.vote b s v ∈ h'.log ∧ ballotNode b = id ∧ .promise b ∈ entries (c.hosts id).journal ∧
        ∀ w, ProposedAt c b s w → .vote b s w ∈ h'.log) := by
    intro b s v hround hp
    rcases hc.proposed (hr id) hnet hhosts hes hp with hold | ⟨hvote, n, hn, hpending, hmine⟩
    · exact Or.inl hold
    refine Or.inr ⟨hvote, ?_⟩
    have hw := (hr id).works n hn
    rcases hmine with ⟨rfl, -⟩ | rfl
    swap
    · have hid : n.id < 2 ^ 16 := hw.id_eq ▸ hw.id_lt
      rw [ballotRound_ownership hid] at hround
      exact absurd hround (lt_irrefl 0)
    obtain ⟨hown, hpromise, hused⟩ := hb.used id n hn n.ballot hround (Or.inl rfl)
    have hlog : (c.hosts id).log = entries (c.hosts id).journal := by simp [Host.log, hpending]
    refine ⟨hown, hlog ▸ hpromise, fun w hw' => ?_⟩
    have hold := hused s w hw'
    rcases hc.log.2 with heq | heq | ⟨n', op, -, -, -, -, heq⟩
    · exact heq ▸ hold
    · rw [heq, ← hlog]
      exact hold
    · rw [heq]
      unfold St.log
      rw [entries_append, ← hlog]
      exact List.mem_append_left _ hold
  have hlawful : Synod.Lawful h'.log := ((hr id).change hnet hc).1.lawful
  refine ⟨fun b s v w hround hv hw => ?_, fun other n' hn' b hround hu => ?_,
    fun b s v hround hp => ?_⟩
  · rcases hnew b s v hround hv with hv | ⟨hv, -, -, hall⟩
    · rcases hnew b s w hround hw with hw | ⟨hw, -, -, hall⟩
      · exact hb.unique b s v w hround hv hw
      · exact hlawful.value_unique (hall v hv) hw
    · rcases hnew b s w hround hw with hw | ⟨hw, -⟩
      · exact hlawful.value_unique hv (hall w hw)
      · exact hlawful.value_unique hv hw
  · by_cases hother : other = id
    · subst hother
      rw [hself] at hn' ⊢
      rcases hc.uses hmode (hr other) hnet hn' hround hu with
        ⟨n, hn, hu, hsub⟩ | ⟨hpending, hown, hpromise, habove⟩
      · obtain ⟨hown, hpromise, hused⟩ := hb.used other n hn b hround hu
        refine ⟨hown, hsub hpromise, fun s v hp => ?_⟩
        rcases hnew b s v hround hp with hold | ⟨hvote, -⟩
        · exact hsub (hused s v hold)
        · exact hvote
      · -- nothing was ever proposed at a ballot above every promise of its member
        refine ⟨hown, hpromise, fun s v hp => ?_⟩
        rcases hnew b s v hround hp with hold | ⟨hvote, -⟩
        · have hlast := hb.promised b s v hround hold
          rw [hown] at hlast
          exact absurd (habove b hlast) (lt_irrefl b)
        · exact hvote
    · rw [hothers other hother] at hn' ⊢
      obtain ⟨hown, hpromise, hused⟩ := hb.used other n' hn' b hround hu
      refine ⟨hown, hpromise, fun s v hp => ?_⟩
      rcases hnew b s v hround hp with hold | ⟨-, hid, -⟩
      · exact hused s v hold
      · exact absurd (hown.symm.trans hid) hother
  · rcases hnew b s v hround hp with hold | ⟨-, hown, hpromise, -⟩
    · exact hjournal _ (hb.promised b s v hround hold)
    · rw [hown]
      exact hjournal id hpromise

/-- Every change keeps the suggestions on record. -/
theorem Suggested.change {c c' : Cluster V} {h' : Host V} {es : List (Envelope V)}
    {asked : Option (Operation V)}
    (hs : Suggested c) (hr : ∀ id, Recorded d id (c.hosts id))
    (hnet : ∀ e ∈ c.net, e.Authentic d.ownership) (hc : Change d c.net id (c.hosts id) asked h' es)
    (hhosts : c'.hosts = Function.update c.hosts id h') (hes : c'.net = c.net ++ es) :
    Suggested c' := by
  have hself : c'.hosts id = h' := by rw [hhosts, Function.update_self]
  have hothers : ∀ other, other ≠ id → c'.hosts other = c.hosts other := fun other hother => by
    rw [hhosts, Function.update_of_ne hother]
  have hjournal : ∀ other, entries (c.hosts other).journal ⊆ entries (c'.hosts other).journal := by
    intro other
    by_cases hother : other = id
    · rw [hother, hself]
      exact hc.log.1
    · rw [hothers other hother]
      exact fun e he => he
  constructor
  · intro e he b s v hzero hmsg
    rw [hes] at he
    rcases List.mem_append.mp he with he | he
    · exact hjournal _ (hs.sent e he b s v hzero hmsg)
    · obtain ⟨hown, -, hdurable⟩ := hc.accept (hr id) he hmsg
      rw [hown]
      exact hjournal id (hdurable hzero)
  · intro other b s v hzero hvote
    by_cases hother : other = id
    swap
    · rw [hothers other hother] at hvote
      exact (hs.voted other b s v hzero hvote).imp_right fun h => hjournal _ h
    subst hother
    rw [hself] at hvote
    have hold : .vote b s v ∈ (c.hosts other).log →
        ballotNode b = other ∨ .vote b s v ∈ entries (c'.hosts (ballotNode b)).journal :=
      fun h => (hs.voted other b s v hzero h).imp_right fun h => hjournal _ h
    rcases hc.log.2 with heq | heq | ⟨n, op, hn, hpending, hserves, -, heq⟩
    · exact hold (heq ▸ hvote)
    · exact hold (Host.journal_subset_log _ (heq ▸ hvote))
    · obtain ⟨hstart, hdone⟩ := (hr other).begins hnet hn hpending hserves
      have hw := (hr other).works n hn
      rcases (hdone.balloted hstart).votes b s v (heq ▸ hvote) with
        hj | ⟨sender, heard⟩ | ⟨hballot, hrole⟩ | rfl
      · exact hold (Host.journal_subset_log _ hj)
      · rcases hserves with ⟨call, rfl⟩ | ⟨e, he, -, rfl⟩
        · cases call <;> cases heard
        · cases heard
          exact Or.inr (hjournal _ (hs.sent _ he b s v hzero rfl))
      · have hround := (hw.sound.proposes.role hrole).2
        rw [← hballot, hzero] at hround
        exact absurd hround (lt_irrefl 0)
      · refine Or.inl (Eq.trans ?_ hw.id_eq)
        rw [ownershipBallot_eq]
        exact Nat.mod_eq_of_lt (hw.id_eq ▸ hw.id_lt)

variable {ok : Cluster V → Action V → Prop} {c : Cluster V}

/-- In every run in campaign mode the campaign ballots are booked. -/
theorem Cluster.Reaches.booked (h : Cluster.Reaches d ok c) (hmode : d.ownership = false) :
    Booked c := by
  refine h.invariant ?_ fun {c c' a} hc hb _ hstep => ?_
  · have hnone : ∀ b s (v : V), ¬ ProposedAt (Cluster.initial d) b s v := by
      rintro b s v (⟨e, he, -⟩ | ⟨other, hv⟩)
      · cases he
      · cases hv
    refine ⟨fun b s v w _ hv => absurd hv (hnone b s v), fun other n hn b hround hu => ?_,
      fun b s v _ hv => absurd hv (hnone b s v)⟩
    have hfresh : n.ballot = 0 ∧ n.lead = fun _ => {} := by
      have hinit : (nodeInit other d.membership (d.optionsFor (d.options other)) :
          Except Error (Node V)).toOption = some n := hn
      unfold nodeInit at hinit
      split at hinit
      · cases hinit
      · cases hinit
        exact ⟨rfl, rfl⟩
    rcases hu with hu | ⟨cell, hslot, -⟩
    · rw [← hu, hfresh.1] at hround
      exact absurd hround (by decide)
    · rw [hfresh.2] at hslot
      exact absurd rfl hslot
  · obtain ⟨hr, hnet⟩ := hc.recorded
    obtain ⟨id, h', es, hchange, hhosts, hes⟩ := Cluster.step_change hstep
    exact hb.change hmode hr hnet hchange hhosts hes

/-- In every run the suggestions are on record. -/
theorem Cluster.Reaches.suggested (h : Cluster.Reaches d ok c) : Suggested c := by
  refine h.invariant ⟨fun e he => (by cases he), fun other b s v _ hv => (by cases hv)⟩
    fun {c c' a} hc hs _ hstep => ?_
  obtain ⟨hr, hnet⟩ := hc.recorded
  obtain ⟨id, h', es, hchange, hhosts, hes⟩ := Cluster.step_change hstep
  exact hs.change hr hnet hchange hhosts hes

/-- What was sent or became durable at one ballot in one slot is one value: at every ballot of a
campaign when the members campaign, and at every round-zero ballot when they share out the slots. -/
theorem one_value_per_ballot (h : Cluster.Reaches d ok c) {b s : Nat} {v w : V}
    (hballot : (d.ownership = false ∧ 0 < ballotRound b) ∨
      (d.ownership = true ∧ ballotRound b = 0))
    (hv : (∃ e ∈ c.net, e.message = .accept b s v) ∨ ∃ id, .vote b s v ∈ (c.hosts id).journal)
    (hw : (∃ e ∈ c.net, e.message = .accept b s w) ∨ ∃ id, .vote b s w ∈ (c.hosts id).journal) :
    v = w := by
  have hproposed : ∀ x, (∃ e ∈ c.net, e.message = .accept b s x) ∨
      (∃ id, .vote b s x ∈ (c.hosts id).journal) → ProposedAt c b s x := by
    rintro x (hsent | ⟨id, hvote⟩)
    · exact Or.inl hsent
    · exact Or.inr ⟨id, Host.journal_subset_log _ (vote_mem_entries.mpr hvote)⟩
  rcases hballot with ⟨hmode, hround⟩ | ⟨-, hzero⟩
  · exact (h.booked hmode).unique b s v w hround (hproposed v hv) (hproposed w hw)
  · have hs := h.suggested
    have howner : ∀ x, (∃ e ∈ c.net, e.message = .accept b s x) ∨
        (∃ id, .vote b s x ∈ (c.hosts id).journal) →
        .vote b s x ∈ entries (c.hosts (ballotNode b)).journal := by
      rintro x (⟨e, he, hmsg⟩ | ⟨id, hvote⟩)
      · exact hs.sent e he b s x hzero hmsg
      · rw [← vote_mem_entries] at hvote
        rcases hs.voted id b s x hzero (Host.journal_subset_log _ hvote) with rfl | hdurable
        · exact hvote
        · exact hdurable
    exact (h.lawful (ballotNode b)).value_unique (howner v hv) (howner w hw)

end Clusters

/-- The Accept of the trio's leader leaves before its vote is durable; member 2 votes for it. -/
theorem one_value_per_ballot_trio :
    ∃ (c : Cluster Nat) (v w : Nat), Cluster.Reaches trioDeployment (fun _ _ => True) c ∧
      (∃ e ∈ c.net, e.message = .accept (ballotMake 1 0 1) 1 v) ∧
        (∃ id, .vote (ballotMake 1 0 1) 1 w ∈ (c.hosts id).journal) ∧
          (c.hosts 1).journal = [.promise (ballotMake 1 0 1)] ∧ v = w := by
  have hrun : ((Cluster.initial trioDeployment).run trioDeployment (trioElection ++
      [.call 1 (.propose 5), .sendPreDurable 1 0, .deliver 5, .persist 2])).map
        (fun c => (c.net[5]?, (c.hosts 1).journal, (c.hosts 2).journal)) =
      some (some ⟨1, 2, .accept (ballotMake 1 0 1) 1 5⟩, [.promise (ballotMake 1 0 1)],
        [.promise (ballotMake 1 0 1), .vote (ballotMake 1 0 1) 1 5]) := by
    decide +kernel
  obtain ⟨c, hc, heq⟩ := Option.map_eq_some_iff.mp hrun
  simp only [Prod.mk.injEq] at heq
  obtain ⟨hnet, hfirst, hsecond⟩ := heq
  have hreach := Cluster.Reaches.initial.of_run hc
  have hv : ∃ e ∈ c.net, e.message = .accept (ballotMake 1 0 1) 1 5 :=
    ⟨_, List.mem_of_getElem? hnet, rfl⟩
  have hw : ∃ id, .vote (ballotMake 1 0 1) 1 5 ∈ (c.hosts id).journal := ⟨2, by simp [hsecond]⟩
  exact ⟨c, 5, 5, hreach, hv, hw, hfirst,
    one_value_per_ballot hreach (Or.inl ⟨rfl, by decide⟩) (Or.inl hv) (Or.inr hw)⟩

end PaxosOdin
