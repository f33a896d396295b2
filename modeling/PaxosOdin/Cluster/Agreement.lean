import PaxosOdin.Cluster.Terms

/-!
# Agreement in campaign mode

A value is chosen for a slot when a write quorum has journaled a vote for it at one ballot.  In a run
whose answers stay what they were, every vote that is cast is founded, so no two values are chosen for
a slot, and every decision on record and every applied entry carries the chosen one.

Two things break the chain, and each is a condition on a step: two decisions that clash in
`pass_through`, and a second answer to a Prepare that reports other slots than the first.

Main definitions:

- Definition `Faultless`: neither of the two happens in a step.
- Definition `Concordant`: every vote is founded, and every node presides over its slots.
- Definition `Agrees`: at most one value is chosen for a slot, and every decision carries it.

Main results:

- Theorem `Change.judged`: every change of a host casts only founded votes.
- Theorem `Cluster.Reaches.concordant`: so every run whose steps are faultless is concordant.
- Theorem `campaign_agreement`: the members of such a run agree.
- Theorem `campaign_disagreement`: a Prepare that is answered twice may break the agreement.
-/

namespace PaxosOdin

variable {V : Type} [DecidableEq V] [Inhabited V] {d : Deployment}

/-! ## One change of a host -/

section Hosts

variable {id : Nat} {h h' : Host V} {net es : List (Envelope V)} {D : Nat → Log V}

/-- The journal of a host only grows. -/
theorem Change.extends {asked : Option (Operation V)} (hc : Change d net id h asked h' es) :
    ∃ more, h'.journal = h.journal ++ more := by
  have hsame : ∃ more, h.journal = h.journal ++ more := ⟨[], (List.append_nil _).symm⟩
  cases hc with
  | persisted => exact ⟨_, rfl⟩
  | restarted _ hrestart =>
      obtain ⟨l, n, -, -, rfl⟩ := Host.restarted_eq_some hrestart
      exact hsame
  | _ => exact hsame

omit [DecidableEq V] in
/-- Where a restored node proposes next, and what it has heard of others. -/
theorem nodeRestore_next {P : Params} {through : Nat} {membership : Membership}
    {options : NodeOptions} {l : Ledger V} {n : Node V}
    (h : nodeRestore P id membership l through options = .ok n) :
    n.nextSlot = slotAdd (max (ledgerHighestUsed P n.ledger) n.deliveredThrough) 1 ∧
      ∀ i, n.election i = {} := by
  unfold nodeRestore at h
  split at h
  · cases h
  · next n₀ hinit =>
      cases h
      unfold nodeInit at hinit
      split at hinit
      · cases hinit
      · cases hinit
        unfold nodeResumeAt
        dsimp only
        split_ifs <;> exact ⟨rfl, fun i => rfl⟩

/-- A restarted member follows, and its next proposal is not beyond the last slot. -/
theorem Presides.restarted (hr : Recorded d id h) (hb : Backed d.membership net D id h)
    (hk : Known d.membership d.valid d.params net D) (hself : D id = entries h.journal)
    {options : NodeOptions} (hrestart : h.restarted d id options = some h') {n : Node V}
    (hnode : h'.node = some n) : Presides d.membership d.valid d.params net D n := by
  have hcells := (hb.restarted hr hself hrestart).cells n hnode
  have hw := (hr.restarted hrestart).works n hnode
  obtain ⟨l, n', -, hn, rfl⟩ := Host.restarted_eq_some hrestart
  cases hnode
  obtain ⟨-, -, hrole⟩ := nodeRestore_fresh hn
  obtain ⟨hnext, helection⟩ := nodeRestore_next hn
  have hview : Host.view D id { h with
      node := some n, pending := [], outbox := [], released := [] } = D := by
    unfold Host.view Host.log
    rw [List.append_nil, ← hself]
    exact Function.update_eq_self _ _
  have hvotes : ∀ m b s v, .vote b s v ∈ D m → s < maxSlot :=
    fun m b s v hvote => (hk.votes m b s v hvote).room
  have hsound := hw.sound
  simp only [List.append_nil] at hsound
  have hused : ledgerHighestUsed d.params n.ledger ≤ maxSlot := by
    refine highestUsed_le_maxSlot hsound.remembers (fun b s v hvote => ?_) fun i hi => ?_
    · exact hvotes id b s v (hself ▸ hvote)
    · have hratified := hcells i hi
      rw [hview] at hratified
      exact hratified.lt_maxSlot d.valid hvotes
  refine .following hrole ?_ helection
  rw [hnext]
  exact slotAdd_le_maxSlot 1 (max_le hused hw.opened.last)

/-- Every change of a host casts only founded votes, and its node keeps presiding over its slots. -/
theorem Change.judged {asked : Option (Operation V)} (hr : Recorded d id h)
    (hg : Contends d h) (hb : Backed d.membership net D id h)
    (hk : Known d.membership d.valid d.params net D) (hself : D id = entries h.journal)
    (hnet : ∀ e ∈ net, e.Authentic d.ownership) (hgenuine : ∀ e ∈ net, e.Genuine)
    (hattested : ∀ e ∈ net, Attested d.membership net D e)
    (hused : ∀ n, h.node = some n → ∀ b, 0 < ballotRound b → Uses n b → ∀ s v,
      (∃ e ∈ net, e.message = .accept b s v) → .vote b s v ∈ h.log)
    (howned : ∀ n, h.node = some n → n.role ≠ .follower → ∀ a s v, .vote n.ballot s v ∈ D a →
      .vote n.ballot s v ∈ h.log)
    (hasked : ∀ e ∈ net, ∀ b s v, e.message = .accept b s v →
      Founded d.membership d.valid d.params D b s v)
    (hvotes : ∀ b s v, .vote b s v ∈ h.log → Founded d.membership d.valid d.params D b s v)
    (hp : ∀ n, h.node = some n → Presides d.membership d.valid d.params net D n)
    (hc : Change d net id h asked h' es) :
    (∀ b s v, .vote b s v ∈ h'.log → Founded d.membership d.valid d.params D b s v) ∧
      ∀ n', h'.node = some n' → Presides d.membership d.valid d.params net D n' := by
  cases hc with
  | @operated n op hnode hpending hreleased hserves =>
      have hw := hr.works n hnode
      have hself' : D n.id = entries h.journal := hw.id_eq ▸ hself
      obtain ⟨hcampaigns, hrested⟩ := hg.node n hnode
      obtain ⟨hstart, hdone⟩ := hr.begins hnet hnode hpending hserves
      have hinput : (op.input n).Genuine := by
        refine operation_genuine ?_
        rintro e rfl
        rcases hserves with ⟨call, hcall⟩ | ⟨e', he', -, hop⟩
        · cases hcall
        · cases hop
          exact hgenuine e he'
      have hownedBefore : Owned D h.journal n := by
        intro hrole a s v hvote
        have hmine := howned n hnode hrole a s v hvote
        unfold Host.log at hmine
        rwa [hpending, List.append_nil] at hmine
      have hj := hdone.judging hstart (hb.begins hw.id_eq hnode hpending hself)
        (hr.informed hnode hpending hself hserves hattested (hused n hnode)) hself' hw.membership
        hw.voting hw.anchor hinput hcampaigns hrested hk hownedBefore hasked (hp n hnode)
      refine ⟨fun b s v hvote => ?_, fun n' hn' => ?_⟩
      · rcases mem_log_iff.mp hvote with hold | hnew
        · exact hvotes b s v (Host.journal_subset_log _ hold)
        · exact hj.votes b s v hnew
      · cases hn'
        exact hj.presides
  | @adjusted n op hnode hop =>
      refine ⟨hvotes, fun n' hn' => ?_⟩
      cases hn'
      have htag := (hr.works n hnode).sound.remembers.tagged
      rcases hop with ⟨through, -, rfl⟩ | ⟨enabled, rfl⟩
      · have hhosted := nodeAdvanceMemoryFloor_hosted n through
        obtain ⟨hscratch, hrole, hbase, hnext⟩ :
            (nodeAdvanceMemoryFloor n through).1.scratch = n.scratch ∧
              (nodeAdvanceMemoryFloor n through).1.role = n.role ∧
                (nodeAdvanceMemoryFloor n through).1.leaderBase = n.leaderBase ∧
                  (nodeAdvanceMemoryFloor n through).1.nextSlot = n.nextSlot := by
          unfold nodeAdvanceMemoryFloor
          split_ifs <;> exact ⟨rfl, rfl, rfl, rfl⟩
        exact (hp n hnode).keep hscratch (Or.inl hrole) hbase (hnext.le.trans (hp n hnode).next)
          hhosted.floor fun s hlive hstuck => hstuck.raise htag hhosted.cells hhosted.floor hlive
      · exact (hp n hnode).keep rfl (nodeSetCampaignEnabled_hosted n enabled).role rfl
          (hp n hnode).next le_rfl fun s _ hstuck => hstuck
  | @persisted w rest hpending =>
      refine ⟨fun b s v hvote => hvotes b s v ?_, hp⟩
      simpa [Host.log, hpending] using hvote
  | crashed =>
      refine ⟨fun b s v hvote => hvotes b s v (Host.journal_subset_log _ ?_), fun n' hn' => ?_⟩
      · simpa [Host.log] using hvote
      · cases hn'
  | restarted _ hrestart =>
      refine ⟨fun b s v hvote => hvotes b s v (Host.journal_subset_log _ ?_), fun n' hn' =>
        .restarted hr hb hk hself hrestart hn'⟩
      obtain ⟨l, n, -, -, rfl⟩ := Host.restarted_eq_some hrestart
      simpa [Host.log] using hvote
  | _ => exact ⟨hvotes, hp⟩

end Hosts

/-! ## The runs -/

section Runs

variable {ok : Cluster V → Action V → Prop} {c c' : Cluster V}

/-- Every vote on record and every Accept on the network is founded, and every node presides over its
slots. -/
structure Concordant (d : Deployment) (c : Cluster V) : Prop where
  votes : ∀ id b s v, .vote b s v ∈ (c.hosts id).log →
    Founded d.membership d.valid d.params c.durable b s v
  asked : ∀ e ∈ c.net, ∀ b s v, e.message = .accept b s v →
    Founded d.membership d.valid d.params c.durable b s v
  presides : ∀ id n, (c.hosts id).node = some n →
    Presides d.membership d.valid d.params c.net c.durable n

/-- Neither of the two faults happens in a step: no decisions clash, and a member that is asked again
reports the same slots. -/
structure Faultless (d : Deployment) (c : Cluster V) (a : Action V) : Prop where
  calm : Calm d c a
  repeats : Repeats d c a

omit [DecidableEq V] [Inhabited V] in
/-- What is known of the records and the network of a concordant cluster. -/
theorem Concordant.known (hv : Concordant d c) (hb : Booked c)
    (hbacked : ∀ id, Backed d.membership c.net c.durable id (c.hosts id))
    (ha : ∀ id, Answering d.params c.net id (c.hosts id)) :
    Known d.membership d.valid d.params c.net c.durable := by
  have hlog : ∀ {id b s v}, .vote b s v ∈ c.durable id → .vote b s v ∈ (c.hosts id).log :=
    fun hvote => Host.journal_subset_log _ hvote
  refine ⟨fun id => (ha id).told, fun e he ballot anchor through first last reported more hmsg => ?_,
    fun id b s v hvote => hv.votes id b s v (hlog hvote), fun id id' b s v w hvote hvote' => ?_,
    fun id s hdecided => ?_⟩
  · exact ((ha e.sender).manifests e he rfl ballot anchor through first last reported more hmsg).mono
      (fun _ hx => hx) (fun b s v hvote _ => hvote) (fun s hs => hs)
      fun s hs _ _ => hs.mono (List.subset_append_left _ _)
  · exact hb.unique b s v w (hv.votes id b s v (hlog hvote)).round (Or.inr ⟨id, hlog hvote⟩)
      (Or.inr ⟨id', hlog hvote'⟩)
  · obtain ⟨value, hrecord⟩ := decided_mem_entries.mp hdecided
    exact ⟨value, (hbacked id).journal s value hrecord⟩

/-- Every run in campaign mode whose steps are faultless is concordant. -/
theorem Cluster.Reaches.concordant (h : Cluster.Reaches d (Faultless d) c)
    (hmode : d.ownership = false) : Concordant d c := by
  refine h.invariant (motive := Concordant d) ?_ ?_
  · refine ⟨fun id b s v hvote => absurd hvote List.not_mem_nil,
      fun e he => absurd he List.not_mem_nil, fun id n hn => ?_⟩
    obtain ⟨⟨hrole, hnext, helection⟩, -⟩ := initialHost_fresh hn
    exact .following hrole (by rw [hnext]; decide) helection
  · intro c c' a hc hv hstep hnext
    obtain ⟨hr, hnet⟩ := hc.recorded
    obtain ⟨hcontends, hgenuine⟩ := hc.campaigns hmode
    obtain ⟨hbacked, hattested⟩ := (hc.weaken fun _ _ _ hok => hok.calm).backed hmode
    have hbooked := hc.booked hmode
    have ha := hc.answering hmode fun _ _ hok => hok.repeats
    have hk := hv.known hbooked hbacked fun id => (ha id).2
    obtain ⟨id, h', es, hchange, hhosts, hes⟩ := Cluster.step_change hnext
    have hused : ∀ n, (c.hosts id).node = some n → ∀ b, 0 < ballotRound b → Uses n b → ∀ s v,
        (∃ e ∈ c.net, e.message = .accept b s v) → .vote b s v ∈ (c.hosts id).log :=
      fun n hn b hround hu s v hp => (hbooked.used id n hn b hround hu).2.2 s v (Or.inl hp)
    have howned : ∀ n, (c.hosts id).node = some n → n.role ≠ .follower → ∀ a s v,
        .vote n.ballot s v ∈ c.durable a → .vote n.ballot s v ∈ (c.hosts id).log := by
      intro n hn hrole a s v hvote
      have hround := (((hcontends id).node n hn).1.commands hrole).round
      exact (hbooked.used id n hn n.ballot hround (Or.inl rfl)).2.2 s v
        (Or.inr ⟨a, Host.journal_subset_log _ hvote⟩)
    obtain ⟨hvotes, hpresides⟩ := hchange.judged (hr id) (hcontends id) (hbacked id) hk rfl
      hnet hgenuine hattested hused howned hv.asked (hv.votes id) (hv.presides id)
    -- the records grow, and respect what is closed
    have hlawful := (hc.step hstep hnext).lawful
    have hextends : ∀ other, ∃ more, c'.durable other = c.durable other ++ more := by
      intro other
      unfold Cluster.durable
      rw [hhosts]
      by_cases hother : other = id
      · subst hother
        obtain ⟨more, hmore⟩ := hchange.extends
        rw [Function.update_self, hmore, entries_append]
        exact ⟨_, rfl⟩
      · rw [Function.update_of_ne hother]
        exact ⟨[], (List.append_nil _).symm⟩
    have hgrow : c.net ⊆ c'.net := by
      rw [hes]
      exact List.subset_append_left _ _
    refine ⟨fun other b s v hvote => ?_, fun e he b s v hmsg => ?_, fun other n hn => ?_⟩
    · rw [hhosts] at hvote
      by_cases hother : other = id
      · subst hother
        rw [Function.update_self] at hvote
        exact (hvotes b s v hvote).mono hextends hlawful
      · rw [Function.update_of_ne hother] at hvote
        exact (hv.votes other b s v hvote).mono hextends hlawful
    · rw [hes] at he
      rcases List.mem_append.mp he with he | he
      · exact (hv.asked e he b s v hmsg).mono hextends hlawful
      · exact (hv.votes id b s v (hchange.accept (hr id) he hmsg).2.1).mono hextends hlawful
    · rw [hhosts] at hn
      by_cases hother : other = id
      · subst hother
        rw [Function.update_self] at hn
        exact (hpresides n hn).mono hgrow hextends hlawful
      · rw [Function.update_of_ne hother] at hn
        exact (hv.presides other n hn).mono hgrow hextends hlawful

/-- At most one value is chosen for a slot, by a write quorum of durable votes at one ballot, and
every durable decision and every applied entry carries a chosen value. -/
structure Agrees (d : Deployment) (c : Cluster V) : Prop where
  chosen : ∀ slot v w, Ratified d.membership c.durable slot v →
    Ratified d.membership c.durable slot w → v = w
  decided : ∀ id slot value, .chosen slot value ∈ (c.hosts id).journal →
    Ratified d.membership c.durable slot value
  applied : ∀ id, ∀ entry ∈ (c.hosts id).applied,
    Ratified d.membership c.durable entry.slot entry.value

/-- Agreement in campaign mode, in every run whose steps are all faultless. -/
theorem campaign_agreement (h : Cluster.Reaches d (Faultless d) c) (hmode : d.ownership = false) :
    Agrees d c := by
  have hv := h.concordant hmode
  have ha := h.answering hmode fun _ _ hok => hok.repeats
  obtain ⟨hbacked, -⟩ := (h.weaken fun _ _ _ hok => hok.calm).backed hmode
  have hk := hv.known (h.booked hmode) hbacked fun id => (ha id).2
  refine ⟨fun slot v w hchosen hchosen' => ?_, fun id => (hbacked id).journal,
    fun id => (hbacked id).applied⟩
  obtain ⟨k, hv'⟩ := hchosen.chosenAt d.valid
  obtain ⟨k', hw'⟩ := hchosen'.chosenAt d.valid
  refine Synod.chosen_unique (fun r hr => ?_)
    (fun a b x hvote => (hk.votes a b slot x hvote).safe.imp_right And.left)
    (fun b a a' x y hx hy => hk.unique a a' b slot x y hx hy) hv' hw'
  exact Finset.card_pos.mp (Nat.lt_of_lt_of_le d.valid.write_pos hr.2)

/-! ## Prepares that are answered once -/

/-- The message answers a Prepare of the ballot. -/
def Message.answersAt (ballot : Nat) : Message V → Bool
  | .promise b _ _ _ _ => b == ballot
  | .promiseRange b _ _ _ _ _ _ => b == ballot
  | _ => false

/-- The action delivers no Prepare of a ballot that the member has answered before. -/
def Cluster.unanswered (c : Cluster V) : Action V → Bool
  | .deliver position => c.net[position]?.all fun e =>
      match e.message with
      | .prepare ballot _ _ _ =>
          c.net.all fun answer => answer.sender != e.recipient || !answer.message.answersAt ballot
      | _ => true
  | _ => true

omit [DecidableEq V] [Inhabited V] in
/-- A first answer repeats nothing. -/
theorem Cluster.repeats_of_unanswered {a : Action V} (h : c.unanswered a = true) :
    Repeats d c a := by
  intro id n e ballot first last scope hn hasks hmsg
  have hnone : ∀ answer ∈ c.net, answer.sender = id → answer.message.answersAt ballot = false := by
    cases a with
    | deliver position =>
        obtain ⟨e', he', hask⟩ := Option.bind_eq_some_iff.mp hasks
        split_ifs at hask with hrecipient
        cases hask
        simp only [Cluster.unanswered, he', hmsg, Option.all_some, List.all_eq_true,
          Bool.or_eq_true, bne_iff_ne, Bool.not_eq_true'] at h
        exact fun answer hanswer hsender =>
          (h answer hanswer).resolve_left fun hne => hne (hsender.trans hrecipient.symm)
    | call other call =>
        simp only [Cluster.asks] at hasks
        split_ifs at hasks
        cases hasks
    | _ => cases hasks
  intro slot _ _
  constructor
  · rintro ⟨vote, state, value, answer, hanswer, hsender, hmessage⟩
    have hfalse := hnone answer hanswer hsender
    simp [hmessage, Message.answersAt] at hfalse
  · rintro ⟨answer, hanswer, hsender, anchor, through, lo, hi, reported, more, hmessage, -⟩
    have hfalse := hnone answer hanswer hsender
    simp [hmessage, Message.answersAt] at hfalse

/-- The state after a list of actions that all pass the check. -/
def Cluster.runIf (d : Deployment) (check : Cluster V → Action V → Bool) (c : Cluster V) :
    List (Action V) → Option (Cluster V)
  | [] => some c
  | a :: rest => if check c a then (c.step d a).bind fun c' => c'.runIf d check rest else none

/-- Such a list is a run under every condition that the check implies. -/
theorem Cluster.Reaches.of_runIf {check : Cluster V → Action V → Bool}
    (hcheck : ∀ c a, Cluster.Reaches d ok c → check c a = true → ok c a) {actions : List (Action V)}
    (h : Cluster.Reaches d ok c) (hrun : c.runIf d check actions = some c') :
    Cluster.Reaches d ok c' := by
  induction actions generalizing c with
  | nil =>
      cases hrun
      exact h
  | cons a actions ih =>
      unfold Cluster.runIf at hrun
      split_ifs at hrun with hpasses
      obtain ⟨c₁, hstep, hrest⟩ := Option.bind_eq_some_iff.mp hrun
      exact ih (h.step (hcheck c a h hpasses) hstep) hrest

end Runs

/-- Member 1 decides 5 with the vote of member 2; member 3 finds that vote when it campaigns, and
decides 5 again at its own ballot. -/
theorem campaign_agreement_recovered :
    ∃ c : Cluster Nat, Cluster.Reaches trioDeployment (Faultless trioDeployment) c ∧
      .chosen 1 5 ∈ (c.hosts 1).journal ∧
        (c.hosts 3).journal = [.promise (ballotMake 1 0 3), .vote (ballotMake 1 0 3) 1 5,
          .chosen 1 5] ∧ Agrees trioDeployment c := by
  have hrun : ((Cluster.initial trioDeployment).runIf trioDeployment Cluster.unanswered
      (trioElection ++
        [.call 1 (.propose 5), .sendPreDurable 1 0, .persist 1, .deliver 5, .persist 2, .send 2,
          .deliver 6, .persist 1, .call 3 (.campaign 0), .persist 3, .send 3, .send 3, .send 3,
          .deliver 8, .persist 2, .send 2, .send 2, .deliver 9, .send 3, .deliver 10, .deliver 11,
          .deliver 12, .persist 3, .send 3, .send 3, .deliver 14, .persist 2, .send 2, .deliver 15,
          .persist 3])).map (fun c => ((c.hosts 1).journal, (c.hosts 3).journal)) =
      some ([.promise (ballotMake 1 0 1), .vote (ballotMake 1 0 1) 1 5, .chosen 1 5],
        [.promise (ballotMake 1 0 3), .vote (ballotMake 1 0 3) 1 5, .chosen 1 5]) := by
    decide +kernel
  obtain ⟨c, hc, hjournals⟩ := Option.map_eq_some_iff.mp hrun
  obtain ⟨hfirst, hthird⟩ := Prod.mk.inj hjournals
  have hreach : Cluster.Reaches trioDeployment (Faultless trioDeployment) c :=
    Cluster.Reaches.initial.of_runIf
      (fun _ _ hc hcheck => ⟨hc.calm_of_narrow (by decide) _, Cluster.repeats_of_unanswered hcheck⟩)
      hc
  exact ⟨c, hreach, by simp [hfirst], hthird, campaign_agreement hreach rfl⟩

/-! ## Two values for one slot -/

/-- The trio with a window and chunks of four slots. -/
def quadDeployment : Deployment :=
  { trioDeployment with
    params := quadParams
    admitted := rfl }

/-- Member 1 decides 5 in slot 1 with the vote of member 3, and 6 in slot 2 with that of member 2.
Member 2 answers the Prepare of member 3 with slot 2; it hears of the decision of slot 1 and answers
the same Prepare again, with both slots.  Member 3 gets the Promise of slot 1 and the first manifest,
counts one Promise against one, and leads with slot 2 unreported. -/
def mixedRun : List (Action Nat) :=
  trioElection ++ List.flatten ([
    [.call 1 (.proposeBatch [5, 6] 2), .persist 1, .persist 1, .send 1, .send 1, .send 1, .send 1,
      .deliver 6, .persist 3, .send 3, .deliver 7, .persist 2, .send 2, .deliver 9, .persist 1,
      .apply 1, .send 1, .deliver 10, .persist 1, .apply 1],
    -- the campaign of member 3 and the two answers of member 2
    [.call 3 (.campaign 0), .persist 3, .send 3, .send 3, .send 3, .deliver 13, .persist 2, .send 2,
      .send 2, .deliver 11, .persist 2, .apply 2, .deliver 13, .send 2],
    -- member 3 hears itself, the second Promise and the first manifest
    [.deliver 14, .send 3, .send 3, .deliver 18, .deliver 19, .deliver 17, .deliver 16, .persist 3,
      .apply 3],
    [.call 3 (.propose 7), .persist 3, .send 3, .send 3, .deliver 21, .persist 2, .send 2,
      .deliver 22, .persist 3]] : List (List (Action Nat)))

/-- Members 1 and 2 have voted for 6 in slot 2 at the first ballot, members 2 and 3 for 7 at the
second. -/
theorem mixedRun_journals :
    ((Cluster.initial quadDeployment).run quadDeployment mixedRun).map
        (fun c => ((c.hosts 1).journal, (c.hosts 2).journal, (c.hosts 3).journal)) =
      some ([.promise (ballotMake 1 0 1), .vote (ballotMake 1 0 1) 1 5,
          .vote (ballotMake 1 0 1) 2 6, .chosen 1 5, .chosen 2 6],
        [.promise (ballotMake 1 0 1), .vote (ballotMake 1 0 1) 2 6, .promise (ballotMake 2 0 3),
          .chosen 1 5, .vote (ballotMake 2 0 3) 2 7],
        [.vote (ballotMake 1 0 1) 1 5, .promise (ballotMake 2 0 3), .chosen 1 5,
          .vote (ballotMake 2 0 3) 2 7, .chosen 2 7]) := by
  decide +kernel

/-- Members 1 and 2 choose 6 for slot 2, members 2 and 3 choose 7. -/
theorem campaign_disagreement :
    ¬ ∀ (d : Deployment) (c : Cluster Nat), Cluster.Reaches d (fun _ _ => True) c →
      d.ownership = false → Agrees d c := by
  intro hall
  obtain ⟨c, hc, hjournals⟩ := Option.map_eq_some_iff.mp mixedRun_journals
  obtain ⟨hfirst, hrest⟩ := Prod.mk.inj hjournals
  obtain ⟨hsecond, hthird⟩ := Prod.mk.inj hrest
  have hagrees := hall quadDeployment c (Cluster.Reaches.initial.of_run hc) rfl
  have hsix : Ratified quadDeployment.membership c.durable 2 6 := by
    refine ⟨ballotMake 1 0 1, {1, 2}, fun m hm => ?_, by decide⟩
    unfold Cluster.durable
    rw [vote_mem_entries]
    rcases Finset.mem_insert.mp hm with rfl | hm
    · exact ⟨by decide, by simp [hfirst]⟩
    · rw [Finset.mem_singleton.mp hm, hsecond]
      exact ⟨by decide, by simp⟩
  have hseven : Ratified quadDeployment.membership c.durable 2 7 := by
    refine ⟨ballotMake 2 0 3, {2, 3}, fun m hm => ?_, by decide⟩
    unfold Cluster.durable
    rw [vote_mem_entries]
    rcases Finset.mem_insert.mp hm with rfl | hm
    · exact ⟨by decide, by simp [hsecond]⟩
    · rw [Finset.mem_singleton.mp hm, hthird]
      exact ⟨by decide, by simp⟩
  exact absurd (hagrees.chosen 2 6 7 hsix hseven) (by decide)

end PaxosOdin
