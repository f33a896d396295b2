import PaxosOdin.Cluster.Ballots
import PaxosOdin.Lifetime.Overwriting

/-!
# Decisions and the votes behind them

A leader counts acknowledgements in a cell that other slots, other ballots and earlier terms have
used before.  Each of them still stands for a vote: an acceptor acknowledges a proposal that it
voted for, or one whose value it holds as decided.  So a decision has a write quorum of votes behind
it, and everything that is derived from it has so, too: what a Commit, a Promise or a journal
reports.

One thing breaks the chain.  Two slots that are released through `pass_through` in one transition
share its value, and the first is recorded with the decision of the second.

Main definitions:

- Definition `Ratified`: a write quorum voted for the value at one ballot.
- Definition `Counted`: what the acknowledgements of a proposal stand for.
- Definition `Deciding`: what holds of the decisions of a transition in progress.

Main results:

- Theorem `Micro.deciding`: every small step keeps the votes behind the decisions.
- Theorem `decided_implies_chosen`: every durable decision is ratified, where no slots clash.
-/

namespace PaxosOdin

variable {V : Type} {P : Params} {I : Input V}

/-! ## Votes behind a decision -/

/-- A write quorum of the members voted for the value in the slot, at one ballot. -/
def Ratified (M : Membership) (logs : Nat → Log V) (slot : Nat) (value : V) : Prop :=
  ∃ ballot, ∃ q : Finset Nat, (∀ m ∈ q, m ∈ M.members ∧ .vote ballot slot value ∈ logs m) ∧
    M.writeQuorumSize ≤ q.card

theorem Ratified.mono {M : Membership} {logs logs' : Nat → Log V} {slot : Nat} {value : V}
    (h : Ratified M logs slot value) (hle : ∀ m, logs m ⊆ logs' m) :
    Ratified M logs' slot value := by
  obtain ⟨ballot, q, hq, hcard⟩ := h
  exact ⟨ballot, q, fun m hm => ⟨(hq m hm).1, hle m (hq m hm).2⟩, hcard⟩

/-- What the acknowledgements of a proposal stand for: each is by another member, counted once, was
sent for this ballot and slot unless it is the proposer's own, and its member voted for the proposal
or holds its value as decided. -/
structure Counted (M : Membership) (net : List (Envelope V)) (logs : Nat → Log V) (id : Nat)
    (l : Lead) : Prop where
  card : l.acknowledged = l.acknowledgements.card
  stands : ∀ i ∈ l.acknowledgements, ∃ m, M.members[i]? = some m ∧
    (m = id ∨ ∃ e ∈ net, e.sender = m ∧ ∃ decided, e.message = .accepted l.ballot l.slot decided) ∧
      ∃ v, .vote l.ballot l.slot v ∈ logs id ∧
        (.vote l.ballot l.slot v ∈ logs m ∨ Ratified M logs l.slot v)

theorem Counted.mono {M : Membership} {net net' : List (Envelope V)} {logs logs' : Nat → Log V}
    {id : Nat} {l : Lead} (h : Counted M net logs id l) (hnet : net ⊆ net')
    (hle : ∀ m, logs m ⊆ logs' m) : Counted M net' logs' id l := by
  refine ⟨h.card, fun i hi => ?_⟩
  obtain ⟨m, hm, hsent, v, hv, hback⟩ := h.stands i hi
  refine ⟨m, hm, hsent.imp_right fun ⟨e, he, hmsg⟩ => ⟨e, hnet he, hmsg⟩, v, hle id hv, ?_⟩
  exact hback.imp (fun h => hle m h) fun h => h.mono hle

/-- A write quorum of acknowledgements ratifies the value of the proposal. -/
theorem Counted.ratified {M : Membership} {net : List (Envelope V)} {logs : Nat → Log V} {id : Nat}
    {l : Lead} (h : Counted M net logs id l) (hnodup : M.members.Nodup)
    (hlawful : Synod.Lawful (logs id))
    (hquorum : M.writeQuorumSize ≤ l.acknowledged) {value : V}
    (hvote : .vote l.ballot l.slot value ∈ logs id) : Ratified M logs l.slot value := by
  have hstands : ∀ i ∈ l.acknowledgements, ∃ m, M.members[i]? = some m ∧
      (.vote l.ballot l.slot value ∈ logs m ∨ Ratified M logs l.slot value) := by
    intro i hi
    obtain ⟨m, hm, -, v, hv, hback⟩ := h.stands i hi
    obtain rfl := hlawful.value_unique hv hvote
    exact ⟨m, hm, hback⟩
  by_cases hsome : ∃ i ∈ l.acknowledgements, ∃ m, M.members[i]? = some m ∧
      .vote l.ballot l.slot value ∉ logs m
  · obtain ⟨i, hi, m, hm, hnot⟩ := hsome
    obtain ⟨m', hm', hback⟩ := hstands i hi
    cases hm.symm.trans hm'
    exact hback.resolve_left hnot
  · -- every acknowledgement is a vote at the ballot of the proposal
    have hmember : ∀ i ∈ l.acknowledgements, ∃ m, M.members[i]? = some m ∧
        M.members.getD i 0 = m ∧ .vote l.ballot l.slot value ∈ logs m := by
      intro i hi
      obtain ⟨m, hm, -⟩ := hstands i hi
      refine ⟨m, hm, by simp [List.getD, hm], ?_⟩
      by_contra hnot
      exact hsome ⟨i, hi, m, hm, hnot⟩
    refine ⟨l.ballot, l.acknowledgements.image fun i => M.members.getD i 0, fun m hm => ?_, ?_⟩
    · obtain ⟨i, hi, rfl⟩ := Finset.mem_image.mp hm
      obtain ⟨m, hget, heq, hv⟩ := hmember i hi
      rw [heq]
      exact ⟨List.mem_of_getElem? hget, hv⟩
    · rw [Finset.card_image_of_injOn, ← h.card]
      · exact hquorum
      · intro i hi j hj heq
        obtain ⟨m, hgi, hmi, -⟩ := hmember i hi
        obtain ⟨m', hgj, hmj, -⟩ := hmember j hj
        have hsame : m = m' := by
          rw [← hmi, ← hmj]
          exact heq
        subst hsame
        exact (List.getElem?_inj (List.getElem?_eq_some_iff.mp hgi).1 hnodup).mp
          (hgi.trans hgj.symm)

/-- What a message says about decisions: a Commit and a reported decision are ratified; what is
acknowledged was proposed, and its sender voted for it or holds it as decided. -/
def Attested (M : Membership) (net : List (Envelope V)) (logs : Nat → Log V) (e : Envelope V) :
    Prop :=
  match e.message with
  | .commit slot value => Ratified M logs slot value
  | .promise _ slot _ state value => state = .chosen → Ratified M logs slot value
  | .accepted ballot slot _ => ∃ v, (∃ sent ∈ net, sent.message = .accept ballot slot v) ∧
      (.vote ballot slot v ∈ logs e.sender ∨ Ratified M logs slot v)
  | _ => True

theorem Attested.mono {M : Membership} {net net' : List (Envelope V)} {logs logs' : Nat → Log V}
    {e : Envelope V} (h : Attested M net logs e) (hnet : net ⊆ net')
    (hle : ∀ m, logs m ⊆ logs' m) : Attested M net' logs' e := by
  obtain ⟨sender, recipient, message⟩ := e
  cases message with
  | commit slot value => exact Ratified.mono h hle
  | promise ballot slot vote state value => exact fun hstate => (h hstate).mono hle
  | accepted ballot slot through =>
      obtain ⟨v, ⟨sent, hsent, hmsg⟩, hback⟩ := h
      exact ⟨v, ⟨sent, hnet hsent, hmsg⟩, hback.imp (fun h => hle sender h) fun h => h.mono hle⟩
  | _ => trivial

/-! ## One transition -/

/-- What a transition is given: attested envelopes of the network, and no proposal at a ballot of
this node that it does not remember. -/
structure Informed (M : Membership) (net : List (Envelope V)) (D : Nat → Log V) (I : Input V)
    (n : Node V) : Prop where
  sent : ∀ sender msg, I.Hears n sender msg → ∃ e ∈ net, e.sender = sender ∧ e.message = msg
  attested : ∀ sender msg, I.Hears n sender msg → Attested M net D ⟨sender, n.id, msg⟩
  proposed : ∀ b, 0 < ballotRound b → Uses n b → ∀ s v,
    (∃ e ∈ net, e.message = .accept b s v) → .vote b s v ∈ D n.id

/-- The durable logs of all members, with the records of the transition in progress. -/
def St.view (D : Nat → Log V) (journal : List (Write V)) (σ : St V) : Nat → Log V :=
  Function.update D σ.node.id (σ.log journal)

/-- The votes behind the decisions of a transition in progress.  The decisions that are released
through `pass_through` are left out: their value may still change. -/
structure Deciding (M : Membership) (net : List (Envelope V)) (D : Nat → Log V)
    (journal : List (Write V)) (σ : St V) : Prop where
  cells : ∀ i, (σ.node.ledger.cells i).state = .chosen →
    Ratified M (σ.view D journal) (σ.node.ledger.cells i).slot (σ.node.ledger.cells i).value
  recovered : ∀ i, (σ.node.recovered i).state = .chosen →
    Ratified M (σ.view D journal) (σ.node.recovered i).slot (σ.node.recovered i).value
  leads : ∀ cell, (σ.node.lead cell).slot ≠ 0 →
    Counted M net (σ.view D journal) σ.node.id (σ.node.lead cell)
  writes : ∀ before slot value after, σ.effects.writes = before ++ .chosen slot value :: after →
    slot ∈ σ.effects.passedSlots ∨
      Ratified M (Function.update D σ.node.id (entries (journal ++ before))) slot value
  messages : ∀ e ∈ σ.effects.messages, Attested M net (σ.view D journal) e
  committed : ∀ entry ∈ σ.effects.committed, entry.passThrough = true ∨
    Ratified M (σ.view D journal) entry.slot entry.value

section Transitions

variable {M : Membership} {net : List (Envelope V)} {D : Nat → Log V}
  {journal : List (Write V)} {through : Nat}

theorem St.view_self (σ : St V) : σ.view D journal σ.node.id = σ.log journal :=
  Function.update_self _ _ _

theorem St.view_mono {σ σ' : St V} (hid : σ'.node.id = σ.node.id)
    (hlog : σ.log journal ⊆ σ'.log journal) (m : Nat) :
    σ.view D journal m ⊆ σ'.view D journal m := by
  unfold St.view
  rw [hid]
  by_cases hm : m = σ.node.id
  · subst hm
    rw [Function.update_self, Function.update_self]
    exact hlog
  · rw [Function.update_of_ne hm, Function.update_of_ne hm]
    exact fun e he => he

theorem St.le_view {σ : St V} (hself : D σ.node.id = entries journal) (m : Nat) :
    D m ⊆ σ.view D journal m := by
  unfold St.view
  by_cases hm : m = σ.node.id
  · subst hm
    rw [Function.update_self, hself]
    unfold St.log
    rw [entries_append]
    exact List.subset_append_left _ _
  · rw [Function.update_of_ne hm]
    exact fun e he => he

/-- A write quorum that acknowledged the vote of a cell ratifies it. -/
theorem QuorumAcked.ratified {σ : St V} {slot : Nat} {value : V}
    (h : QuorumAcked P σ.node slot value) (hs : Sound P through σ.node (σ.log journal))
    (hd : Deciding M net D journal σ)
    (hmembership : σ.node.membership = M) (hnodup : M.members.Nodup) :
    Ratified M (σ.view D journal) slot value := by
  have hvote := hs.remembers.cellVoted _ h.state
  have hheld := h.held
  simp only [Ledger.cellAt] at hheld
  have hpos : 0 < slot := by
    have hwin := (hs.obeys.window hvote (fun b hb => by cases hb) fun s hs => by cases hs).1
    exact hheld ▸ hwin
  have hlead := hd.leads (cellOf slot P.W) (by rw [h.lead]; omega)
  have hlawful : Synod.Lawful (σ.view D journal σ.node.id) := by
    rw [σ.view_self]
    exact hs.obeys.lawful
  have hself : .vote (σ.node.lead (cellOf slot P.W)).ballot (σ.node.lead (cellOf slot P.W)).slot
      value ∈ σ.view D journal σ.node.id := by
    rw [σ.view_self, h.lead, ← h.ballot, ← h.value]
    rw [hheld] at hvote
    exact hvote
  have hratified := hlead.ratified hnodup hlawful (hmembership ▸ h.acked) hself
  rw [h.lead] at hratified
  exact hratified

/-- A decision that a transition takes over is ratified. -/
theorem Decision.ratified {σ : St V} {n : Node V} {slot : Nat} {value : V}
    (h : Decision P I σ.node slot value) (hs : Sound P through σ.node (σ.log journal))
    (hd : Deciding M net D journal σ) (hin : Informed M net D I n) (hid : σ.node.id = n.id)
    (hself : D n.id = entries journal) (hmembership : σ.node.membership = M)
    (hnodup : M.members.Nodup) : Ratified M (σ.view D journal) slot value := by
  cases h with
  | heard sender hears =>
      have hears' : I.Hears n sender (.commit slot value) := by
        unfold Input.Hears at hears ⊢
        rwa [← hid]
      exact Ratified.mono (hin.attested sender _ hears') (St.le_view (hid ▸ hself))
  | recovered hdrives hslot hstate hvalue =>
      have hr := hd.recovered (slot - σ.node.recoverBase) hstate
      rwa [hslot, hvalue] at hr
  | acked hacked => exact hacked.ratified hs hd hmembership hnodup

/-- What a learner's step may send is attested. -/
theorem Sendable.attested {σ : St V} {n : Node V} {e : Envelope V} (h : Sendable P I σ e)
    (hs : Sound P through σ.node (σ.log journal)) (hd : Deciding M net D journal σ)
    (hin : Informed M net D I n) (hid : σ.node.id = n.id) (hmembership : σ.node.membership = M)
    (hnodup : M.members.Nodup) : Attested M net (σ.view D journal) e := by
  obtain ⟨sender, recipient, message⟩ := e
  obtain ⟨rfl, hback⟩ := h
  cases message with
  | commit slot value =>
      rcases hback with ⟨cell, hstate, rfl, rfl⟩ | hacked
      · exact hd.cells cell (hstate.elim (hs.remembers.bits.chosen cell).mp id)
      · exact hacked.ratified hs hd hmembership hnodup
  | accepted ballot slot decided =>
      obtain ⟨-, value, hears, hheld, rfl, hstate⟩ := hback
      have hears' : I.Hears n recipient
          (.accept ballot slot (σ.node.ledger.cellAt P slot).value) := by
        unfold Input.Hears at hears ⊢
        rwa [← hid]
      obtain ⟨sent, hsent, -, hmsg⟩ := hin.sent recipient _ hears'
      refine ⟨_, ⟨sent, hsent, hmsg⟩, ?_⟩
      simp only [Ledger.cellAt] at hheld hstate ⊢
      rcases hstate with ⟨hvoted, rfl⟩ | hchosen
      · left
        have hvote := hs.remembers.cellVoted _ hvoted
        rw [hheld] at hvote
        rw [σ.view_self]
        exact hvote
      · right
        have hr := hd.cells _ hchosen
        rwa [hheld] at hr
  | promise => exact hback.elim
  | _ => trivial

/-! ### Small steps -/

/-- What was justified stays so while the records grow; only what is new needs an argument. -/
theorem Deciding.step {σ σ' : St V} (hd : Deciding M net D journal σ)
    (hid : σ'.node.id = σ.node.id) (hlog : σ.log journal ⊆ σ'.log journal)
    (hcells : ∀ i, (σ'.node.ledger.cells i).state = .chosen →
      σ'.node.ledger.cells i = σ.node.ledger.cells i ∨
        Ratified M (σ.view D journal) (σ'.node.ledger.cells i).slot
          (σ'.node.ledger.cells i).value)
    (hrecovered : ∀ i, (σ'.node.recovered i).state = .chosen →
      ((σ.node.recovered i).state = .chosen ∧
        (σ'.node.recovered i).slot = (σ.node.recovered i).slot ∧
        (σ'.node.recovered i).value = (σ.node.recovered i).value) ∨
        Ratified M (σ.view D journal) (σ'.node.recovered i).slot (σ'.node.recovered i).value)
    (hleads : ∀ cell, (σ'.node.lead cell).slot ≠ 0 → σ'.node.lead cell = σ.node.lead cell ∨
      Counted M net (σ'.view D journal) σ.node.id (σ'.node.lead cell))
    (hwrites : ∀ before slot value after,
      σ'.effects.writes = before ++ .chosen slot value :: after → slot ∈ σ'.effects.passedSlots ∨
        Ratified M (Function.update D σ.node.id (entries (journal ++ before))) slot value)
    (hmessages : ∀ e ∈ σ'.effects.messages, e ∈ σ.effects.messages ∨
      Attested M net (σ.view D journal) e)
    (hcommitted : ∀ entry ∈ σ'.effects.committed, entry.passThrough = true ∨
      entry ∈ σ.effects.committed ∨ Ratified M (σ.view D journal) entry.slot entry.value) :
    Deciding M net D journal σ' := by
  have hview : ∀ m, σ.view D journal m ⊆ σ'.view D journal m := St.view_mono hid hlog
  refine ⟨fun i hc => ?_, fun i hc => ?_, fun cell hcell => ?_,
    fun before slot value after heq => ?_, fun e he => ?_, fun entry he => ?_⟩
  · rcases hcells i hc with heq | hr
    · rw [heq] at hc ⊢
      exact (hd.cells i hc).mono hview
    · exact hr.mono hview
  · rcases hrecovered i hc with ⟨hold, hslot, hvalue⟩ | hr
    · rw [hslot, hvalue]
      exact (hd.recovered i hold).mono hview
    · exact hr.mono hview
  · rcases hleads cell hcell with heq | hr
    · rw [heq] at hcell ⊢
      rw [hid]
      exact (hd.leads cell hcell).mono (fun _ h => h) hview
    · rwa [hid]
  · rw [hid]
    exact hwrites before slot value after heq
  · rcases hmessages e he with hold | hnew
    · exact (hd.messages e hold).mono (fun _ h => h) hview
    · exact hnew.mono (fun _ h => h) hview
  · rcases hcommitted entry he with hpass | hold | hr
    · exact Or.inl hpass
    · exact (hd.committed entry hold).imp_right fun hr => hr.mono hview
    · exact Or.inr (hr.mono hview)

/-- A further record that is no decision leaves the decisions of the batch as they are. -/
theorem Deciding.addWrite {σ : St V} (hd : Deciding M net D journal σ) {w : Write V}
    (hw : ∀ s v, w ≠ .chosen s v) : ∀ before slot value after,
      σ.effects.writes ++ [w] = before ++ .chosen slot value :: after →
        slot ∈ σ.effects.passedSlots ∨
          Ratified M (Function.update D σ.node.id (entries (journal ++ before))) slot value := by
  intro before slot value after heq
  rcases List.eq_nil_or_concat after with rfl | ⟨init, last, rfl⟩
  · have hlast := (List.append_inj' heq rfl).2
    simp only [List.cons.injEq, and_true] at hlast
    exact absurd hlast (hw slot value)
  · rw [List.concat_eq_append, ← List.cons_append, ← List.append_assoc] at heq
    exact hd.writes before slot value init (List.append_inj' heq rfl).1

/-- A step that touches neither the decisions nor the proposals nor the batch. -/
theorem Deciding.congr {σ σ' : St V} (hd : Deciding M net D journal σ)
    (hid : σ'.node.id = σ.node.id) (hcells : σ'.node.ledger.cells = σ.node.ledger.cells)
    (hrecovered : σ'.node.recovered = σ.node.recovered) (hlead : σ'.node.lead = σ.node.lead)
    (heffects : σ'.effects = σ.effects) : Deciding M net D journal σ' := by
  have hlog : σ'.log journal = σ.log journal := by
    unfold St.log
    rw [heffects]
  refine hd.step hid (fun e he => hlog ▸ he)
    (fun i _ => Or.inl (by rw [hcells])) (fun i hc => Or.inl ?_)
    (fun cell _ => Or.inl (by rw [hlead])) ?_ (fun e he => Or.inl (heffects ▸ he)) fun entry he =>
      Or.inr (Or.inl (heffects ▸ he))
  · rw [hrecovered] at hc ⊢
    exact ⟨hc, rfl, rfl⟩
  · rw [heffects]
    exact hd.writes

theorem Learn.deciding {σ σ' : St V} {n : Node V} (h : Learn P I σ σ')
    (hs : Sound P through σ.node (σ.log journal)) (hd : Deciding M net D journal σ)
    (hin : Informed M net D I n) (hid : σ.node.id = n.id) (hself : D n.id = entries journal)
    (hmembership : σ.node.membership = M) (hnodup : M.members.Nodup) :
    Deciding M net D journal σ' := by
  have hsame : ∀ i, (σ.node.recovered i).state = .chosen →
      ((σ.node.recovered i).state = .chosen ∧
        (σ.node.recovered i).slot = (σ.node.recovered i).slot ∧
        (σ.node.recovered i).value = (σ.node.recovered i).value) ∨
      Ratified M (σ.view D journal) (σ.node.recovered i).slot (σ.node.recovered i).value :=
    fun i hc => Or.inl ⟨hc, rfl, rfl⟩
  obtain ⟨more, hmore⟩ := h.log_grows journal
  have hlog : σ.log journal ⊆ σ'.log journal := by
    rw [hmore]
    exact List.subset_append_left _ _
  cases h with
  | note => exact hd.congr rfl rfl rfl rfl rfl
  | @claim slot =>
      refine hd.step rfl hlog (fun i hc => ?_) hsame (fun _ _ => Or.inl rfl)
        hd.writes (fun e he => Or.inl he) fun entry he => Or.inr (Or.inl he)
      by_cases hi : i = cellOf slot P.W
      · simp [St.withLedger, hi] at hc
      · exact Or.inl (by simp [St.withLedger, ledgerOpen_cells, hi])
  | @choose slot value hsource hlive hwindow hheld =>
      have hratified := hsource.ratified hs hd hin hid hself hmembership hnodup
      refine hd.step rfl hlog (fun i hc => ?_) hsame (fun _ _ => Or.inl rfl)
        (fun before s v after heq => ?_) (fun e he => Or.inl he) fun entry he => Or.inr (Or.inl he)
      · by_cases hi : i = cellOf slot P.W
        · subst hi
          simp only [Ledger.cellAt] at hheld
          right
          simpa [St.withLedger, St.addWrite, ledgerRecordChosen_cells, hheld] using hratified
        · exact Or.inl (by simp [St.withLedger, St.addWrite, ledgerRecordChosen_cells, hi])
      · rcases List.eq_nil_or_concat after with rfl | ⟨init, last, rfl⟩
        · obtain ⟨hbefore, hlast⟩ := List.append_inj' heq rfl
          simp only [List.cons.injEq, and_true, Write.chosen.injEq] at hlast
          obtain ⟨rfl, rfl⟩ := hlast
          right
          rw [← hbefore]
          exact hratified
        · rw [List.concat_eq_append, ← List.cons_append, ← List.append_assoc] at heq
          exact hd.writes before s v init (List.append_inj' heq rfl).1
  | @pass slot value hsource =>
      have hpassed : ({ (((σ.setPassThrough value).addWrite (.chosen slot value)).addCommitted
          ⟨slot, value, true⟩) with node := { (σ.setPassThrough value).node with
            deliveredThrough := slot } } : St V).effects.passedSlots =
          σ.effects.passedSlots ++ [slot] := by
        rw [← σ.setPassThrough_passedSlots value]
        simp [Effects.passedSlots, St.addCommitted, St.addWrite]
      refine hd.step rfl hlog (fun i _ => Or.inl rfl) hsame (fun _ _ => Or.inl rfl)
        (fun before s v after heq => ?_) (fun e he => Or.inl he) fun entry he => ?_
      · rw [hpassed]
        rcases List.eq_nil_or_concat after with rfl | ⟨init, last, rfl⟩
        · have hlast := (List.append_inj' heq rfl).2
          simp only [List.cons.injEq, and_true, Write.chosen.injEq] at hlast
          exact Or.inl (List.mem_append_right _ (by simp [hlast.1]))
        · rw [List.concat_eq_append, ← List.cons_append, ← List.append_assoc] at heq
          have hold := (List.append_inj' heq rfl).1
          obtain ⟨front, back, hsplit, hfront, hback⟩ := List.map_eq_append_iff.mp hold
          obtain ⟨w, rest, rfl, hw, -⟩ := List.map_eq_cons_iff.mp hback
          -- a record of a slot that was not passed is not rebound
          cases w with
          | chosen s' v' =>
              simp only [Write.rebind, Write.chosen.injEq] at hw
              obtain ⟨rfl, hv⟩ := hw
              by_cases hmem : s' ∈ σ.effects.passedSlots
              · exact Or.inl (List.mem_append_left _ hmem)
              · have hnot : s' ∉ (σ.effects.committed.filter (·.passThrough)).map (·.slot) := hmem
                rw [if_neg hnot] at hv
                subst hv
                right
                have hr := (hd.writes front s' v' rest hsplit).resolve_left hmem
                rw [← hfront, entries_append, entries_rebind, ← entries_append]
                exact hr
          | _ => cases hw
      · rcases List.mem_append.mp he with he | he
        · obtain ⟨old, hold, rfl⟩ := List.mem_map.mp he
          by_cases hflag : old.passThrough = true
          · exact Or.inl (by simp [hflag])
          · rw [if_neg hflag]
            exact Or.inr (Or.inl hold)
        · exact Or.inl (by simp [List.mem_singleton.mp he])
  | deliver _ hheld hchosen =>
      refine hd.step rfl hlog (fun i _ => Or.inl rfl) hsame (fun _ _ => Or.inl rfl)
        (fun before s v after heq => ?_) (fun e he => Or.inl he) fun entry he => ?_
      · refine (hd.writes before s v after heq).imp_left fun hs => ?_
        simpa [Effects.passedSlots, St.addCommitted] using hs
      · rcases List.mem_append.mp he with he | he
        · exact Or.inr (Or.inl he)
        · obtain rfl := List.mem_singleton.mp he
          have hr := hd.cells _ hchosen
          simp only [Ledger.cellAt] at hheld
          rw [hheld] at hr
          exact Or.inr (Or.inr hr)
  | send hsend =>
      refine hd.step rfl hlog (fun i _ => Or.inl rfl) hsame (fun _ _ => Or.inl rfl)
        hd.writes (fun e he => ?_) fun entry he => Or.inr (Or.inl he)
      rcases List.mem_append.mp he with he | he
      · exact Or.inl he
      · exact Or.inr ((hsend e he).attested hs hd hin hid hmembership hnodup)
  | request =>
      exact hd.step rfl hlog (fun i _ => Or.inl rfl) hsame (fun _ _ => Or.inl rfl)
        hd.writes (fun e he => Or.inl he) fun entry he => Or.inr (Or.inl he)

variable [DecidableEq V]

/-- A merged report is ratified when what it merges is. -/
theorem mergeReport_ratified {logs : Nat → Log V} {r : Recovered V} {slot vote : Nat}
    {state : CellState} {value : V} (hr : r.state = .chosen → Ratified M logs r.slot r.value)
    (hreport : state = .chosen → Ratified M logs slot value)
    (hc : (mergeReport r slot vote state value).1.state = .chosen) :
    Ratified M logs (mergeReport r slot vote state value).1.slot
      (mergeReport r slot vote state value).1.value := by
  unfold mergeReport at hc ⊢
  by_cases hslot : r.slot = slot
  · simp only [hslot, ne_eq, not_true_eq_false, if_false] at hc ⊢
    cases hstate : r.state with
    | empty =>
        simp only [hstate] at hc ⊢
        exact hreport hc
    | chosen =>
        simp only [hstate] at hc ⊢
        exact hslot ▸ hr hstate
    | voted =>
        simp only [hstate] at hc ⊢
        split_ifs at hc ⊢ with h1 <;> simp_all
  · simp only [ne_eq, hslot, not_false_eq_true, if_true] at hc ⊢
    exact hreport hc

/-- Every small step keeps the votes behind the decisions. -/
theorem Micro.deciding {σ σ' : St V} {n : Node V} (h : Micro P I σ σ')
    (ht : Transit P I through journal σ) (hb : Balloting I journal n σ)
    (hd : Deciding M net D journal σ) (hin : Informed M net D I n)
    (hself : D n.id = entries journal) (hmembership : σ.node.membership = M) (hm : M.Valid)
    (hmode : σ.node.ownership = false)
    (hvoting : σ.node.votingMember = true) : Deciding M net D journal σ' := by
  have hnodup : M.members.Nodup := hm.nodup
  have hid := hb.id_eq
  have hs := ht.steady.sound
  have hsame : ∀ i, (σ.node.recovered i).state = .chosen →
      ((σ.node.recovered i).state = .chosen ∧
        (σ.node.recovered i).slot = (σ.node.recovered i).slot ∧
        (σ.node.recovered i).value = (σ.node.recovered i).value) ∨
      Ratified M (σ.view D journal) (σ.node.recovered i).slot (σ.node.recovered i).value :=
    fun i hc => Or.inl ⟨hc, rfl, rfl⟩
  have hsid : σ'.node.id = σ.node.id := congrArg Static.id h.static
  obtain ⟨more, hmore⟩ := h.log_grows journal
  have hlog : σ.log journal ⊆ σ'.log journal := by
    rw [hmore]
    exact List.subset_append_left _ _
  cases h with
  | learn hl => exact hl.deciding hs hd hin hid hself hmembership hnodup
  | promise =>
      exact hd.step rfl hlog (fun i _ => Or.inl rfl) hsame (fun _ _ => Or.inl rfl)
        (hd.addWrite fun s v heq => by cases heq) (fun e he => Or.inl he)
        fun entry he => Or.inr (Or.inl he)
  | @promiseAt ballot slot =>
      refine hd.step rfl hlog (fun i hc => ?_) hsame (fun _ _ => Or.inl rfl)
        (hd.addWrite fun s v heq => by cases heq) (fun e he => Or.inl he)
        fun entry he => Or.inr (Or.inl he)
      by_cases hi : i = cellOf slot P.W
      · subst hi
        simp only [St.withLedger, St.addWrite, ledgerSetPromiseAt_cells, if_pos] at hc ⊢
        exact Or.inr (hd.cells _ hc)
      · exact Or.inl (by simp [St.withLedger, St.addWrite, ledgerSetPromiseAt_cells, hi])
  | @vote sender ballot slot value =>
      refine hd.step rfl hlog (fun i hc => ?_) hsame (fun _ _ => Or.inl rfl)
        (hd.addWrite fun s v heq => by cases heq) (fun e he => Or.inl he)
        fun entry he => Or.inr (Or.inl he)
      by_cases hi : i = cellOf slot P.W
      · simp [St.withLedger, St.addWrite, ledgerVote_cells, hi] at hc
      · exact Or.inl (by simp [St.withLedger, St.addWrite, ledgerVote_cells, hi])
  | @drive slot ballot value hballot hsource hlive =>
      refine hd.step rfl hlog (fun i hc => ?_) hsame (fun cell hcell => ?_)
        (hd.addWrite fun s v heq => by cases heq) (fun e he => Or.inl he)
        fun entry he => Or.inr (Or.inl he)
      · by_cases hi : i = cellOf slot P.W
        · simp [voteForProposal, St.addWrite, ledgerVote_cells, hi] at hc
        · exact Or.inl (by simp [voteForProposal, St.addWrite, ledgerVote_cells, hi])
      · by_cases hi : cell = cellOf slot P.W
        · subst hi
          right
          -- the proposer acknowledges its own vote
          have hvote : .vote ballot slot value ∈
              (voteForProposal σ (cellOf slot P.W) slot ballot value).view D journal σ.node.id := by
            show _ ∈ St.view D journal _ (voteForProposal σ (cellOf slot P.W) slot ballot
              value).node.id
            rw [St.view_self, St.log_append journal σ _ rfl rfl]
            exact List.mem_append_right _ (List.mem_singleton.mpr rfl)
          refine ⟨by simp [voteForProposal, St.addWrite], fun i hi => ?_⟩
          simp only [voteForProposal, St.addWrite, Function.update_self,
            Finset.mem_singleton] at hi ⊢
          subst hi
          exact ⟨σ.node.id, hmembership ▸ ht.steady.opened.member hvoting, Or.inl rfl, value, hvote,
            Or.inl hvote⟩
        · exact Or.inl (by simp [voteForProposal, St.addWrite, hi])
  | own hown =>
      rw [hmode] at hown
      cases hown
  | @acknowledge sender member ballot slot decided lead hears hmember hslot hballot hnew hlead =>
      refine hd.step rfl hlog (fun i _ => Or.inl rfl) hsame (fun cell hcell => ?_)
        hd.writes (fun e he => Or.inl he) fun entry he => Or.inr (Or.inl he)
      by_cases hi : cell = cellOf slot P.W
      swap
      · exact Or.inl (by simp [hi])
      subst hi
      simp only [Function.update_self] at hcell
      right
      show Counted M net (σ.view D journal) σ.node.id
        (Function.update σ.node.lead (cellOf slot P.W) lead (cellOf slot P.W))
      rw [Function.update_self, hlead]
      have hlive : (σ.node.lead (cellOf slot P.W)).slot ≠ 0 := by
        rw [hlead] at hcell
        exact hcell
      have hold := hd.leads _ hlive
      obtain ⟨-, hround⟩ := ht.signs _ hlive
      have huses : Uses n ballot := by
        rcases hb.uses ballot (Or.inr ⟨_, hlive, hballot⟩) with hu | heq
        · exact hu
        · have hpos := hround hmode
          rw [hballot, heq, ballotRound_ownership (hid ▸ ht.steady.id_lt)] at hpos
          exact absurd hpos (lt_irrefl 0)
      have hears' : I.Hears n sender (.accepted ballot slot decided) := by
        unfold Input.Hears at hears ⊢
        rwa [← hid]
      obtain ⟨v, hproposed, hback⟩ := hin.attested sender _ hears'
      have hmine : .vote ballot slot v ∈ σ.view D journal σ.node.id :=
        St.le_view (hid ▸ hself) _ (hid ▸ hin.proposed ballot (hballot ▸ hround hmode) huses slot v
          hproposed)
      refine ⟨by simp [Finset.card_insert_of_notMem hnew, hold.card], fun i hi => ?_⟩
      rcases Finset.mem_insert.mp hi with rfl | hi
      · obtain ⟨sent, hsent, hsender, hmsg⟩ := hin.sent sender _ hears'
        refine ⟨sender, (membershipIndexOf_eq_some hm).mp (hmembership ▸ hmember),
          Or.inr ⟨sent, hsent, hsender, decided, ?_⟩, v, ?_, ?_⟩
        · simp only [hslot, hballot]
          exact hmsg
        · simp only [hslot, hballot]
          exact hmine
        · simp only [hslot, hballot]
          exact hback.imp (fun h => St.le_view (hid ▸ hself) _ h)
            fun h => h.mono (St.le_view (hid ▸ hself))
      · exact hold.stands i hi
  | @report sender member offset ballot slot vote state value hears =>
      have hears' : I.Hears n sender (.promise ballot slot vote state value) := by
        unfold Input.Hears at hears ⊢
        rwa [← hid]
      have hreport : state = .chosen → Ratified M (σ.view D journal) slot value := fun hstate =>
        (hin.attested sender _ hears' hstate).mono (St.le_view (hid ▸ hself))
      have hfields : (recordReport σ.node member offset slot vote state value).1.ledger =
            σ.node.ledger ∧
          (recordReport σ.node member offset slot vote state value).1.lead = σ.node.lead ∧
          (recordReport σ.node member offset slot vote state value).1.recovered =
            Function.update σ.node.recovered offset
              (mergeReport (σ.node.recovered offset) slot vote state value).1 := by
        unfold recordReport
        dsimp only
        split_ifs <;> exact ⟨rfl, rfl, rfl⟩
      refine hd.step hsid hlog (fun i _ => Or.inl ?_) (fun i hc => ?_)
        (fun cell _ => Or.inl ?_) ?_ (fun e he => Or.inl he) fun entry he => Or.inr (Or.inl he)
      · show (recordReport σ.node member offset slot vote state value).1.ledger.cells i = _
        rw [hfields.1]
      · change ((recordReport σ.node member offset slot vote state value).1.recovered i).state =
          .chosen at hc
        show _ ∨ Ratified M (σ.view D journal)
          ((recordReport σ.node member offset slot vote state value).1.recovered i).slot
            ((recordReport σ.node member offset slot vote state value).1.recovered i).value
        rw [hfields.2.2] at hc ⊢
        by_cases hi : i = offset
        · subst hi
          rw [Function.update_self] at hc ⊢
          exact Or.inr (mergeReport_ratified (hd.recovered i) hreport hc)
        · rw [Function.update_of_ne hi] at hc ⊢
          exact Or.inr (hd.recovered i hc)
      · show (recordReport σ.node member offset slot vote state value).1.lead cell = _
        rw [hfields.2.1]
      · exact hd.writes
  | nextChunk =>
      refine hd.step rfl hlog (fun i _ => Or.inl rfl) (fun i hc => (by cases hc))
        (fun _ _ => Or.inl rfl) hd.writes (fun e he => ?_) fun entry he => Or.inr (Or.inl he)
      rcases List.mem_append.mp he with he | he
      · exact Or.inl he
      · obtain ⟨peer, -, rfl⟩ := List.mem_map.mp he
        exact Or.inr trivial
  | _ => exact hd.congr rfl rfl rfl rfl rfl

omit [DecidableEq V] in
/-- So does the step that ends a transition. -/
theorem Final.deciding {n₀ : Node V} {σ σ' : St V} (h : Final P I n₀ σ σ')
    (hd : Deciding M net D journal σ) : Deciding M net D journal σ' := by
  obtain ⟨more, hmore⟩ := h.log_grows journal
  have hlog : σ.log journal ⊆ σ'.log journal := by
    rw [hmore]
    exact List.subset_append_left _ _
  cases h with
  | campaign =>
      refine hd.step rfl hlog (fun i _ => Or.inl rfl) (fun i hc => (by cases hc))
        (fun cell hcell => absurd rfl hcell) (hd.addWrite fun s v heq => by cases heq)
        (fun e he => ?_) fun entry he => Or.inr (Or.inl he)
      rcases List.mem_append.mp he with he | he
      · exact Or.inl he
      · obtain ⟨peer, -, rfl⟩ := List.mem_map.mp he
        exact Or.inr trivial
  | revoke =>
      refine hd.step rfl hlog (fun i _ => Or.inl rfl) (fun i hc => (by cases hc))
        (fun cell hcell => absurd rfl hcell) hd.writes (fun e he => ?_)
        fun entry he => Or.inr (Or.inl he)
      rcases List.mem_append.mp he with he | he
      · exact Or.inl he
      · obtain ⟨peer, -, rfl⟩ := List.mem_map.mp he
        exact Or.inr trivial
  | answer =>
      refine hd.step rfl hlog (fun i _ => Or.inl rfl)
        (fun i hc => Or.inl ⟨hc, rfl, rfl⟩) (fun _ _ => Or.inl rfl) hd.writes (fun e he => ?_)
        fun entry he => Or.inr (Or.inl he)
      rcases List.mem_append.mp he with he | he
      · rcases List.mem_append.mp he with he | he
        · exact Or.inl he
        · obtain ⟨cell, -, rfl⟩ := List.mem_map.mp he
          exact Or.inr fun hstate => hd.cells cell hstate
      · obtain rfl := List.mem_singleton.mp he
        exact Or.inr trivial

/-- A whole transition. -/
theorem Completes.deciding {σ : St V} {n : Node V} (hc : Completes P I n (St.start n) σ)
    (ht : Transit P I through journal (St.start n))
    (hd : Deciding M net D journal (St.start n)) (hin : Informed M net D I n)
    (hself : D n.id = entries journal) (hmembership : n.membership = M) (hm : M.Valid)
    (hmode : n.ownership = false) (hvoting : n.votingMember = true) :
    Deciding M net D journal σ := by
  obtain ⟨τ, hrun, hlast⟩ := hc
  have hτ : Transit P I through journal τ ∧ Balloting I journal n τ ∧
      τ.node.static = n.static ∧ Deciding M net D journal τ := by
    refine hrun.preserves (motive := fun τ => Transit P I through journal τ ∧
      Balloting I journal n τ ∧ τ.node.static = n.static ∧ Deciding M net D journal τ) ?_
      ⟨ht, .start journal n, rfl, hd⟩
    rintro τ τ' hm' ⟨ht, hb, hstatic, hd⟩
    exact ⟨hm'.transit ht, hm'.balloting hb, hm'.static.trans hstatic,
      hm'.deciding ht hb hd hin hself ((congrArg Static.membership hstatic).trans hmembership) hm
        ((congrArg Static.ownership hstatic).trans hmode)
        ((congrArg Static.votingMember hstatic).trans hvoting)⟩
  rcases hlast with rfl | hfinal
  · exact hτ.2.2.2
  · exact hfinal.deciding hτ.2.2.2

end Transitions

/-! ### What is passed through -/

section Passing

variable {M : Membership} {net : List (Envelope V)} {D : Nat → Log V}
  {journal : List (Write V)} {through : Nat}

variable [DecidableEq V]

/-- A decision whose slot has a cell is not passed through. -/
theorem recordCommit_passedSlots {σ : St V} {slot : Nat} (value : V)
    (hclaim : σ.node.memoryFloor < slot → (claimLive P σ.node slot).2 ≠ none) :
    (recordCommit P σ slot value).1.effects.passedSlots = σ.effects.passedSlots := by
  unfold recordCommit
  by_cases h0 : slot = 0
  · rw [if_pos h0]
  rw [if_neg h0]
  dsimp only
  by_cases hlow : slot ≤ σ.node.memoryFloor ∨ slot ≤ σ.node.ledger.anchor.chosenTrimSlot
  · rw [if_pos hlow]
  rw [if_neg hlow]
  rw [not_or] at hlow
  have hiff : (claimLive P { σ.node with highestSeen := max σ.node.highestSeen slot } slot).2 =
      none ↔ (claimLive P σ.node slot).2 = none := by
    rw [claimLive_none_iff, claimLive_none_iff]
    exact Iff.rfl
  have hsome : (claimLive P { σ.node with highestSeen := max σ.node.highestSeen slot } slot).2 ≠
      none := fun hnone => hclaim (by omega) (hiff.mp hnone)
  rcases hcase : claimLive P { σ.node with highestSeen := max σ.node.highestSeen slot } slot with
    ⟨n, _ | cell⟩
  · rw [hcase] at hsome
    exact absurd rfl hsome
  · dsimp only
    split_ifs <;> first | rfl | exact (emitContiguous_released _).1

/-- Nothing is passed through when an acknowledgement is counted. -/
theorem onAccepted_passedSlots {σ : St V} {member ballot slot : Nat}
    (hwindow : (σ.node.ledger.cellAt P slot).slot = slot →
      (σ.node.ledger.cellAt P slot).state = .voted → slot ≤ σ.node.memoryFloor + P.W) :
    (onAccepted P σ member ballot slot).1.effects.passedSlots = σ.effects.passedSlots := by
  unfold onAccepted
  dsimp only
  generalize (if member ∈ (σ.node.lead (cellOf slot P.W)).acknowledgements then
    σ.node.lead (cellOf slot P.W) else
    { σ.node.lead (cellOf slot P.W) with
      acknowledgements := insert member (σ.node.lead (cellOf slot P.W)).acknowledgements
      acknowledged := (σ.node.lead (cellOf slot P.W)).acknowledged + 1 }) = lead
  split_ifs with h0 hlead hcount hcell hballot hstate <;> try rfl
  rw [not_or] at hcell
  have hheld : (σ.node.ledger.cells (cellOf slot P.W)).slot = slot := not_not.mp hcell.1
  have hcommit : (recordCommit P { σ with node := { σ.node with
      lead := Function.update σ.node.lead (cellOf slot P.W) lead } } slot
      (σ.node.ledger.cells (cellOf slot P.W)).value).1.effects.passedSlots =
      σ.effects.passedSlots := by
    apply recordCommit_passedSlots
    intro hlive hnone
    rcases claimLive_none_iff.mp hnone with hle | hlt | hstuck
    · exact absurd hlive (not_lt.mpr hle)
    · exact absurd (hwindow hheld (not_not.mp hstate)) (not_le.mpr hlt)
    · exact hstuck.2.1 hheld
  rcases hcase : recordCommit P { σ with node := { σ.node with
      lead := Function.update σ.node.lead (cellOf slot P.W) lead } } slot
      (σ.node.ledger.cells (cellOf slot P.W)).value with ⟨τ, e⟩
  rw [hcase] at hcommit
  cases e <;> exact hcommit

omit [DecidableEq V] in
theorem notePeerProgress_ledger (n : Node V) (member : Nat) (m : Message V) :
    (notePeerProgress n member m).ledger = n.ledger := by
  unfold notePeerProgress
  split <;> rfl

omit [DecidableEq V] in
theorem notePeerProgress_memoryFloor (n : Node V) (member : Nat) (m : Message V) :
    (notePeerProgress n member m).memoryFloor = n.memoryFloor := by
  unfold notePeerProgress
  split <;> rfl

theorem nodeStep_accepted_passedSlots {n : Node V} {e : Envelope V} {ballot slot decided : Nat}
    (hmsg : e.message = .accepted ballot slot decided)
    (hwindow : (n.ledger.cellAt P slot).slot = slot → (n.ledger.cellAt P slot).state = .voted →
      slot ≤ n.memoryFloor + P.W) : (nodeStep P n e).1.effects.passedSlots = [] := by
  unfold nodeStep
  by_cases hrecipient : e.recipient ≠ n.id
  · rw [if_pos hrecipient]
    rfl
  rw [if_neg hrecipient]
  cases membershipIndexOf n.membership e.sender with
  | none => rfl
  | some member =>
      have hkeep : ((notePeerProgress n member e.message).ledger.cellAt P slot).slot = slot →
          ((notePeerProgress n member e.message).ledger.cellAt P slot).state = .voted →
          slot ≤ (notePeerProgress n member e.message).memoryFloor + P.W := by
        rwa [notePeerProgress_ledger, notePeerProgress_memoryFloor]
      cases hvoting : n.votingMember with
      | true =>
          simp only [hmsg, dispatch, Bool.not_true] at hkeep ⊢
          exact onAccepted_passedSlots hkeep
      | false =>
          simp only [hmsg, Bool.not_false]
          rfl

omit [DecidableEq V] in
/-- The start of a transition sees the durable logs. -/
theorem St.view_start {n : Node V} (hself : D n.id = entries journal) :
    (St.start n).view D journal = D := by
  unfold St.view St.log
  simp only [St.start, List.append_nil]
  rw [← hself]
  exact Function.update_eq_self _ _

/-- A slot that an operation passes through has its decision from the scratch of the recovery, from
a Commit or from a reported decision. -/
theorem decisionFor_source {n : Node V} {op : Operation V} {id slot : Nat} {value : V} {log : Log V}
    (hs : Sound P n.memoryFloor n log) (hid : n.id = id) (hserves : Serves net id op)
    (hpassed : slot ∈ (operate P n op).effects.passedSlots)
    (htold : decisionFor P n op slot = some value) :
    (∃ i, (n.recovered i).state = .chosen ∧ (n.recovered i).slot = slot ∧
        (n.recovered i).value = value) ∨
      ∃ sender msg, (op.input n).Hears n sender msg ∧ (msg = .commit slot value ∨
        ∃ ballot vote, msg = .promise ballot slot vote .chosen value) := by
  have hrecovered : n.recoveredDecision slot = some value → ∃ i, (n.recovered i).state = .chosen ∧
      (n.recovered i).slot = slot ∧ (n.recovered i).value = value := by
    intro h
    unfold Node.recoveredDecision at h
    dsimp only at h
    split_ifs at h with hchosen
    cases h
    exact ⟨_, hchosen.2, hchosen.1, rfl⟩
  rcases hserves with ⟨call, rfl⟩ | ⟨e, he, hrecipient, rfl⟩
  · cases call with
    | tick noop =>
        simp only [decisionFor] at htold
        split_ifs at htold
        exact Or.inl (hrecovered htold)
    | _ => cases htold
  · obtain ⟨sender, recipient, message⟩ := e
    obtain rfl : recipient = n.id := hrecipient.trans hid.symm
    cases message with
    | commit s v =>
        simp only [decisionFor, heardDecision] at htold
        split_ifs at htold with heq
        cases htold
        exact Or.inr ⟨sender, _, rfl, Or.inl (by rw [heq])⟩
    | promise ballot s vote state v =>
        have htold' : (if n.role = .preparing then (n.recoveredDecision slot).or
            (if s = slot ∧ state = .chosen then some v else none) else none) = some value := htold
        by_cases hrole : n.role = .preparing
        · rw [if_pos hrole] at htold'
          rcases Option.or_eq_some_iff.mp htold' with h | ⟨-, h⟩
          · exact Or.inl (hrecovered h)
          · split_ifs at h with hreport
            cases h
            exact Or.inr ⟨sender, _, rfl, Or.inr ⟨ballot, vote, by rw [hreport.1, hreport.2]⟩⟩
        · rw [if_neg hrole] at htold'
          cases htold'
    | promiseRange =>
        simp only [decisionFor, heardDecision] at htold
        split_ifs at htold
        exact Or.inl (hrecovered htold)
    | accepted ballot s decided =>
        have hnone : (operate P n
            (.step ⟨sender, n.id, .accepted ballot s decided⟩)).effects.passedSlots = [] := by
          refine nodeStep_accepted_passedSlots rfl fun hheld hvoted => ?_
          have hvote := hs.remembers.cellVoted _ hvoted
          simp only [Ledger.cellAt] at hheld
          rw [hheld] at hvote
          exact (hs.obeys.window hvote (fun b hb => by cases hb) fun s hs => by cases hs).2
        rw [hnone] at hpassed
        cases hpassed
    | _ => cases htold

/-- What an operation hands to `record_commit` for a slot that it passes through is ratified. -/
theorem decisionFor_ratified {n : Node V} {op : Operation V} {id slot : Nat} {value : V}
    (hs : Sound P n.memoryFloor n (entries journal)) (hd : Deciding M net D journal (St.start n))
    (hin : Informed M net D (op.input n) n) (hself : D n.id = entries journal) (hid : n.id = id)
    (hserves : Serves net id op) (hpassed : slot ∈ (operate P n op).effects.passedSlots)
    (htold : decisionFor P n op slot = some value) : Ratified M D slot value := by
  rcases decisionFor_source hs hid hserves hpassed htold with
    ⟨i, hstate, rfl, rfl⟩ | ⟨sender, msg, hears, rfl | ⟨ballot, vote, rfl⟩⟩
  · have hr := hd.recovered i hstate
    rwa [St.view_start hself] at hr
  · exact hin.attested sender _ hears
  · exact hin.attested sender _ hears rfl

/-- A finished transition without a clash: everything it decides is ratified, also what it passes
through. -/
theorem Deciding.settled {n : Node V} {op : Operation V} {id : Nat}
    (hs : Sound P n.memoryFloor n (entries journal)) (ho : Opened P n)
    (hstart : Deciding M net D journal (St.start n))
    (hd : Deciding M net D journal (operate P n op)) (hid' : (operate P n op).node.id = n.id)
    (hin : Informed M net D (op.input n) n) (hself : D n.id = entries journal) (hid : n.id = id)
    (hserves : Serves net id op)
    (hcalm : ∀ first second, ¬ Clash P n (decisionFor P n op) first second) :
    (∀ before slot value after,
      (operate P n op).effects.writes = before ++ .chosen slot value :: after →
        Ratified M (Function.update D id (entries (journal ++ before))) slot value) ∧
    ∀ entry ∈ (operate P n op).effects.committed,
      Ratified M ((operate P n op).view D journal) entry.slot entry.value := by
  have hstable : Stable P (decisionFor P n op) (operate P n op) :=
    operate_stable hs.remembers.tagged ho.floor op hcalm
  -- what was passed through is the decision that the operation was given
  have hpassed : ∀ slot value, slot ∈ (operate P n op).effects.passedSlots →
      Reference.passed slot value ∈ (operate P n op).effects.references P →
        Ratified M D slot value := by
    intro slot value hmem href
    have htold := hstable.denotes _ href
    exact decisionFor_ratified hs hstart hin hself hid hserves hmem htold
  constructor
  · intro before slot value after heq
    have hgrow : ∀ m, D m ⊆ Function.update D id (entries (journal ++ before)) m := by
      intro m
      by_cases hm : m = id
      · subst hm
        rw [Function.update_self, ← hid, hself, entries_append]
        exact List.subset_append_left _ _
      · rw [Function.update_of_ne hm]
        exact fun e he => he
    rcases hd.writes before slot value after heq with hmem | hr
    · have href : Reference.passed slot value ∈ (operate P n op).effects.references P := by
        apply Effects.mem_references.mpr
        exact Or.inl ⟨.chosen slot value, by simp [heq], by simp [Write.references, hmem]⟩
      exact (hpassed slot value hmem href).mono hgrow
    · rw [hid', hid] at hr
      exact hr
  · intro entry hentry
    rcases hd.committed entry hentry with hpass | hr
    · have hmem : entry.slot ∈ (operate P n op).effects.passedSlots :=
        Effects.mem_passedSlots.mpr ⟨entry, hentry, hpass, rfl⟩
      refine (hpassed entry.slot entry.value hmem (Effects.mem_references.mpr
        (Or.inr (Or.inr ⟨entry, hentry, ?_⟩)))).mono (St.le_view (hid' ▸ hself))
      simp [Committed.reference, hpass]
    · exact hr

end Passing

/-! ## The hosts -/

/-- The durable logs of all members. -/
def Cluster.durable (c : Cluster V) : Nat → Log V :=
  fun id => entries (c.hosts id).journal

/-- The logs as the member `id` sees them: its own with what is not durable yet. -/
def Host.view (D : Nat → Log V) (id : Nat) (h : Host V) : Nat → Log V :=
  Function.update D id h.log

/-- The votes behind the decisions of a host: those on record, those under way, and those that its
node holds. -/
structure Backed (M : Membership) (net : List (Envelope V)) (D : Nat → Log V) (id : Nat)
    (h : Host V) : Prop where
  journal : ∀ slot value, .chosen slot value ∈ h.journal → Ratified M D slot value
  pending : ∀ before slot value after, h.pending = before ++ .chosen slot value :: after →
    Ratified M (Function.update D id (entries (h.journal ++ before))) slot value
  cells : ∀ n, h.node = some n → ∀ i, (n.ledger.cells i).state = .chosen →
    Ratified M (h.view D id) (n.ledger.cells i).slot (n.ledger.cells i).value
  recovered : ∀ n, h.node = some n → ∀ i, (n.recovered i).state = .chosen →
    Ratified M (h.view D id) (n.recovered i).slot (n.recovered i).value
  leads : ∀ n, h.node = some n → ∀ cell, (n.lead cell).slot ≠ 0 →
    Counted M net (h.view D id) id (n.lead cell)
  outbox : ∀ e ∈ h.outbox, Attested M net (h.view D id) e
  released : ∀ entry ∈ h.released, Ratified M (h.view D id) entry.slot entry.value
  applied : ∀ entry ∈ h.applied, Ratified M D entry.slot entry.value

section Hosts

variable {d : Deployment} {M : Membership} {net es : List (Envelope V)} {D D' : Nat → Log V}
  {id : Nat} {h h' : Host V} {asked : Option (Operation V)}

theorem update_mono (hle : ∀ m, D m ⊆ D' m) (log : Log V) (m : Nat) :
    Function.update D id log m ⊆ Function.update D' id log m := by
  by_cases hm : m = id
  · subst hm
    simp
  · simpa [hm] using hle m

/-- What is behind a decision stays there. -/
theorem Backed.mono {net' : List (Envelope V)} (hb : Backed M net D id h) (hnet : net ⊆ net')
    (hle : ∀ m, D m ⊆ D' m) : Backed M net' D' id h where
  journal slot value hw := (hb.journal slot value hw).mono hle
  pending before slot value after heq :=
    (hb.pending before slot value after heq).mono (update_mono hle _)
  cells n hn i hi := (hb.cells n hn i hi).mono (update_mono hle _)
  recovered n hn i hi := (hb.recovered n hn i hi).mono (update_mono hle _)
  leads n hn cell hcell := (hb.leads n hn cell hcell).mono hnet (update_mono hle _)
  outbox e he := (hb.outbox e he).mono hnet (update_mono hle _)
  released entry he := (hb.released entry he).mono (update_mono hle _)
  applied entry he := (hb.applied entry he).mono hle

/-- What the network brings to a host informs its transition. -/
theorem Recorded.informed {n : Node V} {op : Operation V} (hr : Recorded d id h)
    (hnode : h.node = some n) (hpending : h.pending = []) (hself : D id = entries h.journal)
    (hserves : Serves net id op) (hattested : ∀ e ∈ net, Attested M net D e)
    (hused : ∀ b, 0 < ballotRound b → Uses n b → ∀ s v,
      (∃ e ∈ net, e.message = .accept b s v) → .vote b s v ∈ h.log) :
    Informed M net D (op.input n) n := by
  have hid := (hr.works n hnode).id_eq
  have hheard : ∀ sender msg, (op.input n).Hears n sender msg →
      (⟨sender, n.id, msg⟩ : Envelope V) ∈ net := by
    intro sender msg hears
    rcases hserves with ⟨call, rfl⟩ | ⟨e, he, -, rfl⟩
    · cases call <;> cases hears
    · cases hears
      exact he
  refine ⟨fun sender msg hears => ⟨_, hheard sender msg hears, rfl, rfl⟩,
    fun sender msg hears => hattested _ (hheard sender msg hears), fun b hround hu s v hp => ?_⟩
  have hvote := hused b hround hu s v hp
  unfold Host.log at hvote
  rwa [hpending, List.append_nil, ← hself, ← hid] at hvote

/-- A host begins a transition with the votes behind the decisions of its node. -/
theorem Backed.begins {n : Node V} (hb : Backed M net D id h) (hid : n.id = id)
    (hnode : h.node = some n) (hpending : h.pending = []) (hself : D id = entries h.journal) :
    Deciding M net D h.journal (St.start n) := by
  have hview : h.view D id = D := by
    unfold Host.view Host.log
    rw [hpending, List.append_nil, ← hself]
    exact Function.update_eq_self _ _
  have hview₀ : (St.start n).view D h.journal = D := St.view_start (hid ▸ hself)
  refine ⟨fun i hi => ?_, fun i hi => ?_, fun cell hcell => ?_, fun before s v after heq => ?_,
    fun e he => absurd he List.not_mem_nil, fun entry he => absurd he List.not_mem_nil⟩
  · rw [hview₀, ← hview]
    exact hb.cells n hnode i hi
  · rw [hview₀, ← hview]
    exact hb.recovered n hnode i hi
  · rw [hview₀, ← hview]
    show Counted M net _ n.id (n.lead cell)
    rw [hid]
    exact hb.leads n hnode cell hcell
  · simp [St.start] at heq

variable [DecidableEq V]

/-- A transition of a host. -/
theorem Backed.operated [Inhabited V] {n : Node V} {op : Operation V} (hb : Backed M net D id h)
    (hr : Recorded d id h) (hnet : ∀ e ∈ net, e.Authentic d.ownership)
    (hmode : d.ownership = false) (hM : d.membership = M) (hnode : h.node = some n)
    (hpending : h.pending = []) (hself : D id = entries h.journal)
    (hserves : Serves net id op) (hin : Informed M net D (op.input n) n)
    (hcalm : ∀ first second, ¬ Clash d.params n (decisionFor d.params n op) first second) :
    Backed M net D id (h.after (operate d.params n op)) := by
  have hw := hr.works n hnode
  have hid := hw.id_eq
  have hsound := hw.sound
  rw [hpending, List.append_nil] at hsound
  have hself' : D n.id = entries h.journal := hid ▸ hself
  obtain ⟨hstart, hdone⟩ := hr.begins hnet hnode hpending hserves
  have hbegin := hb.begins hid hnode hpending hself
  have hvalid : M.Valid := hM ▸ d.valid
  have hd := hdone.deciding hstart hbegin hin hself' (hw.membership.trans hM) hvalid
    (hw.mode.trans hmode) hw.voting
  have hid' : (operate d.params n op).node.id = n.id := congrArg Static.id hdone.static
  obtain ⟨hwrites, hcommitted⟩ :=
    hbegin.settled hsound hw.opened hd hid' hin hself' hid hserves hcalm
  have hview' : (operate d.params n op).view D h.journal =
      (h.after (operate d.params n op)).view D id := by
    unfold St.view Host.view
    rw [hid', hid]
    rfl
  refine ⟨hb.journal, hwrites, fun n' hn' i hi => ?_, fun n' hn' i hi => ?_,
    fun n' hn' cell hcell => ?_, fun e he => ?_, fun entry he => ?_, hb.applied⟩
  · cases hn'
    rw [← hview']
    exact hd.cells i hi
  · cases hn'
    rw [← hview']
    exact hd.recovered i hi
  · cases hn'
    rw [← hview']
    have hlead := hd.leads cell hcell
    rwa [hid', hid] at hlead
  · rw [← hview']
    exact hd.messages e he
  · rw [← hview']
    exact hcommitted entry he

/-- A node that has just been restarted holds the decisions of its journal, and no others. -/
theorem Backed.restarted [Inhabited V] (hb : Backed M net D id h) (hr : Recorded d id h)
    (hself : D id = entries h.journal) {options : NodeOptions}
    (hrestart : h.restarted d id options = some h') : Backed M net D id h' := by
  unfold Host.restarted at hrestart
  split at hrestart
  swap
  · cases hrestart
  next l hreplay =>
  split at hrestart
  swap
  · cases hrestart
  next n hn =>
  cases hrestart
  have hview : Host.view D id { h with
      node := some n, pending := [], outbox := [], released := [] } = D := by
    unfold Host.view Host.log
    rw [List.append_nil, ← hself]
    exact Function.update_eq_self _ _
  have hfold : Folded d.params h.journal l := replay_folded hr.durable.obeys.orderly hreplay
  have hanchor : l.anchor = {} := replayFrom_anchor hr.durable.untrimmed hreplay
  have hfields := nodeRestore_fields d.valid (by rw [hanchor]) hn
  obtain ⟨-, hlead, -⟩ := nodeRestore_fresh hn
  refine ⟨hb.journal, fun before s v after heq => by simp at heq, fun n' hn' i hi => ?_,
    fun n' hn' i hi => ?_, fun n' hn' cell hcell => ?_, fun e he => absurd he List.not_mem_nil,
    fun entry he => absurd he List.not_mem_nil, hb.applied⟩
  · cases hn'
    rw [hview]
    rw [hfields.ledger] at hi ⊢
    have hcell := (clearOpenCells_cells (P := d.params) h.consumed l).used (i := i) (by simp [hi])
    rw [hcell] at hi ⊢
    have h0 : (l.cells i).slot ≠ 0 := fun h0 => by
      rw [(hfold.cells i).free h0] at hi
      cases hi
    have hshows := (hfold.cells i).shows h0
    unfold Shows at hshows
    rw [hi] at hshows
    exact hb.journal _ _ hshows.mem
  · cases hn'
    have hnone : (n.recovered i).state = .empty := by
      unfold nodeRestore at hn
      split at hn
      · cases hn
      · next n₀ hinit =>
          cases hn
          unfold nodeInit at hinit
          split at hinit
          · cases hinit
          · cases hinit
            unfold nodeResumeAt
            dsimp only
            split_ifs <;> rfl
    rw [hnone] at hi
    cases hi
  · cases hn'
    rw [hlead] at hcell
    exact absurd rfl hcell

/-- Every change of a host keeps the votes behind its decisions, and what it hands to the network is
attested by durable votes. -/
theorem Change.backed [Inhabited V] (hb : Backed M net D id h) (hr : Recorded d id h)
    (hnet : ∀ e ∈ net, e.Authentic d.ownership) (hmode : d.ownership = false)
    (hM : d.membership = M) (hself : D id = entries h.journal)
    (hattested : ∀ e ∈ net, Attested M net D e)
    (hused : ∀ n, h.node = some n → ∀ b, 0 < ballotRound b → Uses n b → ∀ s v,
      (∃ e ∈ net, e.message = .accept b s v) → .vote b s v ∈ h.log)
    (hcalm : ∀ n op, h.node = some n → asked = some op → ∀ first second,
      ¬ Clash d.params n (decisionFor d.params n op) first second)
    (hc : Change d net id h asked h' es) :
    Backed M net (Function.update D id (entries h'.journal)) id h' ∧
      ∀ e ∈ es, Attested M net (Function.update D id (entries h'.journal)) e := by
  have hnone : ∀ D : Nat → Log V, ∀ e ∈ ([] : List (Envelope V)), Attested M net D e :=
    fun D e he => absurd he List.not_mem_nil
  have hsame : Function.update D id (entries h.journal) = D := by
    rw [← hself]
    exact Function.update_eq_self _ _
  have hdurable : h.pending = [] → h.view D id = D := by
    intro hpending
    unfold Host.view Host.log
    rw [hpending, List.append_nil, ← hself]
    exact Function.update_eq_self _ _
  cases hc with
  | operated hnode hpending _ hserves =>
      have hin := hr.informed hnode hpending hself hserves hattested (hused _ hnode)
      show Backed M net (Function.update D id (entries h.journal)) id _ ∧ _
      rw [hsame]
      exact ⟨hb.operated hr hnet hmode hM hnode hpending hself hserves hin
        (hcalm _ _ hnode rfl), hnone _⟩
  | @adjusted n op hnode hop =>
      have hkept : (operate d.params n op).node.ledger.cells = n.ledger.cells ∧
          (operate d.params n op).node.recovered = n.recovered ∧
            (operate d.params n op).node.lead = n.lead := by
        rcases hop with ⟨through, -, rfl⟩ | ⟨enabled, rfl⟩
        · refine ⟨(nodeAdvanceMemoryFloor_hosted n through).cells, ?_,
            (nodeAdvanceMemoryFloor_hosted n through).lead⟩
          show (nodeAdvanceMemoryFloor n through).1.recovered = n.recovered
          unfold nodeAdvanceMemoryFloor
          split_ifs <;> rfl
        · exact ⟨rfl, rfl, rfl⟩
      obtain ⟨hcells, hrecovered, hlead⟩ := hkept
      show Backed M net (Function.update D id (entries h.journal)) id _ ∧ _
      rw [hsame]
      refine ⟨⟨hb.journal, hb.pending, fun n' hn' i hi => ?_, fun n' hn' i hi => ?_,
        fun n' hn' cell hcell => ?_, hb.outbox, hb.released, hb.applied⟩, hnone _⟩ <;> cases hn'
      · rw [hcells] at hi ⊢
        exact hb.cells n hnode i hi
      · rw [hrecovered] at hi ⊢
        exact hb.recovered n hnode i hi
      · rw [hlead] at hcell ⊢
        exact hb.leads n hnode cell hcell
  | @persisted w rest hpending =>
      have hgrow : ∀ m, D m ⊆ Function.update D id (entries (h.journal ++ [w])) m := by
        intro m
        by_cases hm : m = id
        · subst hm
          rw [Function.update_self, hself, entries_append]
          exact List.subset_append_left _ _
        · rw [Function.update_of_ne hm]
          exact fun e he => he
      have hview : Host.view (Function.update D id (entries (h.journal ++ [w]))) id
          { h with journal := h.journal ++ [w], pending := rest } = h.view D id := by
        unfold Host.view Host.log
        rw [Function.update_idem]
        simp [hpending]
      refine ⟨⟨fun s v hw => ?_, fun before s v after heq => ?_, fun n hn i hi => ?_,
        fun n hn i hi => ?_, fun n hn cell hcell => ?_, fun e he => ?_, fun entry he => ?_,
        fun entry he => (hb.applied entry he).mono hgrow⟩, hnone _⟩
      · rcases List.mem_append.mp hw with hw | hw
        · exact (hb.journal s v hw).mono hgrow
        · obtain rfl := List.mem_singleton.mp hw
          have hr := hb.pending [] s v rest hpending
          rw [List.append_nil, hsame] at hr
          exact hr.mono hgrow
      · have hall : h.pending = w :: before ++ .chosen s v :: after := by
          rw [hpending, List.cons_append]
          exact congrArg (List.cons w) heq
        rw [Function.update_idem]
        simpa using hb.pending (w :: before) s v after hall
      · rw [hview]
        exact hb.cells n hn i hi
      · rw [hview]
        exact hb.recovered n hn i hi
      · rw [hview]
        exact hb.leads n hn cell hcell
      · rw [hview]
        exact hb.outbox e he
      · rw [hview]
        exact hb.released entry he
  | @sent e rest hpending houtbox =>
      show Backed M net (Function.update D id (entries h.journal)) id _ ∧
        ∀ e' ∈ [e], Attested M net (Function.update D id (entries h.journal)) e'
      rw [hsame]
      refine ⟨⟨hb.journal, hb.pending, hb.cells, hb.recovered, hb.leads,
        fun e' he' => hb.outbox e' (by simp [houtbox, he']), hb.released, hb.applied⟩,
        fun e' he' => ?_⟩
      obtain rfl := List.mem_singleton.mp he'
      have hout := hb.outbox e' (by simp [houtbox])
      rwa [hdurable hpending] at hout
  | @hastened e he hpre =>
      rw [hsame]
      refine ⟨hb, fun e' he' => ?_⟩
      obtain rfl := List.mem_singleton.mp he'
      obtain ⟨sender, recipient, message⟩ := e'
      cases message with
      | accept => trivial
      | _ => simp [Envelope.isPreDurable] at hpre
  | @applied entry rest hpending hreleased =>
      show Backed M net (Function.update D id (entries h.journal)) id _ ∧ _
      rw [hsame]
      refine ⟨⟨hb.journal, hb.pending, hb.cells, hb.recovered, hb.leads, hb.outbox,
        fun e he => hb.released e (by simp [hreleased, he]), fun e he => ?_⟩, hnone _⟩
      rcases List.mem_append.mp he with he | he
      · exact hb.applied e he
      · obtain rfl := List.mem_singleton.mp he
        have hr := hb.released e (by simp [hreleased])
        rwa [hdurable hpending] at hr
  | consumed =>
      show Backed M net (Function.update D id (entries h.journal)) id _ ∧ _
      rw [hsame]
      exact ⟨⟨hb.journal, hb.pending, hb.cells, hb.recovered, hb.leads, hb.outbox, hb.released,
        hb.applied⟩, hnone _⟩
  | @served entry peer hentry =>
      rw [hsame]
      refine ⟨hb, fun e he => ?_⟩
      obtain rfl := List.mem_singleton.mp he
      exact hb.applied entry hentry
  | crashed =>
      show Backed M net (Function.update D id (entries h.journal)) id _ ∧ _
      rw [hsame]
      exact ⟨⟨hb.journal, fun before s v after heq => by simp at heq, fun n hn => (by cases hn),
        fun n hn => (by cases hn), fun n hn => (by cases hn),
        fun e he => absurd he List.not_mem_nil, fun entry he => absurd he List.not_mem_nil,
        hb.applied⟩, hnone _⟩
  | restarted _ hrestart =>
      have hjournal : h'.journal = h.journal := by
        unfold Host.restarted at hrestart
        split at hrestart
        swap
        · cases hrestart
        split at hrestart
        swap
        · cases hrestart
        cases hrestart
        rfl
      rw [hjournal, hsame]
      exact ⟨hb.restarted hr hself hrestart, hnone _⟩

variable [Inhabited V]

omit [DecidableEq V] in
/-- A host before the first action. -/
theorem initialHost_backed (d : Deployment) (M : Membership) (net : List (Envelope V))
    (D : Nat → Log V) (id : Nat) : Backed M net D id (initialHost d id : Host V) := by
  have hfresh : ∀ n, (initialHost d id : Host V).node = some n → n.ledger = Ledger.empty ∧
      (∀ i, (n.recovered i).state = .empty) ∧ n.lead = fun _ => {} := by
    intro n hn
    have hinit : (nodeInit id d.membership (d.optionsFor (d.options id)) :
        Except Error (Node V)).toOption = some n := hn
    unfold nodeInit at hinit
    split at hinit
    · cases hinit
    · cases hinit
      exact ⟨rfl, fun i => rfl, rfl⟩
  refine ⟨fun s v hw => absurd hw List.not_mem_nil, fun before s v after heq => ?_,
    fun n hn i hi => ?_, fun n hn i hi => ?_, fun n hn cell hcell => ?_,
    fun e he => absurd he List.not_mem_nil, fun entry he => absurd he List.not_mem_nil,
    fun entry he => absurd he List.not_mem_nil⟩
  · simp [initialHost] at heq
  · rw [(hfresh n hn).1] at hi
    cases hi
  · rw [(hfresh n hn).2.1 i] at hi
    cases hi
  · rw [(hfresh n hn).2.2] at hcell
    exact absurd rfl hcell

end Hosts

/-! ## The runs -/

section Runs

variable [DecidableEq V] [Inhabited V] {d : Deployment} {c : Cluster V}

/-- The transition that an action starts has no clash: no two slots that it would have to pass
through have been told different decisions. -/
def Calm (d : Deployment) (c : Cluster V) (a : Action V) : Prop :=
  ∀ id n op, (c.hosts id).node = some n → c.asks id a = some op → ∀ first second,
    ¬ Clash d.params n (decisionFor d.params n op) first second

/-- In every run in campaign mode whose transitions are all calm, the decisions of every host are
backed by votes, and those on the network by durable ones. -/
theorem Cluster.Reaches.backed (h : Cluster.Reaches d (Calm d) c) (hmode : d.ownership = false) :
    (∀ id, Backed d.membership c.net c.durable id (c.hosts id)) ∧
      ∀ e ∈ c.net, Attested d.membership c.net c.durable e := by
  refine h.invariant (motive := fun c =>
    (∀ id, Backed d.membership c.net c.durable id (c.hosts id)) ∧
      ∀ e ∈ c.net, Attested d.membership c.net c.durable e)
    ⟨fun id => initialHost_backed d _ _ _ id, fun e he => absurd he List.not_mem_nil⟩ ?_
  rintro c c' a hc ⟨hbacked, hattested⟩ hcalm hstep
  obtain ⟨hr, hnet⟩ := hc.recorded
  have hbooked := hc.booked hmode
  obtain ⟨id, h', es, hchange, hhosts, hes⟩ := Cluster.step_change hstep
  have hused : ∀ n, (c.hosts id).node = some n → ∀ b, 0 < ballotRound b → Uses n b → ∀ s v,
      (∃ e ∈ c.net, e.message = .accept b s v) → .vote b s v ∈ (c.hosts id).log :=
    fun n hn b hround hu s v hp => (hbooked.used id n hn b hround hu).2.2 s v (Or.inl hp)
  obtain ⟨hnew, hsent⟩ := hchange.backed (hbacked id) (hr id) hnet hmode rfl rfl hattested hused
    fun n op hn hasked => hcalm id n op hn hasked
  have hdurable : c'.durable = Function.update c.durable id (entries h'.journal) := by
    funext m
    unfold Cluster.durable
    rw [hhosts]
    by_cases hm : m = id
    · subst hm
      rw [Function.update_self, Function.update_self]
    · rw [Function.update_of_ne hm, Function.update_of_ne hm]
  have hgrow : ∀ m, c.durable m ⊆ c'.durable m := by
    intro m
    rw [hdurable]
    by_cases hm : m = id
    · subst hm
      rw [Function.update_self]
      exact hchange.log.1
    · rw [Function.update_of_ne hm]
      exact fun e he => he
  have hnetgrow : c.net ⊆ c'.net := by
    rw [hes]
    exact List.subset_append_left _ _
  rw [← hdurable] at hnew hsent
  constructor
  · intro other
    rw [hhosts]
    by_cases hother : other = id
    · subst hother
      rw [Function.update_self]
      exact hnew.mono hnetgrow fun m => fun e he => he
    · rw [Function.update_of_ne hother]
      exact (hbacked other).mono hnetgrow hgrow
  · intro e he
    rw [hes] at he
    rcases List.mem_append.mp he with he | he
    · exact (hattested e he).mono hnetgrow hgrow
    · exact (hsent e he).mono hnetgrow fun m => fun e he => he

/-- Decided implies chosen, in every run in campaign mode whose transitions are all calm: a write
quorum voted for the value of every durable decision at one ballot, the decisions of a running
member are backed in the same way, and each acknowledgement that its proposals count stands for one
member, which was asked at this ballot for this slot. -/
theorem decided_implies_chosen (h : Cluster.Reaches d (Calm d) c) (hmode : d.ownership = false) :
    (∀ id slot value, .chosen slot value ∈ (c.hosts id).journal →
      Ratified d.membership c.durable slot value) ∧
    (∀ id n i, (c.hosts id).node = some n → (n.ledger.cells i).state = .chosen →
      Ratified d.membership ((c.hosts id).view c.durable id) (n.ledger.cells i).slot
        (n.ledger.cells i).value) ∧
    ∀ id n cell, (c.hosts id).node = some n → (n.lead cell).slot ≠ 0 →
      Counted d.membership c.net ((c.hosts id).view c.durable id) id (n.lead cell) := by
  obtain ⟨hbacked, -⟩ := h.backed hmode
  exact ⟨fun id slot value hw => (hbacked id).journal slot value hw,
    fun id n i hn hi => (hbacked id).cells n hn i hi,
    fun id n cell hn hcell => (hbacked id).leads n hn cell hcell⟩

/-- A window of two slots leaves no room for a clash. -/
theorem Cluster.Reaches.calm_of_narrow (hW : d.params.W ≤ 2) {ok : Cluster V → Action V → Prop}
    (h : Cluster.Reaches d ok c) (a : Action V) : Calm d c a := by
  intro id n op hn _ first second hclash
  have hfloor := ((h.recorded.1 id).works n hn).opened.floor
  have hwaiting := hclash.waiting
  have hapart := hclash.apart
  have hwindow := hclash.window
  omega

end Runs

/-- The leader of the trio decides its first proposal with the vote of member 2. -/
theorem decided_implies_chosen_trio :
    ∃ c : Cluster Nat, Cluster.Reaches trioDeployment (Calm trioDeployment) c ∧
      .chosen 1 5 ∈ (c.hosts 1).journal ∧ Ratified trioDeployment.membership c.durable 1 5 := by
  have hrun : ((Cluster.initial trioDeployment).run trioDeployment (trioElection ++
      [.call 1 (.propose 5), .sendPreDurable 1 0, .persist 1, .deliver 5, .persist 2, .send 2,
        .deliver 6, .persist 1])).map (fun c => (c.hosts 1).journal) =
      some [.promise (ballotMake 1 0 1), .vote (ballotMake 1 0 1) 1 5, .chosen 1 5] := by
    decide +kernel
  obtain ⟨c, hc, hjournal⟩ := Option.map_eq_some_iff.mp hrun
  have hreach : Cluster.Reaches trioDeployment (Calm trioDeployment) c :=
    (Cluster.Reaches.initial.of_run hc).weaken fun _ _ hc _ => hc.calm_of_narrow (by decide) _
  have hmem : .chosen 1 5 ∈ (c.hosts 1).journal := by simp [hjournal]
  exact ⟨c, hreach, hmem, (decided_implies_chosen hreach rfl).1 1 1 5 hmem⟩

/-! ## A decision that nobody voted for -/

/-- Two members, of which one vote decides, with a window of four slots. -/
def pairDeployment : Deployment where
  params := quadParams
  nodeIds := [1, 2]
  readQuorum := 2
  writeQuorum := 1
  membership := ⟨[1, 2], 2, 1⟩
  admitted := rfl
  ids_lt := by decide
  ownership := false
  options := fun _ => .zero

/-- Member 1 leads and decides slots 1 to 11.  Member 2 hears of slots 1 to 8 and passes 5 to 8
through; the late Accepts of slots 5 and 7 then take their cells, where they are left behind.  So
slots 9 and 11 have no cell when member 2 campaigns and hears of their decisions. -/
def passedRun : List (Action Nat) :=
  List.flatten ([
    [.call 1 (.campaign 0), .persist 1, .send 1, .send 1, .deliver 0, .send 1, .deliver 1,
      .persist 2, .send 2, .deliver 2, .deliver 3],
    -- slots 1 to 4
    .call 1 (.proposeBatch [10, 20, 30, 40] 4) :: List.replicate 8 (.persist 1),
    List.replicate 4 (.apply 1), [.consume 1 4, .advanceFloor 1 4],
    -- slots 5 to 8; the Accepts of slots 5 and 7 are on their way
    [.call 1 (.proposeBatch [50, 60, 70, 80] 4), .sendPreDurable 1 0, .sendPreDurable 1 2],
    List.replicate 8 (.persist 1), List.replicate 4 (.apply 1), [.consume 1 8, .advanceFloor 1 8],
    -- slots 9 to 11
    .call 1 (.proposeBatch [90, 100, 110] 3) :: List.replicate 6 (.persist 1),
    List.replicate 3 (.apply 1),
    -- member 2 hears of slots 1 to 8, and then of the two Accepts
    (List.range 8).map fun k => .serve 1 k 2,
    (List.range 8).flatMap fun k => [.deliver (6 + k), .persist 2, .apply 2],
    [.consume 2 1, .advanceFloor 2 1, .deliver 4, .persist 2, .consume 2 3, .advanceFloor 2 3,
      .deliver 5, .persist 2, .consume 2 8, .advanceFloor 2 8],
    -- member 1 restarts where its host is, and answers the campaign of member 2
    [.call 2 (.campaign 0), .persist 2, .send 2, .send 2, .crash 1, .restart 1 .zero, .deliver 14,
      .persist 1, .send 1, .send 1, .send 1, .send 1, .deliver 15, .send 2, .deliver 16,
      .deliver 17, .deliver 18, .deliver 19, .deliver 20, .persist 2]] : List (List (Action Nat)))

/-- Member 2 records the decision of slot 11 for slot 9. -/
theorem passedRun_journals :
    ((Cluster.initial pairDeployment).run pairDeployment passedRun).map
        (fun c => ((c.hosts 1).journal, (c.hosts 2).journal)) =
      some ([.promise (ballotMake 1 0 1), .vote (ballotMake 1 0 1) 1 10, .chosen 1 10,
          .vote (ballotMake 1 0 1) 2 20, .chosen 2 20, .vote (ballotMake 1 0 1) 3 30, .chosen 3 30,
          .vote (ballotMake 1 0 1) 4 40, .chosen 4 40, .vote (ballotMake 1 0 1) 5 50, .chosen 5 50,
          .vote (ballotMake 1 0 1) 6 60, .chosen 6 60, .vote (ballotMake 1 0 1) 7 70, .chosen 7 70,
          .vote (ballotMake 1 0 1) 8 80, .chosen 8 80, .vote (ballotMake 1 0 1) 9 90, .chosen 9 90,
          .vote (ballotMake 1 0 1) 10 100, .chosen 10 100, .vote (ballotMake 1 0 1) 11 110,
          .chosen 11 110, .promise (ballotMake 2 0 2)],
        [.promise (ballotMake 1 0 1), .chosen 1 10, .chosen 2 20, .chosen 3 30, .chosen 4 40,
          .chosen 5 50, .chosen 6 60, .chosen 7 70, .chosen 8 80, .vote (ballotMake 1 0 1) 5 50,
          .vote (ballotMake 1 0 1) 7 70, .promise (ballotMake 2 0 2), .chosen 9 110]) := by
  decide +kernel

/-- No member voted for the decision that member 2 has on record for slot 9. -/
theorem decided_unvoted :
    ¬ ∀ (d : Deployment) (c : Cluster Nat), Cluster.Reaches d (fun _ _ => True) c →
      d.ownership = false → ∀ id slot value, .chosen slot value ∈ (c.hosts id).journal →
        Ratified d.membership c.durable slot value := by
  intro hall
  obtain ⟨c, hc, hjournals⟩ := Option.map_eq_some_iff.mp passedRun_journals
  obtain ⟨hfirst, hsecond⟩ := Prod.mk.inj hjournals
  obtain ⟨ballot, q, hq, hcard⟩ := hall pairDeployment c (Cluster.Reaches.initial.of_run hc) rfl 2 9
    110 (by simp [hsecond])
  obtain ⟨m, hm⟩ := Finset.card_pos.mp (Nat.lt_of_lt_of_le Nat.one_pos hcard)
  obtain ⟨hmember, hvote⟩ := hq m hm
  have hpair : m = 1 ∨ m = 2 := by simpa [pairDeployment] using hmember
  unfold Cluster.durable at hvote
  rw [vote_mem_entries] at hvote
  rcases hpair with rfl | rfl
  · simp [hfirst] at hvote
  · simp [hsecond] at hvote

end PaxosOdin
