import PaxosOdin.Cluster.Answers
import PaxosOdin.Cluster.Decisions
import PaxosOdin.Lifetime.Admission
import PaxosOdin.Lifetime.Values

/-!
# Where the values of a run come from

A client value enters the system through a call that places it in a slot, a no-op through a call that
may campaign.  From then on values move: through cells that other slots have used, recovery scratch,
the queue of suggestions to propose again, journals and messages.  In every run whose transitions are
all calm they stay with their slot: what is recorded, sent or released for a slot was placed in it.

Main definitions:

- Definition `Cluster.Takes`: the runs, with the steps they take.
- Definition `Supplied`: the calls of a run supply a value for a slot.

Main results:

- Theorem `Micro.suggests`: what a member suggests again it has suggested before.
- Theorem `values_supplied`: every value of a run was supplied for its slot.
-/

namespace PaxosOdin

variable {V : Type} {P : Params} {I : Input V}

/-! ## Suggestions -/

/-- The suggestions of a transition in progress: what waits to be proposed again was voted for, and
what is voted for was given to the transition or suggested in an earlier one. -/
structure Suggests (I : Input V) (journal : List (Write V)) (σ : St V) : Prop where
  queue : ∀ v ∈ σ.node.resubmit,
    ∃ slot, .vote (ownershipBallot σ.node.id) slot v ∈ σ.log journal
  writes : ∀ slot v, .vote (ownershipBallot σ.node.id) slot v ∈ σ.effects.writes →
    v ∈ I.values ∨ v ∈ I.noops ∨ (σ.node.ownership = true ∧
      ∃ slot', .vote (ownershipBallot σ.node.id) slot' v ∈ entries journal)

section Transitions

variable {journal : List (Write V)} {through : Nat}

/-- Only a suggestion of one's own is queued. -/
theorem Learn.resubmit_mem {σ σ' : St V} (h : Learn P I σ σ') {v : V}
    (hv : v ∈ σ'.node.resubmit) : v ∈ σ.node.resubmit ∨ OwnSuggestion σ.node v := by
  cases h with
  | note _ hresubmit => exact hresubmit v hv
  | _ => exact Or.inl hv

variable [DecidableEq V]

theorem Micro.resubmit_mem {σ σ' : St V} (h : Micro P I σ σ') {v : V}
    (hv : v ∈ σ'.node.resubmit) : v ∈ σ.node.resubmit ∨ OwnSuggestion σ.node v := by
  cases h with
  | learn hl => exact hl.resubmit_mem hv
  | idle _ _ _ _ _ hresubmit => exact Or.inl (hresubmit v hv)
  | report =>
      left
      unfold recordReport at hv
      dsimp only at hv
      split_ifs at hv <;> exact hv
  | _ => exact Or.inl hv

/-- A small step suggests only what it was given or what has been suggested before. -/
theorem Micro.suggests {σ σ' : St V} (h : Micro P I σ σ')
    (ht : Steady P I through journal σ) (hs : Suggests I journal σ) : Suggests I journal σ' := by
  have hid : σ'.node.id = σ.node.id := congrArg Static.id h.static
  have hmode : σ'.node.ownership = σ.node.ownership := congrArg Static.ownership h.static
  obtain ⟨more, hmore⟩ := h.log_grows journal
  have hlog : σ.log journal ⊆ σ'.log journal := by
    rw [hmore]
    exact List.subset_append_left _ _
  constructor
  · intro v hv
    rw [hid]
    rcases h.resubmit_mem hv with hold | ⟨cell, hstate, hballot, rfl⟩
    · obtain ⟨slot, hvote⟩ := hs.queue v hold
      exact ⟨slot, hlog hvote⟩
    · have hvote := ht.sound.remembers.cellVoted cell hstate
      rw [hballot] at hvote
      exact ⟨_, hlog hvote⟩
  · intro slot v hw
    rw [hid] at hw ⊢
    rw [hmode]
    rcases h.vote_mem hw with hold | hsource
    · exact hs.writes slot v hold
    cases hsource with
    | heard sender hears =>
        exact absurd (ballotMake_node ht.id_lt) (ht.fair.foreign sender _ slot v hears)
    | drove hrole hballot =>
        have hround := (ht.sound.proposes.role hrole).2
        rw [← hballot, ballotRound_ownership ht.id_lt] at hround
        exact absurd hround (lt_irrefl 0)
    | owned _ _ _ hown hvalue =>
        rcases hvalue with hgiven | hgiven | hqueued
        · exact Or.inl hgiven
        · exact Or.inr (Or.inl hgiven)
        · obtain ⟨slot', hvote⟩ := hs.queue v hqueued
          rcases mem_log_iff.mp hvote with hold | hnew
          · exact Or.inr (Or.inr ⟨hown, slot', hold⟩)
          · exact hs.writes slot' v hnew

/-- So does a whole transition. -/
theorem Completes.suggests {n : Node V} {σ : St V} (hc : Completes P I n (St.start n) σ)
    (ht : Steady P I through journal (St.start n))
    (hqueue : ∀ v ∈ n.resubmit, ∃ slot, .vote (ownershipBallot n.id) slot v ∈ entries journal) :
    Suggests I journal σ := by
  have hstart : Suggests I journal (St.start n) := by
    refine ⟨fun v hv => ?_, fun slot v hw => absurd hw List.not_mem_nil⟩
    obtain ⟨slot, hvote⟩ := hqueue v hv
    exact ⟨slot, mem_log_iff.mpr (Or.inl hvote)⟩
  obtain ⟨τ, hrun, hlast⟩ := hc
  have hτ : Steady P I through journal τ ∧ Suggests I journal τ :=
    hrun.preserves (motive := fun τ => Steady P I through journal τ ∧ Suggests I journal τ)
      (fun hm ⟨ht, hs⟩ => ⟨hm.steady ht, hm.suggests ht hs⟩) ⟨ht, hstart⟩
  rcases hlast with rfl | hfinal
  · exact hτ.2
  obtain ⟨hqueued, hwrites⟩ := hτ.2
  obtain ⟨more, hmore⟩ := hfinal.log_grows journal
  have hlog : τ.log journal ⊆ σ.log journal := by
    rw [hmore]
    exact List.subset_append_left _ _
  cases hfinal with
  | campaign =>
      refine ⟨fun v hv => ?_, fun slot v hw => hwrites slot v ?_⟩
      · obtain ⟨slot, hvote⟩ := hqueued v hv
        exact ⟨slot, hlog hvote⟩
      · rcases List.mem_append.mp hw with hw | hw
        · exact hw
        · cases List.mem_singleton.mp hw
  | revoke => exact ⟨hqueued, hwrites⟩
  | answer => exact ⟨hqueued, hwrites⟩

/-- Every report of a batch is of a cell in use. -/
theorem Completes.reported {n : Node V} {σ : St V} (hc : Completes P I n (St.start n) σ)
    (ht : Transit P I through journal (St.start n))
    (hanchor : n.ledger.anchor.chosenTrimSlot = 0) {e : Envelope V} (he : e ∈ σ.effects.messages)
    {ballot slot vote : Nat} {state : CellState} {value : V}
    (hmsg : e.message = .promise ballot slot vote state value) : state ≠ .empty := by
  obtain ⟨τ, hrun, hlast⟩ := hc
  have hτ : Transit P I through journal τ ∧ Mute τ :=
    hrun.preserves (motive := fun τ => Transit P I through journal τ ∧ Mute τ)
      (fun hm ⟨ht, hmute⟩ => ⟨hm.transit ht, hm.mute hmute⟩)
      ⟨ht, fun e he => absurd he List.not_mem_nil⟩
  have hanswers : e.message.Answers := by
    rw [hmsg]
    trivial
  have hnotice : ∀ {msg : Message V}, ¬ msg.Answers →
      e ∉ τ.node.membership.members.map (fun peer => (⟨τ.node.id, peer, msg⟩ : Envelope V)) := by
    intro msg hquiet hmem
    obtain ⟨peer, -, rfl⟩ := List.mem_map.mp hmem
    exact hquiet hanswers
  rcases hlast with rfl | hfinal
  · exact absurd hanswers (hτ.2 e he)
  cases hfinal with
  | campaign =>
      rcases List.mem_append.mp he with he | he
      · exact absurd hanswers (hτ.2 e he)
      · exact absurd he (hnotice (fun h => h))
  | revoke =>
      rcases List.mem_append.mp he with he | he
      · exact absurd hanswers (hτ.2 e he)
      · exact absurd he (hnotice (fun h => h))
  | answer =>
      rcases List.mem_append.mp he with he | he
      · rcases List.mem_append.mp he with he | he
        · exact absurd hanswers (hτ.2 e he)
        · obtain ⟨cell, hcell, rfl⟩ := List.mem_map.mp he
          cases hmsg
          have hanchor' : τ.node.ledger.anchor = n.ledger.anchor :=
            congrArg Static.anchor hrun.static
          exact ((mem_reportedCells hτ.1.steady.sound.remembers (hanchor' ▸ hanchor)).mp hcell).1
      · obtain rfl := List.mem_singleton.mp he
        cases hmsg

end Transitions

/-! ## What the calls of a run supply -/

section Supplies

/-- What an action gives to the node that it calls. -/
def Action.input : Action V → Input V
  | .call _ c => c.input
  | _ => {}

/-- The slot and the value that a record votes for. -/
def Write.vote? : Write V → Option (Nat × V)
  | .vote _ slot value => some (slot, value)
  | _ => none

variable [DecidableEq V]

/-- The records of the transition that an action starts at the member `id`. -/
def Cluster.batch (d : Deployment) (c : Cluster V) (id : Nat) (a : Action V) : List (Write V) :=
  ((c.hosts id).node.bind fun n =>
    (c.asks id a).map fun op => (operate d.params n op).effects.writes).getD []

/-- Where a call places the client values it is given: the slots it votes for them in. -/
def Cluster.placements (d : Deployment) (c : Cluster V) (a : Action V) : List (Nat × V) :=
  match a with
  | .call id _ => ((c.batch d id a).filterMap Write.vote?).filter (·.2 ∈ a.input.values)
  | _ => []

/-- The steps of a run supply a value for a slot: as the no-op of a call, as a client value that a
call placed in the slot, or as a suggestion that its member made before and proposes again. -/
inductive Supplied (d : Deployment) : List (Cluster V × Action V) → Nat → V → Prop
  | noop {steps : List (Cluster V × Action V)} {c : Cluster V} {a : Action V} {value : V}
      (hstep : (c, a) ∈ steps) (hnoop : value ∈ a.input.noops) (slot : Nat) :
      Supplied d steps slot value
  | placed {steps : List (Cluster V × Action V)} {c : Cluster V} {a : Action V} {slot : Nat}
      {value : V} (hstep : (c, a) ∈ steps) (hplaced : (slot, value) ∈ c.placements d a) :
      Supplied d steps slot value
  | again {before after : List (Cluster V × Action V)} {c : Cluster V} {a : Action V}
      {id slot slot' : Nat} {value : V} (hmode : d.ownership = true)
      (hbefore : Supplied d before slot value)
      (hsuggested : .vote (ownershipBallot id) slot value ∈ (c.hosts id).journal)
      (hvote : .vote (ownershipBallot id) slot' value ∈ c.batch d id a) :
      Supplied d (before ++ (c, a) :: after) slot' value

variable {d : Deployment} {c : Cluster V}

/-- Later steps supply more. -/
theorem Supplied.mono {steps more : List (Cluster V × Action V)} {slot : Nat} {value : V}
    (h : Supplied d steps slot value) : Supplied d (steps ++ more) slot value := by
  cases h with
  | noop hstep hnoop => exact .noop (List.mem_append_left _ hstep) hnoop slot
  | placed hstep hplaced => exact .placed (List.mem_append_left _ hstep) hplaced
  | again hmode hbefore hsuggested hvote =>
      rw [List.append_assoc, List.cons_append]
      exact .again hmode hbefore hsuggested hvote

end Supplies

/-! ## The hosts -/

/-- The value of a message was supplied for its slot. -/
def Message.Shows (Q : Nat → V → Prop) : Message V → Prop
  | .promise _ slot _ _ value => Q slot value
  | .accept _ slot value => Q slot value
  | .commit slot value => Q slot value
  | _ => True

/-- Every value that a host has on record, sends, releases or works with was supplied for its slot,
and its member has voted for what it is going to suggest again. -/
structure Furnished (Q : Nat → V → Prop) (id : Nat) (h : Host V) : Prop where
  journal : ∀ w ∈ h.journal, w.Carries Q
  pending : ∀ w ∈ h.pending, w.Carries Q
  outbox : ∀ e ∈ h.outbox, e.message.Shows Q
  released : ∀ entry ∈ h.released, Q entry.slot entry.value
  applied : ∀ entry ∈ h.applied, Q entry.slot entry.value
  node : ∀ n, h.node = some n → n.Carries Q fun _ => True
  queue : ∀ n, h.node = some n → ∀ v ∈ n.resubmit,
    ∃ slot, .vote (ownershipBallot id) slot v ∈ h.log

/-- What a transition of a member is supplied with: no-ops, the values it places, and what the
member suggested before and suggests again. -/
structure Grants (Q : Nat → V → Prop) (I : Input V) (id : Nat) (ownership : Bool)
    (journal writes : List (Write V)) : Prop where
  noops : ∀ v ∈ I.noops, ∀ slot, Q slot v
  values : ∀ v ∈ I.values, ∀ ballot slot, .vote ballot slot v ∈ writes → Q slot v
  again : ownership = true → ∀ slot slot' v, .vote (ownershipBallot id) slot v ∈ journal →
    .vote (ownershipBallot id) slot' v ∈ writes → Q slot' v

section Hosts

variable {Q Q' : Nat → V → Prop} {d : Deployment} {net es : List (Envelope V)} {id : Nat}
  {h h' : Host V} {asked : Option (Operation V)}

theorem Message.Shows.mono {m : Message V} (h : m.Shows Q) (hle : ∀ slot v, Q slot v → Q' slot v) :
    m.Shows Q' := by
  cases m with
  | promise ballot slot vote state value => exact hle slot value h
  | accept ballot slot value => exact hle slot value h
  | commit slot value => exact hle slot value h
  | _ => trivial

theorem Message.Shows.carries {m : Message V} (h : m.Shows Q) : m.Carries Q fun _ => True := by
  cases m with
  | promise ballot slot vote state value => exact ⟨trivial, fun _ => h⟩
  | _ => exact h

theorem Message.Carries.shows {m : Message V} (h : m.Carries Q fun _ => True)
    (hused : ∀ ballot slot vote state value, m = .promise ballot slot vote state value →
      state ≠ .empty) : m.Shows Q := by
  cases m with
  | promise ballot slot vote state value => exact h.2 (hused _ _ _ _ _ rfl)
  | _ => exact h

theorem Furnished.mono (hf : Furnished Q id h) (hle : ∀ slot v, Q slot v → Q' slot v) :
    Furnished Q' id h where
  journal w hw := (hf.journal w hw).mono hle
  pending w hw := (hf.pending w hw).mono hle
  outbox e he := (hf.outbox e he).mono hle
  released entry he := hle _ _ (hf.released entry he)
  applied entry he := hle _ _ (hf.applied entry he)
  node n hn := (hf.node n hn).mono hle
  queue := hf.queue

variable [DecidableEq V]

/-- A transition without a clash decides only what was supplied for the slots. -/
theorem Furnished.settled {n : Node V} {op : Operation V} (hn : n.Carries Q fun _ => True)
    (hs : Sound d.params n.memoryFloor n (entries h.journal)) (ho : Opened d.params n)
    (hid : n.id = id) (hserves : Serves net id op)
    (hheard : ∀ e, (op.input n).heard = some e → e.message.Shows Q)
    (hcarries : (operate d.params n op).Carries Q fun _ => True)
    (hcalm : ∀ first second, ¬ Clash d.params n (decisionFor d.params n op) first second) :
    (∀ w ∈ (operate d.params n op).effects.writes, w.Carries Q) ∧
      ∀ entry ∈ (operate d.params n op).effects.committed, Q entry.slot entry.value := by
  have hstable := operate_stable hs.remembers.tagged ho.floor op hcalm
  -- what was passed through is the decision that the operation was given
  have hpassed : ∀ slot value, slot ∈ (operate d.params n op).effects.passedSlots →
      Reference.passed slot value ∈ (operate d.params n op).effects.references d.params →
        Q slot value := by
    intro slot value hmem href
    rcases decisionFor_source hs hid hserves hmem (hstable.denotes _ href) with
      ⟨i, hstate, rfl, rfl⟩ | ⟨sender, msg, hears, rfl | ⟨ballot, vote, rfl⟩⟩
    · exact hn.recovered i (by simp [hstate])
    · exact hheard _ hears
    · exact hheard _ hears
  constructor
  · intro w hw
    rcases hcarries.writes w hw with hgood | hpasses
    · exact hgood
    · cases w with
      | chosen slot value =>
          refine hpassed slot value hpasses.1 (Effects.mem_references.mpr (Or.inl ⟨_, hw, ?_⟩))
          simp [Write.references, hpasses.1]
      | _ => exact hpasses.elim
  · intro entry hentry
    rcases hcarries.committed entry hentry with hgood | ⟨hpass, -⟩
    · exact hgood
    · refine hpassed entry.slot entry.value
        (Effects.mem_passedSlots.mpr ⟨entry, hentry, hpass, rfl⟩)
        (Effects.mem_references.mpr (Or.inr (Or.inr ⟨entry, hentry, ?_⟩)))
      simp [Committed.reference, hpass]

/-- A transition of a host. -/
theorem Furnished.operated [Inhabited V] {n : Node V} {op : Operation V} (hf : Furnished Q id h)
    (hr : Recorded d id h) (hnet : ∀ e ∈ net, e.Authentic d.ownership)
    (hshows : ∀ e ∈ net, e.message.Shows Q) (hnode : h.node = some n) (hpending : h.pending = [])
    (hserves : Serves net id op)
    (hg : Grants Q (op.input n) id d.ownership h.journal (operate d.params n op).effects.writes)
    (hcalm : ∀ first second, ¬ Clash d.params n (decisionFor d.params n op) first second) :
    Furnished Q id (h.after (operate d.params n op)) := by
  have hw := hr.works n hnode
  have hid := hw.id_eq
  have hsound := hw.sound
  rw [hpending, List.append_nil] at hsound
  obtain ⟨hstart, hdone⟩ := hr.begins hnet hnode hpending hserves
  have hid' : (operate d.params n op).node.id = id := (congrArg Static.id hdone.static).trans hid
  have hmode : (operate d.params n op).node.ownership = d.ownership :=
    (congrArg Static.ownership hdone.static).trans hw.mode
  have hheard : ∀ e, (op.input n).heard = some e → e.message.Shows Q := by
    intro e he
    rcases hserves with ⟨call, rfl⟩ | ⟨e', he', -, rfl⟩
    · cases call <;> cases he
    · cases he
      exact hshows e he'
  have hsuggests : Suggests (op.input n) h.journal (operate d.params n op) := by
    refine hdone.suggests hstart.steady fun v hv => ?_
    obtain ⟨slot, hvote⟩ := hf.queue n hnode v hv
    unfold Host.log at hvote
    rw [hpending, List.append_nil, ← hid] at hvote
    exact ⟨slot, hvote⟩
  have hcarries : (operate d.params n op).Carries Q fun _ => True := by
    refine hdone.carries (hf.node n hnode) ⟨fun _ _ _ => trivial,
      fun e he => (hheard e he).carries, hg.noops, hg.values, fun v slot slot' _ hw => ?_⟩
    rw [hid, ← hid'] at hw
    rcases hsuggests.writes slot' v hw with hgiven | hgiven | ⟨hown, old, hvote⟩
    · exact hg.values v hgiven _ _ hw
    · exact hg.noops v hgiven slot'
    · rw [hid'] at hw hvote
      exact hg.again (hmode ▸ hown) old slot' v (vote_mem_entries.mp hvote) hw
  obtain ⟨hwrites, hcommitted⟩ := Furnished.settled (hf.node n hnode) hsound hw.opened hid hserves
    hheard hcarries hcalm
  refine ⟨hf.journal, hwrites, fun e he => (hcarries.messages e he).shows ?_, hcommitted, hf.applied,
    fun n' hn' => ?_, fun n' hn' v hv => ?_⟩
  · intro ballot slot vote state value hmsg
    exact hdone.reported hstart hw.anchor he hmsg
  · cases hn'
    exact hcarries.node
  · cases hn'
    obtain ⟨slot, hvote⟩ := hsuggests.queue v hv
    rw [hid'] at hvote
    exact ⟨slot, hvote⟩

omit [DecidableEq V] in
/-- A node that was just initialized has nothing to suggest again. -/
theorem nodeInit_resubmit [Inhabited V] {membership : Membership} {options : NodeOptions} {n : Node V}
    (h : nodeInit id membership options = .ok n) : n.resubmit = [] := by
  unfold nodeInit at h
  split at h
  · cases h
  · cases h
    rfl

omit [DecidableEq V] in
theorem nodeRestore_resubmit [Inhabited V] {through : Nat} {membership : Membership}
    {options : NodeOptions} {l : Ledger V} {n : Node V}
    (h : nodeRestore P id membership l through options = .ok n) : n.resubmit = [] := by
  unfold nodeRestore at h
  split at h
  · cases h
  · next n₀ hinit =>
      cases h
      have hempty := nodeInit_resubmit hinit
      unfold nodeResumeAt
      dsimp only
      split_ifs <;> exact hempty

/-- The fold of a journal holds the values of its records. -/
theorem replayFrom_carries {l l' : Ledger V} {e : Error} {records : List (Write V)}
    (hl : l.Carries Q fun _ => True) (hrecords : ∀ w ∈ records, w.Carries Q)
    (h : replayFrom P l records = (l', e)) : l'.Carries Q fun _ => True := by
  induction records generalizing l with
  | nil =>
      cases h
      exact hl
  | cons w records ih =>
      have hw := ledgerReplayFold_carries (P := P) hl (fun _ _ _ => trivial)
        (hrecords w List.mem_cons_self)
      rw [replayFrom] at h
      rcases hfold : ledgerReplayFold P l w with ⟨l₁, e₁⟩
      rw [hfold] at h hw
      cases e₁ with
      | none => exact ih hw (fun w' hw' => hrecords w' (List.mem_cons_of_mem _ hw')) h
      | _ =>
          cases h
          exact hw

/-- A node that has just been restarted holds the values of its journal. -/
theorem Furnished.restarted [Inhabited V] (hf : Furnished Q id h) {options : NodeOptions}
    (hrestart : h.restarted d id options = some h') : Furnished Q id h' := by
  unfold Host.restarted at hrestart
  split at hrestart
  swap
  · cases hrestart
  next l hreplay =>
  split at hrestart
  swap
  · cases hrestart
  next n hn =>
  cases hrestart
  have hledger : l.Carries Q fun _ => True :=
    replayFrom_carries (.empty trivial) hf.journal hreplay
  refine ⟨hf.journal, fun w hw => absurd hw List.not_mem_nil,
    fun e he => absurd he List.not_mem_nil, fun entry he => absurd he List.not_mem_nil, hf.applied,
    fun n' hn' => ?_, fun n' hn' v hv => ?_⟩
  · cases hn'
    exact nodeRestore_carries trivial hledger hn
  · cases hn'
    rw [nodeRestore_resubmit hn] at hv
    cases hv

end Hosts

/-! ## The runs -/

section Runs

variable [DecidableEq V] [Inhabited V] {d : Deployment} {ok : Cluster V → Action V → Prop}

/-- The runs of a deployment whose steps all meet the condition `ok`: the states with the actions
that were taken in them, and the state that is reached. -/
inductive Cluster.Takes (d : Deployment) (ok : Cluster V → Action V → Prop) :
    List (Cluster V × Action V) → Cluster V → Prop
  | initial : Cluster.Takes d ok [] (Cluster.initial d)
  | step {steps : List (Cluster V × Action V)} {c c' : Cluster V} {a : Action V}
      (h : Cluster.Takes d ok steps c) (hok : ok c a) (hstep : c.step d a = some c') :
      Cluster.Takes d ok (steps ++ [(c, a)]) c'

variable {steps : List (Cluster V × Action V)} {c : Cluster V}

theorem Cluster.Takes.reaches (h : Cluster.Takes d ok steps c) : Cluster.Reaches d ok c := by
  induction h with
  | initial => exact .initial
  | step _ hok hstep ih => exact ih.step hok hstep

/-- A run that meets a condition meets every weaker one. -/
theorem Cluster.Takes.weaken {ok' : Cluster V → Action V → Prop} (h : Cluster.Takes d ok steps c)
    (hle : ∀ c a, Cluster.Reaches d ok c → ok c a → ok' c a) : Cluster.Takes d ok' steps c := by
  induction h with
  | initial => exact .initial
  | step hc hok hstep ih => exact ih.step (hle _ _ hc.reaches hok) hstep

/-- The steps of a list of actions: the states with the actions that are taken in them. -/
def Cluster.trail (d : Deployment) (c : Cluster V) : List (Action V) → List (Cluster V × Action V)
  | [] => []
  | a :: rest => (c, a) :: ((c.step d a).map fun c => c.trail d rest).getD []

theorem Cluster.Takes.of_run {c' : Cluster V} {actions : List (Action V)}
    (h : Cluster.Takes d (fun _ _ => True) steps c) (hrun : c.run d actions = some c') :
    Cluster.Takes d (fun _ _ => True) (steps ++ c.trail d actions) c' := by
  induction actions generalizing c steps with
  | nil =>
      cases hrun
      rw [Cluster.trail, List.append_nil]
      exact h
  | cons a actions ih =>
      obtain ⟨c₁, hstep, hrest⟩ := Option.bind_eq_some_iff.mp hrun
      have htakes := ih (h.step trivial hstep) hrest
      rw [List.append_assoc] at htakes
      simpa [Cluster.trail, hstep] using htakes

end Runs

end PaxosOdin
