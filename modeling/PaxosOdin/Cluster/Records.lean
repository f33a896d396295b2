import PaxosOdin.Cluster.Run
import PaxosOdin.Lifetime.Suggesting

/-!
# The records of a cluster

Every member of every run obeys the acceptor law over all its incarnations: what it recorded in one
binds it in the next, and nobody is sent a proposal at a ballot of its own.  Nothing is assumed of
the network but that it carries what hosts handed to it.

Main definitions:

- Definition `Works`: a node that works in step with the records of its host.
- Definition `Recorded`: what holds of every host, running or down.

Main results:

- Theorem `Micro.transit`, `Final.transit`: what a transition sends is backed by its records.
- Theorem `Cluster.Reaches.recorded`: every host of every run.
- Theorem `Cluster.Reaches.lawful`: every journal obeys the acceptor law.
-/

namespace PaxosOdin

variable {V : Type} {P : Params} {I : Input V}

/-! ## What backs a message -/

/-- The records of proposals that were made carry ballots of this node, and of its campaigns when
it campaigns. -/
def Signs (n : Node V) : Prop :=
  ∀ cell, (n.lead cell).slot ≠ 0 → ballotNode (n.lead cell).ballot = n.id ∧
    (n.ownership = false → 0 < ballotRound (n.lead cell).ballot)

/-- A message of the member `id` that its log backs: a proposal is its own recorded vote, and an
announced decision is a recorded one. -/
def Vouched (log : Log V) (id : Nat) (e : Envelope V) : Prop :=
  e.sender = id ∧
    match e.message with
    | .accept ballot slot value =>
        .vote ballot slot value ∈ log ∧ ballotNode ballot = id ∧ e.recipient ≠ id
    | .commit slot _ => .decided slot ∈ log ∨ ∃ ballot value, .vote ballot slot value ∈ log
    | _ => True

theorem Vouched.append {log : Log V} {id : Nat} {e : Envelope V} (h : Vouched log id e)
    (more : Log V) : Vouched (log ++ more) id e := by
  obtain ⟨sender, recipient, message⟩ := e
  obtain ⟨hsender, hback⟩ := h
  refine ⟨hsender, ?_⟩
  cases message with
  | accept ballot slot value => exact ⟨List.mem_append_left _ hback.1, hback.2⟩
  | commit slot value =>
      rcases hback with hd | ⟨ballot, v, hv⟩
      · exact Or.inl (List.mem_append_left _ hd)
      · exact Or.inr ⟨ballot, v, List.mem_append_left _ hv⟩
  | _ => trivial

/-- An envelope that a member of the deployment can have written: a proposal is at a ballot of its
sender, who does not address it to itself, and slots are words where they are shared out. -/
def Envelope.Authentic (ownership : Bool) (e : Envelope V) : Prop :=
  match e.message with
  | .accept ballot slot _ =>
      ballotNode ballot = e.sender ∧ e.recipient ≠ e.sender ∧ (ownership = true → slot ≤ maxSlot)
  | .commit slot _ => ownership = true → slot ≤ maxSlot
  | _ => True

theorem Vouched.authentic {n : Node V} {log : Log V} {e : Envelope V} (h : Vouched log n.id e)
    (hp : Proposes n log) : e.Authentic n.ownership := by
  obtain ⟨sender, recipient, message⟩ := e
  obtain ⟨rfl, hback⟩ := h
  cases message with
  | accept ballot slot value =>
      exact ⟨hback.2.1, hback.2.2, fun hown => hp.words hown slot (Or.inl ⟨ballot, value, hback.1⟩)⟩
  | commit slot value =>
      intro hown
      rcases hback with hd | ⟨ballot, v, hv⟩
      · exact hp.words hown slot (Or.inr hd)
      · exact hp.words hown slot (Or.inl ⟨ballot, v, hv⟩)
  | _ => trivial

/-! ## One transition -/

section Transitions

/-- A transition on its way: it is in step with the records, and what it has to send is backed. -/
structure Transit (P : Params) (I : Input V) (through : Nat) (journal : List (Write V)) (σ : St V) :
    Prop where
  steady : Steady P I through journal σ
  signs : Signs σ.node
  vouched : ∀ e ∈ σ.effects.messages, Vouched (σ.log journal) σ.node.id e

theorem Learn.log_grows (journal : List (Write V)) {σ σ' : St V} (h : Learn P I σ σ') :
    ∃ more, σ'.log journal = σ.log journal ++ more := by
  cases h with
  | choose => exact ⟨_, St.log_append journal σ _ rfl rfl⟩
  | @pass slot value =>
      refine ⟨[.decided slot], ?_⟩
      simp only [St.log, St.addWrite, St.addCommitted, St.setPassThrough, entries_append,
        entries_rebind, List.append_assoc]
      rfl
  | _ => exact ⟨[], (List.append_nil _).symm⟩

/-- What a learner's step may send is backed by the records. -/
theorem Sendable.vouched {journal : List (Write V)} {through : Nat} {σ : St V} {e : Envelope V}
    (h : Sendable P I σ e) (hs : Sound P through σ.node (σ.log journal)) (hsigns : Signs σ.node) :
    Vouched (σ.log journal) σ.node.id e := by
  obtain ⟨sender, recipient, message⟩ := e
  obtain ⟨rfl, hback⟩ := h
  refine ⟨rfl, ?_⟩
  cases message with
  | accept ballot slot value =>
      obtain ⟨hother, cell, hslot, hballot, hvote⟩ := hback
      have hmem : .vote ballot slot value ∈ σ.log journal := by
        rcases hvote with hw | ⟨rfl, hstate, rfl, rfl⟩
        · unfold St.log
          rw [entries_append]
          exact List.mem_append_right _ (vote_mem_entries.mpr hw)
        · exact hs.remembers.cellVoted cell hstate
      have hpos : 0 < slot :=
        (hs.obeys.window hmem (fun b hb => by cases hb) fun s hs => by cases hs).1
      refine ⟨hmem, ?_, hother⟩
      rw [← hballot]
      exact (hsigns cell (by omega)).1
  | commit slot value =>
      rcases hback with ⟨cell, hstate, rfl, -⟩ | hacked
      · have hchosen : (σ.node.ledger.cells cell).state = .chosen :=
          hstate.elim (hs.remembers.bits.chosen cell).mp id
        exact Or.inl (hs.remembers.cellChosen cell hchosen)
      · have hvote := hs.remembers.cellVoted _ hacked.state
        rw [show (σ.node.ledger.cells (cellOf slot P.W)).slot = slot from hacked.held] at hvote
        exact Or.inr ⟨_, _, hvote⟩
  | _ => trivial

variable [DecidableEq V]

/-- A small step only adds to the log. -/
theorem Micro.log_grows (journal : List (Write V)) {σ σ' : St V} (h : Micro P I σ σ') :
    ∃ more, σ'.log journal = σ.log journal ++ more := by
  cases h with
  | learn h => exact h.log_grows journal
  | promise => exact ⟨_, St.log_append journal σ _ rfl rfl⟩
  | promiseAt => exact ⟨_, St.log_append journal σ _ rfl rfl⟩
  | vote => exact ⟨_, St.log_append journal σ _ rfl rfl⟩
  | drive => exact ⟨_, St.log_append journal σ _ rfl rfl⟩
  | own => exact ⟨_, St.log_append journal σ _ rfl rfl⟩
  | _ => exact ⟨[], (List.append_nil _).symm⟩

omit [DecidableEq V] in
/-- So does the step that ends a transition. -/
theorem Final.log_grows (journal : List (Write V)) {n₀ : Node V} {σ σ' : St V}
    (h : Final P I n₀ σ σ') : ∃ more, σ'.log journal = σ.log journal ++ more := by
  cases h with
  | campaign => exact ⟨_, St.log_append journal σ _ rfl rfl⟩
  | revoke => exact ⟨[], (List.append_nil _).symm⟩
  | answer => exact ⟨[], (List.append_nil _).symm⟩

/-- A small step signs with this node's own ballots. -/
theorem Micro.signs {journal : List (Write V)} {through : Nat} {σ σ' : St V} (h : Micro P I σ σ')
    (hs : Steady P I through journal σ) (hsigns : Signs σ.node) : Signs σ'.node := by
  have hid : σ'.node.id = σ.node.id := congrArg Static.id h.static
  have hmode : σ'.node.ownership = σ.node.ownership := congrArg Static.ownership h.static
  have hsame : σ'.node.lead = σ.node.lead → Signs σ'.node := by
    intro heq cell
    rw [heq, hid, hmode]
    exact hsigns cell
  cases h with
  | learn hl => exact hsame hl.lead
  | @drive slot ballot value hballot hsource =>
      intro cell
      by_cases hcell : cell = cellOf slot P.W
      · subst hcell
        intro _
        have hrole : σ.node.role ≠ .follower := by
          cases hsource with
          | drive hdrives => simp [hdrives.role]
          | lead hleader => simp [hleader]
        simp only [voteForProposal, St.addWrite, Function.update_self]
        rw [hballot]
        obtain ⟨hnode, hround⟩ := hs.sound.proposes.role hrole
        exact ⟨hnode, fun _ => hround⟩
      · simpa [voteForProposal, St.addWrite, hcell] using hsigns cell
  | @own slot next value hown =>
      intro cell
      by_cases hcell : cell = cellOf slot P.W
      · subst hcell
        intro _
        simp only [St.bump, voteForProposal, St.addWrite, Function.update_self]
        rw [ownershipBallot_eq, hown]
        exact ⟨Nat.mod_eq_of_lt hs.id_lt, fun h => (by cases h)⟩
      · simpa [St.bump, voteForProposal, St.addWrite, hcell] using hsigns cell
  | @acknowledge sender member ballot slot decidedThrough lead _ _ _ _ _ hlead =>
      intro cell
      by_cases hcell : cell = cellOf slot P.W
      · subst hcell
        simpa [hlead] using hsigns (cellOf slot P.W)
      · simpa [hcell] using hsigns cell
  | report =>
      refine hsame ?_
      unfold recordReport
      dsimp only
      split_ifs <;> rfl
  | _ => exact hsame rfl

/-- A small step keeps a transition on its way. -/
theorem Micro.transit {journal : List (Write V)} {through : Nat} {σ σ' : St V}
    (h : Micro P I σ σ') (ht : Transit P I through journal σ) : Transit P I through journal σ' := by
  refine ⟨h.steady ht.steady, h.signs ht.steady ht.signs, fun e he => ?_⟩
  obtain ⟨more, hmore⟩ := h.log_grows journal
  have hid : σ'.node.id = σ.node.id := congrArg Static.id h.static
  have hold : e ∈ σ.effects.messages → Vouched (σ'.log journal) σ'.node.id e := by
    intro hmem
    rw [hmore, hid]
    exact (ht.vouched e hmem).append more
  cases h with
  | learn hl =>
      cases hl with
      | send hsend =>
          rcases List.mem_append.mp he with he | he
          · exact hold he
          · exact (hsend e he).vouched ht.steady.sound ht.signs
      | _ => exact hold he
  | nextChunk =>
      rcases List.mem_append.mp he with he | he
      · exact hold he
      · obtain ⟨peer, -, rfl⟩ := List.mem_map.mp he
        exact ⟨rfl, trivial⟩
  | _ => exact hold he

theorem Final.transit {journal : List (Write V)} {through : Nat} {n₀ : Node V} {σ σ' : St V}
    (h : Final P I n₀ σ σ') (ht : Transit P I through journal σ) :
    Transit P I through journal σ' := by
  have hsteady : Steady P I through journal σ' :=
    Completes.steady ⟨σ, Run.refl σ, Or.inr h⟩ ht.steady
  obtain ⟨more, hmore⟩ := h.log_grows journal
  have hid : σ'.node.id = σ.node.id := congrArg Static.id h.static
  have hold : ∀ e ∈ σ.effects.messages, Vouched (σ'.log journal) σ'.node.id e := by
    intro e hmem
    rw [hmore, hid]
    exact (ht.vouched e hmem).append more
  cases h with
  | answer =>
      refine ⟨hsteady, ht.signs, fun e he => ?_⟩
      rcases List.mem_append.mp he with he | he
      · rcases List.mem_append.mp he with he | he
        · exact hold e he
        · obtain ⟨cell, -, rfl⟩ := List.mem_map.mp he
          exact ⟨rfl, trivial⟩
      · cases List.mem_singleton.mp he
        exact ⟨rfl, trivial⟩
  | _ =>
      refine ⟨hsteady, fun cell hcell => absurd rfl hcell, fun e he => ?_⟩
      rcases List.mem_append.mp he with he | he
      · exact hold e he
      · obtain ⟨peer, -, rfl⟩ := List.mem_map.mp he
        exact ⟨rfl, trivial⟩

/-- A whole transition. -/
theorem Completes.transit {journal : List (Write V)} {through : Nat} {n₀ : Node V} {σ σ' : St V}
    (hc : Completes P I n₀ σ σ') (h : Transit P I through journal σ) :
    Transit P I through journal σ' := by
  obtain ⟨τ, hrun, hlast⟩ := hc
  have hτ : Transit P I through journal τ :=
    hrun.preserves (motive := Transit P I through journal) (fun hm ht => hm.transit ht) h
  rcases hlast with rfl | hfinal
  · exact hτ
  · exact hfinal.transit hτ

omit [DecidableEq V] in
theorem Learn.trim_mem {σ σ' : St V} (h : Learn P I σ σ') {anchor : TrimAnchor}
    (hw : .trim anchor ∈ σ'.effects.writes) : .trim anchor ∈ σ.effects.writes := by
  cases h with
  | choose => simpa [St.withLedger, St.addWrite] using hw
  | pass =>
      simp only [St.addCommitted, St.addWrite, St.setPassThrough, List.mem_append, List.mem_map,
        List.mem_singleton, reduceCtorEq, or_false] at hw
      obtain ⟨w, hw, heq⟩ := hw
      cases w <;> cases heq
      exact hw
  | _ => exact hw

/-- A transition records no trim. -/
theorem Completes.trim_mem {n₀ : Node V} {σ σ' : St V} (hc : Completes P I n₀ σ σ')
    {anchor : TrimAnchor} (hσ : .trim anchor ∉ σ.effects.writes) :
    .trim anchor ∉ σ'.effects.writes := by
  obtain ⟨τ, hrun, hlast⟩ := hc
  have hstep : ∀ {τ τ' : St V}, Micro P I τ τ' → .trim anchor ∉ τ.effects.writes →
      .trim anchor ∉ τ'.effects.writes := by
    intro τ τ' hm hτ hw
    apply hτ
    cases hm with
    | learn hl => exact hl.trim_mem hw
    | promise => simpa [St.withLedger, St.addWrite] using hw
    | promiseAt => simpa [St.withLedger, St.addWrite] using hw
    | vote => simpa [St.withLedger, St.addWrite] using hw
    | drive => simpa [voteForProposal, St.addWrite] using hw
    | own => simpa [St.bump, voteForProposal, St.addWrite] using hw
    | _ => exact hw
  have hτ : .trim anchor ∉ τ.effects.writes :=
    hrun.preserves (motive := fun τ => .trim anchor ∉ τ.effects.writes) hstep hσ
  rcases hlast with rfl | hfinal
  · exact hτ
  · cases hfinal with
    | campaign => simpa [broadcastAll, St.addMessages, St.addWrite] using hτ
    | revoke => exact hτ
    | answer => exact hτ

end Transitions

/-! ## The hosts -/

/-- A node that runs on the host of the member `id`, in step with the records of its host. -/
structure Works (d : Deployment) (id : Nat) (h : Host V) (n : Node V) : Prop where
  id_eq : n.id = id
  membership : n.membership = d.membership
  mode : n.ownership = d.ownership
  voting : n.votingMember = true
  anchor : n.ledger.anchor.chosenTrimSlot = 0
  opened : Opened d.params n
  sound : Sound d.params n.memoryFloor n (entries (h.journal ++ h.pending))
  signs : Signs n
  floor : n.memoryFloor ≤ h.consumed
  released : ∀ u, 0 < u → u + h.released.length ≤ n.deliveredThrough →
    .decided u ∈ entries h.journal

/-- What holds of the host of every member, whether it runs or is down. -/
structure Recorded (d : Deployment) (id : Nat) (h : Host V) : Prop where
  works : ∀ n, h.node = some n → Works d id h n
  durable : Durable d.params id d.ownership h.consumed h.journal
  down : h.node = none → h.pending = [] ∧ h.outbox = [] ∧ h.released = []
  outbox : ∀ e ∈ h.outbox, Vouched (entries (h.journal ++ h.pending)) id e
  released : ∀ entry ∈ h.released, .decided entry.slot ∈ entries (h.journal ++ h.pending)
  applied : ∀ entry ∈ h.applied, .decided entry.slot ∈ entries h.journal
  untrimmed : ∀ anchor, .trim anchor ∉ h.journal ++ h.pending

section Hosts

variable {d : Deployment} {id : Nat} {h : Host V} {n : Node V}

theorem Works.id_lt (hw : Works d id h n) : id < 2 ^ 16 := by
  have hmember := List.mem_of_getElem? (hw.opened.member hw.voting)
  rw [hw.membership, hw.id_eq] at hmember
  exact d.valid.ids_lt id hmember

/-- What a running host hears from the network is fair to its node. -/
theorem Works.fair (hw : Works d id h n) {net : List (Envelope V)} {op : Operation V}
    (hnet : ∀ e ∈ net, e.Authentic d.ownership) (hserves : Serves net id op) :
    Fair (op.input n) n := by
  have hheard : ∀ sender msg, (op.input n).Hears n sender msg →
      (⟨sender, n.id, msg⟩ : Envelope V).Authentic n.ownership := by
    intro sender msg hears
    rw [hw.mode]
    rcases hserves with ⟨call, rfl⟩ | ⟨e, he, -, rfl⟩
    · cases call <;> cases hears
    · cases hears
      exact hnet _ he
  refine ⟨fun sender b s v hears => ?_, fun hown sender b s v hears => ?_,
    fun hown sender s v hears => ?_⟩
  · obtain ⟨hnode, hother, -⟩ := hheard _ _ hears
    rw [hnode]
    exact fun heq => hother heq.symm
  · exact (hheard _ _ hears).2.2 hown
  · exact hheard _ _ hears hown

variable [DecidableEq V] [Inhabited V]

omit [DecidableEq V] in
/-- The host of a member before the first action. -/
theorem initialHost_recorded (d : Deployment) (id : Nat) :
    Recorded d id (initialHost d id : Host V) := by
  have hempty : Durable d.params id d.ownership 0 ([] : List (Write V)) := by
    refine ⟨Synod.Ruled.nil _, fun u hu hle => ?_, Nat.zero_le _, fun _ s hs => ?_,
      fun _ s v hv => (by cases hv), fun anchor hw => (by cases hw)⟩
    · omega
    · rcases hs with ⟨b, v, hv⟩ | hs
      · cases hv
      · cases hs
  refine ⟨fun n hn => ?_, hempty, fun _ => ⟨rfl, rfl, rfl⟩, fun e he => (by cases he),
    fun entry he => (by cases he), fun entry he => (by cases he), fun anchor hw => (by cases hw)⟩
  have hinit : nodeInit id d.membership (d.optionsFor (d.options id)) = .ok n := by
    simp only [initialHost] at hn
    cases hcase : (nodeInit id d.membership (d.optionsFor (d.options id)) :
      Except Error (Node V)) with
    | ok n' =>
        rw [hcase] at hn
        cases hn
        rfl
    | error e =>
        rw [hcase] at hn
        cases hn
  have hbegun : Sound d.params n.memoryFloor n [] ∧ Opened d.params n :=
    nodeInit_sound d.valid d.valid.small hinit
  obtain ⟨hsound, hopened⟩ := hbegun
  have hfields : n.id = id ∧ n.membership = d.membership ∧ n.ownership = d.ownership ∧
      n.votingMember = true ∧ n.ledger.anchor.chosenTrimSlot = 0 ∧ (n.lead = fun _ => {}) ∧
        n.memoryFloor = 0 ∧ n.deliveredThrough = 0 := by
    unfold nodeInit at hinit
    split at hinit
    · cases hinit
    · cases hinit
      exact ⟨rfl, rfl, rfl, rfl, rfl, rfl, rfl, rfl⟩
  obtain ⟨hid, hmembership, hmode, hvoting, hanchor, hlead, hfloor, hdelivered⟩ := hfields
  refine ⟨hid, hmembership, hmode, hvoting, hanchor, hopened, hsound, fun cell hcell => ?_,
    hfloor.le, fun u hu hle => ?_⟩
  · rw [hlead] at hcell
    exact absurd rfl hcell
  · rw [hdelivered] at hle
    omega

omit [Inhabited V] in
/-- A running host begins a transition in step with its records, and completes it. -/
theorem Recorded.begins (hr : Recorded d id h) {net : List (Envelope V)} {op : Operation V}
    (hnet : ∀ e ∈ net, e.Authentic d.ownership) (hnode : h.node = some n)
    (hpending : h.pending = []) (hserves : Serves net id op) :
    Transit d.params (op.input n) n.memoryFloor h.journal (St.start n) ∧
      Completes d.params (op.input n) n (St.start n) (operate d.params n op) := by
  have hw := hr.works n hnode
  have hsound := hw.sound
  rw [hpending, List.append_nil] at hsound
  refine ⟨⟨⟨?_, hw.opened, hw.fair hnet hserves, hw.id_eq ▸ hw.id_lt, le_rfl⟩, hw.signs,
    fun e he => absurd he List.not_mem_nil⟩, ?_⟩
  · simpa [St.log, St.start] using hsound
  · rcases hserves with ⟨call, rfl⟩ | ⟨e, -, -, rfl⟩
    · exact runCall_completes hw.opened call
    · exact nodeStep_completes hw.opened rfl (Or.inl rfl)

omit [Inhabited V] in
/-- A transition of a running host. -/
theorem Recorded.operated (hr : Recorded d id h) {net : List (Envelope V)} {op : Operation V}
    (hnet : ∀ e ∈ net, e.Authentic d.ownership) (hnode : h.node = some n)
    (hpending : h.pending = []) (hserves : Serves net id op) :
    Recorded d id (h.after (operate d.params n op)) := by
  have hw := hr.works n hnode
  have hsound := hw.sound
  rw [hpending, List.append_nil] at hsound
  obtain ⟨hstart, hc⟩ := hr.begins hnet hnode hpending hserves
  have hdone := hc.transit hstart
  have hstatic := hc.static
  have hdelivering : Delivering (fun _ _ => True) n.deliveredThrough (operate d.params n op) :=
    hc.delivering (Remembered.delivering fun _ _ _ => trivial)
  have hid : (operate d.params n op).node.id = id :=
    (congrArg Static.id hstatic).trans hw.id_eq
  refine ⟨fun n' hn' => ?_, hr.durable, fun hnone => (by cases hnone), fun e he => ?_,
    fun entry he => ?_, hr.applied, fun anchor hmem => ?_⟩
  · cases hn'
    refine ⟨hid, (congrArg Static.membership hstatic).trans hw.membership,
      (congrArg Static.ownership hstatic).trans hw.mode,
      (congrArg Static.votingMember hstatic).trans hw.voting, ?_, hdone.steady.opened, ?_,
      hdone.signs, ?_, fun u hu hle => ?_⟩
    · have hanchor : (operate d.params n op).node.ledger.anchor = n.ledger.anchor :=
        congrArg Static.anchor hstatic
      rw [hanchor]
      exact hw.anchor
    · rw [memoryFloor_of_static hstatic]
      exact hdone.steady.sound
    · rw [memoryFloor_of_static hstatic]
      exact hw.floor
    · have hlen := congrArg List.length hdelivering.slots
      rw [List.length_map, List.length_range'] at hlen
      have hmono := hdelivering.le
      refine hsound.remembers.decided u hu ?_
      simp only [Host.after] at hle
      omega
  · have hvouched := hdone.vouched e he
    rw [hid] at hvouched
    exact hvouched
  · have hle := hdelivering.slot_le he
    have hmem : entry.slot ∈ (operate d.params n op).effects.committed.map (·.slot) :=
      List.mem_map_of_mem he
    rw [hdelivering.slots, List.mem_range'_1] at hmem
    exact hdone.steady.sound.remembers.decided entry.slot (by omega) hle
  · rcases List.mem_append.mp hmem with hj | hp
    · exact hr.untrimmed anchor (List.mem_append_left _ hj)
    · exact hc.trim_mem (σ := St.start n) (fun hnil => (by cases hnil)) hp

omit [Inhabited V] in
/-- The host moves the floor or switches campaigns. -/
theorem Recorded.adjusted (hr : Recorded d id h) {op : Operation V} (hnode : h.node = some n)
    (hop : Adjusts h op) :
    Recorded d id { h with node := some (operate d.params n op).node } := by
  have hw := hr.works n hnode
  refine ⟨fun n' hn' => ?_, hr.durable, fun hnone => (by cases hnone), hr.outbox, hr.released,
    hr.applied, hr.untrimmed⟩
  cases hn'
  rcases hop with ⟨through, hle, rfl⟩ | ⟨enabled, rfl⟩
  · show Works d id _ (nodeAdvanceMemoryFloor n through).1
    have hsound := hw.sound.advanceFloor through
    have hopened := hw.opened.advanceFloor through
    unfold nodeAdvanceMemoryFloor at hsound hopened ⊢
    split_ifs at hsound hopened ⊢
    · exact ⟨hw.id_eq, hw.membership, hw.mode, hw.voting, hw.anchor, hopened, hsound, hw.signs,
        hw.floor, hw.released⟩
    · exact ⟨hw.id_eq, hw.membership, hw.mode, hw.voting, hw.anchor, hopened,
        ⟨hsound.obeys.mono (le_max_left _ _), hsound.remembers, hsound.proposes⟩, hw.signs,
        max_le hw.floor hle, hw.released⟩
  · exact ⟨hw.id_eq, hw.membership, hw.mode, hw.voting, hw.anchor,
      hw.opened.setCampaignEnabled enabled, hw.sound.setCampaignEnabled enabled, hw.signs, hw.floor,
      hw.released⟩

omit [DecidableEq V] [Inhabited V] in
/-- The records of the running incarnation bind its journal, too. -/
theorem Works.durable (hw : Works d id h n) {journal : List (Write V)}
    (hfront : ∃ rest, h.journal ++ h.pending = journal ++ rest) {through : Nat}
    (hthrough : h.consumed ≤ through) (hlast : through ≤ maxSlot)
    (hdecided : ∀ u, 0 < u → u ≤ through → .decided u ∈ entries journal)
    (huntrimmed : ∀ anchor, .trim anchor ∉ journal) :
    Durable d.params id d.ownership through journal := by
  obtain ⟨rest, hrest⟩ := hfront
  have hobeys := hw.sound.obeys
  have hsub : ∀ e ∈ entries journal, e ∈ entries (h.journal ++ h.pending) := fun e he => by
    rw [hrest, entries_append]
    exact List.mem_append_left _ he
  rw [hrest, entries_append] at hobeys
  have hfront : Obeys d.params n.memoryFloor (entries journal) := Synod.Ruled.of_append hobeys
  refine ⟨hfront.mono (hw.floor.trans hthrough), hdecided, hlast, fun hown s hs => ?_,
    fun hown s v hv => ?_, huntrimmed⟩
  · refine hw.sound.proposes.words (hw.mode.trans hown) s (hs.imp ?_ (hsub _))
    exact fun ⟨b, v, hv⟩ => ⟨b, v, hsub _ hv⟩
  · have hlt := hw.sound.proposes.own (hw.mode.trans hown) s v (hw.id_eq ▸ hsub _ hv)
    exact Nat.lt_of_lt_of_le hlt (hw.opened.aligned hw.voting (hw.mode.trans hown)).1

omit [DecidableEq V] [Inhabited V] in
/-- One more record becomes durable. -/
theorem Recorded.persisted (hr : Recorded d id h) {w : Write V} {rest : List (Write V)}
    (hpending : h.pending = w :: rest) :
    Recorded d id { h with journal := h.journal ++ [w], pending := rest } := by
  have hall : h.journal ++ [w] ++ rest = h.journal ++ h.pending := by simp [hpending]
  have hgrow : ∀ {e}, e ∈ entries h.journal → e ∈ entries (h.journal ++ [w]) := fun he => by
    rw [entries_append]
    exact List.mem_append_left _ he
  have huntrimmed : ∀ anchor, .trim anchor ∉ h.journal ++ [w] ++ rest := by
    rw [hall]
    exact hr.untrimmed
  obtain ⟨n, hnode⟩ : ∃ n, h.node = some n := by
    rcases hcase : h.node with _ | n
    · exact absurd hpending (by simp [(hr.down hcase).1])
    · exact ⟨n, rfl⟩
  have hw := hr.works n hnode
  have hd := hr.durable
  refine ⟨fun n' hn' => ?_, ?_, fun hnone => ?_, ?_, ?_,
    fun entry he => hgrow (hr.applied entry he), huntrimmed⟩
  · have hw' := hr.works n' hn'
    refine ⟨hw'.id_eq, hw'.membership, hw'.mode, hw'.voting, hw'.anchor, hw'.opened, ?_, hw'.signs,
      hw'.floor, fun u hu hle => hgrow (hw'.released u hu hle)⟩
    show Sound d.params n'.memoryFloor n' (entries (h.journal ++ [w] ++ rest))
    rw [hall]
    exact hw'.sound
  · exact hw.durable ⟨rest, hall.symm⟩ le_rfl hd.through_le
      (fun u hu hle => hgrow (hd.decided u hu hle))
      fun anchor hmem => huntrimmed anchor (List.mem_append_left _ hmem)
  · exact absurd (hnode.symm.trans hnone) (by simp)
  · show ∀ e ∈ h.outbox, Vouched (entries (h.journal ++ [w] ++ rest)) id e
    rw [hall]
    exact hr.outbox
  · show ∀ entry ∈ h.released, .decided entry.slot ∈ entries (h.journal ++ [w] ++ rest)
    rw [hall]
    exact hr.released

omit [DecidableEq V] [Inhabited V] in
/-- The host moves its durable position up to a slot that it released before. -/
theorem Recorded.consumed (hr : Recorded d id h) {through : Nat} (hnode : h.node = some n)
    (hle : h.consumed ≤ through) (hback : through + h.released.length ≤ n.deliveredThrough) :
    Recorded d id { h with consumed := through } := by
  have hw := hr.works n hnode
  have hlast : through ≤ maxSlot := by
    have := hw.opened.last
    omega
  have hdecided : ∀ u, 0 < u → u ≤ through → .decided u ∈ entries h.journal :=
    fun u hu hu' => hw.released u hu (by omega)
  refine ⟨fun n' hn' => ?_, ?_, hr.down, hr.outbox, hr.released, hr.applied, hr.untrimmed⟩
  · have hw' := hr.works n' hn'
    exact ⟨hw'.id_eq, hw'.membership, hw'.mode, hw'.voting, hw'.anchor, hw'.opened, hw'.sound,
      hw'.signs, hw'.floor.trans hle, hw'.released⟩
  · exact hw.durable ⟨h.pending, rfl⟩ hle hlast hdecided fun anchor hmem =>
      hr.untrimmed anchor (List.mem_append_left _ hmem)

omit [DecidableEq V] [Inhabited V] in
/-- A released entry is applied when its records are durable. -/
theorem Recorded.appliedEntry (hr : Recorded d id h) {entry : Committed V}
    {rest : List (Committed V)} (hpending : h.pending = [])
    (hreleased : h.released = entry :: rest) :
    Recorded d id { h with released := rest, applied := h.applied ++ [entry] } := by
  have hall : h.journal ++ h.pending = h.journal := by simp [hpending]
  have hsub : ∀ e ∈ rest, e ∈ h.released := fun e he => by simp [hreleased, he]
  refine ⟨fun n hn => ?_, hr.durable, fun hnone => ?_, hr.outbox,
    fun e he => hr.released e (hsub e he), fun e he => ?_, hr.untrimmed⟩
  · have hw := hr.works n hn
    refine ⟨hw.id_eq, hw.membership, hw.mode, hw.voting, hw.anchor, hw.opened, hw.sound, hw.signs,
      hw.floor, fun u hu hle => ?_⟩
    have hdecided := hw.sound.remembers.decided u hu (by
      simp only at hle
      omega)
    rwa [hall] at hdecided
  · exact absurd (hr.down hnone).2.2 (by simp [hreleased])
  · rcases List.mem_append.mp he with he | he
    · exact hr.applied e he
    · obtain rfl := List.mem_singleton.mp he
      have hmem := hr.released e (by simp [hreleased])
      rwa [hall] at hmem

omit [DecidableEq V] [Inhabited V] in
/-- A host that goes down keeps its journal and the slot it has consumed. -/
theorem Recorded.crashed (hr : Recorded d id h) :
    Recorded d id { h with node := none, pending := [], outbox := [], released := [] } := by
  refine ⟨fun n hn => (by cases hn), hr.durable, fun _ => ⟨rfl, rfl, rfl⟩,
    fun e he => (by cases he), fun e he => (by cases he), hr.applied, fun anchor hmem => ?_⟩
  rw [List.append_nil] at hmem
  exact hr.untrimmed anchor (List.mem_append_left _ hmem)

/-- A host that restarts its member from its journal. -/
theorem Recorded.restarted (hr : Recorded d id h) {options : NodeOptions} {h' : Host V}
    (hrestart : h.restarted d id options = some h') : Recorded d id h' := by
  unfold Host.restarted at hrestart
  split at hrestart
  swap
  · cases hrestart
  next l hreplay =>
  split at hrestart
  swap
  · cases hrestart
  next n hn =>
  cases hrestart
  have hrestored :
      Restored d.params id d.membership (d.optionsFor options) h.consumed h.journal n :=
    ⟨hr.durable, d.valid, d.valid.small, l, hreplay, hn⟩
  obtain ⟨l', hfold, hfields⟩ := hrestored.folded
  have hanchor : l.anchor = {} := replayFrom_anchor hr.durable.untrimmed hreplay
  have hidle : n.lead = (fun _ => {}) ∧ n.ledger.anchor = l.anchor := by
    unfold nodeRestore at hn
    split at hn
    · cases hn
    · next n₀ hinit =>
        cases hn
        rw [nodeResumeAt_lead]
        unfold nodeInit at hinit
        split at hinit
        · cases hinit
        · cases hinit
          refine ⟨rfl, ?_⟩
          unfold nodeResumeAt
          dsimp only
          split_ifs <;> exact (clearOpenCells_cells _ _).anchor
  have hempty : h.journal ++ [] = h.journal := List.append_nil _
  refine ⟨fun n' hn' => ?_, hr.durable, fun hnone => (by cases hnone), fun e he => (by cases he),
    fun e he => (by cases he), hr.applied, fun anchor hmem => ?_⟩
  · cases hn'
    refine ⟨hfields.id_eq, hfields.membership_eq, hfields.ownership, hfields.votingMember, ?_,
      hrestored.opened, ?_, fun cell hcell => ?_, hfields.memoryFloor.le, fun u hu hle => ?_⟩
    · rw [hidle.2, hanchor]
    · rw [hempty, hfields.memoryFloor]
      exact hrestored.sound
    · rw [hidle.1] at hcell
      exact absurd rfl hcell
    · rw [hfields.deliveredThrough] at hle
      exact hr.durable.decided u hu hle
  · rw [hempty] at hmem
    exact hr.untrimmed anchor (List.mem_append_left _ hmem)

/-- Every change of a host keeps what is known of it, and hands authentic envelopes to the
network. -/
theorem Recorded.change (hr : Recorded d id h) {net es : List (Envelope V)} {h' : Host V}
    {asked : Option (Operation V)} (hnet : ∀ e ∈ net, e.Authentic d.ownership)
    (hc : Change d net id h asked h' es) :
    Recorded d id h' ∧ ∀ e ∈ es, e.Authentic d.ownership := by
  have hbacked : ∀ e ∈ h.outbox, e.Authentic d.ownership := by
    intro e he
    rcases hcase : h.node with _ | n
    · rw [(hr.down hcase).2.1] at he
      cases he
    · have hw := hr.works n hcase
      have hvouched := hr.outbox e he
      rw [← hw.id_eq] at hvouched
      exact hw.mode ▸ hvouched.authentic hw.sound.proposes
  have hnone : ∀ e ∈ ([] : List (Envelope V)), e.Authentic d.ownership := fun e he => by cases he
  cases hc with
  | operated hnode hpending _ hserves => exact ⟨hr.operated hnet hnode hpending hserves, hnone⟩
  | adjusted hnode hop => exact ⟨hr.adjusted hnode hop, hnone⟩
  | persisted hpending => exact ⟨hr.persisted hpending, hnone⟩
  | @sent e rest hpending houtbox =>
      have hsub : ∀ e' ∈ rest, e' ∈ h.outbox := fun e' he' => by simp [houtbox, he']
      refine ⟨⟨fun n hn => ?_, hr.durable, fun hdown => ?_,
        fun e' he' => hr.outbox e' (hsub e' he'), hr.released, hr.applied, hr.untrimmed⟩,
        fun e' he' => ?_⟩
      · have hw := hr.works n hn
        exact ⟨hw.id_eq, hw.membership, hw.mode, hw.voting, hw.anchor, hw.opened, hw.sound,
          hw.signs, hw.floor, hw.released⟩
      · exact absurd (hr.down hdown).2.1 (by simp [houtbox])
      · obtain rfl := List.mem_singleton.mp he'
        exact hbacked e' (by simp [houtbox])
  | hastened he _ =>
      refine ⟨hr, fun e' he' => ?_⟩
      obtain rfl := List.mem_singleton.mp he'
      exact hbacked e' he
  | applied hpending hreleased => exact ⟨hr.appliedEntry hpending hreleased, hnone⟩
  | consumed hnode hle hback => exact ⟨hr.consumed hnode hle hback, hnone⟩
  | served hentry =>
      refine ⟨hr, fun e' he' => ?_⟩
      obtain rfl := List.mem_singleton.mp he'
      exact fun hown => hr.durable.words hown _ (Or.inr (hr.applied _ hentry))
  | crashed => exact ⟨hr.crashed, hnone⟩
  | restarted _ hrestart => exact ⟨hr.restarted hrestart, hnone⟩

/-! ## The runs -/

variable {ok : Cluster V → Action V → Prop} {c : Cluster V}

/-- In every run every host is in step with its records, and the network carries only authentic
envelopes. -/
theorem Cluster.Reaches.recorded (h : Cluster.Reaches d ok c) :
    (∀ id, Recorded d id (c.hosts id)) ∧ ∀ e ∈ c.net, e.Authentic d.ownership :=
  h.keeps (J := fun _ id h => Recorded d id h) (initialHost_recorded d) (fun hr => hr)
    fun hr hnet hc => hr.change hnet hc

/-- In every run the journal of every member obeys the acceptor law. -/
theorem Cluster.Reaches.lawful (h : Cluster.Reaches d ok c) (id : Nat) :
    Synod.Lawful (entries (c.hosts id).journal) :=
  (h.recorded.1 id).durable.obeys.lawful

end Hosts

end PaxosOdin
