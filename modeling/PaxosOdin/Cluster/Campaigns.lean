import PaxosOdin.Cluster.Records
import PaxosOdin.Cluster.Ballots
import PaxosOdin.Lifetime.Inheriting

/-!
# Members in campaign mode

Where no member shares out the slots, every running member is a follower, a candidate or a leader
in the sense of `Campaigns`, every candidate has driven the slots below its chunk, and the network
carries only what such members write.

Main results:

- Theorem `Cluster.step_restart`: a member that is down runs again by a restart only.
- Theorem `Cluster.Reaches.campaigns`: in every run in campaign mode the members campaign, and what
  they send is genuine.
-/

namespace PaxosOdin

variable {V : Type} [DecidableEq V] [Inhabited V] {d : Deployment} {id : Nat} {h h' : Host V}

/-! ## Restarts -/

omit [DecidableEq V] in
/-- Every member starts as `node_init` leaves it. -/
theorem initialHost_init {n : Node V} (hn : (initialHost d id).node = some n) :
    nodeInit id d.membership (d.optionsFor (d.options id)) = .ok n := by
  simp only [initialHost] at hn
  cases hcase : (nodeInit id d.membership (d.optionsFor (d.options id)) :
    Except Error (Node V)) with
  | ok n' =>
      rw [hcase] at hn
      cases hn
      rfl
  | error e =>
      rw [hcase] at hn
      cases hn

omit [DecidableEq V] in
/-- It follows, and has proposed, recorded and heard nothing. -/
theorem initialHost_fresh {n : Node V} (hn : (initialHost d id).node = some n) :
    (n.role = .follower ∧ n.nextSlot = 1 ∧ ∀ i, n.election i = {}) ∧
      (n.lead = fun _ => {}) ∧ n.ledger = Ledger.empty := by
  have hinit := initialHost_init hn
  unfold nodeInit at hinit
  split at hinit
  · cases hinit
  · cases hinit
    exact ⟨⟨rfl, rfl, fun i => rfl⟩, rfl, rfl⟩

/-- What a restart does: the journal is folded and the node restored on the ledger. -/
theorem Host.restarted_eq_some {options : NodeOptions}
    (hrestart : h.restarted d id options = some h') :
    ∃ l n, replay d.params h.journal = (l, .none) ∧
      nodeRestore d.params id d.membership l h.consumed (d.optionsFor options) = .ok n ∧
        h' = { h with node := some n, pending := [], outbox := [], released := [] } := by
  unfold Host.restarted at hrestart
  split at hrestart
  · next l hreplay =>
      split at hrestart
      · next n hn =>
          cases hrestart
          exact ⟨l, n, hreplay, hn, rfl⟩
      · cases hrestart
  · cases hrestart

/-- A member that is down runs again by a restart only. -/
theorem Cluster.step_restart {c c' : Cluster V} {a : Action V} {n : Node V}
    (h : c.step d a = some c') (hdown : (c.hosts id).node = none)
    (hup : (c'.hosts id).node = some n) : ∃ options, a = .restart id options := by
  -- any other action leaves a member that is down where it is
  have hstill : ∀ {other : Nat} {h' : Host V}, c'.hosts = Function.update c.hosts other h' →
      ¬ ((c.hosts other).node = none → h'.node = none) := by
    intro other h' hhosts hkeeps
    rw [hhosts] at hup
    by_cases hid : id = other
    · subst hid
      rw [Function.update_self, hkeeps hdown] at hup
      cases hup
    · rw [Function.update_of_ne hid, hdown] at hup
      cases hup
  have hrunning : ∀ {other : Nat} {m : Node V} {h' : Host V}, (c.hosts other).node = some m →
      c'.hosts = Function.update c.hosts other h' → False :=
    fun hnode hhosts => hstill hhosts fun hnone => by rw [hnode] at hnone; cases hnone
  have hsame : c'.hosts ≠ c.hosts := by
    intro hhosts
    rw [hhosts, hdown] at hup
    cases hup
  cases a with
  | restart other options =>
      by_cases hid : other = id
      · exact ⟨options, by rw [hid]⟩
      · simp only [Cluster.step] at h
        split at h
        · cases h
        · obtain ⟨h', -, hc⟩ := Option.bind_eq_some_iff.mp h
          cases hc
          have hother : (c.setHost other h').hosts id = c.hosts id :=
            Function.update_of_ne (fun heq => hid heq.symm) _ _
          rw [hother, hdown] at hup
          cases hup
  | call other call =>
      obtain ⟨m, hready, hc⟩ := Option.bind_eq_some_iff.mp h
      cases hc
      exact (hrunning (Host.ready_eq_some hready).1 rfl).elim
  | deliver position =>
      obtain ⟨e, -, h⟩ := Option.bind_eq_some_iff.mp h
      obtain ⟨m, hready, hc⟩ := Option.bind_eq_some_iff.mp h
      cases hc
      exact (hrunning (Host.ready_eq_some hready).1 rfl).elim
  | sendPreDurable other position =>
      obtain ⟨e, -, hc⟩ := Option.bind_eq_some_iff.mp h
      split_ifs at hc
      cases hc
      exact (hsame rfl).elim
  | persist other =>
      simp only [Cluster.step] at h
      split at h
      · cases h
      · cases h
        exact (hstill rfl fun hnone => hnone).elim
  | send other =>
      simp only [Cluster.step] at h
      split at h
      · cases h
        exact (hstill rfl fun hnone => hnone).elim
      · cases h
  | apply other =>
      simp only [Cluster.step] at h
      split at h
      · cases h
        exact (hstill rfl fun hnone => hnone).elim
      · cases h
  | consume other through =>
      obtain ⟨m, hnode, hc⟩ := Option.bind_eq_some_iff.mp h
      split_ifs at hc
      cases hc
      exact (hrunning hnode rfl).elim
  | advanceFloor other through =>
      obtain ⟨m, hnode, hc⟩ := Option.bind_eq_some_iff.mp h
      split_ifs at hc
      cases hc
      exact (hrunning hnode rfl).elim
  | setCampaignEnabled other enabled =>
      obtain ⟨m, hnode, hc⟩ := Option.bind_eq_some_iff.mp h
      cases hc
      exact (hrunning hnode rfl).elim
  | serve other position peer =>
      obtain ⟨entry, -, hc⟩ := Option.bind_eq_some_iff.mp h
      cases hc
      exact (hsame rfl).elim
  | crash other =>
      cases h
      exact (hstill rfl fun _ => rfl).elim

/-! ## Candidates and leaders -/

/-- A host whose member campaigns: its node has the authority of its role and drove the slots below
its chunk, and what it has to send is genuine. -/
structure Contends (d : Deployment) (h : Host V) : Prop where
  node : ∀ n, h.node = some n → Campaigns d.params (St.start n) ∧ Rested d.params n
  outbox : ∀ e ∈ h.outbox, e.Genuine

omit [DecidableEq V] [Inhabited V] in
/-- A node that follows contends for nothing. -/
theorem Works.idle {n : Node V} (hw : Works d id h n) (hmode : d.ownership = false)
    (hrole : n.role = .follower) (hlead : n.lead = fun _ => {}) :
    Campaigns d.params (St.start n) ∧ Rested d.params n := by
  refine ⟨.idle hw.opened (hw.id_eq ▸ hw.id_lt) (hw.mode.trans hmode) ⟨hrole, hlead⟩,
    fun hpreparing => ?_⟩
  rw [hrole] at hpreparing
  cases hpreparing

omit [Inhabited V] in
/-- An operation of a running member in campaign mode. -/
theorem Contends.operated {n : Node V} {op : Operation V} (hg : Contends d h) (hr : Recorded d id h)
    (hnode : h.node = some n) (hgenuine : ∀ e, op = .step e → e.Genuine) :
    (Campaigns d.params (St.start (operate d.params n op).node) ∧
      Rested d.params (operate d.params n op).node) ∧
        ∀ e ∈ (operate d.params n op).effects.messages, e.Genuine := by
  obtain ⟨hc, hrested⟩ := hg.node n hnode
  have htag : Tagged d.params n.ledger := (hr.works n hnode).sound.remembers.tagged
  obtain ⟨hdone, hnext⟩ := operate_campaigns hc hgenuine
  exact ⟨⟨hnext, operate_rested hc htag hrested hgenuine⟩, hdone.genuine⟩

/-- Every change of a host keeps its member campaigning, and what the host hands to the network is
genuine. -/
theorem Change.contends {net es : List (Envelope V)} {asked : Option (Operation V)}
    (hmode : d.ownership = false) (hr : Recorded d id h) (hr' : Recorded d id h')
    (hnet : ∀ e ∈ net, e.Genuine) (hg : Contends d h) (hc : Change d net id h asked h' es) :
    Contends d h' ∧ ∀ e ∈ es, e.Genuine := by
  have hnothing : ∀ e ∈ ([] : List (Envelope V)), e.Genuine :=
    fun e he => absurd he List.not_mem_nil
  cases hc with
  | @operated n op hnode hpending hreleased hserves =>
      have hgenuine : ∀ e, op = .step e → e.Genuine := by
        rintro e rfl
        rcases hserves with ⟨call, hcall⟩ | ⟨e', he', -, hop⟩
        · cases hcall
        · cases hop
          exact hnet e he'
      obtain ⟨hnext, hsends⟩ := hg.operated hr hnode hgenuine
      refine ⟨⟨fun n' hn' => ?_, hsends⟩, hnothing⟩
      cases hn'
      exact hnext
  | @adjusted n op hnode hop =>
      have hgenuine : ∀ e, op = .step e → e.Genuine := by
        rintro e rfl
        rcases hop with ⟨through, -, hop⟩ | ⟨enabled, hop⟩ <;> cases hop
      obtain ⟨hnext, -⟩ := hg.operated hr hnode hgenuine
      refine ⟨⟨fun n' hn' => ?_, hg.outbox⟩, hnothing⟩
      cases hn'
      exact hnext
  | persisted => exact ⟨⟨hg.node, hg.outbox⟩, hnothing⟩
  | @sent e rest hpending houtbox =>
      refine ⟨⟨hg.node, fun e' he' => hg.outbox e' (by simp [houtbox, he'])⟩, fun e' he' => ?_⟩
      obtain rfl := List.mem_singleton.mp he'
      exact hg.outbox e' (by simp [houtbox])
  | @hastened e he hpre =>
      refine ⟨hg, fun e' he' => ?_⟩
      obtain rfl := List.mem_singleton.mp he'
      exact hg.outbox e' he
  | applied => exact ⟨⟨hg.node, hg.outbox⟩, hnothing⟩
  | consumed => exact ⟨⟨hg.node, hg.outbox⟩, hnothing⟩
  | served =>
      refine ⟨hg, fun e' he' => ?_⟩
      obtain rfl := List.mem_singleton.mp he'
      trivial
  | crashed =>
      exact ⟨⟨fun n hn => (by cases hn), fun e he => absurd he List.not_mem_nil⟩, hnothing⟩
  | restarted _ hrestart =>
      obtain ⟨l, n, -, hn, rfl⟩ := Host.restarted_eq_some hrestart
      obtain ⟨-, hlead, hrole⟩ := nodeRestore_fresh hn
      refine ⟨⟨fun n' hn' => ?_, fun e he => absurd he List.not_mem_nil⟩, hnothing⟩
      cases hn'
      exact (hr'.works n rfl).idle hmode hrole hlead

variable {ok : Cluster V → Action V → Prop} {c : Cluster V}

/-- In every run in campaign mode the members campaign, and what they send is genuine. -/
theorem Cluster.Reaches.campaigns (h : Cluster.Reaches d ok c) (hmode : d.ownership = false) :
    (∀ id, Contends d (c.hosts id)) ∧ ∀ e ∈ c.net, e.Genuine := by
  have hkeeps := h.keeps (J := fun _ id h => Recorded d id h ∧ Contends d h)
    (K := fun e => e.Authentic d.ownership ∧ e.Genuine) ?_ (fun hj => hj) ?_
  · exact ⟨fun id => (hkeeps.1 id).2, fun e he => (hkeeps.2 e he).2⟩
  · intro id
    have hr : Recorded d id (initialHost d id : Host V) := initialHost_recorded d id
    refine ⟨hr, fun n hn => ?_, fun e he => absurd he List.not_mem_nil⟩
    obtain ⟨⟨hrole, -⟩, hlead, -⟩ := initialHost_fresh hn
    exact (hr.works n hn).idle hmode hrole hlead
  · rintro net id h asked h' es ⟨hr, hg⟩ hnet hc
    obtain ⟨hr', hes⟩ := hr.change (fun e he => (hnet e he).1) hc
    obtain ⟨hg', hgenuine⟩ := hc.contends hmode hr hr' (fun e he => (hnet e he).2) hg
    exact ⟨⟨hr', hg'⟩, fun e he => ⟨hes e he, hgenuine e he⟩⟩

end PaxosOdin
