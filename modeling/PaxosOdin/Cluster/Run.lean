import PaxosOdin.Cluster.Host
import PaxosOdin.Lifetime.Operations

/-!
# The runs of a cluster

Every action changes one host and hands at most one envelope to the network.  `Change` lists once
what an action can do to a host; the invariants of the cluster are derived from this list.

Main definitions:

- Definition `Change`: what one action does to a host.
- Definition `Cluster.Reaches`: the states of the runs whose steps all meet a condition.

Main results:

- Theorem `Cluster.step_change`: every step is one change of one host.
- Theorem `Cluster.Reaches.keeps`: a property of every host and the network that all changes keep
  holds throughout.
-/

namespace PaxosOdin

variable {V : Type}

/-- What a host may ask its node in a transition: a call of its own, or a step on an envelope
that some host handed to the network. -/
def Serves (net : List (Envelope V)) (id : Nat) (op : Operation V) : Prop :=
  (∃ call, op = .call call) ∨ ∃ e ∈ net, e.recipient = id ∧ op = .step e

/-- What a host may do to its node between two transitions. -/
def Adjusts (h : Host V) (op : Operation V) : Prop :=
  (∃ through ≤ h.consumed, op = .advanceFloor through) ∨ ∃ enabled, op = .setCampaignEnabled enabled

section Changes

variable [DecidableEq V] [Inhabited V]

/-- The operation that an action starts as a transition of the member `id`, if any. -/
def Cluster.asks (c : Cluster V) (id : Nat) : Action V → Option (Operation V)
  | .call other call => if other = id then some (.call call) else none
  | .deliver position =>
      c.net[position]?.bind fun e => if e.recipient = id then some (.step e) else none
  | _ => none

/-- What one action does to the host `h` of the member `id`: the operation that it starts as a
transition, the new host, and the envelopes it hands to the network. -/
inductive Change (d : Deployment) (net : List (Envelope V)) (id : Nat) (h : Host V) :
    Option (Operation V) → Host V → List (Envelope V) → Prop
  /-- A transition. -/
  | operated {n : Node V} {op : Operation V} (hnode : h.node = some n) (hpending : h.pending = [])
      (hreleased : h.released = []) (hserves : Serves net id op) :
      Change d net id h (some op) (h.after (operate d.params n op)) []
  /-- The host moves the floor, or switches campaigns. -/
  | adjusted {n : Node V} {op : Operation V} (hnode : h.node = some n) (hop : Adjusts h op) :
      Change d net id h none { h with node := some (operate d.params n op).node } []
  /-- The next record of the batch becomes durable. -/
  | persisted {w : Write V} {rest : List (Write V)} (hpending : h.pending = w :: rest) :
      Change d net id h none { h with journal := h.journal ++ [w], pending := rest } []
  /-- A message leaves after every record of its batch is durable. -/
  | sent {e : Envelope V} {rest : List (Envelope V)} (hpending : h.pending = [])
      (houtbox : h.outbox = e :: rest) : Change d net id h none { h with outbox := rest } [e]
  /-- A pre-durable message leaves early. -/
  | hastened {e : Envelope V} (he : e ∈ h.outbox) (hpre : e.isPreDurable = true) :
      Change d net id h none h [e]
  /-- A released entry is applied. -/
  | applied {entry : Committed V} {rest : List (Committed V)} (hpending : h.pending = [])
      (hreleased : h.released = entry :: rest) :
      Change d net id h none { h with released := rest, applied := h.applied ++ [entry] } []
  /-- The host has durably consumed the log through a slot that it released before. -/
  | consumed {n : Node V} {through : Nat} (hnode : h.node = some n) (hle : h.consumed ≤ through)
      (hback : through + h.released.length ≤ n.deliveredThrough) :
      Change d net id h none { h with consumed := through } []
  /-- The host serves a decision from its applied log. -/
  | served {entry : Committed V} {peer : Nat} (hentry : entry ∈ h.applied) :
      Change d net id h none h [commitEnvelope id peer entry]
  | crashed :
      Change d net id h none { h with node := none, pending := [], outbox := [], released := [] } []
  | restarted {options : NodeOptions} {h' : Host V} (hdown : h.node = none)
      (hrestart : h.restarted d id options = some h') : Change d net id h none h' []

omit [DecidableEq V] [Inhabited V] in
theorem Host.ready_eq_some {h : Host V} {n : Node V} (hready : h.ready = some n) :
    h.node = some n ∧ h.pending = [] ∧ h.released = [] := by
  unfold Host.ready at hready
  split_ifs at hready with hdone
  exact ⟨hready, hdone⟩

/-- Every step is one change of one host. -/
theorem Cluster.step_change {d : Deployment} {c c' : Cluster V} {a : Action V}
    (h : c.step d a = some c') :
    ∃ id h' es, Change d c.net id (c.hosts id) (c.asks id a) h' es ∧
      c'.hosts = Function.update c.hosts id h' ∧ c'.net = c.net ++ es := by
  have hsame : ∀ id, c.hosts = Function.update c.hosts id (c.hosts id) := fun id =>
    (Function.update_eq_self id c.hosts).symm
  cases a with
  | call id call =>
      obtain ⟨n, hready, hc⟩ := Option.bind_eq_some_iff.mp h
      obtain ⟨hnode, hpending, hreleased⟩ := Host.ready_eq_some hready
      cases hc
      have hasks : c.asks id (.call id call) = some (.call call) := if_pos rfl
      refine ⟨id, (c.hosts id).after (runCall d.params n call), [], ?_, rfl,
        (List.append_nil _).symm⟩
      rw [hasks]
      exact .operated hnode hpending hreleased (Or.inl ⟨call, rfl⟩)
  | deliver position =>
      obtain ⟨e, he, h⟩ := Option.bind_eq_some_iff.mp h
      obtain ⟨n, hready, hc⟩ := Option.bind_eq_some_iff.mp h
      obtain ⟨hnode, hpending, hreleased⟩ := Host.ready_eq_some hready
      cases hc
      have hasks : c.asks e.recipient (.deliver position) = some (.step e) := by
        simp [Cluster.asks, he]
      refine ⟨e.recipient, (c.hosts e.recipient).after (nodeStep d.params n e).1, [], ?_, rfl,
        (List.append_nil _).symm⟩
      rw [hasks]
      exact .operated hnode hpending hreleased (Or.inr ⟨e, List.mem_of_getElem? he, rfl, rfl⟩)
  | sendPreDurable id position =>
      obtain ⟨e, he, hc⟩ := Option.bind_eq_some_iff.mp h
      split_ifs at hc with hpre
      cases hc
      exact ⟨id, _, [e], .hastened (List.mem_of_getElem? he) hpre, hsame id, rfl⟩
  | persist id =>
      simp only [Cluster.step] at h
      split at h
      · cases h
      · next w rest hpending =>
          cases h
          exact ⟨id, _, [], .persisted hpending, rfl, (List.append_nil _).symm⟩
  | send id =>
      simp only [Cluster.step] at h
      split at h
      · next e rest hpending houtbox =>
          cases h
          exact ⟨id, _, [e], .sent hpending houtbox, rfl, rfl⟩
      · cases h
  | apply id =>
      simp only [Cluster.step] at h
      split at h
      · next e rest hpending hreleased =>
          cases h
          exact ⟨id, _, [], .applied hpending hreleased, rfl, (List.append_nil _).symm⟩
      · cases h
  | consume id through =>
      obtain ⟨n, hnode, hc⟩ := Option.bind_eq_some_iff.mp h
      split_ifs at hc with hle
      cases hc
      exact ⟨id, _, [], .consumed hnode hle.1 hle.2, rfl, (List.append_nil _).symm⟩
  | advanceFloor id through =>
      obtain ⟨n, hnode, hc⟩ := Option.bind_eq_some_iff.mp h
      split_ifs at hc with hle
      cases hc
      have hop : Adjusts (c.hosts id) (Operation.advanceFloor through : Operation V) :=
        Or.inl ⟨through, hle, rfl⟩
      exact ⟨id, _, [], .adjusted hnode hop, rfl, (List.append_nil _).symm⟩
  | setCampaignEnabled id enabled =>
      obtain ⟨n, hnode, hc⟩ := Option.bind_eq_some_iff.mp h
      cases hc
      have hop : Adjusts (c.hosts id) (Operation.setCampaignEnabled enabled : Operation V) :=
        Or.inr ⟨enabled, rfl⟩
      exact ⟨id, _, [], .adjusted hnode hop, rfl, (List.append_nil _).symm⟩
  | serve id position peer =>
      obtain ⟨entry, hentry, hc⟩ := Option.bind_eq_some_iff.mp h
      cases hc
      exact ⟨id, _, [_], .served (List.mem_of_getElem? hentry), hsame id, rfl⟩
  | crash id =>
      cases h
      exact ⟨id, _, [], .crashed, rfl, (List.append_nil _).symm⟩
  | restart id options =>
      simp only [Cluster.step] at h
      split at h
      · cases h
      · next hdown =>
          obtain ⟨h', hrestart, hc⟩ := Option.bind_eq_some_iff.mp h
          cases hc
          exact ⟨id, h', [], .restarted hdown hrestart, rfl, (List.append_nil _).symm⟩

/-! ## Runs -/

/-- The states of the runs of a deployment whose steps all meet the condition `ok`. -/
inductive Cluster.Reaches (d : Deployment) (ok : Cluster V → Action V → Prop) : Cluster V → Prop
  | initial : Cluster.Reaches d ok (Cluster.initial d)
  | step {c c' : Cluster V} {a : Action V} (h : Cluster.Reaches d ok c) (hok : ok c a)
      (hstep : c.step d a = some c') : Cluster.Reaches d ok c'

variable {d : Deployment} {ok : Cluster V → Action V → Prop} {c : Cluster V}

/-- What holds at the start and is kept by every step that meets the condition holds
throughout. -/
theorem Cluster.Reaches.invariant {motive : Cluster V → Prop} (h : Cluster.Reaches d ok c)
    (hstart : motive (Cluster.initial d))
    (hkeep : ∀ {c c' : Cluster V} {a : Action V}, Cluster.Reaches d ok c → motive c → ok c a →
      c.step d a = some c' → motive c') : motive c := by
  induction h with
  | initial => exact hstart
  | step h hok hstep ih => exact hkeep h ih hok hstep

/-- A run that meets a condition meets every weaker one. -/
theorem Cluster.Reaches.weaken {ok' : Cluster V → Action V → Prop} (h : Cluster.Reaches d ok c)
    (hle : ∀ c a, Cluster.Reaches d ok c → ok c a → ok' c a) : Cluster.Reaches d ok' c := by
  induction h with
  | initial => exact .initial
  | step hc hok hstep ih => exact ih.step (hle _ _ hc hok) hstep

/-- A list of actions is a run without a condition. -/
theorem Cluster.Reaches.of_run {c c' : Cluster V} {actions : List (Action V)}
    (h : Cluster.Reaches d (fun _ _ => True) c) (hrun : c.run d actions = some c') :
    Cluster.Reaches d (fun _ _ => True) c' := by
  induction actions generalizing c with
  | nil =>
      cases hrun
      exact h
  | cons a actions ih =>
      obtain ⟨c₁, hstep, hrest⟩ := Option.bind_eq_some_iff.mp hrun
      exact ih (h.step trivial hstep) hrest

/-- A property of every host, given what the network carries, and of every envelope of the network:
it holds throughout when it holds at the start, survives a greater network, and is kept by every
change of a host. -/
theorem Cluster.Reaches.keeps {J : List (Envelope V) → Nat → Host V → Prop}
    {K : Envelope V → Prop} (h : Cluster.Reaches d ok c)
    (hinitial : ∀ id, J [] id (initialHost d id))
    (hmono : ∀ {net es id h}, J net id h → J (net ++ es) id h)
    (hchange : ∀ {net id h asked h' es}, J net id h → (∀ e ∈ net, K e) →
      Change d net id h asked h' es → J (net ++ es) id h' ∧ ∀ e ∈ es, K e) :
    (∀ id, J c.net id (c.hosts id)) ∧ ∀ e ∈ c.net, K e := by
  refine h.invariant (motive := fun c => (∀ id, J c.net id (c.hosts id)) ∧ ∀ e ∈ c.net, K e)
    ⟨hinitial, fun e he => absurd he List.not_mem_nil⟩ ?_
  rintro c c' a - ⟨hhosts, hnet⟩ - hstep
  obtain ⟨id, h', es, hc, hupdate, hes⟩ := Cluster.step_change hstep
  obtain ⟨hnew, hsent⟩ := hchange (hhosts id) hnet hc
  constructor
  · intro other
    rw [hupdate, hes]
    by_cases hother : other = id
    · subst hother
      rw [Function.update_self]
      exact hnew
    · rw [Function.update_of_ne hother]
      exact hmono (hhosts other)
  · intro e he
    rw [hes] at he
    exact (List.mem_append.mp he).elim (hnet e) (hsent e)

end Changes

/-! ## A small deployment -/

/-- The three members of the trio, all in campaign mode. -/
def trioDeployment : Deployment where
  params := trioParams
  nodeIds := [1, 2, 3]
  readQuorum := 2
  writeQuorum := 2
  membership := trio
  admitted := rfl
  ids_lt := by decide
  ownership := false
  options := fun _ => .zero

/-- Member 1 wins a term with its own answer and that of member 2. -/
def trioElection : List (Action Nat) :=
  [.call 1 (.campaign 0), .persist 1, .send 1, .send 1, .send 1, .deliver 0, .send 1, .deliver 1,
    .persist 2, .send 2, .deliver 3, .deliver 4]

end PaxosOdin
