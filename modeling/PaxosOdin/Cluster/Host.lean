import PaxosOdin.Core.Step

/-!
# Hosts, journals and the network

The system the participants run in.  Every member has a host that persists the writes
of a transition, sends its messages, applies its released entries, and restarts the
member from its durable journal after a crash.  The network never forges an envelope,
but it may lose, delay, reorder and duplicate: an envelope that left its host can be
delivered at any time and any number of times, or never.

A host obeys the contract of `Effects`: messages leave in order after every write of
their transition is durable (only the pre-durable Accepts may leave earlier), entries are
applied after their records are durable, and the next transition starts after that.

Main definitions:

- Definition `Cluster.step`: one action of a host, of the network or of a crash.
- Definition `Cluster.run`: the state after a list of actions.
-/

namespace PaxosOdin

variable {V : Type}

/-- A configuration that `membership_init` admits, with the mode and the options of every
member. -/
structure Deployment where
  params : Params
  nodeIds : List Nat
  readQuorum : Int
  writeQuorum : Int
  membership : Membership
  admitted : membershipInit params nodeIds readQuorum writeQuorum = .ok membership
  ids_lt : ∀ id ∈ nodeIds, id < 2 ^ 16
  ownership : Bool
  options : Nat → NodeOptions

/-- The membership of a deployment is valid. -/
theorem Deployment.valid (d : Deployment) : d.membership.Valid :=
  membershipInit_valid d.ids_lt d.admitted

/-- The options a member is opened with: its own, in the mode of the deployment. -/
def Deployment.optionsFor (d : Deployment) (options : NodeOptions) : NodeOptions :=
  { options with rotatingOwnership := d.ownership }

/-- One member with its host.  `node` is `none` while the member is crashed; `pending`
are the writes of the last transition that are not yet durable, `outbox` its messages
that have not left, and `released` its entries that are not yet applied. -/
structure Host (V : Type) where
  node : Option (Node V)
  pending : List (Write V) := []
  outbox : List (Envelope V) := []
  released : List (Committed V) := []
  journal : List (Write V) := []
  consumed : Nat := 0
  applied : List (Committed V) := []

/-- All members, every envelope that ever left a host, and the history of the
deliveries (positions in `net`). -/
structure Cluster (V : Type) where
  hosts : Nat → Host V
  net : List (Envelope V) := []
  deliveries : List Nat := []

/-- The transitions a host starts by itself. -/
inductive Call (V : Type) where
  | campaign (noop : V)
  | propose (value : V)
  | proposeBatch (values : List V) (capacity : Nat)
  | tick (noop : V)
  | reconnected (peer : Nat)
  | requestCatchUp (peer fromSlot : Nat)

/-- One step of the system. -/
inductive Action (V : Type) where
  | call (id : Nat) (c : Call V)
  | deliver (position : Nat)
  | sendPreDurable (id position : Nat)
  | persist (id : Nat)
  | send (id : Nat)
  | apply (id : Nat)
  | consume (id through : Nat)
  | advanceFloor (id through : Nat)
  | setCampaignEnabled (id : Nat) (enabled : Bool)
  | serve (id position peer : Nat)
  | crash (id : Nat)
  | restart (id : Nat) (options : NodeOptions)

section Step

variable [DecidableEq V]

/-- The node and the effects after a transition.  A host handles the batch of a
transition that returned an error like any other. -/
def runCall (P : Params) (n : Node V) : Call V → St V
  | .campaign noop => (nodeCampaign P n noop).1
  | .propose value => (nodePropose P n value).1
  | .proposeBatch values capacity => (nodeProposeBatch P n values capacity).1
  | .tick noop => (nodeTick P n noop).1
  | .reconnected peer => (nodeReconnected P n peer).1
  | .requestCatchUp peer fromSlot => (nodeRequestCatchUp P n peer fromSlot).1

/-- The host takes over the batch of a finished transition. -/
def Host.after (h : Host V) (σ : St V) : Host V :=
  { h with
    node := some σ.node
    pending := σ.effects.writes
    outbox := σ.effects.messages
    released := σ.effects.committed }

/-- The node of a host that may start a transition: the last batch is durable and its
entries are applied. -/
def Host.ready (h : Host V) : Option (Node V) :=
  if h.pending = [] ∧ h.released = [] then h.node else none

/-- Replaces the host of one member. -/
def Cluster.setHost (c : Cluster V) (id : Nat) (h : Host V) : Cluster V :=
  { c with hosts := Function.update c.hosts id h }

/-- A host hands one envelope to the network. -/
def Cluster.transmit (c : Cluster V) (e : Envelope V) : Cluster V :=
  { c with net := c.net ++ [e] }

/-- The decision a host serves from its applied log. -/
def commitEnvelope (id peer : Nat) (c : Committed V) : Envelope V :=
  ⟨id, peer, .commit c.slot c.value⟩

variable [Inhabited V]

/-- The host of a member after its restart: the journal is folded without an error and
the node restored at the slot the host has consumed. -/
def Host.restarted (d : Deployment) (id : Nat) (options : NodeOptions) (h : Host V) :
    Option (Host V) :=
  match replay d.params h.journal with
  | (l, .none) =>
      match nodeRestore d.params id d.membership l h.consumed (d.optionsFor options) with
      | .ok n => some { h with node := some n, pending := [], outbox := [], released := [] }
      | .error _ => none
  | _ => none

/-- One step of the system, or `none` where the action is not enabled. -/
def Cluster.step (d : Deployment) (c : Cluster V) : Action V → Option (Cluster V)
  | .call id call => do
      let n ← (c.hosts id).ready
      some (c.setHost id ((c.hosts id).after (runCall d.params n call)))
  | .deliver position => do
      let e ← c.net[position]?
      let n ← (c.hosts e.recipient).ready
      some { c.setHost e.recipient ((c.hosts e.recipient).after (nodeStep d.params n e).1) with
        deliveries := c.deliveries ++ [position] }
  | .sendPreDurable id position => do
      let e ← (c.hosts id).outbox[position]?
      if e.isPreDurable then some (c.transmit e) else none
  | .persist id =>
      let h := c.hosts id
      match h.pending with
      | [] => none
      | w :: rest => some (c.setHost id { h with journal := h.journal ++ [w], pending := rest })
  | .send id =>
      let h := c.hosts id
      match h.pending, h.outbox with
      | [], e :: rest => some ((c.setHost id { h with outbox := rest }).transmit e)
      | _, _ => none
  | .apply id =>
      let h := c.hosts id
      match h.pending, h.released with
      | [], e :: rest =>
          some (c.setHost id { h with released := rest, applied := h.applied ++ [e] })
      | _, _ => none
  | .consume id through => do
      let h := c.hosts id
      let n ← h.node
      if h.consumed ≤ through ∧ through + h.released.length ≤ n.deliveredThrough then
        some (c.setHost id { h with consumed := through })
      else none
  | .advanceFloor id through => do
      let h := c.hosts id
      let n ← h.node
      if through ≤ h.consumed then
        some (c.setHost id { h with node := some (nodeAdvanceMemoryFloor n through).1 })
      else none
  | .setCampaignEnabled id enabled => do
      let h := c.hosts id
      let n ← h.node
      some (c.setHost id { h with node := some (nodeSetCampaignEnabled n enabled) })
  | .serve id position peer => do
      let e ← (c.hosts id).applied[position]?
      some (c.transmit (commitEnvelope id peer e))
  | .crash id =>
      let h := c.hosts id
      some (c.setHost id { h with node := none, pending := [], outbox := [], released := [] })
  | .restart id options => do
      let h := c.hosts id
      match h.node with
      | some _ => none
      | none => do
          let h ← h.restarted d id options
          some (c.setHost id h)

/-- The host of a member at the start of a run. -/
def initialHost (d : Deployment) (id : Nat) : Host V where
  node := (nodeInit id d.membership (d.optionsFor (d.options id))).toOption

/-- Every member freshly opened, with an empty journal. -/
def Cluster.initial (d : Deployment) : Cluster V where
  hosts := initialHost d

/-- The state after a list of actions, if all of them are enabled. -/
def Cluster.run (d : Deployment) (c : Cluster V) : List (Action V) → Option (Cluster V)
  | [] => some c
  | a :: rest => do
      let c ← c.step d a
      c.run d rest

end Step

end PaxosOdin
