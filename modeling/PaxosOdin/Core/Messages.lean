import PaxosOdin.Core.Ballot

/-!
# Errors, ledger records and wire messages

A value travels by pointer in the source, into a ledger cell or into
`node.pass_through`, and the host copies it before the next transition (when it
journals a record or enqueues an envelope).  Records and messages carry the copied
value here; an entry that points at `pass_through` is marked, since a later write to
that field in the same transition changes what the host copies.
-/

namespace PaxosOdin

/-- The error codes the modelled procedures return; `none` is success. -/
inductive Error where
  | none
  | emptyMembership
  | tooManyMembers
  | invalidNodeId
  | duplicateNodeId
  | invalidReadQuorum
  | invalidWriteQuorum
  | nonIntersectingQuorums
  | notMember
  | wrongRecipient
  | invalidPeer
  | invalidSlot
  | notVoter
  | notLearner
  | learnerIsVoter
  | learnerMessageForbidden
  | notLeader
  | leaderCatchingUp
  | windowFull
  | globalSlotExhausted
  | emptyBatch
  | slotBufferTooSmall
  | ballotExhausted
  | invalidPromise
  | missingNoop
  | missingProposedValue
  | campaignDisabled
  | promiseRegression
  | conflictingValue
  | conflictingCommit
  | trimRegression
  | batchTooLarge
  | windowOverrun
  | invalidConfigurationId
  | configurationIdRegression
  | configurationMismatch
  | metadataTooLarge
  | logSealed
  | trimmed
  | readBufferTooSmall
  | conflictingChosenValue
deriving DecidableEq, Repr

/-- Whether a cell is empty, holds a vote, or holds a decision. -/
inductive CellState where
  | empty
  | voted
  | chosen
deriving DecidableEq, Repr

/-- Every slot at or below `chosenTrimSlot` is chosen and folded into a host
state image identified by `trimId`. -/
structure TrimAnchor where
  trimId : Nat := 0
  chosenTrimSlot : Nat := 0
deriving DecidableEq, Repr

/-- The durable records the host journals, in order. -/
inductive Write (V : Type) where
  | promise (ballot : Nat)
  | promiseAt (ballot slot : Nat)
  | vote (ballot slot : Nat) (value : V)
  | chosen (slot : Nat) (value : V)
  | trim (anchor : TrimAnchor)
deriving DecidableEq, Repr

/-- What a prepare asks an acceptor to promise: every decree from `first` on, or
only the decrees of its range. -/
inductive PrepareScope where
  | global
  | bounded
deriving DecidableEq, Repr

/-- The wire messages. -/
inductive Message (V : Type) where
  | prepare (ballot first last : Nat) (scope : PrepareScope)
  | promise (ballot slot vote : Nat) (state : CellState) (value : V)
  | promiseRange (ballot : Nat) (anchor : TrimAnchor) (chosenThrough first last reported : Nat)
      (more : Bool)
  | accept (ballot slot : Nat) (value : V)
  | accepted (ballot slot decidedThrough : Nat)
  | commit (slot : Nat) (value : V)
  | learn (fromSlot count : Nat)
  | nack (rejected promised slot decidedThrough : Nat)
  | heartbeat (ballot decidedThrough : Nat)
deriving DecidableEq, Repr

/-- An authenticated message between two members. -/
structure Envelope (V : Type) where
  sender : Nat
  recipient : Nat
  message : Message V
deriving DecidableEq, Repr

/-- A newly decided entry released to the application.  `passThrough` records
that its pointer is `&node.pass_through` rather than a ledger cell. -/
structure Committed (V : Type) where
  slot : Nat
  value : V
  passThrough : Bool
deriving DecidableEq, Repr

/-- History a peer asked for that lies below this node's memory floor. -/
structure ServeRangeRequest where
  peer : Nat
  first : Nat
  count : Nat
deriving DecidableEq, Repr

/-- The output of one transition. -/
structure Effects (V : Type) where
  writes : List (Write V) := []
  messages : List (Envelope V) := []
  committed : List (Committed V) := []
  requests : List ServeRangeRequest := []

/-- The Accepts at a campaign ballot, which `pre_durable_next` lets leave before
the local barrier. -/
def Envelope.isPreDurable {V : Type} (e : Envelope V) : Bool :=
  match e.message with
  | .accept ballot _ _ => decide (0 < ballotRound ballot)
  | _ => false

end PaxosOdin
