import PaxosOdin.Replicated.Log

/-!
# What crosses the native ABI

The flat records of the C ABI and their conversions.  A field whose code names no member of its
enumeration is `none`.  Inbound values are decoded and range-checked; outbound values are copies.

Main definitions:

- Definition `entryFromC`, `writeFromC` and `envelopeFromC`: what comes in.
- Definition `entryToC` and its siblings: what goes out.
-/

namespace PaxosOdin.Bridge

/-- The statuses of the bridge; those of the core follow in `core`. -/
inductive Status where
  | ok
  | invalidArgument
  | nullPointer
  | handleClosed
  | wrongProcess
  | reentrant
  | poisoned
  | batchPending
  | noBatch
  | staleToken
  | foreignToken
  | batchFinished
  | writesUnconfirmed
  | writesNotCopied
  | range
  | valueTooLarge
  | unsupportedKind
  | unsupportedCapability
  | replayActive
  | replayNotActive
  | core (e : Error)
deriving DecidableEq, Repr

/-- `core_status`. -/
def coreStatus : Error → Status
  | .none => .ok
  | e => .core e

/-- `Entry_Kind`. -/
inductive EntryKind where
  | none
  | command
  | noop
  | stopSign
deriving DecidableEq, Repr

/-- The application value; `body` is its payload, without the zero padding. -/
structure Command where
  kind : EntryKind
  body : List UInt8
deriving DecidableEq, Repr

/-- `NOOP`. -/
def noop : Command := ⟨.noop, []⟩

/-- The value type of the bridge's core. -/
abbrev Value := Entry Command

/-- `C_Entry`. -/
structure CEntry where
  kind : Option EntryKind := some .none
  length : UInt32 := 0
  body : List UInt8 := []
  stop : StopSign := ⟨0, [], []⟩
deriving DecidableEq, Repr

/-- `Write_Kind`. -/
inductive WriteKind where
  | none
  | promise
  | promiseAt
  | vote
  | chosen
  | trim
deriving DecidableEq, Repr

/-- `C_Write`; `barrier` is `WRITE_FLAG_BARRIER`. -/
structure CWrite where
  kind : Option WriteKind := some .none
  barrier : Bool := false
  ballot : UInt64 := 0
  slot : UInt64 := 0
  trimId : UInt64 := 0
  trimSlot : UInt64 := 0
  entry : CEntry := {}
deriving DecidableEq, Repr

/-- `Message_Kind`. -/
inductive MessageKind where
  | none
  | prepare
  | promise
  | promiseRange
  | accept
  | accepted
  | commit
  | learn
  | nack
  | heartbeat
deriving DecidableEq, Repr

/-- `C_Envelope`. -/
structure CEnvelope where
  configurationId : UInt64 := 0
  ballot : UInt64 := 0
  slot : UInt64 := 0
  vote : UInt64 := 0
  first : UInt64 := 0
  last : UInt64 := 0
  rejected : UInt64 := 0
  promised : UInt64 := 0
  decidedThrough : UInt64 := 0
  trimId : UInt64 := 0
  trimSlot : UInt64 := 0
  kind : Option MessageKind := some .none
  count : UInt32 := 0
  sender : UInt16 := 0
  recipient : UInt16 := 0
  scope : Option PrepareScope := some .global
  cellState : Option CellState := some .empty
  more : Bool := false
  entry : CEntry := {}
deriving DecidableEq, Repr

/-- `C_Committed`. -/
structure CCommitted where
  slot : UInt64
  entry : CEntry
deriving DecidableEq, Repr

/-- `C_Request` of the kind `Serve_Range`. -/
structure CRequest where
  peer : UInt16
  first : UInt64
  count : UInt32
deriving DecidableEq, Repr

/-! ## Inbound -/

/-- `entry_from_c`: canonicalises the payload; a stop sign needs a capability that is not there. -/
def entryFromC (maxValue : Nat) (source : CEntry) : Except Status Value :=
  match source.kind with
  | none => .error .unsupportedKind
  | some .none => .ok .absent
  | some .stopSign => .error .unsupportedCapability
  | some kind =>
      if source.length.toNat > maxValue then .error .valueTooLarge
      else .ok (.command ⟨kind, source.body.take source.length.toNat⟩)

/-- The command that a proposal carries. -/
def commandFromC (maxValue : Nat) (source : CEntry) : Except Status Command :=
  if source.kind ≠ some .command then .error .unsupportedKind
  else
    match entryFromC maxValue source with
    | .ok (.command command) => .ok command
    | .ok _ => .error .unsupportedKind
    | .error status => .error status

/-- `write_from_c`. -/
def writeFromC (maxValue : Nat) (source : CWrite) : Except Status (Write Value) :=
  match entryFromC maxValue source.entry with
  | .error status => .error status
  | .ok entry =>
      match source.kind with
      | some .promise => .ok (.promise source.ballot.toNat)
      | some .promiseAt => .ok (.promiseAt source.ballot.toNat source.slot.toNat)
      | some .vote => .ok (.vote source.ballot.toNat source.slot.toNat entry)
      | some .chosen => .ok (.chosen source.slot.toNat entry)
      | some .trim => .ok (.trim ⟨source.trimId.toNat, source.trimSlot.toNat⟩)
      | _ => .error .unsupportedKind

/-- The message of `envelope_from_c`. -/
def messageFromC (source : CEnvelope) (entry : Value) : Except Status (Message Value) :=
  match source.kind with
  | some .prepare =>
      match source.scope with
      | none => .error .unsupportedKind
      | some scope =>
          .ok (.prepare source.ballot.toNat source.first.toNat source.last.toNat scope)
  | some .promise =>
      match source.cellState with
      | none => .error .unsupportedKind
      | some state =>
          .ok (.promise source.ballot.toNat source.slot.toNat source.vote.toNat state entry)
  | some .promiseRange =>
      .ok (.promiseRange source.ballot.toNat ⟨source.trimId.toNat, source.trimSlot.toNat⟩
        source.decidedThrough.toNat source.first.toNat source.last.toNat source.count.toNat
        source.more)
  | some .accept => .ok (.accept source.ballot.toNat source.slot.toNat entry)
  | some .accepted =>
      .ok (.accepted source.ballot.toNat source.slot.toNat source.decidedThrough.toNat)
  | some .commit => .ok (.commit source.slot.toNat entry)
  | some .learn => .ok (.learn source.first.toNat source.count.toNat)
  | some .nack =>
      .ok (.nack source.rejected.toNat source.promised.toNat source.slot.toNat
        source.decidedThrough.toNat)
  | some .heartbeat => .ok (.heartbeat source.ballot.toNat source.decidedThrough.toNat)
  | _ => .error .unsupportedKind

/-- `envelope_from_c`. -/
def envelopeFromC (maxValue : Nat) (source : CEnvelope) : Except Status (Nat × Envelope Value) :=
  if source.sender = 0 ∨ source.recipient = 0 then .error .invalidArgument
  else
    match entryFromC maxValue source.entry with
    | .error status => .error status
    | .ok entry =>
        match messageFromC source entry with
        | .error status => .error status
        | .ok message =>
            .ok (source.configurationId.toNat,
              ⟨source.sender.toNat, source.recipient.toNat, message⟩)

/-! ## Outbound -/

/-- `entry_to_c`. -/
def entryToC (maxValue : Nat) : Value → CEntry
  | .absent => {}
  | .command command =>
      { kind := some command.kind
        length := UInt32.ofNat (min command.body.length maxValue)
        body := command.body.take (min command.body.length maxValue) }
  | .stop stop => { kind := some .stopSign, stop := stop }

/-- `write_to_c`. -/
def writeToC (maxValue : Nat) : Write Value → CWrite
  | .promise ballot =>
      { kind := some .promise, ballot := UInt64.ofNat ballot, barrier := true }
  | .promiseAt ballot slot =>
      { kind := some .promiseAt
        ballot := UInt64.ofNat ballot
        slot := UInt64.ofNat slot
        barrier := true }
  | .vote ballot slot value =>
      { kind := some .vote
        ballot := UInt64.ofNat ballot
        slot := UInt64.ofNat slot
        barrier := true
        entry := entryToC maxValue value }
  | .chosen slot value =>
      { kind := some .chosen, slot := UInt64.ofNat slot, entry := entryToC maxValue value }
  | .trim anchor =>
      { kind := some .trim
        trimId := UInt64.ofNat anchor.trimId
        trimSlot := UInt64.ofNat anchor.chosenTrimSlot }

/-- `envelope_to_c`. -/
def envelopeToC (maxValue configurationId : Nat) (e : Envelope Value) : CEnvelope :=
  let c : CEnvelope :=
    { configurationId := UInt64.ofNat configurationId
      sender := UInt16.ofNat e.sender
      recipient := UInt16.ofNat e.recipient }
  match e.message with
  | .prepare ballot first last scope =>
      { c with
        kind := some .prepare
        ballot := UInt64.ofNat ballot
        first := UInt64.ofNat first
        last := UInt64.ofNat last
        scope := some scope }
  | .promise ballot slot vote state value =>
      { c with
        kind := some .promise
        ballot := UInt64.ofNat ballot
        slot := UInt64.ofNat slot
        vote := UInt64.ofNat vote
        cellState := some state
        entry := if state ≠ .empty then entryToC maxValue value else {} }
  | .promiseRange ballot anchor chosenThrough first last reported more =>
      { c with
        kind := some .promiseRange
        ballot := UInt64.ofNat ballot
        trimId := UInt64.ofNat anchor.trimId
        trimSlot := UInt64.ofNat anchor.chosenTrimSlot
        decidedThrough := UInt64.ofNat chosenThrough
        first := UInt64.ofNat first
        last := UInt64.ofNat last
        count := UInt32.ofNat reported
        more := more }
  | .accept ballot slot value =>
      { c with
        kind := some .accept
        ballot := UInt64.ofNat ballot
        slot := UInt64.ofNat slot
        entry := entryToC maxValue value }
  | .accepted ballot slot decidedThrough =>
      { c with
        kind := some .accepted
        ballot := UInt64.ofNat ballot
        slot := UInt64.ofNat slot
        decidedThrough := UInt64.ofNat decidedThrough }
  | .commit slot value =>
      { c with
        kind := some .commit
        slot := UInt64.ofNat slot
        entry := entryToC maxValue value }
  | .learn fromSlot count =>
      { c with
        kind := some .learn
        first := UInt64.ofNat fromSlot
        count := UInt32.ofNat count }
  | .nack rejected promised slot decidedThrough =>
      { c with
        kind := some .nack
        rejected := UInt64.ofNat rejected
        promised := UInt64.ofNat promised
        slot := UInt64.ofNat slot
        decidedThrough := UInt64.ofNat decidedThrough }
  | .heartbeat ballot decidedThrough =>
      { c with
        kind := some .heartbeat
        ballot := UInt64.ofNat ballot
        decidedThrough := UInt64.ofNat decidedThrough }

/-- `committed_to_c`. -/
def committedToC (maxValue : Nat) (c : Committed Value) : CCommitted :=
  ⟨UInt64.ofNat c.slot, entryToC maxValue c.value⟩

/-- `request_to_c`. -/
def requestToC (r : ServeRangeRequest) : CRequest :=
  ⟨UInt16.ofNat r.peer, UInt64.ofNat r.first, UInt32.ofNat r.count⟩

end PaxosOdin.Bridge
