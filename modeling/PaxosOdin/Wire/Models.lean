import PaxosOdin.Bridge.Records
import PaxosOdin.Storage.FileJournal

/-!
# The messages of the Python host

The typed messages of the host, the flat record that both boundaries use, and the native form that a
received message takes.  An index of an enumeration that names no member raises.

Main definitions:

- Definitions `flatten` and `unflatten`: a typed message and its flat record.
- Definition `envelope`: the typed form of an outbound native envelope.
- Definition `encodeEnvelope`: the native form of a received message.

Main results:

- Theorem `unflatten_flatten`: a flat record is rebuilt to its message.
-/

namespace PaxosOdin.Wire

/-! ## Errors -/

/-- A value in the context of an error. -/
inductive Detail where
  | number (n : Nat)
  | bytes (b : List UInt8)
deriving DecidableEq, Repr

/-- What the codec and the conversions raise. -/
inductive Raised where
  | invalidArgument (context : List (String × Detail))
  | unsupportedKind (context : List (String × Detail))
  | indexError
  | valueError
  | structError
deriving DecidableEq, Repr

/-! ## Enumerations -/

/-- `_MESSAGE_KINDS`. -/
def messageKinds : List Bridge.MessageKind :=
  [.none, .prepare, .promise, .promiseRange, .accept, .accepted, .commit, .learn, .nack, .heartbeat]

/-- `_CELL_STATES`. -/
def cellStates : List CellState :=
  [.empty, .voted, .chosen]

/-- `_SCOPES`. -/
def scopes : List PrepareScope :=
  [.global, .bounded]

/-- `int(kind)`. -/
def messageCode (kind : Bridge.MessageKind) : Nat :=
  messageKinds.idxOf kind

/-- `int(state)`. -/
def cellStateCode (state : CellState) : Nat :=
  cellStates.idxOf state

/-- `int(scope)`. -/
def scopeCode (scope : PrepareScope) : Nat :=
  scopes.idxOf scope

@[simp]
theorem messageKinds_code (kind : Bridge.MessageKind) :
    messageKinds[messageCode kind]? = some kind := by
  cases kind <;> rfl

@[simp]
theorem cellStates_code (state : CellState) : cellStates[cellStateCode state]? = some state := by
  cases state <;> rfl

@[simp]
theorem scopes_code (scope : PrepareScope) : scopes[scopeCode scope]? = some scope := by
  cases scope <;> rfl

/-- The native code of an entry kind is the Python one. -/
def entryKindToC : EntryKind → Bridge.EntryKind
  | .none => .none
  | .command => .command
  | .noop => .noop
  | .stopSign => .stopSign

/-- `_ENTRY_KINDS[code]` for the code of a native kind. -/
def entryKindOfC : Bridge.EntryKind → EntryKind
  | .none => .none
  | .command => .command
  | .noop => .noop
  | .stopSign => .stopSign

@[simp]
theorem entryKindToC_ofC (kind : Bridge.EntryKind) : entryKindToC (entryKindOfC kind) = kind := by
  cases kind <;> rfl

/-! ## Messages -/

/-- The nine message classes. -/
inductive Message where
  | prepare (ballot first last : Nat) (scope : PrepareScope)
  | promise (ballot slot vote : Nat) (state : CellState) (entry : LogEntry)
  | promiseRange (ballot first last reported : Nat) (more : Bool)
      (decidedThrough trimId trimSlot : Nat)
  | accept (ballot slot : Nat) (entry : LogEntry)
  | accepted (ballot slot decidedThrough : Nat)
  | commit (slot : Nat) (entry : LogEntry)
  | learn (fromSlot count : Nat)
  | nack (rejected promised slot decidedThrough : Nat)
  | heartbeat (ballot decidedThrough : Nat)
deriving DecidableEq, Repr

/-- `Envelope`. -/
structure Envelope where
  configurationId : Nat
  sender : Nat
  recipient : Nat
  message : Message
deriving DecidableEq, Repr

/-- `_NO_ENTRY`. -/
def noEntry : LogEntry :=
  { kind := .none }

/-- `Flat`. -/
structure Flat where
  kind : Nat
  ballot : Nat := 0
  slot : Nat := 0
  vote : Nat := 0
  first : Nat := 0
  last : Nat := 0
  rejected : Nat := 0
  promised : Nat := 0
  decidedThrough : Nat := 0
  trimId : Nat := 0
  trimSlot : Nat := 0
  rangeCount : Nat := 0
  scope : Nat := 0
  cellState : Nat := 0
  more : Nat := 0
  entry : LogEntry := noEntry
deriving DecidableEq, Repr

/-- `flatten`. -/
def flatten : Message → Flat
  | .prepare ballot first last scope =>
      { kind := messageCode .prepare
        ballot := ballot
        first := first
        last := last
        scope := scopeCode scope }
  | .promise ballot slot vote state entry =>
      { kind := messageCode .promise
        ballot := ballot
        slot := slot
        vote := vote
        cellState := cellStateCode state
        entry := entry }
  | .promiseRange ballot first last reported more decidedThrough trimId trimSlot =>
      { kind := messageCode .promiseRange
        ballot := ballot
        first := first
        last := last
        rangeCount := reported
        more := if more then 1 else 0
        decidedThrough := decidedThrough
        trimId := trimId
        trimSlot := trimSlot }
  | .accept ballot slot entry =>
      { kind := messageCode .accept, ballot := ballot, slot := slot, entry := entry }
  | .accepted ballot slot decidedThrough =>
      { kind := messageCode .accepted
        ballot := ballot
        slot := slot
        decidedThrough := decidedThrough }
  | .commit slot entry => { kind := messageCode .commit, slot := slot, entry := entry }
  | .learn fromSlot count =>
      { kind := messageCode .learn, first := fromSlot, rangeCount := count }
  | .nack rejected promised slot decidedThrough =>
      { kind := messageCode .nack
        rejected := rejected
        promised := promised
        slot := slot
        decidedThrough := decidedThrough }
  | .heartbeat ballot decidedThrough =>
      { kind := messageCode .heartbeat, ballot := ballot, decidedThrough := decidedThrough }

/-- `unflatten`. -/
def unflatten (flat : Flat) : Except Raised Message :=
  match messageKinds[flat.kind]? with
  | none => .error .indexError
  | some .none => .error .valueError
  | some .prepare =>
      match scopes[flat.scope]? with
      | none => .error .indexError
      | some scope => .ok (.prepare flat.ballot flat.first flat.last scope)
  | some .promise =>
      match cellStates[flat.cellState]? with
      | none => .error .indexError
      | some state => .ok (.promise flat.ballot flat.slot flat.vote state flat.entry)
  | some .promiseRange =>
      .ok (.promiseRange flat.ballot flat.first flat.last flat.rangeCount (decide (flat.more ≠ 0))
        flat.decidedThrough flat.trimId flat.trimSlot)
  | some .accept => .ok (.accept flat.ballot flat.slot flat.entry)
  | some .accepted => .ok (.accepted flat.ballot flat.slot flat.decidedThrough)
  | some .commit => .ok (.commit flat.slot flat.entry)
  | some .learn => .ok (.learn flat.first flat.rangeCount)
  | some .nack => .ok (.nack flat.rejected flat.promised flat.slot flat.decidedThrough)
  | some .heartbeat => .ok (.heartbeat flat.ballot flat.decidedThrough)

/-- A flat record is rebuilt to its message. -/
theorem unflatten_flatten (m : Message) : unflatten (flatten m) = .ok m := by
  cases m with
  | prepare => simp [flatten, unflatten]
  | promise => simp [flatten, unflatten]
  | promiseRange ballot first last reported more => cases more <;> simp [flatten, unflatten]
  | _ => simp [flatten, unflatten]

/-! ## The native boundary -/

/-- `entry`: the payload is copied up to its length. -/
def entry (source : Bridge.CEntry) : Except Raised LogEntry :=
  match source.kind with
  | none => .error .indexError
  | some .none => .ok noEntry
  | some .stopSign =>
      .ok
        { kind := .stopSign
          stopSign := some ⟨source.stop.configurationId, source.stop.members,
            source.stop.metadata.map UInt8.ofNat⟩ }
  | some kind => .ok { kind := entryKindOfC kind, body := source.body.take source.length.toNat }

/-- `_message`. -/
def message (source : Bridge.CEnvelope) : Except Raised Message :=
  match source.kind with
  | none => .error .indexError
  | some .none => .error .valueError
  | some .prepare =>
      match source.scope with
      | none => .error .indexError
      | some scope =>
          .ok (.prepare source.ballot.toNat source.first.toNat source.last.toNat scope)
  | some .promise =>
      match source.cellState with
      | none => .error .indexError
      | some state =>
          (entry source.entry).map
            (.promise source.ballot.toNat source.slot.toNat source.vote.toNat state)
  | some .promiseRange =>
      .ok (.promiseRange source.ballot.toNat source.first.toNat source.last.toNat
        source.count.toNat source.more source.decidedThrough.toNat source.trimId.toNat
        source.trimSlot.toNat)
  | some .accept =>
      (entry source.entry).map (.accept source.ballot.toNat source.slot.toNat)
  | some .accepted =>
      .ok (.accepted source.ballot.toNat source.slot.toNat source.decidedThrough.toNat)
  | some .commit => (entry source.entry).map (.commit source.slot.toNat)
  | some .learn => .ok (.learn source.first.toNat source.count.toNat)
  | some .nack =>
      .ok (.nack source.rejected.toNat source.promised.toNat source.slot.toNat
        source.decidedThrough.toNat)
  | some .heartbeat => .ok (.heartbeat source.ballot.toNat source.decidedThrough.toNat)

/-- `envelope`. -/
def envelope (source : Bridge.CEnvelope) : Except Raised Envelope :=
  (message source).map fun m =>
    { configurationId := source.configurationId.toNat
      sender := source.sender.toNat
      recipient := source.recipient.toNat
      message := m }

/-- The entry of `_encode_envelope`: only a command and a no-op carry a payload. -/
def encodeEntry (e : LogEntry) : Bridge.CEntry :=
  match e.kind with
  | .command =>
      { kind := some .command, length := UInt32.ofNat e.body.length, body := e.body }
  | .noop => { kind := some .noop, length := UInt32.ofNat e.body.length, body := e.body }
  | kind => { kind := some (entryKindToC kind) }

/-- `_encode_envelope`: a field of a C record keeps the low bits of the number it is given. -/
def encodeEnvelope (e : Envelope) : Bridge.CEnvelope :=
  let flat := flatten e.message
  { configurationId := UInt64.ofNat e.configurationId
    ballot := UInt64.ofNat flat.ballot
    slot := UInt64.ofNat flat.slot
    vote := UInt64.ofNat flat.vote
    first := UInt64.ofNat flat.first
    last := UInt64.ofNat flat.last
    rejected := UInt64.ofNat flat.rejected
    promised := UInt64.ofNat flat.promised
    decidedThrough := UInt64.ofNat flat.decidedThrough
    trimId := UInt64.ofNat flat.trimId
    trimSlot := UInt64.ofNat flat.trimSlot
    kind := messageKinds[flat.kind]?
    count := UInt32.ofNat flat.rangeCount
    sender := UInt16.ofNat e.sender
    recipient := UInt16.ofNat e.recipient
    scope := scopes[flat.scope]?
    cellState := cellStates[flat.cellState]?
    more := decide (flat.more ≠ 0)
    entry := encodeEntry flat.entry }

end PaxosOdin.Wire
