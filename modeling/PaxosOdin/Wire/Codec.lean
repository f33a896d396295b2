import PaxosOdin.Wire.Layout
import PaxosOdin.Wire.Models

/-!
# Envelopes as frames

The wire format: a fixed header of big-endian words, then the payload of the entry.  A frame is data
from an untrusted peer, so every field of its header is checked before a message is rebuilt from it.

Main definitions:

- Definition `Codec`: the limits of the build that encodes and decodes.
- Definition `encode`: the frame of an envelope.
- Definition `validateFrame`: the checks on a frame, in their order.
- Definition `decode`: the envelope of a frame.

Main results:

- Theorem `decode_encode`: a frame is decoded to the envelope it was made from.
- Theorem `decode_cases`: whatever is decoded can be encoded again.
-/

namespace PaxosOdin.Wire

/-! ## Header -/

/-- `MAGIC`. -/
def magic : List UInt8 :=
  [0x50, 0x58, 0x44, 0x4E]

/-- `WIRE_VERSION`. -/
def wireVersion : Nat := 1

/-- The words of `_HEADER` behind the magic. -/
def headerLayout : Layout :=
  [2, 8, 8,
    2, 2,
    1, 1, 1, 1,
    8, 8, 8, 8, 8, 8, 8, 8, 8, 8,
    4,
    1, 4]

/-- `HEADER_SIZE`. -/
def headerSize : Nat :=
  magic.length + headerLayout.sum

/-- `_Header`. -/
structure Header where
  magic : List UInt8
  version : Nat
  fingerprint : Nat
  configurationId : Nat
  sender : Nat
  recipient : Nat
  kind : Nat
  scope : Nat
  cellState : Nat
  more : Nat
  ballot : Nat
  slot : Nat
  vote : Nat
  first : Nat
  last : Nat
  rejected : Nat
  promised : Nat
  decidedThrough : Nat
  trimId : Nat
  trimSlot : Nat
  rangeCount : Nat
  entryKind : Nat
  entryLength : Nat
deriving DecidableEq, Repr

/-- The words of a header, in wire order. -/
def Header.words (h : Header) : List Nat :=
  [h.version, h.fingerprint, h.configurationId,
    h.sender, h.recipient,
    h.kind, h.scope, h.cellState, h.more,
    h.ballot, h.slot, h.vote, h.first, h.last, h.rejected, h.promised, h.decidedThrough, h.trimId,
    h.trimSlot,
    h.rangeCount,
    h.entryKind, h.entryLength]

/-- `_Header._make`, which fails unless it is given one word for each field. -/
def Header.make (magic : List UInt8) : List Nat → Option Header
  | [version, fingerprint, configurationId, sender, recipient, kind, scope, cellState, more, ballot,
      slot, vote, first, last, rejected, promised, decidedThrough, trimId, trimSlot, rangeCount,
      entryKind, entryLength] =>
      some ⟨magic, version, fingerprint, configurationId, sender, recipient, kind, scope, cellState,
        more, ballot, slot, vote, first, last, rejected, promised, decidedThrough, trimId, trimSlot,
        rangeCount, entryKind, entryLength⟩
  | _ => none

/-- `_HEADER.pack`: a word that does not fit its field is refused. -/
def Header.pack (h : Header) : Except Raised (List UInt8) :=
  if headerLayout.Fits h.words then .ok (h.magic ++ headerLayout.pack h.words)
  else .error .structError

/-- `_HEADER.unpack_from`. -/
def Header.unpackFrom (frame : List UInt8) : Option Header :=
  if frame.length < headerSize then none
  else Header.make (frame.take Wire.magic.length) (headerLayout.unpack (frame.drop Wire.magic.length))

/-! ## Frames -/

/-- The limits of the build: `MAX_VALUE_BYTES` and the fingerprint of its profile. -/
structure Codec where
  maxValueBytes : Nat
  fingerprint : Nat
  value_word : maxValueBytes < 2 ^ 32
  fingerprint_word : fingerprint < 2 ^ 64

/-- `MAX_FRAME_SIZE`. -/
def Codec.maxFrameSize (c : Codec) : Nat :=
  headerSize + c.maxValueBytes

/-- The header of the frame of an envelope. -/
def headerOf (c : Codec) (e : Envelope) : Header :=
  let flat := flatten e.message
  { magic := magic
    version := wireVersion
    fingerprint := c.fingerprint
    configurationId := e.configurationId
    sender := e.sender
    recipient := e.recipient
    kind := flat.kind
    scope := flat.scope
    cellState := flat.cellState
    more := flat.more
    ballot := flat.ballot
    slot := flat.slot
    vote := flat.vote
    first := flat.first
    last := flat.last
    rejected := flat.rejected
    promised := flat.promised
    decidedThrough := flat.decidedThrough
    trimId := flat.trimId
    trimSlot := flat.trimSlot
    rangeCount := flat.rangeCount
    entryKind := flat.entry.kind.code
    entryLength := flat.entry.body.length }

/-- `encode`. -/
def encode (c : Codec) (e : Envelope) : Except Raised (List UInt8) :=
  let body := (flatten e.message).entry.body
  if body.length > c.maxValueBytes then
    .error (.invalidArgument
      [("supplied", .number body.length), ("limit", .number c.maxValueBytes)])
  else (headerOf c e).pack.map (· ++ body)

/-- The checks of `_validate_frame` on the fields of a header. -/
def Header.check (c : Codec) (size : Nat) (h : Header) : Except Raised Header :=
  if h.magic ≠ Wire.magic then .error (.invalidArgument [("magic", .bytes h.magic)])
  else if h.version ≠ wireVersion then
    .error (.invalidArgument
      [("wire_version", .number h.version), ("supported", .number wireVersion)])
  else if h.fingerprint ≠ c.fingerprint then
    .error (.invalidArgument
      [("peer_profile", .number h.fingerprint), ("local_profile", .number c.fingerprint)])
  else if h.sender = 0 ∨ h.recipient = 0 then
    .error (.invalidArgument [("sender", .number h.sender), ("recipient", .number h.recipient)])
  else if messageKinds[h.kind]? = none ∨ h.kind = messageCode .none then
    .error (.unsupportedKind [("message_kind", .number h.kind)])
  else if EntryKind.ofCode h.entryKind = none then
    .error (.unsupportedKind [("entry_kind", .number h.entryKind)])
  else if cellStates[h.cellState]? = none then
    .error (.unsupportedKind [("cell_state", .number h.cellState)])
  else if h.scope > 1 then .error (.unsupportedKind [("scope", .number h.scope)])
  else if h.entryLength > c.maxValueBytes then
    .error (.invalidArgument
      [("entry_length", .number h.entryLength), ("limit", .number c.maxValueBytes)])
  else if size ≠ headerSize + h.entryLength then
    .error (.invalidArgument
      [("size", .number size), ("declared", .number (headerSize + h.entryLength))])
  else .ok h

/-- `_validate_frame`. -/
def validateFrame (c : Codec) (frame : List UInt8) : Except Raised Header :=
  if frame.length < headerSize then
    .error (.invalidArgument
      [("size", .number frame.length), ("minimum", .number headerSize)])
  else if frame.length > c.maxFrameSize then
    .error (.invalidArgument
      [("size", .number frame.length), ("maximum", .number c.maxFrameSize)])
  else
    match Header.unpackFrom frame with
    | none => .error .structError
    | some h => h.check c frame.length

/-- The flat record of `decode`. -/
def Header.flat (h : Header) (kind : EntryKind) (body : List UInt8) : Flat where
  kind := h.kind
  ballot := h.ballot
  slot := h.slot
  vote := h.vote
  first := h.first
  last := h.last
  rejected := h.rejected
  promised := h.promised
  decidedThrough := h.decidedThrough
  trimId := h.trimId
  trimSlot := h.trimSlot
  rangeCount := h.rangeCount
  scope := h.scope
  cellState := h.cellState
  more := h.more
  entry := { kind := kind, body := body }

/-- `decode`. -/
def decode (c : Codec) (frame : List UInt8) : Except Raised Envelope := do
  let h ← validateFrame c frame
  match EntryKind.ofCode h.entryKind with
  | none => .error .valueError
  | some kind => do
      let m ← unflatten (h.flat kind (frame.drop headerSize))
      .ok
        { configurationId := h.configurationId
          sender := h.sender
          recipient := h.recipient
          message := m }

/-! ## The header is read back -/

theorem Header.make_words (h : Header) : Header.make h.magic h.words = some h :=
  rfl

theorem Header.words_make {magic : List UInt8} {words : List Nat} {h : Header}
    (hmake : Header.make magic words = some h) : h.magic = magic ∧ h.words = words := by
  unfold Header.make at hmake
  split at hmake
  · cases hmake
    exact ⟨rfl, rfl⟩
  · cases hmake

/-- A packed header is read back, whatever follows it. -/
theorem Header.unpackFrom_pack {h : Header} (hmagic : h.magic = Wire.magic)
    (hfits : headerLayout.Fits h.words) (rest : List UInt8) :
    Header.unpackFrom (h.magic ++ headerLayout.pack h.words ++ rest) = some h := by
  have hlength : (h.magic ++ headerLayout.pack h.words ++ rest).length = headerSize + rest.length := by
    rw [List.length_append, List.length_append, hmagic, Layout.pack_length hfits]
    rfl
  unfold Header.unpackFrom
  rw [if_neg (by omega), List.append_assoc, ← hmagic, List.take_left, List.drop_left,
    Layout.unpack_pack hfits, h.make_words]

/-- A header that was read fits its words. -/
theorem Header.unpackFrom_fits {frame : List UInt8} {h : Header}
    (hunpack : Header.unpackFrom frame = some h) : headerLayout.Fits h.words := by
  unfold Header.unpackFrom at hunpack
  split_ifs at hunpack
  rw [(Header.words_make hunpack).2]
  apply Layout.unpack_fits

/-! ## The codes of a message -/

theorem idxOf_of_getElem? {α : Type} [BEq α] [LawfulBEq α] {members : List α} (hnodup : members.Nodup)
    {n : Nat} {a : α} (h : members[n]? = some a) : members.idxOf a = n := by
  obtain ⟨hn, rfl⟩ := List.getElem?_eq_some_iff.mp h
  exact hnodup.idxOf_getElem n hn

theorem code_of_ofCode {code : Nat} {kind : EntryKind} (h : EntryKind.ofCode code = some kind) :
    kind.code = code := by
  unfold EntryKind.ofCode at h
  split at h <;> cases h <;> rfl

/-- Every number of the first record is at most that of the second, and its entry is that entry or
none. -/
structure Flat.Below (a b : Flat) : Prop where
  kind : a.kind = b.kind
  ballot : a.ballot ≤ b.ballot
  slot : a.slot ≤ b.slot
  vote : a.vote ≤ b.vote
  first : a.first ≤ b.first
  last : a.last ≤ b.last
  rejected : a.rejected ≤ b.rejected
  promised : a.promised ≤ b.promised
  decidedThrough : a.decidedThrough ≤ b.decidedThrough
  trimId : a.trimId ≤ b.trimId
  trimSlot : a.trimSlot ≤ b.trimSlot
  rangeCount : a.rangeCount ≤ b.rangeCount
  scope : a.scope ≤ b.scope
  cellState : a.cellState ≤ b.cellState
  more : a.more ≤ b.more
  entry : a.entry = b.entry ∨ a.entry = noEntry

/-- A message keeps the fields of its flat record that its kind names, and drops the others. -/
theorem unflatten_below {flat : Flat} {m : Message} (h : unflatten flat = .ok m) :
    (flatten m).Below flat := by
  have hcode : ∀ {kind}, messageKinds[flat.kind]? = some kind → messageCode kind = flat.kind :=
    fun hkind => idxOf_of_getElem? (by decide) hkind
  unfold unflatten at h
  split at h
  · cases h
  · cases h
  · next hkind =>
    split at h
    · cases h
    next scope hscope =>
    cases h
    have hscope' : scopeCode scope = flat.scope := idxOf_of_getElem? (by decide) hscope
    constructor <;> simp [flatten, hcode hkind, hscope']
  · next hkind =>
    split at h
    · cases h
    next state hstate =>
    cases h
    have hstate' : cellStateCode state = flat.cellState := idxOf_of_getElem? (by decide) hstate
    constructor <;> simp [flatten, hcode hkind, hstate']
  · next hkind =>
    cases h
    have hmore : (if decide (flat.more ≠ 0) = true then 1 else 0) ≤ flat.more := by
      split_ifs with hset
      · simp only [decide_eq_true_eq] at hset
        omega
      · exact Nat.zero_le _
    constructor <;> simp [flatten, hcode hkind]
    simpa using hmore
  all_goals
    next hkind =>
    cases h
    constructor <;> simp [flatten, hcode hkind]

theorem messageCode_ne_none {kind : Bridge.MessageKind} (h : kind ≠ .none) :
    messageCode kind ≠ messageCode .none := by
  intro hcode
  have hkind := messageKinds_code kind
  rw [hcode, messageKinds_code] at hkind
  exact h (Option.some.inj hkind).symm

theorem flatten_kind (m : Message) :
    ∃ kind, kind ≠ .none ∧ (flatten m).kind = messageCode kind := by
  cases m with
  | prepare => exact ⟨.prepare, nofun, rfl⟩
  | promise => exact ⟨.promise, nofun, rfl⟩
  | promiseRange => exact ⟨.promiseRange, nofun, rfl⟩
  | accept => exact ⟨.accept, nofun, rfl⟩
  | accepted => exact ⟨.accepted, nofun, rfl⟩
  | commit => exact ⟨.commit, nofun, rfl⟩
  | learn => exact ⟨.learn, nofun, rfl⟩
  | nack => exact ⟨.nack, nofun, rfl⟩
  | heartbeat => exact ⟨.heartbeat, nofun, rfl⟩

theorem flatten_cellState (m : Message) : ∃ state, (flatten m).cellState = cellStateCode state := by
  cases m with
  | promise ballot slot vote state entry => exact ⟨state, rfl⟩
  | _ => exact ⟨.empty, rfl⟩

theorem flatten_scope (m : Message) : (flatten m).scope ≤ 1 := by
  cases m with
  | prepare ballot first last scope =>
      show scopeCode scope ≤ 1
      cases scope <;> decide
  | _ => exact Nat.zero_le _

/-! ## Round trips -/

theorem encode_ok {c : Codec} {e : Envelope} {frame : List UInt8} (h : encode c e = .ok frame) :
    (flatten e.message).entry.body.length ≤ c.maxValueBytes ∧
      headerLayout.Fits (headerOf c e).words ∧
      frame = magic ++ headerLayout.pack (headerOf c e).words ++ (flatten e.message).entry.body := by
  unfold encode at h
  dsimp only at h
  split_ifs at h with hlarge
  unfold Header.pack at h
  split_ifs at h with hfits
  · cases h
    exact ⟨Nat.le_of_not_lt hlarge, hfits, rfl⟩
  · cases h

/-- An envelope whose words fit is encoded. -/
theorem encode_of_fits {c : Codec} {e : Envelope}
    (hbody : (flatten e.message).entry.body.length ≤ c.maxValueBytes)
    (hfits : headerLayout.Fits (headerOf c e).words) : ∃ frame, encode c e = .ok frame := by
  unfold encode Header.pack
  dsimp only
  rw [if_neg (Nat.not_lt.mpr hbody), if_pos hfits]
  exact ⟨_, rfl⟩

/-- The header of an envelope passes the checks. -/
theorem headerOf_check {c : Codec} {e : Envelope} (hsender : e.sender ≠ 0)
    (hrecipient : e.recipient ≠ 0)
    (hbody : (flatten e.message).entry.body.length ≤ c.maxValueBytes) :
    (headerOf c e).check c (headerSize + (flatten e.message).entry.body.length) =
      .ok (headerOf c e) := by
  have hkind : ¬ (messageKinds[(headerOf c e).kind]? = none ∨
      (headerOf c e).kind = messageCode .none) := by
    obtain ⟨kind, hnamed, hkind⟩ := flatten_kind e.message
    rw [show (headerOf c e).kind = messageCode kind from hkind, messageKinds_code, not_or]
    exact ⟨Option.some_ne_none _, messageCode_ne_none hnamed⟩
  have hstate : cellStates[(headerOf c e).cellState]? ≠ none := by
    obtain ⟨state, hstate⟩ := flatten_cellState e.message
    rw [show (headerOf c e).cellState = cellStateCode state from hstate, cellStates_code]
    exact Option.some_ne_none _
  have hscope : (headerOf c e).scope ≤ 1 := flatten_scope e.message
  have hentry : EntryKind.ofCode (headerOf c e).entryKind ≠ none := by
    rw [show (headerOf c e).entryKind = (flatten e.message).entry.kind.code from rfl,
      EntryKind.ofCode_code]
    exact Option.some_ne_none _
  have hids : ¬ ((headerOf c e).sender = 0 ∨ (headerOf c e).recipient = 0) :=
    not_or.mpr ⟨hsender, hrecipient⟩
  have hlength : ¬ (headerOf c e).entryLength > c.maxValueBytes := Nat.not_lt.mpr hbody
  have hsize : headerSize + (flatten e.message).entry.body.length =
      headerSize + (headerOf c e).entryLength := rfl
  unfold Header.check
  rw [if_neg (not_not.mpr (show (headerOf c e).magic = magic from rfl)),
    if_neg (not_not.mpr (show (headerOf c e).version = wireVersion from rfl)),
    if_neg (not_not.mpr (show (headerOf c e).fingerprint = c.fingerprint from rfl)),
    if_neg hids, if_neg hkind, if_neg hentry, if_neg hstate, if_neg (Nat.not_lt.mpr hscope),
    if_neg hlength, if_neg (not_not.mpr hsize)]

/-- A frame is decoded to the envelope it was made from. -/
theorem decode_encode {c : Codec} {e : Envelope} {frame : List UInt8} (hsender : e.sender ≠ 0)
    (hrecipient : e.recipient ≠ 0) (hstop : (flatten e.message).entry.stopSign = none)
    (h : encode c e = .ok frame) : decode c frame = .ok e := by
  obtain ⟨hbody, hfits, rfl⟩ := encode_ok h
  generalize hframe : magic ++ headerLayout.pack (headerOf c e).words ++
    (flatten e.message).entry.body = frame
  have hlength : frame.length = headerSize + (flatten e.message).entry.body.length := by
    rw [← hframe, List.length_append, List.length_append, Layout.pack_length hfits]
    rfl
  have hdrop : frame.drop headerSize = (flatten e.message).entry.body := by
    rw [← hframe]
    apply List.drop_left'
    rw [List.length_append, Layout.pack_length hfits]
    rfl
  have hunpack : Header.unpackFrom frame = some (headerOf c e) := by
    rw [← hframe]
    exact Header.unpackFrom_pack rfl hfits _
  have hvalid : validateFrame c frame = .ok (headerOf c e) := by
    unfold validateFrame
    rw [if_neg (by omega), if_neg (by unfold Codec.maxFrameSize; omega), hunpack]
    dsimp only
    rw [hlength]
    exact headerOf_check hsender hrecipient hbody
  have hflat : (headerOf c e).flat (flatten e.message).entry.kind (flatten e.message).entry.body =
      flatten e.message := by
    show ({ flatten e.message with entry := ⟨_, _, none⟩ } : Flat) = flatten e.message
    rw [← hstop]
  unfold decode
  rw [hvalid, hdrop]
  simp only [bind, Except.bind]
  rw [show (headerOf c e).entryKind = (flatten e.message).entry.kind.code from rfl,
    EntryKind.ofCode_code]
  dsimp only
  rw [hflat, unflatten_flatten]
  rfl

/-- What the checks let through. -/
structure Header.Checked (c : Codec) (size : Nat) (h : Header) : Prop where
  magic : h.magic = Wire.magic
  version : h.version = wireVersion
  fingerprint : h.fingerprint = c.fingerprint
  sender : h.sender ≠ 0
  recipient : h.recipient ≠ 0
  kind : messageKinds[h.kind]? ≠ none
  named : h.kind ≠ messageCode .none
  entryKind : EntryKind.ofCode h.entryKind ≠ none
  cellState : cellStates[h.cellState]? ≠ none
  scope : h.scope ≤ 1
  entryLength : h.entryLength ≤ c.maxValueBytes
  size : size = headerSize + h.entryLength

/-- An error of the checks is one of the two that the decoder documents. -/
def Raised.Documented : Raised → Prop
  | .invalidArgument _ => True
  | .unsupportedKind _ => True
  | _ => False

theorem Header.check_cases (c : Codec) (size : Nat) (h : Header) :
    (∃ e, h.check c size = .error e ∧ e.Documented) ∨
      (h.check c size = .ok h ∧ h.Checked c size) := by
  unfold Header.check
  by_cases hmagic : h.magic ≠ Wire.magic
  · rw [if_pos hmagic]
    exact Or.inl ⟨_, rfl, trivial⟩
  rw [if_neg hmagic]
  by_cases hversion : h.version ≠ wireVersion
  · rw [if_pos hversion]
    exact Or.inl ⟨_, rfl, trivial⟩
  rw [if_neg hversion]
  by_cases hfingerprint : h.fingerprint ≠ c.fingerprint
  · rw [if_pos hfingerprint]
    exact Or.inl ⟨_, rfl, trivial⟩
  rw [if_neg hfingerprint]
  by_cases hids : h.sender = 0 ∨ h.recipient = 0
  · rw [if_pos hids]
    exact Or.inl ⟨_, rfl, trivial⟩
  rw [if_neg hids]
  by_cases hkind : messageKinds[h.kind]? = none ∨ h.kind = messageCode .none
  · rw [if_pos hkind]
    exact Or.inl ⟨_, rfl, trivial⟩
  rw [if_neg hkind]
  by_cases hentryKind : EntryKind.ofCode h.entryKind = none
  · rw [if_pos hentryKind]
    exact Or.inl ⟨_, rfl, trivial⟩
  rw [if_neg hentryKind]
  by_cases hstate : cellStates[h.cellState]? = none
  · rw [if_pos hstate]
    exact Or.inl ⟨_, rfl, trivial⟩
  rw [if_neg hstate]
  by_cases hscope : h.scope > 1
  · rw [if_pos hscope]
    exact Or.inl ⟨_, rfl, trivial⟩
  rw [if_neg hscope]
  by_cases hlength : h.entryLength > c.maxValueBytes
  · rw [if_pos hlength]
    exact Or.inl ⟨_, rfl, trivial⟩
  rw [if_neg hlength]
  by_cases hsize : size ≠ headerSize + h.entryLength
  · rw [if_pos hsize]
    exact Or.inl ⟨_, rfl, trivial⟩
  rw [if_neg hsize]
  rw [not_or] at hids hkind
  exact Or.inr ⟨rfl, not_not.mp hmagic, not_not.mp hversion, not_not.mp hfingerprint, hids.1, hids.2,
    hkind.1, hkind.2, hentryKind, hstate, Nat.le_of_not_lt hscope, Nat.le_of_not_lt hlength,
    not_not.mp hsize⟩

theorem validateFrame_cases (c : Codec) (frame : List UInt8) :
    (∃ e, validateFrame c frame = .error e ∧ e.Documented) ∨
      ∃ h, validateFrame c frame = .ok h ∧ h.Checked c frame.length ∧
        headerLayout.Fits h.words := by
  unfold validateFrame
  by_cases hshort : frame.length < headerSize
  · rw [if_pos hshort]
    exact Or.inl ⟨_, rfl, trivial⟩
  rw [if_neg hshort]
  by_cases hlong : frame.length > c.maxFrameSize
  · rw [if_pos hlong]
    exact Or.inl ⟨_, rfl, trivial⟩
  rw [if_neg hlong]
  have hunpack : ∃ h, Header.unpackFrom frame = some h := by
    unfold Header.unpackFrom
    rw [if_neg hshort]
    exact ⟨_, rfl⟩
  obtain ⟨h, hunpack⟩ := hunpack
  rw [hunpack]
  dsimp only
  rcases h.check_cases c frame.length with ⟨e, hcheck, he⟩ | ⟨hcheck, hchecked⟩
  · exact Or.inl ⟨e, hcheck, he⟩
  · exact Or.inr ⟨h, hcheck, hchecked, Header.unpackFrom_fits hunpack⟩

/-- A checked flat record is rebuilt. -/
theorem unflatten_checked {flat : Flat} (hkind : messageKinds[flat.kind]? ≠ none)
    (hnamed : flat.kind ≠ messageCode .none) (hstate : cellStates[flat.cellState]? ≠ none)
    (hscope : flat.scope ≤ 1) : ∃ m, unflatten flat = .ok m := by
  have hscopes : scopes[flat.scope]? ≠ none := by
    rw [Ne, List.getElem?_eq_none_iff]
    exact Nat.not_le.mpr (Nat.lt_succ_of_le hscope)
  obtain ⟨scope, hscope'⟩ := Option.ne_none_iff_exists'.mp hscopes
  obtain ⟨state, hstate'⟩ := Option.ne_none_iff_exists'.mp hstate
  obtain ⟨kind, hkind'⟩ := Option.ne_none_iff_exists'.mp hkind
  unfold unflatten
  rw [hkind', hscope', hstate']
  cases kind with
  | none => exact absurd (idxOf_of_getElem? (by decide) hkind').symm hnamed
  | _ => exact ⟨_, rfl⟩

/-- The decoder raises one of its two errors, or yields an envelope that is encoded to a frame that
decodes to it. -/
theorem decode_cases (c : Codec) (frame : List UInt8) :
    (∃ e, decode c frame = .error e ∧ e.Documented) ∨
      ∃ e frame', decode c frame = .ok e ∧ encode c e = .ok frame' ∧ decode c frame' = .ok e := by
  rcases validateFrame_cases c frame with ⟨e, hvalid, he⟩ | ⟨h, hvalid, hchecked, hfits⟩
  · left
    refine ⟨e, ?_, he⟩
    unfold decode
    rw [hvalid]
    rfl
  right
  obtain ⟨kind, hkind⟩ := Option.ne_none_iff_exists'.mp hchecked.entryKind
  obtain ⟨m, hm⟩ := @unflatten_checked (h.flat kind (frame.drop headerSize)) hchecked.kind
    hchecked.named hchecked.cellState hchecked.scope
  have hdecode : decode c frame = .ok ⟨h.configurationId, h.sender, h.recipient, m⟩ := by
    unfold decode
    rw [hvalid]
    simp only [bind, Except.bind, hkind, hm]
  have hbelow := unflatten_below hm
  have hlength : (frame.drop headerSize).length = h.entryLength := by
    rw [List.length_drop, hchecked.size]
    omega
  have hbody : (flatten m).entry.body.length ≤ h.entryLength := by
    rcases hbelow.entry with hentry | hentry <;> rw [hentry]
    · exact hlength.le
    · exact Nat.zero_le _
  have hstop : (flatten m).entry.stopSign = none := by
    rcases hbelow.entry with hentry | hentry <;> rw [hentry] <;> rfl
  have hcode : (flatten m).entry.kind.code ≤ h.entryKind := by
    rcases hbelow.entry with hentry | hentry <;> rw [hentry]
    · exact (code_of_ofCode hkind).le
    · exact Nat.zero_le _
  have hfits' : headerLayout.Fits
      (headerOf c ⟨h.configurationId, h.sender, h.recipient, m⟩).words := by
    obtain ⟨hversion, -, hconfiguration, hsender, hrecipient, hkind', hscope, hstate, hmore, hballot,
      hslot, hvote, hfirst, hlast, hrejected, hpromised, hdecided, htrimId, htrimSlot, hcount,
      hentryKind, hentryLength, -⟩ := hfits
    exact ⟨hchecked.version.ge.trans_lt hversion, c.fingerprint_word, hconfiguration, hsender, hrecipient,
      hbelow.kind.le.trans_lt hkind', hbelow.scope.trans_lt hscope, hbelow.cellState.trans_lt hstate,
      hbelow.more.trans_lt hmore, hbelow.ballot.trans_lt hballot, hbelow.slot.trans_lt hslot,
      hbelow.vote.trans_lt hvote, hbelow.first.trans_lt hfirst, hbelow.last.trans_lt hlast,
      hbelow.rejected.trans_lt hrejected, hbelow.promised.trans_lt hpromised,
      hbelow.decidedThrough.trans_lt hdecided, hbelow.trimId.trans_lt htrimId,
      hbelow.trimSlot.trans_lt htrimSlot, hbelow.rangeCount.trans_lt hcount,
      hcode.trans_lt hentryKind, hbody.trans_lt hentryLength, trivial⟩
  obtain ⟨frame', hencode⟩ := encode_of_fits (hbody.trans hchecked.entryLength) hfits'
  exact ⟨_, frame', hdecode, hencode,
    decode_encode hchecked.sender hchecked.recipient hstop hencode⟩

end PaxosOdin.Wire
