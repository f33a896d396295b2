import PaxosOdin.Wire.Codec

/-!
# From core to core

A message leaves the core through the native record, the typed message of the host and a frame, and
comes back the same way.

Main definitions:

- Definition `Canonical`: the values that the bridge lets in.
- Definition `InWords`: a core message whose numbers fit the types of their fields.
- Definition `typed`: the message of the host that stands for a core message.

Main results:

- Theorem `message_envelopeToC`: the outbound half.
- Theorem `messageFromC_encodeEnvelope`: the inbound half.
- Theorem `wire_round_trip`: both halves with the frame between them.
-/

namespace PaxosOdin.Wire

open Bridge (Value entryFromC messageFromC envelopeFromC entryToC envelopeToC)

/-! ## Values -/

/-- The values that `entry_from_c` produces. -/
def Canonical (maxValue : Nat) (value : Value) : Prop :=
  ∃ source, entryFromC maxValue source = .ok value

/-- A canonical value is none, or a command or a no-op within the limit. -/
theorem Canonical.cases {maxValue : Nat} {value : Value} (h : Canonical maxValue value) :
    value = .absent ∨ ∃ kind body, value = .command ⟨kind, body⟩ ∧ body.length ≤ maxValue ∧
      (kind = .command ∨ kind = .noop) := by
  obtain ⟨source, hsource⟩ := h
  unfold entryFromC at hsource
  have hcommand : ∀ {kind : Bridge.EntryKind},
      (if source.length.toNat > maxValue then .error .valueTooLarge
        else .ok (.command ⟨kind, source.body.take source.length.toNat⟩) :
          Except Bridge.Status Value) = .ok value →
      (kind = .command ∨ kind = .noop) →
      ∃ kind body, value = .command ⟨kind, body⟩ ∧ body.length ≤ maxValue ∧
        (kind = .command ∨ kind = .noop) := by
    intro kind hvalue hkind
    split_ifs at hvalue with hlarge
    cases hvalue
    refine ⟨kind, _, rfl, ?_, hkind⟩
    rw [List.length_take]
    omega
  cases hkind : source.kind with
  | none =>
      rw [hkind] at hsource
      cases hsource
  | some kind =>
      rw [hkind] at hsource
      cases kind with
      | none =>
          cases hsource
          exact Or.inl rfl
      | command => exact Or.inr (hcommand hsource (Or.inl rfl))
      | noop => exact Or.inr (hcommand hsource (Or.inr rfl))
      | stopSign => cases hsource

/-- The entry of the host that stands for a value. -/
def entryOf : Value → LogEntry
  | .absent => noEntry
  | .command command => { kind := entryKindOfC command.kind, body := command.body }
  | .stop _ => { kind := .stopSign }

section Values

variable {c : Codec} {value : Value}

/-- A canonical value is copied out. -/
theorem entry_entryToC (h : Canonical c.maxValueBytes value) :
    entry (entryToC c.maxValueBytes value) = .ok (entryOf value) := by
  have hword := c.value_word
  rcases h.cases with rfl | ⟨kind, body, rfl, hbody, hkind⟩
  · rfl
  · have hlength : (UInt32.ofNat (min body.length c.maxValueBytes)).toNat = body.length := by
      rw [min_eq_left hbody]
      exact UInt32.toNat_ofNat_of_lt' (show body.length < 2 ^ 32 by omega)
    have hcopy : (body.take (min body.length c.maxValueBytes)).take
        (UInt32.ofNat (min body.length c.maxValueBytes)).toNat = body := by
      rw [hlength, min_eq_left hbody, List.take_length, List.take_length]
    rcases hkind with rfl | rfl
    · simp only [entryToC, entry, hcopy]
      rfl
    · simp only [entryToC, entry, hcopy]
      rfl

/-- A canonical value is let in again. -/
theorem entryFromC_encodeEntry (h : Canonical c.maxValueBytes value) :
    entryFromC c.maxValueBytes (encodeEntry (entryOf value)) = .ok value := by
  have hword := c.value_word
  rcases h.cases with rfl | ⟨kind, body, rfl, hbody, hkind⟩
  · rfl
  · have hlength : (UInt32.ofNat body.length).toNat = body.length :=
      UInt32.toNat_ofNat_of_lt' (show body.length < 2 ^ 32 by omega)
    rcases hkind with rfl | rfl <;>
      simp [entryFromC, encodeEntry, entryOf, entryKindOfC, hlength, hbody]

/-- The body of a canonical value fits its field. -/
theorem entryOf_body (h : Canonical c.maxValueBytes value) :
    (entryOf value).body.length ≤ c.maxValueBytes := by
  rcases h.cases with rfl | ⟨kind, body, rfl, hbody, -⟩
  · exact Nat.zero_le _
  · exact hbody

/-- The wire carries no stop sign. -/
theorem entryOf_stopSign (value : Value) : (entryOf value).stopSign = none := by
  cases value <;> rfl

/-- The code of an entry fits its byte. -/
theorem EntryKind.code_lt (kind : EntryKind) : kind.code < 256 ^ 1 := by
  cases kind <;> decide

end Values

/-! ## Messages -/

/-- The numbers of a core message fit the types of their fields. -/
def InWords : PaxosOdin.Message Value → Prop
  | .prepare ballot first last _ => ballot < 2 ^ 64 ∧ first < 2 ^ 64 ∧ last < 2 ^ 64
  | .promise ballot slot vote _ _ => ballot < 2 ^ 64 ∧ slot < 2 ^ 64 ∧ vote < 2 ^ 64
  | .promiseRange ballot anchor chosenThrough first last reported _ =>
      ballot < 2 ^ 64 ∧ anchor.trimId < 2 ^ 64 ∧ anchor.chosenTrimSlot < 2 ^ 64 ∧
        chosenThrough < 2 ^ 64 ∧ first < 2 ^ 64 ∧ last < 2 ^ 64 ∧ reported < 2 ^ 32
  | .accept ballot slot _ => ballot < 2 ^ 64 ∧ slot < 2 ^ 64
  | .accepted ballot slot decidedThrough =>
      ballot < 2 ^ 64 ∧ slot < 2 ^ 64 ∧ decidedThrough < 2 ^ 64
  | .commit slot _ => slot < 2 ^ 64
  | .learn fromSlot count => fromSlot < 2 ^ 64 ∧ count < 2 ^ 32
  | .nack rejected promised slot decidedThrough =>
      rejected < 2 ^ 64 ∧ promised < 2 ^ 64 ∧ slot < 2 ^ 64 ∧ decidedThrough < 2 ^ 64
  | .heartbeat ballot decidedThrough => ballot < 2 ^ 64 ∧ decidedThrough < 2 ^ 64

/-- The value that a core message carries is canonical; an empty promise carries none. -/
def CarriesCanonical (maxValue : Nat) : PaxosOdin.Message Value → Prop
  | .promise _ _ _ state value => state = .empty ∨ Canonical maxValue value
  | .accept _ _ value => Canonical maxValue value
  | .commit _ value => Canonical maxValue value
  | _ => True

/-- The message, where the meaningless value of an empty promise is none. -/
def settled : PaxosOdin.Message Value → PaxosOdin.Message Value
  | .promise ballot slot vote .empty _ => .promise ballot slot vote .empty .absent
  | m => m

/-- The message of the host that stands for a core message. -/
def typed : PaxosOdin.Message Value → Message
  | .prepare ballot first last scope => .prepare ballot first last scope
  | .promise ballot slot vote state value =>
      .promise ballot slot vote state (if state = .empty then noEntry else entryOf value)
  | .promiseRange ballot anchor chosenThrough first last reported more =>
      .promiseRange ballot first last reported more chosenThrough anchor.trimId
        anchor.chosenTrimSlot
  | .accept ballot slot value => .accept ballot slot (entryOf value)
  | .accepted ballot slot decidedThrough => .accepted ballot slot decidedThrough
  | .commit slot value => .commit slot (entryOf value)
  | .learn fromSlot count => .learn fromSlot count
  | .nack rejected promised slot decidedThrough => .nack rejected promised slot decidedThrough
  | .heartbeat ballot decidedThrough => .heartbeat ballot decidedThrough

section Messages

variable {c : Codec} {e : PaxosOdin.Envelope Value}

/-- A number below 2⁶⁴ survives its word. -/
theorem word64 {n : Nat} (h : n < 2 ^ 64) : (UInt64.ofNat n).toNat = n :=
  UInt64.toNat_ofNat_of_lt' h

/-- A number below 2³² survives its word. -/
theorem word32 {n : Nat} (h : n < 2 ^ 32) : (UInt32.ofNat n).toNat = n :=
  UInt32.toNat_ofNat_of_lt' h

/-- A number below 2¹⁶ survives its word. -/
theorem word16 {n : Nat} (h : n < 2 ^ 16) : (UInt16.ofNat n).toNat = n :=
  UInt16.toNat_ofNat_of_lt' h

/-- The outbound half: the host reads the message that the core sent. -/
theorem message_envelopeToC (configurationId : Nat) (hwords : InWords e.message)
    (hvalue : CarriesCanonical c.maxValueBytes e.message) :
    message (envelopeToC c.maxValueBytes configurationId e) = .ok (typed e.message) := by
  obtain ⟨sender, recipient, m⟩ := e
  cases m with
  | prepare ballot first last scope =>
      obtain ⟨hballot, hfirst, hlast⟩ := hwords
      simp [message, envelopeToC, typed, word64 hballot, word64 hfirst, word64 hlast]
  | promise ballot slot vote state value =>
      obtain ⟨hballot, hslot, hvote⟩ := hwords
      have hentry : entry (if state ≠ .empty then entryToC c.maxValueBytes value else {}) =
          .ok (if state = .empty then noEntry else entryOf value) := by
        rcases hvalue with rfl | hvalue
        · rfl
        · by_cases hempty : state = .empty
          · subst hempty
            rfl
          · rw [if_pos hempty, if_neg hempty]
            exact entry_entryToC hvalue
      show (entry (if state ≠ .empty then entryToC c.maxValueBytes value else {})).map _ = _
      rw [hentry]
      simp [Except.map, envelopeToC, typed, word64 hballot, word64 hslot, word64 hvote]
  | promiseRange ballot anchor chosenThrough first last reported more =>
      obtain ⟨hballot, htrimId, htrimSlot, hchosen, hfirst, hlast, hreported⟩ := hwords
      simp [message, envelopeToC, typed, word64 hballot, word64 htrimId, word64 htrimSlot,
        word64 hchosen, word64 hfirst, word64 hlast, word32 hreported]
  | accept ballot slot value =>
      obtain ⟨hballot, hslot⟩ := hwords
      show (entry (entryToC c.maxValueBytes value)).map _ = _
      rw [entry_entryToC hvalue]
      simp [Except.map, envelopeToC, typed, word64 hballot, word64 hslot]
  | accepted ballot slot decidedThrough =>
      obtain ⟨hballot, hslot, hdecided⟩ := hwords
      simp [message, envelopeToC, typed, word64 hballot, word64 hslot, word64 hdecided]
  | commit slot value =>
      have hslot : slot < 2 ^ 64 := hwords
      show (entry (entryToC c.maxValueBytes value)).map _ = _
      rw [entry_entryToC hvalue]
      simp [Except.map, envelopeToC, typed, word64 hslot]
  | learn fromSlot count =>
      obtain ⟨hfrom, hcount⟩ := hwords
      simp [message, envelopeToC, typed, word64 hfrom, word32 hcount]
  | nack rejected promised slot decidedThrough =>
      obtain ⟨hrejected, hpromised, hslot, hdecided⟩ := hwords
      simp [message, envelopeToC, typed, word64 hrejected, word64 hpromised, word64 hslot,
        word64 hdecided]
  | heartbeat ballot decidedThrough =>
      obtain ⟨hballot, hdecided⟩ := hwords
      simp [message, envelopeToC, typed, word64 hballot, word64 hdecided]

/-- The entry of a typed message is no stop sign and fits its field. -/
theorem typed_entry (hvalue : CarriesCanonical c.maxValueBytes e.message) :
    (flatten (typed e.message)).entry.stopSign = none ∧
      (flatten (typed e.message)).entry.body.length ≤ c.maxValueBytes := by
  obtain ⟨sender, recipient, m⟩ := e
  cases m with
  | promise ballot slot vote state value =>
      show (if state = .empty then noEntry else entryOf value).stopSign = none ∧
        (if state = .empty then noEntry else entryOf value).body.length ≤ _
      rcases hvalue with rfl | hvalue
      · exact ⟨rfl, Nat.zero_le _⟩
      · split_ifs
        · exact ⟨rfl, Nat.zero_le _⟩
        · exact ⟨entryOf_stopSign value, entryOf_body hvalue⟩
  | accept ballot slot value => exact ⟨entryOf_stopSign value, entryOf_body hvalue⟩
  | commit slot value => exact ⟨entryOf_stopSign value, entryOf_body hvalue⟩
  | _ => exact ⟨rfl, Nat.zero_le _⟩

/-- The code of a message fits its byte. -/
theorem messageCode_lt (kind : Bridge.MessageKind) : messageCode kind < 2 ^ 8 := by
  cases kind <;> decide

/-- So does the code of a cell state. -/
theorem cellStateCode_lt (state : CellState) : cellStateCode state < 2 ^ 8 := by
  cases state <;> decide

/-- So does the code of a scope. -/
theorem scopeCode_lt (scope : PrepareScope) : scopeCode scope < 2 ^ 8 := by
  cases scope <;> decide

/-- The numbers of a flat record fit the words of a header. -/
structure Flat.Words (flat : Flat) : Prop where
  kind : flat.kind < 2 ^ 8
  ballot : flat.ballot < 2 ^ 64
  slot : flat.slot < 2 ^ 64
  vote : flat.vote < 2 ^ 64
  first : flat.first < 2 ^ 64
  last : flat.last < 2 ^ 64
  rejected : flat.rejected < 2 ^ 64
  promised : flat.promised < 2 ^ 64
  decidedThrough : flat.decidedThrough < 2 ^ 64
  trimId : flat.trimId < 2 ^ 64
  trimSlot : flat.trimSlot < 2 ^ 64
  rangeCount : flat.rangeCount < 2 ^ 32
  scope : flat.scope < 2 ^ 8
  cellState : flat.cellState < 2 ^ 8
  more : flat.more < 2 ^ 8

/-- The flat record of a core message keeps within its words. -/
theorem typed_words (hwords : InWords e.message) : (flatten (typed e.message)).Words := by
  have hkind := messageCode_lt
  have hstate := cellStateCode_lt
  have hscope := scopeCode_lt
  obtain ⟨sender, recipient, m⟩ := e
  cases m with
  | prepare =>
      obtain ⟨hballot, hfirst, hlast⟩ := hwords
      constructor <;> simp_all [flatten, typed]
  | promise =>
      obtain ⟨hballot, hslot, hvote⟩ := hwords
      constructor <;> simp_all [flatten, typed]
  | promiseRange ballot anchor chosenThrough first last reported more =>
      obtain ⟨hballot, htrimId, htrimSlot, hchosen, hfirst, hlast, hreported⟩ := hwords
      cases more <;> constructor <;> simp_all [flatten, typed]
  | accept =>
      obtain ⟨hballot, hslot⟩ := hwords
      constructor <;> simp_all [flatten, typed]
  | accepted =>
      obtain ⟨hballot, hslot, hdecided⟩ := hwords
      constructor <;> simp_all [flatten, typed]
  | commit slot =>
      have hslot : slot < 2 ^ 64 := hwords
      constructor <;> simp_all [flatten, typed]
  | learn =>
      obtain ⟨hfrom, hcount⟩ := hwords
      constructor <;> simp_all [flatten, typed]
  | nack =>
      obtain ⟨hrejected, hpromised, hslot, hdecided⟩ := hwords
      constructor <;> simp_all [flatten, typed]
  | heartbeat =>
      obtain ⟨hballot, hdecided⟩ := hwords
      constructor <;> simp_all [flatten, typed]

/-- The header of a message of the core has room for its numbers. -/
theorem typed_fits {configurationId : Nat} (hconfiguration : configurationId < 2 ^ 64)
    (hsender : e.sender < 2 ^ 16) (hrecipient : e.recipient < 2 ^ 16) (hwords : InWords e.message)
    (hvalue : CarriesCanonical c.maxValueBytes e.message) :
    headerLayout.Fits
      (headerOf c ⟨configurationId, e.sender, e.recipient, typed e.message⟩).words := by
  have hw := typed_words hwords
  have hversion : wireVersion < 256 ^ 2 := by decide
  exact ⟨hversion, c.fingerprint_word, hconfiguration, hsender, hrecipient, hw.kind, hw.scope,
    hw.cellState, hw.more, hw.ballot, hw.slot, hw.vote, hw.first, hw.last, hw.rejected, hw.promised,
    hw.decidedThrough, hw.trimId, hw.trimSlot, hw.rangeCount, EntryKind.code_lt _,
    (typed_entry hvalue).2.trans_lt c.value_word, trivial⟩

/-- The value that the message brings into the core. -/
def carried : PaxosOdin.Message Value → Value
  | .promise _ _ _ state value => if state = .empty then .absent else value
  | .accept _ _ value => value
  | .commit _ value => value
  | _ => .absent

/-- `entry_from_c` takes back the value that was encoded. -/
theorem entryFromC_carried (hvalue : CarriesCanonical c.maxValueBytes e.message) :
    entryFromC c.maxValueBytes (encodeEntry (flatten (typed e.message)).entry) =
      .ok (carried e.message) := by
  obtain ⟨sender, recipient, m⟩ := e
  cases m with
  | promise ballot slot vote state value =>
      show entryFromC c.maxValueBytes
        (encodeEntry (if state = .empty then noEntry else entryOf value)) = .ok (if _ then _ else _)
      rcases hvalue with rfl | hvalue
      · rfl
      · split_ifs
        · rfl
        · exact entryFromC_encodeEntry hvalue
  | accept ballot slot value => exact entryFromC_encodeEntry hvalue
  | commit slot value => exact entryFromC_encodeEntry hvalue
  | _ => rfl

/-- The inbound half: the bridge reads the message that the host flattened. -/
theorem messageFromC_encodeEnvelope (configurationId : Nat) (hwords : InWords e.message) :
    messageFromC (encodeEnvelope ⟨configurationId, e.sender, e.recipient, typed e.message⟩)
      (carried e.message) = .ok (settled e.message) := by
  obtain ⟨sender, recipient, m⟩ := e
  cases m with
  | prepare ballot first last scope =>
      obtain ⟨hballot, hfirst, hlast⟩ := hwords
      simp [messageFromC, encodeEnvelope, typed, flatten, settled, word64 hballot, word64 hfirst,
        word64 hlast]
  | promise ballot slot vote state value =>
      obtain ⟨hballot, hslot, hvote⟩ := hwords
      cases state <;>
        simp [messageFromC, encodeEnvelope, typed, flatten, settled, carried, word64 hballot,
          word64 hslot, word64 hvote]
  | promiseRange ballot anchor chosenThrough first last reported more =>
      obtain ⟨hballot, htrimId, htrimSlot, hchosen, hfirst, hlast, hreported⟩ := hwords
      cases more <;>
        simp [messageFromC, encodeEnvelope, typed, flatten, settled, word64 hballot, word64 htrimId,
          word64 htrimSlot, word64 hchosen, word64 hfirst, word64 hlast, word32 hreported]
  | accept ballot slot value =>
      obtain ⟨hballot, hslot⟩ := hwords
      simp [messageFromC, encodeEnvelope, typed, flatten, settled, carried, word64 hballot,
        word64 hslot]
  | accepted ballot slot decidedThrough =>
      obtain ⟨hballot, hslot, hdecided⟩ := hwords
      simp [messageFromC, encodeEnvelope, typed, flatten, settled, word64 hballot, word64 hslot,
        word64 hdecided]
  | commit slot value =>
      have hslot : slot < 2 ^ 64 := hwords
      simp [messageFromC, encodeEnvelope, typed, flatten, settled, carried, word64 hslot]
  | learn fromSlot count =>
      obtain ⟨hfrom, hcount⟩ := hwords
      simp [messageFromC, encodeEnvelope, typed, flatten, settled, word64 hfrom, word32 hcount]
  | nack rejected promised slot decidedThrough =>
      obtain ⟨hrejected, hpromised, hslot, hdecided⟩ := hwords
      simp [messageFromC, encodeEnvelope, typed, flatten, settled, word64 hrejected,
        word64 hpromised, word64 hslot, word64 hdecided]
  | heartbeat ballot decidedThrough =>
      obtain ⟨hballot, hdecided⟩ := hwords
      simp [messageFromC, encodeEnvelope, typed, flatten, settled, word64 hballot, word64 hdecided]

end Messages

/-! ## The whole way -/

/-- A message of the core leaves through the native record, the host and a frame, and the bridge of
the receiver reads the same message. -/
def RoundTrips (c : Codec) (configurationId : Nat) (e : PaxosOdin.Envelope Value) : Prop :=
  ∃ sent frame received,
    envelope (envelopeToC c.maxValueBytes configurationId e) = .ok sent ∧
      encode c sent = .ok frame ∧ decode c frame = .ok received ∧
      envelopeFromC c.maxValueBytes (encodeEnvelope received) =
        .ok (configurationId, { e with message := settled e.message })

/-- The bytes are refused with one of the two errors, or they are an envelope whose encoding decodes
to it. -/
def Redecodes (c : Codec) (frame : List UInt8) : Prop :=
  (∃ context, decode c frame = .error (.invalidArgument context)) ∨
    (∃ context, decode c frame = .error (.unsupportedKind context)) ∨
    ∃ e frame', decode c frame = .ok e ∧ encode c e = .ok frame' ∧ decode c frame' = .ok e

/-- A message between two members comes back. -/
theorem RoundTrips.of_members {c : Codec} {configurationId : Nat} {e : PaxosOdin.Envelope Value}
    (hconfiguration : configurationId < 2 ^ 64) (hsender : e.sender < 2 ^ 16)
    (hrecipient : e.recipient < 2 ^ 16) (hfrom : e.sender ≠ 0) (hto : e.recipient ≠ 0)
    (hwords : InWords e.message) (hvalue : CarriesCanonical c.maxValueBytes e.message) :
    RoundTrips c configurationId e := by
  have hmessage := message_envelopeToC configurationId hwords hvalue
  have hids : ((envelopeToC c.maxValueBytes configurationId e).configurationId,
      (envelopeToC c.maxValueBytes configurationId e).sender,
      (envelopeToC c.maxValueBytes configurationId e).recipient) =
      (UInt64.ofNat configurationId, UInt16.ofNat e.sender, UInt16.ofNat e.recipient) := by
    unfold envelopeToC
    cases e.message <;> rfl
  obtain ⟨hid, hids⟩ := Prod.mk.inj hids
  obtain ⟨hsend, hreceive⟩ := Prod.mk.inj hids
  have hsent : envelope (envelopeToC c.maxValueBytes configurationId e) =
      .ok ⟨configurationId, e.sender, e.recipient, typed e.message⟩ := by
    unfold envelope
    rw [hmessage, hid, hsend, hreceive]
    simp only [Except.map, word64 hconfiguration, word16 hsender, word16 hrecipient]
  obtain ⟨hstop, hbody⟩ := typed_entry hvalue
  obtain ⟨frame, hencode⟩ := @encode_of_fits c
    ⟨configurationId, e.sender, e.recipient, typed e.message⟩ hbody
    (typed_fits hconfiguration hsender hrecipient hwords hvalue)
  refine ⟨_, frame, _, hsent, hencode, decode_encode hfrom hto hstop hencode, ?_⟩
  have hnonzero : ∀ {n : Nat}, n < 2 ^ 16 → n ≠ 0 → UInt16.ofNat n ≠ 0 := by
    intro n hn hne hzero
    apply hne
    rw [← word16 hn, hzero]
    rfl
  unfold envelopeFromC
  rw [show (encodeEnvelope ⟨configurationId, e.sender, e.recipient, typed e.message⟩).sender =
      UInt16.ofNat e.sender from rfl,
    show (encodeEnvelope ⟨configurationId, e.sender, e.recipient, typed e.message⟩).recipient =
      UInt16.ofNat e.recipient from rfl,
    if_neg (not_or.mpr ⟨hnonzero hsender hfrom, hnonzero hrecipient hto⟩),
    show (encodeEnvelope ⟨configurationId, e.sender, e.recipient, typed e.message⟩).entry =
    encodeEntry (flatten (typed e.message)).entry from rfl, entryFromC_carried hvalue]
  dsimp only
  rw [messageFromC_encodeEnvelope configurationId hwords]
  show Except.ok ((UInt64.ofNat configurationId).toNat, PaxosOdin.Envelope.mk
    (UInt16.ofNat e.sender).toNat (UInt16.ofNat e.recipient).toNat (settled e.message)) = _
  rw [word64 hconfiguration, word16 hsender, word16 hrecipient]

/-- Every message between members comes back from its frame, and every byte string is refused or
decodes to an envelope that survives its own encoding. -/
theorem wire_round_trip (c : Codec) :
    (∀ (configurationId : Nat) (e : PaxosOdin.Envelope Value), configurationId < 2 ^ 64 →
      e.sender < 2 ^ 16 → e.recipient < 2 ^ 16 → e.sender ≠ 0 → e.recipient ≠ 0 →
      InWords e.message → CarriesCanonical c.maxValueBytes e.message →
      RoundTrips c configurationId e) ∧
      ∀ frame, Redecodes c frame := by
  constructor
  · intro configurationId e hconfiguration hsender hrecipient hfrom hto hwords hvalue
    exact .of_members hconfiguration hsender hrecipient hfrom hto hwords hvalue
  · intro frame
    rcases decode_cases c frame with ⟨e, hdecode, hdocumented⟩ | ⟨e, frame', hround⟩
    · cases e with
      | invalidArgument context => exact Or.inl ⟨context, hdecode⟩
      | unsupportedKind context => exact Or.inr (Or.inl ⟨context, hdecode⟩)
      | _ => exact hdocumented.elim
    · exact Or.inr (Or.inr ⟨e, frame', hround⟩)

/-- The codec of the compiled library, with a fingerprint. -/
def libraryCodec : Codec where
  maxValueBytes := 1024
  fingerprint := 7
  value_word := by decide
  fingerprint_word := by decide

/-- A reported vote for a command of three bytes, from member 1 for member 2. -/
theorem wire_round_trip_promise :
    RoundTrips libraryCodec 1
      ⟨1, 2, .promise 131073 4 65537 .voted (.command ⟨.command, [7, 0, 255]⟩)⟩ := by
  have hbody : Canonical 1024 (.command ⟨.command, [7, 0, 255]⟩) :=
    ⟨{ kind := some .command, length := 3, body := [7, 0, 255] }, rfl⟩
  exact (wire_round_trip libraryCodec).1 1 _ (by decide) (by decide) (by decide) (by decide)
    (by decide) ⟨by decide, by decide, by decide⟩ (Or.inr hbody)

/-- A message of node zero does not come back: the decoder takes zero for no node. -/
theorem wire_round_trip_zero :
    ¬ ∀ (c : Codec) (configurationId : Nat) (e : PaxosOdin.Envelope Value),
      configurationId < 2 ^ 64 → e.sender < 2 ^ 16 → e.recipient < 2 ^ 16 → InWords e.message →
      CarriesCanonical c.maxValueBytes e.message → RoundTrips c configurationId e := by
  intro h
  obtain ⟨sent, frame, received, hsent, hencode, hdecode, -⟩ :=
    h libraryCodec 1 ⟨0, 2, .heartbeat 1 0⟩ (by decide) (by decide) (by decide)
      ⟨by decide, by decide⟩ trivial
  have hsent' : sent = ⟨1, 0, 2, .heartbeat 1 0⟩ := by
    have heval : envelope (envelopeToC 1024 1 ⟨0, 2, .heartbeat 1 0⟩) =
        .ok ⟨1, 0, 2, .heartbeat 1 0⟩ := by decide
    exact Except.ok.inj (hsent.symm.trans heval)
  subst hsent'
  have hrefused : (encode libraryCodec ⟨1, 0, 2, .heartbeat 1 0⟩).bind (decode libraryCodec) =
      .error (.invalidArgument [("sender", .number 0), ("recipient", .number 2)]) := by
    decide +kernel
  rw [hencode] at hrefused
  have hnever : (.ok received : Except Raised Envelope) = .error _ := hdecode.symm.trans hrefused
  cases hnever

end PaxosOdin.Wire
