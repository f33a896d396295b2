import PaxosOdin.Storage.Framing
import PaxosOdin.Storage.Pack

/-!
# The file journal

The durable journal of the Python host: a header that binds the file to a member, then one
length-prefixed, checksummed frame per record.  A crash keeps every synced byte and an
arbitrary prefix of the later ones, which stay unsynced: opening the file again syncs nothing.
Replay stops at an incomplete frame, and it leaves that frame in the file, where the next
append goes after it.

Main results:

- Theorem `decodeRecord_encodePayload`: a payload is decoded to its record, less the stop sign.
- Theorem `replayLoop_framed`: replay reads back whole frames and stops at a torn one.
-/

namespace PaxosOdin

/-! ## Records -/

/-- `WriteKind`. -/
inductive WriteKind where
  | none
  | promise
  | promiseAt
  | vote
  | chosen
  | trim
deriving DecidableEq, Repr

/-- The code of a write kind. -/
def WriteKind.code : WriteKind → Nat
  | .none => 0
  | .promise => 1
  | .promiseAt => 2
  | .vote => 3
  | .chosen => 4
  | .trim => 5

/-- `WriteKind(code)`, which raises on any other code. -/
def WriteKind.ofCode : Nat → Option WriteKind
  | 0 => some .none
  | 1 => some .promise
  | 2 => some .promiseAt
  | 3 => some .vote
  | 4 => some .chosen
  | 5 => some .trim
  | _ => Option.none

/-- `EntryKind`. -/
inductive EntryKind where
  | none
  | command
  | noop
  | stopSign
deriving DecidableEq, Repr

/-- The code of an entry kind. -/
def EntryKind.code : EntryKind → Nat
  | .none => 0
  | .command => 1
  | .noop => 2
  | .stopSign => 3

/-- `EntryKind(code)`, which raises on any other code. -/
def EntryKind.ofCode : Nat → Option EntryKind
  | 0 => some .none
  | 1 => some .command
  | 2 => some .noop
  | 3 => some .stopSign
  | _ => Option.none

/-- The sealing record of a reconfiguration. -/
structure EntryStopSign where
  configurationId : Nat
  members : List Nat
  metadata : List UInt8
deriving DecidableEq, Repr

/-- One decoded log entry. -/
structure LogEntry where
  kind : EntryKind
  body : List UInt8 := []
  stopSign : Option EntryStopSign := none
deriving DecidableEq, Repr

/-- One durable record the host appends before it sends. -/
structure WriteRecord where
  kind : WriteKind
  ballot : UInt64
  slot : UInt64
  trimId : UInt64
  trimSlot : UInt64
  entry : LogEntry
  requiresBarrier : Bool
deriving DecidableEq, Repr

/-! ## Frames -/

/-- `_RECORD_PREFIX.size`. -/
def recordPrefixSize : Nat := 8

/-- `_RECORD_BODY.size`. -/
def recordBodySize : Nat := 40

/-- The payload of a record: the packed fields, then the value inline. -/
def encodePayload (r : WriteRecord) : List UInt8 :=
  packUInt 1 r.kind.code ++ (packUInt 1 (if r.requiresBarrier then 1 else 0) ++
    (packUInt 1 r.entry.kind.code ++ (packUInt 1 0 ++ (packUInt 8 r.ballot.toNat ++
      (packUInt 8 r.slot.toNat ++ (packUInt 8 r.trimId.toNat ++ (packUInt 8 r.trimSlot.toNat ++
        (packUInt 4 r.entry.body.length ++ r.entry.body))))))))

/-- `_encode_record`: the length and the checksum of the payload, then the payload. -/
def encodeRecord (r : WriteRecord) : List UInt8 :=
  packUInt 4 (encodePayload r).length ++ (packUInt 4 (crc32 (encodePayload r)) ++ encodePayload r)

/-- Whether `struct.pack` accepts the lengths of a record. -/
def Packs (r : WriteRecord) : Prop :=
  (encodePayload r).length < 2 ^ 32

instance (r : WriteRecord) : Decidable (Packs r) := by
  unfold Packs
  infer_instance

/-- The big-endian word of `width` bytes at `offset`. -/
def wordAt (bytes : List UInt8) (offset width : Nat) : Nat :=
  unpackUInt ((bytes.drop offset).take width)

/-- `_decode_record`, which fails on a short payload and on an unknown kind. -/
def decodeRecord (payload : List UInt8) : Option WriteRecord :=
  if payload.length < recordBodySize then none
  else do
    let kind ← WriteKind.ofCode (wordAt payload 0 1)
    let entryKind ← EntryKind.ofCode (wordAt payload 2 1)
    let length := wordAt payload 36 4
    some
      { kind := kind
        ballot := .ofNat (wordAt payload 4 8)
        slot := .ofNat (wordAt payload 12 8)
        trimId := .ofNat (wordAt payload 20 8)
        trimSlot := .ofNat (wordAt payload 28 8)
        entry := { kind := entryKind, body := (payload.drop recordBodySize).take length }
        requiresBarrier := decide (wordAt payload 1 1 ≠ 0) }

/-! ## The journal file -/

/-- What the header binds the file to. -/
structure JournalIdentity where
  nodeId : Nat
  configurationId : Nat
  fingerprint : Nat
  nodeId_lt : nodeId < 256 ^ 2
  configurationId_lt : configurationId < 256 ^ 8
  fingerprint_lt : fingerprint < 256 ^ 8

/-- `_HEADER.size`. -/
def headerSize : Nat := 24

/-- `_JOURNAL_MAGIC`. -/
def journalMagic : List UInt8 := [0x50, 0x58, 0x44, 0x4A]

/-- `_JOURNAL_FORMAT`. -/
def journalFormat : Nat := 1

/-- The header that `_open` writes. -/
def journalHeader (id : JournalIdentity) : List UInt8 :=
  journalMagic ++ (packUInt 2 journalFormat ++ (packUInt 2 id.nodeId ++
    (packUInt 8 id.configurationId ++ packUInt 8 id.fingerprint)))

/-- Why an operation on a journal raises. -/
inductive JournalError where
  | notOpen
  | headerTooShort
  | notAJournal
  | formatVersion (supplied : Nat)
  | otherNode (stored : Nat)
  | otherConfiguration (stored : Nat)
  | otherProfile (stored : Nat)
  | corrupt (offset : Nat)
  | undecodable
  | unpackable
deriving DecidableEq, Repr

/-- The journal file and the object that holds it open.  `durable` are the bytes that an `fsync`
covered, which no crash can take, and `later` the bytes behind them, whether this opening wrote
them or an earlier one; `synced` is the flag of the open journal, none while no journal is
open. -/
structure JournalFile where
  durable : List UInt8
  later : List UInt8
  synced : Option Bool
deriving DecidableEq

/-- What a reader sees. -/
def JournalFile.content (f : JournalFile) : List UInt8 :=
  f.durable ++ f.later

/-- `_check_header`. -/
def checkHeader (id : JournalIdentity) (content : List UInt8) : Option JournalError :=
  let raw := content.take headerSize
  if raw.length ≠ headerSize then some .headerTooShort
  else if raw.take 4 ≠ journalMagic then some .notAJournal
  else if wordAt raw 4 2 ≠ journalFormat then some (.formatVersion (wordAt raw 4 2))
  else if wordAt raw 6 2 ≠ id.nodeId then some (.otherNode (wordAt raw 6 2))
  else if wordAt raw 8 8 ≠ id.configurationId then some (.otherConfiguration (wordAt raw 8 8))
  else if wordAt raw 16 8 ≠ id.fingerprint then some (.otherProfile (wordAt raw 16 8))
  else none

/-- `_open` on an empty file, up to the sync of the header it writes. -/
def JournalFile.headed (id : JournalIdentity) (f : JournalFile) : JournalFile :=
  { f with later := journalHeader id, synced := some true }

/-- `open`.  What it finds in the file it does not sync. -/
def JournalFile.opened (id : JournalIdentity) (f : JournalFile) : JournalFile × Option JournalError :=
  match f.synced with
  | some _ => (f, none)
  | none =>
      if f.content.length > 0 then
        match checkHeader id f.content with
        | some e => (f, some e)
        | none => ({ f with synced := some true }, none)
      else ({ f.headed id with durable := journalHeader id, later := [] }, none)

/-- `append`: the records of one call are written together. -/
def JournalFile.append (f : JournalFile) (records : List WriteRecord) :
    JournalFile × Option JournalError :=
  if records = [] then (f, none)
  else
    match f.synced with
    | none => (f, some .notOpen)
    | some _ =>
        if ∀ r ∈ records, Packs r then
          ({ f with later := f.later ++ Framing.framed encodeRecord records, synced := some false }, none)
        else (f, some .unpackable)

/-- `sync`, which returns at once when nothing was appended since the last one. -/
def JournalFile.sync (f : JournalFile) : JournalFile :=
  match f.synced with
  | some false => { durable := f.durable ++ f.later, later := [], synced := some true }
  | _ => f

/-- `close` syncs and lets the file go. -/
def JournalFile.close (f : JournalFile) : JournalFile :=
  { f.sync with synced := none }

/-- A crash keeps every synced byte and the first `keep` later ones. -/
def JournalFile.crash (f : JournalFile) (keep : Nat) : JournalFile :=
  { f with later := f.later.take keep, synced := none }

/-- A crash within `open`, where an empty file has been given a header that is not synced. -/
def JournalFile.crashOpening (id : JournalIdentity) (f : JournalFile) (keep : Nat) : JournalFile :=
  if f.synced = none ∧ f.content.length = 0 then (f.headed id).crash keep else f.crash keep

/-- What the loop of `replay` found: the records, the bytes it left unread and the error it
raised. -/
structure JournalScan where
  records : List WriteRecord
  unread : List UInt8
  error : Option JournalError
deriving DecidableEq

/-- The loop of `replay` at `offset`, where `rest` is what follows.  Each round reads at least
the eight bytes of a prefix. -/
def replayLoop : Nat → Nat → List UInt8 → JournalScan
  | 0, _, rest => ⟨[], rest, none⟩
  | fuel + 1, offset, rest =>
      if rest = [] then ⟨[], rest, none⟩
      -- torn tail: the length itself never landed
      else if rest.length < recordPrefixSize then ⟨[], rest, none⟩
      else
        let length := wordAt rest 0 4
        let checksum := wordAt rest 4 4
        -- torn tail: the payload is short
        if rest.length < recordPrefixSize + length then ⟨[], rest, none⟩
        else
          let payload := (rest.drop recordPrefixSize).take length
          if crc32 payload ≠ checksum then ⟨[], rest, some (.corrupt (headerSize + offset))⟩
          else
            match decodeRecord payload with
            | none => ⟨[], rest, some .undecodable⟩
            | some record =>
                let more := replayLoop fuel (offset + (recordPrefixSize + length))
                  (rest.drop (recordPrefixSize + length))
                { more with records := record :: more.records }

/-- The scan of everything after the header. -/
def scanJournal (content : List UInt8) : JournalScan :=
  let blob := content.drop headerSize
  replayLoop (blob.length + 1) 0 blob

/-- `replay`. -/
def JournalFile.replay (f : JournalFile) : Except JournalError (List WriteRecord) :=
  match f.synced with
  | none => .error .notOpen
  | some _ =>
      match (scanJournal f.content).error with
      | some e => .error e
      | none => .ok (scanJournal f.content).records

/-! ## Reading frames back -/

theorem wordAt_head {width n : Nat} {back : List UInt8} (h : n < 256 ^ width) :
    wordAt (packUInt width n ++ back) 0 width = n := by
  unfold wordAt
  rw [List.drop_zero, List.take_append_of_le_length (packUInt_length width n).ge,
    List.take_of_length_le (packUInt_length width n).le, unpackUInt_packUInt h]

theorem drop_skip {w n offset : Nat} {back : List UInt8} (h : w ≤ offset) :
    (packUInt w n ++ back).drop offset = back.drop (offset - w) := by
  rw [List.drop_append, packUInt_length, List.drop_eq_nil_of_le (by rw [packUInt_length]; exact h),
    List.nil_append]

theorem wordAt_skip {w n offset width : Nat} {back : List UInt8} (h : w ≤ offset) :
    wordAt (packUInt w n ++ back) offset width = wordAt back (offset - w) width := by
  unfold wordAt
  rw [drop_skip h]

theorem WriteKind.ofCode_code (k : WriteKind) : WriteKind.ofCode k.code = some k := by
  cases k <;> rfl

theorem EntryKind.ofCode_code (k : EntryKind) : EntryKind.ofCode k.code = some k := by
  cases k <;> rfl

theorem encodePayload_length (r : WriteRecord) :
    (encodePayload r).length = recordBodySize + r.entry.body.length := by
  simp only [encodePayload, List.length_append, packUInt_length, recordBodySize]
  omega

theorem encodeRecord_length (r : WriteRecord) :
    (encodeRecord r).length = recordPrefixSize + (encodePayload r).length := by
  simp only [encodeRecord, List.length_append, packUInt_length, recordPrefixSize]
  omega

/-- What a frame carries of a record: everything but the stop sign. -/
def WriteRecord.inlined (r : WriteRecord) : WriteRecord :=
  { r with entry := { r.entry with stopSign := none } }

/-- A payload is decoded to what the frame carries of its record. -/
theorem decodeRecord_encodePayload {r : WriteRecord} (h : Packs r) :
    decodeRecord (encodePayload r) = some r.inlined := by
  have hlen := encodePayload_length r
  have hbody : r.entry.body.length < 256 ^ 4 := by
    unfold Packs at h
    rw [hlen] at h
    unfold recordBodySize at h
    omega
  have hkind : r.kind.code < 256 ^ 1 := by cases r.kind <;> decide
  have hentry : r.entry.kind.code < 256 ^ 1 := by cases r.entry.kind <;> decide
  have hbarrier : (if r.requiresBarrier then 1 else 0) < 256 ^ 1 := by split_ifs <;> decide
  have hword (n : UInt64) : n.toNat < 256 ^ 8 := n.toNat_lt
  have hrest : (encodePayload r).drop recordBodySize = r.entry.body := by
    unfold encodePayload recordBodySize
    simp (disch := decide) only [drop_skip]
    rfl
  have hflag : decide ((if r.requiresBarrier = true then 1 else 0) ≠ 0) = r.requiresBarrier := by
    cases r.requiresBarrier <;> rfl
  unfold decodeRecord
  rw [if_neg (by omega)]
  simp only [hrest]
  unfold encodePayload
  simp (disch := first | assumption | decide | exact hword _) only [wordAt_skip, wordAt_head,
    Nat.reduceSub, WriteKind.ofCode_code, EntryKind.ofCode_code, Option.bind_eq_bind,
    Option.bind_some, UInt64.ofNat_toNat, List.take_length, hflag]
  rfl

theorem wordAt_take {bytes : List UInt8} {offset width k : Nat} (h : offset + width ≤ k) :
    wordAt (bytes.take k) offset width = wordAt bytes offset width := by
  unfold wordAt
  rw [List.drop_take, List.take_take, Nat.min_eq_left (by omega)]

theorem frame_length {r : WriteRecord} (h : Packs r) (back : List UInt8) :
    wordAt (encodeRecord r ++ back) 0 4 = (encodePayload r).length := by
  unfold encodeRecord
  rw [List.append_assoc, wordAt_head h]

theorem frame_checksum (r : WriteRecord) (back : List UInt8) :
    wordAt (encodeRecord r ++ back) 4 4 = crc32 (encodePayload r) := by
  unfold encodeRecord
  rw [List.append_assoc, wordAt_skip (by decide), List.append_assoc, wordAt_head (crc32_lt _)]

theorem frame_payload (r : WriteRecord) (back : List UInt8) :
    ((encodeRecord r ++ back).drop recordPrefixSize).take (encodePayload r).length =
      encodePayload r := by
  unfold encodeRecord recordPrefixSize
  rw [List.append_assoc, drop_skip (by decide), List.append_assoc, drop_skip (by decide)]
  exact List.take_left

theorem frame_rest (r : WriteRecord) (back : List UInt8) :
    (encodeRecord r ++ back).drop (recordPrefixSize + (encodePayload r).length) = back := by
  rw [← encodeRecord_length]
  exact List.drop_left

/-- Replay stops at a torn frame. -/
theorem replayLoop_torn {torn : List UInt8} (h : Framing.Torn encodeRecord Packs torn)
    (fuel offset : Nat) : replayLoop fuel offset torn = ⟨[], torn, none⟩ := by
  cases fuel with
  | zero => rfl
  | succ fuel =>
      unfold replayLoop
      rcases h with rfl | ⟨r, k, hpacks, hk, rfl⟩
      · rfl
      rw [encodeRecord_length] at hk
      have hlen : ((encodeRecord r).take k).length = k := by
        rw [List.length_take, encodeRecord_length]
        omega
      split_ifs with hnil hprefix
      · rfl
      · rfl
      · have hword : wordAt ((encodeRecord r).take k) 0 4 = (encodePayload r).length := by
          rw [hlen] at hprefix
          unfold recordPrefixSize at hprefix
          rw [wordAt_take (by omega), ← List.append_nil (encodeRecord r), frame_length hpacks]
        simp only [hword]
        rw [if_pos (by omega)]

/-- Replay reads back whole frames and stops at a torn one. -/
theorem replayLoop_framed {rs : List WriteRecord} (hpacks : ∀ r ∈ rs, Packs r)
    {torn : List UInt8} (htorn : Framing.Torn encodeRecord Packs torn) {fuel : Nat} (offset : Nat)
    (hfuel : (Framing.framed encodeRecord rs).length < fuel) :
    replayLoop fuel offset (Framing.framed encodeRecord rs ++ torn) =
      ⟨rs.map WriteRecord.inlined, torn, none⟩ := by
  induction rs generalizing fuel offset with
  | nil => exact replayLoop_torn htorn fuel offset
  | cons r rs ih =>
      obtain ⟨fuel, rfl⟩ : ∃ n, fuel = n + 1 := ⟨fuel - 1, by omega⟩
      have hr : Packs r := hpacks r List.mem_cons_self
      have hsize := encodeRecord_length r
      rw [Framing.framed_cons, List.length_append] at hfuel
      rw [Framing.framed_cons, List.append_assoc]
      generalize hback : Framing.framed encodeRecord rs ++ torn = back at *
      have hlong : (encodeRecord r ++ back).length =
          recordPrefixSize + (encodePayload r).length + back.length := by
        rw [List.length_append, hsize]
      have hne : encodeRecord r ++ back ≠ [] := by
        intro he
        rw [he, List.length_nil, recordPrefixSize] at hlong
        omega
      unfold replayLoop
      rw [if_neg hne, if_neg (by omega)]
      simp only [frame_length hr, frame_checksum, frame_payload, frame_rest]
      rw [if_neg (by omega), if_neg (by simp), decodeRecord_encodePayload hr]
      have hless : (Framing.framed encodeRecord rs).length < fuel := by
        rw [hsize] at hfuel
        unfold recordPrefixSize at hfuel
        omega
      have hmore := ih (fun x hx => hpacks x (List.mem_cons_of_mem _ hx))
        (offset + (recordPrefixSize + (encodePayload r).length)) hless
      simp only [hmore]
      rfl

end PaxosOdin
