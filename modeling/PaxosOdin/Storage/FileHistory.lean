import PaxosOdin.Storage.FileJournal
import Mathlib.Order.Bounds.Basic

/-!
# The file history

The retained history of the Python host: one length-prefixed frame per released entry, without
a checksum, synced by the call that records it.  The index is rebuilt from the file when it is
opened; a torn frame ends the scan and stays in the file, where the next record goes after it.

Main results:

- Theorem `loadLoop_framed`: the scan reads back whole frames and stops at a torn one.
-/

namespace PaxosOdin

open Framing

/-! ## Frames -/

/-- One retained entry: its slot, its payload and its kind. -/
structure HistoryEntry where
  slot : Nat
  payload : List UInt8
  kind : Nat
deriving DecidableEq, Repr

/-- `_HISTORY_PREFIX.size`. -/
def historyPrefixSize : Nat := 13

/-- The frame that `record` writes. -/
def encodeEntry (e : HistoryEntry) : List UInt8 :=
  packUInt 8 e.slot ++ (packUInt 1 e.kind ++ (packUInt 4 e.payload.length ++ e.payload))

/-- Whether `struct.pack` accepts an entry. -/
def EntryPacks (e : HistoryEntry) : Prop :=
  e.slot < 256 ^ 8 ∧ e.kind < 256 ^ 1 ∧ e.payload.length < 256 ^ 4

instance (e : HistoryEntry) : Decidable (EntryPacks e) := by
  unfold EntryPacks
  infer_instance

/-! ## The history file -/

/-- An open history: the index, the last entry for a slot first, and the cursor. -/
structure HistoryIndex where
  index : List HistoryEntry
  cursor : Nat
deriving DecidableEq

/-- What the index holds for a slot. -/
def HistoryIndex.get (h : HistoryIndex) (slot : Nat) : Option HistoryEntry :=
  h.index.find? (·.slot = slot)

/-- `while self._cursor + 1 in self._index: self._cursor += 1`.  The index bounds the rounds. -/
def advanceCursor (index : List HistoryEntry) : Nat → Nat → Nat
  | 0, cursor => cursor
  | fuel + 1, cursor =>
      if (index.find? (·.slot = cursor + 1)).isSome then advanceCursor index fuel (cursor + 1)
      else cursor

/-- An index with its cursor moved as far as it goes. -/
def HistoryIndex.advanced (index : List HistoryEntry) (cursor : Nat) : HistoryIndex :=
  { index := index, cursor := advanceCursor index index.length cursor }

/-- The loop of `_load` over what follows the frames read so far: the entries found, the last
one first, and the bytes left unread. -/
def loadLoop : Nat → List UInt8 → List HistoryEntry → List HistoryEntry × List UInt8
  | 0, rest, index => (index, rest)
  | fuel + 1, rest, index =>
      if historyPrefixSize ≤ rest.length then
        let slot := wordAt rest 0 8
        let kind := wordAt rest 8 1
        let length := wordAt rest 9 4
        if rest.length < historyPrefixSize + length then (index, rest)
        else
          loadLoop fuel (rest.drop (historyPrefixSize + length))
            ({ slot := slot, payload := (rest.drop historyPrefixSize).take length, kind := kind } ::
              index)
      else (index, rest)

/-- `_load`. -/
def loadHistory (bytes : List UInt8) : HistoryIndex :=
  HistoryIndex.advanced (loadLoop bytes.length bytes []).1 0

/-- `read`: the entries of the slots from `first` on that the index holds. -/
def HistoryIndex.read (h : HistoryIndex) (first count : Nat) : List HistoryEntry :=
  (List.range' first count).filterMap h.get

/-- The history file and the object that holds it open. -/
structure HistoryFile where
  bytes : List UInt8
  live : Option HistoryIndex
deriving DecidableEq

/-- `__init__`. -/
def HistoryFile.opened (f : HistoryFile) : HistoryFile :=
  { f with live := some (loadHistory f.bytes) }

/-- Whether a record call writes a frame. -/
def HistoryIndex.Writes (h : HistoryIndex) (e : HistoryEntry) : Prop :=
  h.get e.slot = none ∧ EntryPacks e

instance (h : HistoryIndex) (e : HistoryEntry) : Decidable (h.Writes e) := by
  unfold HistoryIndex.Writes
  infer_instance

/-- `record` on an open history, with whether it returned. -/
def HistoryFile.record (f : HistoryFile) (h : HistoryIndex) (e : HistoryEntry) :
    HistoryFile × Bool :=
  if (h.get e.slot).isSome then (f, true)
  else if EntryPacks e then
    ({ bytes := f.bytes ++ encodeEntry e
       live := some (HistoryIndex.advanced (e :: h.index) h.cursor) }, true)
  else (f, false)

/-- A crash of a `record` call that leaves the first `keep` bytes of its frame. -/
def HistoryFile.crashRecord (f : HistoryFile) (h : HistoryIndex) (e : HistoryEntry) (keep : Nat) :
    HistoryFile :=
  { bytes := if h.Writes e then f.bytes ++ (encodeEntry e).take keep else f.bytes
    live := none }

/-! ## Reading frames back -/

theorem encodeEntry_length (e : HistoryEntry) :
    (encodeEntry e).length = historyPrefixSize + e.payload.length := by
  simp only [encodeEntry, List.length_append, packUInt_length, historyPrefixSize]
  omega

theorem entry_slot {e : HistoryEntry} (h : EntryPacks e) (back : List UInt8) :
    wordAt (encodeEntry e ++ back) 0 8 = e.slot := by
  unfold encodeEntry
  rw [List.append_assoc, wordAt_head h.1]

theorem entry_kind {e : HistoryEntry} (h : EntryPacks e) (back : List UInt8) :
    wordAt (encodeEntry e ++ back) 8 1 = e.kind := by
  unfold encodeEntry
  rw [List.append_assoc, wordAt_skip (by decide), List.append_assoc, wordAt_head h.2.1]

theorem entry_length {e : HistoryEntry} (h : EntryPacks e) (back : List UInt8) :
    wordAt (encodeEntry e ++ back) 9 4 = e.payload.length := by
  unfold encodeEntry
  rw [List.append_assoc, wordAt_skip (by decide), List.append_assoc, wordAt_skip (by decide),
    List.append_assoc, wordAt_head h.2.2]

theorem entry_payload (e : HistoryEntry) (back : List UInt8) :
    ((encodeEntry e ++ back).drop historyPrefixSize).take e.payload.length = e.payload := by
  unfold encodeEntry historyPrefixSize
  rw [List.append_assoc, drop_skip (by decide), List.append_assoc, drop_skip (by decide),
    List.append_assoc, drop_skip (by decide)]
  exact List.take_left

theorem entry_rest (e : HistoryEntry) (back : List UInt8) :
    (encodeEntry e ++ back).drop (historyPrefixSize + e.payload.length) = back := by
  rw [← encodeEntry_length]
  exact List.drop_left

/-- The scan stops at a torn frame. -/
theorem loadLoop_torn {torn : List UInt8} (h : Torn encodeEntry EntryPacks torn) (fuel : Nat)
    (index : List HistoryEntry) : loadLoop fuel torn index = (index, torn) := by
  cases fuel with
  | zero => rfl
  | succ fuel =>
      unfold loadLoop
      rcases h with rfl | ⟨e, k, hpacks, hk, rfl⟩
      · rfl
      rw [encodeEntry_length] at hk
      have hlen : ((encodeEntry e).take k).length = k := by
        rw [List.length_take, encodeEntry_length]
        omega
      by_cases hprefix : historyPrefixSize ≤ k
      · have hword : wordAt ((encodeEntry e).take k) 9 4 = e.payload.length := by
          unfold historyPrefixSize at hprefix
          rw [wordAt_take (by omega), ← List.append_nil (encodeEntry e), entry_length hpacks]
        rw [if_pos (by omega)]
        simp only [hword]
        rw [if_pos (by omega)]
      · rw [if_neg (by omega)]

/-- The scan reads back whole frames and stops at a torn one. -/
theorem loadLoop_framed {es : List HistoryEntry} (hpacks : ∀ e ∈ es, EntryPacks e)
    {torn : List UInt8} (htorn : Torn encodeEntry EntryPacks torn) {fuel : Nat}
    (index : List HistoryEntry) (hfuel : (framed encodeEntry es).length ≤ fuel) :
    loadLoop fuel (framed encodeEntry es ++ torn) index = (es.reverse ++ index, torn) := by
  induction es generalizing fuel index with
  | nil => exact loadLoop_torn htorn fuel index
  | cons e es ih =>
      have he : EntryPacks e := hpacks e List.mem_cons_self
      have hsize := encodeEntry_length e
      rw [framed_cons, List.length_append] at hfuel
      obtain ⟨fuel, rfl⟩ : ∃ n, fuel = n + 1 := by
        unfold historyPrefixSize at hsize
        exact ⟨fuel - 1, by omega⟩
      rw [framed_cons, List.append_assoc]
      have hless : (framed encodeEntry es).length ≤ fuel := by
        unfold historyPrefixSize at hsize
        omega
      have hmore := ih (fun x hx => hpacks x (List.mem_cons_of_mem _ hx)) (e :: index) hless
      generalize framed encodeEntry es ++ torn = back at *
      have hlong : (encodeEntry e ++ back).length =
          historyPrefixSize + e.payload.length + back.length := by
        rw [List.length_append, hsize]
      unfold loadLoop
      rw [if_pos (by omega)]
      simp only [entry_slot he, entry_kind he, entry_length he, entry_payload, entry_rest]
      rw [if_neg (by omega), hmore]
      simp

/-! ## The cursor -/

/-- A slot the index holds. -/
def Holds (index : List HistoryEntry) (slot : Nat) : Prop :=
  (index.find? (·.slot = slot)).isSome

theorem holds_iff {index : List HistoryEntry} {slot : Nat} :
    Holds index slot ↔ ∃ e ∈ index, e.slot = slot := by
  simp [Holds, List.find?_isSome]

/-- The entries above a slot become fewer when one of them is passed. -/
theorem above_lt {index : List HistoryEntry} {cursor : Nat} (h : Holds index (cursor + 1)) :
    (index.filter (fun e => cursor + 1 < e.slot)).length <
      (index.filter (fun e => cursor < e.slot)).length := by
  obtain ⟨e, he, hslot⟩ := holds_iff.mp h
  have hsplit : index.filter (fun e => cursor + 1 < e.slot) =
      (index.filter (fun e => cursor < e.slot)).filter (fun e => cursor + 1 < e.slot) := by
    rw [List.filter_filter]
    refine List.filter_congr fun x _ => ?_
    simp
    omega
  rw [hsplit]
  refine List.length_filter_lt_length_iff_exists.mpr ⟨e, ?_, ?_⟩
  · simp [he, hslot]
  · simp [hslot]

/-- The cursor moves over held slots and stops before one that is not held. -/
theorem advanceCursor_spec {index : List HistoryEntry} {fuel cursor : Nat}
    (hfuel : (index.filter (fun e => cursor < e.slot)).length ≤ fuel)
    (hheld : ∀ s, 1 ≤ s → s ≤ cursor → Holds index s) :
    (∀ s, 1 ≤ s → s ≤ advanceCursor index fuel cursor → Holds index s) ∧
      ¬ Holds index (advanceCursor index fuel cursor + 1) := by
  induction fuel generalizing cursor with
  | zero =>
      refine ⟨hheld, fun h => ?_⟩
      have := above_lt h
      unfold advanceCursor at this
      omega
  | succ fuel ih =>
      unfold advanceCursor
      split_ifs with h
      · refine ih ?_ fun s hs hle => ?_
        · have := above_lt h
          omega
        · rcases Nat.lt_or_ge cursor s with hlt | hle'
          · rwa [show s = cursor + 1 by omega]
          · exact hheld s hs hle'
      · exact ⟨hheld, h⟩

/-- The cursor of an advanced index is the last slot held with no gap before it. -/
theorem HistoryIndex.isGreatest_cursor {index : List HistoryEntry} {cursor : Nat}
    (hheld : ∀ s, 1 ≤ s → s ≤ cursor → Holds index s) :
    IsGreatest {n | ∀ s, 1 ≤ s → s ≤ n → Holds index s}
      (HistoryIndex.advanced index cursor).cursor := by
  obtain ⟨hall, hstop⟩ := advanceCursor_spec (List.length_filter_le _ index) hheld
  refine ⟨hall, fun n hn => ?_⟩
  by_contra hlt
  exact hstop (hn _ (by omega) (by
    have : (HistoryIndex.advanced index cursor).cursor =
      advanceCursor index index.length cursor := rfl
    omega))

end PaxosOdin
