import PaxosOdin.Storage.FileHistory

/-!
# Runs of the file history

A history file under record calls, crashes within them and reopenings, with what the calls gave
and which of them returned kept beside it.

Main results:

- Theorem `historyRun_law`: while every write goes to the end of a whole frame, each slot is
  reported with what a call gave for it, and every slot whose call returned is reported.
- Theorem `historyLaw_torn_record`: after a torn frame a slot is reported that no call gave.
-/

namespace PaxosOdin

open Framing

/-! ## Runs -/

/-- What happens to a history. -/
inductive HistoryAction where
  | open
  | record (e : HistoryEntry)
  /-- A crash that leaves the first `keep` bytes of the frame being written. -/
  | crashRecord (e : HistoryEntry) (keep : Nat)
  /-- A close, or a crash between two calls. -/
  | close
deriving DecidableEq

/-- A history file with what the record calls gave and the slots whose calls returned. -/
structure HistoryWorld where
  file : HistoryFile
  given : List HistoryEntry
  returned : List Nat
deriving DecidableEq

/-- No file yet. -/
def HistoryWorld.initial : HistoryWorld :=
  { file := { bytes := [], live := none }, given := [], returned := [] }

/-- One step. -/
def HistoryWorld.step (w : HistoryWorld) : HistoryAction → HistoryWorld
  | .open => { w with file := w.file.opened }
  | .record e =>
      match w.file.live with
      | none => w
      | some h =>
          { file := (w.file.record h e).1
            given := e :: w.given
            returned := if (w.file.record h e).2 then e.slot :: w.returned else w.returned }
  | .crashRecord e keep =>
      match w.file.live with
      | none => w
      | some h => { w with file := w.file.crashRecord h e keep, given := e :: w.given }
  | .close => { w with file := { w.file with live := none } }

/-- The world after a sequence of steps. -/
def HistoryWorld.run (w : HistoryWorld) (as : List HistoryAction) : HistoryWorld :=
  as.foldl HistoryWorld.step w

/-- A slot that `read` reports. -/
def HistoryIndex.Reports (h : HistoryIndex) (slot : Nat) : Prop :=
  ∃ e ∈ h.read slot 1, e.slot = slot

/-- The crash law in one world, while the history is open: whatever is read is what a call
gave, every slot in the range whose call returned is read, and the cursor is the last slot
reported with no gap before it. -/
def HistoryWorld.Law (w : HistoryWorld) : Prop :=
  ∀ h, w.file.live = some h →
    (∀ first count, ∀ e ∈ h.read first count, e ∈ w.given) ∧
    (∀ slot ∈ w.returned, ∀ first count, first ≤ slot → slot < first + count →
      ∃ e ∈ h.read first count, e.slot = slot) ∧
    IsGreatest {n | ∀ s, 1 ≤ s → s ≤ n → h.Reports s} h.cursor

/-- The file is whole frames. -/
def WholeEntries (bytes : List UInt8) : Prop :=
  ∃ es : List HistoryEntry, (∀ e ∈ es, EntryPacks e) ∧ bytes = framed encodeEntry es

/-- A step that does not meet the defect: a call that writes does so at the end of a whole
frame. -/
def HistoryWorld.Careful (w : HistoryWorld) : HistoryAction → Prop
  | .record e => ∀ h, w.file.live = some h → h.Writes e → WholeEntries w.file.bytes
  | .crashRecord e _ => ∀ h, w.file.live = some h → h.Writes e → WholeEntries w.file.bytes
  | _ => True

/-- Every step of the sequence is careful where it is taken. -/
def HistoryWorld.CarefulRun : HistoryWorld → List HistoryAction → Prop
  | _, [] => True
  | w, a :: as => w.Careful a ∧ CarefulRun (w.step a) as

/-! ## What a careful run leaves in the file -/

/-- The file holds the frames of given entries and a torn one, every returned slot is among
them, and an open index lists them with the cursor as far as it goes. -/
structure HistoryWorld.Laid (w : HistoryWorld) (es : List HistoryEntry) (torn : List UInt8) :
    Prop where
  bytes : w.file.bytes = framed encodeEntry es ++ torn
  packs : ∀ e ∈ es, EntryPacks e
  ragged : Torn encodeEntry EntryPacks torn
  given : ∀ e ∈ es, e ∈ w.given
  returned : ∀ slot ∈ w.returned, ∃ e ∈ es, e.slot = slot
  index : ∀ h, w.file.live = some h → h.index = es.reverse
  cursor : ∀ h, w.file.live = some h →
    IsGreatest {n | ∀ s, 1 ≤ s → s ≤ n → Holds h.index s} h.cursor

variable {w : HistoryWorld} {es : List HistoryEntry} {torn : List UInt8}

theorem HistoryWorld.laid_initial : HistoryWorld.initial.Laid [] [] :=
  { bytes := rfl
    packs := by simp
    ragged := Or.inl rfl
    given := by simp
    returned := by simp [HistoryWorld.initial]
    index := fun _ hlive => by cases hlive
    cursor := fun _ hlive => by cases hlive }

/-- A file of whole frames has no torn one. -/
theorem HistoryWorld.Laid.untorn (h : w.Laid es torn) (hwhole : WholeEntries w.file.bytes) :
    torn = [] := by
  obtain ⟨fs, hpacks, hbytes⟩ := hwhole
  have hload : loadLoop w.file.bytes.length w.file.bytes [] = (es.reverse ++ [], torn) := by
    rw [h.bytes]
    exact loadLoop_framed h.packs h.ragged [] (by rw [List.length_append]; omega)
  have hload' : loadLoop w.file.bytes.length w.file.bytes [] = (fs.reverse ++ [], []) := by
    have hloop : loadLoop _ (framed encodeEntry fs ++ []) [] = _ :=
      loadLoop_framed hpacks (Or.inl rfl) [] le_rfl
    rwa [List.append_nil, ← hbytes] at hloop
  exact congrArg Prod.snd (hload.symm.trans hload')

theorem HistoryIndex.mem_read {h : HistoryIndex} {first count : Nat} {e : HistoryEntry} :
    e ∈ h.read first count ↔
      first ≤ e.slot ∧ e.slot < first + count ∧ h.get e.slot = some e := by
  unfold HistoryIndex.read
  rw [List.mem_filterMap]
  constructor
  · rintro ⟨slot, hslot, hget⟩
    obtain rfl : e.slot = slot := by simpa using List.find?_some hget
    rw [List.mem_range'_1] at hslot
    exact ⟨hslot.1, hslot.2, hget⟩
  · rintro ⟨hfirst, hlast, hget⟩
    exact ⟨e.slot, List.mem_range'_1.mpr ⟨hfirst, hlast⟩, hget⟩

/-- A slot is read exactly when the index holds it. -/
theorem HistoryIndex.exists_read {h : HistoryIndex} {first count slot : Nat} (hfirst : first ≤ slot)
    (hlast : slot < first + count) :
    (∃ e ∈ h.read first count, e.slot = slot) ↔ Holds h.index slot := by
  constructor
  · rintro ⟨e, he, rfl⟩
    exact Option.isSome_iff_exists.mpr ⟨e, (HistoryIndex.mem_read.mp he).2.2⟩
  · intro hheld
    obtain ⟨e, he⟩ := Option.isSome_iff_exists.mp hheld
    obtain rfl : e.slot = slot := by simpa using List.find?_some he
    exact ⟨e, HistoryIndex.mem_read.mpr ⟨hfirst, hlast, he⟩, rfl⟩

theorem HistoryWorld.Laid.law (h : w.Laid es torn) : w.Law := by
  intro hist hlive
  have hindex := h.index hist hlive
  refine ⟨fun first count e he => ?_, fun slot hslot first count hfirst hlast => ?_, ?_⟩
  · have hmem := List.mem_of_find?_eq_some (HistoryIndex.mem_read.mp he).2.2
    rw [hindex, List.mem_reverse] at hmem
    exact h.given e hmem
  · obtain ⟨e, he, heslot⟩ := h.returned slot hslot
    rw [HistoryIndex.exists_read hfirst hlast, hindex]
    exact holds_iff.mpr ⟨e, List.mem_reverse.mpr he, heslot⟩
  · have hsame : ∀ s, hist.Reports s ↔ Holds hist.index s := fun s =>
      HistoryIndex.exists_read le_rfl (Nat.lt_succ_self s)
    simp only [hsame]
    exact h.cursor hist hlive

/-! ## One careful step -/

theorem HistoryWorld.Laid.opened (h : w.Laid es torn) : (w.step .open).Laid es torn := by
  have hload : (loadLoop w.file.bytes.length w.file.bytes []).1 = es.reverse := by
    rw [h.bytes, loadLoop_framed h.packs h.ragged [] (by rw [List.length_append]; omega),
      List.append_nil]
  have hopen : loadHistory w.file.bytes = HistoryIndex.advanced es.reverse 0 := by
    unfold loadHistory
    rw [hload]
  refine { h with index := ?_, cursor := ?_ }
  · rintro hist hlive
    obtain rfl : loadHistory w.file.bytes = hist := Option.some.inj hlive
    rw [hopen]
    rfl
  · rintro hist hlive
    obtain rfl : loadHistory w.file.bytes = hist := Option.some.inj hlive
    rw [hopen]
    exact HistoryIndex.isGreatest_cursor (by omega)

/-- The file after a frame is written, whole or torn. -/
theorem HistoryWorld.Laid.written (h : w.Laid es []) {e : HistoryEntry} (hpacks : EntryPacks e)
    {w' : HistoryWorld} (hbytes : w'.file.bytes = w.file.bytes ++ encodeEntry e)
    (hgiven : w'.given = e :: w.given)
    (hreturned : ∀ slot ∈ w'.returned, slot = e.slot ∨ slot ∈ w.returned)
    (hlive : ∀ hist, w'.file.live = some hist → ∃ before, w.file.live = some before ∧
      hist = HistoryIndex.advanced (e :: before.index) before.cursor) :
    w'.Laid (es ++ [e]) [] :=
  { bytes := by
      rw [hbytes, h.bytes]
      simp
    packs := by
      intro x hx
      rcases List.mem_append.mp hx with hx | hx
      · exact h.packs x hx
      · rwa [List.mem_singleton.mp hx]
    ragged := Or.inl rfl
    given := by
      intro x hx
      rw [hgiven]
      rcases List.mem_append.mp hx with hx | hx
      · exact List.mem_cons_of_mem _ (h.given x hx)
      · rw [List.mem_singleton.mp hx]
        exact List.mem_cons_self
    returned := by
      intro slot hslot
      rcases hreturned slot hslot with rfl | hslot
      · exact ⟨e, by simp, rfl⟩
      · obtain ⟨x, hx, hxslot⟩ := h.returned slot hslot
        exact ⟨x, List.mem_append_left _ hx, hxslot⟩
    index := by
      intro hist hhist
      obtain ⟨before, hbefore, rfl⟩ := hlive hist hhist
      have hindex := h.index before hbefore
      simp [HistoryIndex.advanced, hindex]
    cursor := by
      intro hist hhist
      obtain ⟨before, hbefore, rfl⟩ := hlive hist hhist
      refine HistoryIndex.isGreatest_cursor fun s hs hle => ?_
      have hheld := (h.cursor before hbefore).1 s hs hle
      obtain ⟨x, hx, hxslot⟩ := holds_iff.mp hheld
      exact holds_iff.mpr ⟨x, List.mem_cons_of_mem _ hx, hxslot⟩ }

theorem HistoryWorld.Laid.record (h : w.Laid es torn) {hist : HistoryIndex} {e : HistoryEntry}
    (hlive : w.file.live = some hist) (hcareful : w.Careful (.record e)) :
    ∃ es torn, (w.step (.record e)).Laid es torn := by
  simp only [HistoryWorld.step, hlive, HistoryFile.record]
  by_cases hheld : (hist.get e.slot).isSome
  · simp only [if_pos hheld, if_true]
    refine ⟨es, torn, { h with given := ?_, returned := ?_ }⟩
    · exact fun x hx => List.mem_cons_of_mem _ (h.given x hx)
    · intro slot hslot
      rcases List.mem_cons.mp hslot with rfl | hslot
      · have hindex : Holds es.reverse e.slot := by
          rw [← h.index hist hlive]
          exact hheld
        obtain ⟨x, hx, hxslot⟩ := holds_iff.mp hindex
        exact ⟨x, List.mem_reverse.mp hx, hxslot⟩
      · exact h.returned slot hslot
  · by_cases hpacks : EntryPacks e
    · simp only [if_neg hheld, if_pos hpacks, if_true]
      have hwrites : hist.Writes e := ⟨Option.not_isSome_iff_eq_none.mp hheld, hpacks⟩
      obtain rfl := h.untorn (hcareful hist hlive hwrites)
      refine ⟨_, _, h.written hpacks rfl rfl (fun slot hslot => List.mem_cons.mp hslot) ?_⟩
      exact fun after hafter => ⟨hist, hlive, (Option.some.inj hafter).symm⟩
    · simp only [if_neg hheld, if_neg hpacks]
      exact ⟨es, torn, { h with given := fun x hx => List.mem_cons_of_mem _ (h.given x hx) }⟩

/-- A crash leaves a whole frame or a torn one. -/
theorem HistoryWorld.Laid.crashRecord (h : w.Laid es torn) {hist : HistoryIndex}
    {e : HistoryEntry} (hlive : w.file.live = some hist) (keep : Nat)
    (hcareful : w.Careful (.crashRecord e keep)) :
    ∃ es torn, (w.step (.crashRecord e keep)).Laid es torn := by
  simp only [HistoryWorld.step, hlive, HistoryFile.crashRecord]
  by_cases hwrites : hist.Writes e
  · obtain rfl := h.untorn (hcareful hist hlive hwrites)
    simp only [if_pos hwrites]
    by_cases hkeep : keep < (encodeEntry e).length
    · exact ⟨es, (encodeEntry e).take keep,
        { bytes := by rw [h.bytes, List.append_nil]
          packs := h.packs
          ragged := Or.inr ⟨e, keep, hwrites.2, hkeep, rfl⟩
          given := fun x hx => List.mem_cons_of_mem _ (h.given x hx)
          returned := h.returned
          index := fun _ hopen => by cases hopen
          cursor := fun _ hopen => by cases hopen }⟩
    · refine ⟨_, _, h.written hwrites.2 ?_ rfl (fun slot hslot => Or.inr hslot) ?_⟩
      · rw [List.take_of_length_le (by omega)]
      · exact fun _ hopen => by cases hopen
  · simp only [if_neg hwrites]
    exact ⟨es, torn,
      { h with
        given := fun x hx => List.mem_cons_of_mem _ (h.given x hx)
        index := fun _ hopen => by cases hopen
        cursor := fun _ hopen => by cases hopen }⟩

theorem HistoryWorld.Laid.step (h : w.Laid es torn) {a : HistoryAction} (hcareful : w.Careful a) :
    ∃ es torn, (w.step a).Laid es torn := by
  cases a with
  | «open» => exact ⟨es, torn, h.opened⟩
  | record e =>
      cases hlive : w.file.live with
      | none =>
          simp only [HistoryWorld.step, hlive]
          exact ⟨es, torn, h⟩
      | some hist => exact h.record hlive hcareful
  | crashRecord e keep =>
      cases hlive : w.file.live with
      | none =>
          simp only [HistoryWorld.step, hlive]
          exact ⟨es, torn, h⟩
      | some hist => exact h.crashRecord hlive keep hcareful
  | close =>
      exact ⟨es, torn,
        { h with
          index := fun _ hopen => by cases hopen
          cursor := fun _ hopen => by cases hopen }⟩

/-- What a careful run keeps. -/
theorem HistoryWorld.Laid.run (h : w.Laid es torn) {as : List HistoryAction}
    (hcareful : w.CarefulRun as) : ∃ es torn, (w.run as).Laid es torn := by
  induction as generalizing w es torn with
  | nil => exact ⟨es, torn, h⟩
  | cons a as ih =>
      obtain ⟨_, _, hstep⟩ := h.step hcareful.1
      exact ih hstep hcareful.2

/-! ## The crash law -/

/-- In every careful run whatever is read is what a call gave, every slot whose call returned
is read, and the cursor is the last slot reported with no gap before it. -/
theorem historyRun_law (as : List HistoryAction)
    (hcareful : HistoryWorld.initial.CarefulRun as) : (HistoryWorld.initial.run as).Law := by
  obtain ⟨es, torn, h⟩ := HistoryWorld.laid_initial.run hcareful
  exact h.law

/-- Two openings with a torn frame between them and nothing written after it. -/
theorem historyRun_law_torn :
    (HistoryWorld.initial.run
      [.open, .record ⟨1, [7], 1⟩, .crashRecord ⟨2, [7], 1⟩ 5, .open, .record ⟨1, [8], 1⟩]).Law := by
  refine historyRun_law _ ⟨trivial, fun _ _ _ => ⟨[], ?_, ?_⟩,
    fun _ _ _ => ⟨[⟨1, [7], 1⟩], ?_, ?_⟩, trivial, fun h hlive hwrites => ?_, trivial⟩
  · decide
  · decide +kernel
  · decide +kernel
  · decide +kernel
  · obtain rfl : loadHistory _ = h := Option.some.inj hlive
    refine absurd hwrites.1 ?_
    decide +kernel

/-- A slot that is reported with a payload no call gave: the frame written after a torn one
fills it up. -/
theorem historyLaw_torn_record :
    ¬ (HistoryWorld.initial.run
      [.open, .record ⟨1, [7], 1⟩, .crashRecord ⟨2, [7, 7, 7, 7], 1⟩ 14, .open,
        .record ⟨2, [9], 1⟩, .close, .open]).Law := by
  generalize hw : HistoryWorld.initial.run _ = w
  have hgiven : w.given = [⟨2, [9], 1⟩, ⟨2, [7, 7, 7, 7], 1⟩, ⟨1, [7], 1⟩] := by
    rw [← hw]
    decide +kernel
  have hread : ∃ h, w.file.live = some h ∧ (⟨2, [7, 0, 0, 0], 1⟩ : HistoryEntry) ∈ h.read 2 1 := by
    refine ⟨loadHistory w.file.bytes, ?_, ?_⟩
    · rw [← hw]
      decide +kernel
    · rw [← hw]
      decide +kernel
  obtain ⟨h, hlive, hmem⟩ := hread
  intro hlaw
  have hall := (hlaw h hlive).1 2 1 _ hmem
  rw [hgiven] at hall
  simp at hall

end PaxosOdin
