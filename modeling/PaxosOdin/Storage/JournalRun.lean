import PaxosOdin.Storage.FileJournal

/-!
# Runs of the file journal

A journal file under appends, syncs, crashes and reopenings, with a register of every record
ever appended beside it: where its frame ends, and whether a completed sync covered it.

Main results:

- Theorem `journalRun_law`: while every append goes to the end of a whole frame and carries no
  stop sign, no sync is skipped over records it should cover and no crash cuts the header, each
  replay returns every synced record and otherwise only appended ones, in order.
- Theorem `journalLaw_torn_append`: an append after a torn frame hides a synced record.
-/

namespace PaxosOdin

open Framing

/-! ## Runs -/

/-- What happens to a journal. -/
inductive JournalAction where
  | open
  | append (records : List WriteRecord)
  | sync
  | close
  | crash (keep : Nat)
  /-- A crash between the write of a new header and its sync. -/
  | crashOpening (keep : Nat)
deriving DecidableEq

/-- A journal file with the register of the records appended to it. -/
structure JournalWorld where
  file : JournalFile
  appended : List (Appended WriteRecord)
deriving DecidableEq

/-- No file yet. -/
def JournalWorld.initial : JournalWorld :=
  { file := { durable := [], later := [], synced := none }, appended := [] }

/-- The world after a sync that completes: it covers every record that is in the file, those
of earlier openings too, whatever `sync` did for them. -/
def JournalWorld.syncedAll (w : JournalWorld) : JournalWorld :=
  if w.file.synced = none then w
  else { file := w.file.sync, appended := w.appended.map Appended.cover }

/-- The world after a crash that leaves `file`. -/
def JournalWorld.crashed (w : JournalWorld) (file : JournalFile) : JournalWorld :=
  { file := file, appended := w.appended.map (Appended.cut file.content.length) }

/-- One step.  An operation that raises changes nothing. -/
def JournalWorld.step (id : JournalIdentity) (w : JournalWorld) : JournalAction → JournalWorld
  | .open => { w with file := (w.file.opened id).1 }
  | .append records =>
      match w.file.append records with
      | (_, some _) => w
      | (file, none) =>
          { file := file
            appended := w.appended ++ appendedAt encodeRecord w.file.content.length records }
  | .sync => w.syncedAll
  | .close => { w.syncedAll with file := w.file.close }
  | .crash keep => w.crashed (w.file.crash keep)
  | .crashOpening keep => w.crashed (w.file.crashOpening id keep)

/-- The world after a sequence of steps. -/
def JournalWorld.run (id : JournalIdentity) (w : JournalWorld) (as : List JournalAction) :
    JournalWorld :=
  as.foldl (JournalWorld.step id) w

/-- The crash law in one world: the journal opens, and while it is open its replay returns
every record that a completed sync covered and otherwise only appended ones, in order. -/
def JournalWorld.Law (id : JournalIdentity) (w : JournalWorld) : Prop :=
  (w.file.opened id).2 = none ∧
    (w.file.synced ≠ none → ∃ rs, w.file.replay = .ok rs ∧ Retains (marks w.appended) rs)

/-- The file is its header and whole frames. -/
def Whole (id : JournalIdentity) (content : List UInt8) : Prop :=
  ∃ rs : List WriteRecord, (∀ r ∈ rs, Packs r) ∧
    content = journalHeader id ++ framed encodeRecord rs

/-- The file has no header or all of it. -/
def HeaderWhole (f : JournalFile) : Prop :=
  f.content.length = 0 ∨ headerSize ≤ f.content.length

instance (f : JournalFile) : Decidable (HeaderWhole f) := by
  unfold HeaderWhole
  infer_instance

/-- A step that does not meet the defects: an append goes to the end of a whole frame and no
record of it carries a stop sign, no sync finds its flag up while the file holds a record that
only survived a crash, and a crash does not cut the header. -/
def JournalWorld.Careful (id : JournalIdentity) (w : JournalWorld) : JournalAction → Prop
  | .open => True
  | .append records =>
      records ≠ [] → Whole id w.file.content ∧ ∀ r ∈ records, r.entry.stopSign = none
  | .sync | .close => w.file.synced = some true → ∀ e ∈ w.appended, e.fate ≠ .written
  | .crash keep => HeaderWhole (w.file.crash keep)
  | .crashOpening keep => HeaderWhole (w.file.crashOpening id keep)

/-- Every step of the sequence is careful where it is taken. -/
def JournalWorld.CarefulRun (id : JournalIdentity) : JournalWorld → List JournalAction → Prop
  | _, [] => True
  | w, a :: as => w.Careful id a ∧ CarefulRun id (w.step id a) as

/-! ## The header -/

theorem journalHeader_length (id : JournalIdentity) : (journalHeader id).length = headerSize := by
  simp only [journalHeader, List.length_append, packUInt_length]
  rfl

/-- A journal accepts the header it wrote. -/
theorem checkHeader_journalHeader (id : JournalIdentity) (back : List UInt8) :
    checkHeader id (journalHeader id ++ back) = none := by
  have hraw : (journalHeader id ++ back).take headerSize = journalHeader id := by
    rw [← journalHeader_length id]
    exact List.take_left
  have hmagic : (journalHeader id).take 4 = journalMagic := rfl
  have hformat : journalFormat < 256 ^ 2 := by decide
  have hword (offset width : Nat) (h : 4 ≤ offset) :
      wordAt (journalHeader id) offset width =
        wordAt (packUInt 2 journalFormat ++ (packUInt 2 id.nodeId ++
          (packUInt 8 id.configurationId ++ (packUInt 8 id.fingerprint ++ [])))) (offset - 4) width := by
    unfold wordAt journalHeader
    rw [List.drop_append, List.drop_eq_nil_of_le (by exact h), List.nil_append, List.append_nil]
    rfl
  have hnode : wordAt (journalHeader id) 6 2 = id.nodeId := by
    rw [hword 6 2 (by decide), wordAt_skip (by decide), wordAt_head id.nodeId_lt]
  have hconfiguration : wordAt (journalHeader id) 8 8 = id.configurationId := by
    rw [hword 8 8 (by decide), wordAt_skip (by decide), wordAt_skip (by decide),
      wordAt_head id.configurationId_lt]
  have hprofile : wordAt (journalHeader id) 16 8 = id.fingerprint := by
    rw [hword 16 8 (by decide), wordAt_skip (by decide), wordAt_skip (by decide),
      wordAt_skip (by decide), wordAt_head id.fingerprint_lt]
  unfold checkHeader
  simp only [hraw, journalHeader_length, hmagic, hnode, hconfiguration, hprofile,
    hword 4 2 (by decide), wordAt_head hformat]
  simp

/-! ## What a careful run leaves in the file -/

/-- The file holds its header and the records that stand, with a torn frame at its end; no
byte of a covered record can be cut. -/
structure JournalWorld.Laid (id : JournalIdentity) (w : JournalWorld) (torn : List UInt8) :
    Prop where
  content : w.file.content =
    journalHeader id ++ (framed encodeRecord (standing w.appended) ++ torn)
  placed : Positioned encodeRecord headerSize w.appended
  held : ∀ e ∈ w.appended, e.fate = .covered → e.stop ≤ w.file.durable.length
  packs : ∀ r ∈ standing w.appended, Packs r
  plain : ∀ r ∈ standing w.appended, r.entry.stopSign = none
  ragged : Torn encodeRecord Packs torn

/-- Nothing is in the file, and nothing that was written to it stands. -/
structure JournalWorld.Vacant (w : JournalWorld) : Prop where
  shut : w.file.synced = none
  content : w.file.content = []
  gone : ∀ e ∈ w.appended, e.fate = .lost

/-- The file is empty and shut, or it is laid out. -/
def JournalWorld.Intact (id : JournalIdentity) (w : JournalWorld) : Prop :=
  w.Vacant ∨ ∃ torn, w.Laid id torn

variable {id : JournalIdentity} {w : JournalWorld} {torn : List UInt8}

/-- The scan of a file that holds whole frames and a torn one. -/
theorem scanJournal_framed {rs : List WriteRecord} (hpacks : ∀ r ∈ rs, Packs r)
    (htorn : Torn encodeRecord Packs torn) :
    scanJournal (journalHeader id ++ (framed encodeRecord rs ++ torn)) =
      ⟨rs.map WriteRecord.inlined, torn, none⟩ := by
  unfold scanJournal
  rw [← journalHeader_length id, List.drop_left]
  exact replayLoop_framed hpacks htorn 0 (by rw [List.length_append]; omega)

/-- A file of whole frames has no torn one. -/
theorem JournalWorld.Laid.untorn (h : w.Laid id torn) (hwhole : Whole id w.file.content) :
    torn = [] := by
  obtain ⟨rs, hpacks, hcontent⟩ := hwhole
  have hscan : scanJournal w.file.content = _ :=
    (congrArg scanJournal h.content).trans (scanJournal_framed h.packs h.ragged)
  have hscan' : scanJournal (journalHeader id ++ (framed encodeRecord rs ++ [])) = _ :=
    scanJournal_framed hpacks (Or.inl rfl)
  rw [List.append_nil, ← hcontent, hscan] at hscan'
  exact congrArg JournalScan.unread hscan'

/-- A frame carries all of a record without a stop sign. -/
theorem inlined_of_plain {r : WriteRecord} (h : r.entry.stopSign = none) : r.inlined = r := by
  unfold WriteRecord.inlined
  rw [← h]

theorem JournalWorld.Laid.content_length (h : w.Laid id torn) :
    w.file.content.length =
      headerSize + ((framed encodeRecord (standing w.appended)).length + torn.length) := by
  rw [h.content, List.length_append, List.length_append, journalHeader_length]

theorem JournalWorld.Laid.law (h : w.Laid id torn) : w.Law id := by
  have hcontent := h.content
  constructor
  · unfold JournalFile.opened
    split
    · rfl
    · rw [hcontent, checkHeader_journalHeader]
      split_ifs <;> rfl
  · intro hopen
    refine ⟨standing w.appended, ?_, Retains.standing w.appended⟩
    have hplain : (standing w.appended).map WriteRecord.inlined = standing w.appended := by
      refine (List.map_congr_left fun r hr => ?_).trans (List.map_id _)
      exact inlined_of_plain (h.plain r hr)
    obtain ⟨flag, hflag⟩ := Option.ne_none_iff_exists'.mp hopen
    unfold JournalFile.replay
    rw [hflag, hcontent, scanJournal_framed h.packs h.ragged, hplain]

theorem JournalWorld.Intact.law (h : w.Intact id) : w.Law id := by
  rcases h with h | ⟨torn, h⟩
  · refine ⟨?_, fun hopen => absurd h.shut hopen⟩
    unfold JournalFile.opened
    rw [h.shut, h.content]
    rfl
  · exact h.law

/-! ## One careful step -/

/-- Opening changes nothing in a file that has its header. -/
theorem JournalWorld.Laid.opened (h : w.Laid id torn) : (w.step id .open).Laid id torn := by
  cases hs : w.file.synced with
  | some flag =>
      have hsame : w.file.opened id = (w.file, none) := by
        unfold JournalFile.opened
        rw [hs]
      simp only [JournalWorld.step, hsame]
      exact h
  | none =>
      have hlen : w.file.content.length > 0 := by
        rw [h.content_length]
        unfold headerSize
        omega
      have hflag : w.file.opened id = ({ w.file with synced := some true }, none) := by
        unfold JournalFile.opened
        rw [hs]
        simp only [if_pos hlen]
        rw [h.content, checkHeader_journalHeader]
      simp only [JournalWorld.step, hflag]
      exact { h with }

/-- A sync that completes covers every record in the file. -/
theorem JournalWorld.Laid.syncedAll (h : w.Laid id torn) (hcareful : w.Careful id .sync) :
    w.syncedAll.Laid id torn := by
  unfold JournalWorld.syncedAll
  split_ifs with hs
  · exact h
  obtain ⟨flag, hflag⟩ := Option.ne_none_iff_exists'.mp hs
  cases flag with
  | true =>
      -- `sync` returns at once, and there is no record for it to cover
      have hcover : w.appended.map Appended.cover = w.appended := by
        refine (List.map_congr_left fun e he => ?_).trans (List.map_id _)
        exact Appended.cover_of_ne (hcareful hflag e he)
      have hsync : w.file.sync = w.file := by
        unfold JournalFile.sync
        rw [hflag]
      rw [hcover, hsync]
      exact h
  | false =>
      have hsync : w.file.sync =
          { durable := w.file.durable ++ w.file.later, later := [], synced := some true } := by
        unfold JournalFile.sync
        rw [hflag]
      rw [hsync]
      refine
        { content := ?_
          placed := h.placed.cover
          held := ?_
          packs := by simpa using h.packs
          plain := by simpa using h.plain
          ragged := h.ragged }
      · rw [standing_cover, ← h.content]
        exact List.append_nil _
      · intro e he hcovered
        obtain ⟨x, hx, rfl⟩ := List.mem_map.mp he
        have hlost : x.fate ≠ .lost := by
          intro hlost
          rw [x.cover_lost.mpr hlost] at hcovered
          cases hcovered
        have hstop := (h.placed.stop_mem hx hlost).2
        have hall : w.file.content.length = (w.file.durable ++ w.file.later).length := rfl
        rw [h.content_length] at hall
        rw [x.cover_stop, ← hall]
        omega

theorem JournalWorld.syncedAll_file (w : JournalWorld) : w.syncedAll.file = w.file.sync := by
  unfold JournalWorld.syncedAll
  split_ifs with hs
  · unfold JournalFile.sync
    rw [hs]
  · rfl

theorem JournalWorld.Laid.close (h : w.Laid id torn) (hcareful : w.Careful id .close) :
    (w.step id .close).Laid id torn := by
  have hclosed := h.syncedAll hcareful
  have hfile : w.file.close = { w.syncedAll.file with synced := none } := by
    rw [w.syncedAll_file]
    rfl
  simp only [JournalWorld.step, hfile]
  exact { hclosed with }

/-- What a crash leaves in the file. -/
theorem JournalFile.crash_content (f : JournalFile) (keep : Nat) :
    (f.crash keep).content = f.content.take (f.durable.length + keep) := by
  unfold JournalFile.crash JournalFile.content
  rw [List.take_length_add_append]

/-- A crash that leaves the header leaves the records that stand after it and a torn frame; one
that does not leaves nothing. -/
theorem JournalWorld.Laid.crash (h : w.Laid id torn) {keep : Nat}
    (hheader : HeaderWhole (w.file.crash keep)) :
    (w.crashed (w.file.crash keep)).Intact id := by
  have hcontent := w.file.crash_content keep
  have hlength : (w.file.crash keep).content.length =
      min (w.file.durable.length + keep) w.file.content.length := by
    rw [hcontent, List.length_take]
  have hdurable : w.file.durable.length ≤ w.file.content.length := by
    unfold JournalFile.content
    rw [List.length_append]
    omega
  have hheld : ∀ e ∈ w.appended, e.fate = .covered →
      e.stop ≤ (w.file.crash keep).content.length := by
    intro e he hcovered
    have hle := h.held e he hcovered
    omega
  rcases hheader with hnone | hwhole
  · left
    refine ⟨rfl, List.eq_nil_of_length_eq_zero hnone, ?_⟩
    exact h.placed.cut_all (by rw [hnone]; decide) hheld
  · right
    obtain ⟨n, hn⟩ : ∃ n, (w.file.crash keep).content.length = headerSize + n :=
      ⟨_, (Nat.add_sub_of_le hwhole).symm⟩
    obtain ⟨hplaced, torn', htorn', htake⟩ := h.placed.take h.packs h.ragged (n := n) (by rwa [← hn])
    have hsub := standing_cut_subset (headerSize + n) w.appended
    have hreach : w.file.durable.length + keep = headerSize + n ∨
        w.file.content.length = headerSize + n := by omega
    refine ⟨torn', ?_⟩
    unfold JournalWorld.crashed
    rw [hn]
    refine
      { content := ?_
        placed := hplaced
        held := ?_
        packs := fun r hr => h.packs r (hsub hr)
        plain := fun r hr => h.plain r (hsub hr)
        ragged := htorn' }
    · have hcut : (w.file.crash keep).content = w.file.content.take (headerSize + n) := by
        rw [hcontent]
        rcases hreach with hreach | hreach
        · rw [hreach]
        · rw [List.take_of_length_le (by omega), List.take_of_length_le (by omega)]
      rw [hcut, h.content, ← journalHeader_length id, List.take_length_add_append, htake,
        journalHeader_length]
    · intro e he hcovered
      obtain ⟨x, hx, rfl⟩ := List.mem_map.mp he
      have hsame : x.cut (headerSize + n) = x := Appended.cut_eq (by simp [hcovered])
      rw [hsame] at hcovered ⊢
      exact h.held x hx hcovered

/-- An append to the end of a whole frame. -/
theorem JournalWorld.Laid.append (h : w.Laid id torn) {records : List WriteRecord}
    (hcareful : w.Careful id (.append records)) : (w.step id (.append records)).Laid id torn := by
  by_cases hnil : records = []
  · subst hnil
    simpa [JournalWorld.step, JournalFile.append, appendedAt] using h
  obtain ⟨hwhole, hplain⟩ := hcareful hnil
  obtain rfl := h.untorn hwhole
  cases hs : w.file.synced with
  | none => simpa [JournalWorld.step, JournalFile.append, hnil, hs] using h
  | some flag =>
      by_cases hpacks : ∀ r ∈ records, Packs r
      · simp only [JournalWorld.step, JournalFile.append, if_neg hnil, hs, if_pos hpacks]
        have hend : w.file.content.length =
            headerSize + (framed encodeRecord (standing w.appended)).length := by
          rw [h.content_length, List.length_nil, Nat.add_zero]
        refine
          { content := ?_
            placed := ?_
            held := ?_
            packs := ?_
            plain := ?_
            ragged := Or.inl rfl }
        · have hcontent := h.content
          rw [List.append_nil] at hcontent
          rw [standing_append, standing_appendedAt, framed_append, List.append_nil,
            ← List.append_assoc, ← hcontent]
          exact (List.append_assoc _ _ _).symm
        · rw [hend]
          exact h.placed.append (positioned_appendedAt _ _ _)
        · intro e he hcovered
          rcases List.mem_append.mp he with he | he
          · exact h.held e he hcovered
          · rw [fate_of_mem_appendedAt he] at hcovered
            cases hcovered
        · rw [standing_append, standing_appendedAt]
          exact List.forall_mem_append.mpr ⟨h.packs, hpacks⟩
        · rw [standing_append, standing_appendedAt]
          exact List.forall_mem_append.mpr ⟨h.plain, hplain⟩
      · simpa only [JournalWorld.step, JournalFile.append, if_neg hnil, hs, if_neg hpacks] using h

/-- What one careful step keeps of a laid-out file. -/
theorem JournalWorld.Laid.step (h : w.Laid id torn) {a : JournalAction}
    (hcareful : w.Careful id a) : (w.step id a).Intact id := by
  cases a with
  | «open» => exact Or.inr ⟨_, h.opened⟩
  | append records => exact Or.inr ⟨_, h.append hcareful⟩
  | sync => exact Or.inr ⟨_, h.syncedAll hcareful⟩
  | close => exact Or.inr ⟨_, h.close hcareful⟩
  | crash keep => exact h.crash hcareful
  | crashOpening keep =>
      have hlen : w.file.content.length ≠ 0 := by
        rw [h.content_length]
        unfold headerSize
        omega
      have hsame : w.file.crashOpening id keep = w.file.crash keep :=
        if_neg fun hempty => hlen hempty.2
      simp only [JournalWorld.Careful, JournalWorld.step, hsame] at hcareful ⊢
      exact h.crash hcareful

/-- A file that has just been given its header, with nothing of what was written before. -/
theorem JournalWorld.Vacant.headed (h : w.Vacant) {file : JournalFile}
    (hcontent : file.content = journalHeader id) :
    ({ w with file := file } : JournalWorld).Laid id [] := by
  have hnone : standing w.appended = [] := standing_eq_nil h.gone
  refine
    { content := by simp [hcontent, hnone]
      placed := positioned_of_lost h.gone
      held := ?_
      packs := by simp [hnone]
      plain := by simp [hnone]
      ragged := Or.inl rfl }
  intro e he hcovered
  rw [h.gone e he] at hcovered
  cases hcovered

/-- A crash takes nothing more from what is lost. -/
theorem JournalWorld.Vacant.crashed (h : w.Vacant) (file : JournalFile) :
    w.crashed file = { w with file := file } := by
  have hsame : w.appended.map (Appended.cut file.content.length) = w.appended := by
    refine (List.map_congr_left fun e he => ?_).trans (List.map_id _)
    exact Appended.cut_of_ne (by simp [h.gone e he])
  unfold JournalWorld.crashed
  rw [hsame]

/-- What one careful step keeps of an empty file. -/
theorem JournalWorld.Vacant.step (h : w.Vacant) {a : JournalAction}
    (hcareful : w.Careful id a) : (w.step id a).Intact id := by
  have hshut := h.shut
  have hlen : w.file.content.length = 0 := by rw [h.content, List.length_nil]
  have hdurable : w.file.durable = [] := (List.append_eq_nil_iff.mp h.content).1
  cases a with
  | «open» =>
      have hopened : w.file.opened id =
          ({ w.file.headed id with durable := journalHeader id, later := [] }, none) := by
        unfold JournalFile.opened
        rw [hshut]
        exact if_neg (by rw [hlen]; decide)
      simp only [JournalWorld.step, hopened]
      exact Or.inr ⟨[], h.headed (List.append_nil _)⟩
  | append records =>
      left
      by_cases hnil : records = []
      · subst hnil
        simpa [JournalWorld.step, JournalFile.append, appendedAt] using h
      · simpa [JournalWorld.step, JournalFile.append, hnil, hshut] using h
  | sync =>
      left
      simpa [JournalWorld.step, JournalWorld.syncedAll, hshut] using h
  | close =>
      left
      have hsync : w.file.sync = w.file := by
        unfold JournalFile.sync
        rw [hshut]
      have hclose : w.file.close = w.file := by
        unfold JournalFile.close
        rw [hsync, ← hshut]
      simpa [JournalWorld.step, JournalWorld.syncedAll, hshut, hclose] using h
  | crash keep =>
      left
      simp only [JournalWorld.step, h.crashed]
      refine ⟨rfl, ?_, h.gone⟩
      rw [w.file.crash_content keep, h.content, List.take_nil]
  | crashOpening keep =>
      have hfile : w.file.crashOpening id keep = (w.file.headed id).crash keep :=
        if_pos ⟨hshut, hlen⟩
      have hcontent : ((w.file.headed id).crash keep).content = (journalHeader id).take keep := by
        simp [JournalFile.crash, JournalFile.headed, JournalFile.content, hdurable]
      simp only [JournalWorld.Careful, JournalWorld.step, hfile, h.crashed] at hcareful ⊢
      rcases hcareful with hnone | hwhole
      · exact Or.inl ⟨rfl, List.eq_nil_of_length_eq_zero hnone, h.gone⟩
      · refine Or.inr ⟨[], h.headed (hcontent.trans ?_)⟩
        rw [hcontent, List.length_take] at hwhole
        have hfull := journalHeader_length id
        exact List.take_of_length_le (by omega)

theorem JournalWorld.Intact.step (h : w.Intact id) {a : JournalAction} (hcareful : w.Careful id a) :
    (w.step id a).Intact id := by
  rcases h with h | ⟨torn, h⟩
  · exact h.step hcareful
  · exact h.step hcareful

/-- What a careful run keeps. -/
theorem JournalWorld.Intact.run (h : w.Intact id) {as : List JournalAction}
    (hcareful : w.CarefulRun id as) : (w.run id as).Intact id := by
  induction as generalizing w with
  | nil => exact h
  | cons a as ih => exact ih (h.step hcareful.1) hcareful.2

theorem JournalWorld.vacant_initial : JournalWorld.initial.Vacant :=
  ⟨rfl, rfl, fun e he => by cases he⟩

/-! ## The crash law -/

/-- In every careful run the journal opens, and each replay returns every record that a
completed sync covered and otherwise only appended ones, in order. -/
theorem journalRun_law (id : JournalIdentity) (as : List JournalAction)
    (hcareful : JournalWorld.initial.CarefulRun id as) : (JournalWorld.initial.run id as).Law id :=
  (JournalWorld.Intact.run (Or.inl JournalWorld.vacant_initial) hcareful).law

/-- The member of the runs below. -/
def exampleIdentity : JournalIdentity :=
  { nodeId := 1
    configurationId := 1
    fingerprint := 7
    nodeId_lt := by decide
    configurationId_lt := by decide
    fingerprint_lt := by decide }

/-- A vote for a command of `size` bytes in `slot`. -/
def exampleVote (slot : UInt64) (size : Nat) : WriteRecord :=
  { kind := .vote
    ballot := 1
    slot := slot
    trimId := 0
    trimSlot := 0
    entry := { kind := .command, body := List.replicate size 0 }
    requiresBarrier := true }

/-- Three openings: the second finds a vote that survived a crash and syncs it along with its
own, and a torn frame is left behind for the third, which appends nothing. -/
theorem journalRun_law_torn :
    (JournalWorld.initial.run exampleIdentity
      [.open, .append [exampleVote 1 1], .sync, .append [exampleVote 2 1], .crash 49, .open,
        .append [exampleVote 3 1], .sync, .append [exampleVote 4 1], .crash 20, .open]).Law
        exampleIdentity := by
  refine journalRun_law exampleIdentity _ ⟨trivial, fun _ => ⟨⟨[], ?_, ?_⟩, ?_⟩,
    fun hup => absurd hup ?_, fun _ => ⟨⟨[exampleVote 1 1], ?_, ?_⟩, ?_⟩, Or.inr ?_, trivial,
    fun _ => ⟨⟨[exampleVote 1 1, exampleVote 2 1], ?_, ?_⟩, ?_⟩, fun hup => absurd hup ?_,
    fun _ => ⟨⟨[exampleVote 1 1, exampleVote 2 1, exampleVote 3 1], ?_, ?_⟩, ?_⟩, Or.inr ?_,
    trivial, trivial⟩
  all_goals decide +kernel

/-- A synced vote that replay misses: it was appended after the torn frame of a longer one. -/
theorem journalLaw_torn_append :
    ¬ (JournalWorld.initial.run exampleIdentity
      [.open, .append [exampleVote 1 1], .sync, .append [exampleVote 2 100], .crash 20, .open,
        .append [exampleVote 3 1], .sync]).Law exampleIdentity := by
  generalize hw : JournalWorld.initial.run exampleIdentity _ = w
  have hmarks : marks w.appended =
      [(exampleVote 1 1, true), (exampleVote 2 100, false), (exampleVote 3 1, true)] := by
    rw [← hw]
    decide +kernel
  have hreplay : w.file.replay = .ok [exampleVote 1 1] := by
    rw [← hw]
    decide +kernel
  have hopen : w.file.synced ≠ none := by
    rw [← hw]
    decide +kernel
  rintro ⟨-, hlaw⟩
  obtain ⟨rs, hrs, hretains⟩ := hlaw hopen
  obtain rfl : [exampleVote 1 1] = rs := Except.ok.inj (hreplay.symm.trans hrs)
  rw [hmarks] at hretains
  cases hretains with
  | keep hretains =>
      cases hretains with
      | drop hretains => cases hretains

/-- A vote that survives a crash, a sync that finds its flag up, and the next crash takes it. -/
example :
    let w := JournalWorld.initial.run exampleIdentity
      [.open, .append [exampleVote 1 1], .crash 49, .open, .sync, .crash 0, .open]
    marks w.appended = [(exampleVote 1 1, true)] ∧ w.file.replay = .ok [] := by
  decide +kernel

end PaxosOdin
