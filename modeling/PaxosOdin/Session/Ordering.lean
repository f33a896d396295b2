import PaxosOdin.Session.Calls

/-!
# One batch of a session

No frame leaves before the records of its batch are durable, the memory floor never passes what the
history retains, and the released position skips no entry.  A failed append or sync leaves the batch
unconfirmed.

Main definitions:

- Definition `OrderingLaw`: the law, in one state of a run.
- Definition `Steady`: what holds of an open session at every moment.
- Definitions `Holding`, `Releasing`, `Settled` and `Finished`: the stages of a batch.

Main results:

- Theorem `discharge_triple`: one batch, with a fault at any point.
-/

namespace PaxosOdin.Session

open Bridge
open Procedure (Triple Ends Returns)

variable {p : Profile} {b : PendingBatch} {f : Faults} {s : Process}

/-! ## The cursor of a history -/

theorem History.find_append (history : History) (entry : CCommitted) (slot : Nat) :
    (History.find (history ++ [entry]) slot).isSome =
      ((history.find slot).isSome || entry.slot.toNat == slot) := by
  unfold History.find
  rw [List.find?_append, Option.isSome_or, List.find?_singleton]
  cases entry.slot.toNat == slot <;> rfl

/-- Every slot up to the cursor is retained. -/
theorem History.find_of_le_cursor {history : History} {slot : Nat} (hpos : 1 ≤ slot)
    (hle : slot ≤ history.cursor) : (history.find slot).isSome = true := by
  obtain ⟨rest, hsplit⟩ := List.takeWhile_prefix (l := List.range' 1 history.length)
    fun slot => (history.find slot).isSome
  obtain ⟨count, -, htaken, -⟩ := List.range'_eq_append_iff.mp hsplit.symm
  have hmem : slot ∈ (List.range' 1 history.length).takeWhile
      fun slot => (history.find slot).isSome := by
    unfold History.cursor at hle
    rw [htaken, List.length_range'] at hle
    rw [htaken, List.mem_range'_1]
    omega
  exact List.mem_takeWhile_imp (p := fun slot => (history.find slot).isSome) hmem

/-- The cursor is at least every slot up to which all slots are retained. -/
theorem History.le_cursor {history : History} {bound : Nat}
    (h : ∀ slot, 1 ≤ slot → slot ≤ bound → (history.find slot).isSome = true) :
    bound ≤ history.cursor := by
  have hsub : List.range' 1 bound ⊆ history.map (·.slot.toNat) := by
    intro slot hslot
    rw [List.mem_range'_1] at hslot
    obtain ⟨c, hc⟩ := Option.isSome_iff_exists.mp (h slot hslot.1 (by omega))
    have hfound := List.find?_some hc
    exact List.mem_map.mpr ⟨c, List.mem_of_find?_eq_some hc, by simpa using hfound⟩
  have hnodup : (List.range' 1 bound).Nodup := List.nodup_range'
  have hlength := (hnodup.subperm hsub).length_le
  rw [List.length_range', List.length_map] at hlength
  have hsplit : List.range' 1 history.length =
      List.range' 1 bound ++ List.range' (1 + bound) (history.length - bound) := by
    rw [List.range'_append_1]
    congr 1
    omega
  unfold History.cursor
  rw [hsplit, List.takeWhile_append_of_pos fun slot hslot => ?_, List.length_append,
    List.length_range']
  · exact Nat.le_add_right _ _
  · rw [List.mem_range'_1] at hslot
    exact h slot hslot.1 (by omega)

theorem History.cursor_le (history : History) : history.cursor ≤ maxSlot := by
  rcases Nat.eq_zero_or_pos history.cursor with hzero | hpos
  · rw [hzero]
    exact Nat.zero_le _
  · obtain ⟨c, hc⟩ := Option.isSome_iff_exists.mp (History.find_of_le_cursor hpos le_rfl)
    have hfound : c.slot.toNat = history.cursor := by simpa using List.find?_some hc
    rw [← hfound]
    exact Nat.le_pred_of_lt c.slot.toNat_lt

/-! ## The law -/

/-- What the trace of all sessions shows. -/
structure Traced (s : Process) : Prop where
  sent : ∀ f ∈ s.sent, f.records <:+ f.durable
  floors : ∀ x ∈ s.floors, x.floor ≤ x.cursor
  untrimmed : ∀ w ∈ s.journal.durable ++ s.journal.tail, w.kind ≠ some .trim

/-- The ordering law: every frame left after the records of its batch were durable; every floor was
retained; the entries released are the first ones emitted, without a gap, and each is retained; a
failed journal refuses every operation; and an entry that was not released is still the node's. -/
structure OrderingLaw (p : Profile) (s : Process) : Prop where
  durableFirst : ∀ f ∈ s.sent, f.records <:+ f.durable
  retainedFirst : ∀ x ∈ s.floors, x.floor ≤ x.cursor
  emitted : s.emitted.map (·.slot.toNat) = List.range' (s.base + 1) s.emitted.length
  released : s.released <+: s.emitted
  position : s.appliedThrough = s.base + s.released.length
  retained : ∀ slot, 1 ≤ slot → slot ≤ s.appliedThrough → (s.history.find slot).isSome = true
  refused : s.journalFailed = true → ∀ op f, ∃ e, perform p f op s = some (s, .error e)
  kept : ∀ c ∈ s.emitted, c ∈ s.released ∨ s.handle.node.core.memoryFloor < c.slot.toNat

/-- What holds of an open session at every moment. -/
structure Steady (p : Profile) (s : Process) : Prop where
  traced : Traced s
  live : Live p s.handle
  emitted : s.emitted.map (·.slot.toNat) = List.range' (s.base + 1) s.emitted.length
  released : s.released <+: s.emitted
  position : s.appliedThrough = s.base + s.released.length
  retained : ∀ slot, 1 ≤ slot → slot ≤ s.appliedThrough → (s.history.find slot).isSome = true
  delivered : s.handle.node.core.deliveredThrough = s.base + s.emitted.length
  floor : s.handle.node.core.memoryFloor ≤ s.appliedThrough

namespace Steady

theorem applied_le (h : Steady p s) : s.appliedThrough ≤ s.handle.node.core.deliveredThrough := by
  rw [h.position, h.delivered]
  exact Nat.add_le_add_left h.released.length_le _

theorem bounded (h : Steady p s) : s.handle.node.core.deliveredThrough ≤ maxSlot := by
  obtain ⟨_, _, hg⟩ := h.live.guarded
  exact hg.plain.opened.last

/-- The node and what the session did are as before. -/
theorem rehandle (h : Steady p s) {handle : Handle} (hlive : Live p handle)
    (hnode : handle.node = s.handle.node) : Steady p { s with handle := handle } := by
  obtain ⟨htraced, -, hemitted, hreleased, hposition, hretained, hdelivered, hfloor⟩ := h
  refine ⟨⟨htraced.sent, htraced.floors, htraced.untrimmed⟩, hlive, hemitted, hreleased, hposition,
    hretained, ?_, ?_⟩
  · rw [← hdelivered]
    exact congrArg (·.core.deliveredThrough) hnode
  · show handle.node.core.memoryFloor ≤ _
    rw [hnode]
    exact hfloor

/-- The journal takes records without a trim. -/
theorem rejournal (h : Steady p s) {journal : Journal} (failed : Bool)
    (huntrimmed : ∀ w ∈ journal.durable ++ journal.tail, w.kind ≠ some .trim) :
    Steady p { s with journal := journal, journalFailed := failed } := by
  obtain ⟨htraced, hlive, hemitted, hreleased, hposition, hretained, hdelivered, hfloor⟩ := h
  exact ⟨⟨htraced.sent, htraced.floors, huntrimmed⟩, hlive, hemitted, hreleased, hposition, hretained,
    hdelivered, hfloor⟩

/-- Frames are sent whose records are durable. -/
theorem resend (h : Steady p s) {extra : List Sent} (hextra : ∀ f ∈ extra, f.records <:+ f.durable) :
    Steady p { s with sent := s.sent ++ extra } := by
  obtain ⟨htraced, hlive, hemitted, hreleased, hposition, hretained, hdelivered, hfloor⟩ := h
  refine ⟨⟨fun f hf => ?_, htraced.floors, htraced.untrimmed⟩, hlive, hemitted, hreleased, hposition,
    hretained, hdelivered, hfloor⟩
  rcases List.mem_append.mp hf with hf | hf
  · exact htraced.sent f hf
  · exact hextra f hf

/-- A record call raised: the history may have retained the entry. -/
theorem failRecord (h : Steady p s) (entry : CCommitted) (retained : Bool) :
    Steady p
      { s with
        history := if retained then s.history ++ [entry] else s.history
        recordFailed := true } := by
  obtain ⟨htraced, hlive, hemitted, hreleased, hposition, hretained, hdelivered, hfloor⟩ := h
  refine ⟨⟨htraced.sent, htraced.floors, htraced.untrimmed⟩, hlive, hemitted, hreleased, hposition,
    fun slot hpos hle => ?_, hdelivered, hfloor⟩
  have hfound := hretained slot hpos hle
  cases retained with
  | false => exact hfound
  | true =>
      show (History.find (s.history ++ [entry]) slot).isSome = true
      rw [History.find_append, hfound]
      rfl

/-- The next entry is recorded and released. -/
theorem release (h : Steady p s) {entry : CCommitted} {rest : List CCommitted}
    (hdue : s.emitted = s.released ++ entry :: rest) :
    Steady p
      { s with
        history := s.history ++ [entry]
        appliedThrough := entry.slot.toNat
        released := s.released ++ [entry] } := by
  obtain ⟨htraced, hlive, hemitted, hreleased, hposition, hretained, hdelivered, hfloor⟩ := h
  have hslot : entry.slot.toNat = s.base + s.released.length + 1 := by
    have hget := congrArg (fun slots => slots[s.released.length]?) hemitted
    simp only [hdue, List.map_append, List.map_cons, List.length_append, List.length_cons] at hget
    rw [List.getElem?_append_right (by rw [List.length_map]), List.length_map, Nat.sub_self,
      List.getElem?_cons_zero, List.getElem?_range' (by omega)] at hget
    have := Option.some.inj hget
    omega
  refine ⟨⟨htraced.sent, htraced.floors, htraced.untrimmed⟩, hlive, hemitted, ?_, ?_,
    fun slot hpos hle => ?_, hdelivered, ?_⟩
  · exact ⟨rest, by rw [hdue, List.append_assoc]; rfl⟩
  · show entry.slot.toNat = s.base + (s.released ++ [entry]).length
    rw [hslot, List.length_append, List.length_singleton]
    rfl
  · show (History.find (s.history ++ [entry]) slot).isSome = true
    have hle' : slot ≤ entry.slot.toNat := hle
    rw [History.find_append]
    rcases Nat.lt_or_eq_of_le hle' with hlt | heq
    · rw [hretained slot hpos (by omega)]
      rfl
    · rw [heq, beq_self_eq_true, Bool.or_true]
  · show s.handle.node.core.memoryFloor ≤ entry.slot.toNat
    omega

end Steady

/-! ## The stages of a batch -/

/-- No record call of the session raised, so everything emitted was released. -/
def Caught (s : Process) : Prop :=
  s.recordFailed = false → s.released = s.emitted

/-- A record call raises at once, when an earlier one of the session raised. -/
def Faults.Heed (f : Faults) (s : Process) : Prop :=
  s.recordFailed = true → ∃ retained, f.record = some (0, retained)

/-- The session holds the batch `b`, and nothing of it was released. -/
structure Holding (p : Profile) (b : PendingBatch) (f : Faults) (s : Process) : Prop where
  steady : Steady p s
  batching : Batching p b s.handle
  sound : s.journalFailed = false
  untrimmed : s.handle.effects.Untrimmed
  window : s.handle.effects.committed.length ≤ p.params.W + 1
  phase : s.handle.batch.phase = .pending ∨
    (s.handle.batch.phase = .confirmed ∧ s.handle.effects.writes = [])
  due : s.recordFailed = false → s.emitted = s.released ++ s.batchCommitted p
  heed : f.Heed s

/-- The records of the batch were not confirmed. -/
structure Blocked (p : Profile) (b : PendingBatch) (s : Process) : Prop where
  steady : Steady p s
  batching : Batching p b s.handle
  phase : s.handle.batch.phase = .pending

/-- The records of the batch are durable and confirmed. -/
structure Backed (p : Profile) (b : PendingBatch) (s : Process) : Prop where
  steady : Steady p s
  batching : Batching p b s.handle
  sound : s.journalFailed = false
  phase : s.handle.batch.phase = .confirmed
  backed : s.batchRecords p <:+ s.journal.durable

/-- The batch is finished. -/
structure Finished (p : Profile) (b : PendingBatch) (s : Process) : Prop where
  steady : Steady p s
  batching : Batching p b s.handle
  sound : s.journalFailed = false
  phase : s.handle.batch.phase = .finished

/-- The batch is backed, and what could be released was. -/
structure Settled (p : Profile) (b : PendingBatch) (s : Process) : Prop where
  backed : Backed p b s
  caught : Caught s

/-- Only the trace, the history and the position moved. -/
theorem Backed.resteady {s' : Process} (h : Backed p b s) (hs : Steady p s')
    (hhandle : s'.handle = s.handle) (hjournal : s'.journal = s.journal)
    (hsound : s'.journalFailed = s.journalFailed) : Backed p b s' := by
  obtain ⟨-, hbatching, hfailed, hphase, hbacked⟩ := h
  refine ⟨hs, ?_, hsound.trans hfailed, ?_, ?_⟩
  · rw [hhandle]
    exact hbatching
  · rw [hhandle]
    exact hphase
  · rw [Process.batchRecords, hhandle, hjournal]
    exact hbacked

/-! ### Persisting -/

/-- The first stage copies the records. -/
theorem writes_triple :
    Triple (fun s => Holding p b f s ∧ s.handle.batch.writesCopiedThrough = 0)
      (onNode (b.writes p))
      (Returns fun records s => Holding p b f s ∧
        s.handle.batch.writesCopiedThrough ≤ counted s.handle.effects.writes.length ∧
        records = (s.batchRecords p).take (counted s.handle.effects.writes.length)) := by
  rintro s ⟨⟨hsteady, hbatching, hsound, huntrimmed, hwindow, hphase, hdue, hheed⟩, huncopied⟩
  have hopen : s.handle.batch.phase ≠ .finished := by
    rcases hphase with hphase | ⟨hphase, -⟩ <;> rw [hphase] <;> nofun
  obtain ⟨through, hthrough, -, hrun⟩ := hbatching.run_writes hopen
  rw [huncopied, Nat.zero_max] at hthrough
  refine ⟨_, _, Procedure.within_of_run hrun, ?_, hthrough, rfl⟩
  exact ⟨hsteady.rehandle (hbatching.live.copied through) rfl, hbatching.copied through, hsound,
    huntrimmed, hwindow, hphase, hdue, hheed⟩

/-- A record of a batch without a trim is none. -/
theorem writeToC_untrimmed {maxValue : Nat} {e : Effects Value} (h : e.Untrimmed) :
    ∀ w ∈ e.writes.map (writeToC maxValue), w.kind ≠ some .trim := by
  intro w hw
  obtain ⟨x, hx, rfl⟩ := List.mem_map.mp hw
  cases x with
  | trim anchor => exact absurd rfl (h _ hx anchor)
  | _ => nofun

/-- The journal takes records of the batch. -/
theorem Holding.rejournal (h : Holding p b f s) {journal : Journal} (failed : Bool)
    (huntrimmed : ∀ w ∈ journal.durable ++ journal.tail, w.kind ≠ some .trim) :
    Steady p { s with journal := journal, journalFailed := failed } ∧
      (failed = false → Holding p b f { s with journal := journal, journalFailed := failed }) := by
  obtain ⟨hsteady, hbatching, -, hrecords, hwindow, hphase, hdue, hheed⟩ := h
  have hsteady' := hsteady.rejournal failed huntrimmed
  exact ⟨hsteady', fun hfailed =>
    ⟨hsteady', hbatching, hfailed, hrecords, hwindow, hphase, hdue, hheed⟩⟩

/-- The second stage makes the copied records durable, or leaves the batch unconfirmed. -/
theorem persist_triple {records : List CWrite} :
    Triple
      (fun s => Holding p b f s ∧
        s.handle.batch.writesCopiedThrough ≤ counted s.handle.effects.writes.length ∧
        records = (s.batchRecords p).take (counted s.handle.effects.writes.length))
      (persist f records)
      (Ends (Blocked p b) fun _ s => Holding p b f s ∧
        s.handle.batch.writesCopiedThrough ≤ counted s.handle.effects.writes.length ∧
        (s.batchRecords p).take (counted s.handle.effects.writes.length) <:+ s.journal.durable) := by
  rintro s ⟨hholding, hthrough, hrecords⟩
  unfold persist
  by_cases hnone : records = []
  · rw [if_pos hnone]
    refine ⟨s, _, rfl, hholding, hthrough, ?_⟩
    rw [← hrecords, hnone]
    exact List.nil_suffix
  rw [if_neg hnone]
  have hpending : s.handle.batch.phase = .pending := by
    refine hholding.phase.resolve_right fun hconfirmed => hnone ?_
    rw [hrecords, Process.batchRecords, hconfirmed.2]
    exact List.take_nil
  have huntrimmed : ∀ kept : List CWrite, (∀ w ∈ kept, w ∈ s.batchRecords p) →
      ∀ w ∈ s.journal.durable ++ (s.journal.tail ++ kept), w.kind ≠ some .trim := by
    intro kept hkept w hw
    rw [← List.append_assoc] at hw
    rcases List.mem_append.mp hw with hold | hnew
    · exact hholding.steady.traced.untrimmed w hold
    · exact writeToC_untrimmed hholding.untrimmed w (hkept w hnew)
  have hcopied : ∀ w ∈ records, w ∈ s.batchRecords p := fun w hw => by
    rw [hrecords] at hw
    exact List.mem_of_mem_take hw
  unfold journalAppend
  cases hfault : f.append with
  | some kept =>
      refine ⟨_, _, rfl, ?_, hholding.batching, hpending⟩
      exact (hholding.rejournal true
        (huntrimmed _ fun w hw => hcopied w (List.mem_of_mem_take hw))).1
  | none =>
      unfold journalSync
      cases hsync : f.sync with
      | true =>
          refine ⟨_, _, rfl, ?_, hholding.batching, hpending⟩
          exact (hholding.rejournal true (huntrimmed _ hcopied)).1
      | false =>
          refine ⟨_, _, rfl, ?_, hthrough, ?_⟩
          · refine (hholding.rejournal s.journalFailed ?_).2 hholding.sound
            intro w hw
            rw [List.append_nil] at hw
            exact huntrimmed _ hcopied w hw
          · show (s.batchRecords p).take _ <:+ s.journal.durable ++ (s.journal.tail ++ records)
            rw [hrecords, ← List.append_assoc]
            exact List.suffix_append _ _

/-- What is left to release when the records are confirmed. -/
structure Releasing (p : Profile) (b : PendingBatch) (f : Faults) (s : Process) : Prop where
  backed : Backed p b s
  window : s.handle.effects.committed.length ≤ p.params.W + 1
  due : s.recordFailed = false → s.emitted = s.released ++ s.batchCommitted p
  heed : f.Heed s

/-- The third stage confirms the batch when all its records are durable. -/
theorem persisted_triple :
    Triple
      (fun s => Holding p b f s ∧
        s.handle.batch.writesCopiedThrough ≤ counted s.handle.effects.writes.length ∧
        (s.batchRecords p).take (counted s.handle.effects.writes.length) <:+ s.journal.durable)
      (onNode b.persisted)
      (Ends (Blocked p b) fun _ => Releasing p b f) := by
  rintro s ⟨⟨hsteady, hbatching, hsound, huntrimmed, hwindow, hphase, hdue, hheed⟩, hthrough, hdurable⟩
  have hopen : s.handle.batch.phase ≠ .finished := by
    rcases hphase with hphase | ⟨hphase, -⟩ <;> rw [hphase] <;> nofun
  rcases hbatching.run_persisted hopen with
    ⟨hconfirmed, hrun⟩ | ⟨hpending, hcopied, hrun⟩ | ⟨hpending, e, hrun⟩
  · have hwrites : s.handle.effects.writes = [] := by
      rcases hphase with hphase | hphase
      · rw [hconfirmed] at hphase
        cases hphase
      · exact hphase.2
    refine ⟨_, _, Procedure.within_of_run hrun, ⟨hsteady, hbatching, hsound, hconfirmed, ?_⟩, hwindow,
      hdue, hheed⟩
    rw [Process.batchRecords, hwrites]
    exact List.nil_suffix
  · -- Every record was counted and copied, since the handle lets the batch be confirmed.
    have hall : counted s.handle.effects.writes.length = s.handle.effects.writes.length := by
      have hle := counted_le s.handle.effects.writes.length
      rw [hbatching.writes.2] at hcopied
      omega
    rw [hall, Process.batchRecords, List.take_of_length_le (by rw [List.length_map])] at hdurable
    obtain ⟨performed, confirmed, hg⟩ := hbatching.live.guarded
    have hlive : Live p (Handle.confirmed s.handle) :=
      ⟨hbatching.live.isOpen, hbatching.live.sound, _, _, hg.confirm hbatching.phase⟩
    have hbatching' : Batching p b (Handle.confirmed s.handle) :=
      ⟨hlive, hbatching.token, nofun, hbatching.writes, hbatching.messages, hbatching.committed,
        hbatching.requests⟩
    exact ⟨_, _, Procedure.within_of_run hrun,
      ⟨hsteady.rehandle hlive rfl, hbatching', hsound, rfl, hdurable⟩, hwindow, hdue, hheed⟩
  · exact ⟨_, _, Procedure.within_of_run hrun, hsteady, hbatching, hpending⟩

/-! ### Releasing -/

/-- The fourth stage copies every entry, for their number fits the report. -/
theorem committed_triple (hwindow : p.params.W + 1 < 2 ^ 32) :
    Triple (Releasing p b f) (onNode (b.committed p))
      (Returns fun entries s =>
        Releasing p b f s ∧ entries = s.batchCommitted p) := by
  intro s h
  have hrun := h.backed.batching.run_committed h.backed.phase
  have hall : counted s.handle.effects.committed.length = s.handle.effects.committed.length :=
    counted_eq (lt_of_le_of_lt h.window hwindow)
  rw [hall, List.take_of_length_le (by rw [List.length_map])] at hrun
  exact ⟨_, _, Procedure.within_of_run hrun, h, rfl⟩

/-- The loop over the entries releases them in order, until a record call raises. -/
theorem releaseAll_triple (fault : Option (Nat × Bool)) (entries : List CCommitted) :
    Triple
      (fun s => Backed p b s ∧ (s.recordFailed = false → s.emitted = s.released ++ entries) ∧
        (s.recordFailed = true → ∃ retained, fault = some (0, retained)))
      (releaseAll fault entries) (Ends (Settled p b) fun _ => Settled p b) := by
  induction entries generalizing fault with
  | nil =>
      rintro s ⟨hbacked, hdue, -⟩
      refine ⟨s, .ok (), ?_, hbacked, fun hfailed => ?_⟩
      · unfold releaseAll
        rfl
      · rw [hdue hfailed, List.append_nil]
  | cons entry rest ih =>
      rintro s ⟨hbacked, hdue, hheed⟩
      -- A record call that returns is the first one that could raise.
      have hrelease : ∀ rest', (∀ retained, fault ≠ some (0, retained)) →
          (releaseAll fault (entry :: rest) s = (release entry >>= fun _ => releaseAll rest' rest) s) →
          ∃ s' r, releaseAll fault (entry :: rest) s = some (s', r) ∧
            Ends (Settled p b) (fun _ => Settled p b) s' r := by
        intro rest' hfault hrun
        have hfailed : s.recordFailed = false := by
          rw [Bool.eq_false_iff]
          intro hfailed
          obtain ⟨retained, hretained⟩ := hheed hfailed
          exact hfault retained hretained
        have hdue' := hdue hfailed
        obtain ⟨s', r, hrest, hpost⟩ := ih rest'
          { s with
            history := s.history ++ [entry]
            appliedThrough := entry.slot.toNat
            released := s.released ++ [entry] }
          ⟨hbacked.resteady (hbacked.steady.release hdue') rfl rfl rfl,
            fun _ => by rw [hdue', List.append_assoc]; rfl,
            fun hraised => absurd (hfailed.symm.trans hraised) nofun⟩
        exact ⟨s', r, hrun.trans hrest, hpost⟩
      match fault, hrelease with
      | some (0, retained), _ =>
          refine ⟨_, _, rfl, ?_, nofun⟩
          exact hbacked.resteady (hbacked.steady.failRecord entry retained) rfl rfl rfl
      | some (calls + 1, retained), hrelease =>
          exact hrelease (some (calls, retained)) nofun rfl
      | none, hrelease => exact hrelease none nofun rfl

/-! ### Sending -/

/-- A frame of a backed batch is sent. -/
theorem send_triple (envelope : CEnvelope) :
    Triple (Settled p b) (send p envelope) (Returns fun _ => Settled p b) := by
  rintro s ⟨hbacked, hcaught⟩
  refine ⟨_, _, rfl, hbacked.resteady (hbacked.steady.resend ?_) rfl rfl rfl, hcaught⟩
  intro x hx
  rw [List.mem_singleton.mp hx]
  exact hbacked.backed

theorem messages_triple :
    Triple (Settled p b) (onNode (b.messages p))
      (Returns fun _ => Settled p b) := by
  intro s h
  obtain ⟨envelopes, hrun⟩ := h.backed.batching.run_messages h.backed.phase
  exact ⟨_, _, Procedure.within_of_run hrun, h⟩

theorem requests_triple :
    Triple (Settled p b) (onNode (b.requests p))
      (Returns fun _ => Settled p b) := by
  intro s h
  obtain ⟨requests, hrun⟩ := h.backed.batching.run_requests h.backed.phase
  exact ⟨_, _, Procedure.within_of_run hrun, h⟩

theorem state_triple :
    Triple (Settled p b) (onNode nodeState)
      (Returns fun _ => Settled p b) := by
  intro s h
  obtain ⟨reply, hrun⟩ := h.backed.batching.live.run_state
  exact ⟨_, _, Procedure.within_of_run hrun, h⟩

theorem serve_triple (request : CRequest) :
    Triple (Settled p b) (serve p request)
      (Returns fun _ => Settled p b) := by
  refine .next state_triple fun reply => ?_
  have hread : Triple (Settled p b)
      (Procedure.read fun s => s.history.read request.first.toNat request.count.toNat : OnProcess _)
      (Returns fun _ => Settled p b) := .read fun s h => h
  exact .next hread fun entries => .forEach fun entry _ => send_triple _

/-! ### The whole batch -/

/-- The body raises with an unconfirmed batch, or ends with a batch whose records are durable. -/
theorem dischargeBody_triple (hwindow : p.params.W + 1 < 2 ^ 32) :
    Triple (fun s => Holding p b f s ∧ s.handle.batch.writesCopiedThrough = 0)
      (dischargeBody p b f)
      (Ends (fun s => Blocked p b s ∨ Settled p b s) fun _ => Settled p b) := by
  unfold dischargeBody
  refine .next writes_triple fun records => ?_
  refine .bind persist_triple (fun _ => ?_) fun s e h => Or.inl h
  refine .bind persisted_triple (fun _ => ?_) fun s e h => Or.inl h
  refine .next (committed_triple hwindow) fun entries => ?_
  refine .bind ((releaseAll_triple f.record entries).pre ?_) (fun _ => ?_) fun s e h => Or.inr h
  · rintro s ⟨h, rfl⟩
    exact ⟨h.backed, h.due, h.heed⟩
  refine .next messages_triple fun envelopes => ?_
  refine .next (.forEach fun envelope _ => send_triple envelope) fun _ => ?_
  refine .next requests_triple fun requests => ?_
  exact .ends (.forEach fun request _ => serve_triple request)

/-- `finally` finishes a confirmed batch, and raises on another one. -/
theorem finally_triple :
    Triple (fun s => Blocked p b s ∨ Settled p b s) (onNode b.finish)
      (Ends (Blocked p b) fun _ s => Finished p b s ∧ Caught s) := by
  rintro s (h | ⟨⟨hsteady, hbatching, hsound, hphase, -⟩, hcaught⟩)
  · obtain ⟨e, hrun⟩ := h.batching.run_finish.2 h.phase
    exact ⟨_, _, Procedure.within_of_run hrun, h⟩
  · have hrun := hbatching.run_finish.1 hphase
    obtain ⟨performed, confirmed, hg⟩ := hbatching.live.guarded
    have hlive : Live p (Handle.finished s.handle) :=
      ⟨hbatching.live.isOpen, hbatching.live.sound, _, _, hg.finish hphase⟩
    exact ⟨_, _, Procedure.within_of_run hrun,
      ⟨hsteady.rehandle hlive rfl, ⟨hlive, hbatching.token, nofun, hbatching.writes,
        hbatching.messages, hbatching.committed, hbatching.requests⟩, hsound, rfl⟩, hcaught⟩

/-- The floor moves to a position that the history retains. -/
theorem advanceFloor_triple :
    Triple (fun s => Finished p b s ∧ Caught s) advanceFloor
      (Returns fun _ s => Finished p b s ∧ Caught s) := by
  rintro s ⟨⟨hsteady, hbatching, hsound, hphase⟩, hcaught⟩
  have hread : ∀ rest : Nat → OnProcess Unit, (Procedure.read (·.appliedThrough) >>= rest) s =
      rest s.appliedThrough s := fun _ => rfl
  unfold advanceFloor
  rw [hread]
  by_cases hzero : s.appliedThrough = 0
  · rw [if_pos hzero]
    exact ⟨s, .ok (), rfl, ⟨hsteady, hbatching, hsound, hphase⟩, hcaught⟩
  rw [if_neg hzero]
  have hle := hsteady.applied_le
  have hbound := hsteady.bounded
  have hword : s.appliedThrough < 2 ^ 64 := by
    have : maxSlot < 2 ^ 64 := by decide
    omega
  have hrun := hbatching.live.run_advance hphase hle hword
  have hnode : (nodeAdvanceMemoryFloor s.handle.node.core s.appliedThrough).1 =
      { s.handle.node.core with
        memoryFloor := max s.handle.node.core.memoryFloor s.appliedThrough } := by
    unfold nodeAdvanceMemoryFloor
    rw [if_neg (Nat.not_lt.mpr hle)]
  obtain ⟨performed, confirmed, hg⟩ := hbatching.live.guarded
  have hg' := hg.renode (hg.plain.advanceFloor s.appliedThrough)
    (congrArg (·.ledger) hnode) (congrArg (·.passThrough) hnode) rfl
  have hlive : Live p { s.handle with
      node := (replicatedLogAdvanceMemoryFloor s.handle.node s.appliedThrough).1 } :=
    ⟨hbatching.live.isOpen, hbatching.live.sound, _, _, hg'⟩
  refine ⟨{ s with
      handle := { s.handle with
        node := (replicatedLogAdvanceMemoryFloor s.handle.node s.appliedThrough).1 }
      floors := s.floors ++ [⟨s.appliedThrough, s.history.cursor⟩] }, .ok (), ?_, ⟨?_, ?_, hsound,
    hphase⟩, hcaught⟩
  · refine (Procedure.bind_of_ok rfl).trans ?_
    exact Procedure.within_of_run hrun
  · obtain ⟨htraced, -, hemitted, hreleased, hposition, hretained, hdelivered, hfloor⟩ := hsteady
    refine ⟨⟨htraced.sent, fun x hx => ?_, htraced.untrimmed⟩, hlive, hemitted, hreleased, hposition,
      hretained, ?_, ?_⟩
    · rcases List.mem_append.mp hx with hx | hx
      · exact htraced.floors x hx
      · rw [List.mem_singleton.mp hx]
        exact History.le_cursor hretained
    · rw [← hdelivered]
      exact congrArg (·.deliveredThrough) hnode
    · show (nodeAdvanceMemoryFloor s.handle.node.core s.appliedThrough).1.memoryFloor ≤ _
      rw [hnode]
      exact max_le hfloor le_rfl
  · exact ⟨hlive, hbatching.token, hbatching.phase, hbatching.writes, hbatching.messages,
      hbatching.committed, hbatching.requests⟩

/-- A batch is finished, or its records were not confirmed and the batch stays. -/
theorem discharge_triple (hwindow : p.params.W + 1 < 2 ^ 32) :
    Triple (fun s => Holding p b f s ∧ s.handle.batch.writesCopiedThrough = 0) (discharge p b f)
      (Ends (fun s => Blocked p b s ∨ (Finished p b s ∧ Caught s))
        fun _ s => Finished p b s ∧ Caught s) := by
  have hensuring : Triple
      (fun s => Holding p b f s ∧ s.handle.batch.writesCopiedThrough = 0)
      ((dischargeBody p b f).ensuring (onNode b.finish))
      (Ends (fun s => Blocked p b s ∨ (Finished p b s ∧ Caught s))
        fun _ s => Finished p b s ∧ Caught s) := by
    refine .closing (dischargeBody_triple hwindow) (fun _ => ?_) ?_
    · exact (finally_triple.pre fun s h => Or.inr h).weaken (fun _ s h => h) fun s h => Or.inl h
    · exact finally_triple.weaken (fun _ s h => Or.inr h) fun s h => Or.inl h
  exact .bind hensuring (fun _ => advanceFloor_triple.ends) fun s e h => h

end PaxosOdin.Session
