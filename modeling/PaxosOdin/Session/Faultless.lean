import PaxosOdin.Session.Seated

/-!
# A session whose storage does not fail

Without a fault of an adapter a session is ready between two operations: an operation that is refused
changes nothing, and every other one runs to its end and leaves the session ready again.

Main definitions:

- Definition `Ready`: an open session that no failure holds up.
- Definition `Operation.Accepted`: the operations that the bridge takes.

Main results:

- Theorem `dischargeBody_returns`: nothing raises inside a batch.
- Theorem `Ready.perform`: an accepted operation runs to its end.
- Theorem `Ready.refused`: another one changes nothing.
- Theorem `Ready.of_reaches`: the open sessions of the runs without faults are ready.
-/

namespace PaxosOdin.Session

open Bridge
open Procedure (Triple Ends Returns Maintains)

variable {p : Profile} {s : Process} {h : Handle} {b : PendingBatch}

/-- An open session that no failure holds up. -/
structure Ready (p : Profile) (s : Process) : Prop where
  standing : Open p s
  seated : Seated p s.handle
  phase : s.handle.batch.phase = .idle ∨ s.handle.batch.phase = .finished
  recorded : s.recordFailed = false

/-- The operations that the bridge takes: a value within the limit, and an envelope that it can read. -/
def Operation.Accepted (p : Profile) : Operation → Prop
  | .tick => True
  | .campaign => True
  | .propose value => value.length ≤ p.maxValue
  | .receive envelope => ∃ m, envelopeFromC p.maxValue envelope = .ok m

/-! ## The beginning of a transition -/

/-- A batch opens when no replay and no other batch is live. -/
theorem batchOpen_ok (hserving : h.replaying = false)
    (hphase : ¬ (h.batch.phase = .pending ∨ h.batch.phase = .confirmed)) :
    ∃ h', batchOpen h = .ok h' ∧ h'.writesPending = h.writesPending := by
  unfold batchOpen
  rw [if_neg (by simp [hserving]), if_neg hphase]
  exact ⟨_, rfl, rfl⟩

/-- The core runs when no write is pending. -/
theorem transition_runs (hdurable : h.writesPending = false) (t : Transition) :
    ∃ r, h.transition p t = some r := by
  unfold Handle.transition
  by_cases hearly : t.returnsEarly p h.node = true
  · rw [if_pos hearly]
    exact ⟨_, rfl⟩
  · rw [if_neg hearly, if_neg (by simp [hdurable])]
    exact ⟨_, rfl⟩

/-- A transition begins when nothing holds it up. -/
theorem Live.begins (hl : Live p h) (hserving : h.replaying = false)
    (hphase : h.batch.phase = .idle ∨ h.batch.phase = .finished) {t : Transition}
    {call : Handle → Caller → Outcome}
    (hcall : call h (ownCaller h) = beginTransition p h (ownCaller h) (.ok t)) :
    ∃ h' b, begin call h = some (h', .ok b) := by
  obtain ⟨performed, confirmed, hg⟩ := hl.guarded
  have hdurable : h.writesPending = false := by
    rw [Bool.eq_false_iff]
    intro hpending
    have hpendingPhase : h.batch.phase = .pending := hg.flag hpending
    rcases hphase with h | h <;> rw [hpendingPhase] at h <;> cases h
  have hopen : ¬ (h.batch.phase = .pending ∨ h.batch.phase = .confirmed) := by
    rcases hphase with h | h <;> rw [h] <;> decide
  have hran : ∃ h' token report, call h (ownCaller h) = some (h',
      { status := .ok, token := some token, report := some report }) := by
    obtain ⟨h₁, hbatch, hdurable'⟩ := @batchOpen_ok { h with busy := true } hserving hopen
    obtain ⟨⟨h₂, ran⟩, htransition⟩ := @transition_runs p h₁ (hdurable'.trans hdurable) t
    rw [hcall]
    unfold beginTransition
    rw [hl.entered, if_neg (by simp [ownCaller])]
    dsimp only
    rw [hbatch]
    dsimp only
    rw [htransition]
    exact ⟨_, _, _, rfl⟩
  obtain ⟨h', token, report, hran⟩ := hran
  exact ⟨h', ⟨token, report⟩, Procedure.bind_of_ok (native_ok hran rfl)⟩

/-- An accepted operation begins its transition. -/
theorem Ready.begins (hs : Ready p s) {op : Operation} (hop : op.Accepted p) :
    ∃ h' b, op.begun p s.handle = some (h', .ok b) := by
  have hlive := hs.standing.steady.live
  cases op with
  | tick =>
      exact @Live.begins p _ hlive hs.seated.serving hs.phase _
        (fun h caller => paxodinBeginTick p h caller) rfl
  | campaign =>
      exact @Live.begins p _ hlive hs.seated.serving hs.phase _
        (fun h caller => paxodinBeginCampaign p h caller) rfl
  | propose value =>
      have hvalue : value.length ≤ p.maxValue := hop
      show ∃ h' b, beginPropose p value s.handle = _
      unfold beginPropose
      rw [if_neg (Nat.not_lt.mpr hvalue)]
      have hfits : (UInt32.ofNat value.length).toNat ≤ p.maxValue :=
        (counted_le value.length).trans hvalue
      have harguments : proposeArguments p (some
          { kind := some .command, length := UInt32.ofNat value.length, body := value }) =
          .ok (.log (.propose ⟨.command, value.take (UInt32.ofNat value.length).toNat⟩)) := by
        simp only [proposeArguments, commandFromC, entryFromC]
        rw [if_neg (by simp), if_neg (Nat.not_lt.mpr hfits)]
      refine @Live.begins p _ hlive hs.seated.serving hs.phase 
        (.log (.propose ⟨.command, value.take (UInt32.ofNat value.length).toNat⟩))
        (fun h caller => paxodinBeginPropose p h caller
          (some { kind := some .command, length := UInt32.ofNat value.length, body := value })) ?_
      show beginTransition _ _ _ (proposeArguments _ _) = _
      rw [harguments]
  | receive envelope =>
      obtain ⟨⟨configurationId, wire⟩, hwire⟩ := hop
      refine @Live.begins p _ hlive hs.seated.serving hs.phase
        (.log (.stepChecked configurationId wire))
        (fun h caller => paxodinBeginStep p h caller (some envelope)) ?_
      have harguments : stepArguments p (some envelope) =
          .ok (.log (.stepChecked configurationId wire)) := by
        simp only [stepArguments, hwire]
      show beginTransition _ _ _ (stepArguments p (some envelope)) = _
      rw [harguments]

/-- Another operation is refused. -/
theorem refused_of_not_accepted (hl : Live p h) {op : Operation} (hop : ¬ op.Accepted p) :
    ∃ e, op.begun p h = some (h, .error e) := by
  cases op with
  | tick => exact absurd trivial hop
  | campaign => exact absurd trivial hop
  | propose value =>
      have hvalue : value.length > p.maxValue := Nat.lt_of_not_le hop
      show ∃ e, beginPropose p value h = _
      unfold beginPropose
      rw [if_pos hvalue]
      exact ⟨_, rfl⟩
  | receive envelope =>
      cases hwire : envelopeFromC p.maxValue envelope with
      | ok m => exact absurd ⟨m, hwire⟩ hop
      | error status =>
          have harguments : stepArguments p (some envelope) = .error status := by
            simp only [stepArguments, hwire]
          have hrun := hl.entered fun h =>
            if !(ownCaller h).storage then refuse h .nullPointer else refuse h status
          have hcall : paxodinBeginStep p h (ownCaller h) (some envelope) = refuse h status := by
            unfold paxodinBeginStep beginTransition
            rw [harguments]
            exact hrun.trans (refuse_leave hl.idle status)
          exact ⟨_, Procedure.bind_of_error
            (@native_refused h (fun h caller => paxodinBeginStep p h caller (some envelope)) _ hcall
              (stepArguments_refused harguments))⟩

/-! ## One batch -/

/-- What a call on the node does to the process. -/
theorem onNode_of_run {α : Type} {m : OnHandle α} {h' : Handle} {r : Except Raised α}
    (hrun : m s.handle = some (h', r)) : onNode m s = some ({ s with handle := h' }, r) :=
  Procedure.within_of_run hrun

/-- A batch of a session without faults, before its records are confirmed. -/
structure Fresh (p : Profile) (b : PendingBatch) (s : Process) : Prop where
  holding : Holding p b {} s
  counted : counted s.handle.effects.writes.length = s.handle.effects.writes.length

/-- A fresh batch is not finished. -/
theorem Fresh.unfinished (hs : Fresh p b s) : s.handle.batch.phase ≠ .finished := by
  rcases hs.holding.phase with hphase | ⟨hphase, -⟩
  · rw [hphase]
    decide
  · rw [hphase]
    decide

/-- All records are copied. -/
theorem writes_returns :
    Triple (fun s => Fresh p b s ∧ s.handle.batch.writesCopiedThrough = 0) (onNode (b.writes p))
      (Returns fun records s => Fresh p b s ∧
        s.handle.effects.writes.length = s.handle.batch.writesCopiedThrough ∧
        records = s.batchRecords p) := by
  rintro s ⟨⟨hholding, hcounted⟩, huncopied⟩
  have hopen := (Fresh.mk hholding hcounted).unfinished
  obtain ⟨through, hthrough, hall, hrun⟩ := hholding.batching.run_writes hopen
  have hrun' := onNode_of_run hrun
  obtain ⟨hholding', -, -⟩ := writes_triple.of_run ⟨hholding, huncopied⟩ hrun'
  refine ⟨_, _, hrun', ⟨hholding', hcounted⟩, ?_, ?_⟩
  · rw [huncopied, hcounted, Nat.zero_max] at hthrough
    rw [hcounted] at hall
    exact Nat.le_antisymm hall hthrough
  · rw [hcounted]
    exact List.take_of_length_le (by rw [List.length_map])

/-- Without a fault every record of the batch becomes durable. -/
theorem persist_returns {records : List CWrite} :
    Triple (fun s => Fresh p b s ∧
        s.handle.effects.writes.length = s.handle.batch.writesCopiedThrough ∧
        records = s.batchRecords p)
      (persist {} records)
      (Returns fun _ s => Fresh p b s ∧
        s.handle.effects.writes.length = s.handle.batch.writesCopiedThrough ∧
        s.batchRecords p <:+ s.journal.durable) := by
  rintro s ⟨⟨hholding, hcounted⟩, hcopied, hrecords⟩
  have htake : (s.batchRecords p).take (counted s.handle.effects.writes.length) =
      s.batchRecords p := by
    rw [hcounted]
    exact List.take_of_length_le (by rw [Process.batchRecords, List.length_map])
  have hpre : Holding p b {} s ∧
      s.handle.batch.writesCopiedThrough ≤ counted s.handle.effects.writes.length ∧
      records = (s.batchRecords p).take (counted s.handle.effects.writes.length) := by
    rw [htake, hcounted]
    exact ⟨hholding, hcopied.ge, hrecords⟩
  by_cases hnone : records = []
  · refine ⟨s, .ok (), ?_, ⟨hholding, hcounted⟩, hcopied, ?_⟩
    · unfold persist
      rw [if_pos hnone]
      rfl
    · rw [← hrecords, hnone]
      exact List.nil_suffix
  · have hrun : persist {} records s = some ({ s with
        journal := { durable := s.journal.durable ++ (s.journal.tail ++ records), tail := [] } },
        .ok ()) := by
      unfold persist
      rw [if_neg hnone]
      rfl
    obtain ⟨hholding', -, hdurable⟩ := persist_triple.of_run hpre hrun
    refine ⟨_, _, hrun, ⟨hholding', hcounted⟩, hcopied, ?_⟩
    show s.batchRecords p <:+ _
    rw [← htake]
    exact hdurable

/-- A batch whose records were all copied is confirmed. -/
theorem Batching.confirms (hb : Batching p b h) (hphase : h.batch.phase ≠ .finished)
    (hcopied : h.batch.writeCount ≤ h.batch.writesCopiedThrough) :
    ∃ h', b.persisted h = some (h', .ok ()) := by
  have hrun := hb.checked confirmBody
  have hconfirmed : ∃ h₁, confirmBody { h with busy := true } = some (h₁, { status := .ok }) := by
    unfold confirmBody
    cases hcase : h.batch.phase with
    | idle => exact absurd hcase hb.phase
    | finished => exact absurd hcase hphase
    | confirmed => exact ⟨_, rfl⟩
    | pending =>
        dsimp only
        rw [if_neg (Nat.not_lt.mpr hcopied)]
        exact ⟨_, rfl⟩
  obtain ⟨h₁, hbody⟩ := hconfirmed
  rw [hbody, Option.map_some] at hrun
  have hcall : paxodinConfirm h (ownCaller h) (some b.token) = _ := hrun
  exact ⟨Bridge.leave h₁, Procedure.bind_of_ok
    (@native_ok h (fun h caller => paxodinConfirm h caller (some b.token)) _ _ hcall rfl)⟩

/-- The batch may be confirmed then. -/
theorem persisted_returns :
    Triple (fun s => Fresh p b s ∧
        s.handle.effects.writes.length = s.handle.batch.writesCopiedThrough ∧
        s.batchRecords p <:+ s.journal.durable)
      (onNode b.persisted) (Returns fun _ s => Releasing p b {} s) := by
  rintro s ⟨⟨hholding, hcounted⟩, hcopied, hdurable⟩
  have htake : (s.batchRecords p).take (counted s.handle.effects.writes.length) =
      s.batchRecords p := by
    rw [hcounted]
    exact List.take_of_length_le (by rw [Process.batchRecords, List.length_map])
  have hpre : Holding p b {} s ∧
      s.handle.batch.writesCopiedThrough ≤ counted s.handle.effects.writes.length ∧
      (s.batchRecords p).take (counted s.handle.effects.writes.length) <:+ s.journal.durable := by
    rw [htake, hcounted]
    exact ⟨hholding, hcopied.ge, hdurable⟩
  obtain ⟨s', r, hrun, hends⟩ := persisted_triple s hpre
  have hopen := (Fresh.mk hholding hcounted).unfinished
  obtain ⟨h', hran⟩ := hholding.batching.confirms hopen
    (hholding.batching.writes.2.trans hcopied).le
  rw [onNode, Procedure.within_of_run hran] at hrun
  cases hrun
  exact ⟨_, _, Procedure.within_of_run hran, hends⟩

/-- A loop over the entries releases them all. -/
theorem releaseAll_runs (entries : List CCommitted) :
    ∃ s', releaseAll none entries s = some (s', .ok ()) := by
  induction entries generalizing s with
  | nil =>
      unfold releaseAll
      exact ⟨s, rfl⟩
  | cons entry rest ih =>
      unfold releaseAll
      exact ih

/-- Nothing raises inside a batch. -/
theorem dischargeBody_returns (hwindow : p.params.W + 1 < 2 ^ 32) :
    Triple (fun s => Fresh p b s ∧ s.handle.batch.writesCopiedThrough = 0) (dischargeBody p b {})
      (Returns fun _ => Settled p b) := by
  unfold dischargeBody
  refine .next writes_returns fun records => ?_
  refine .next persist_returns fun _ => ?_
  refine .next persisted_returns fun _ => ?_
  refine .next (committed_triple hwindow) fun entries => ?_
  have hrelease : Triple (fun s => Releasing p b {} s ∧ entries = s.batchCommitted p)
      (releaseAll none entries) (Returns fun _ => Settled p b) := by
    rintro s ⟨hreleasing, rfl⟩
    obtain ⟨s', hrun⟩ := @releaseAll_runs s (s.batchCommitted p)
    have hends := (releaseAll_triple none (s.batchCommitted p)).of_run
      ⟨hreleasing.backed, hreleasing.due, hreleasing.heed⟩ hrun
    exact ⟨s', _, hrun, hends⟩
  refine .next hrelease fun _ => ?_
  refine .next messages_triple fun envelopes => ?_
  refine .next (.forEach fun envelope _ => send_triple envelope) fun _ => ?_
  refine .next requests_triple fun requests => ?_
  exact .forEach fun request _ => serve_triple request

/-! ## One operation -/

/-- The floor of the node moves to the released position, and the batch is done. -/
theorem discharge_returns (hwindow : p.params.W + 1 < 2 ^ 32) :
    Triple (fun s => Fresh p b s ∧ s.handle.batch.writesCopiedThrough = 0) (discharge p b {})
      (Returns fun _ s => Finished p b s ∧ Caught s) := by
  have hfinish : Triple (Settled p b) (onNode b.finish)
      (Returns fun _ s => Finished p b s ∧ Caught s) := by
    intro s hsettled
    have hrun := hsettled.backed.batching.run_finish.1 hsettled.backed.phase
    have hrun' := onNode_of_run hrun
    exact ⟨_, _, hrun', finally_triple.of_run (Or.inr hsettled) hrun'⟩
  unfold discharge
  refine .next (.closing (dischargeBody_returns hwindow) (fun _ => hfinish) ?_)
    fun _ => advanceFloor_triple
  exact fun s h => h.elim

/-- The procedures of a session without faults raise nothing that a record call would raise. -/
theorem onNode_recorded {α : Type} (m : OnHandle α) :
    Maintains (fun s : Process => s.recordFailed = false) (onNode m) :=
  .within (fun _ _ _ _ _ => trivial) (fun _ _ => trivial) fun _ _ hs _ => hs

/-- Sending records nothing in the history. -/
theorem send_recorded (envelope : CEnvelope) :
    Maintains (fun s : Process => s.recordFailed = false) (send p envelope) :=
  .modify fun _ hs => hs

/-- Without a fault every entry is recorded. -/
theorem releaseAll_recorded (entries : List CCommitted) :
    Maintains (fun s : Process => s.recordFailed = false) (releaseAll none entries) := by
  induction entries with
  | nil =>
      unfold releaseAll
      exact .pure ()
  | cons entry rest ih =>
      unfold releaseAll
      exact .bind (.modify fun _ hs => hs) fun _ => ih

/-- The journal is not the history. -/
theorem persist_recorded (records : List CWrite) :
    Maintains (fun s : Process => s.recordFailed = false) (persist {} records) := by
  unfold persist
  split_ifs
  · exact .pure ()
  · exact .bind (.modify fun _ hs => hs) fun _ => .modify fun _ hs => hs

/-- Serving a request only reads the history. -/
theorem serve_recorded (request : CRequest) :
    Maintains (fun s : Process => s.recordFailed = false) (serve p request) := by
  unfold serve
  refine .bind (onNode_recorded nodeState) fun reply => ?_
  refine .bind (.read _) fun entries => ?_
  exact .forEach (fun _ => send_recorded _) entries

/-- Without a fault a discharge records what it releases. -/
theorem discharge_recorded (b : PendingBatch) :
    Maintains (fun s : Process => s.recordFailed = false) (discharge p b {}) := by
  unfold discharge
  refine .bind (.ensuring ?_ (onNode_recorded b.finish)) fun _ => ?_
  · unfold dischargeBody
    refine .bind (onNode_recorded _) fun records => ?_
    refine .bind (persist_recorded records) fun _ => ?_
    refine .bind (onNode_recorded _) fun _ => ?_
    refine .bind (onNode_recorded _) fun entries => ?_
    refine .bind (releaseAll_recorded entries) fun _ => ?_
    refine .bind (onNode_recorded _) fun envelopes => ?_
    refine .bind (.forEach send_recorded envelopes) fun _ => ?_
    refine .bind (onNode_recorded _) fun requests => ?_
    exact .forEach serve_recorded requests
  · unfold advanceFloor
    refine .bind (.read _) fun applied => ?_
    split_ifs
    · exact .pure ()
    · exact .bind (.modify fun _ hs => hs) fun _ => onNode_recorded _

/-- What a transition of a session leaves in the handle. -/
theorem Live.begin_handle (hl : Live p h) {call : Handle → Caller → Outcome}
    {arguments : Except Status Transition} {h' : Handle}
    (hcall : call h (ownCaller h) = beginTransition p h (ownCaller h) arguments)
    (hplain : ∀ t, arguments = .ok t → ∃ c, t = .log c ∧ (Transition.log c).Plain p)
    (herror : ∀ status, arguments = .error status → status ≠ .ok)
    (hrun : begin call h = some (h', .ok b)) :
    ∃ c, (Transition.log c).Plain p ∧ h' = h.begun p (.log c) := by
  obtain ⟨performed, confirmed, hg⟩ := hl.guarded
  rcases beginTransition_cases hg (ownCaller h) (fun t ht => by
      obtain ⟨c, rfl, hc⟩ := hplain t ht
      exact hc) herror with ⟨status, hstatus, hrefuse⟩ | ⟨t, ht, -, -, hran⟩
  · have hraised : begin call h = some (h, .error _) :=
      Procedure.bind_of_error (native_refused (hcall.trans hrefuse) hstatus)
    rw [hraised] at hrun
    cases hrun
  · obtain ⟨c, rfl, hc⟩ := hplain t ht
    refine ⟨c, hc, ?_⟩
    have hbegun : begin call h = some (h.begun p (.log c), .ok _) :=
      Procedure.bind_of_ok (native_ok (hcall.trans hran) rfl)
    rw [hbegun] at hrun
    cases hrun
    rfl

/-- A batch records at most two chunks and one more. -/
theorem Seated.begin_writes (hs : Seated p h) (hl : Live p h) {c : LogCall Command}
    (hc : (Transition.log c).Plain p) :
    (h.begun p (.log c)).effects.writes.length ≤ 2 * p.params.C + 1 := by
  obtain ⟨performed, confirmed, hg⟩ := hl.guarded
  exact (run_log_reachable hc hs.reachable {}).2 (hc.reaches hg.plain)

/-- A batch of a seated node fits one copy of its records. -/
theorem Seated.begun_writes (hs : Seated p h) (hl : Live p h) {op : Operation} {h' : Handle}
    (hrun : op.begun p h = some (h', .ok b)) :
    h'.effects.writes.length ≤ 2 * p.params.C + 1 := by
  rcases @Operation.begun_cases p op with ⟨e, hraise⟩ | ⟨arguments, hbegin, hplain, herror⟩
  · rw [hraise] at hrun
    cases hrun
  · rw [hbegin] at hrun
    obtain ⟨c, hc, rfl⟩ := @Live.begin_handle p h b hl
      (fun h caller => beginTransition p h caller arguments) arguments h' rfl hplain herror hrun
    exact hs.begin_writes hl hc

/-- A transition that begins where no batch is live holds its batch. -/
theorem Ready.fresh (hs : Ready p s) (hwindow : 2 * p.params.W + 1 < 2 ^ 32)
    {h' : Handle} {b : PendingBatch} (hbegun : Begun p s.handle h' b)
    (hwrites : h'.effects.writes.length ≤ 2 * p.params.C + 1) :
    Fresh p b
      { s with
        handle := h'
        emitted := s.emitted ++ h'.effects.committed.map (committedToC p.maxValue) } := by
  have hopen := hs.standing
  have hcaught : Caught s := hopen.caught (by rcases hs.phase with h | h <;> rw [h] <;> nofun)
  have hsound : s.journalFailed = false := by
    rw [Bool.eq_false_iff]
    intro hfailed
    rcases hs.phase with h | h <;> rw [hopen.blocked hfailed] at h <;> cases h
  have hchunk := p.params.chunk_le
  refine ⟨⟨hopen.steady.begun hbegun, hbegun.batching, hsound, hbegun.untrimmed, hbegun.window,
    hbegun.phase, fun hfailed => ?_, fun hfailed => ?_⟩, ?_⟩
  · show s.emitted ++ _ = s.released ++ _
    rw [hcaught hfailed]
    rfl
  · exact absurd (hs.recorded.symm.trans hfailed) nofun
  · exact counted_eq (show h'.effects.writes.length < 2 ^ 32 by omega)

/-- `AsyncSession._run` without the lock, and the inside of a `with` block: a transition and the
discharge of its batch. -/
def drive (p : Profile) (op : Operation) : OnProcess PendingBatch := do
  let b ← onNode (op.begun p)
  Procedure.modify fun s => { s with emitted := s.emitted ++ s.batchCommitted p }
  discharge p b {}
  pure b

/-- An accepted operation is driven to the end of its batch, and the session is ready again. -/
theorem Ready.drive (hs : Ready p s) (hwindow : 2 * p.params.W + 1 < 2 ^ 32) {op : Operation}
    (hop : op.Accepted p) :
    ∃ s' b, Session.drive p op s = some (s', .ok b) ∧ Finished p b s' ∧ Caught s' ∧
      s'.recordFailed = false := by
  obtain ⟨h', b, hrun⟩ := hs.begins hop
  have hlive := hs.standing.steady.live
  have hbegun : Begun p s.handle h' b := by
    rcases hlive.run_operation op with ⟨e, hrefused⟩ | ⟨-, h'', b', hrun', hbegun⟩
    · rw [hrefused] at hrun
      cases hrun
    · rw [hrun'] at hrun
      cases hrun
      exact hbegun
  have hfresh := hs.fresh hwindow hbegun (hs.seated.begun_writes hlive hrun)
  obtain ⟨s', r, hend, hends⟩ := discharge_returns (by omega) _ ⟨hfresh, hbegun.uncopied⟩
  have hrecorded := discharge_recorded b _ _ _ hend hs.recorded
  cases r with
  | error e => exact hends.elim
  | ok _ =>
      refine ⟨s', b, ?_, hends.1, hends.2, hrecorded⟩
      refine (Procedure.bind_of_ok (onNode_of_run hrun)).trans ?_
      refine (Procedure.bind_of_ok rfl).trans ?_
      exact Procedure.bind_of_ok hend

/-- An accepted operation runs to its end and leaves the session ready; the end of the `with` block
adds nothing to the discharge. -/
theorem Ready.perform (hs : Ready p s) (hwindow : 2 * p.params.W + 1 < 2 ^ 32) {op : Operation}
    (hop : op.Accepted p) :
    ∃ s' b, Session.perform p {} op s = some (s', .ok ()) ∧
      Session.drive p op s = some (s', .ok b) ∧ Ready p s' := by
  obtain ⟨s', b, hdrive, hfinished, hcaught, hrecorded⟩ := hs.drive hwindow hop
  obtain ⟨s₁, b', hbegun, hrest⟩ := Procedure.bind_returns hdrive
  obtain ⟨s₂, _, hemitted, hrest⟩ := Procedure.bind_returns hrest
  obtain ⟨s₃, _, hdischarged, hpure⟩ := Procedure.bind_returns hrest
  cases hpure
  have hleft : b.leave false s'.handle = some (s'.handle, .ok ()) :=
    hfinished.batching.run_leave (Or.inl hfinished.phase)
  have hleave := onNode_of_run hleft
  have hrun : Session.perform p {} op s = some (s', .ok ()) := by
    rw [perform_begun]
    refine (Procedure.bind_of_ok hbegun).trans ?_
    refine (Procedure.bind_of_ok hemitted).trans ?_
    unfold Procedure.closing
    rw [hdischarged]
    exact Procedure.bind_of_ok hleave
  refine ⟨s', b, hrun, hdrive, ?_⟩
  have hseating := perform_seated {} op s s' _ hrun fun _ => hs.seated
  refine ⟨⟨hfinished.steady, ?_, ?_, fun _ => hcaught⟩,
    hseating hfinished.steady.live.isOpen, Or.inr hfinished.phase, hrecorded⟩
  · rw [hfinished.phase]
    nofun
  · exact fun hfailed => absurd (hfinished.sound.symm.trans hfailed) nofun

/-- Another operation changes nothing. -/
theorem Ready.refused (hs : Ready p s) {op : Operation} (hop : ¬ op.Accepted p) :
    ∃ e, Session.perform p {} op s = some (s, .error e) ∧
      Session.drive p op s = some (s, .error e) := by
  obtain ⟨e, hrefused⟩ := refused_of_not_accepted hs.standing.steady.live hop
  exact ⟨e, perform_refused hrefused, Procedure.bind_of_error (onNode_of_run hrefused)⟩

/-! ## Runs -/

/-- No call of an adapter raises. -/
def Faultless (_ : Process) : Event → Prop
  | .perform _ f => f = {}
  | .reopen _ _ _ _ => True

/-- The open sessions of the runs without faults are ready. -/
theorem Ready.of_reaches (hwindow : 2 * p.params.W + 1 < 2 ^ 32)
    (hr : Process.Reaches p Faultless Process.start s) (hopen : s.handle.isOpen = true) :
    Ready p s := by
  suffices hboth : Standing p s ∧ (s.handle.isOpen = true → Ready p s) from hboth.2 hopen
  clear hopen
  induction hr with
  | refl =>
      have htraced : Traced Process.start :=
        ⟨fun f hf => absurd hf List.not_mem_nil, fun x hx => absurd hx List.not_mem_nil,
          fun w hw => absurd hw List.not_mem_nil⟩
      exact ⟨Or.inr ⟨htraced, rfl, ⟨rfl, rfl⟩, ⟨rfl, rfl⟩, rfl, rfl⟩, fun hopen => absurd hopen nofun⟩
  | @step s s' e _ hfaultless hstep ih =>
      obtain ⟨hstanding, hready⟩ := ih
      cases e with
      | perform op f =>
          obtain rfl : f = {} := hfaultless
          obtain ⟨⟨s'', r⟩, hrun, rfl⟩ := Option.map_eq_some_iff.mp hstep
          by_cases hopen : s.handle.isOpen = true
          · by_cases hop : op.Accepted p
            · obtain ⟨s₁, b, hperform, -, hready'⟩ := (hready hopen).perform hwindow hop
              rw [hrun] at hperform
              cases hperform
              exact ⟨Or.inl hready'.standing, fun _ => hready'⟩
            · obtain ⟨e, hperform, -⟩ := (hready hopen).refused hop
              rw [hrun] at hperform
              cases hperform
              exact ⟨hstanding, hready⟩
          · obtain ⟨e, hrefused⟩ := run_operation_closed (p := p) (Bool.eq_false_iff.mpr hopen) op
            rw [perform_refused hrefused] at hrun
            cases hrun
            exact ⟨hstanding, hready⟩
      | reopen epoch forkGeneration config kept =>
          obtain ⟨s'', hrun, hstanding'⟩ := hstanding.reopen epoch forkGeneration config kept
          have hstep' : reopen p epoch forkGeneration config kept s = some s' := hstep
          rw [hrun] at hstep'
          cases hstep'
          obtain ⟨hrecorded, hseated⟩ := reopen_seated hrun
          refine ⟨hstanding', fun hopen => ?_⟩
          obtain ⟨hseated, hidle⟩ := hseated hopen
          rcases hstanding' with hstands | hshut
          · exact ⟨hstands, hseated, Or.inl hidle, hrecorded⟩
          · rw [hshut.isOpen] at hopen
            cases hopen

end PaxosOdin.Session
