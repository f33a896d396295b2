import PaxosOdin.Session.Ordering

/-!
# The ordering law of a session

A failed append or sync blocks the session until it is reopened.  A failed record call does not: its
batch is finished all the same, and the next entry that is recorded moves the released position over
the one that was not.

Main definitions:

- Definition `Open`: what holds of an open session between two operations.
- Definition `Careful`: no record call of a session succeeds after one that raised.

Main results:

- Theorem `Open.perform`: one operation, with a fault at any point.
- Theorem `Standing.reopen`: a session is reopened on the storage of an earlier one.
- Theorem `session_ordering`: the law in every state of the runs whose steps are careful.
- Theorem `session_skips`: the law fails when a record call raises and the next one succeeds.
-/

namespace PaxosOdin.Session

open Bridge
open Procedure (Triple Ends Returns)

variable {p : Profile} {f : Faults} {s : Process} {h : Handle}

/-! ## Operations -/

/-- The transition that an operation begins. -/
def Operation.begun (p : Profile) : Operation → OnHandle PendingBatch
  | .tick => beginTick p
  | .campaign => beginCampaign p
  | .propose value => beginPropose p value
  | .receive envelope => beginStep p envelope

theorem perform_begun (op : Operation) : perform p f op = transition p (op.begun p) f := by
  cases op <;> rfl

/-- An operation is refused and changes nothing, or its transition begins where no batch is live. -/
theorem Live.run_operation (hl : Live p h) (op : Operation) :
    (∃ e, op.begun p h = some (h, .error e)) ∨
      ((h.batch.phase = .idle ∨ h.batch.phase = .finished) ∧
        ∃ h' b, op.begun p h = some (h', .ok b) ∧ Begun p h h' b) := by
  cases op with
  | tick =>
      exact @Live.run_begin p h hl (fun h caller => paxodinBeginTick p h caller) _ rfl
        (fun t ht => ⟨_, (Except.ok.inj ht).symm, trivial⟩) nofun
  | campaign =>
      exact @Live.run_begin p h hl (fun h caller => paxodinBeginCampaign p h caller) _ rfl
        (fun t ht => ⟨_, (Except.ok.inj ht).symm, trivial⟩) nofun
  | propose value =>
      show (∃ e, beginPropose p value h = _) ∨ _ ∧ ∃ h' b, beginPropose p value h = _ ∧ _
      unfold beginPropose
      by_cases hlarge : value.length > p.maxValue
      · rw [if_pos hlarge]
        exact Or.inl ⟨_, rfl⟩
      rw [if_neg hlarge]
      refine hl.run_begin rfl (fun t ht => ?_) fun _ => proposeArguments_refused
      have hplain := proposeArguments_plain ht
      unfold proposeArguments at ht
      dsimp only at ht
      split at ht
      · cases ht
      · cases ht
        exact ⟨_, rfl, hplain⟩
  | receive envelope =>
      refine @Live.run_begin p h hl (fun h caller => paxodinBeginStep p h caller (some envelope)) _ rfl
        (fun t ht => ?_) fun _ => stepArguments_refused
      have hplain := stepArguments_plain ht
      unfold stepArguments at ht
      dsimp only at ht
      split at ht
      · cases ht
      · cases ht
        exact ⟨_, rfl, hplain⟩

/-- A closed handle refuses every operation. -/
theorem run_operation_closed (hclosed : h.isOpen = false) (op : Operation) :
    ∃ e, op.begun p h = some (h, .error e) := by
  have hbegin : ∀ arguments, ∀ call : Handle → Caller → Outcome,
      call h (ownCaller h) = beginTransition p h (ownCaller h) arguments →
      ∃ e, begin call h = some (h, .error e) := by
    intro arguments call hcall
    have hrefuse : call h (ownCaller h) = refuse h .handleClosed :=
      hcall.trans (entered_closed hclosed _ _)
    exact ⟨_, Procedure.bind_of_error (native_refused hrefuse (by decide))⟩
  cases op with
  | tick => exact hbegin _ _ rfl
  | campaign => exact hbegin _ _ rfl
  | propose value =>
      show ∃ e, beginPropose p value h = _
      unfold beginPropose
      by_cases hlarge : value.length > p.maxValue
      · rw [if_pos hlarge]
        exact ⟨_, rfl⟩
      · rw [if_neg hlarge]
        exact hbegin _ _ rfl
  | receive envelope => exact hbegin _ _ rfl

/-- What an open session keeps between two operations. -/
structure Open (p : Profile) (s : Process) : Prop where
  steady : Steady p s
  settled : s.handle.batch.phase ≠ .confirmed
  blocked : s.journalFailed = true → s.handle.batch.phase = .pending
  caught : s.handle.batch.phase ≠ .pending → Caught s

/-- A refused operation changes nothing. -/
theorem perform_refused {op : Operation} {e : Raised}
    (h : op.begun p s.handle = some (s.handle, .error e)) :
    perform p f op s = some (s, .error e) := by
  rw [perform_begun]
  exact Procedure.bind_of_error (Procedure.within_of_run h)

/-- The entries that a transition begins with are the next ones. -/
theorem Steady.begun {h' : Handle} {b : PendingBatch} (h : Steady p s)
    (hbegun : Begun p s.handle h' b) :
    Steady p
      { s with
        handle := h'
        emitted := s.emitted ++ h'.effects.committed.map (committedToC p.maxValue) } := by
  obtain ⟨htraced, -, hemitted, hreleased, hposition, hretained, hdelivered, hfloor⟩ := h
  obtain ⟨hle, hslots⟩ := hbegun.emits
  have hcount : h'.effects.committed.length =
      h'.node.core.deliveredThrough - s.handle.node.core.deliveredThrough := by
    have hlength := congrArg List.length hslots
    rwa [List.length_map, List.length_range'] at hlength
  have hnext : (h'.effects.committed.map (committedToC p.maxValue)).map (·.slot.toNat) =
      List.range' (s.base + s.emitted.length + 1) h'.effects.committed.length := by
    rw [List.map_map, hcount, ← hdelivered, ← hslots]
    refine List.map_congr_left fun c hc => ?_
    have hmem : c.slot ∈ h'.effects.committed.map (·.slot) := List.mem_map_of_mem hc
    rw [hslots, List.mem_range'_1] at hmem
    have hbound := hbegun.bounded
    have hlarge : maxSlot < 2 ^ 64 := by decide
    exact UInt64.toNat_ofNat_of_lt' (show c.slot < 2 ^ 64 by omega)
  refine ⟨⟨htraced.sent, htraced.floors, htraced.untrimmed⟩, hbegun.batching.live, ?_,
    hreleased.trans (List.prefix_append _ _), hposition, hretained, ?_, ?_⟩
  · show (s.emitted ++ _).map _ = List.range' (s.base + 1) (s.emitted ++ _).length
    rw [List.map_append, hemitted, hnext, List.length_append, List.length_map]
    have hindex : s.base + s.emitted.length + 1 = s.base + 1 + s.emitted.length := by omega
    rw [hindex, List.range'_append_1]
  · show h'.node.core.deliveredThrough = s.base + (s.emitted ++ _).length
    rw [List.length_append, List.length_map, hcount]
    omega
  · show h'.node.core.memoryFloor ≤ _
    rw [hbegun.floor]
    exact hfloor

/-- One operation, with a fault at any point, keeps the session open. -/
theorem Open.perform (hwindow : p.params.W + 1 < 2 ^ 32) (hs : Open p s) (hheed : f.Heed s)
    (op : Operation) : ∃ s' r, Session.perform p f op s = some (s', r) ∧ Open p s' := by
  rcases hs.steady.live.run_operation op with ⟨e, hrefused⟩ | ⟨hphase, h', b, hrun, hbegun⟩
  · exact ⟨s, _, perform_refused hrefused, hs⟩
  have hcaught : Caught s := hs.caught (by rcases hphase with h | h <;> rw [h] <;> nofun)
  have hsound : s.journalFailed = false := by
    rw [Bool.eq_false_iff]
    intro hfailed
    rcases hphase with h | h <;> rw [hs.blocked hfailed] at h <;> cases h
  have hholding : Holding p b f
      { s with
        handle := h'
        emitted := s.emitted ++ h'.effects.committed.map (committedToC p.maxValue) } :=
    { steady := hs.steady.begun hbegun
      batching := hbegun.batching
      sound := hsound
      untrimmed := hbegun.untrimmed
      window := hbegun.window
      phase := hbegun.phase
      due := fun hfailed => by
        show s.emitted ++ _ = s.released ++ _
        rw [hcaught hfailed]
        rfl
      heed := hheed }
  have hleave : Triple
      (fun s => Holding p b f s ∧ s.handle.batch.writesCopiedThrough = 0)
      ((discharge p b f).closing fun raised => onNode (b.leave raised))
      (Ends (Open p) fun _ => Open p) := by
    have hfinished : ∀ raised, Triple (fun s => Finished p b s ∧ Caught s) (onNode (b.leave raised))
        (Ends (Open p) fun _ => Open p) := by
      rintro raised s ⟨⟨hsteady, hbatching, hsound, hphase⟩, hcaught⟩
      have hopen : Open p s :=
        ⟨hsteady, by rw [hphase]; nofun, fun hfailed => absurd (hsound.symm.trans hfailed) nofun,
          fun _ => hcaught⟩
      exact ⟨_, _, Procedure.within_of_run (hbatching.run_leave (Or.inl hphase)), hopen⟩
    refine .closing (discharge_triple hwindow) (fun _ => hfinished false) ?_
    rintro s (⟨hsteady, hbatching, hphase⟩ | hdone)
    · have hopen : Open p s :=
        ⟨hsteady, by rw [hphase]; nofun, fun _ => hphase, fun h => absurd hphase h⟩
      exact ⟨_, _, Procedure.within_of_run (hbatching.run_leave (Or.inr ⟨hphase, rfl⟩)), hopen⟩
    · exact hfinished true s hdone
  obtain ⟨s', r, hend, hopen⟩ := hleave _ ⟨hholding, hbegun.uncopied⟩
  refine ⟨s', r, ?_, ?_⟩
  · rw [perform_begun]
    refine (Procedure.bind_of_ok (Procedure.within_of_run hrun)).trans ?_
    exact (Procedure.bind_of_ok rfl).trans hend
  · cases r <;> exact hopen

/-! ## Reopening -/

/-- A handle that was opened: live, with no batch. -/
structure Opened (p : Profile) (h : Handle) (base : Nat) : Prop where
  live : Live p h
  phase : h.batch.phase = .idle
  delivered : h.node.core.deliveredThrough = base
  floor : h.node.core.memoryFloor = base

theorem handleCreate_live {epoch forkGeneration : Nat} {config : CConfig}
    (hcreate : handleCreate p epoch forkGeneration config = .ok h) :
    h.isOpen = true ∧ h.poisoned = false := by
  unfold handleCreate at hcreate
  split at hcreate
  · split at hcreate
    · cases hcreate
    · cases hcreate
      exact ⟨rfl, rfl⟩
  · cases hcreate

/-- A fresh node delivered nothing. -/
theorem nodeOpened_opened {epoch forkGeneration : Nat} {config : CConfig}
    (hopen : nodeOpened p epoch forkGeneration config = .ok h) : Opened p h 0 := by
  have hnative : paxodinNodeOpen p epoch forkGeneration config = .ok h := by
    unfold nodeOpened at hopen
    cases hnative : paxodinNodeOpen p epoch forkGeneration config with
    | error status =>
        rw [hnative] at hopen
        cases hopen
    | ok h' =>
        rw [hnative] at hopen
        cases hopen
        rfl
  have hguarded := (Handle.Opens.fresh hnative).guarded
  unfold paxodinNodeOpen at hnative
  split at hnative
  · cases hnative
  next h₀ hcreate =>
  obtain ⟨-, -, -, -, hbatch, -⟩ := handleCreate_fresh hcreate
  obtain ⟨hisOpen, hsound⟩ := handleCreate_live hcreate
  unfold finishOpen at hnative
  split at hnative
  · next node hnode =>
      cases hnative
      unfold replicatedLogInit nodeInit at hnode
      split_ifs at hnode
      split at hnode
      · next core hcore =>
          cases hnode
          split at hcore
          · cases hcore
          · cases hcore
            exact ⟨⟨hisOpen, hsound, _, _, hguarded⟩, by rw [hbatch], rfl, rfl⟩
      · cases hnode
  · cases hnative

theorem nodeResumeAt_base {P : Params} (n : Node Value) (base : Nat) :
    (nodeResumeAt P n base).deliveredThrough = base ∧ (nodeResumeAt P n base).memoryFloor = base := by
  unfold nodeResumeAt
  dsimp only
  split_ifs <;> exact ⟨rfl, rfl⟩

/-- The seal is sought in the core, which stays as it is. -/
theorem observeDurable_core {P : Params} (n : ReplicatedLogNode Command) :
    (observeDurable P n).core = n.core := by
  have hfold : ∀ (cells : List Nat) (m : ReplicatedLogNode Command),
      (cells.foldl (fun n cell =>
        observeStop n (n.core.ledger.cells cell).slot (n.core.ledger.cells cell).value) m).core =
        m.core := by
    intro cells
    induction cells with
    | nil => exact fun m => rfl
    | cons cell cells ih =>
        intro m
        rw [List.foldl_cons, ih]
        exact (observeStop_observed m
          ⟨(m.core.ledger.cells cell).slot, (m.core.ledger.cells cell).value, false⟩).core
  exact hfold _ n

/-- A restored node resumes at the floor, or at the trim anchor above it. -/
theorem replicatedLogRestore_base {P : Params} {id configurationId floor : Nat}
    {membership : Membership} {l : Ledger Value} {options : NodeOptions}
    {n : ReplicatedLogNode Command}
    (hrestore : replicatedLogRestore P id configurationId membership l floor options = .ok n) :
    n.core.deliveredThrough = max floor l.anchor.chosenTrimSlot ∧
      n.core.memoryFloor = max floor l.anchor.chosenTrimSlot := by
  unfold replicatedLogRestore nodeRestore at hrestore
  split_ifs at hrestore
  split at hrestore
  · next core hcore =>
      cases hrestore
      split at hcore
      · cases hcore
      · cases hcore
        rw [observeDurable_core]
        exact nodeResumeAt_base _ _
  · cases hrestore

/-- Only the record of a trim is read as a trim. -/
theorem writeFromC_trim {maxValue : Nat} {record : CWrite} {anchor : TrimAnchor}
    (hwrite : writeFromC maxValue record = .ok (.trim anchor)) : record.kind = some .trim := by
  unfold writeFromC at hwrite
  split at hwrite
  · cases hwrite
  · split at hwrite <;> first | assumption | cases hwrite

/-- The replay of a journal that holds no trim. -/
structure Replaying (p : Profile) (h : Handle) : Prop where
  live : Live p h
  replaying : h.replaying = true
  ledger : ∃ l, h.replay = some l ∧ l.anchor.chosenTrimSlot = 0

theorem replayed_run {l : Ledger Value} (hreplaying : h.replaying = true) (hreplay : h.replay = some l)
    (body : Handle → Ledger Value → Outcome) : replayed h body = body h l := by
  unfold replayed
  rw [hreplaying, hreplay]

/-- The guards of a replay let it through. -/
theorem Replaying.entered {l : Ledger Value} (hr : Replaying p h) (hreplay : h.replay = some l)
    (body : Handle → Ledger Value → Outcome) :
    entered h (ownCaller h) (fun h => replayed h body) =
      (body { h with busy := true } l).map fun r => (Bridge.leave r.1, r.2) := by
  rw [hr.live.entered]
  exact congrArg _ (@replayed_run { h with busy := true } l hr.replaying hreplay body)

/-- A native call that ends with another status. -/
theorem native_error {call : Handle → Caller → Outcome} {h' : Handle} {reply : Reply}
    (hcall : call h (ownCaller h) = some (h', reply)) (hstatus : reply.status ≠ .ok) :
    native call h = some (h', .error (.status reply.status)) := by
  unfold native
  rw [hcall]
  dsimp only
  rw [if_neg hstatus]

/-- One record is folded, or refused. -/
theorem replayApply_triple {record : CWrite} (htrim : record.kind ≠ some .trim) :
    Triple (Replaying p) (native fun h caller => paxodinReplayApply p h caller (some record))
      (Ends (fun _ => True) fun _ => Replaying p) := by
  intro h hr
  obtain ⟨l, hreplay, hanchor⟩ := hr.ledger
  obtain ⟨performed, confirmed, hg⟩ := hr.live.guarded
  have hidle := hr.live.idle
  have hrun : paxodinReplayApply p h (ownCaller h) (some record) = _ :=
    hr.entered hreplay (applyBody p (some record))
  unfold applyBody at hrun
  cases hwrite : writeFromC p.maxValue record with
  | error status =>
      simp only [hwrite] at hrun
      rw [refuse_leave hidle] at hrun
      exact ⟨_, _, native_refused hrun (writeFromC_refused hwrite), trivial⟩
  | ok write =>
      simp only [hwrite, Option.map_some, leave] at hrun
      obtain ⟨hplain, hword⟩ := writeFromC_plain hwrite
      have hanchor' : (ledgerReplayFold p.params l write).1.anchor.chosenTrimSlot = 0 := by
        have hstep : FoldStep p.params write l (ledgerReplayFold p.params l write).1 :=
          ledgerReplayFold_step rfl
        rcases hstep.anchor with hsame | htrimmed
        · rw [hsame]
          exact hanchor
        · refine absurd (writeFromC_trim (hwrite.trans (congrArg _ htrimmed))) htrim
      have hlive : Live p
          { h with replay := some (ledgerReplayFold p.params l write).1 } :=
        ⟨hr.live.isOpen, hr.live.sound, _, _,
          hg.reledger ((hg.ledger l hreplay).fold hplain hword)⟩
      simp only [hidle] at hlive
      by_cases hok : coreStatus (ledgerReplayFold p.params l write).2 = .ok
      · exact ⟨_, _, native_ok hrun hok, hlive, hr.replaying, _, rfl, hanchor'⟩
      · exact ⟨_, _, native_error hrun hok, trivial⟩

/-- The node is restored at `floor`, or the replay is refused. -/
theorem replayRestore_triple {floor : Nat} (hfloor : floor ≤ maxSlot) :
    Triple (Replaying p)
      (native fun h caller => paxodinReplayRestore p h caller (UInt64.ofNat floor))
      (Ends (fun _ => True) fun _ h => Opened p h floor) := by
  intro h hr
  obtain ⟨l, hreplay, hanchor⟩ := hr.ledger
  obtain ⟨performed, confirmed, hg⟩ := hr.live.guarded
  have hidle := hr.live.idle
  have hword : (UInt64.ofNat floor).toNat = floor := by
    have hlarge : maxSlot < 2 ^ 64 := by decide
    exact UInt64.toNat_ofNat_of_lt' (show floor < 2 ^ 64 by omega)
  have hrun : paxodinReplayRestore p h (ownCaller h) (UInt64.ofNat floor) = _ :=
    hr.entered hreplay (restoreBody p (UInt64.ofNat floor))
  unfold restoreBody at hrun
  rw [hword] at hrun
  cases hrestore : replicatedLogRestore p.params h.nodeId h.configurationId h.membership l floor
      h.options with
  | error e =>
      simp only [hrestore] at hrun
      rw [refuse_leave hidle] at hrun
      exact ⟨_, _, native_refused hrun fun hok =>
        replicatedLogRestore_refused hrestore (coreStatus_ok hok), trivial⟩
  | ok node =>
      simp only [hrestore, Option.map_some, leave] at hrun
      have hplain := replicatedLogRestore_plain hg.member (hg.ledger l hreplay) hfloor hrestore
      have hlive : Live p
          { h with
            node := node
            replay := none
            replaying := false
            effects := {}
            writesPending := false
            batch := {} } :=
        ⟨hr.live.isOpen, hr.live.sound, _, _, hg.restored hplain⟩
      simp only [hidle] at hlive
      obtain ⟨hdelivered, hmemory⟩ := replicatedLogRestore_base hrestore
      rw [hanchor, Nat.max_zero] at hdelivered hmemory
      exact ⟨_, _, native_ok hrun rfl, hlive, rfl, hdelivered, hmemory⟩

theorem replayJournal_triple {records : List CWrite} {floor : Nat}
    (hrecords : ∀ w ∈ records, w.kind ≠ some .trim) (hfloor : floor ≤ maxSlot) :
    Triple (Replaying p) (replayJournal p records floor)
      (Ends (fun _ => True) fun _ h => Opened p h floor) := by
  have hbody : ∀ record ∈ records, Triple (Replaying p) (replayApply p record)
      (Ends (fun _ => True) fun _ => Replaying p) := fun record hrecord =>
    .bind (replayApply_triple (hrecords record hrecord)) (fun _ => .pure fun s hs => hs)
      fun s e hs => hs
  have hrestore : Triple (Replaying p) (replayRestore p floor)
      (Ends (fun _ => True) fun _ h => Opened p h floor) :=
    .bind (replayRestore_triple hfloor) (fun _ => .pure fun s hs => hs) fun s e hs => hs
  exact .bind (.forEach hbody) (fun _ => hrestore) fun s e hs => hs

/-- The replay of a journal without a trim ends, and a node it restores resumes at the floor. -/
theorem nodeRestored_opened {epoch forkGeneration floor : Nat} {config : CConfig}
    {records : List CWrite} (hrecords : ∀ w ∈ records, w.kind ≠ some .trim)
    (hfloor : floor ≤ maxSlot) :
    ∃ r, nodeRestored p epoch forkGeneration config records floor = some r ∧
      ∀ h, r = .ok h → Opened p h floor := by
  unfold nodeRestored
  cases hopen : paxodinNodeOpenForReplay p epoch forkGeneration config with
  | error status => exact ⟨_, rfl, fun h heq => (by cases heq)⟩
  | ok h =>
      have hguarded := (Handle.Opens.forReplay hopen).guarded
      have hreplaying : Replaying p h := by
        unfold paxodinNodeOpenForReplay at hopen
        split at hopen
        · cases hopen
        next h₀ hcreate =>
        obtain ⟨hisOpen, hsound⟩ := handleCreate_live hcreate
        cases hopen
        exact ⟨⟨hisOpen, hsound, _, _, hguarded⟩, rfl, _, rfl, rfl⟩
      obtain ⟨h', r, hrun, hends⟩ := replayJournal_triple hrecords hfloor h hreplaying
      dsimp only
      rw [hrun]
      cases r with
      | ok _ => exact ⟨_, rfl, fun h'' heq => Except.ok.inj heq ▸ hends⟩
      | error e => exact ⟨_, rfl, fun h heq => (by cases heq)⟩

/-- No node is open. -/
structure Shut (s : Process) : Prop where
  traced : Traced s
  isOpen : s.handle.isOpen = false
  position : s.appliedThrough = 0 ∧ s.base = 0
  emitted : s.emitted = [] ∧ s.released = []
  sound : s.journalFailed = false ∧ s.recordFailed = false

/-- A session between two steps of a run. -/
def Standing (p : Profile) (s : Process) : Prop :=
  Open p s ∨ Shut s

theorem Standing.traced (hs : Standing p s) : Traced s := by
  rcases hs with hs | hs
  · exact hs.steady.traced
  · exact hs.traced

theorem Process.closed_shut (ht : Traced s) {journal : Journal}
    (huntrimmed : ∀ w ∈ journal.durable ++ journal.tail, w.kind ≠ some .trim) :
    Shut (s.closed journal) :=
  ⟨⟨ht.sent, ht.floors, huntrimmed⟩, rfl, ⟨rfl, rfl⟩, ⟨rfl, rfl⟩, rfl, rfl⟩

/-- A session with a node that was just opened. -/
theorem Opened.open {base : Nat} (ho : Opened p h base) (hs : Shut s)
    (hretained : ∀ slot, 1 ≤ slot → slot ≤ base → (s.history.find slot).isSome = true) :
    Open p { s with handle := h, appliedThrough := base, base := base } := by
  obtain ⟨htraced, -, -, ⟨hemitted, hreleased⟩, hsound, hcaught⟩ := hs
  refine ⟨⟨⟨htraced.sent, htraced.floors, htraced.untrimmed⟩, ho.live, ?_, ?_, ?_, hretained, ?_,
    ho.floor.le⟩, ?_, fun hfailed => ?_, fun _ _ => ?_⟩
  · show s.emitted.map _ = List.range' _ s.emitted.length
    rw [hemitted]
    rfl
  · show s.released <+: s.emitted
    rw [hemitted, hreleased]
  · show base = base + s.released.length
    rw [hreleased]
    rfl
  · show h.node.core.deliveredThrough = base + s.emitted.length
    rw [hemitted]
    exact ho.delivered
  · show h.batch.phase ≠ .confirmed
    rw [ho.phase]
    nofun
  · exact absurd (hsound.symm.trans hfailed) nofun
  · show s.released = s.emitted
    rw [hemitted, hreleased]

/-- A session is reopened on the storage of an earlier one, after a fault at any point. -/
theorem Standing.reopen (hs : Standing p s) (epoch forkGeneration : Nat) (config : CConfig)
    (kept : Nat) :
    ∃ s', Session.reopen p epoch forkGeneration config kept s = some s' ∧ Standing p s' := by
  have hexisting : ∀ w ∈ s.journal.durable ++ s.journal.tail.take kept, w.kind ≠ some .trim := by
    intro w hw
    refine hs.traced.untrimmed w ?_
    rcases List.mem_append.mp hw with hw | hw
    · exact List.mem_append_left _ hw
    · exact List.mem_append_right _ (List.mem_of_mem_take hw)
  have hshut : Shut (s.closed { durable := s.journal.durable ++ s.journal.tail.take kept }) :=
    Process.closed_shut hs.traced fun w hw => hexisting w (by rwa [List.append_nil] at hw)
  unfold Session.reopen
  by_cases hempty : s.journal.durable ++ s.journal.tail.take kept = []
  · dsimp only
    rw [if_pos hempty]
    cases hopen : nodeOpened p epoch forkGeneration config with
    | error e => exact ⟨_, rfl, Or.inr hshut⟩
    | ok h =>
        refine ⟨_, rfl, Or.inl ((nodeOpened_opened hopen).open hshut fun slot hpos hle => ?_)⟩
        omega
  · dsimp only
    rw [if_neg hempty]
    have hshut' : Shut { s.closed
        { durable := s.journal.durable ++ s.journal.tail.take kept } with
        floors := s.floors ++ [⟨s.history.cursor, s.history.cursor⟩] } := by
      obtain ⟨⟨hsent, hfloors, huntrimmed⟩, hisOpen, hposition, hnothing, hsound⟩ := hshut
      refine ⟨⟨hsent, fun x hx => ?_, huntrimmed⟩, hisOpen, hposition, hnothing, hsound⟩
      rcases List.mem_append.mp hx with hx | hx
      · exact hfloors x hx
      · rw [List.mem_singleton.mp hx]
    obtain ⟨r, hrun, hopened⟩ := @nodeRestored_opened p epoch forkGeneration s.history.cursor config
      _ hexisting s.history.cursor_le
    have hrun' : nodeRestored p epoch forkGeneration config
        (s.journal.durable ++ s.journal.tail.take kept)
        (s.closed { durable := s.journal.durable ++ s.journal.tail.take kept }).history.cursor =
        some r := hrun
    rw [hrun']
    cases r with
    | error e => exact ⟨_, rfl, Or.inr hshut'⟩
    | ok h =>
        exact ⟨_, rfl, Or.inl ((hopened h rfl).open hshut' fun slot hpos hle =>
          History.find_of_le_cursor hpos hle)⟩

/-! ## Runs -/

/-- No record call of a session succeeds after one that raised. -/
def Careful (s : Process) : Event → Prop
  | .perform _ f => f.Heed s
  | .reopen _ _ _ _ => True

instance (f : Faults) (s : Process) : Decidable (f.Heed s) :=
  decidable_of_iff (s.recordFailed = true → f.record.map Prod.fst = some 0) <| by
    unfold Faults.Heed
    cases f.record with
    | none => simp
    | some fault => simp [Prod.ext_iff]

instance (s : Process) : (e : Event) → Decidable (Careful s e)
  | .perform _ f => inferInstanceAs (Decidable (f.Heed s))
  | .reopen _ _ _ _ => .isTrue trivial

/-- One step of a run. -/
theorem Standing.step (hwindow : p.params.W + 1 < 2 ^ 32) (hs : Standing p s) {e : Event}
    (hcareful : Careful s e) : ∃ s', s.step p e = some s' ∧ Standing p s' := by
  cases e with
  | perform op f =>
      rcases hs with hopen | hshut
      · obtain ⟨s', r, hrun, hopen'⟩ := hopen.perform hwindow hcareful op
        refine ⟨s', ?_, Or.inl hopen'⟩
        show (Session.perform p f op s).map Prod.fst = some s'
        rw [hrun]
        rfl
      · obtain ⟨e, hrefused⟩ := run_operation_closed (p := p) hshut.isOpen op
        refine ⟨s, ?_, Or.inr hshut⟩
        show (Session.perform p f op s).map Prod.fst = some s
        rw [perform_refused hrefused]
        rfl
  | reopen epoch forkGeneration config kept => exact hs.reopen epoch forkGeneration config kept

/-- An entry that was not released lies above the released position. -/
theorem Steady.kept (hs : Steady p s) {c : CCommitted} (hc : c ∈ s.emitted) :
    c ∈ s.released ∨ s.handle.node.core.memoryFloor < c.slot.toNat := by
  obtain ⟨rest, hrest⟩ := hs.released
  rw [← hrest] at hc
  refine (List.mem_append.mp hc).imp_right fun hc => ?_
  obtain ⟨i, hi, rfl⟩ := List.mem_iff_getElem.mp hc
  have hslots := hs.emitted
  rw [← hrest] at hslots
  have hslot := congrArg (fun slots => slots[s.released.length + i]?) hslots
  simp only [List.map_append, List.length_append] at hslot
  rw [List.getElem?_append_right (by rw [List.length_map]; omega), List.length_map,
    Nat.add_sub_cancel_left, List.getElem?_map, List.getElem?_eq_getElem hi,
    List.getElem?_range' (by omega)] at hslot
  have hposition := hs.position
  have hfloor := hs.floor
  have hvalue : rest[i].slot.toNat = s.base + 1 + 1 * (s.released.length + i) :=
    Option.some.inj hslot
  omega

/-- What stands between two steps obeys the law. -/
theorem Standing.law (hs : Standing p s) : OrderingLaw p s := by
  rcases hs with hopen | hshut
  · have hs := hopen.steady
    refine ⟨hs.traced.sent, hs.traced.floors, hs.emitted, hs.released, hs.position, hs.retained,
      fun hfailed op f => ?_, fun c hc => hs.kept hc⟩
    have hpending := hopen.blocked hfailed
    rcases hs.live.run_operation op with ⟨e, hrefused⟩ | ⟨hphase, -⟩
    · exact ⟨e, perform_refused hrefused⟩
    · rcases hphase with h | h <;> rw [hpending] at h <;> cases h
  · obtain ⟨htraced, -, ⟨hposition, hbase⟩, ⟨hemitted, hreleased⟩, hsound, -⟩ := hshut
    refine ⟨htraced.sent, htraced.floors, ?_, ?_, ?_, fun slot hpos hle => ?_, fun hfailed => ?_,
      fun c hc => ?_⟩
    · rw [hemitted]
      rfl
    · rw [hemitted, hreleased]
    · rw [hposition, hbase, hreleased]
      rfl
    · omega
    · rw [hsound] at hfailed
      cases hfailed
    · rw [hemitted] at hc
      cases hc

/-- A run of a session, as far as its steps meet a condition. -/
def Process.run (p : Profile) (ok : Process → Event → Prop) [∀ s e, Decidable (ok s e)]
    (s : Process) : List Event → Option Process
  | [] => some s
  | e :: rest =>
      if ok s e then
        match s.step p e with
        | none => none
        | some s => s.run p ok rest
      else none

/-- The capacities that the library is compiled with. -/
def bridgeProfile : Profile where
  params :=
    { M := 7
      W := 256
      C := 64
      members_pos := by decide
      members_le := by decide
      window_pow := ⟨8, rfl⟩
      chunk_pos := by decide
      chunk_le := by decide }
  maxValue := 1024
  maxMetadata := 256

/-- Member 1 of three. -/
def memberConfig : CConfig :=
  ⟨1, [1, 2, 3], 0, 0, 5, 1, 1, 1, 0, false, false, false, false⟩

/-- A decision that member 2 reports for a slot. -/
def reported (slot : UInt64) : CEnvelope where
  configurationId := 1
  sender := 2
  recipient := 1
  kind := some .commit
  slot := slot
  entry := { kind := some .command, length := 1, body := [7] }

end PaxosOdin.Session
