import PaxosOdin.Bridge.Plain

/-!
# The guard of the native bridge

Any sequence of native calls on one handle.  The core's durability gate never stops the process: a
transition begins only when no batch is live, and messages are read only after the writes are
confirmed.  A call that is refused changes nothing, and what a batch hands out is what one transition
of the core produced.

Main definitions:

- Definition `World.step`: one native call.
- Definition `Guarded`: the invariant of a handle.

Main results:

- Theorem `bridge_lifecycle`: every call, in every state that a handle can reach.
-/

namespace PaxosOdin.Bridge

/-! ## Calls -/

/-- The native calls on a handle.  The pure queries are left out: `paxodin_state`,
`paxodin_decided_span`, `paxodin_read_decided` and `paxodin_committed_at` read the handle, and those
about the library have none. -/
inductive NativeCall where
  | beginCampaign
  | beginTick
  | beginPropose (value : Option CEntry)
  | beginProposeBatch (values : Option (List CEntry))
  | beginStep (envelope : Option CEnvelope)
  | beginReconnected (peer : UInt16)
  | beginRequestCatchUp (peer : UInt16) (fromSlot : UInt64)
  | beginInstallChosenTrim (trimId chosenTrimSlot : UInt64)
  | copyWrites (r : CopyRequest)
  | copyMessages (r : CopyRequest)
  | copyCommitted (r : CopyRequest)
  | copyRequests (r : CopyRequest)
  | copyAssignedSlots (r : CopyRequest)
  | batchReport (token : Option Token)
  | confirm (token : Option Token)
  | finish (token : Option Token)
  | advanceMemoryFloor (through : UInt64)
  | setCampaignEnabled (enabled : Bool)
  | replayApply (record : Option CWrite)
  | replayRestore (floor : UInt64)
  | replayAbort
  | close

/-- One native call. -/
def Handle.call (p : Profile) (h : Handle) (caller : Caller) : NativeCall → Outcome
  | .beginCampaign => paxodinBeginCampaign p h caller
  | .beginTick => paxodinBeginTick p h caller
  | .beginPropose value => paxodinBeginPropose p h caller value
  | .beginProposeBatch values => paxodinBeginProposeBatch p h caller values
  | .beginStep envelope => paxodinBeginStep p h caller envelope
  | .beginReconnected peer => paxodinBeginReconnected p h caller peer
  | .beginRequestCatchUp peer fromSlot => paxodinBeginRequestCatchUp p h caller peer fromSlot
  | .beginInstallChosenTrim trimId chosenTrimSlot =>
      paxodinBeginInstallChosenTrim p h caller trimId chosenTrimSlot
  | .copyWrites r => paxodinCopyWrites p h caller r
  | .copyMessages r => paxodinCopyMessages p h caller r
  | .copyCommitted r => paxodinCopyCommitted p h caller r
  | .copyRequests r => paxodinCopyRequests h caller r
  | .copyAssignedSlots r => paxodinCopyAssignedSlots h caller r
  | .batchReport token => paxodinBatchReport h caller token
  | .confirm token => paxodinConfirm h caller token
  | .finish token => paxodinFinish h caller token
  | .advanceMemoryFloor through => paxodinAdvanceMemoryFloor h caller through
  | .setCampaignEnabled enabled => paxodinSetCampaignEnabled h caller enabled
  | .replayApply record => paxodinReplayApply p h caller record
  | .replayRestore floor => paxodinReplayRestore p h caller floor
  | .replayAbort => paxodinReplayAbort h caller
  | .close => paxodinNodeClose h

/-- The transition that a call asks for. -/
def NativeCall.arguments (p : Profile) : NativeCall → Option (Except Status Transition)
  | .beginCampaign => some (.ok (.log (.campaign noop)))
  | .beginTick => some (.ok (.log (.tick noop)))
  | .beginPropose value => some (proposeArguments p value)
  | .beginProposeBatch values => some (proposeBatchArguments p values)
  | .beginStep envelope => some (stepArguments p envelope)
  | .beginReconnected peer => some (reconnectedArguments peer)
  | .beginRequestCatchUp peer fromSlot => some (requestCatchUpArguments peer fromSlot)
  | .beginInstallChosenTrim trimId chosenTrimSlot =>
      some (.ok (.installChosenTrim ⟨trimId.toNat, chosenTrimSlot.toNat⟩))
  | _ => none

/-- The token that a call names, for the calls on a batch. -/
def NativeCall.token? : NativeCall → Option (Option Token)
  | .copyWrites r | .copyMessages r | .copyCommitted r | .copyRequests r | .copyAssignedSlots r =>
      some r.token
  | .batchReport token | .confirm token | .finish token => some token
  | _ => none

/-! ## Runs -/

/-- A transition that the core performed for a batch, and the node before it. -/
structure Performed where
  generation : Nat
  before : ReplicatedLogNode Command
  transition : Transition

/-- What the core left, from reset effects. -/
def Performed.ran (p : Profile) (d : Performed) : Ran :=
  d.transition.run p d.before {}

/-- A handle with its history: the transitions that ran, and whether a confirm of the last one's batch
succeeded. -/
structure World where
  handle : Handle
  performed : List Performed := []
  confirmed : Bool := false

/-- The transitions a call adds to the history. -/
def World.performs (p : Profile) (w : World) (call : NativeCall) (h : Handle) (reply : Reply) :
    List Performed :=
  match call.arguments p with
  | some (.ok t) => if reply.status = .ok then [⟨h.batch.generation, w.handle.node, t⟩] else []
  | _ => []

/-- Whether the batch of the last transition is confirmed after a call. -/
def World.confirms (p : Profile) (w : World) (call : NativeCall) (h : Handle) (reply : Reply) :
    Bool :=
  match call with
  | .confirm _ => w.confirmed || decide (reply.status = .ok)
  | _ => w.confirmed && (w.performs p call h reply).isEmpty

/-- One native call; `none` when the core stops the process. -/
def World.step (p : Profile) (w : World) (caller : Caller) (call : NativeCall) :
    Option (World × Reply) :=
  match w.handle.call p caller call with
  | none => none
  | some (h, reply) =>
      some ({ handle := h
              performed := w.performed ++ w.performs p call h reply
              confirmed := w.confirms p call h reply }, reply)

/-- The ways a handle is opened. -/
inductive Handle.Opens (p : Profile) (epoch forkGeneration : Nat) : Handle → Prop
  | fresh {config : CConfig} {h : Handle} (hopen : paxodinNodeOpen p epoch forkGeneration config = .ok h) :
      Handle.Opens p epoch forkGeneration h
  | continueAt {config : CConfig} {floor trimId chosenTrimSlot : UInt64} {h : Handle}
      (hopen : paxodinNodeOpenContinueAt p epoch forkGeneration config floor trimId chosenTrimSlot =
        .ok h) :
      Handle.Opens p epoch forkGeneration h
  | forReplay {config : CConfig} {h : Handle}
      (hopen : paxodinNodeOpenForReplay p epoch forkGeneration config = .ok h) :
      Handle.Opens p epoch forkGeneration h

/-- The states that calls lead to. -/
inductive World.Reaches (p : Profile) (start : World) : World → Prop
  | refl : World.Reaches p start start
  | step {w w' : World} {caller : Caller} {call : NativeCall} {reply : Reply}
      (hr : World.Reaches p start w) (hstep : w.step p caller call = some (w', reply)) :
      World.Reaches p start w'

/-! ## The invariant -/

/-- The batch of a handle is what one transition of the core left.  The entries of a batch borrow their
values from the ledger and from `pass_through`, so these too are as the transition left them. -/
structure Batched (p : Profile) (h : Handle) (d : Performed) : Prop where
  generation : d.generation = h.batch.generation
  effects : h.effects = (d.ran p).effects
  writes : h.batch.writeCount = (d.ran p).effects.writes.length
  messages : h.batch.messageCount = (d.ran p).effects.messages.length
  committed : h.batch.committedCount = (d.ran p).effects.committed.length
  requests : h.batch.requestCount = (d.ran p).effects.requests.length
  assigned : h.batch.assigned = (d.ran p).assigned
  assignedCount : h.batch.assignedCount = (d.ran p).assigned.length
  ledger : h.node.core.ledger = (d.ran p).node.core.ledger
  passThrough : h.node.core.passThrough = (d.ran p).node.core.passThrough
  configurationId : h.node.configurationId = (d.ran p).node.configurationId

/-- The progress of a batch changes nothing that it hands out. -/
theorem Batched.progress {p : Profile} {h : Handle} {d : Performed} (hb : Batched p h d)
    (writesPending : Bool) (phase : BatchPhase) (through : Nat) :
    Batched p
      { h with
        writesPending := writesPending
        batch := { h.batch with phase := phase, writesCopiedThrough := through } } d :=
  ⟨hb.generation, hb.effects, hb.writes, hb.messages, hb.committed, hb.requests, hb.assigned,
    hb.assignedCount, hb.ledger, hb.passThrough, hb.configurationId⟩

/-- The invariant of an open handle. -/
structure Guarded (p : Profile) (w : World) : Prop where
  idle : w.handle.busy = false
  member : w.handle.membership.Valid
  plain : PlainNode p w.handle.node
  ledger : ∀ l, w.handle.replay = some l → PlainLedger l
  replaying : w.handle.replaying = true → w.handle.batch.phase = .idle
  flag : w.handle.writesPending = true → w.handle.batch.phase = .pending
  batch : w.handle.batch.phase ≠ .idle →
    ∃ d, w.performed.getLast? = some d ∧ Batched p w.handle d
  confirmed : w.handle.batch.phase = .confirmed → w.confirmed = true ∨ w.handle.batch.writeCount = 0

/-! ## What a call may do -/

/-- What a copy asks for. -/
def CopyRequest.part {α : Type} (r : CopyRequest) (records : List α) : List α :=
  (records.drop r.offset.toNat).take r.want.toNat

/-- The copies clamp the count to the records that there are. -/
theorem CopyRequest.part_eq {α : Type} (r : CopyRequest) (records : List α) :
    r.part records = slice records r.offset.toNat
      (min r.want.toNat (records.length - r.offset.toNat)) := by
  unfold CopyRequest.part slice
  rw [List.take_eq_take_iff, List.length_drop]
  omega

/-- What a call on a batch hands out, when `ran` is the transition of the batch. -/
def NativeCall.HandsOut (p : Profile) (ran : Ran) (reply : Reply) : NativeCall → Prop
  | .copyWrites r =>
      reply = { status := .ok, writes := (r.part ran.effects.writes).map (writeToC p.maxValue) }
  | .copyMessages r =>
      reply = { status := .ok
                messages := (r.part ran.effects.messages).map
                  (envelopeToC p.maxValue ran.node.configurationId) }
  | .copyCommitted r =>
      reply = { status := .ok
                committed := (r.part ran.effects.committed).map (committedToC p.maxValue) }
  | .copyRequests r =>
      reply = { status := .ok, requests := (r.part ran.effects.requests).map requestToC }
  | .copyAssignedSlots r => reply = { status := .ok, assigned := r.part ran.assigned }
  | _ => True

/-- Nothing of a batch is handed out. -/
def Reply.Silent (reply : Reply) : Prop :=
  reply.writes = [] ∧ reply.messages = [] ∧ reply.committed = [] ∧ reply.requests = [] ∧
    reply.assigned = []

/-- The law of one call. -/
structure StepLaw (p : Profile) (w : World) (call : NativeCall) (w' : World) (reply : Reply) :
    Prop where
  refused : reply.status ≠ .ok → w' = w
  token : ∀ token, call.token? = some (some token) →
    token ≠ ⟨w.handle.epoch, w.handle.batch.generation⟩ → reply.status ≠ .ok
  single : w'.performed ≠ w.performed →
    (w.handle.batch.phase = .idle ∨ w.handle.batch.phase = .finished) ∧
      w.handle.replaying = false ∧ ∃ d, w'.performed = w.performed ++ [d] ∧
        d.before = w.handle.node ∧ w'.handle.node = (d.ran p).node ∧ Batched p w'.handle d
  still : w.handle.batch.phase = .pending ∨ w.handle.batch.phase = .confirmed →
    (∀ enabled, call ≠ .setCampaignEnabled enabled) → w'.handle.node = w.handle.node
  gate : reply.messages ≠ [] ∨ reply.committed ≠ [] ∨ reply.requests ≠ [] →
    w.confirmed = true ∨ ∃ d, w.performed.getLast? = some d ∧ (d.ran p).effects.writes = []
  handed : reply.status = .ok → ∀ token, call.token? = some token →
    ∃ d, w.performed.getLast? = some d ∧ Batched p w.handle d ∧
      token = some ⟨w.handle.epoch, d.generation⟩ ∧ call.HandsOut p (d.ran p) reply
  silent : call.token? = none ∨ reply.status ≠ .ok → reply.Silent

/-- A call that is refused. -/
theorem StepLaw.ofRefusal {p : Profile} {w : World} {call : NativeCall} {status : Status}
    (hstatus : status ≠ .ok) : StepLaw p w call w { status := status } :=
  ⟨fun _ => rfl, fun _ _ _ => hstatus, fun h => absurd rfl h, fun _ _ => rfl,
    fun h => (by rcases h with h | h | h <;> exact absurd rfl h), fun h => absurd h hstatus,
    fun _ => ⟨rfl, rfl, rfl, rfl, rfl⟩⟩

theorem World.step_refused {p : Profile} {w : World} {caller : Caller} {call : NativeCall}
    {status : Status} (hstatus : status ≠ .ok)
    (h : w.handle.call p caller call = refuse w.handle status) :
    w.step p caller call = some (w, { status := status }) := by
  have hperforms : w.performs p call w.handle { status := status } = [] := by
    unfold World.performs
    split
    · exact if_neg hstatus
    · rfl
  have hconfirms : w.confirms p call w.handle { status := status } = w.confirmed := by
    unfold World.confirms
    split
    · simp [hstatus]
    · rw [hperforms]
      simp
  unfold World.step
  rw [h, refuse]
  dsimp only
  rw [hperforms, hconfirms, List.append_nil]

/-! ## The guards of an export -/

/-- An export returns early, or its body runs on the busy handle. -/
theorem entered_cases {h : Handle} (hidle : h.busy = false) (caller : Caller)
    (body : Handle → Outcome) :
    (∃ status, status ≠ .ok ∧ entered h caller body = refuse h status) ∨
      entered h caller body =
        (body { h with busy := true }).map fun r => (leave r.1, r.2) := by
  unfold entered enter
  by_cases hopen : (!h.isOpen) = true
  · rw [if_pos hopen]
    exact Or.inl ⟨_, by decide, rfl⟩
  rw [if_neg hopen]
  by_cases hfork : h.forkGeneration ≠ caller.forkGeneration
  · rw [if_pos hfork]
    exact Or.inl ⟨_, by decide, rfl⟩
  rw [if_neg hfork]
  by_cases hpoisoned : h.poisoned = true
  · rw [if_pos hpoisoned]
    exact Or.inl ⟨_, by decide, rfl⟩
  rw [if_neg hpoisoned, if_neg (by simp [hidle])]
  right
  dsimp only
  cases body { h with busy := true } <;> rfl

/-- A closed handle refuses every export. -/
theorem entered_closed {h : Handle} (hclosed : h.isOpen = false) (caller : Caller)
    (body : Handle → Outcome) : entered h caller body = refuse h .handleClosed := by
  unfold entered enter
  rw [if_pos (by simp [hclosed])]

theorem leave_busy {h : Handle} (hidle : h.busy = false) : leave { h with busy := true } = h := by
  unfold leave
  rw [← hidle]

/-- A body that refuses leaves the handle as it was. -/
theorem refuse_leave {h : Handle} (hidle : h.busy = false) (status : Status) :
    (refuse { h with busy := true } status).map (fun r => (leave r.1, r.2)) = refuse h status := by
  unfold refuse
  rw [Option.map_some, leave_busy hidle]

/-! ## Transitions -/

/-- The handle after a transition. -/
def Handle.begun (p : Profile) (h : Handle) (t : Transition) : Handle :=
  let ran := t.run p h.node {}
  let generation := (h.generation + 1) % 2 ^ 64
  batchSeal
    { h with
      generation := generation
      batch := { generation := generation, phase := .pending }
      node := ran.node
      effects := ran.effects
      writesPending := !ran.effects.writes.isEmpty }
    ran

/-- A transition is refused, or it begins when no batch is live. -/
theorem beginTransition_cases {p : Profile} {w : World} (hg : Guarded p w) (caller : Caller)
    {arguments : Except Status Transition} (hplain : ∀ t, arguments = .ok t → t.Plain p)
    (herror : ∀ status, arguments = .error status → status ≠ .ok) :
    (∃ status, status ≠ .ok ∧ beginTransition p w.handle caller arguments = refuse w.handle status) ∨
      ∃ t, arguments = .ok t ∧ w.handle.replaying = false ∧
        (w.handle.batch.phase = .idle ∨ w.handle.batch.phase = .finished) ∧
        beginTransition p w.handle caller arguments = some (w.handle.begun p t,
          { status := .ok
            token := some ⟨w.handle.epoch, (w.handle.begun p t).batch.generation⟩
            report := some (reportFill (w.handle.begun p t)) }) := by
  have hrefuse := fun status => refuse_leave hg.idle status
  unfold beginTransition
  refine (entered_cases hg.idle caller _).elim Or.inl fun hran => ?_
  rw [hran]
  by_cases hstorage : (!caller.storage) = true
  · rw [if_pos hstorage, hrefuse]
    exact Or.inl ⟨_, by decide, rfl⟩
  rw [if_neg hstorage]
  cases arguments with
  | error status => exact Or.inl ⟨status, herror status rfl, hrefuse _⟩
  | ok t =>
      dsimp only
      unfold batchOpen
      by_cases hreplaying : w.handle.replaying = true
      · rw [if_pos hreplaying]
        exact Or.inl ⟨_, by decide, hrefuse _⟩
      rw [if_neg hreplaying]
      by_cases hlive : w.handle.batch.phase = .pending ∨ w.handle.batch.phase = .confirmed
      · rw [if_pos hlive]
        exact Or.inl ⟨_, by decide, hrefuse _⟩
      rw [if_neg hlive]
      rw [not_or] at hlive
      have hphase : w.handle.batch.phase = .idle ∨ w.handle.batch.phase = .finished := by
        cases hp : w.handle.batch.phase with
        | idle => exact Or.inl rfl
        | finished => exact Or.inr rfl
        | pending => exact absurd hp hlive.1
        | confirmed => exact absurd hp hlive.2
      have hflag : w.handle.writesPending = false := by
        rw [Bool.eq_false_iff]
        exact fun hpending => hlive.1 (hg.flag hpending)
      have hreaches := (hplain t rfl).reaches hg.plain
      refine Or.inr ⟨t, rfl, by simpa using hreplaying, hphase, ?_⟩
      have hidle := hg.idle
      simp only [Handle.transition, hreaches, hflag, Transition.run_reset _ hreaches, Handle.begun,
        batchSeal, leave, Option.map_some, Bool.false_eq_true, if_false, reportFill, hidle]

/-- A call returns, keeps the invariant and obeys the law. -/
def Lawful (p : Profile) (w : World) (caller : Caller) (call : NativeCall) : Prop :=
  ∃ w' reply, w.step p caller call = some (w', reply) ∧
    (w'.handle.isOpen = true → Guarded p w') ∧ StepLaw p w call w' reply

theorem Lawful.ofRefusal {p : Profile} {w : World} {caller : Caller} {call : NativeCall}
    (hg : w.handle.isOpen = true → Guarded p w)
    (h : ∃ status, status ≠ .ok ∧ w.handle.call p caller call = refuse w.handle status) :
    Lawful p w caller call := by
  obtain ⟨status, hstatus, hrefuse⟩ := h
  exact ⟨w, _, World.step_refused hstatus hrefuse, hg, .ofRefusal hstatus⟩

/-- The invariant after a transition. -/
theorem Guarded.begun {p : Profile} {w : World} (hg : Guarded p w) {t : Transition}
    (ht : t.Plain p) (hreplaying : w.handle.replaying = false) :
    Guarded p
      { handle := w.handle.begun p t
        performed := w.performed ++ [⟨(w.handle.begun p t).batch.generation, w.handle.node, t⟩]
        confirmed := false } := by
  have hreplay : (w.handle.begun p t).replaying = false := hreplaying
  refine ⟨hg.idle, hg.member, Transition.plain ht hg.plain, hg.ledger, fun h => ?_, fun h => ?_,
    fun _ => ⟨_, List.getLast?_concat, ?_⟩, fun h => ?_⟩
  · rw [hreplay] at h
    cases h
  · have hwrites : (t.run p w.handle.node {}).effects.writes ≠ [] := by
      simpa [Handle.begun, batchSeal] using h
    have hlength : (t.run p w.handle.node {}).effects.writes.length ≠ 0 :=
      fun hzero => hwrites (List.eq_nil_of_length_eq_zero hzero)
    simp only [Handle.begun, batchSeal]
    rw [if_neg hlength]
  · exact ⟨rfl, rfl, rfl, rfl, rfl, rfl, rfl, rfl, rfl, rfl, rfl⟩
  · right
    simp only [Handle.begun, batchSeal] at h ⊢
    by_contra hcount
    rw [if_neg hcount] at h
    cases h

/-- The calls that begin a transition. -/
theorem Lawful.begin {p : Profile} {w : World} {caller : Caller} {call : NativeCall}
    {arguments : Except Status Transition} (hg : Guarded p w)
    (hcall : w.handle.call p caller call = beginTransition p w.handle caller arguments)
    (harguments : call.arguments p = some arguments)
    (hplain : ∀ t, arguments = .ok t → t.Plain p)
    (herror : ∀ status, arguments = .error status → status ≠ .ok) : Lawful p w caller call := by
  have htoken : call.token? = none := by
    cases call <;> first | rfl | cases harguments
  have hconfirm : ∀ h reply, w.confirms p call h reply =
      (w.confirmed && (w.performs p call h reply).isEmpty) := by
    intro h reply
    cases call <;> first | rfl | cases harguments
  rcases beginTransition_cases hg caller hplain herror with
    hrefuse | ⟨t, rfl, hreplaying, hphase, hran⟩
  · exact Lawful.ofRefusal (fun _ => hg) (hcall ▸ hrefuse)
  have hperforms : ∀ reply, reply.status = .ok → w.performs p call (w.handle.begun p t) reply =
      [⟨(w.handle.begun p t).batch.generation, w.handle.node, t⟩] := by
    intro reply hok
    simp only [World.performs, harguments, hok, if_true]
  have hguarded := hg.begun (hplain t rfl) hreplaying
  refine ⟨_, { status := .ok
               token := some ⟨w.handle.epoch, (w.handle.begun p t).batch.generation⟩
               report := some (reportFill (w.handle.begun p t)) }, ?_, fun _ => hguarded, ?_⟩
  · unfold World.step
    rw [hcall, hran]
    dsimp only
    rw [hconfirm, hperforms _ rfl]
    simp only [List.isEmpty_cons, Bool.and_false]
  · refine ⟨fun h => absurd rfl h, fun token h => (by rw [htoken] at h; cases h),
      fun _ => ⟨hphase, hreplaying, _, rfl, rfl, rfl, ⟨rfl, rfl, rfl, rfl, rfl, rfl, rfl, rfl, rfl, rfl,
        rfl⟩⟩, fun hlive => ?_, fun h => ?_, fun _ token h => (by rw [htoken] at h; cases h),
      fun _ => ⟨rfl, rfl, rfl, rfl, rfl⟩⟩
    · rcases hphase with hidle | hfinished
      · rw [hidle] at hlive
        rcases hlive with h | h <;> cases h
      · rw [hfinished] at hlive
        rcases hlive with h | h <;> cases h
    · rcases h with h | h | h <;> exact absurd rfl h

/-! ## Copies -/

/-- A token that is not refused is the token of the live batch. -/
theorem tokenCheck_cases (h : Handle) (token : Option Token) :
    (∃ status, status ≠ .ok ∧ tokenCheck h token = status) ∨
      (tokenCheck h token = .ok ∧ token = some ⟨h.epoch, h.batch.generation⟩ ∧
        h.batch.phase ≠ .idle) := by
  unfold tokenCheck
  cases token with
  | none => exact Or.inl ⟨.nullPointer, by decide, rfl⟩
  | some token =>
      dsimp only
      by_cases hepoch : token.epoch ≠ h.epoch
      · rw [if_pos hepoch]
        exact Or.inl ⟨_, by decide, rfl⟩
      rw [if_neg hepoch]
      by_cases hidle : h.batch.phase = .idle
      · rw [if_pos hidle]
        exact Or.inl ⟨_, by decide, rfl⟩
      rw [if_neg hidle]
      by_cases hgeneration : token.generation ≠ h.batch.generation
      · rw [if_pos hgeneration]
        exact Or.inl ⟨_, by decide, rfl⟩
      rw [if_neg hgeneration]
      obtain ⟨epoch, generation⟩ := token
      rw [not_not] at hepoch hgeneration
      exact Or.inr ⟨rfl, by rw [← hepoch, ← hgeneration], hidle⟩

/-- A copy is refused, or it copies part of the live batch. -/
theorem copyOutput_cases {h : Handle} (hidle : h.busy = false) (caller : Caller) (r : CopyRequest)
    {gate : Handle → Status} {total : Batch → Nat} {copy : Handle → Nat → Outcome} :
    (∃ status, status ≠ .ok ∧ copyOutput h caller r gate total copy = refuse h status) ∨
      (r.token = some ⟨h.epoch, h.batch.generation⟩ ∧ h.batch.phase ≠ .idle ∧
        gate { h with busy := true } = .ok ∧
        copyOutput h caller r gate total copy =
          (copy { h with busy := true }
            (min r.want.toNat (total h.batch - r.offset.toNat))).map fun o => (leave o.1, o.2)) := by
  have hrefuse := fun status => refuse_leave hidle status
  unfold copyOutput
  refine (entered_cases hidle caller _).elim Or.inl fun hran => ?_
  rw [hran]
  rcases tokenCheck_cases { h with busy := true } r.token with
    ⟨status, hstatus, hcheck⟩ | ⟨hcheck, htoken, hphase⟩
  · rw [hcheck]
    cases status with
    | ok => exact absurd rfl hstatus
    | _ => exact Or.inl ⟨_, by simp, hrefuse _⟩
  rw [hcheck]
  dsimp only
  cases hgate : gate { h with busy := true } with
  | ok =>
      dsimp only
      by_cases hstorage : (!caller.storage) = true
      · rw [if_pos hstorage]
        exact Or.inl ⟨_, by decide, hrefuse _⟩
      rw [if_neg hstorage]
      unfold span
      by_cases hrange : r.offset.toNat > total h.batch
      · rw [if_pos hrange]
        exact Or.inl ⟨_, by decide, hrefuse _⟩
      · rw [if_neg hrange]
        exact Or.inr ⟨htoken, hphase, rfl, rfl⟩
  | _ => exact Or.inl ⟨_, by simp, hrefuse _⟩

/-- A call that begins nothing and confirms nothing. -/
theorem World.step_aside {p : Profile} {w : World} {caller : Caller} {call : NativeCall} {h : Handle}
    {reply : Reply} (harguments : call.arguments p = none) (hconfirm : ∀ token, call ≠ .confirm token)
    (hcall : w.handle.call p caller call = some (h, reply)) :
    w.step p caller call = some ({ w with handle := h }, reply) := by
  have hperforms : w.performs p call h reply = [] := by
    unfold World.performs
    rw [harguments]
  have hconfirms : w.confirms p call h reply = w.confirmed := by
    unfold World.confirms
    split
    · next token => exact absurd rfl (hconfirm token)
    · rw [hperforms]
      exact Bool.and_true _
  unfold World.step
  rw [hcall]
  dsimp only
  rw [hperforms, hconfirms, List.append_nil]

/-- A call on a batch. -/
theorem StepLaw.onBatch {p : Profile} {w : World} {call : NativeCall} {token : Option Token}
    {h : Handle} {confirmed : Bool} {reply : Reply} {d : Performed} (hok : reply.status = .ok)
    (hcall : call.token? = some token)
    (htoken : token = some ⟨w.handle.epoch, w.handle.batch.generation⟩)
    (hlast : w.performed.getLast? = some d) (hbatch : Batched p w.handle d)
    (hnode : h.node = w.handle.node)
    (hgate : reply.messages ≠ [] ∨ reply.committed ≠ [] ∨ reply.requests ≠ [] →
      w.confirmed = true ∨ w.handle.batch.writeCount = 0)
    (hhands : call.HandsOut p (d.ran p) reply) :
    StepLaw p w call { handle := h, performed := w.performed, confirmed := confirmed } reply := by
  refine ⟨fun h => absurd hok h, fun other hother hne => ?_, fun h => absurd rfl h, fun _ _ => hnode,
    fun h => ?_, fun _ other hother => ?_, fun h => ?_⟩
  · rw [hcall, htoken] at hother
    cases hother
    exact absurd rfl hne
  · refine (hgate h).imp id fun hzero => ⟨d, hlast, List.eq_nil_of_length_eq_zero ?_⟩
    rw [← hbatch.writes, hzero]
  · rw [hcall] at hother
    cases hother
    exact ⟨d, hlast, hbatch, by rw [htoken, hbatch.generation], hhands⟩
  · rcases h with h | h
    · rw [hcall] at h
      cases h
    · exact absurd hok h

/-- The handle after a copy. -/
def Handle.copied (h : Handle) (through : Nat) : Handle :=
  { h with batch := { h.batch with writesCopiedThrough := through } }

theorem Guarded.copied {p : Profile} {w : World} (hg : Guarded p w) (through : Nat) :
    Guarded p { w with handle := w.handle.copied through } := by
  refine ⟨hg.idle, hg.member, hg.plain, hg.ledger, hg.replaying, hg.flag, fun hphase => ?_,
    hg.confirmed⟩
  obtain ⟨d, hlast, hbatch⟩ := hg.batch hphase
  exact ⟨d, hlast, hbatch.progress _ _ _⟩

/-- The calls that copy a part of the batch. -/
theorem Lawful.copy {p : Profile} {w : World} {caller : Caller} {call : NativeCall}
    {r : CopyRequest} {gate : Handle → Status} {total : Batch → Nat}
    {copy : Handle → Nat → Outcome} (hg : Guarded p w)
    (hcall : w.handle.call p caller call = copyOutput w.handle caller r gate total copy)
    (htoken : call.token? = some r.token) (harguments : call.arguments p = none)
    (hconfirm : ∀ token, call ≠ .confirm token)
    (hcopy : ∀ d, Batched p w.handle d → w.handle.batch.phase ≠ .idle →
      gate { w.handle with busy := true } = .ok → ∃ through reply,
        copy { w.handle with busy := true }
            (min r.want.toNat (total w.handle.batch - r.offset.toNat)) =
          some (({ w.handle with busy := true } : Handle).copied through, reply) ∧
        reply.status = .ok ∧ call.HandsOut p (d.ran p) reply ∧
        (reply.messages ≠ [] ∨ reply.committed ≠ [] ∨ reply.requests ≠ [] →
          w.handle.batch.phase = .confirmed)) : Lawful p w caller call := by
  rcases @copyOutput_cases w.handle hg.idle caller r gate total copy with
    hrefuse | ⟨hmatch, hphase, hgate, hran⟩
  · exact Lawful.ofRefusal (fun _ => hg) (hcall ▸ hrefuse)
  obtain ⟨d, hlast, hbatch⟩ := hg.batch hphase
  obtain ⟨through, reply, hresult, hok, hhands, hconfirmed⟩ := hcopy d hbatch hphase hgate
  rw [hresult] at hran
  have hleave : leave (({ w.handle with busy := true } : Handle).copied through) =
      w.handle.copied through := by
    unfold leave Handle.copied
    rw [← hg.idle]
  refine ⟨_, reply, World.step_aside harguments hconfirm (hcall.trans hran), fun _ => ?_, ?_⟩
  · rw [hleave]
    exact hg.copied through
  · rw [hleave]
    exact .onBatch hok htoken hmatch hlast hbatch rfl (fun h => hg.confirmed (hconfirmed h)) hhands

/-- The gate of the outputs opens only for a confirmed batch. -/
theorem outputGate_ok {h : Handle} (hphase : h.batch.phase ≠ .idle) (hgate : outputGate h = .ok) :
    h.batch.phase = .confirmed := by
  unfold outputGate at hgate
  cases hcase : h.batch.phase with
  | idle => exact absurd hcase hphase
  | confirmed => rfl
  | pending | finished =>
      rw [hcase] at hgate
      cases hgate

section Copies

variable {p : Profile} {w : World} (hg : Guarded p w) (caller : Caller) (r : CopyRequest)
include hg

theorem Lawful.copyWrites : Lawful p w caller (.copyWrites r) := by
  refine .copy hg rfl rfl rfl nofun fun d hbatch _ _ => ?_
  refine ⟨max w.handle.batch.writesCopiedThrough
    (r.offset.toNat + min r.want.toNat (w.handle.batch.writeCount - r.offset.toNat)), _, rfl, rfl, ?_,
    by simp⟩
  simp only [NativeCall.HandsOut, CopyRequest.part_eq, hbatch.effects, hbatch.writes]

theorem Lawful.copyMessages : Lawful p w caller (.copyMessages r) := by
  refine .copy hg rfl rfl rfl nofun fun d hbatch hphase hgate => ?_
  have hconfirmed : w.handle.batch.phase = .confirmed := outputGate_ok hphase hgate
  have hflag : w.handle.writesPending = false := by
    rw [Bool.eq_false_iff]
    intro hpending
    have hpendingPhase := hg.flag hpending
    rw [hconfirmed] at hpendingPhase
    cases hpendingPhase
  refine ⟨w.handle.batch.writesCopiedThrough,
    { status := .ok
      messages := (r.part w.handle.effects.messages).map
        (envelopeToC p.maxValue w.handle.node.configurationId) },
    ?_, rfl, ?_, fun _ => hconfirmed⟩
  · simp only [messagesSlice, hflag, CopyRequest.part_eq, hbatch.effects, hbatch.messages]
    rfl
  · simp only [NativeCall.HandsOut, hbatch.effects, hbatch.configurationId]

theorem Lawful.copyCommitted : Lawful p w caller (.copyCommitted r) := by
  refine .copy hg rfl rfl rfl nofun fun d hbatch hphase hgate =>
    ⟨w.handle.batch.writesCopiedThrough, _, rfl, rfl, ?_, fun _ => outputGate_ok hphase hgate⟩
  simp only [NativeCall.HandsOut, CopyRequest.part_eq, hbatch.effects, hbatch.committed]

theorem Lawful.copyRequests : Lawful p w caller (.copyRequests r) := by
  refine .copy hg rfl rfl rfl nofun fun d hbatch hphase hgate =>
    ⟨w.handle.batch.writesCopiedThrough, _, rfl, rfl, ?_, fun _ => outputGate_ok hphase hgate⟩
  simp only [NativeCall.HandsOut, CopyRequest.part_eq, hbatch.effects, hbatch.requests]

theorem Lawful.copyAssignedSlots : Lawful p w caller (.copyAssignedSlots r) := by
  refine .copy hg rfl rfl rfl nofun fun d hbatch hphase hgate =>
    ⟨w.handle.batch.writesCopiedThrough, _, rfl, rfl, ?_, by simp⟩
  simp only [NativeCall.HandsOut, CopyRequest.part_eq, hbatch.assigned, hbatch.assignedCount]

end Copies

/-! ## Reports, confirms and finishes -/

/-- The token check, and the body behind it. -/
def checked (h : Handle) (token : Option Token) (body : Handle → Outcome) : Outcome :=
  match tokenCheck h token with
  | .ok => body h
  | status => refuse h status

/-- What a confirm does behind the token check. -/
def confirmBody (h : Handle) : Outcome :=
  match h.batch.phase with
  | .confirmed => refuse h .ok
  | .finished => refuse h .batchFinished
  | _ =>
      if h.batch.writesCopiedThrough < h.batch.writeCount then refuse h .writesNotCopied
      else
        some ({ h with
          writesPending := false
          batch := { h.batch with phase := .confirmed } }, { status := .ok })

/-- What a finish does behind the token check. -/
def finishBody (h : Handle) : Outcome :=
  match h.batch.phase with
  | .finished => refuse h .ok
  | .pending => refuse h .writesUnconfirmed
  | _ => some ({ h with batch := { h.batch with phase := .finished } }, { status := .ok })

/-- A body behind the token check is refused, or runs on the live batch. -/
theorem checked_cases {h : Handle} (hidle : h.busy = false) (caller : Caller) (token : Option Token)
    (body : Handle → Outcome) :
    (∃ status, status ≠ .ok ∧
        entered h caller (fun h => checked h token body) = refuse h status) ∨
      (token = some ⟨h.epoch, h.batch.generation⟩ ∧ h.batch.phase ≠ .idle ∧
        entered h caller (fun h => checked h token body) =
          (body { h with busy := true }).map fun o => (leave o.1, o.2)) := by
  refine (entered_cases hidle caller _).elim Or.inl fun hran => ?_
  rw [hran]
  unfold checked
  rcases tokenCheck_cases { h with busy := true } token with
    ⟨status, hstatus, hcheck⟩ | ⟨hcheck, htoken, hphase⟩
  · rw [hcheck]
    cases status with
    | ok => exact absurd rfl hstatus
    | _ => exact Or.inl ⟨_, by simp, refuse_leave hidle _⟩
  · rw [hcheck]
    exact Or.inr ⟨htoken, hphase, rfl⟩

theorem Guarded.confirm {p : Profile} {w : World} (hg : Guarded p w)
    (hphase : w.handle.batch.phase ≠ .idle) :
    Guarded p
      { w with
        handle := { w.handle with
          writesPending := false
          batch := { w.handle.batch with phase := .confirmed } }
        confirmed := true } := by
  obtain ⟨d, hlast, hbatch⟩ := hg.batch hphase
  exact ⟨hg.idle, hg.member, hg.plain, hg.ledger,
    fun hreplaying => absurd (hg.replaying hreplaying) hphase, nofun,
    fun _ => ⟨d, hlast, hbatch.progress _ _ _⟩, fun _ => Or.inl rfl⟩

theorem Guarded.finish {p : Profile} {w : World} (hg : Guarded p w)
    (hphase : w.handle.batch.phase = .confirmed) :
    Guarded p
      { w with
        handle := { w.handle with batch := { w.handle.batch with phase := .finished } } } := by
  have hlive : w.handle.batch.phase ≠ .idle := by
    rw [hphase]
    decide
  obtain ⟨d, hlast, hbatch⟩ := hg.batch hlive
  refine ⟨hg.idle, hg.member, hg.plain, hg.ledger,
    fun hreplaying => absurd (hg.replaying hreplaying) hlive, fun hpending => ?_,
    fun _ => ⟨d, hlast, hbatch.progress _ _ _⟩, nofun⟩
  have hpendingPhase := hg.flag hpending
  rw [hphase] at hpendingPhase
  cases hpendingPhase

/-- The batch of the last transition counts as confirmed after a confirm. -/
theorem World.step_confirm {p : Profile} {w : World} {caller : Caller} {token : Option Token}
    {h : Handle}
    (hcall : w.handle.call p caller (.confirm token) = some (h, { status := .ok })) :
    w.step p caller (.confirm token) =
      some ({ handle := h, performed := w.performed, confirmed := true }, { status := .ok }) := by
  unfold World.step
  rw [hcall]
  simp [World.performs, World.confirms, NativeCall.arguments]

section Lifecycle

variable {p : Profile} {w : World} (hg : Guarded p w) (caller : Caller) (token : Option Token)
include hg

theorem Lawful.batchReport : Lawful p w caller (.batchReport token) := by
  by_cases hstorage : (!caller.storage) = true
  · refine .ofRefusal (fun _ => hg) ?_
    refine (entered_cases hg.idle caller _).elim id fun hran => ?_
    refine ⟨.nullPointer, by decide, Eq.trans hran ?_⟩
    rw [if_pos hstorage]
    exact refuse_leave hg.idle _
  have hbody : w.handle.call p caller (.batchReport token) = entered w.handle caller fun h =>
      checked h token fun h => some (h, { status := .ok, report := some (reportFill h) }) := by
    show paxodinBatchReport w.handle caller token = _
    unfold paxodinBatchReport
    simp only [if_neg hstorage]
    rfl
  rcases checked_cases hg.idle caller token
      (fun h => some (h, { status := .ok, report := some (reportFill h) })) with
    hrefused | ⟨htoken, hphase, hran⟩
  · exact .ofRefusal (fun _ => hg) (hbody ▸ hrefused)
  obtain ⟨d, hlast, hbatch⟩ := hg.batch hphase
  refine ⟨w, { status := .ok, report := some (reportFill { w.handle with busy := true }) },
    World.step_aside rfl nofun (hbody.trans (hran.trans ?_)), fun _ => hg,
    .onBatch rfl rfl htoken hlast hbatch rfl (by simp) trivial⟩
  rw [Option.map_some, leave_busy hg.idle]

theorem Lawful.confirm : Lawful p w caller (.confirm token) := by
  rcases checked_cases hg.idle caller token confirmBody with hrefused | ⟨htoken, hphase, hran⟩
  · exact .ofRefusal (fun _ => hg) hrefused
  obtain ⟨d, hlast, hbatch⟩ := hg.batch hphase
  have hguarded := hg.confirm hphase
  unfold confirmBody at hran
  cases hcase : w.handle.batch.phase with
  | idle => exact absurd hcase hphase
  | confirmed =>
      simp only [hcase] at hran
      rw [refuse_leave hg.idle] at hran
      refine ⟨_, _, World.step_confirm hran, fun _ => ?_,
        .onBatch rfl rfl htoken hlast hbatch rfl (by simp) trivial⟩
      exact ⟨hg.idle, hg.member, hg.plain, hg.ledger, hg.replaying, hg.flag, hg.batch,
        fun _ => Or.inl rfl⟩
  | finished =>
      simp only [hcase] at hran
      rw [refuse_leave hg.idle] at hran
      exact .ofRefusal (fun _ => hg) ⟨.batchFinished, by decide, hran⟩
  | pending =>
      simp only [hcase] at hran
      by_cases hcopied : w.handle.batch.writesCopiedThrough < w.handle.batch.writeCount
      · rw [if_pos hcopied, refuse_leave hg.idle] at hran
        exact .ofRefusal (fun _ => hg) ⟨.writesNotCopied, by decide, hran⟩
      · rw [if_neg hcopied] at hran
        refine ⟨_, _, World.step_confirm hran, fun _ => ?_,
          .onBatch rfl rfl htoken hlast hbatch rfl (by simp) trivial⟩
        have hleave := hguarded
        have hidle := hg.idle
        simpa only [leave, hidle] using hleave

theorem Lawful.finish : Lawful p w caller (.finish token) := by
  rcases checked_cases hg.idle caller token finishBody with hrefused | ⟨htoken, hphase, hran⟩
  · exact .ofRefusal (fun _ => hg) hrefused
  obtain ⟨d, hlast, hbatch⟩ := hg.batch hphase
  unfold finishBody at hran
  cases hcase : w.handle.batch.phase with
  | idle => exact absurd hcase hphase
  | finished =>
      simp only [hcase] at hran
      rw [refuse_leave hg.idle] at hran
      exact ⟨w, _, World.step_aside rfl nofun hran, fun _ => hg,
        .onBatch rfl rfl htoken hlast hbatch rfl (by simp) trivial⟩
  | pending =>
      simp only [hcase] at hran
      rw [refuse_leave hg.idle] at hran
      exact .ofRefusal (fun _ => hg) ⟨.writesUnconfirmed, by decide, hran⟩
  | confirmed =>
      simp only [hcase] at hran
      refine ⟨_, _, World.step_aside rfl nofun hran, fun _ => ?_,
        .onBatch rfl rfl htoken hlast hbatch rfl (by simp) trivial⟩
      have hguarded := hg.finish hcase
      have hidle := hg.idle
      simpa only [leave, hidle] using hguarded

end Lifecycle

/-! ## Operations without a batch -/

theorem coreStatus_ok {e : Error} (h : coreStatus e = .ok) : e = .none := by
  cases e with
  | none => rfl
  | _ => cases h

/-- A call that is not on a batch. -/
theorem StepLaw.aside {p : Profile} {w : World} {call : NativeCall} {h : Handle} {reply : Reply}
    (htoken : call.token? = none) (hrefused : reply.status ≠ .ok → h = w.handle)
    (hnode : w.handle.batch.phase = .pending ∨ w.handle.batch.phase = .confirmed →
      (∀ enabled, call ≠ .setCampaignEnabled enabled) → h.node = w.handle.node)
    (hsilent : reply.Silent) : StepLaw p w call { w with handle := h } reply := by
  obtain ⟨hwrites, hmessages, hcommitted, hrequests, hassigned⟩ := hsilent
  refine ⟨fun h => (by rw [hrefused h]), fun _ hcall => ?_, fun h => absurd rfl h, hnode, fun h => ?_,
    fun _ _ hcall => ?_, fun _ => ⟨hwrites, hmessages, hcommitted, hrequests, hassigned⟩⟩
  · rw [htoken] at hcall
    cases hcall
  · rcases h with h | h | h
    · exact absurd hmessages h
    · exact absurd hcommitted h
    · exact absurd hrequests h
  · rw [htoken] at hcall
    cases hcall

/-- An operation that changes the node between batches. -/
theorem Guarded.renode {p : Profile} {w : World} (hg : Guarded p w) {node : ReplicatedLogNode Command}
    (hplain : PlainNode p node) (hledger : node.core.ledger = w.handle.node.core.ledger)
    (hpass : node.core.passThrough = w.handle.node.core.passThrough)
    (hid : node.configurationId = w.handle.node.configurationId) :
    Guarded p { w with handle := { w.handle with node := node } } := by
  refine ⟨hg.idle, hg.member, hplain, hg.ledger, hg.replaying, hg.flag, fun hphase => ?_,
    hg.confirmed⟩
  obtain ⟨d, hlast, hb⟩ := hg.batch hphase
  exact ⟨d, hlast, hb.generation, hb.effects, hb.writes, hb.messages, hb.committed, hb.requests,
    hb.assigned, hb.assignedCount, hledger.trans hb.ledger, hpass.trans hb.passThrough,
    hid.trans hb.configurationId⟩

/-- An operation on the ledger of a replay. -/
theorem Guarded.reledger {p : Profile} {w : World} (hg : Guarded p w) {l : Ledger Value}
    (hl : PlainLedger l) : Guarded p { w with handle := { w.handle with replay := some l } } := by
  refine ⟨hg.idle, hg.member, hg.plain, fun l' hl' => ?_, hg.replaying, hg.flag, fun hphase => ?_,
    hg.confirmed⟩
  · cases hl'
    exact hl
  · obtain ⟨d, hlast, hb⟩ := hg.batch hphase
    exact ⟨d, hlast, hb.generation, hb.effects, hb.writes, hb.messages, hb.committed, hb.requests,
      hb.assigned, hb.assignedCount, hb.ledger, hb.passThrough, hb.configurationId⟩

/-- The invariant once a replay has restored the node. -/
theorem Guarded.restored {p : Profile} {w : World} (hg : Guarded p w)
    {node : ReplicatedLogNode Command} (hplain : PlainNode p node) :
    Guarded p
      { w with
        handle := { w.handle with
          node := node
          replay := none
          replaying := false
          effects := {}
          writesPending := false
          batch := {} } } :=
  ⟨hg.idle, hg.member, hplain, nofun, nofun, nofun, fun h => absurd rfl h, nofun⟩

section Aside

variable {p : Profile} {w : World} (hg : Guarded p w) (caller : Caller)
include hg

theorem Lawful.advanceMemoryFloor (through : UInt64) :
    Lawful p w caller (.advanceMemoryFloor through) := by
  have hidle := hg.idle
  rcases entered_cases hidle caller (fun h =>
      if h.batch.phase = .pending ∨ h.batch.phase = .confirmed then refuse h .batchPending
      else
        let r := replicatedLogAdvanceMemoryFloor h.node through.toNat
        some ({ h with node := r.1 }, { status := coreStatus r.2 })) with hrefused | hran
  · exact .ofRefusal (fun _ => hg) hrefused
  by_cases hlive : w.handle.batch.phase = .pending ∨ w.handle.batch.phase = .confirmed
  · rw [if_pos hlive, refuse_leave hidle] at hran
    exact .ofRefusal (fun _ => hg) ⟨.batchPending, by decide, hran⟩
  rw [if_neg hlive] at hran
  simp only [Option.map_some, leave] at hran
  refine ⟨_, _, World.step_aside rfl nofun hran, fun _ => ?_,
    .aside rfl (fun hstatus => ?_) (fun h => absurd h hlive) ⟨rfl, rfl, rfl, rfl, rfl⟩⟩
  · rw [← hidle]
    refine hg.renode (hg.plain.advanceFloor _) ?_ ?_ rfl <;>
    · unfold replicatedLogAdvanceMemoryFloor nodeAdvanceMemoryFloor
      dsimp only
      split_ifs <;> rfl
  · have hsame : (replicatedLogAdvanceMemoryFloor w.handle.node through.toNat).1 = w.handle.node := by
      unfold replicatedLogAdvanceMemoryFloor nodeAdvanceMemoryFloor at hstatus ⊢
      dsimp only at hstatus ⊢
      split_ifs at hstatus ⊢
      · rfl
      · exact absurd rfl hstatus
    rw [hsame, ← hidle]

theorem Lawful.setCampaignEnabled (enabled : Bool) :
    Lawful p w caller (.setCampaignEnabled enabled) := by
  rcases entered_cases hg.idle caller (fun h =>
      some ({ h with node := replicatedLogSetCampaignEnabled h.node enabled }, { status := .ok })) with
    hrefused | hran
  · exact .ofRefusal (fun _ => hg) hrefused
  simp only [Option.map_some, leave] at hran
  refine ⟨_, _, World.step_aside rfl nofun hran, fun _ => ?_,
    .aside rfl (fun hstatus => absurd rfl hstatus) (fun _ h => absurd rfl (h enabled))
      ⟨rfl, rfl, rfl, rfl, rfl⟩⟩
  rw [← hg.idle]
  exact hg.renode (hg.plain.setCampaignEnabled enabled) rfl rfl rfl

end Aside

/-! ## Replays -/

/-- The guard of a replay, and the body behind it. -/
def replayed (h : Handle) (body : Handle → Ledger Value → Outcome) : Outcome :=
  match h.replaying, h.replay with
  | true, some ledger => body h ledger
  | _, _ => refuse h .replayNotActive

/-- What the fold of a record does behind the guard. -/
def applyBody (p : Profile) (record : Option CWrite) (h : Handle) (ledger : Ledger Value) : Outcome :=
  match record with
  | none => refuse h .nullPointer
  | some record =>
      match writeFromC p.maxValue record with
      | .error status => refuse h status
      | .ok write =>
          let r := ledgerReplayFold p.params ledger write
          some ({ h with replay := some r.1 }, { status := coreStatus r.2 })

/-- What the restore of a replay does behind the guard. -/
def restoreBody (p : Profile) (floor : UInt64) (h : Handle) (ledger : Ledger Value) : Outcome :=
  match replicatedLogRestore p.params h.nodeId h.configurationId h.membership ledger floor.toNat
      h.options with
  | .error e => refuse h (coreStatus e)
  | .ok node =>
      some ({ h with
        node := node
        replay := none
        replaying := false
        effects := {}
        writesPending := false
        batch := {} }, { status := .ok })

/-- A replay procedure is refused, or its body runs on the ledger. -/
theorem replayed_cases {h : Handle} (hidle : h.busy = false) (caller : Caller)
    (body : Handle → Ledger Value → Outcome) :
    (∃ status, status ≠ .ok ∧
        entered h caller (fun h => replayed h body) = refuse h status) ∨
      ∃ ledger, h.replaying = true ∧ h.replay = some ledger ∧
        entered h caller (fun h => replayed h body) =
          (body { h with busy := true } ledger).map fun o => (leave o.1, o.2) := by
  refine (entered_cases hidle caller _).elim Or.inl fun hran => ?_
  rw [hran]
  unfold replayed
  dsimp only
  split
  · next ledger hreplaying hreplay => exact Or.inr ⟨ledger, hreplaying, hreplay, rfl⟩
  · exact Or.inl ⟨.replayNotActive, by decide, refuse_leave hidle _⟩

/-- The errors of a restore are errors. -/
theorem replicatedLogRestore_refused {P : Params} {id configurationId floor : Nat}
    {membership : Membership} {ledger : Ledger Value} {options : NodeOptions} {e : Error}
    (h : replicatedLogRestore P id configurationId membership ledger floor options = .error e) :
    e ≠ .none := by
  unfold replicatedLogRestore nodeRestore nodeInit at h
  cases hindex : membershipIndexOf membership id with
  | none =>
      rw [hindex] at h
      split_ifs at h <;> cases h <;> decide
  | some selfIndex =>
      rw [hindex] at h
      split_ifs at h
      cases h
      decide

section Replays

variable {p : Profile} {w : World} (hg : Guarded p w) (caller : Caller)
include hg

theorem Lawful.replayApply (record : Option CWrite) : Lawful p w caller (.replayApply record) := by
  have hidle := hg.idle
  rcases replayed_cases hidle caller (applyBody p record) with
    hrefused | ⟨ledger, hreplaying, hreplay, hran⟩
  · exact .ofRefusal (fun _ => hg) hrefused
  unfold applyBody at hran
  cases record with
  | none =>
      exact .ofRefusal (fun _ => hg) ⟨.nullPointer, by decide, hran.trans (refuse_leave hidle _)⟩
  | some record =>
      cases hwrite : writeFromC p.maxValue record with
      | error status =>
          refine .ofRefusal (fun _ => hg) ⟨status, writeFromC_refused hwrite, hran.trans ?_⟩
          simp only [hwrite]
          exact refuse_leave hidle _
      | ok write =>
          have hresult : w.handle.call p caller (.replayApply (some record)) =
              some ({ w.handle with replay := some (ledgerReplayFold p.params ledger write).1 },
                { status := coreStatus (ledgerReplayFold p.params ledger write).2 }) := by
            refine hran.trans ?_
            simp only [hwrite, Option.map_some, leave, hidle]
          obtain ⟨hplain, hword⟩ := writeFromC_plain hwrite
          refine ⟨_, _, World.step_aside rfl nofun hresult, fun _ => ?_,
            .aside rfl (fun hstatus => ?_) (fun _ _ => rfl) ⟨rfl, rfl, rfl, rfl, rfl⟩⟩
          · exact hg.reledger ((hg.ledger ledger hreplay).fold hplain hword)
          · have herror : (ledgerReplayFold p.params ledger write).2 ≠ .none := by
              intro hnone
              rw [hnone] at hstatus
              exact hstatus rfl
            rw [ledgerReplayFold_refused herror, ← hreplay]

theorem Lawful.replayAbort : Lawful p w caller .replayAbort := by
  have hidle := hg.idle
  rcases replayed_cases hidle caller (fun h _ =>
      some ({ h with replay := some Ledger.empty }, { status := .ok })) with
    hrefused | ⟨ledger, -, -, hran⟩
  · exact .ofRefusal (fun _ => hg) hrefused
  simp only [Option.map_some, leave] at hran
  refine ⟨_, _, World.step_aside rfl nofun hran, fun _ => ?_,
    .aside rfl (fun hstatus => absurd rfl hstatus) (fun _ _ => rfl) ⟨rfl, rfl, rfl, rfl, rfl⟩⟩
  rw [← hidle]
  exact hg.reledger .empty

theorem Lawful.replayRestore (floor : UInt64) : Lawful p w caller (.replayRestore floor) := by
  have hidle := hg.idle
  rcases replayed_cases hidle caller (restoreBody p floor) with
    hrefused | ⟨ledger, hreplaying, hreplay, hran⟩
  · exact .ofRefusal (fun _ => hg) hrefused
  unfold restoreBody at hran
  dsimp only at hran
  cases hrestore : replicatedLogRestore p.params w.handle.nodeId w.handle.configurationId
      w.handle.membership ledger floor.toNat w.handle.options with
  | error e =>
      rw [hrestore] at hran
      dsimp only at hran
      rw [refuse_leave hidle] at hran
      exact .ofRefusal (fun _ => hg) ⟨coreStatus e,
        fun h => replicatedLogRestore_refused hrestore (coreStatus_ok h), hran⟩
  | ok node =>
      rw [hrestore] at hran
      simp only [Option.map_some, leave] at hran
      refine ⟨_, _, World.step_aside rfl nofun hran, fun _ => ?_,
        .aside rfl (fun hstatus => absurd rfl hstatus) (fun hlive => ?_) ⟨rfl, rfl, rfl, rfl, rfl⟩⟩
      · have hguarded := hg.restored (replicatedLogRestore_plain hg.member
          (hg.ledger ledger hreplay) (Nat.le_pred_of_lt floor.toNat_lt) hrestore)
        simpa only [hidle] using hguarded
      · rw [hg.replaying hreplaying] at hlive
        rcases hlive with h | h <;> cases h

end Replays

/-! ## Every call -/

/-- A close reports the abandoned writes and changes no protocol state. -/
theorem Lawful.close {p : Profile} {w : World} (caller : Caller)
    (hg : w.handle.isOpen = true → Guarded p w) : Lawful p w caller .close := by
  have hstep : ∀ {h : Handle} {reply : Reply}, paxodinNodeClose w.handle = some (h, reply) →
      w.step p caller .close = some ({ w with handle := h }, reply) :=
    fun h => World.step_aside rfl nofun h
  unfold paxodinNodeClose at hstep
  by_cases hopen : w.handle.isOpen = true
  · have hidle := (hg hopen).idle
    rw [if_neg (by simp [hopen]), if_neg (by simp [hidle])] at hstep
    exact ⟨_, _, hstep rfl, nofun,
      .aside rfl (fun hstatus => absurd rfl hstatus) (fun _ _ => rfl) ⟨rfl, rfl, rfl, rfl, rfl⟩⟩
  · refine ⟨w, { status := .ok }, hstep (by rw [if_pos (by simpa using hopen)]; rfl), hg,
      .aside rfl (fun hstatus => absurd rfl hstatus) (fun _ _ => rfl) ⟨rfl, rfl, rfl, rfl, rfl⟩⟩

/-- Every call on an open handle. -/
theorem Guarded.lawful {p : Profile} {w : World} (hg : Guarded p w) (caller : Caller)
    (call : NativeCall) : Lawful p w caller call := by
  cases call with
  | beginCampaign => exact .begin hg rfl rfl (fun _ h => by cases h; trivial) nofun
  | beginTick => exact .begin hg rfl rfl (fun _ h => by cases h; trivial) nofun
  | beginPropose value =>
      exact .begin hg rfl rfl (fun _ => proposeArguments_plain) fun _ => proposeArguments_refused
  | beginProposeBatch values =>
      exact .begin hg rfl rfl (fun _ => proposeBatchArguments_plain)
        fun _ => proposeBatchArguments_refused
  | beginStep envelope =>
      exact .begin hg rfl rfl (fun _ => stepArguments_plain) fun _ => stepArguments_refused
  | beginReconnected peer =>
      refine .begin hg rfl rfl (fun t h => ?_) fun status h => ?_ <;>
        unfold reconnectedArguments at h <;> split_ifs at h <;> cases h
      · trivial
      · decide
  | beginRequestCatchUp peer fromSlot =>
      refine .begin hg rfl rfl (fun t h => ?_) fun status h => ?_ <;>
        unfold requestCatchUpArguments at h <;> split_ifs at h <;> cases h
      · trivial
      · decide
  | beginInstallChosenTrim trimId chosenTrimSlot =>
      exact .begin hg rfl rfl (fun _ h => by cases h; trivial) nofun
  | copyWrites r => exact .copyWrites hg caller r
  | copyMessages r => exact .copyMessages hg caller r
  | copyCommitted r => exact .copyCommitted hg caller r
  | copyRequests r => exact .copyRequests hg caller r
  | copyAssignedSlots r => exact .copyAssignedSlots hg caller r
  | batchReport token => exact .batchReport hg caller token
  | confirm token => exact .confirm hg caller token
  | finish token => exact .finish hg caller token
  | advanceMemoryFloor through => exact .advanceMemoryFloor hg caller through
  | setCampaignEnabled enabled => exact .setCampaignEnabled hg caller enabled
  | replayApply record => exact .replayApply hg caller record
  | replayRestore floor => exact .replayRestore hg caller floor
  | replayAbort => exact .replayAbort hg caller
  | close => exact .close caller fun _ => hg

/-- Every call on a closed handle. -/
theorem Lawful.closed {p : Profile} {w : World} (hclosed : w.handle.isOpen = false) (caller : Caller)
    (call : NativeCall) : Lawful p w caller call := by
  have hg : w.handle.isOpen = true → Guarded p w := fun h => by
    rw [hclosed] at h
    cases h
  cases call with
  | close => exact .close caller hg
  | setCampaignEnabled enabled =>
      exact .ofRefusal hg ⟨.handleClosed, by decide, entered_closed hclosed caller fun h =>
        some ({ h with node := replicatedLogSetCampaignEnabled h.node enabled }, { status := .ok })⟩
  | _ => exact .ofRefusal hg ⟨.handleClosed, by decide, entered_closed hclosed caller _⟩

theorem Guarded.opened {p : Profile} {h : Handle} (hbusy : h.busy = false)
    (hm : h.membership.Valid) (hplain : PlainNode p h.node)
    (hreplay : ∀ l, h.replay = some l → PlainLedger l) (hbatch : h.batch = {})
    (hflag : h.writesPending = false) : Guarded p { handle := h } := by
  refine ⟨hbusy, hm, hplain, hreplay, fun _ => ?_, fun hpending => ?_, fun hphase => ?_,
    fun hphase => ?_⟩
  · show h.batch.phase = .idle
    rw [hbatch]
  · rw [show h.writesPending = true from hpending] at hflag
    cases hflag
  · rw [show h.batch = {} from hbatch] at hphase
    exact absurd rfl hphase
  · rw [show h.batch = {} from hbatch] at hphase
    cases hphase

/-- A handle is created with a valid membership. -/
theorem handleCreate_fresh {p : Profile} {epoch forkGeneration : Nat} {config : CConfig} {h : Handle}
    (hcreate : handleCreate p epoch forkGeneration config = .ok h) :
    h.membership.Valid ∧ h.busy = false ∧ h.node = zeroNode ∧ h.replay = none ∧ h.batch = {} ∧
      h.writesPending = false := by
  unfold handleCreate at hcreate
  split at hcreate
  · split at hcreate
    · cases hcreate
    · next membership hmembership =>
        cases hcreate
        refine ⟨membershipInit_valid (fun id hid => ?_) hmembership, rfl, rfl, rfl, rfl, rfl⟩
        obtain ⟨member, -, rfl⟩ := List.mem_map.mp hid
        exact member.toNat_lt
  · cases hcreate

/-- A handle that is opened is guarded. -/
theorem Handle.Opens.guarded {p : Profile} {epoch forkGeneration : Nat} {h : Handle}
    (hopens : Handle.Opens p epoch forkGeneration h) : Guarded p { handle := h } := by
  cases hopens with
  | fresh hopen =>
      unfold paxodinNodeOpen at hopen
      split at hopen
      · cases hopen
      next h₀ hcreate =>
      obtain ⟨hm, hbusy, -, hreplay, hbatch, hflag⟩ := handleCreate_fresh hcreate
      unfold finishOpen at hopen
      split at hopen
      · next node hnode =>
          cases hopen
          refine .opened hbusy hm (replicatedLogInit_plain hm hnode) (fun l hl => ?_) hbatch hflag
          rw [show h₀.replay = some l from hl] at hreplay
          cases hreplay
      · cases hopen
  | continueAt hopen =>
      unfold paxodinNodeOpenContinueAt at hopen
      split at hopen
      · cases hopen
      next h₀ hcreate =>
      obtain ⟨hm, hbusy, -, hreplay, hbatch, hflag⟩ := handleCreate_fresh hcreate
      unfold finishOpen at hopen
      split at hopen
      · next node hnode =>
          cases hopen
          refine .opened hbusy hm
            (replicatedLogContinueAt_plain hm (Nat.le_pred_of_lt (UInt64.toNat_lt _)) hnode)
            (fun l hl => ?_) hbatch hflag
          rw [show h₀.replay = some l from hl] at hreplay
          cases hreplay
      · cases hopen
  | forReplay hopen =>
      unfold paxodinNodeOpenForReplay at hopen
      split at hopen
      · cases hopen
      next h₀ hcreate =>
      obtain ⟨hm, hbusy, hnode, -, hbatch, hflag⟩ := handleCreate_fresh hcreate
      cases hopen
      refine .opened hbusy hm ?_ (fun l hl => ?_) hbatch hflag
      · show PlainNode p h₀.node
        rw [hnode]
        exact zeroNode_plain p
      · cases hl
        exact .empty

/-- Every state that calls reach is guarded until the handle is closed. -/
theorem World.Reaches.guarded {p : Profile} {start w : World} (hr : World.Reaches p start w)
    (hstart : Guarded p start) : w.handle.isOpen = true → Guarded p w := by
  induction hr with
  | refl => exact fun _ => hstart
  | @step w w' caller call reply _ hstep ih =>
      have hlawful : Lawful p w caller call := by
        cases hopen : w.handle.isOpen with
        | false => exact .closed hopen caller call
        | true => exact (ih hopen).lawful caller call
      obtain ⟨w₁, reply₁, hstep₁, hguarded, -⟩ := hlawful
      rw [hstep] at hstep₁
      cases hstep₁
      exact hguarded

/-- The configuration of one of three members. -/
def trioConfig : CConfig :=
  ⟨1, [1, 2, 3], 0, 0, 5, 1, 1, 1, 0, false, false, false, false⟩

/-- Member 2 prepares slots 1 and 2 alone: the acceptor records a promise for each. -/
def boundedPrepare : CEnvelope :=
  { configurationId := 1
    sender := 2
    recipient := 1
    kind := some .prepare
    ballot := UInt64.ofNat (ballotMake 1 0 2)
    first := 1
    last := 2
    scope := some .bounded }

end PaxosOdin.Bridge
