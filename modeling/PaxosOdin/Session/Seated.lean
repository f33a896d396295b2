import PaxosOdin.Session.Runs

/-!
# The node of a session

The node behind an open session is one that an incarnation reaches, whatever the session did and
whatever its adapters raised.  Every result about reachable nodes is thereby a result about sessions.

Main definitions:

- Definition `Seated`: a handle that serves a reachable node.

Main results:

- Theorem `innerCall_operate`: what a session asks of its node is an operation of the core.
- Theorem `perform_seated`: every operation of a session maintains its seat.
- Theorem `session_seated`: the node of every open session of every run is reachable.
-/

namespace PaxosOdin.Session

open Bridge
open Procedure (Triple Ends Returns Maintains)

variable {p : Profile} {h h' : Handle}

/-- The handle serves a node that an incarnation reaches. -/
structure Seated (p : Profile) (h : Handle) : Prop where
  reachable : Reachable p.params h.node.core
  serving : h.replaying = false

/-- An open handle is seated. -/
def Seating (p : Profile) (h : Handle) : Prop :=
  h.isOpen = true → Seated p h

/-! ## What a session asks of its node -/

/-- The inner transition of a call of a session is an operation of the core, or none at all. -/
theorem innerCall_operate {c : LogCall Command} (hc : (Transition.log c).Plain p)
    (n : ReplicatedLogNode Command) :
    (∃ op, (innerCall p.params p.maxMetadata n c).1 = operate p.params n.core op) ∨
      (innerCall p.params p.maxMetadata n c).1 = St.start n.core := by
  cases c with
  | campaign noop => exact Or.inl ⟨.call (.campaign (.command noop)), rfl⟩
  | propose value => exact Or.inl ⟨.call (.propose (.command value)), rfl⟩
  | proposeBatch values capacity =>
      exact Or.inl ⟨.call (.proposeBatch (values.map .command) capacity), rfl⟩
  | tick noop => exact Or.inl ⟨.call (.tick (.command noop)), rfl⟩
  | stepChecked configurationId envelope =>
      simp only [innerCall]
      split_ifs
      · exact Or.inr rfl
      · exact Or.inl ⟨.step envelope, rfl⟩
  | proposeStopSign => exact hc.elim
  | step => exact hc.elim

/-- The node after a call is reachable, and a call that is not refused early records at most two
chunks and one more. -/
theorem run_log_reachable {c : LogCall Command} (hc : (Transition.log c).Plain p)
    {n : ReplicatedLogNode Command} (hn : Reachable p.params n.core) (effects : Effects Value) :
    Reachable p.params ((Transition.log c).run p n effects).node.core ∧
      (refusedEarly p.params p.maxMetadata n c = false →
        ((Transition.log c).run p n effects).effects.writes.length ≤ 2 * p.params.C + 1) := by
  obtain ⟨hnode, heffects⟩ := Transition.run_log (p := p) c n effects
  cases hearly : refusedEarly p.params p.maxMetadata n c with
  | true =>
      rw [hnode, logCall_refused effects hearly]
      exact ⟨hn, fun h => by cases h⟩
  | false =>
      rw [hnode, heffects, logCall_inner effects hearly]
      have hinner : Reachable p.params (innerCall p.params p.maxMetadata n c).1.node ∧
          (innerCall p.params p.maxMetadata n c).1.effects.writes.length ≤ 2 * p.params.C + 1 := by
        rcases innerCall_operate hc n with ⟨op, hop⟩ | hstart
        · rw [hop]
          refine ⟨hn.operate op, ?_⟩
          have hadds := (operate_bounded hn.fit op).writes
          rwa [show (St.start n.core).effects.writes.length = 0 from rfl, Nat.zero_add] at hadds
        · rw [hstart]
          exact ⟨hn, Nat.zero_le _⟩
      generalize innerCall p.params p.maxMetadata n c = inner at hinner
      cases herror : inner.2 with
      | none =>
          have hcore := (observeEffects_observed (P := p.params) { n with core := inner.1.node }
            inner.1.effects).core
          refine ⟨?_, fun _ => hinner.2⟩
          show Reachable p.params (observeEffects p.params _ _).1.core
          rw [hcore]
          exact hinner.1
      | _ => exact ⟨hinner.1, fun _ => hinner.2⟩

/-! ## Native calls -/

/-- An export is refused and changes nothing, or its body runs on an open handle. -/
theorem entered_ran {caller : Caller} {body : Handle → Outcome} {reply : Reply}
    (hrun : entered h caller body = some (h', reply)) :
    (h' = h ∧ reply.status ≠ .ok) ∨
      (h.isOpen = true ∧
        ∃ h₁, body { h with busy := true } = some (h₁, reply) ∧ h' = Bridge.leave h₁) := by
  have hrefused : ∀ {status : Status}, status ≠ .ok → refuse h status = some (h', reply) →
      h' = h ∧ reply.status ≠ .ok := by
    intro status hstatus hrefuse
    cases hrefuse
    exact ⟨rfl, hstatus⟩
  unfold entered enter at hrun
  by_cases hclosed : (!h.isOpen) = true
  · rw [if_pos hclosed] at hrun
    exact Or.inl (hrefused (by decide) hrun)
  rw [if_neg hclosed] at hrun
  by_cases hfork : h.forkGeneration ≠ caller.forkGeneration
  · rw [if_pos hfork] at hrun
    exact Or.inl (hrefused (by decide) hrun)
  rw [if_neg hfork] at hrun
  by_cases hpoisoned : h.poisoned = true
  · rw [if_pos hpoisoned] at hrun
    exact Or.inl (hrefused (by decide) hrun)
  rw [if_neg hpoisoned] at hrun
  by_cases hbusy : h.busy = true
  · rw [if_pos hbusy] at hrun
    exact Or.inl (hrefused (by decide) hrun)
  rw [if_neg hbusy] at hrun
  dsimp only at hrun
  refine Or.inr ⟨by simpa using hclosed, ?_⟩
  cases hbody : body { h with busy := true } with
  | none =>
      rw [hbody] at hrun
      cases hrun
  | some r =>
      rw [hbody] at hrun
      cases hrun
      exact ⟨_, rfl, rfl⟩

/-- The body of an export maintains the seat, so the export does. -/
theorem entered_seating {caller : Caller} {body : Handle → Outcome} {reply : Reply}
    (hbody : ∀ h h' reply, body h = some (h', reply) → Seated p h → Seated p h')
    (hrun : entered h caller body = some (h', reply)) (hs : Seating p h) : Seating p h' := by
  rcases entered_ran hrun with ⟨rfl, -⟩ | ⟨hopen, h₁, hran, rfl⟩
  · exact hs
  · obtain ⟨hreachable, hserving⟩ :=
      hbody _ _ _ hran ⟨(hs hopen).reachable, (hs hopen).serving⟩
    exact fun _ => ⟨hreachable, hserving⟩

/-- A native call maintains the seat when its export does. -/
theorem native_seating {call : Handle → Caller → Outcome}
    (hcall : ∀ h h' reply, call h (ownCaller h) = some (h', reply) → Seating p h → Seating p h') :
    Maintains (Seating p) (native call) := by
  intro h h' r hrun hs
  unfold native at hrun
  cases hout : call h (ownCaller h) with
  | none =>
      rw [hout] at hrun
      cases hrun
  | some out =>
      obtain ⟨h'', reply⟩ := out
      rw [hout] at hrun
      dsimp only at hrun
      split_ifs at hrun <;> cases hrun <;> exact hcall h _ reply hout hs

/-- A body that leaves the node and the replay alone. -/
theorem Seated.congr (hs : Seated p h) (hnode : h'.node = h.node)
    (hreplaying : h'.replaying = h.replaying) : Seated p h' := by
  refine ⟨?_, hreplaying.trans hs.serving⟩
  rw [hnode]
  exact hs.reachable

/-- A refused call leaves its handle where it was. -/
theorem refuse_seated {status : Status} {reply : Reply}
    (hrun : refuse h status = some (h', reply)) (hs : Seated p h) : Seated p h' := by
  cases hrun
  exact hs

/-- A copy of a part of the batch keeps the handle seated where the copying does. -/
theorem copyOutput_seating {caller : Caller} {r : CopyRequest} {gate : Handle → Status}
    {total : Batch → Nat} {copy : Handle → Nat → Outcome} {reply : Reply}
    (hcopy : ∀ h h' count reply, copy h count = some (h', reply) → Seated p h → Seated p h')
    (hrun : copyOutput h caller r gate total copy = some (h', reply)) (hs : Seating p h) :
    Seating p h' := by
  refine entered_seating (fun h h' reply hbody hs => ?_) hrun hs
  split at hbody
  · split at hbody
    · split_ifs at hbody
      · exact refuse_seated hbody hs
      · split at hbody
        · exact refuse_seated hbody hs
        · exact hcopy _ _ _ _ hbody hs
    · exact refuse_seated hbody hs
  · exact refuse_seated hbody hs

/-- A call of a session on its node. -/
theorem beginTransition_seating {caller : Caller} {arguments : Except Status Transition}
    {reply : Reply}
    (hplain : ∀ t, arguments = .ok t → ∃ c, t = .log c ∧ (Transition.log c).Plain p)
    (hrun : beginTransition p h caller arguments = some (h', reply)) (hs : Seating p h) :
    Seating p h' := by
  refine entered_seating (fun h h' reply hbody hs => ?_) hrun hs
  split_ifs at hbody with hstorage
  · exact refuse_seated hbody hs
  cases harguments : arguments with
  | error status =>
      rw [harguments] at hbody
      exact refuse_seated hbody hs
  | ok t =>
      obtain ⟨c, rfl, hc⟩ := hplain t harguments
      rw [harguments] at hbody
      dsimp only at hbody
      unfold batchOpen at hbody
      split_ifs at hbody with hreplaying hlive
      · exact refuse_seated hbody hs
      · exact refuse_seated hbody hs
      dsimp only at hbody
      unfold Handle.transition at hbody
      dsimp only at hbody
      split_ifs at hbody with hearly hwrites
      · cases hbody
        exact ⟨(run_log_reachable hc hs.reachable h.effects).1, hs.serving⟩
      · cases hbody
        exact ⟨(run_log_reachable hc hs.reachable h.effects).1, hs.serving⟩

/-! ## The procedures of a session -/

/-- A call that opens a batch keeps the handle seated where the call of the library does. -/
theorem begin_seating {call : Handle → Caller → Outcome}
    (hcall : ∀ h h' reply, call h (ownCaller h) = some (h', reply) → Seating p h → Seating p h') :
    Maintains (Seating p) (begin call) := by
  refine .bind (native_seating hcall) fun reply => ?_
  split
  · exact .pure _
  · exact .raise _

/-- An operation is refused by the host itself, or it is one transition of the node. -/
theorem Operation.begun_cases (op : Operation) :
    (∃ e, op.begun p = Procedure.raise e) ∨
      ∃ arguments, op.begun p = begin (fun h caller => beginTransition p h caller arguments) ∧
        (∀ t, arguments = .ok t → ∃ c, t = .log c ∧ (Transition.log c).Plain p) ∧
        ∀ status, arguments = .error status → status ≠ .ok := by
  cases op with
  | tick =>
      exact Or.inr ⟨_, rfl, fun t ht => ⟨_, (Except.ok.inj ht).symm, trivial⟩, nofun⟩
  | campaign =>
      exact Or.inr ⟨_, rfl, fun t ht => ⟨_, (Except.ok.inj ht).symm, trivial⟩, nofun⟩
  | propose value =>
      by_cases hlarge : value.length > p.maxValue
      · exact Or.inl ⟨_, if_pos hlarge⟩
      · refine Or.inr ⟨_, if_neg hlarge, fun t ht => ?_, fun _ => proposeArguments_refused⟩
        have hplain := proposeArguments_plain ht
        unfold proposeArguments at ht
        dsimp only at ht
        split at ht
        · cases ht
        · cases ht
          exact ⟨_, rfl, hplain⟩
  | receive envelope =>
      refine Or.inr ⟨_, rfl, fun t ht => ?_, fun _ => stepArguments_refused⟩
      have hplain := stepArguments_plain ht
      unfold stepArguments at ht
      dsimp only at ht
      split at ht
      · cases ht
      · cases ht
        exact ⟨_, rfl, hplain⟩

/-- Every transition of a session maintains the seat. -/
theorem begun_seating (op : Operation) : Maintains (Seating p) (op.begun p) := by
  rcases op.begun_cases (p := p) with ⟨e, hraise⟩ | ⟨arguments, hbegin, hplain, -⟩
  · rw [hraise]
    exact .raise e
  · rw [hbegin]
    exact begin_seating fun h h' reply hrun hs => beginTransition_seating hplain hrun hs

/-- So does every part of a copy. -/
theorem copyLoop_seating {α : Type} {call : Handle → Caller → CopyRequest → Outcome}
    {out : Reply → List α} {token : Token} {size total : Nat}
    (hcall : ∀ r h h' reply, call h (ownCaller h) r = some (h', reply) → Seating p h → Seating p h')
    (fuel offset : Nat) (copied : List α) :
    Maintains (Seating p) (copyLoop call out token size total fuel offset copied) := by
  induction fuel generalizing offset copied with
  | zero => exact .pure copied
  | succ fuel ih =>
      unfold copyLoop
      split_ifs
      · exact .bind (native_seating (hcall _)) fun reply => ih _ _
      · exact .pure copied

/-- And so does the whole copy. -/
theorem copy_seating {α : Type} {call : Handle → Caller → CopyRequest → Outcome}
    {out : Reply → List α} {token : Token} {total chunk : Nat}
    (hcall : ∀ r h h' reply, call h (ownCaller h) r = some (h', reply) → Seating p h →
      Seating p h') :
    Maintains (Seating p) (copy call out token total chunk) := by
  unfold copy
  split_ifs
  · exact .bind (native_seating (hcall _)) fun _ => .pure _
  · exact copyLoop_seating hcall _ _ _

section Batches

variable (b : PendingBatch)

/-- Reading the records of a batch keeps the handle seated. -/
theorem writes_seating : Maintains (Seating p) (b.writes p) := by
  refine copy_seating fun r h h' reply hrun hs => copyOutput_seating ?_ hrun hs
  intro h h' count reply hcopy hs
  cases hcopy
  exact hs.congr rfl rfl

/-- Reading its messages does. -/
theorem messages_seating : Maintains (Seating p) (b.messages p) := by
  refine copy_seating fun r h h' reply hrun hs => copyOutput_seating ?_ hrun hs
  intro h h' count reply hcopy hs
  cases hslice : messagesSlice h with
  | none =>
      rw [hslice] at hcopy
      cases hcopy
  | some envelopes =>
      rw [hslice] at hcopy
      cases hcopy
      exact hs

/-- Reading its released entries does. -/
theorem committed_seating : Maintains (Seating p) (b.committed p) := by
  refine copy_seating fun r h h' reply hrun hs => copyOutput_seating ?_ hrun hs
  intro h h' count reply hcopy hs
  cases hcopy
  exact hs

/-- Reading its requests does. -/
theorem requests_seating : Maintains (Seating p) (b.requests p) := by
  refine copy_seating fun r h h' reply hrun hs => copyOutput_seating ?_ hrun hs
  intro h h' count reply hcopy hs
  cases hcopy
  exact hs

/-- Confirming its records does. -/
theorem persisted_seating : Maintains (Seating p) b.persisted := by
  refine .bind (native_seating fun h h' reply hrun hs => ?_) fun _ => .pure _
  refine entered_seating (fun h h' reply hbody hs => ?_) hrun hs
  split at hbody
  · split at hbody
    · exact refuse_seated hbody hs
    · exact refuse_seated hbody hs
    · split_ifs at hbody
      · exact refuse_seated hbody hs
      · cases hbody
        exact hs.congr rfl rfl
  · exact refuse_seated hbody hs

/-- Finishing the batch does. -/
theorem finish_seating : Maintains (Seating p) b.finish := by
  refine .bind (native_seating fun h h' reply hrun hs => ?_) fun _ => .pure _
  refine entered_seating (fun h h' reply hbody hs => ?_) hrun hs
  split at hbody
  · split at hbody
    · exact refuse_seated hbody hs
    · exact refuse_seated hbody hs
    · cases hbody
      exact hs.congr rfl rfl
  · exact refuse_seated hbody hs

/-- Asking for its phase does. -/
theorem phase_seating : Maintains (Seating p) b.phase := by
  refine .bind (native_seating fun h h' reply hrun hs => ?_) fun reply => ?_
  · refine entered_seating (fun h h' reply hbody hs => ?_) hrun hs
    split_ifs at hbody
    · exact refuse_seated hbody hs
    · split at hbody
      · cases hbody
        exact hs
      · exact refuse_seated hbody hs
  · split
    · exact .pure _
    · exact .raise _

/-- Leaving the `with` block of a batch does. -/
theorem leave_seating (raised : Bool) : Maintains (Seating p) (b.leave raised) := by
  refine .bind (phase_seating b) fun phase => ?_
  cases phase with
  | finished => exact .pure _
  | confirmed => exact finish_seating b
  | _ =>
      dsimp only
      split_ifs
      · exact .pure _
      · exact .raise _

end Batches

/-- Asking for the state of the node keeps the handle seated. -/
theorem nodeState_seating : Maintains (Seating p) nodeState := by
  refine .bind (native_seating fun h h' reply hrun hs => ?_) fun _ => .read _
  exact entered_seating (fun h h' reply hbody hs => refuse_seated hbody hs) hrun hs

/-- So does moving its memory floor. -/
theorem advanceMemoryFloor_seating (through : Nat) :
    Maintains (Seating p) (advanceMemoryFloor through) := by
  refine .bind (native_seating fun h h' reply hrun hs => ?_) fun _ => .pure _
  refine entered_seating (fun h h' reply hbody hs => ?_) hrun hs
  split_ifs at hbody
  · exact refuse_seated hbody hs
  · cases hbody
    exact ⟨hs.reachable.operate (.advanceFloor (UInt64.ofNat through).toNat), hs.serving⟩

/-! ## One operation -/

/-- What a procedure of the node maintains, the session maintains. -/
theorem onNode_seating {α : Type} {m : OnHandle α} (hm : Maintains (Seating p) m) :
    Maintains (fun s : Process => Seating p s.handle) (onNode m) :=
  .within hm (fun _ hs => hs) fun _ _ _ ht => ht

/-- Appending to the journal does not touch the handle. -/
theorem persist_seating (f : Faults) (records : List CWrite) :
    Maintains (fun s : Process => Seating p s.handle) (persist f records) := by
  unfold persist
  split_ifs
  · exact .pure ()
  · apply Maintains.bind
    · unfold journalAppend
      cases f.append with
      | none => exact .modify fun _ hs => hs
      | some kept => exact .bind (.modify fun _ hs => hs) fun _ => .raise _
    · intro _
      unfold journalSync
      split_ifs
      · exact .bind (.modify fun _ hs => hs) fun _ => .raise _
      · exact .modify fun _ hs => hs

/-- Releasing entries to the application moves the memory floor at most. -/
theorem releaseAll_seating (fault : Option (Nat × Bool)) (entries : List CCommitted) :
    Maintains (fun s : Process => Seating p s.handle) (releaseAll fault entries) := by
  induction entries generalizing fault with
  | nil =>
      unfold releaseAll
      exact .pure ()
  | cons entry rest ih =>
      have hrelease : ∀ rest', Maintains (fun s : Process => Seating p s.handle)
          (release entry >>= fun _ => releaseAll rest' rest) := fun rest' =>
        .bind (.modify fun _ hs => hs) fun _ => ih rest'
      rcases fault with _ | ⟨_ | calls, retained⟩
      · exact hrelease none
      · exact .bind (.modify fun _ hs => hs) fun _ => .raise _
      · exact hrelease (some (calls, retained))

/-- Sending does not touch the handle. -/
theorem send_seating (envelope : CEnvelope) :
    Maintains (fun s : Process => Seating p s.handle) (send p envelope) :=
  .modify fun _ hs => hs

/-- Serving a request from the history keeps the handle seated. -/
theorem serve_seating (request : CRequest) :
    Maintains (fun s : Process => Seating p s.handle) (serve p request) := by
  unfold serve
  refine .bind (onNode_seating nodeState_seating) fun _ => ?_
  refine .bind (.read _) fun entries => ?_
  exact .forEach (fun _ => send_seating _) entries

/-- What a discharge does inside its `with` block keeps the handle seated. -/
theorem dischargeBody_seating (b : PendingBatch) (f : Faults) :
    Maintains (fun s : Process => Seating p s.handle) (dischargeBody p b f) := by
  unfold dischargeBody
  refine .bind (onNode_seating (writes_seating b)) fun records => ?_
  refine .bind (persist_seating f records) fun _ => ?_
  refine .bind (onNode_seating (persisted_seating b)) fun _ => ?_
  refine .bind (onNode_seating (committed_seating b)) fun entries => ?_
  refine .bind (releaseAll_seating f.record entries) fun _ => ?_
  refine .bind (onNode_seating (messages_seating b)) fun envelopes => ?_
  refine .bind (.forEach send_seating envelopes) fun _ => ?_
  refine .bind (onNode_seating (requests_seating b)) fun requests => ?_
  exact .forEach serve_seating requests

/-- A discharge keeps the handle seated, whichever adapter fails. -/
theorem discharge_seating (b : PendingBatch) (f : Faults) :
    Maintains (fun s : Process => Seating p s.handle) (discharge p b f) := by
  unfold discharge
  refine .bind (.ensuring (dischargeBody_seating b f) (onNode_seating (finish_seating b)))
    fun _ => ?_
  unfold advanceFloor
  refine .bind (.read _) fun applied => ?_
  split_ifs
  · exact .pure ()
  · exact .bind (.modify fun _ hs => hs) fun _ => onNode_seating (advanceMemoryFloor_seating applied)

/-- Every operation maintains the seat, with a fault at any point. -/
theorem perform_seated (f : Faults) (op : Operation) :
    Maintains (fun s : Process => Seating p s.handle) (perform p f op) := by
  rw [perform_begun]
  unfold transition
  refine .bind (onNode_seating (begun_seating op)) fun b => ?_
  refine .bind (.modify fun _ hs => hs) fun _ => ?_
  exact .closing (discharge_seating b f) fun raised => onNode_seating (leave_seating b raised)

/-! ## Opening -/

/-- A handle is created with a membership that the library admits. -/
theorem handleCreate_compiled {epoch forkGeneration : Nat} {config : CConfig}
    (hcreate : handleCreate p epoch forkGeneration config = .ok h) :
    Compiled p.params h.membership ∧ h.replaying = false := by
  unfold handleCreate at hcreate
  split at hcreate
  · split at hcreate
    · cases hcreate
    · next membership hinit =>
        cases hcreate
        refine ⟨⟨_, _, _, fun id hid => ?_, hinit⟩, rfl⟩
        obtain ⟨word, -, rfl⟩ := List.mem_map.mp hid
        exact word.toNat_lt
  · cases hcreate

/-- A node that was opened on empty storage is seated. -/
theorem nodeOpened_seated {epoch forkGeneration : Nat} {config : CConfig}
    (hopen : nodeOpened p epoch forkGeneration config = .ok h) :
    Seated p h ∧ h.batch.phase = .idle := by
  unfold nodeOpened at hopen
  split at hopen
  · cases hopen
  next h₁ hnative =>
  cases hopen
  unfold paxodinNodeOpen at hnative
  split at hnative
  · cases hnative
  next h₀ hcreate =>
  obtain ⟨hcompiled, hserving⟩ := handleCreate_compiled hcreate
  unfold finishOpen at hnative
  split at hnative
  · next node hnode =>
      cases hnative
      unfold replicatedLogInit at hnode
      split_ifs at hnode
      split at hnode
      · next core hcore =>
          cases hnode
          obtain ⟨-, -, -, -, hbatch, -⟩ := handleCreate_fresh hcreate
          exact ⟨⟨.init hcompiled hcore, hserving⟩, by rw [hbatch]⟩
      · cases hnode
  · cases hnative

/-- The handle replays a journal, and the ledger is what the fold of that journal left. -/
structure Refolding (p : Profile) (h : Handle) : Prop where
  compiled : Compiled p.params h.membership
  ledger : ∀ l, h.replay = some l → ∃ journal : List (Write Value),
    (∀ w ∈ journal, w.Word) ∧ replay p.params journal = (l, .none)

/-- One more record, or the ledger as it was. -/
theorem replayFold_refolded {P : Params} {journal : List (Write Value)} {l : Ledger Value}
    (hwords : ∀ w ∈ journal, w.Word) (hreplay : replay P journal = (l, .none)) {w : Write Value}
    (hw : w.Word) :
    ∃ journal' : List (Write Value), (∀ w ∈ journal', w.Word) ∧
      replay P journal' = ((ledgerReplayFold P l w).1, .none) := by
  by_cases hfold : (ledgerReplayFold P l w).2 = .none
  · refine ⟨journal ++ [w], ?_, ?_⟩
    · intro x hx
      rcases List.mem_append.mp hx with hx | hx
      · exact hwords x hx
      · rw [List.mem_singleton.mp hx]
        exact hw
    · unfold replay at hreplay ⊢
      rw [replayFrom_concat, hreplay]
      exact Prod.ext rfl hfold
  · refine ⟨journal, hwords, ?_⟩
    rw [ledgerReplayFold_refused hfold]
    exact hreplay

/-- `replay_apply` folds one more record, or refuses it. -/
theorem replayApply_refolding (record : CWrite) :
    Maintains (Refolding p) (replayApply p record) := by
  refine .bind ?_ fun _ => .pure _
  intro h h' r hrun hs
  unfold native at hrun
  split at hrun
  · cases hrun
  next h₁ reply hcall =>
  have hkept : Refolding p h₁ := by
    rcases entered_ran hcall with ⟨rfl, -⟩ | ⟨-, h₂, hbody, rfl⟩
    · exact hs
    obtain ⟨hcompiled, hledger⟩ := hs
    have hrefused : ∀ {status : Status}, refuse { h with busy := true } status = some (h₂, reply) →
        Refolding p (Bridge.leave h₂) := by
      intro status hrefuse
      cases hrefuse
      exact ⟨hcompiled, hledger⟩
    dsimp only at hbody
    split at hbody
    · next l _ hreplay =>
        split at hbody
        · exact hrefused hbody
        · next w hwrite =>
            cases hbody
            obtain ⟨journal, hwords, hfold⟩ := hledger l hreplay
            refine ⟨hcompiled, fun l' hl' => ?_⟩
            cases hl'
            exact replayFold_refolded hwords hfold (writeFromC_plain hwrite).2
    · exact hrefused hbody
  split_ifs at hrun <;> cases hrun <;> exact hkept

/-- A replay that restores a node leaves the handle seated. -/
theorem replayRestore_seated {floor : Nat} (hs : Refolding p h)
    (hrun : replayRestore p floor h = some (h', .ok ())) :
    Seated p h' ∧ h'.batch.phase = .idle := by
  obtain ⟨h₁, reply, hnative, hpure⟩ := Procedure.bind_returns hrun
  cases hpure
  unfold native at hnative
  split at hnative
  · cases hnative
  next h₁ reply' hcall =>
  by_cases hok : reply'.status = .ok
  swap
  · rw [if_neg hok] at hnative
    cases hnative
  rw [if_pos hok] at hnative
  cases hnative
  rcases entered_ran hcall with ⟨-, hrefused⟩ | ⟨-, h₂, hbody, rfl⟩
  · exact absurd hok hrefused
  obtain ⟨hcompiled, hledger⟩ := hs
  dsimp only at hbody
  split at hbody
  · next l _ hreplay =>
      split at hbody
      · next e hrestore =>
          cases hbody
          exact absurd (coreStatus_ok hok) (replicatedLogRestore_refused hrestore)
      · next node hrestore =>
          cases hbody
          obtain ⟨journal, hwords, hfold⟩ := hledger l hreplay
          refine ⟨⟨?_, rfl⟩, rfl⟩
          unfold replicatedLogRestore at hrestore
          split_ifs at hrestore
          split at hrestore
          · next core hcore =>
              cases hrestore
              show Reachable p.params (observeDurable p.params _).core
              rw [observeDurable_core]
              exact .restore hcompiled (Nat.le_pred_of_lt (UInt64.toNat_lt _)) hwords hfold hcore
          · cases hrestore
  · cases hbody
    cases hok

/-- A node that was rebuilt from its journal is seated. -/
theorem nodeRestored_seated {epoch forkGeneration floor : Nat} {config : CConfig}
    {records : List CWrite}
    (hrestored : nodeRestored p epoch forkGeneration config records floor = some (.ok h)) :
    Seated p h ∧ h.batch.phase = .idle := by
  unfold nodeRestored at hrestored
  cases hopen : paxodinNodeOpenForReplay p epoch forkGeneration config with
  | error status =>
      rw [hopen] at hrestored
      cases hrestored
  | ok h₀ =>
      rw [hopen] at hrestored
      dsimp only at hrestored
      have hrefolding : Refolding p h₀ := by
        unfold paxodinNodeOpenForReplay at hopen
        split at hopen
        · cases hopen
        next h₁ hcreate =>
        cases hopen
        refine ⟨(handleCreate_compiled hcreate).1, fun l hl => ?_⟩
        cases hl
        exact ⟨[], fun w hw => absurd hw List.not_mem_nil, rfl⟩
      cases hreplayed : replayJournal p records floor h₀ with
      | none =>
          rw [hreplayed] at hrestored
          cases hrestored
      | some r =>
          obtain ⟨h₁, result⟩ := r
          rw [hreplayed] at hrestored
          cases result with
          | error e => cases hrestored
          | ok _ =>
              cases hrestored
              obtain ⟨h₂, _, hfolded, hrestore⟩ := Procedure.bind_returns hreplayed
              exact replayRestore_seated
                (Maintains.forEach replayApply_refolding records _ _ _ hfolded hrefolding) hrestore

/-- A session that is reopened is seated, with no batch and nothing raised, or no node is open. -/
theorem reopen_seated {s s' : Process} {epoch forkGeneration kept : Nat} {config : CConfig}
    (hrun : reopen p epoch forkGeneration config kept s = some s') :
    s'.recordFailed = false ∧
      (s'.handle.isOpen = true → Seated p s'.handle ∧ s'.handle.batch.phase = .idle) := by
  unfold reopen at hrun
  dsimp only at hrun
  split_ifs at hrun
  · split at hrun
    · next h hopen =>
        cases hrun
        exact ⟨rfl, fun _ => nodeOpened_seated hopen⟩
    · cases hrun
      exact ⟨rfl, fun hopen => absurd hopen nofun⟩
  · split at hrun
    · cases hrun
    · next h hrestored =>
        cases hrun
        exact ⟨rfl, fun _ => nodeRestored_seated hrestored⟩
    · cases hrun
      exact ⟨rfl, fun hopen => absurd hopen nofun⟩

/-! ## Runs -/

/-- In every run the node of an open session is one that an incarnation reaches, whatever the
adapters raised and however often the session was reopened. -/
theorem session_seated {ok : Process → Event → Prop} {s : Process}
    (hr : Process.Reaches p ok Process.start s) (hopen : s.handle.isOpen = true) :
    Seated p s.handle := by
  suffices hseating : Seating p s.handle from hseating hopen
  clear hopen
  induction hr with
  | refl => exact fun hopen => absurd hopen nofun
  | @step s s' e _ _ hstep ih =>
      cases e with
      | perform op f =>
          obtain ⟨⟨s'', r⟩, hrun, rfl⟩ := Option.map_eq_some_iff.mp hstep
          exact perform_seated f op s s'' r hrun ih
      | reopen epoch forkGeneration config kept => exact fun hopen => ((reopen_seated hstep).2 hopen).1

end PaxosOdin.Session
