import Mathlib.Data.List.TakeWhile
import PaxosOdin.Lifetime.Capacity
import PaxosOdin.Session.Discharge

/-!
# What the calls of a session do

A live handle answers every call of the session on its batch, in the order in which the session makes
them.

Main definitions:

- Definition `Live`: an open handle that no guard refuses.
- Definition `Batching`: a live handle with the batch that the session discharges.

Main results:

- Theorem `Transition.ran_session`: what one transition of a session releases and records.
- Theorem `copyLoop_triple`: the chunks of a copy are the records.
- Theorems `writes_triple` to `leave_triple`: the calls on a batch.
-/

namespace PaxosOdin

variable {V : Type} {P : Params} {I : Input V}

/-! ## Records without a trim -/

/-- No record of the batch is a trim. -/
def Effects.Untrimmed (e : Effects V) : Prop :=
  ∀ w ∈ e.writes, ∀ anchor, w ≠ .trim anchor

/-- One more record that is no trim. -/
theorem Effects.Untrimmed.append {e e' : Effects V} (h : e.Untrimmed) {w : Write V}
    (hwrites : e'.writes = e.writes ++ [w]) (hw : ∀ anchor, w ≠ .trim anchor) : e'.Untrimmed := by
  intro x hx
  rw [hwrites] at hx
  rcases List.mem_append.mp hx with hx | hx
  · exact h x hx
  · rw [List.mem_singleton.mp hx]
    exact hw

/-- A step of the learner writes no trim. -/
theorem Learn.untrimmed {σ σ' : St V} (hl : Learn P I σ σ') (h : σ.effects.Untrimmed) :
    σ'.effects.Untrimmed := by
  cases hl with
  | choose => exact h.append rfl nofun
  | @pass slot value =>
      have hset : (σ.setPassThrough value).effects.Untrimmed := by
        intro w hw anchor
        obtain ⟨x, hx, rfl⟩ := List.mem_map.mp hw
        have hx' := h x hx
        cases x with
        | chosen slot v =>
            unfold Write.rebind
            dsimp only
            split_ifs <;> nofun
        | _ => exact hx' anchor
      exact hset.append rfl nofun
  | _ => exact h

section Steps

variable [DecidableEq V]

/-- Nor does any other move. -/
theorem Micro.untrimmed {σ σ' : St V} (hm : Micro P I σ σ') (h : σ.effects.Untrimmed) :
    σ'.effects.Untrimmed := by
  cases hm with
  | learn hl => exact hl.untrimmed h
  | promise | promiseAt | vote | drive | own => exact h.append rfl nofun
  | _ => exact h

/-- Nor does an operation. -/
theorem Completes.untrimmed {n₀ : Node V} {σ σ' : St V} (hc : Completes P I n₀ σ σ')
    (h : σ.effects.Untrimmed) : σ'.effects.Untrimmed := by
  obtain ⟨τ, hrun, hlast⟩ := hc
  have hτ : τ.effects.Untrimmed :=
    hrun.preserves (motive := fun τ => τ.effects.Untrimmed) (fun hm hu => hm.untrimmed hu) h
  rcases hlast with rfl | hfinal
  · exact hτ
  · cases hfinal with
    | campaign => exact hτ.append rfl nofun
    | _ => exact hτ

end Steps

namespace Session

open Bridge

/-! ## One transition -/

/-- What a transition of a session leaves. -/
structure Emits (p : Profile) (n : ReplicatedLogNode Command) (ran : Ran) : Prop where
  le : n.core.deliveredThrough ≤ ran.node.core.deliveredThrough
  slots : ran.effects.committed.map (·.slot) = List.range' (n.core.deliveredThrough + 1)
    (ran.node.core.deliveredThrough - n.core.deliveredThrough)
  floor : ran.node.core.memoryFloor = n.core.memoryFloor
  untrimmed : ran.effects.Untrimmed
  bounded : ran.node.core.deliveredThrough ≤ maxSlot
  window : ran.effects.committed.length ≤ p.params.W + 1

/-- A transition of a session releases the next slots, and records no trim. -/
theorem emits_log {p : Profile} {c : LogCall Command} (hc : (Transition.log c).Plain p)
    {n : ReplicatedLogNode Command} (hn : PlainNode p n) :
    Emits p n ((Transition.log c).run p n {}) := by
  have hplain := Transition.plain hc hn
  have hcompletes := innerCall_completes p.maxMetadata hn.opened c
  have hcarries := hcompletes.carries hn.carries (hc.input _ _)
  have hdelivering : Delivering (fun _ _ => True) n.core.deliveredThrough
      (innerCall p.params p.maxMetadata n c).1 :=
    hcompletes.delivering (Remembered.delivering fun _ _ _ => trivial)
  have hwindow := hcompletes.committed_le hn.opened
  have huntrimmed := hcompletes.untrimmed fun w hw => absurd hw List.not_mem_nil
  have hfloor := memoryFloor_of_static hcompletes.static
  have hbounded := hplain.opened.last
  obtain ⟨hnode, heffects⟩ := Transition.run_log (p := p) c n {}
  rw [logCall_inner {} (hc.reaches hn)] at hnode heffects
  rw [hnode] at hbounded
  generalize innerCall p.params p.maxMetadata n c = inner at *
  cases herror : inner.2 with
  | none =>
      rw [herror] at hnode heffects hbounded
      have hcore := (observeEffects_observed (P := p.params) { n with core := inner.1.node }
        inner.1.effects).core
      have hsign := (observeEffects_plain (p := p) (n := { n with core := inner.1.node })
        hcarries.node.ledger.payload (hcarries.anywhere fun _ _ _ hv => hv).2 hn.undecided).1
      have hcommitted : (observeEffects p.params { n with core := inner.1.node }
          inner.1.effects).2.committed = inner.1.effects.committed := by
        show inner.1.effects.committed.takeWhile _ = _
        refine List.takeWhile_eq_self_iff.mpr fun c _ => ?_
        have hnone : (observeEffects p.params { n with core := inner.1.node }
            inner.1.effects).1.stopSign = none := hsign
        simp only [abandoned]
        rw [show (recalculateStopPending p.params (inner.1.effects.committed.foldl
          (fun n c => observeStop n c.slot c.value) { n with core := inner.1.node })).stopSign = none
          from hnone]
        rfl
      have hsame : ((Transition.log c).run p n {}).node.core = inner.1.node := by
        rw [hnode]
        exact hcore
      refine ⟨?_, ?_, ?_, ?_, ?_, ?_⟩
      · rw [hsame]
        exact hdelivering.le
      · rw [hsame, heffects]
        show (observeEffects _ _ _).2.committed.map _ = _
        rw [hcommitted]
        exact hdelivering.slots
      · rw [hsame]
        exact hfloor
      · rw [heffects]
        exact huntrimmed
      · rw [hnode]
        exact hbounded
      · rw [heffects]
        show (observeEffects _ _ _).2.committed.length ≤ _
        rw [hcommitted]
        exact hwindow
  | _ =>
      rw [herror] at hnode heffects hbounded
      refine ⟨?_, ?_, ?_, ?_, ?_, ?_⟩
      · rw [hnode]
        exact hdelivering.le
      · rw [hnode, heffects]
        exact hdelivering.slots
      · rw [hnode]
        exact hfloor
      · rw [heffects]
        exact huntrimmed
      · rw [hnode]
        exact hbounded
      · rw [heffects]
        exact hwindow

/-! ## Live handles -/

/-- An open handle that no guard refuses. -/
structure Live (p : Profile) (h : Handle) : Prop where
  isOpen : h.isOpen = true
  sound : h.poisoned = false
  guarded : ∃ performed confirmed, Guarded p ⟨h, performed, confirmed⟩

/-- The handle is live and holds the batch `b`, which is as one transition left it. -/
structure Batching (p : Profile) (b : PendingBatch) (h : Handle) : Prop where
  live : Live p h
  token : b.token = ⟨h.epoch, h.batch.generation⟩
  phase : h.batch.phase ≠ .idle
  writes : b.report.writeCount = h.effects.writes.length ∧
    h.batch.writeCount = h.effects.writes.length
  messages : b.report.messageCount = h.effects.messages.length ∧
    h.batch.messageCount = h.effects.messages.length
  committed : b.report.committedCount = h.effects.committed.length ∧
    h.batch.committedCount = h.effects.committed.length
  requests : b.report.requestCount = h.effects.requests.length ∧
    h.batch.requestCount = h.effects.requests.length

section Calls

variable {p : Profile} {b : PendingBatch} {h : Handle}

/-- No call is under way on a live handle. -/
theorem Live.idle (hl : Live p h) : h.busy = false := by
  obtain ⟨performed, confirmed, hg⟩ := hl.guarded
  exact hg.idle

/-- The guards of an export let a live handle through. -/
theorem Live.entered (hl : Live p h) (body : Handle → Outcome) :
    entered h (ownCaller h) body =
      (body { h with busy := true }).map fun r => (Bridge.leave r.1, r.2) := by
  unfold Bridge.entered enter
  rw [if_neg (by simp [hl.isOpen]), if_neg (by simp [ownCaller]), if_neg (by simp [hl.sound]),
    if_neg (by simp [hl.idle])]
  dsimp only
  cases body { h with busy := true } <;> rfl

/-- A native call that succeeds. -/
theorem native_ok {call : Handle → Caller → Outcome} {h' : Handle} {reply : Reply}
    (hcall : call h (ownCaller h) = some (h', reply)) (hok : reply.status = .ok) :
    native call h = some (h', .ok reply) := by
  unfold native
  rw [hcall]
  dsimp only
  rw [if_pos hok]

/-- A native call that is refused. -/
theorem native_refused {call : Handle → Caller → Outcome} {status : Status}
    (hcall : call h (ownCaller h) = refuse h status) (hstatus : status ≠ .ok) :
    native call h = some (h, .error (.status status)) := by
  unfold native
  rw [hcall, refuse]
  dsimp only
  rw [if_neg hstatus]

/-- The token of the open batch is accepted. -/
theorem Batching.tokenCheck (hb : Batching p b h) :
    tokenCheck { h with busy := true } (some b.token) = .ok := by
  unfold Bridge.tokenCheck
  dsimp only
  rw [hb.token, if_neg (by simp), if_neg hb.phase, if_neg (by simp)]

/-- A body behind the token check runs. -/
theorem Batching.checked (hb : Batching p b h) (body : Handle → Outcome) :
    entered h (ownCaller h) (fun h => checked h (some b.token) body) =
      (body { h with busy := true }).map fun r => (Bridge.leave r.1, r.2) := by
  rw [hb.live.entered]
  unfold Bridge.checked
  rw [hb.tokenCheck]

/-- A copy behind an open gate runs. -/
theorem Batching.copyOutput (hb : Batching p b h) {gate : Handle → Status} {total : Batch → Nat}
    {copy : Handle → Nat → Outcome} {offset want : Nat} (hgate : gate { h with busy := true } = .ok)
    (hoffset : offset ≤ total h.batch) (hoffsetWord : offset < 2 ^ 32) (hwantWord : want < 2 ^ 32) :
    copyOutput h (ownCaller h) ⟨some b.token, UInt32.ofNat offset, UInt32.ofNat want⟩ gate total copy =
      (copy { h with busy := true } (min want (total h.batch - offset))).map
        fun r => (Bridge.leave r.1, r.2) := by
  unfold Bridge.copyOutput
  rw [hb.live.entered]
  dsimp only
  rw [hb.tokenCheck]
  dsimp only
  rw [hgate]
  dsimp only
  rw [if_neg (by simp [ownCaller])]
  unfold span
  rw [UInt32.toNat_ofNat_of_lt' hoffsetWord, UInt32.toNat_ofNat_of_lt' hwantWord,
    if_neg (by omega)]

/-! ## The chunks of a copy -/

/-- The chunks of a copy are the records, when every native call copies its slice. -/
theorem copyLoop_triple {α : Type} {call : Handle → Caller → CopyRequest → Outcome}
    {out : Reply → List α} {token : Token} {size total : Nat} {records : List α}
    {I : Nat → Handle → Prop} (hsize : 0 < size) (htotal : total ≤ records.length)
    (hcall : ∀ offset want h, offset + want ≤ total → I offset h → ∃ h' reply,
      call h (ownCaller h) ⟨some token, UInt32.ofNat offset, UInt32.ofNat want⟩ = some (h', reply) ∧
        reply.status = .ok ∧ out reply = slice records offset (min want (records.length - offset)) ∧
        I (offset + min want (records.length - offset)) h')
    (fuel offset : Nat) (hfuel : total ≤ offset + fuel) (hoffset : offset ≤ total) :
    Procedure.Triple (I offset)
      (copyLoop call out token size total fuel offset (records.take offset))
      fun h r => r = .ok (records.take total) ∧ I total h := by
  induction fuel generalizing offset with
  | zero =>
      obtain rfl : offset = total := by omega
      exact .pure fun h hI => ⟨rfl, hI⟩
  | succ fuel ih =>
      intro h hI
      unfold copyLoop
      by_cases hmore : offset < total
      · rw [if_pos hmore]
        have hwant : offset + min size (total - offset) ≤ total := by omega
        obtain ⟨h', reply, hrun, hok, hout, hI'⟩ := hcall offset _ h hwant hI
        have hstep : min (min size (total - offset)) (records.length - offset) =
            min size (total - offset) := by omega
        rw [hstep] at hout hI'
        have hlength : (out reply).length = min size (total - offset) := by
          rw [hout, slice, List.length_take, List.length_drop]
          omega
        have htake : records.take offset ++ out reply =
            records.take (offset + min size (total - offset)) := by
          rw [hout, slice, ← List.take_add]
        obtain ⟨h'', r, hrest, hpost⟩ := ih (offset + min size (total - offset)) (by omega)
          (by omega) h' hI'
        refine ⟨h'', r, ?_, hpost⟩
        rw [Procedure.bind_of_ok (native_ok hrun hok), hlength, htake]
        exact hrest
      · rw [if_neg hmore]
        obtain rfl : offset = total := by omega
        exact ⟨h, _, rfl, rfl, hI⟩

/-- A whole copy. -/
theorem copy_triple {α : Type} {call : Handle → Caller → CopyRequest → Outcome}
    {out : Reply → List α} {token : Token} {total chunk : Nat} {records : List α}
    {I : Nat → Handle → Prop} (htotal : total ≤ records.length)
    (hcall : ∀ offset want h, offset + want ≤ total → I offset h → ∃ h' reply,
      call h (ownCaller h) ⟨some token, UInt32.ofNat offset, UInt32.ofNat want⟩ = some (h', reply) ∧
        reply.status = .ok ∧ out reply = slice records offset (min want (records.length - offset)) ∧
        I (offset + min want (records.length - offset)) h') :
    Procedure.Triple (I 0) (copy call out token total chunk)
      fun h r => r = .ok (records.take total) ∧ I total h := by
  unfold copy
  by_cases hzero : total = 0
  · rw [if_pos hzero]
    subst hzero
    intro h hI
    obtain ⟨h', reply, hrun, hok, -, hI'⟩ := hcall 0 0 h le_rfl hI
    refine ⟨h', .ok [], ?_, rfl, ?_⟩
    · exact Procedure.bind_of_ok (native_ok hrun hok)
    · simpa using hI'
  · rw [if_neg hzero]
    exact copyLoop_triple (Nat.lt_of_lt_of_le Nat.zero_lt_one (le_max_left _ _)) htotal hcall total 0
      (by omega) (Nat.zero_le _)

/-! ## The calls on a batch -/

/-- A count on 32 bits is not larger than the number it counts. -/
theorem counted_le (count : Nat) : counted count ≤ count := by
  unfold counted
  rw [UInt32.toNat_ofNat']
  exact Nat.mod_le _ _

/-- A count fits its 32 bits. -/
theorem counted_lt (count : Nat) : counted count < 2 ^ 32 :=
  UInt32.toNat_lt _

/-- A number that fits is counted exactly. -/
theorem counted_eq {count : Nat} (h : count < 2 ^ 32) : counted count = count :=
  UInt32.toNat_ofNat_of_lt' h

/-- Copying records leaves the handle live. -/
theorem Live.copied (hl : Live p h) (through : Nat) : Live p (h.copied through) := by
  obtain ⟨performed, confirmed, hg⟩ := hl.guarded
  exact ⟨hl.isOpen, hl.sound, performed, confirmed, hg.copied through⟩

/-- Copying records leaves the batch open. -/
theorem Batching.copied (hb : Batching p b h) (through : Nat) : Batching p b (h.copied through) :=
  ⟨hb.live.copied through, hb.token, hb.phase, hb.writes, hb.messages, hb.committed, hb.requests⟩

/-- `writes` hands out the records, and the handle knows how far they were copied. -/
theorem Batching.run_writes (hb : Batching p b h) (hphase : h.batch.phase ≠ .finished) :
    ∃ through, through ≤ max h.batch.writesCopiedThrough (counted h.effects.writes.length) ∧
      counted h.effects.writes.length ≤ through ∧ b.writes p h = some (h.copied through,
        .ok ((h.effects.writes.map (writeToC p.maxValue)).take
          (counted h.effects.writes.length))) := by
  have hcopy := @copy_triple _ (paxodinCopyWrites p) (·.writes) b.token
    (counted h.effects.writes.length) 64 (h.effects.writes.map (writeToC p.maxValue))
    (fun offset h' => ∃ through,
      through ≤ max h.batch.writesCopiedThrough (counted h.effects.writes.length) ∧
        offset ≤ through ∧ h' = h.copied through)
    (by rw [List.length_map]; exact counted_le _) ?_ h ⟨_, le_max_left _ _, Nat.zero_le _, rfl⟩
  · obtain ⟨h', r, hrun, rfl, through, hthrough, hall, rfl⟩ := hcopy
    refine ⟨through, hthrough, hall, ?_⟩
    rw [← hrun]
    unfold PendingBatch.writes
    rw [hb.writes.1]
  · rintro offset want h' hwant ⟨through, hthrough, hfrom, rfl⟩
    have hlt := counted_lt h.effects.writes.length
    have hle := counted_le h.effects.writes.length
    have hgate : finishedGate { h.copied through with busy := true } = .ok := if_neg hphase
    have hcount : (h.copied through).batch.writeCount = h.effects.writes.length := hb.writes.2
    have hword : (UInt32.ofNat offset).toNat = offset :=
      UInt32.toNat_ofNat_of_lt' (show offset < 2 ^ 32 by omega)
    have hoffset : offset ≤ (·.writeCount) (h.copied through).batch := by
      show offset ≤ (h.copied through).batch.writeCount
      omega
    refine ⟨_, _, (hb.copied through).copyOutput hgate hoffset (by omega) (by omega), rfl, ?_,
      max through (offset + min want (h.effects.writes.length - offset)), ?_, ?_, ?_⟩
    · rw [hword, hcount, List.length_map, slice, slice, List.map_take, List.map_drop]
      rfl
    · omega
    · rw [List.length_map]
      exact le_max_right _ _
    · simp only [hword, Bridge.leave, Handle.copied, hb.live.idle, hb.writes.2]

/-- The copies of a confirmed batch hand out what the transition left, and change nothing. -/
theorem Batching.run_copy {α : Type} (hb : Batching p b h) {total : Batch → Nat} {records : List α}
    {call : Handle → Caller → CopyRequest → Outcome} {out : Reply → List α} {chunk : Nat}
    {reply : Handle → CopyRequest → Nat → Reply}
    (hcall : ∀ r, call h (ownCaller h) r = Bridge.copyOutput h (ownCaller h) r outputGate total
      fun h count => some (h, reply h r count))
    (hphase : h.batch.phase = .confirmed) (htotal : total h.batch = records.length)
    (hreply : ∀ r count, (reply { h with busy := true } r count).status = .ok ∧
      out (reply { h with busy := true } r count) = slice records r.offset.toNat count) :
    copy call out b.token (counted records.length) chunk h =
      some (h, .ok (records.take (counted records.length))) := by
  have hcopy := @copy_triple _ call out b.token (counted records.length) chunk records
    (fun _ h' => h' = h) (counted_le _) ?_ h rfl
  · obtain ⟨h', r, hrun, rfl, rfl⟩ := hcopy
    exact hrun
  · rintro offset want h' hwant rfl
    have hlt := counted_lt records.length
    have hle := counted_le records.length
    have hgate : outputGate { h' with busy := true } = .ok := by
      unfold outputGate
      rw [hphase]
    obtain ⟨hstatus, hout⟩ := hreply ⟨some b.token, UInt32.ofNat offset, UInt32.ofNat want⟩
      (min want (records.length - offset))
    rw [UInt32.toNat_ofNat_of_lt' (show offset < 2 ^ 32 by omega)] at hout
    refine ⟨h', _, (hcall _).trans ((hb.copyOutput hgate (by rw [htotal]; omega) (by omega)
      (by omega)).trans ?_), hstatus, hout, rfl⟩
    rw [htotal, Option.map_some]
    have hleave := leave_busy hb.live.idle
    rw [hleave]

/-- The released entries of a confirmed batch can be read. -/
theorem Batching.run_committed (hb : Batching p b h) (hphase : h.batch.phase = .confirmed) :
    b.committed p h = some (h, .ok ((h.effects.committed.map (committedToC p.maxValue)).take
      (counted h.effects.committed.length))) := by
  have hrun := @Batching.run_copy p b h _ hb (·.committedCount)
    (h.effects.committed.map (committedToC p.maxValue)) (paxodinCopyCommitted p) (·.committed) 32
    (fun h r count =>
      { status := .ok
        committed := (slice h.effects.committed r.offset.toNat count).map (committedToC p.maxValue) })
    (fun _ => rfl) hphase (by rw [List.length_map]; exact hb.committed.2)
    (fun r count => ⟨rfl, by rw [slice, slice, List.map_take, List.map_drop]⟩)
  rw [List.length_map] at hrun
  unfold PendingBatch.committed
  rw [hb.committed.1]
  exact hrun

/-- So can its messages. -/
theorem Batching.run_messages (hb : Batching p b h) (hphase : h.batch.phase = .confirmed) :
    ∃ envelopes, b.messages p h = some (h, .ok envelopes) := by
  obtain ⟨performed, confirmed, hg⟩ := hb.live.guarded
  have hflag : h.writesPending = false := by
    rw [Bool.eq_false_iff]
    intro hpending
    have hpendingPhase : h.batch.phase = .pending := hg.flag hpending
    rw [hphase] at hpendingPhase
    cases hpendingPhase
  have hrun := @Batching.run_copy p b h _ hb (·.messageCount)
    (h.effects.messages.map (envelopeToC p.maxValue h.node.configurationId))
    (paxodinCopyMessages p) (·.messages) 16
    (fun h r count =>
      { status := .ok
        messages := (slice h.effects.messages r.offset.toNat count).map
          (envelopeToC p.maxValue h.node.configurationId) })
    (fun r => ?_) hphase (by rw [List.length_map]; exact hb.messages.2)
    (fun r count => ⟨rfl, by rw [slice, slice, List.map_take, List.map_drop]⟩)
  · rw [List.length_map] at hrun
    unfold PendingBatch.messages
    rw [hb.messages.1]
    exact ⟨_, hrun⟩
  · unfold paxodinCopyMessages Bridge.copyOutput
    rw [hb.live.entered, hb.live.entered]
    simp only [messagesSlice, hflag, Bool.false_eq_true, if_false]

/-- And so can its requests. -/
theorem Batching.run_requests (hb : Batching p b h) (hphase : h.batch.phase = .confirmed) :
    ∃ requests, b.requests p h = some (h, .ok requests) := by
  have hrun := @Batching.run_copy p b h _ hb (·.requestCount)
    (h.effects.requests.map requestToC) paxodinCopyRequests (·.requests) p.params.M
    (fun h r count =>
      { status := .ok, requests := (slice h.effects.requests r.offset.toNat count).map requestToC })
    (fun _ => rfl) hphase (by rw [List.length_map]; exact hb.requests.2)
    (fun r count => ⟨rfl, by rw [slice, slice, List.map_take, List.map_drop]⟩)
  rw [List.length_map] at hrun
  unfold PendingBatch.requests
  rw [hb.requests.1]
  exact ⟨_, hrun⟩

/-- The handle of a confirmed batch. -/
def Handle.confirmed (h : Handle) : Handle :=
  { h with writesPending := false, batch := { h.batch with phase := .confirmed } }

/-- The handle of a finished batch. -/
def Handle.finished (h : Handle) : Handle :=
  { h with batch := { h.batch with phase := .finished } }

/-- `persisted` confirms a pending batch whose records were all copied, and refuses another one. -/
theorem Batching.run_persisted (hb : Batching p b h) (hphase : h.batch.phase ≠ .finished) :
    (h.batch.phase = .confirmed ∧ b.persisted h = some (h, .ok ())) ∨
      (h.batch.phase = .pending ∧ h.batch.writeCount ≤ h.batch.writesCopiedThrough ∧
        b.persisted h = some (Handle.confirmed h, .ok ())) ∨
      (h.batch.phase = .pending ∧ ∃ e, b.persisted h = some (h, .error e)) := by
  have hrun := hb.checked confirmBody
  unfold confirmBody at hrun
  have hidle := hb.live.idle
  have hleave := leave_busy hidle
  have hbind : ∀ {h' : Handle} {r : Except Raised Reply},
      native (fun h caller => paxodinConfirm h caller (some b.token)) h = some (h', r) →
      b.persisted h = some (h', r.map fun _ => ()) := by
    intro h' r hnative
    cases r with
    | ok reply => exact Procedure.bind_of_ok hnative
    | error e => exact Procedure.bind_of_error hnative
  cases hcase : h.batch.phase with
  | idle => exact absurd hcase hb.phase
  | finished => exact absurd hcase hphase
  | confirmed =>
      simp only [hcase, refuse, Option.map_some, hleave] at hrun
      exact Or.inl ⟨rfl, hbind (native_ok hrun rfl)⟩
  | pending =>
      right
      by_cases hcopied : h.batch.writesCopiedThrough < h.batch.writeCount
      · simp only [hcase, hcopied, if_true] at hrun
        rw [refuse_leave hidle] at hrun
        exact Or.inr ⟨rfl, _, hbind (native_refused hrun (by decide))⟩
      · simp only [hcase, hcopied, if_false, Option.map_some, Bridge.leave] at hrun
        refine Or.inl ⟨rfl, Nat.le_of_not_lt hcopied, ?_⟩
        have hresult := hbind (native_ok hrun rfl)
        rw [hresult]
        simp [Handle.confirmed, hidle, Except.map]

/-- `finish` ends a confirmed batch, and refuses a pending one. -/
theorem Batching.run_finish (hb : Batching p b h) :
    (h.batch.phase = .confirmed → b.finish h = some (Handle.finished h, .ok ())) ∧
      (h.batch.phase = .pending → ∃ e, b.finish h = some (h, .error e)) := by
  have hrun := hb.checked finishBody
  unfold finishBody at hrun
  have hidle := hb.live.idle
  have hbind : ∀ {h' : Handle} {r : Except Raised Reply},
      native (fun h caller => paxodinFinish h caller (some b.token)) h = some (h', r) →
      b.finish h = some (h', r.map fun _ => ()) := by
    intro h' r hnative
    cases r with
    | ok reply => exact Procedure.bind_of_ok hnative
    | error e => exact Procedure.bind_of_error hnative
  constructor
  · intro hphase
    simp only [hphase, Option.map_some, Bridge.leave] at hrun
    rw [hbind (native_ok hrun rfl)]
    simp [Handle.finished, hidle, Except.map]
  · intro hphase
    simp only [hphase] at hrun
    rw [refuse_leave hidle] at hrun
    exact ⟨_, hbind (native_refused hrun (by decide))⟩

/-- The end of the `with` block does nothing to a finished batch, and leaves a pending one pending. -/
theorem Batching.run_leave (hb : Batching p b h) {raised : Bool}
    (hphase : h.batch.phase = .finished ∨ (h.batch.phase = .pending ∧ raised = true)) :
    b.leave raised h = some (h, .ok ()) := by
  have hrun := hb.checked fun h => some (h, { status := .ok, report := some (reportFill h) })
  rw [Option.map_some, leave_busy hb.live.idle] at hrun
  have hphaseRun : b.phase h = some (h, .ok h.batch.phase) := by
    exact Procedure.bind_of_ok
      (@native_ok h (fun h caller => paxodinBatchReport h caller (some b.token)) _ _ hrun rfl)
  refine (Procedure.bind_of_ok hphaseRun).trans ?_
  rcases hphase with hfinished | ⟨hpending, rfl⟩
  · rw [hfinished]
    rfl
  · rw [hpending]
    rfl

/-- `state` reads the handle. -/
theorem Live.run_state (hl : Live p h) : ∃ reply, nodeState h = some (h, .ok reply) := by
  have hrun := hl.entered fun h => refuse h .ok
  rw [refuse_leave hl.idle] at hrun
  refine ⟨(UInt64.ofNat h.node.configurationId, UInt16.ofNat h.node.core.id), ?_⟩
  exact Procedure.bind_of_ok
    (@native_ok h (fun h caller => Bridge.entered h caller fun h => refuse h .ok) _ _ hrun rfl)

/-- The floor moves behind the released prefix, when no batch is live. -/
theorem Live.run_advance (hl : Live p h)
    (hphase : h.batch.phase = .finished) {through : Nat}
    (hthrough : through ≤ h.node.core.deliveredThrough) (hword : through < 2 ^ 64) :
    advanceMemoryFloor through h =
      some ({ h with node := (replicatedLogAdvanceMemoryFloor h.node through).1 }, .ok ()) := by
  have hrun := hl.entered fun h =>
    if h.batch.phase = .pending ∨ h.batch.phase = .confirmed then refuse h .batchPending
    else
      some ({ h with node := (replicatedLogAdvanceMemoryFloor h.node (UInt64.ofNat through).toNat).1 },
        { status := coreStatus
            (replicatedLogAdvanceMemoryFloor h.node (UInt64.ofNat through).toNat).2 })
  have hvalue : (UInt64.ofNat through).toNat = through := UInt64.toNat_ofNat_of_lt' hword
  have hok : (replicatedLogAdvanceMemoryFloor h.node (UInt64.ofNat through).toNat).2 = .none := by
    show (nodeAdvanceMemoryFloor h.node.core (UInt64.ofNat through).toNat).2 = .none
    unfold nodeAdvanceMemoryFloor
    rw [hvalue, if_neg (Nat.not_lt.mpr hthrough)]
  rw [if_neg (by simp [hphase]), Option.map_some] at hrun
  refine (Procedure.bind_of_ok
    (@native_ok h (fun h caller => paxodinAdvanceMemoryFloor h caller (UInt64.ofNat through)) _ _
      hrun (by dsimp only; rw [hok]; rfl))).trans ?_
  simp only [Bridge.leave, hl.idle, hvalue]
  rfl

/-! ## The beginning of a transition -/

/-- What a transition that a session begins leaves in the handle. -/
structure Begun (p : Profile) (h h' : Handle) (b : PendingBatch) : Prop where
  batching : Batching p b h'
  emits : h.node.core.deliveredThrough ≤ h'.node.core.deliveredThrough ∧
    h'.effects.committed.map (·.slot) = List.range' (h.node.core.deliveredThrough + 1)
      (h'.node.core.deliveredThrough - h.node.core.deliveredThrough)
  floor : h'.node.core.memoryFloor = h.node.core.memoryFloor
  untrimmed : h'.effects.Untrimmed
  bounded : h'.node.core.deliveredThrough ≤ maxSlot
  window : h'.effects.committed.length ≤ p.params.W + 1
  uncopied : h'.batch.writesCopiedThrough = 0
  phase : h'.batch.phase = .pending ∨ (h'.batch.phase = .confirmed ∧ h'.effects.writes = [])

/-- A transition is refused and changes nothing, or it begins where no batch is live. -/
theorem Live.run_begin (hl : Live p h) {call : Handle → Caller → Outcome}
    {arguments : Except Status Transition}
    (hcall : call h (ownCaller h) = beginTransition p h (ownCaller h) arguments)
    (hplain : ∀ t, arguments = .ok t → ∃ c, t = .log c ∧ (Transition.log c).Plain p)
    (herror : ∀ status, arguments = .error status → status ≠ .ok) :
    (∃ e, begin call h = some (h, .error e)) ∨
      ((h.batch.phase = .idle ∨ h.batch.phase = .finished) ∧
        ∃ h' b, begin call h = some (h', .ok b) ∧ Begun p h h' b) := by
  obtain ⟨performed, confirmed, hg⟩ := hl.guarded
  have hraised : ∀ {h' : Handle} {e : Raised}, native call h = some (h', .error e) →
      begin call h = some (h', .error e) :=
    fun hnative => Procedure.bind_of_error hnative
  have hbegun : ∀ {h' : Handle} {reply : Reply} {token : Token} {report : Report},
      native call h = some (h', .ok reply) → reply.token = some token →
      reply.report = some report → begin call h = some (h', .ok ⟨token, report⟩) := by
    intro h' reply token report hnative htoken hreport
    refine (Procedure.bind_of_ok hnative).trans ?_
    rw [htoken, hreport]
    rfl
  rcases beginTransition_cases hg (ownCaller h) (fun t ht => by
      obtain ⟨c, rfl, hc⟩ := hplain t ht
      exact hc) herror with
    ⟨status, hstatus, hrefuse⟩ | ⟨t, ht, hreplaying, hphase, hran⟩
  · exact Or.inl ⟨_, hraised (native_refused (hcall.trans hrefuse) hstatus)⟩
  obtain ⟨c, rfl, hc⟩ := hplain t ht
  have hemits := emits_log hc hg.plain
  refine Or.inr ⟨hphase, h.begun p (.log c), _,
    hbegun (native_ok (hcall.trans hran) rfl) rfl rfl, ?_⟩
  have hlive : Live p (h.begun p (.log c)) :=
    ⟨hl.isOpen, hl.sound, _, _, hg.begun hc hreplaying⟩
  refine ⟨⟨hlive, rfl, ?_, ⟨rfl, rfl⟩, ⟨rfl, rfl⟩, ⟨rfl, rfl⟩, ⟨rfl, rfl⟩⟩,
    ⟨hemits.le, hemits.slots⟩, hemits.floor, hemits.untrimmed, hemits.bounded, hemits.window, rfl, ?_⟩
  · simp only [Handle.begun, batchSeal]
    split_ifs <;> simp
  · simp only [Handle.begun, batchSeal]
    split_ifs with hzero
    · exact Or.inr ⟨rfl, List.eq_nil_of_length_eq_zero hzero⟩
    · exact Or.inl rfl

end Calls

end Session

end PaxosOdin
