import PaxosOdin.Bridge.Guard

/-!
# What the caller of a batch has received

The bridge lets a caller confirm a batch once its mark `writes_copied_through` has reached the
number of writes.  The mark is the end of the furthest copy, wherever that copy began.  This module
follows the indices that were copied out under a token and proves when a confirm covers them all:
exactly when no copy reaches the end of a batch before every record in front of it has been copied.

Main definitions:

- Definition `Receipts.step`: one native call, with the indices it copied out.
- Definition `Receipts.ConfirmCovers`: a confirm succeeds only for a batch received whole.
- Definition `Receipts.EndsInOrder`: the condition on one call.

Main results:

- Theorem `confirm_covers`: over any calls, confirms cover what was received exactly when every call
  meets the condition.
- Theorem `confirm_skips`: an empty copy at the end of a batch lets a confirm pass.
-/

namespace PaxosOdin.Bridge

/-! ## Receipts -/

/-- A handle with the indices of the writes that were copied out under the last token. -/
structure Receipts where
  world : World
  received : List Nat := []

/-- The indices received after a call.  A new token starts with none. -/
def Receipts.receives (a : Receipts) (call : NativeCall) (reply : Reply) : List Nat :=
  match call with
  | .copyWrites r =>
      a.received ++ List.range' r.offset.toNat reply.writes.length
  | _ => if reply.token.isSome then [] else a.received

/-- One native call. -/
def Receipts.step (p : Profile) (a : Receipts) (caller : Caller) (call : NativeCall) :
    Option Receipts :=
  match a.world.step p caller call with
  | none => none
  | some (w, reply) => some { world := w, received := a.receives call reply }

/-- Native calls in order. -/
def Receipts.run (p : Profile) (a : Receipts) : List (Caller × NativeCall) → Option Receipts
  | [] => some a
  | (caller, call) :: calls =>
      match a.step p caller call with
      | none => none
      | some a => a.run p calls

/-- A confirm succeeds only when every write of the batch has been copied out. -/
def Receipts.ConfirmCovers (a : Receipts) : Prop :=
  ∀ caller token h reply, paxodinConfirm a.world.handle caller token = some (h, reply) →
    reply.status = .ok → ∀ i, i < a.world.handle.batch.writeCount → i ∈ a.received

/-- The bridge takes a copy of the writes: the handle may be entered, the token is that of the batch,
the batch is not finished, there is storage, and the offset is in range. -/
def CopyRequest.Taken (h : Handle) (caller : Caller) (r : CopyRequest) : Prop :=
  (∃ h', enter h caller = .ok h') ∧ tokenCheck h r.token = .ok ∧ finishedGate h = .ok ∧
    caller.storage = true ∧ r.offset.toNat ≤ h.batch.writeCount

/-- A copy that is taken and asks for records to the end of the batch comes after every record before
its offset has been copied. -/
def Receipts.EndsInOrder (a : Receipts) (caller : Caller) (call : NativeCall) : Prop :=
  ∀ r, call = .copyWrites r → r.Taken a.world.handle caller →
    a.world.handle.batch.writeCount ≤ r.offset.toNat + r.want.toNat →
    ∀ i, i < r.offset.toNat → i ∈ a.received

/-! ## What a call does to the batch -/

/-- What a call other than a copy of the writes may do to the batch. -/
inductive BatchMoved (h h' : Handle) (reply : Reply) : Prop
  | kept (htoken : reply.token = none) (hbatch : h'.batch = h.batch)
  | begun (htoken : reply.token.isSome = true) (hmark : h'.batch.writesCopiedThrough = 0)
      (hphase : h'.batch.writeCount ≠ 0 → h'.batch.phase = .pending)
  | confirmed (htoken : reply.token = none) (hphase : h.batch.phase = .pending)
      (hmark : h.batch.writeCount ≤ h.batch.writesCopiedThrough)
      (hcount : h'.batch.writeCount = h.batch.writeCount)
  | ended (hphase : h'.batch.phase = .idle ∨ h'.batch.phase = .finished)

/-- A refused call moves no batch. -/
theorem BatchMoved.refused (h : Handle) (status : Status) :
    BatchMoved h h { status := status } :=
  .kept rfl rfl

/-- An export moves the batch as its body does. -/
theorem BatchMoved.entered {h h' : Handle} {reply : Reply} {caller : Caller}
    {body : Handle → Outcome}
    (hbody : ∀ h₁, body { h with busy := true } = some (h₁, reply) → BatchMoved h h₁ reply)
    (hran : entered h caller body = some (h', reply)) : BatchMoved h h' reply := by
  unfold Bridge.entered at hran
  split at hran
  · cases hran
    exact .refused _ _
  · next h₁ henter =>
      have hbusy : h₁ = { h with busy := true } := by
        unfold enter at henter
        split_ifs at henter
        cases henter
        rfl
      subst hbusy
      cases hresult : body { h with busy := true } with
      | none =>
          rw [hresult] at hran
          cases hran
      | some o =>
          rw [hresult] at hran
          cases hran
          cases hbody _ hresult with
          | kept htoken hbatch => exact .kept htoken hbatch
          | begun htoken hmark hphase => exact .begun htoken hmark hphase
          | confirmed htoken hphase hmark hcount => exact .confirmed htoken hphase hmark hcount
          | ended hphase => exact .ended hphase

/-- A copy that keeps the batch. -/
theorem BatchMoved.copyOutput {h h' : Handle} {reply : Reply} {caller : Caller} {r : CopyRequest}
    {gate : Handle → Status} {total : Batch → Nat} {copy : Handle → Nat → Outcome}
    (hcopy : ∀ h₁ count h₂ reply, copy h₁ count = some (h₂, reply) →
      h₂.batch = h₁.batch ∧ reply.token = none)
    (hran : copyOutput h caller r gate total copy = some (h', reply)) : BatchMoved h h' reply := by
  apply BatchMoved.entered _ hran
  intro h₁ hbody
  split at hbody
  · split at hbody
    · split at hbody
      · cases hbody
        exact .kept rfl rfl
      · split at hbody
        · cases hbody
          exact .kept rfl rfl
        · obtain ⟨hbatch, htoken⟩ := hcopy _ _ _ _ hbody
          exact .kept htoken hbatch
    · cases hbody
      exact .kept rfl rfl
  · cases hbody
    exact .kept rfl rfl

/-- A call on a batch that keeps it. -/
theorem BatchMoved.checked {h h' : Handle} {reply : Reply} {caller : Caller}
    {token : Option Token} (body : Handle → Outcome)
    (hbody : ∀ h₁, h.batch.phase ≠ .idle → body { h with busy := true } = some (h₁, reply) →
      BatchMoved h h₁ reply)
    (hran : Bridge.entered h caller (fun h => Bridge.checked h token body) = some (h', reply)) :
    BatchMoved h h' reply := by
  apply BatchMoved.entered _ hran
  intro h₁ hresult
  unfold Bridge.checked at hresult
  split at hresult
  · next hcheck =>
      rcases tokenCheck_cases { h with busy := true } token with
        ⟨status, hstatus, hrefused⟩ | ⟨-, -, hphase⟩
      · rw [hcheck] at hrefused
        exact absurd hrefused.symm hstatus
      · exact hbody h₁ hphase hresult
  · cases hresult
    exact .kept rfl rfl

/-- `paxodin_confirm` moves the batch at most to confirmed. -/
theorem BatchMoved.confirm {h h' : Handle} {reply : Reply} {caller : Caller} {token : Option Token}
    (hran : paxodinConfirm h caller token = some (h', reply)) : BatchMoved h h' reply := by
  apply BatchMoved.checked confirmBody _ hran
  intro h₁ hlive hresult
  unfold confirmBody at hresult
  cases hphase : h.batch.phase with
  | confirmed =>
      simp only [hphase] at hresult
      cases hresult
      exact .kept rfl rfl
  | finished =>
      simp only [hphase] at hresult
      cases hresult
      exact .kept rfl rfl
  | idle => exact absurd hphase hlive
  | pending =>
      simp only [hphase] at hresult
      split at hresult
      · cases hresult
        exact .kept rfl rfl
      · next hmark =>
          cases hresult
          exact .confirmed rfl hphase (not_lt.1 hmark) rfl

/-- `paxodin_finish` moves it at most to finished. -/
theorem BatchMoved.finish {h h' : Handle} {reply : Reply} {caller : Caller} {token : Option Token}
    (hran : paxodinFinish h caller token = some (h', reply)) : BatchMoved h h' reply := by
  apply BatchMoved.checked finishBody _ hran
  intro h₁ hlive hresult
  unfold finishBody at hresult
  split at hresult
  · cases hresult
    exact .kept rfl rfl
  · cases hresult
    exact .kept rfl rfl
  · cases hresult
    exact .ended (.inr rfl)

/-- Beginning a transition opens a batch that no record was copied from. -/
theorem BatchMoved.beginTransition {p : Profile} {h h' : Handle} {reply : Reply} {caller : Caller}
    {arguments : Except Status Transition}
    (hran : Bridge.beginTransition p h caller arguments = some (h', reply)) :
    BatchMoved h h' reply := by
  apply BatchMoved.entered _ hran
  intro h₁ hbody
  split at hbody
  · cases hbody
    exact .kept rfl rfl
  split at hbody
  · cases hbody
    exact .kept rfl rfl
  next t =>
  split at hbody
  · cases hbody
    exact .kept rfl rfl
  next h₂ hopen =>
  split at hbody
  · cases hbody
  next h₃ ran htransition =>
  cases hbody
  unfold batchOpen at hopen
  split_ifs at hopen
  cases hopen
  have hbatch : h₃.batch = { generation := (h.generation + 1) % 2 ^ 64, phase := .pending } := by
    unfold Handle.transition at htransition
    dsimp only at htransition
    split_ifs at htransition <;> cases htransition <;> rfl
  apply BatchMoved.begun
  · rfl
  · simp [batchSeal, hbatch]
  · intro hcount
    simp only [batchSeal, hbatch] at hcount ⊢
    rw [if_neg hcount]

/-- A call on a replay moves no batch. -/
theorem BatchMoved.replayed {h h' : Handle} {reply : Reply} {caller : Caller}
    (body : Handle → Ledger Value → Outcome)
    (hbody : ∀ ledger h₁, body { h with busy := true } ledger = some (h₁, reply) →
      BatchMoved h h₁ reply)
    (hran : Bridge.entered h caller (fun h => Bridge.replayed h body) = some (h', reply)) :
    BatchMoved h h' reply := by
  apply BatchMoved.entered _ hran
  intro h₁ hresult
  unfold Bridge.replayed at hresult
  split at hresult
  · exact hbody _ _ hresult
  · cases hresult
    exact .kept rfl rfl

/-- Every call but a copy of the writes. -/
theorem BatchMoved.call {p : Profile} {h h' : Handle} {caller : Caller} {call : NativeCall}
    {reply : Reply} (hcopy : ∀ r, call ≠ .copyWrites r)
    (hran : h.call p caller call = some (h', reply)) : BatchMoved h h' reply := by
  cases call with
  | beginCampaign =>
      exact @BatchMoved.beginTransition p h h' reply caller (.ok (.log (.campaign noop))) hran
  | beginTick =>
      exact @BatchMoved.beginTransition p h h' reply caller (.ok (.log (.tick noop))) hran
  | beginPropose value => exact .beginTransition hran
  | beginProposeBatch values => exact .beginTransition hran
  | beginStep envelope => exact .beginTransition hran
  | beginReconnected peer => exact .beginTransition hran
  | beginRequestCatchUp peer fromSlot => exact .beginTransition hran
  | beginInstallChosenTrim trimId chosenTrimSlot =>
      exact @BatchMoved.beginTransition p h h' reply caller
        (.ok (.installChosenTrim ⟨trimId.toNat, chosenTrimSlot.toNat⟩)) hran
  | copyWrites r => exact absurd rfl (hcopy r)
  | copyMessages r =>
      apply BatchMoved.copyOutput _ hran
      intro h₁ count h₂ reply hresult
      split at hresult
      · cases hresult
      · cases hresult
        exact ⟨rfl, rfl⟩
  | copyCommitted r | copyRequests r | copyAssignedSlots r =>
      apply BatchMoved.copyOutput _ hran
      intro h₁ count h₂ reply hresult
      cases hresult
      exact ⟨rfl, rfl⟩
  | batchReport token =>
      apply BatchMoved.entered _ hran
      intro h₁ hresult
      split at hresult
      · cases hresult
        exact .kept rfl rfl
      · split at hresult
        · cases hresult
          exact .kept rfl rfl
        · cases hresult
          exact .kept rfl rfl
  | confirm token => exact .confirm hran
  | finish token => exact .finish hran
  | advanceMemoryFloor through =>
      apply BatchMoved.entered _ hran
      intro h₁ hresult
      split at hresult
      · cases hresult
        exact .kept rfl rfl
      · cases hresult
        exact .kept rfl rfl
  | setCampaignEnabled enabled =>
      have hset : paxodinSetCampaignEnabled h caller enabled = some (h', reply) := hran
      unfold paxodinSetCampaignEnabled at hset
      apply BatchMoved.entered _ hset
      intro h₁ hresult
      cases hresult
      exact .kept rfl rfl
  | replayApply record =>
      apply BatchMoved.replayed (applyBody p record) _ hran
      intro ledger h₁ hresult
      unfold applyBody at hresult
      split at hresult
      · cases hresult
        exact .kept rfl rfl
      · split at hresult
        · cases hresult
          exact .kept rfl rfl
        · cases hresult
          exact .kept rfl rfl
  | replayRestore floor =>
      apply BatchMoved.replayed (restoreBody p floor) _ hran
      intro ledger h₁ hresult
      unfold restoreBody at hresult
      split at hresult
      · cases hresult
        exact .kept rfl rfl
      · cases hresult
        exact .ended (.inl rfl)
  | replayAbort =>
      apply BatchMoved.entered _ hran
      intro h₁ hresult
      split at hresult
      · cases hresult
        exact .kept rfl rfl
      · cases hresult
        exact .kept rfl rfl
  | close =>
      have hclose : paxodinNodeClose h = some (h', reply) := hran
      unfold paxodinNodeClose at hclose
      split at hclose
      · cases hclose
        exact .kept rfl rfl
      · split at hclose
        · cases hclose
          exact .kept rfl rfl
        · cases hclose
          exact .kept rfl rfl

/-! ## Copies of the writes -/

/-- The handle after a copy of `count` writes from `offset` on. -/
def Handle.marked (h : Handle) (offset count : Nat) : Handle :=
  { h with batch :=
      { h.batch with writesCopiedThrough := max h.batch.writesCopiedThrough (offset + count) } }

/-- How many records a copy that is taken hands out. -/
def CopyRequest.count (h : Handle) (r : CopyRequest) : Nat :=
  min r.want.toNat (h.batch.writeCount - r.offset.toNat)

/-- Entering a call marks the handle as busy. -/
theorem enter_eq_ok {h h' : Handle} {caller : Caller} (henter : enter h caller = .ok h') :
    h' = { h with busy := true } := by
  unfold enter at henter
  split_ifs at henter
  cases henter
  rfl

/-- An export whose body refuses leaves the handle as it was. -/
theorem entered_refuse {h : Handle} {caller : Caller} {body : Handle → Outcome} {status : Status}
    (hidle : h.busy = false) (henter : enter h caller = .ok { h with busy := true })
    (hbody : body { h with busy := true } = refuse { h with busy := true } status) :
    entered h caller body = refuse h status := by
  unfold Bridge.entered
  rw [henter]
  dsimp only
  rw [hbody]
  unfold refuse
  simp only [leave_busy hidle]

/-- A copy that the bridge does not take is refused. -/
theorem copyWrites_refused {p : Profile} {h : Handle} {caller : Caller} {r : CopyRequest}
    (hidle : h.busy = false) (hrefused : ¬r.Taken h caller) :
    ∃ status, status ≠ .ok ∧ paxodinCopyWrites p h caller r = refuse h status := by
  cases henter : enter h caller with
  | error status =>
      refine ⟨status, ?_, ?_⟩
      · unfold enter at henter
        split_ifs at henter <;> cases henter <;> decide
      · unfold paxodinCopyWrites copyOutput Bridge.entered
        rw [henter]
  | ok h₁ =>
      have hbusy := enter_eq_ok henter
      subst hbusy
      cases htoken : tokenCheck { h with busy := true } r.token with
      | ok =>
          cases hgate : finishedGate { h with busy := true } with
          | ok =>
              by_cases hstorage : caller.storage = true
              · have hrange : r.offset.toNat > h.batch.writeCount := by
                  by_contra hle
                  exact hrefused ⟨⟨_, henter⟩, htoken, hgate, hstorage, not_lt.1 hle⟩
                refine ⟨.range, by decide, ?_⟩
                apply entered_refuse hidle henter
                simp [htoken, hgate, hstorage, span, hrange]
              · refine ⟨.nullPointer, by decide, ?_⟩
                apply entered_refuse hidle henter
                simp [htoken, hgate, hstorage]
          | _ =>
              refine ⟨_, ?_, entered_refuse hidle henter (by simp [htoken, hgate]; rfl)⟩
              simp
      | _ =>
          refine ⟨_, ?_, entered_refuse hidle henter (by simp [htoken]; rfl)⟩
          simp

/-- A copy that the bridge takes hands out its part and moves the mark. -/
theorem copyWrites_taken {p : Profile} {h : Handle} {caller : Caller} {r : CopyRequest}
    (hidle : h.busy = false) (htaken : r.Taken h caller) :
    paxodinCopyWrites p h caller r = some (h.marked r.offset.toNat (r.count h),
      { status := .ok
        writes := (slice h.effects.writes r.offset.toNat (r.count h)).map
          (writeToC p.maxValue) }) := by
  obtain ⟨⟨h₁, henter⟩, htoken, hgate, hstorage, hrange⟩ := htaken
  have hbusy := enter_eq_ok henter
  subst hbusy
  have hspan : span h.batch.writeCount r.offset.toNat r.want.toNat = .ok (r.count h) := by
    unfold span CopyRequest.count
    rw [if_neg (not_lt.2 hrange)]
  have htoken' : tokenCheck { h with busy := true } r.token = .ok := htoken
  have hgate' : finishedGate { h with busy := true } = .ok := hgate
  unfold paxodinCopyWrites copyOutput Bridge.entered
  simp only [henter, htoken', hgate', hstorage, hspan]
  simp only [Bool.not_true, Bool.false_eq_true, if_false, leave, Handle.marked, hidle]

/-! ## The invariant -/

/-- While a batch is live, either its mark is short of its end or all of it has been received. -/
def Receipts.Covered (a : Receipts) : Prop :=
  a.world.handle.batch.phase = .pending ∨ a.world.handle.batch.phase = .confirmed →
    (a.world.handle.batch.phase = .pending ∧
      a.world.handle.batch.writesCopiedThrough < a.world.handle.batch.writeCount) ∨
    ∀ i, i < a.world.handle.batch.writeCount → i ∈ a.received

/-- A confirm that succeeds finds a confirmed batch, or a pending one whose mark is at its end. -/
theorem confirm_ok {h h' : Handle} {caller : Caller} {token : Option Token} {reply : Reply}
    (hran : paxodinConfirm h caller token = some (h', reply)) (hok : reply.status = .ok) :
    h.batch.phase = .confirmed ∨
      (h.batch.phase = .pending ∧ h.batch.writeCount ≤ h.batch.writesCopiedThrough) := by
  unfold paxodinConfirm Bridge.entered at hran
  split at hran
  · next status henter =>
      cases hran
      unfold enter at henter
      split_ifs at henter <;> cases henter <;> cases hok
  next h₁ henter =>
  have hbusy := enter_eq_ok henter
  subst hbusy
  rcases tokenCheck_cases { h with busy := true } token with
    ⟨status, hstatus, hcheck⟩ | ⟨hcheck, -, hlive⟩
  · simp only [hcheck, refuse] at hran
    cases status with
    | ok => exact absurd rfl hstatus
    | _ =>
        cases hran
        cases hok
  · simp only [hcheck] at hran
    cases hphase : h.batch.phase with
    | idle => exact absurd hphase hlive
    | confirmed => exact .inl rfl
    | finished =>
        simp only [hphase, refuse] at hran
        cases hran
        cases hok
    | pending =>
        simp only [hphase] at hran
        by_cases hmark : h.batch.writesCopiedThrough < h.batch.writeCount
        · rw [if_pos hmark] at hran
          cases hran
          cases hok
        · exact .inr ⟨rfl, not_lt.1 hmark⟩

/-- Covered records are confirmed only once all of them were copied. -/
theorem Receipts.Covered.confirmCovers {a : Receipts} (hcovered : a.Covered) :
    a.ConfirmCovers := by
  intro caller token h reply hran hok
  rcases confirm_ok hran hok with hphase | ⟨hphase, hmark⟩
  · rcases hcovered (.inr hphase) with ⟨hpending, -⟩ | hwhole
    · rw [hphase] at hpending
      cases hpending
    · exact hwhole
  · rcases hcovered (.inl hphase) with ⟨-, hshort⟩ | hwhole
    · omega
    · exact hwhole

/-- A call other than a copy of the writes keeps the invariant. -/
theorem Receipts.Covered.moved {a : Receipts} {w : World} {call : NativeCall} {reply : Reply}
    (hcovered : a.Covered) (hcopy : ∀ r, call ≠ .copyWrites r)
    (hmoved : BatchMoved a.world.handle w.handle reply) :
    Receipts.Covered { world := w, received := a.receives call reply } := by
  have hreceives : a.receives call reply = if reply.token.isSome then [] else a.received := by
    unfold Receipts.receives
    split
    · next r => exact absurd rfl (hcopy r)
    · rfl
  intro hlive
  dsimp only at hlive ⊢
  rw [hreceives]
  cases hmoved with
  | kept htoken hbatch =>
      rw [hbatch] at hlive ⊢
      rw [htoken]
      exact hcovered hlive
  | begun htoken hmark hphase =>
      by_cases hcount : w.handle.batch.writeCount = 0
      · right
        intro i hi
        omega
      · left
        exact ⟨hphase hcount, by omega⟩
  | confirmed htoken hphase hmark hcount =>
      rw [htoken, hcount]
      right
      rcases hcovered (.inl hphase) with ⟨-, hshort⟩ | hwhole
      · omega
      · exact hwhole
  | ended hphase =>
      rcases hphase with hphase | hphase <;> rw [hphase] at hlive <;> rcases hlive with h | h <;>
        cases h

/-- What a copy that is taken adds. -/
theorem Receipts.mem_receives_copyWrites {a : Receipts} {r : CopyRequest} {reply : Reply} (i : Nat) :
    i ∈ a.receives (.copyWrites r) reply ↔
      i ∈ a.received ∨ (r.offset.toNat ≤ i ∧ i < r.offset.toNat + reply.writes.length) := by
  unfold Receipts.receives
  rw [List.mem_append, List.mem_range'_1]

/-- A copy of the writes keeps the invariant when it ends in order. -/
theorem Receipts.Covered.copied {a : Receipts} {w : World} {caller : Caller} {r : CopyRequest}
    {reply : Reply} (hcovered : a.Covered) (htaken : r.Taken a.world.handle caller)
    (hhandle : w.handle = a.world.handle.marked r.offset.toNat (r.count a.world.handle))
    (hlength : reply.writes.length = r.count a.world.handle)
    (horder : a.EndsInOrder caller (.copyWrites r)) :
    Receipts.Covered { world := w, received := a.receives (.copyWrites r) reply } := by
  have hrange := htaken.2.2.2.2
  intro hlive
  dsimp only at hlive ⊢
  rw [hhandle] at hlive ⊢
  simp only [Handle.marked, mem_receives_copyWrites, hlength] at hlive ⊢
  unfold CopyRequest.count
  rcases hcovered hlive with ⟨hpending, hshort⟩ | hwhole
  · by_cases hend : a.world.handle.batch.writeCount ≤ r.offset.toNat + r.want.toNat
    · right
      intro i hi
      by_cases hbefore : i < r.offset.toNat
      · exact .inl (horder r rfl htaken hend i hbefore)
      · exact .inr ⟨by omega, by omega⟩
    · left
      exact ⟨hpending, by omega⟩
  · right
    intro i hi
    exact .inl (hwhole i hi)

/-- The state that the calls on a handle lead to: guarded until it is closed, and covered. -/
structure Receipts.Good (p : Profile) (a : Receipts) : Prop where
  guarded : a.world.handle.isOpen = true → Guarded p a.world
  covered : a.Covered

/-- The count of a live batch is the number of its records. -/
theorem Guarded.writes_length {p : Profile} {w : World} (hg : Guarded p w)
    (hlive : w.handle.batch.phase ≠ .idle) :
    w.handle.effects.writes.length = w.handle.batch.writeCount := by
  obtain ⟨d, -, hbatch⟩ := hg.batch hlive
  rw [hbatch.effects, hbatch.writes]

/-- A guarded handle makes every call lawful. -/
theorem lawful_of_guarded {p : Profile} {w : World}
    (hg : w.handle.isOpen = true → Guarded p w) (caller : Caller) (call : NativeCall) :
    Lawful p w caller call := by
  cases hopen : w.handle.isOpen with
  | false => exact .closed hopen caller call
  | true => exact (hg hopen).lawful caller call

/-- A step of the world is a call of the handle. -/
theorem World.call_of_step {p : Profile} {w w' : World} {caller : Caller} {call : NativeCall}
    {reply : Reply} (hstep : w.step p caller call = some (w', reply)) :
    w.handle.call p caller call = some (w'.handle, reply) := by
  unfold World.step at hstep
  cases hcall : w.handle.call p caller call with
  | none =>
      rw [hcall] at hstep
      cases hstep
  | some o =>
      rw [hcall] at hstep
      cases hstep
      rfl

/-- A copy is only taken from an open handle. -/
theorem CopyRequest.Taken.isOpen {h : Handle} {caller : Caller} {r : CopyRequest}
    (htaken : r.Taken h caller) : h.isOpen = true := by
  obtain ⟨⟨h', henter⟩, -⟩ := htaken
  unfold enter at henter
  split_ifs at henter with hclosed
  simpa using hclosed

/-- A copy is only taken from a batch that is pending or confirmed. -/
theorem CopyRequest.Taken.live {h : Handle} {caller : Caller} {r : CopyRequest}
    (htaken : r.Taken h caller) : h.batch.phase = .pending ∨ h.batch.phase = .confirmed := by
  obtain ⟨-, htoken, hgate, -⟩ := htaken
  rcases tokenCheck_cases h r.token with ⟨status, hstatus, hcheck⟩ | ⟨-, -, hidle⟩
  · rw [htoken] at hcheck
    exact absurd hcheck.symm hstatus
  · unfold finishedGate at hgate
    cases hphase : h.batch.phase with
    | idle => exact absurd hphase hidle
    | pending => exact .inl rfl
    | confirmed => exact .inr rfl
    | finished =>
        rw [if_pos hphase] at hgate
        cases hgate

/-- A copy is never taken without a batch. -/
theorem CopyRequest.Taken.ne_idle {h : Handle} {caller : Caller} {r : CopyRequest}
    (htaken : r.Taken h caller) : h.batch.phase ≠ .idle := by
  intro hidle
  rcases htaken.live with hphase | hphase <;> rw [hidle] at hphase <;> cases hphase

/-- A copy that is taken hands out as many records as it counts. -/
theorem Guarded.copyWrites_taken {p : Profile} {w : World} (hg : Guarded p w) {caller : Caller}
    {r : CopyRequest} (htaken : r.Taken w.handle caller) :
    ∃ reply : Reply, w.handle.call p caller (.copyWrites r)
        = some (w.handle.marked r.offset.toNat (r.count w.handle), reply) ∧
      reply.writes.length = r.count w.handle := by
  refine ⟨_, Bridge.copyWrites_taken hg.idle htaken, ?_⟩
  have hlength := hg.writes_length htaken.ne_idle
  have hrange := htaken.2.2.2.2
  simp only [slice, List.length_map, List.length_take, List.length_drop, hlength]
  unfold CopyRequest.count
  omega

/-- Every call returns, and keeps the guard of the handle. -/
theorem Receipts.exists_step {p : Profile} {a : Receipts}
    (hg : a.world.handle.isOpen = true → Guarded p a.world) (caller : Caller) (call : NativeCall) :
    ∃ b, a.step p caller call = some b ∧
      (b.world.handle.isOpen = true → Guarded p b.world) := by
  obtain ⟨w', reply, hstep, hguarded, -⟩ := lawful_of_guarded hg caller call
  exists { world := w', received := a.receives call reply }
  unfold Receipts.step
  rw [hstep]
  exact ⟨rfl, hguarded⟩

/-- A copy that is not taken leaves the handle and what was received as they were. -/
theorem Receipts.Good.not_taken {p : Profile} {a : Receipts} (hgood : a.Good p) {caller : Caller}
    {r : CopyRequest} (hrefused : ¬r.Taken a.world.handle caller) :
    ∃ status, a.world.handle.call p caller (.copyWrites r) = refuse a.world.handle status := by
  cases hopen : a.world.handle.isOpen with
  | false => exact ⟨.handleClosed, entered_closed hopen caller _⟩
  | true =>
      have hidle := (hgood.guarded hopen).idle
      obtain ⟨status, -, hrefuse⟩ := copyWrites_refused (p := p) hidle hrefused
      exact ⟨status, hrefuse⟩

/-- One call that meets the condition. -/
theorem Receipts.Good.step {p : Profile} {a b : Receipts} {caller : Caller} {call : NativeCall}
    (hgood : a.Good p) (horder : a.EndsInOrder caller call)
    (hstep : a.step p caller call = some b) : b.Good p := by
  obtain ⟨w', reply, hworld, hguarded, -⟩ := lawful_of_guarded hgood.guarded caller call
  unfold Receipts.step at hstep
  rw [hworld] at hstep
  cases hstep
  have hcall := World.call_of_step hworld
  refine ⟨hguarded, ?_⟩
  by_cases hcopy : ∃ r, call = .copyWrites r
  · obtain ⟨r, rfl⟩ := hcopy
    by_cases htaken : r.Taken a.world.handle caller
    · obtain ⟨reply', hcall', hlength⟩ :=
        (hgood.guarded htaken.isOpen).copyWrites_taken htaken
      rw [hcall'] at hcall
      injection hcall with hpair
      injection hpair with hhandle hreply
      subst hreply
      exact hgood.covered.copied htaken hhandle.symm hlength horder
    · obtain ⟨status, hrefuse⟩ := hgood.not_taken htaken
      rw [hrefuse] at hcall
      injection hcall with hpair
      injection hpair with hhandle hreply
      subst hreply
      intro hlive
      dsimp only at hlive ⊢
      rw [← hhandle] at hlive ⊢
      unfold Receipts.receives
      simp only [List.length_nil, List.range'_zero, List.append_nil]
      exact hgood.covered hlive
  · apply hgood.covered.moved
    · intro r heq
      exact hcopy ⟨r, heq⟩
    · exact .call (fun r heq => hcopy ⟨r, heq⟩) hcall

/-- A confirm right after a copy to the end of the batch succeeds. -/
theorem confirm_marked {h : Handle} {caller : Caller} {r : CopyRequest} {count : Nat}
    (htaken : r.Taken h caller) (hmark : h.batch.writeCount ≤ r.offset.toNat + count) :
    ∃ h', paxodinConfirm (h.marked r.offset.toNat count) caller r.token
      = some (h', { status := .ok }) := by
  have hlive := htaken.live
  obtain ⟨⟨h₁, henter⟩, htoken, -⟩ := htaken
  have henter' : enter (h.marked r.offset.toNat count) caller
      = .ok { h.marked r.offset.toNat count with busy := true } := by
    unfold enter at henter ⊢
    unfold Handle.marked
    dsimp only
    split_ifs at henter ⊢
    rfl
  have htoken' : tokenCheck { h.marked r.offset.toNat count with busy := true } r.token = .ok :=
    htoken
  unfold paxodinConfirm Bridge.entered
  rw [henter']
  dsimp only
  rw [htoken']
  dsimp only
  rcases hlive with hphase | hphase
  · have hphase' : (h.marked r.offset.toNat count).batch.phase = .pending := hphase
    simp only [hphase']
    rw [if_neg]
    · exact ⟨_, rfl⟩
    · unfold Handle.marked
      dsimp only
      omega
  · have hphase' : (h.marked r.offset.toNat count).batch.phase = .confirmed := hphase
    simp only [hphase', refuse]
    exact ⟨_, rfl⟩

/-- A copy that ends out of order lets the next confirm succeed. -/
theorem Receipts.ConfirmCovers.endsInOrder {p : Profile} {a b : Receipts} {caller : Caller}
    {call : NativeCall} (hg : a.world.handle.isOpen = true → Guarded p a.world)
    (hstep : a.step p caller call = some b) (hcovers : b.ConfirmCovers) :
    a.EndsInOrder caller call := by
  rintro r rfl htaken hend i hi
  obtain ⟨reply, hcall, hlength⟩ := (hg htaken.isOpen).copyWrites_taken htaken
  obtain ⟨w', reply', hworld, -⟩ := lawful_of_guarded hg caller (.copyWrites r)
  have hcall' := World.call_of_step hworld
  unfold Receipts.step at hstep
  rw [hworld] at hstep
  cases hstep
  rw [hcall] at hcall'
  injection hcall' with hpair
  injection hpair with hhandle hreply
  subst hreply
  have hrange := htaken.2.2.2.2
  have hmark : a.world.handle.batch.writeCount
      ≤ r.offset.toNat + r.count a.world.handle := by
    unfold CopyRequest.count
    omega
  obtain ⟨h', hconfirm⟩ := confirm_marked htaken hmark
  rw [hhandle] at hconfirm
  have hi' : i < w'.handle.batch.writeCount := by
    rw [← hhandle]
    exact hi.trans_le hrange
  have hmem := hcovers caller r.token h' _ hconfirm rfl i hi'
  rcases (Receipts.mem_receives_copyWrites i).1 hmem with hbefore | ⟨hge, -⟩
  · exact hbefore
  · omega

/-! ## Runs -/

/-- No call, no change. -/
@[simp] theorem Receipts.run_nil (p : Profile) (a : Receipts) : a.run p [] = some a :=
  rfl

/-- The first call and then the others. -/
@[simp] theorem Receipts.run_cons (p : Profile) (a : Receipts) (caller : Caller) (call : NativeCall)
    (calls : List (Caller × NativeCall)) :
    a.run p ((caller, call) :: calls) = (a.step p caller call).bind fun b => b.run p calls := by
  rw [Receipts.run]
  cases a.step p caller call <;> rfl

/-- Some calls and then the others. -/
theorem Receipts.run_append (p : Profile) (a : Receipts) (done calls : List (Caller × NativeCall)) :
    a.run p (done ++ calls) = (a.run p done).bind fun b => b.run p calls := by
  induction done generalizing a with
  | nil => rfl
  | cons step done ih =>
      rw [List.cons_append, run_cons, run_cons, Option.bind_assoc]
      congr 1
      funext b
      exact ih b

/-- Every run keeps the guard of the handle. -/
theorem Receipts.guarded_run {p : Profile} {a b : Receipts} {calls : List (Caller × NativeCall)}
    (hg : a.world.handle.isOpen = true → Guarded p a.world) (hrun : a.run p calls = some b) :
    b.world.handle.isOpen = true → Guarded p b.world := by
  induction calls generalizing a with
  | nil =>
      cases hrun
      exact hg
  | cons step calls ih =>
      obtain ⟨a', hstep, hg'⟩ := exists_step hg step.1 step.2
      rw [run_cons, hstep] at hrun
      exact ih hg' hrun

/-- A run whose calls all meet the condition. -/
theorem Receipts.Good.run {p : Profile} {a b : Receipts} {calls : List (Caller × NativeCall)}
    (hgood : a.Good p)
    (horder : ∀ done caller call rest, calls = done ++ (caller, call) :: rest →
      ∀ c, a.run p done = some c → c.EndsInOrder caller call)
    (hrun : a.run p calls = some b) : b.Good p := by
  induction calls generalizing a with
  | nil =>
      cases hrun
      exact hgood
  | cons step calls ih =>
      obtain ⟨caller, call⟩ := step
      obtain ⟨a', hstep, -⟩ := exists_step hgood.guarded caller call
      have hgood' : a'.Good p := hgood.step (horder [] caller call calls rfl a rfl) hstep
      rw [run_cons, hstep] at hrun
      apply ih hgood' _ hrun
      intro done caller' call' rest hcalls c hc
      apply horder ((caller, call) :: done) caller' call' rest
      · rw [hcalls, List.cons_append]
      · rw [run_cons, hstep]
        exact hc

/-- A handle that has just been opened has no live batch. -/
theorem Handle.Opens.idle {p : Profile} {epoch forkGeneration : Nat} {h : Handle}
    (hopens : Handle.Opens p epoch forkGeneration h) : h.batch.phase = .idle := by
  by_contra hlive
  obtain ⟨d, hlast, -⟩ := hopens.guarded.batch hlive
  cases hlast

/-- A handle that was just opened has no batch. -/
theorem Handle.Opens.good {p : Profile} {epoch forkGeneration : Nat} {h : Handle}
    (hopens : Handle.Opens p epoch forkGeneration h) :
    Receipts.Good p { world := { handle := h } } where
  guarded := fun _ => hopens.guarded
  covered := by
    intro hlive
    have hidle : h.batch.phase = .idle := hopens.idle
    dsimp only at hlive
    rw [hidle] at hlive
    rcases hlive with hphase | hphase <;> cases hphase

/-- What a confirm acknowledges, over any calls on a handle: in every state that they lead to, a
confirm succeeds only for a batch whose every write has been copied out under its token, exactly when
every copy that reaches the end of its batch comes after the records in front of it. -/
theorem confirm_covers {p : Profile} {epoch forkGeneration : Nat} {h : Handle}
    (hopens : Handle.Opens p epoch forkGeneration h) (calls : List (Caller × NativeCall)) :
    (∀ done rest, calls = done ++ rest →
        ∀ a, Receipts.run p { world := { handle := h } } done = some a → a.ConfirmCovers) ↔
      ∀ done caller call rest, calls = done ++ (caller, call) :: rest →
        ∀ a, Receipts.run p { world := { handle := h } } done = some a →
          a.EndsInOrder caller call := by
  have hstart := hopens.good
  constructor
  · intro hcovers done caller call rest hcalls a ha
    have hg := Receipts.guarded_run hstart.guarded ha
    obtain ⟨b, hstep, -⟩ := Receipts.exists_step hg caller call
    apply Receipts.ConfirmCovers.endsInOrder hg hstep
    apply hcovers (done ++ [(caller, call)]) rest
    · rw [hcalls, List.append_assoc, List.singleton_append]
    · rw [Receipts.run_append, ha, Option.bind_some, Receipts.run_cons, hstep]
      rfl
  · intro horder done rest hcalls a ha
    apply Receipts.Covered.confirmCovers
    refine (hstart.run ?_ ha).covered
    intro done' caller call rest' hdone
    apply horder done' caller call (rest' ++ rest)
    rw [hcalls, hdone, List.append_assoc, List.cons_append]

/-- The two promises of a batch are copied out one after the other, and then confirmed. -/
theorem confirm_covers_promises :
    ∃ h a, paxodinNodeOpen ⟨quadParams, 8, 0⟩ 0 0 trioConfig = .ok h ∧
      Receipts.run ⟨quadParams, 8, 0⟩ { world := { handle := h } }
        [(⟨0, true⟩, .beginStep (some boundedPrepare)),
          (⟨0, true⟩, .copyWrites ⟨some ⟨1, 1⟩, 0, 1⟩),
          (⟨0, true⟩, .copyWrites ⟨some ⟨1, 1⟩, 1, 1⟩)] = some a ∧
      a.world.handle.batch.writeCount = 2 ∧ a.received = [0, 1] ∧ a.ConfirmCovers := by
  have hcovers : ∀ {h : Handle} {a : Receipts},
      paxodinNodeOpen ⟨quadParams, 8, 0⟩ 0 0 trioConfig = .ok h →
      Receipts.run ⟨quadParams, 8, 0⟩ { world := { handle := h } }
        [(⟨0, true⟩, .beginStep (some boundedPrepare)),
          (⟨0, true⟩, .copyWrites ⟨some ⟨1, 1⟩, 0, 1⟩)] = some a → a.received = [0] →
      ∀ b, Receipts.run ⟨quadParams, 8, 0⟩ { world := { handle := h } }
        [(⟨0, true⟩, .beginStep (some boundedPrepare)),
          (⟨0, true⟩, .copyWrites ⟨some ⟨1, 1⟩, 0, 1⟩),
          (⟨0, true⟩, .copyWrites ⟨some ⟨1, 1⟩, 1, 1⟩)] = some b → b.ConfirmCovers := by
    intro h a hopen hfirst hreceived b hrun
    apply (confirm_covers (.fresh hopen) _).2 _ _ [] (List.append_nil _).symm b hrun
    rintro done caller call rest hcalls a' ha' r rfl - - i hi
    rcases done with _ | ⟨x, _ | ⟨y, _ | ⟨z, done⟩⟩⟩
    · cases hcalls
    · cases hcalls
      cases hi
    · cases hcalls
      rw [hfirst] at ha'
      cases ha'
      rw [hreceived]
      exact List.mem_singleton.mpr (Nat.lt_one_iff.mp hi)
    · simp at hcalls
  exact ⟨_, _, rfl, rfl, rfl, rfl, hcovers rfl rfl rfl _ rfl⟩

/-- An empty copy at the end of a batch raises the mark to it: the campaign's promise is confirmed
although it was never copied out. -/
theorem confirm_skips :
    ¬∀ (p : Profile) (epoch forkGeneration : Nat) (h : Handle),
        Handle.Opens p epoch forkGeneration h → ∀ calls a,
          Receipts.run p { world := { handle := h } } calls = some a → a.ConfirmCovers := by
  intro hall
  obtain ⟨h, a, h', hopen, hrun, hreceived, hcount, hconfirm⟩ : ∃ h a h',
      paxodinNodeOpen ⟨trioParams, 8, 0⟩ 0 0 trioConfig = .ok h ∧
      Receipts.run ⟨trioParams, 8, 0⟩ { world := { handle := h } }
        [(⟨0, true⟩, .beginCampaign), (⟨0, true⟩, .copyWrites ⟨some ⟨1, 1⟩, 1, 0⟩)] = some a ∧
      a.received = [] ∧ a.world.handle.batch.writeCount = 1 ∧
      paxodinConfirm a.world.handle ⟨0, true⟩ (some ⟨1, 1⟩) = some (h', { status := .ok }) :=
    ⟨_, _, _, rfl, rfl, rfl, rfl, rfl⟩
  have hmem := hall _ 0 0 h (.fresh hopen) _ a hrun _ _ _ _ hconfirm rfl 0 (by omega)
  rw [hreceived] at hmem
  cases hmem

end PaxosOdin.Bridge
