import PaxosOdin.Bridge.Handle
import PaxosOdin.Lifetime.Values
import PaxosOdin.Lifetime.Tenure

/-!
# No stop sign crosses the ABI

The bridge decodes no stop sign and proposes none, so the log behind a handle is never sealed, and
the log layer never returns before the core resets the effects.

Main results:

- Theorem `Transition.plain`: a transition of the bridge keeps the node free of stop signs.
- Theorem `Transition.run_reset`: what a transition leaves does not depend on the old effects.
-/

namespace PaxosOdin.Bridge

/-- An entry that is not a stop sign. -/
def Plain : Value → Prop
  | .stop _ => False
  | _ => True

/-- The zero value is a command. -/
theorem plain_default : Plain default := trivial

/-- A command never ends a configuration. -/
theorem Plain.nextStop {v : Value} (h : Plain v) (configurationId : Nat) :
    nextStop configurationId v = none := by
  cases v with
  | stop sign => exact h.elim
  | _ => rfl

/-- A log node without a stop sign. -/
structure PlainNode (p : Profile) (n : ReplicatedLogNode Command) : Prop where
  opened : Opened p.params n.core
  carries : n.core.Carries (fun _ => Plain) Plain
  undecided : n.stopSign = none
  notPending : n.stopPending = false

/-- A node that was only given commands has no seal. -/
theorem PlainNode.unsealed {p : Profile} {n : ReplicatedLogNode Command} (h : PlainNode p n) :
    isSealed n = false := by
  unfold isSealed
  rw [h.undecided, h.notPending]
  rfl

/-! ## Arguments -/

/-- A transition that the bridge can ask for. -/
def Transition.Plain (p : Profile) : Transition → Prop
  | .log (.campaign _) => True
  | .log (.tick _) => True
  | .log (.propose _) => True
  | .log (.proposeBatch values _) => values.length ≠ 0 ∧ values.length ≤ p.params.C
  | .log (.stepChecked _ e) => e.message.Carries (fun _ => Bridge.Plain) Bridge.Plain
  | .log _ => False
  | _ => True

/-- `entry_from_c` only lets commands in. -/
theorem entryFromC_plain {maxValue : Nat} {source : CEntry} {v : Value}
    (h : entryFromC maxValue source = .ok v) : Plain v := by
  unfold entryFromC at h
  split at h
  · cases h
  · cases h
    trivial
  · cases h
  · split_ifs at h
    cases h
    trivial

/-- What is not decoded has a status that says so. -/
theorem entryFromC_refused {maxValue : Nat} {source : CEntry} {status : Status}
    (h : entryFromC maxValue source = .error status) : status ≠ .ok := by
  unfold entryFromC at h
  split at h
  · cases h
    decide
  · cases h
  · cases h
    decide
  · split_ifs at h
    cases h
    decide

/-- `command_from_c` never refuses with `Ok`. -/
theorem commandFromC_refused {maxValue : Nat} {source : CEntry} {status : Status}
    (h : commandFromC maxValue source = .error status) : status ≠ .ok := by
  unfold commandFromC at h
  split_ifs at h
  · cases h
    decide
  · split at h
    · cases h
    · cases h
      decide
    · next hentry =>
        cases h
        exact entryFromC_refused hentry

/-- `message_from_c` never refuses with `Ok`. -/
theorem messageFromC_refused {source : CEnvelope} {entry : Value} {status : Status}
    (h : messageFromC source entry = .error status) : status ≠ .ok := by
  unfold messageFromC at h
  cases hkind : source.kind with
  | none =>
      rw [hkind] at h
      cases h
      decide
  | some kind =>
      rw [hkind] at h
      cases kind with
      | none =>
          cases h
          decide
      | prepare | promise =>
          dsimp only at h
          split at h
          · cases h
            decide
          · cases h
      | _ => cases h

/-- A list is refused because of one of its members. -/
theorem mapM_refused {α β ε : Type} {f : α → Except ε β} {xs : List α} {e : ε}
    (h : xs.mapM f = .error e) : ∃ x, f x = .error e := by
  induction xs with
  | nil => cases h
  | cons x xs ih =>
      rw [List.mapM_cons] at h
      cases hx : f x with
      | error e' =>
          rw [hx] at h
          cases h
          exact ⟨x, hx⟩
      | ok y =>
          cases hxs : xs.mapM f with
          | error e' =>
              rw [hx, hxs] at h
              cases h
              exact ih hxs
          | ok ys =>
              rw [hx, hxs] at h
              cases h

/-- A converted list has as many members as before. -/
theorem mapM_length {α β ε : Type} {f : α → Except ε β} {xs : List α} {ys : List β}
    (h : xs.mapM f = .ok ys) : ys.length = xs.length := by
  induction xs generalizing ys with
  | nil =>
      cases h
      rfl
  | cons x xs ih =>
      rw [List.mapM_cons] at h
      cases hx : f x with
      | error e =>
          rw [hx] at h
          cases h
      | ok y =>
          cases hxs : xs.mapM f with
          | error e =>
              rw [hx, hxs] at h
              cases h
          | ok zs =>
              rw [hx, hxs] at h
              cases h
              rw [List.length_cons, List.length_cons, ih hxs]

/-- The transition of `paxodin_propose` brings no stop sign in. -/
theorem proposeArguments_plain {p : Profile} {value : Option CEntry} {t : Transition}
    (h : proposeArguments p value = .ok t) : t.Plain p := by
  unfold proposeArguments at h
  split at h
  · cases h
  · split at h
    · cases h
    · cases h
      trivial

/-- That of `paxodin_propose_batch` proposes one value at least and a chunk of them at most. -/
theorem proposeBatchArguments_plain {p : Profile} {values : Option (List CEntry)} {t : Transition}
    (h : proposeBatchArguments p values = .ok t) : t.Plain p := by
  unfold proposeBatchArguments at h
  split at h
  · cases h
  · next values =>
      split_ifs at h with hcount
      rw [not_or, not_lt] at hcount
      split at h
      · cases h
      · next commands hmap =>
          cases h
          have hlength := mapM_length hmap
          exact ⟨by rw [hlength]; exact hcount.1, by rw [hlength]; exact hcount.2⟩

/-- A message that came through `message_from_c` holds the command of its envelope. -/
theorem messageFromC_plain {source : CEnvelope} {entry : Value} {message : Message Value}
    (hentry : Plain entry) (h : messageFromC source entry = .ok message) :
    message.Carries (fun _ => Bridge.Plain) Bridge.Plain := by
  unfold messageFromC at h
  cases hkind : source.kind with
  | none =>
      rw [hkind] at h
      cases h
  | some kind =>
      rw [hkind] at h
      cases kind with
      | none => cases h
      | prepare =>
          dsimp only at h
          split at h
          · cases h
          · cases h
            trivial
      | promise =>
          dsimp only at h
          split at h
          · cases h
          · cases h
            exact ⟨hentry, fun _ => hentry⟩
      | accept | commit =>
          cases h
          exact hentry
      | _ =>
          cases h
          trivial

/-- The transition of `paxodin_step` delivers a message that holds a command. -/
theorem stepArguments_plain {p : Profile} {envelope : Option CEnvelope} {t : Transition}
    (h : stepArguments p envelope = .ok t) : t.Plain p := by
  unfold stepArguments at h
  split at h
  · cases h
  next source =>
  split at h
  · cases h
  next configurationId wire hwire =>
  cases h
  unfold envelopeFromC at hwire
  split_ifs at hwire
  split at hwire
  · cases hwire
  next entry hentry =>
  split at hwire
  · cases hwire
  next message hmessage =>
  cases hwire
  exact messageFromC_plain (entryFromC_plain hentry) hmessage

/-- Arguments of `paxodin_propose` are never refused with `Ok`. -/
theorem proposeArguments_refused {p : Profile} {value : Option CEntry} {status : Status}
    (h : proposeArguments p value = .error status) : status ≠ .ok := by
  unfold proposeArguments at h
  split at h
  · cases h
    decide
  · split at h
    · next hcommand =>
        cases h
        exact commandFromC_refused hcommand
    · cases h

/-- Arguments of `paxodin_propose_batch` are never refused with `Ok`. -/
theorem proposeBatchArguments_refused {p : Profile} {values : Option (List CEntry)} {status : Status}
    (h : proposeBatchArguments p values = .error status) : status ≠ .ok := by
  unfold proposeBatchArguments at h
  split at h
  · cases h
    decide
  · split_ifs at h
    · cases h
      decide
    · split at h
      · next hmap =>
          cases h
          obtain ⟨x, hx⟩ := mapM_refused hmap
          exact commandFromC_refused hx
      · cases h

/-- Arguments of `paxodin_step` are never refused with `Ok`. -/
theorem stepArguments_refused {p : Profile} {envelope : Option CEnvelope} {status : Status}
    (h : stepArguments p envelope = .error status) : status ≠ .ok := by
  unfold stepArguments at h
  split at h
  · cases h
    decide
  split at h
  · next hwire =>
      cases h
      unfold envelopeFromC at hwire
      split_ifs at hwire
      · cases hwire
        decide
      split at hwire
      · next hentry =>
          cases hwire
          exact entryFromC_refused hentry
      split at hwire
      · next hmessage =>
          cases hwire
          exact messageFromC_refused hmessage
      · cases hwire
  · cases h

/-! ## Transitions -/

/-- A transition of the bridge always reaches the core. -/
theorem Transition.Plain.reaches {p : Profile} {t : Transition} {n : ReplicatedLogNode Command}
    (ht : t.Plain p) (hn : PlainNode p n) : t.returnsEarly p n = false := by
  have hsealed := hn.unsealed
  cases t with
  | log c =>
      cases c with
      | propose => exact hsealed
      | proposeBatch values capacity =>
          obtain ⟨hempty, hlarge⟩ := ht
          simp only [Transition.returnsEarly, refusedEarly, hsealed, Bool.false_or]
          rw [Bool.or_eq_false_iff, beq_eq_false_iff_ne, decide_eq_false_iff_not, not_lt]
          exact ⟨hempty, hlarge⟩
      | proposeStopSign => exact ht.elim
      | _ => rfl
  | _ => rfl

/-- What a transition leaves does not depend on the effects it was given. -/
theorem Transition.run_reset {p : Profile} {t : Transition} {n : ReplicatedLogNode Command}
    (effects : Effects Value) (h : t.returnsEarly p n = false) :
    t.run p n effects = t.run p n {} := by
  cases t with
  | log c =>
      cases c with
      | propose value =>
          have hsealed : isSealed n = false := h
          simp [Transition.run, replicatedLogPropose, hsealed]
      | proposeBatch values capacity =>
          simp only [Transition.returnsEarly, refusedEarly, Bool.or_eq_false_iff,
            beq_eq_false_iff_ne, decide_eq_false_iff_not] at h
          simp [Transition.run, replicatedLogProposeBatch, h]
      | proposeStopSign nextConfigurationId nextMembers metadata =>
          simp only [Transition.returnsEarly, refusedEarly, Bool.or_eq_false_iff,
            decide_eq_false_iff_not] at h
          obtain ⟨⟨hsealed, hid⟩, hstop⟩ := h
          simp only [Transition.run, logCall, replicatedLogProposeStopSign, hsealed, hid]
          cases hinit : stopSignInit p.params.M p.maxMetadata nextConfigurationId nextMembers
              metadata with
          | error e => simp [hinit, Except.toOption] at hstop
          | ok stop => rfl
      | _ => rfl
  | _ => rfl

/-- A transition of the log leaves what the log layer leaves. -/
theorem Transition.run_log {p : Profile} (c : LogCall Command) (n : ReplicatedLogNode Command)
    (effects : Effects Value) :
    ((Transition.log c).run p n effects).node =
        (logCall p.params p.maxMetadata n effects c).1.1 ∧
      ((Transition.log c).run p n effects).effects =
        (logCall p.params p.maxMetadata n effects c).1.2 := by
  cases c <;> exact ⟨rfl, rfl⟩

/-- The seal bookkeeping finds nothing. -/
theorem observeEffects_plain {p : Profile} {n : ReplicatedLogNode Command} {e : Effects Value}
    (hcells : ∀ i, Plain (n.core.ledger.cells i).value) (hcommitted : ∀ c ∈ e.committed, Plain c.value)
    (hnone : n.stopSign = none) :
    (observeEffects p.params n e).1.stopSign = none ∧
      (observeEffects p.params n e).1.stopPending = false := by
  have hobs := observeEffects_observed (P := p.params) n e
  have hsign : (observeEffects p.params n e).1.stopSign = none := by
    rcases hobs.source with ⟨hsame, -⟩ | ⟨c, hc, hsame, -⟩
    · exact hsame.trans hnone
    · rw [← hsame]
      exact (hcommitted c hc).nextStop _
  refine ⟨hsign, ?_⟩
  have hfold := observeStop_fold n e.committed
  show (pendingStopSign p.params
    (e.committed.foldl (fun n c => observeStop n c.slot c.value) n)).isSome = false
  have hfoldSign : (e.committed.foldl (fun n c => observeStop n c.slot c.value) n).stopSign = none :=
    hsign
  unfold pendingStopSign
  rw [hfoldSign, hfold.core]
  dsimp only
  rw [Option.isSome_eq_false_iff, Option.isNone_iff_eq_none, List.findSome?_eq_none_iff]
  exact fun cell _ => (hcells cell).nextStop _

/-- What a plain log transition gives to the core. -/
theorem Transition.Plain.input {p : Profile} {c : LogCall Command} (h : (Transition.log c).Plain p)
    (id : Nat) (final : Effects Value) :
    Supplies (fun _ => Bridge.Plain) Bridge.Plain c.input id final := by
  refine ⟨fun _ _ hv => hv, fun e he => ?_, fun v hv _ => ?_, fun v hv _ _ _ => ?_,
    fun _ _ _ hv _ => hv⟩
  · cases c with
    | stepChecked configurationId envelope =>
        cases he
        exact h
    | step => exact h.elim
    | _ => cases he
  · cases c with
    | campaign noop | tick noop =>
        cases List.mem_singleton.mp hv
        trivial
    | _ => cases hv
  · cases c with
    | propose value =>
        cases List.mem_singleton.mp hv
        trivial
    | proposeBatch values capacity =>
        obtain ⟨value, -, rfl⟩ := List.mem_map.mp hv
        trivial
    | proposeStopSign => exact h.elim
    | _ => cases hv

/-- A transition of the bridge keeps the node free of stop signs. -/
theorem Transition.plain {p : Profile} {t : Transition} {n : ReplicatedLogNode Command}
    (ht : t.Plain p) (hn : PlainNode p n) : PlainNode p (t.run p n {}).node := by
  have hquiet : ∀ {I : Input Value} {σ : St Value}, I.heard = none → I.values = [] → I.noops = [] →
      Completes p.params I n.core (St.start n.core) σ →
      PlainNode p { n with core := σ.node } := by
    intro I σ hheard hvalues hnoops hcompletes
    have hcarries := hcompletes.carries hn.carries
      ⟨fun _ _ hv => hv, fun e he => (by rw [hheard] at he; cases he),
        fun v hv => (by rw [hnoops] at hv; cases hv), fun v hv => (by rw [hvalues] at hv; cases hv),
        fun _ _ _ hv _ => hv⟩
    exact ⟨hcompletes.opened hn.opened, hcarries.node, hn.undecided, hn.notPending⟩
  cases t with
  | log c =>
      have hcompletes := innerCall_completes p.maxMetadata hn.opened c
      have hcarries := hcompletes.carries hn.carries (ht.input _ _)
      have hopened := hcompletes.opened hn.opened
      rw [(Transition.run_log c n {}).1, logCall_inner {} (ht.reaches hn)]
      generalize innerCall p.params p.maxMetadata n c = inner at hcarries hopened
      cases herror : inner.2 with
      | none =>
          have hcells : ∀ i, Bridge.Plain (inner.1.node.ledger.cells i).value :=
            hcarries.node.ledger.payload
          have hcore := (observeEffects_observed (P := p.params) { n with core := inner.1.node }
            inner.1.effects).core
          obtain ⟨hsign, hpending⟩ := observeEffects_plain (p := p)
            (n := { n with core := inner.1.node }) hcells (hcarries.anywhere fun _ _ _ hv => hv).2
            hn.undecided
          exact ⟨hcore ▸ hopened, hcore ▸ hcarries.node, hsign, hpending⟩
      | _ => exact ⟨hopened, hcarries.node, hn.undecided, hn.notPending⟩
  | reconnected peer => exact hquiet rfl rfl rfl (runCall_completes hn.opened (.reconnected peer))
  | requestCatchUp peer fromSlot =>
      exact hquiet rfl rfl rfl (runCall_completes hn.opened (.requestCatchUp peer fromSlot))
  | installChosenTrim anchor =>
      obtain ⟨-, hcells, -⟩ := nodeInstallChosenTrim_quiet n.core anchor
      refine ⟨nodeInstallChosenTrim_opened hn.opened, ?_, hn.undecided, hn.notPending⟩
      show (nodeInstallChosenTrim n.core anchor).1.node.Carries _ _
      unfold nodeInstallChosenTrim
      dsimp only
      split_ifs <;>
        exact ⟨⟨hn.carries.ledger.payload, hn.carries.ledger.held, hn.carries.ledger.marked⟩,
          hn.carries.recovered, hn.carries.resubmit, hn.carries.noop⟩

/-! ## Other operations -/

/-- Moving the memory floor lets no stop sign in. -/
theorem PlainNode.advanceFloor {p : Profile} {n : ReplicatedLogNode Command} (h : PlainNode p n)
    (through : Nat) : PlainNode p (replicatedLogAdvanceMemoryFloor n through).1 := by
  refine ⟨h.opened.advanceFloor through, ?_, h.undecided, h.notPending⟩
  show (nodeAdvanceMemoryFloor n.core through).1.Carries _ _
  unfold nodeAdvanceMemoryFloor
  split_ifs
  · exact h.carries
  · exact h.carries.congr rfl rfl (fun _ hv => hv) rfl

/-- Nor does allowing or forbidding campaigns. -/
theorem PlainNode.setCampaignEnabled {p : Profile} {n : ReplicatedLogNode Command}
    (h : PlainNode p n) (enabled : Bool) : PlainNode p (replicatedLogSetCampaignEnabled n enabled) :=
  ⟨h.opened.setCampaignEnabled enabled, h.carries.congr rfl rfl (fun _ hv => hv) rfl, h.undecided,
    h.notPending⟩

/-! ## Replay and restore -/

/-- A ledger without a stop sign, whose slot numbers are words. -/
structure PlainLedger (l : Ledger Value) : Prop where
  carries : l.Carries (fun _ => Plain) Plain
  words : l.Words

/-- The empty ledger holds no stop sign. -/
theorem PlainLedger.empty : PlainLedger Ledger.empty :=
  ⟨.empty trivial, fun _ => Nat.zero_le _, Nat.zero_le _⟩

/-- A record that came through `write_from_c` holds a command and fits its words. -/
theorem writeFromC_plain {maxValue : Nat} {source : CWrite} {w : Write Value}
    (h : writeFromC maxValue source = .ok w) : w.Carries (fun _ => Plain) ∧ w.Word := by
  have hword : ∀ x : UInt64, x.toNat ≤ maxSlot := fun x => Nat.le_pred_of_lt x.toNat_lt
  unfold writeFromC at h
  split at h
  · cases h
  next entry hentry =>
  have hplain := entryFromC_plain hentry
  cases hkind : source.kind with
  | none =>
      rw [hkind] at h
      cases h
  | some kind =>
      rw [hkind] at h
      cases kind with
      | none => cases h
      | promise =>
          cases h
          exact ⟨trivial, trivial⟩
      | promiseAt =>
          cases h
          exact ⟨trivial, hword _⟩
      | vote | chosen =>
          cases h
          exact ⟨hplain, hword _⟩
      | trim =>
          cases h
          exact ⟨trivial, hword _⟩

/-- `write_from_c` never refuses with `Ok`. -/
theorem writeFromC_refused {maxValue : Nat} {source : CWrite} {status : Status}
    (h : writeFromC maxValue source = .error status) : status ≠ .ok := by
  unfold writeFromC at h
  split at h
  · next hentry =>
      cases h
      exact entryFromC_refused hentry
  · cases hkind : source.kind with
    | none =>
        rw [hkind] at h
        cases h
        decide
    | some kind =>
        rw [hkind] at h
        cases kind with
        | none =>
            cases h
            decide
        | _ => cases h

/-- One record of a replay. -/
theorem PlainLedger.fold {p : Profile} {l : Ledger Value} {w : Write Value} (h : PlainLedger l)
    (hw : w.Carries fun _ => Plain) (hword : w.Word) :
    PlainLedger (ledgerReplayFold p.params l w).1 := by
  have hstep : FoldStep p.params w l (ledgerReplayFold p.params l w).1 := ledgerReplayFold_step rfl
  refine ⟨ledgerReplayFold_carries h.carries (fun _ _ hv => hv) hw, fun i => ?_, ?_⟩
  · rcases hstep.owner i with hold | ⟨-, hnew⟩
    · rw [hold]
      exact h.words.slots i
    · rw [hnew]
      exact hword.slot_le
  · rcases hstep.anchor with hold | hnew
    · rw [hold]
      exact h.words.anchor
    · rw [hnew] at hword
      exact hword

/-- A record that the fold refuses leaves the ledger as it was. -/
theorem ledgerReplayFold_refused {P : Params} {l : Ledger Value} {w : Write Value}
    (h : (ledgerReplayFold P l w).2 ≠ .none) : (ledgerReplayFold P l w).1 = l := by
  have hclaim : ∀ {l' : Ledger Value} {slot : Nat}, ledgerClaim P l slot = some l' →
      l' = l ∨ (l'.cells (cellOf slot P.W)).state = .empty := by
    intro l' slot hl
    unfold ledgerClaim at hl
    dsimp only at hl
    split_ifs at hl <;> cases hl
    · exact Or.inl rfl
    · right
      rw [ledgerOpen_cells, if_pos rfl]
  cases w with
  | promise ballot => exact absurd rfl h
  | promiseAt ballot slot =>
      simp only [ledgerReplayFold] at h ⊢
      by_cases hzero : slot = 0
      · rw [if_pos hzero]
      rw [if_neg hzero] at h ⊢
      cases hl : ledgerClaim P l slot with
      | none => rfl
      | some l' =>
          rw [hl] at h
          exact absurd rfl h
  | vote ballot slot value =>
      simp only [ledgerReplayFold] at h ⊢
      by_cases hzero : slot = 0
      · rw [if_pos hzero]
      rw [if_neg hzero] at h ⊢
      cases hl : ledgerClaim P l slot with
      | none => rfl
      | some l' =>
          rw [hl] at h
          dsimp only at h ⊢
          by_cases hconflict : (l'.cells (cellOf slot P.W)).state = .voted ∧
              (l'.cells (cellOf slot P.W)).voteBallot = ballot ∧
                (l'.cells (cellOf slot P.W)).value ≠ value
          · rw [if_pos hconflict]
            refine (hclaim hl).resolve_right fun hempty => ?_
            rw [hempty] at hconflict
            exact absurd hconflict.1 (by decide)
          · rw [if_neg hconflict] at h
            exact absurd rfl h
  | chosen slot value =>
      simp only [ledgerReplayFold, ledgerApply] at h ⊢
      by_cases hzero : slot = 0
      · rw [if_pos hzero]
      rw [if_neg hzero] at h ⊢
      cases hl : ledgerClaim P l slot with
      | none => rfl
      | some l' =>
          rw [hl] at h
          dsimp only at h ⊢
          by_cases hconflict : (l'.cells (cellOf slot P.W)).state = .chosen ∧
              (l'.cells (cellOf slot P.W)).value ≠ value
          · rw [if_pos hconflict]
            refine (hclaim hl).resolve_right fun hempty => ?_
            rw [hempty] at hconflict
            exact absurd hconflict.1 (by decide)
          · rw [if_neg hconflict] at h
            exact absurd rfl h
  | trim anchor =>
      simp only [ledgerReplayFold, ledgerApply] at h ⊢
      split_ifs at h ⊢
      · rfl
      · rfl
      · exact absurd rfl h

/-- The decided cells of a plain ledger hold no seal. -/
theorem observeDurable_plain {p : Profile} {n : ReplicatedLogNode Command}
    (hcells : ∀ i, Plain (n.core.ledger.cells i).value) (hnone : n.stopSign = none) :
    (observeDurable p.params n).core = n.core ∧ (observeDurable p.params n).stopSign = none ∧
      (observeDurable p.params n).stopPending = false := by
  have hfold : ∀ cells : List Nat, cells.foldl (fun n cell =>
      observeStop n (n.core.ledger.cells cell).slot (n.core.ledger.cells cell).value) n = n := by
    intro cells
    induction cells with
    | nil => rfl
    | cons cell cells ih =>
        have hstop := (hcells cell).nextStop n.configurationId
        rw [List.foldl_cons]
        simp only [observeStop, hstop]
        exact ih
  unfold observeDurable
  rw [hfold]
  refine ⟨rfl, hnone, ?_⟩
  show (pendingStopSign p.params n).isSome = false
  unfold pendingStopSign
  rw [hnone]
  dsimp only
  rw [Option.isSome_eq_false_iff, Option.isNone_iff_eq_none, List.findSome?_eq_none_iff]
  exact fun cell _ => (hcells cell).nextStop _

/-- A node restored from a plain ledger is plain. -/
theorem replicatedLogRestore_plain {p : Profile} {id configurationId floor : Nat}
    {membership : Membership} {l : Ledger Value} {options : NodeOptions}
    {n : ReplicatedLogNode Command} (hm : membership.Valid) (hl : PlainLedger l)
    (hfloor : floor ≤ maxSlot)
    (h : replicatedLogRestore p.params id configurationId membership l floor options = .ok n) :
    PlainNode p n := by
  unfold replicatedLogRestore at h
  split_ifs at h
  split at h
  · next core hcore =>
      cases h
      have hcarries := nodeRestore_carries (R := Plain) trivial hl.carries hcore
      have hopened := (Begins.restore hm hfloor hl.words hcore).opened.1
      obtain ⟨hsame, hsign, hpending⟩ := observeDurable_plain (p := p)
        (n := .opened core configurationId) hcarries.ledger.payload rfl
      exact ⟨hsame ▸ hopened, hsame ▸ hcarries, hsign, hpending⟩
  · cases h

/-- A node that `replicated_log_init` opens was given no stop sign. -/
theorem replicatedLogInit_plain {p : Profile} {id configurationId : Nat} {membership : Membership}
    {options : NodeOptions} {n : ReplicatedLogNode Command} (hm : membership.Valid)
    (h : replicatedLogInit id configurationId membership options = .ok n) : PlainNode p n := by
  unfold replicatedLogInit at h
  split_ifs at h
  split at h
  · next core hcore =>
      cases h
      exact ⟨(Begins.init (P := p.params) hm hcore).opened.1, nodeInit_carries plain_default hcore, rfl, rfl⟩
  · cases h

/-- Nor was one that `replicated_log_continue_at` opens. -/
theorem replicatedLogContinueAt_plain {p : Profile} {id configurationId floor : Nat}
    {membership : Membership} {anchor : TrimAnchor} {options : NodeOptions}
    {n : ReplicatedLogNode Command} (hm : membership.Valid) (hfloor : floor ≤ maxSlot)
    (h : replicatedLogContinueAt p.params id configurationId membership floor anchor options = .ok n) :
    PlainNode p n := by
  unfold replicatedLogContinueAt at h
  split_ifs at h
  split at h
  · next core hcore =>
      cases h
      exact ⟨(Begins.continueAt hm hfloor hcore).opened.1, nodeContinueAt_carries plain_default hcore, rfl,
        rfl⟩
  · cases h

/-- The zeroed node of a replaying handle is plain. -/
theorem zeroNode_plain (p : Profile) : PlainNode p zeroNode := by
  refine ⟨?_, ?_, rfl, rfl⟩
  · exact ⟨fun h => (by cases h), Nat.zero_le _, fun h => (by cases h), fun h => (by cases h),
      fun h => (by cases h), le_rfl, Nat.zero_le _⟩
  · exact ⟨.empty trivial, fun _ hstate => absurd rfl hstate, fun _ hv => (by cases hv),
      fun _ hv => (by cases hv)⟩

end PaxosOdin.Bridge
