import PaxosOdin.Lifetime.Window

/-!
# Where values go

A value moves through cells, recovery scratch, the resubmission queue, records and messages.  The
predicate `Q slot value` says that a value may stand for a slot, and `R` holds of every payload,
also of one that a reused cell still holds.  A transition that is given only such values stores,
records and sends only such values; only of two decisions that it releases through `pass_through` the
first may be left with the value of the other.

Main definitions:

- Definition `Node.Carries`: what a node holds.
- Definition `Supplies`: what a transition is given.

Main results:

- Theorem `Completes.carries`: a transition.
- Theorem `ledgerReplayFold_carries`: a record of a journal.
-/

namespace PaxosOdin

variable {V : Type} {P : Params} {I : Input V} {Q : Nat → V → Prop} {R : V → Prop}

/-! ## Carriers of values -/

/-- The value of a record may stand for its slot. -/
def Write.Carries (Q : Nat → V → Prop) : Write V → Prop
  | .vote _ slot value => Q slot value
  | .chosen slot value => Q slot value
  | _ => True

/-- The value of a message may stand for its slot; a promise for an empty cell shows only a
payload. -/
def Message.Carries (Q : Nat → V → Prop) (R : V → Prop) : Message V → Prop
  | .promise _ slot _ state value => R value ∧ (state ≠ .empty → Q slot value)
  | .accept _ slot value => Q slot value
  | .commit slot value => Q slot value
  | _ => True

/-- Every cell that holds a vote or a decision holds a value of its slot. -/
structure Ledger.Carries (Q : Nat → V → Prop) (R : V → Prop) (l : Ledger V) : Prop where
  payload : ∀ i, R (l.cells i).value
  held : ∀ i, (l.cells i).state ≠ .empty → Q (l.cells i).slot (l.cells i).value
  marked : ∀ i ∈ l.chosen, (l.cells i).state = .chosen

/-- What a node holds. -/
structure Node.Carries (Q : Nat → V → Prop) (R : V → Prop) (n : Node V) : Prop where
  ledger : n.ledger.Carries Q R
  recovered : ∀ i, (n.recovered i).state ≠ .empty → Q (n.recovered i).slot (n.recovered i).value
  resubmit : ∀ v ∈ n.resubmit, ∃ slot, Q slot v
  noop : ∀ v, n.noop = some v → ∀ slot, Q slot v

/-- The record of a decision that was released through `pass_through`, with a value of some slot. -/
def Write.Passes (Q : Nat → V → Prop) (batch : Effects V) : Write V → Prop
  | .chosen slot value => slot ∈ batch.passedSlots ∧ ∃ other, Q other value
  | _ => False

/-- What a node and its batch hold. -/
structure St.Carries (Q : Nat → V → Prop) (R : V → Prop) (σ : St V) : Prop where
  node : σ.node.Carries Q R
  writes : ∀ w ∈ σ.effects.writes, w.Carries Q ∨ w.Passes Q σ.effects
  messages : ∀ e ∈ σ.effects.messages, e.message.Carries Q R
  committed : ∀ c ∈ σ.effects.committed,
    Q c.slot c.value ∨ (c.passThrough = true ∧ ∃ slot, Q slot c.value)

/-- What a transition of the node `id` is given, when it ends with the batch `final`.  A client value
or a suggestion that is proposed again may stand for the slot it was voted for in. -/
structure Supplies (Q : Nat → V → Prop) (R : V → Prop) (I : Input V) (id : Nat)
    (final : Effects V) : Prop where
  payload : ∀ slot v, Q slot v → R v
  heard : ∀ e, I.heard = some e → e.message.Carries Q R
  noops : ∀ v ∈ I.noops, ∀ slot, Q slot v
  values : ∀ v ∈ I.values, ∀ ballot slot, .vote ballot slot v ∈ final.writes → Q slot v
  again : ∀ v slot slot', Q slot v → .vote (ownershipBallot id) slot' v ∈ final.writes → Q slot' v

/-- Where a value of one slot may stand for any, so may what was passed through. -/
theorem St.Carries.anywhere {σ : St V} (h : σ.Carries Q R)
    (hany : ∀ slot slot' v, Q slot v → Q slot' v) :
    (∀ w ∈ σ.effects.writes, w.Carries Q) ∧ ∀ c ∈ σ.effects.committed, Q c.slot c.value := by
  constructor
  · intro w hw
    rcases h.writes w hw with hcarries | hpasses
    · exact hcarries
    · cases w with
      | chosen slot value =>
          obtain ⟨-, other, hvalue⟩ := hpasses
          exact hany other slot value hvalue
      | _ => exact hpasses.elim
  · intro c hc
    rcases h.committed c hc with hvalue | ⟨-, slot, hvalue⟩
    · exact hvalue
    · exact hany slot c.slot c.value hvalue

/-- A weaker predicate on slots and values holds wherever a stronger one does. -/
theorem Write.Carries.mono {Q' : Nat → V → Prop} {w : Write V} (h : w.Carries Q)
    (hle : ∀ slot v, Q slot v → Q' slot v) : w.Carries Q' := by
  cases w with
  | vote ballot slot value => exact hle slot value h
  | chosen slot value => exact hle slot value h
  | _ => trivial

theorem Node.Carries.mono {Q' : Nat → V → Prop} {n : Node V} (h : n.Carries Q R)
    (hle : ∀ slot v, Q slot v → Q' slot v) : n.Carries Q' R where
  ledger := ⟨h.ledger.payload, fun i hi => hle _ _ (h.ledger.held i hi), h.ledger.marked⟩
  recovered i hi := hle _ _ (h.recovered i hi)
  resubmit v hv := (h.resubmit v hv).imp fun slot => hle slot v
  noop v hv slot := hle slot v (h.noop v hv slot)

/-! ## Ledgers -/

/-- An opened cell holds nothing that could be wrong. -/
theorem Ledger.Carries.opened {l : Ledger V} (h : l.Carries Q R) (cell slot : Nat) :
    (ledgerOpen l cell slot).Carries Q R := by
  refine ⟨fun i => ?_, fun i => ?_, fun i hi => ?_⟩
  · rw [ledgerOpen_cells]
    split_ifs
    · exact h.payload cell
    · exact h.payload i
  · rw [ledgerOpen_cells]
    split_ifs
    · exact fun hstate => absurd rfl hstate
    · exact h.held i
  · obtain ⟨hne, hmem⟩ := Finset.mem_erase.mp hi
    rw [ledgerOpen_cells, if_neg hne]
    exact h.marked i hmem

/-- A promise leaves every value alone. -/
theorem Ledger.Carries.promisedAt {l : Ledger V} (h : l.Carries Q R) (cell ballot : Nat) :
    (ledgerSetPromiseAt l cell ballot).Carries Q R := by
  refine ⟨fun i => ?_, fun i => ?_, fun i hi => ?_⟩
  · rw [ledgerSetPromiseAt_cells]
    exact h.payload i
  · rw [ledgerSetPromiseAt_cells]
    exact h.held i
  · rw [ledgerSetPromiseAt_cells]
    exact h.marked i hi

/-- A promise leaves the slot of a cell alone. -/
theorem ledgerSetPromiseAt_slot (l : Ledger V) (cell ballot i : Nat) :
    ((ledgerSetPromiseAt l cell ballot).cells i).slot = (l.cells i).slot := by
  rw [ledgerSetPromiseAt_cells]

/-- A promise leaves the state of a cell alone. -/
theorem ledgerSetPromiseAt_state (l : Ledger V) (cell ballot i : Nat) :
    ((ledgerSetPromiseAt l cell ballot).cells i).state = (l.cells i).state := by
  rw [ledgerSetPromiseAt_cells]

/-- A vote for a value that may stand in its slot. -/
theorem Ledger.Carries.voted {l : Ledger V} (h : l.Carries Q R) {cell : Nat} (ballot : Nat)
    {value : V} (hvalue : Q (l.cells cell).slot value) (hpayload : R value)
    (hopen : (l.cells cell).state ≠ .chosen) : (ledgerRecordVote l cell ballot value).Carries Q R := by
  refine ⟨fun i => ?_, fun i => ?_, fun i hi => ?_⟩
  · rw [ledgerRecordVote_cells]
    dsimp only
    split_ifs
    · exact hpayload
    · exact h.payload i
  · rw [ledgerRecordVote_cells]
    dsimp only
    split_ifs with hi
    · subst hi
      exact fun _ => hvalue
    · exact h.held i
  · have hstate := h.marked i hi
    have hne : i ≠ cell := fun heq => hopen (heq ▸ hstate)
    rw [ledgerRecordVote_cells]
    simpa [hne] using hstate

/-- A decision for a value that may stand in its slot. -/
theorem Ledger.Carries.decided {l : Ledger V} (h : l.Carries Q R) {cell : Nat} {value : V}
    (hvalue : Q (l.cells cell).slot value) (hpayload : R value) :
    (ledgerRecordChosen l cell value).Carries Q R := by
  refine ⟨fun i => ?_, fun i => ?_, fun i hi => ?_⟩
  · rw [ledgerRecordChosen_cells]
    dsimp only
    split_ifs
    · exact hpayload
    · exact h.payload i
  · rw [ledgerRecordChosen_cells]
    dsimp only
    split_ifs with hi
    · subst hi
      exact fun _ => hvalue
    · exact h.held i
  · rw [ledgerRecordChosen_cells]
    dsimp only
    split_ifs with hcell
    · rfl
    · exact h.marked i (Finset.mem_of_mem_insert_of_ne hi hcell)

/-- The promise of the ledger holds no value. -/
theorem Ledger.Carries.withPromised {l : Ledger V} (h : l.Carries Q R) (ballot : Nat) :
    ({ l with promised := ballot } : Ledger V).Carries Q R :=
  ⟨h.payload, h.held, h.marked⟩

/-! ## Small steps -/

section Steps

/-- A step that leaves the ledger and the scratch alone. -/
theorem Node.Carries.congr {n n' : Node V} (h : n.Carries Q R) (hledger : n'.ledger = n.ledger)
    (hrecovered : n'.recovered = n.recovered) (hresubmit : ∀ v ∈ n'.resubmit, v ∈ n.resubmit)
    (hnoop : n'.noop = n.noop) : n'.Carries Q R := by
  refine ⟨hledger ▸ h.ledger, fun i => ?_, fun v hv => h.resubmit v (hresubmit v hv), fun v hv => ?_⟩
  · rw [hrecovered]
    exact h.recovered i
  · exact h.noop v (hnoop ▸ hv)

/-- A step that changes the ledger and adds a record. -/
theorem St.Carries.record {σ : St V} (h : σ.Carries Q R) {l : Ledger V} {w : Write V}
    (hledger : l.Carries Q R) (hw : w.Carries Q) : ((σ.withLedger l).addWrite w).Carries Q R := by
  refine ⟨⟨hledger, h.node.recovered, h.node.resubmit, h.node.noop⟩, fun w' hw' => ?_, h.messages,
    h.committed⟩
  rcases List.mem_append.mp hw' with hw' | hw'
  · exact h.writes w' hw'
  · rw [List.mem_singleton.mp hw']
    exact Or.inl hw

/-- Messages that hold good values may be sent. -/
theorem St.Carries.addMessages {σ : St V} (h : σ.Carries Q R) {es : List (Envelope V)}
    (hes : ∀ e ∈ es, e.message.Carries Q R) : (σ.addMessages es).Carries Q R := by
  refine ⟨h.node, h.writes, fun e he => ?_, h.committed⟩
  rcases List.mem_append.mp he with he | he
  · exact h.messages e he
  · exact hes e he

/-- So may one message to all members. -/
theorem St.Carries.broadcastAll {σ : St V} (h : σ.Carries Q R) {msg : Message V}
    (hmsg : msg.Carries Q R) : (broadcastAll σ msg).Carries Q R := by
  refine h.addMessages fun e he => ?_
  obtain ⟨peer, -, rfl⟩ := List.mem_map.mp he
  exact hmsg

/-- A message that a small step may send shows a value of its slot. -/
theorem Sendable.carries {σ : St V} {e : Envelope V} (hs : Sendable P I σ e) (h : σ.Carries Q R) :
    e.message.Carries Q R := by
  obtain ⟨-, hs⟩ := hs
  cases hmsg : e.message with
  | accept ballot slot value =>
      rw [hmsg] at hs
      obtain ⟨-, cell, -, -, hvote | ⟨rfl, hstate, -, rfl⟩⟩ := hs
      · exact (h.writes _ hvote).resolve_right id
      · exact h.node.ledger.held cell (by rw [hstate]; decide)
  | commit slot value =>
      rw [hmsg] at hs
      rcases hs with ⟨cell, hdecided, rfl, rfl⟩ | hacked
      · refine h.node.ledger.held cell ?_
        rcases hdecided with hmem | hstate
        · rw [h.node.ledger.marked cell hmem]
          decide
        · rw [hstate]
          decide
      · have hheld := h.node.ledger.held (cellOf slot P.W) (by rw [hacked.state]; decide)
        have hslot : (σ.node.ledger.cells (cellOf slot P.W)).slot = slot := hacked.held
        have hvalue : (σ.node.ledger.cells (cellOf slot P.W)).value = value := hacked.value
        rw [hslot, hvalue] at hheld
        exact hheld
  | promise => rw [hmsg] at hs; exact hs.elim
  | _ => exact trivial

/-- The value of a decision may stand for its slot. -/
theorem Decision.carries {σ : St V} {slot : Nat} {value : V} (hd : Decision P I σ.node slot value)
    (h : σ.node.Carries Q R) (hheard : ∀ e, I.heard = some e → e.message.Carries Q R) :
    Q slot value := by
  cases hd with
  | heard sender hcommit => exact hheard _ hcommit
  | recovered _ hslot hstate hvalue =>
      have hrecovered := h.recovered (slot - σ.node.recoverBase) (by rw [hstate]; decide)
      rwa [hslot, hvalue] at hrecovered
  | acked hacked =>
      have hheld := h.ledger.held (cellOf slot P.W) (by rw [hacked.state]; decide)
      have hslot : (σ.node.ledger.cells (cellOf slot P.W)).slot = slot := hacked.held
      have hvalue : (σ.node.ledger.cells (cellOf slot P.W)).value = value := hacked.value
      rwa [hslot, hvalue] at hheld

/-- The field is overwritten, and with it what was released through it. -/
theorem St.Carries.setPassThrough {σ : St V} (h : σ.Carries Q R) {slot : Nat} {value : V}
    (hvalue : Q slot value) : (σ.setPassThrough value).Carries Q R := by
  have hslots := σ.setPassThrough_passedSlots value
  refine ⟨h.node.congr rfl rfl (fun _ hv => hv) rfl, fun w hw => ?_, h.messages, fun c hc => ?_⟩
  · obtain ⟨w, hmem, rfl⟩ := List.mem_map.mp hw
    have hold := h.writes w hmem
    cases w with
    | chosen s v =>
        simp only [Write.rebind, Write.Carries, Write.Passes, hslots] at hold ⊢
        split_ifs with hs
        · exact Or.inr ⟨hs, slot, hvalue⟩
        · exact hold
    | _ => exact hold
  · obtain ⟨c, hmem, rfl⟩ := List.mem_map.mp hc
    split_ifs with hpass
    · exact Or.inr ⟨hpass, slot, hvalue⟩
    · exact h.committed c hmem

/-- What passes in a batch passes in a longer one. -/
theorem Write.Passes.mono {w : Write V} {batch batch' : Effects V} (h : w.Passes Q batch)
    (hle : batch.passedSlots ⊆ batch'.passedSlots) : w.Passes Q batch' := by
  cases w with
  | chosen slot value => exact ⟨hle h.1, h.2⟩
  | _ => exact h

/-- An entry with a good value may be released. -/
theorem St.Carries.addCommitted {σ : St V} (h : σ.Carries Q R) {c : Committed V} {n' : Node V}
    (hc : Q c.slot c.value) (hnode : n'.Carries Q R) :
    ({ σ.addCommitted c with node := n' } : St V).Carries Q R := by
  have hgrow : σ.effects.passedSlots ⊆ (σ.addCommitted c).effects.passedSlots := by
    unfold Effects.passedSlots St.addCommitted
    rw [List.filter_append, List.map_append]
    exact List.subset_append_left _ _
  refine ⟨hnode, fun w hw => (h.writes w hw).imp_right fun hpasses => hpasses.mono hgrow, h.messages,
    fun d hd => ?_⟩
  rcases List.mem_append.mp hd with hd | hd
  · exact h.committed d hd
  · rw [List.mem_singleton.mp hd]
    exact Or.inl hc

/-- A step of the learner keeps the values good when its inputs are. -/
theorem Learn.carries {id : Nat} {σ σ' : St V} (hl : Learn P I σ σ') (h : σ.Carries Q R)
    (hs : Supplies Q R I id σ'.effects) : σ'.Carries Q R := by
  cases hl with
  | note _ hresubmit =>
      refine ⟨⟨h.node.ledger, h.node.recovered, fun v hv => ?_, h.node.noop⟩, h.writes, h.messages,
        h.committed⟩
      rcases hresubmit v hv with hold | ⟨cell, hstate, -, rfl⟩
      · exact h.node.resubmit v hold
      · exact ⟨_, h.node.ledger.held cell (by rw [hstate]; decide)⟩
  | claim =>
      exact ⟨⟨h.node.ledger.opened _ _, h.node.recovered, h.node.resubmit, h.node.noop⟩, h.writes,
        h.messages, h.committed⟩
  | @choose slot value hsource _ _ hheld _ =>
      have hvalue := hsource.carries h.node hs.heard
      have hslot : (σ.node.ledger.cells (cellOf slot P.W)).slot = slot := hheld
      exact h.record (h.node.ledger.decided (by rw [hslot]; exact hvalue) (hs.payload _ _ hvalue)) hvalue
  | @pass slot value hsource hnext _ _ _ _ _ =>
      have hvalue := hsource.carries h.node hs.heard
      have hset := h.setPassThrough hvalue
      have hwritten := hset.record hset.node.ledger (w := .chosen slot value) hvalue
      exact hwritten.addCommitted hvalue (hset.node.congr rfl rfl (fun _ hv => hv) rfl)
  | deliver _ hheld hchosen =>
      refine h.addCommitted ?_ (h.node.congr rfl rfl (fun _ hv => hv) rfl)
      have hcell := h.node.ledger.held (cellOf (σ.node.deliveredThrough + 1) P.W) (by
        rw [hchosen]
        decide)
      rwa [hheld] at hcell
  | send hsend => exact h.addMessages fun e he => (hsend e he).carries h
  | request => exact ⟨h.node, h.writes, h.messages, h.committed⟩

/-- A merged report holds a value of the decree. -/
theorem mergeReport_carries [DecidableEq V] {r : Recovered V} {slot vote : Nat} {state : CellState}
    {value : V} (hr : r.state ≠ .empty → Q r.slot r.value) (hvalue : Q slot value) :
    Q (mergeReport r slot vote state value).1.slot (mergeReport r slot vote state value).1.value ∨
      (mergeReport r slot vote state value).1.state = .empty := by
  by_cases hslot : r.slot = slot
  · subst hslot
    cases hstate : r.state with
    | empty => simp [mergeReport, hstate, hvalue]
    | chosen =>
        left
        simpa [mergeReport, hstate] using hr (by rw [hstate]; decide)
    | voted =>
        left
        have hold := hr (by rw [hstate]; decide)
        simp only [mergeReport, hstate, ne_eq, not_true_eq_false, if_false]
        split_ifs
        · exact hvalue
        · exact hold
        · exact hold
        · exact hvalue
        · exact hold
  · simp [mergeReport, hslot, hvalue]

variable [DecidableEq V]

/-- A report of a good value may be recorded for recovery. -/
theorem recordReport_carries {n : Node V} {member offset slot vote : Nat} {state : CellState}
    {value : V} (h : n.Carries Q R) (hvalue : Q slot value) :
    (recordReport n member offset slot vote state value).1.Carries Q R := by
  have hmerged := @mergeReport_carries V Q _ (n.recovered offset) slot vote state value
    (h.recovered offset) hvalue
  have hscratch : ∀ i, ((Function.update n.recovered offset
      (mergeReport (n.recovered offset) slot vote state value).1) i).state ≠ .empty →
      Q ((Function.update n.recovered offset
          (mergeReport (n.recovered offset) slot vote state value).1) i).slot
        ((Function.update n.recovered offset
          (mergeReport (n.recovered offset) slot vote state value).1) i).value := by
    intro i hi
    rw [Function.update_apply] at hi ⊢
    split_ifs at hi ⊢
    · exact hmerged.resolve_right hi
    · exact h.recovered i hi
  unfold recordReport
  dsimp only
  split_ifs
  · exact ⟨h.ledger, hscratch, h.resubmit, h.noop⟩
  · exact ⟨h.ledger, hscratch, h.resubmit, h.noop⟩

omit [DecidableEq V] in
/-- A proposer's vote for a value of the slot. -/
theorem St.Carries.vote {σ : St V} (h : σ.Carries Q R) {slot : Nat} (ballot : Nat) {value : V}
    (hheld : (σ.node.ledger.cellAt P slot).slot = slot)
    (hopen : (σ.node.ledger.cellAt P slot).state ≠ .chosen) (hvalue : Q slot value)
    (hpayload : R value) :
    (voteForProposal σ (cellOf slot P.W) slot ballot value).Carries Q R := by
  have hslot : (σ.node.ledger.cells (cellOf slot P.W)).slot = slot := hheld
  have hpromised := h.node.ledger.promisedAt (cellOf slot P.W)
    (max (σ.node.ledger.cells (cellOf slot P.W)).promisedAt ballot)
  have hrecorded := h.record (w := .vote ballot slot value)
    (hpromised.voted ballot (by rw [ledgerSetPromiseAt_slot, hslot]; exact hvalue) hpayload
      (by rw [ledgerSetPromiseAt_state]; exact hopen)) hvalue
  exact ⟨hrecorded.node.congr rfl rfl (fun _ hv => hv) rfl, hrecorded.writes, h.messages,
    h.committed⟩

/-- A small step stores, records, sends and releases only values of their slots. -/
theorem Micro.carries {σ σ' : St V} (hm : Micro P I σ σ') (h : σ.Carries Q R)
    (hs : Supplies Q R I σ.node.id σ'.effects) : σ'.Carries Q R := by
  cases hm with
  | learn hl => exact hl.carries h hs
  | idle _ _ _ _ _ hresubmit =>
      exact ⟨h.node.congr rfl rfl hresubmit rfl, h.writes, h.messages, h.committed⟩
  | progress =>
      exact ⟨h.node.congr rfl rfl (fun _ hv => hv) rfl, h.writes, h.messages, h.committed⟩
  | promise => exact h.record (h.node.ledger.withPromised _) trivial
  | promiseAt => exact h.record (h.node.ledger.promisedAt _ _) trivial
  | @vote sender ballot slot value hheard _ _ hheld hopen _ _ _ _ =>
      have hvalue : Q slot value := hs.heard _ hheard
      have hslot : (σ.node.ledger.cells (cellOf slot P.W)).slot = slot := hheld
      refine h.record (Ledger.Carries.voted (h.node.ledger.promisedAt _ _) _ ?_
        (hs.payload _ _ hvalue) ?_) hvalue
      · rw [ledgerSetPromiseAt_slot, hslot]
        exact hvalue
      · rw [ledgerSetPromiseAt_state]
        exact hopen
  | @drive slot ballot value _ hsource _ _ hheld hopen _ _ _ =>
      have hvalue : Q slot value := by
        cases hsource with
        | drive _ hselects =>
            rcases hselects with ⟨hslot, hstate, rfl⟩ | ⟨-, hnoop⟩
            · have hrecovered := h.node.recovered (slot - σ.node.recoverBase) (by
                rw [hstate]
                decide)
              rwa [hslot] at hrecovered
            · exact h.node.noop value hnoop slot
        | lead _ _ _ hmem =>
            exact hs.values value hmem ballot slot (List.mem_append_right _ (List.mem_singleton_self _))
      exact h.vote ballot hheld hopen hvalue (hs.payload _ _ hvalue)
  | @own slot next value _ hsource _ _ _ _ _ _ hheld hopen _ _ =>
      have hwritten : Write.vote (ownershipBallot σ.node.id) slot value ∈
          ((voteForProposal σ (cellOf slot P.W) slot (ownershipBallot σ.node.id) value).bump
            next).effects.writes := List.mem_append_right _ (List.mem_singleton_self _)
      have hvalue : Q slot value := by
        rcases hsource with hmem | hmem | hmem
        · exact hs.values value hmem _ slot hwritten
        · exact hs.noops value hmem slot
        · obtain ⟨slot', hold⟩ := h.node.resubmit value hmem
          exact hs.again value slot' slot hold hwritten
      have hvoted := h.vote (ownershipBallot σ.node.id) hheld hopen hvalue
        (hs.payload _ _ hvalue)
      exact ⟨hvoted.node.congr rfl rfl (fun _ hv => hv) rfl, hvoted.writes, h.messages, h.committed⟩
  | acknowledge =>
      exact ⟨h.node.congr rfl rfl (fun _ hv => hv) rfl, h.writes, h.messages, h.committed⟩
  | @report sender member offset ballot slot vote state value hheard _ _ _ _ _ hstate =>
      have hvalue : Q slot value := (hs.heard _ hheard).2 hstate
      exact ⟨recordReport_carries h.node hvalue, h.writes, h.messages, h.committed⟩
  | manifest =>
      exact ⟨h.node.congr rfl rfl (fun _ hv => hv) rfl, h.writes, h.messages, h.committed⟩
  | freeze =>
      exact ⟨h.node.congr rfl rfl (fun _ hv => hv) rfl, h.writes, h.messages, h.committed⟩
  | nextChunk =>
      unfold beginNextChunk
      refine St.Carries.broadcastAll ?_ trivial
      exact ⟨⟨h.node.ledger, fun i hi => absurd rfl hi, h.node.resubmit, h.node.noop⟩, h.writes,
        h.messages, h.committed⟩
  | lead =>
      exact ⟨h.node.congr rfl rfl (fun _ hv => hv) rfl, h.writes, h.messages, h.committed⟩

omit [DecidableEq V] in
/-- The step that ends a transition sends only values of their slots. -/
theorem Final.carries {n₀ : Node V} {σ σ' : St V} (hf : Final P I n₀ σ σ') (h : σ.Carries Q R)
    (hnoops : ∀ v ∈ I.noops, ∀ slot, Q slot v) : σ'.Carries Q R := by
  cases hf with
  | @campaign round noop _ hnoop _ _ =>
      have hnode : (campaignNode P σ.node (ballotMake round σ.node.priority σ.node.id) noop).Carries
          Q R := by
        refine ⟨h.node.ledger.withPromised _, fun i hi => absurd rfl hi, h.node.resubmit,
          fun v hv => ?_⟩
        cases hv
        exact hnoops noop hnoop
      refine St.Carries.broadcastAll ?_ trivial
      refine ⟨hnode, fun w hw => ?_, h.messages, h.committed⟩
      rcases List.mem_append.mp hw with hw | hw
      · exact h.writes w hw
      · rw [List.mem_singleton.mp hw]
        exact Or.inl trivial
  | @revoke round ballot last noop _ hnoop _ _ _ _ _ _ _ _ _ _ _ _ =>
      have hnode : (revocationNode σ.node ballot (σ.node.deliveredThrough + 1) last noop).Carries
          Q R := by
        refine ⟨h.node.ledger, fun i hi => absurd rfl hi, h.node.resubmit, fun v hv => ?_⟩
        cases hv
        exact hnoops noop hnoop
      refine St.Carries.broadcastAll ?_ trivial
      exact ⟨hnode, h.writes, h.messages, h.committed⟩
  | answer =>
      refine St.Carries.addMessages (h.addMessages fun e he => ?_) fun e he => ?_
      · obtain ⟨cell, -, rfl⟩ := List.mem_map.mp he
        exact ⟨h.node.ledger.payload cell, h.node.ledger.held cell⟩
      · rw [List.mem_singleton.mp he]
        trivial

/-! ## Transitions -/

/-- A small step keeps the votes of its batch. -/
theorem Micro.extends {σ σ' : St V} (hm : Micro P I σ σ') {ballot slot : Nat} {v : V}
    (hv : Write.vote ballot slot v ∈ σ.effects.writes) : .vote ballot slot v ∈ σ'.effects.writes := by
  cases hm with
  | learn hl =>
      cases hl with
      | pass =>
          refine List.mem_append_left _ (List.mem_map.mpr ⟨_, hv, rfl⟩)
      | choose => exact List.mem_append_left _ hv
      | _ => exact hv
  | promise | promiseAt | vote | drive | own => exact List.mem_append_left _ hv
  | _ => exact hv

/-- A run of small steps stores, records, sends and releases only values of their slots. -/
theorem Run.carries {σ σ' : St V} (hrun : Run P I σ σ') (h : σ.Carries Q R)
    (hs : Supplies Q R I σ.node.id σ'.effects) : σ'.Carries Q R := by
  induction hrun with
  | refl => exact h
  | @tail τ τ' hτ hm ih =>
      have hid : τ.node.id = σ.node.id := congrArg Static.id (Run.static hτ)
      refine hm.carries (ih ⟨hs.payload, hs.heard, hs.noops, fun v hv ballot slot hw => ?_,
        fun v slot slot' hv hw => ?_⟩) (hid ▸ hs)
      · exact hs.values v hv ballot slot (hm.extends hw)
      · exact hs.again v slot slot' hv (hm.extends hw)

/-- A transition stores, records, sends and releases only values of their slots. -/
theorem Completes.carries {n : Node V} {σ' : St V} (hc : Completes P I n (St.start n) σ')
    (h : n.Carries Q R) (hs : Supplies Q R I n.id σ'.effects) : σ'.Carries Q R := by
  have hstart : (St.start n).Carries Q R :=
    ⟨h, fun _ hw => (by cases hw), fun _ he => (by cases he), fun _ hc => (by cases hc)⟩
  obtain ⟨τ, hrun, rfl | hfinal⟩ := hc
  · exact hrun.carries hstart hs
  · have hwrites : ∀ ballot slot v, Write.vote ballot slot v ∈ τ.effects.writes →
        .vote ballot slot v ∈ σ'.effects.writes := by
      intro ballot slot v hv
      cases hfinal with
      | campaign => exact List.mem_append_left _ hv
      | revoke => exact hv
      | answer => exact hv
    refine hfinal.carries (hrun.carries hstart ⟨hs.payload, hs.heard, hs.noops,
      fun v hv ballot slot hw => ?_, fun v slot slot' hv hw => ?_⟩) hs.noops
    · exact hs.values v hv ballot slot (hwrites _ _ _ hw)
    · exact hs.again v slot slot' hv (hwrites _ _ _ hw)

end Steps

/-! ## How a node starts -/

section Start

/-- A claim keeps the values good, and the cell it finds has the slot it was asked for. -/
theorem Ledger.Carries.claimed {l l' : Ledger V} {slot : Nat} (h : l.Carries Q R)
    (hclaim : ledgerClaim P l slot = some l') :
    l'.Carries Q R ∧ (l'.cells (cellOf slot P.W)).slot = slot := by
  unfold ledgerClaim at hclaim
  dsimp only at hclaim
  split_ifs at hclaim with hheld hfree
  · cases hclaim
    exact ⟨h, hheld⟩
  · cases hclaim
    exact ⟨h.opened _ _, by rw [ledgerOpen_cells, if_pos rfl]⟩

variable [DecidableEq V]

/-- A record that the strict order admits. -/
theorem ledgerApply_chosen_carries {l : Ledger V} {slot : Nat} {value : V} (h : l.Carries Q R)
    (hvalue : Q slot value) (hpayload : R value) :
    (ledgerApply P l (.chosen slot value)).1.Carries Q R := by
  unfold ledgerApply
  dsimp only
  split_ifs
  · exact h
  cases hclaim : ledgerClaim P l slot with
  | none => exact h
  | some l' =>
      obtain ⟨hcarries, hslot⟩ := h.claimed hclaim
      dsimp only
      split_ifs
      · exact hcarries
      · exact hcarries.decided (by rw [hslot]; exact hvalue) hpayload

/-- A trim record holds no value. -/
theorem ledgerApply_trim_carries {l : Ledger V} (h : l.Carries Q R) (anchor : TrimAnchor) :
    (ledgerApply P l (.trim anchor)).1.Carries Q R := by
  unfold ledgerApply
  dsimp only
  split_ifs
  · exact h
  · exact h
  · exact ⟨h.payload, h.held, h.marked⟩

/-- One record of a lifetime journal. -/
theorem ledgerReplayFold_carries {l : Ledger V} {w : Write V} (h : l.Carries Q R)
    (hpayload : ∀ slot v, Q slot v → R v) (hw : w.Carries Q) :
    (ledgerReplayFold P l w).1.Carries Q R := by
  cases w with
  | promise ballot => exact h.withPromised _
  | promiseAt ballot slot =>
      simp only [ledgerReplayFold]
      by_cases hzero : slot = 0
      · rw [if_pos hzero]
        exact h
      rw [if_neg hzero]
      cases hclaim : ledgerClaim P l slot with
      | none => exact h
      | some l' => exact (h.claimed hclaim).1.promisedAt _ _
  | vote ballot slot value =>
      simp only [ledgerReplayFold]
      by_cases hzero : slot = 0
      · rw [if_pos hzero]
        exact h
      rw [if_neg hzero]
      cases hclaim : ledgerClaim P l slot with
      | none => exact h
      | some l' =>
          obtain ⟨hcarries, hslot⟩ := h.claimed hclaim
          dsimp only
          by_cases hconflict : (l'.cells (cellOf slot P.W)).state = .voted ∧
              (l'.cells (cellOf slot P.W)).voteBallot = ballot ∧
                (l'.cells (cellOf slot P.W)).value ≠ value
          · rw [if_pos hconflict]
            exact hcarries
          rw [if_neg hconflict]
          by_cases hchosen : (l'.cells (cellOf slot P.W)).state = .chosen
          · rw [if_pos hchosen]
            exact hcarries.promisedAt _ _
          · rw [if_neg hchosen]
            refine (hcarries.promisedAt _ _).voted ballot ?_ (hpayload _ _ hw) ?_
            · rw [ledgerSetPromiseAt_slot, hslot]
              exact hw
            · rw [ledgerSetPromiseAt_state]
              exact hchosen
  | chosen slot value => exact ledgerApply_chosen_carries h hw (hpayload _ _ hw)
  | trim anchor =>
      rw [ledgerReplayFold]
      exact ledgerApply_trim_carries h anchor

omit [DecidableEq V] in
/-- The empty ledger holds the zero value only. -/
theorem Ledger.Carries.empty [Inhabited V] (hdefault : R default) :
    (Ledger.empty : Ledger V).Carries Q R :=
  ⟨fun _ => hdefault, fun _ hstate => absurd rfl hstate, fun _ hmem => absurd hmem (Finset.notMem_empty _)⟩

omit [DecidableEq V] in
/-- Clearing cells keeps what is left good. -/
theorem clearOpenCells_carries {l : Ledger V} (h : l.Carries Q R) (base : Nat) :
    (clearOpenCells P l base).Carries Q R := by
  unfold clearOpenCells
  generalize List.range P.W = cells
  induction cells generalizing l with
  | nil => exact h
  | cons cell cells ih =>
      rw [List.foldl_cons]
      refine ih ?_
      dsimp only
      split_ifs
      · exact h.opened _ _
      · exact h

omit [DecidableEq V] in
/-- Resuming at a slot keeps the values good. -/
theorem nodeResumeAt_carries {n : Node V} (h : n.Carries Q R) (base : Nat) :
    (nodeResumeAt P n base).Carries Q R := by
  have hledger := clearOpenCells_carries (P := P) h.ledger base
  unfold nodeResumeAt
  dsimp only
  split_ifs
  · exact ⟨hledger, h.recovered, h.resubmit, h.noop⟩
  · exact ⟨hledger, h.recovered, h.resubmit, h.noop⟩

omit [DecidableEq V] in
/-- A fresh node holds good values. -/
theorem nodeInit_carries [Inhabited V] {id : Nat} {membership : Membership} {options : NodeOptions}
    {n : Node V} (hdefault : R default) (h : nodeInit id membership options = .ok n) :
    n.Carries Q R := by
  unfold nodeInit at h
  split at h
  · cases h
  · cases h
    exact ⟨.empty hdefault, fun _ hstate => absurd rfl hstate, fun _ hv => (by cases hv),
      fun _ hv => (by cases hv)⟩

omit [DecidableEq V] in
/-- So does a restored node, when its ledger does. -/
theorem nodeRestore_carries [Inhabited V] {id floor : Nat} {membership : Membership}
    {ledger : Ledger V} {options : NodeOptions} {n : Node V} (hdefault : R default)
    (hledger : ledger.Carries Q R) (h : nodeRestore P id membership ledger floor options = .ok n) :
    n.Carries Q R := by
  unfold nodeRestore at h
  split at h
  · cases h
  · next n₀ hinit =>
      cases h
      have hn := nodeInit_carries (Q := Q) hdefault hinit
      refine nodeResumeAt_carries ?_ _
      exact ⟨hledger, hn.recovered, hn.resubmit, hn.noop⟩

omit [DecidableEq V] in
/-- So does a node that continues an earlier configuration. -/
theorem nodeContinueAt_carries [Inhabited V] {id floor : Nat} {membership : Membership}
    {anchor : TrimAnchor} {options : NodeOptions} {n : Node V} (hdefault : R default)
    (h : nodeContinueAt P id membership floor anchor options = .ok n) : n.Carries Q R := by
  unfold nodeContinueAt at h
  split_ifs at h
  split at h
  · cases h
  · next n₀ hinit =>
      cases h
      have hn := nodeInit_carries (Q := Q) hdefault hinit
      refine nodeResumeAt_carries ?_ _
      exact ⟨⟨hn.ledger.payload, hn.ledger.held, hn.ledger.marked⟩, hn.recovered, hn.resubmit, hn.noop⟩

end Start

end PaxosOdin
