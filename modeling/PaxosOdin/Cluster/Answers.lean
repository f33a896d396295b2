import PaxosOdin.Cluster.Acceptors
import PaxosOdin.Cluster.Campaigns

/-!
# Answers to a Prepare

An acceptor reports the cells it uses, one `Promise` for each, and closes with a manifest that
counts them.  A candidate takes a member for complete when it has as many of its Promises as a
manifest of this member counts; nothing ties the Promises to the manifest.  This module says what
such a count stands for: every slot with an older vote of the member was reported, as long as the
member, when it is asked again, reports the same slots as before.  Only a restart can give the cell
of a live vote to another slot, and then to one that was decided a window later.

Main definitions:

- Definition `Repeats`: a member that is asked again reports the same slots.
- Definition `Displays`: the cells of a node still show the votes on record.
- Definition `Answered`: what a manifest stands for.

Main results:

- Theorem `Change.displays`: every change of a host keeps the votes in their cells.
- Theorem `Change.answering`: every change keeps the answers of a host true.
- Theorem `Cluster.Reaches.answering`: so they are true in every run under these conditions.
-/

namespace PaxosOdin

variable {V : Type} {P : Params} {I : Input V}

/-! ## Reports -/

/-- The node reports this vote or decision for the slot. -/
def Reports (P : Params) (n : Node V) (slot vote : Nat) (state : CellState) (value : V) : Prop :=
  (n.ledger.cellAt P slot).slot = slot ∧ state ≠ .empty ∧
    (n.ledger.cellAt P slot).state = state ∧ (n.ledger.cellAt P slot).voteBallot = vote ∧
      (n.ledger.cellAt P slot).value = value

/-- One of the envelopes is the report of this vote or decision by the member `id`, at `ballot`. -/
def Told (es : List (Envelope V)) (id ballot slot vote : Nat) (state : CellState) (value : V) :
    Prop :=
  ∃ e ∈ es, e.sender = id ∧ e.message = .promise ballot slot vote state value

/-- The node reports the slot. -/
def Lists (P : Params) (n : Node V) (slot : Nat) : Prop :=
  (n.ledger.cellAt P slot).slot = slot ∧ (n.ledger.cellAt P slot).state ≠ .empty

/-- The member `id` has reported the slot at `ballot`. -/
def Listed (es : List (Envelope V)) (id ballot slot : Nat) : Prop :=
  ∃ vote state value, Told es id ballot slot vote state value

/-- One of the envelopes is a manifest of the member `id`, at `ballot`, for a chunk that has the
slot. -/
def Described (es : List (Envelope V)) (id ballot slot : Nat) : Prop :=
  ∃ e ∈ es, e.sender = id ∧ ∃ anchor through first last reported more,
    e.message = .promiseRange ballot anchor through first last reported more ∧
      first ≤ slot ∧ slot ≤ last

/-- What was told stays told. -/
theorem Told.mono {es es' : List (Envelope V)} {id ballot slot vote : Nat} {state : CellState}
    {value : V} (h : Told es id ballot slot vote state value) (hle : es ⊆ es') :
    Told es' id ballot slot vote state value := by
  obtain ⟨e, he, hmessage⟩ := h
  exact ⟨e, hle he, hmessage⟩

theorem Listed.mono {es es' : List (Envelope V)} {id ballot slot : Nat}
    (h : Listed es id ballot slot) (hle : es ⊆ es') : Listed es' id ballot slot := by
  obtain ⟨vote, state, value, htold⟩ := h
  exact ⟨vote, state, value, htold.mono hle⟩

/-- What two batches of envelopes tell. -/
theorem told_append {es es' : List (Envelope V)} {id ballot slot vote : Nat} {state : CellState}
    {value : V} : Told (es ++ es') id ballot slot vote state value ↔
      Told es id ballot slot vote state value ∨ Told es' id ballot slot vote state value := by
  simp only [Told, List.mem_append, or_and_right, exists_or]

theorem listed_append {es es' : List (Envelope V)} {id ballot slot : Nat} :
    Listed (es ++ es') id ballot slot ↔ Listed es id ballot slot ∨ Listed es' id ballot slot := by
  simp only [Listed, told_append, exists_or]

/-- The cells still show the votes on record: the cell of a live slot that was voted for belongs to
it, or to a decision a window later, and the vote of a cell is the last one for its slot. -/
structure Displays (P : Params) (n : Node V) (log : Log V) : Prop where
  held : ∀ b s v, n.memoryFloor < s → .vote b s v ∈ log → (n.ledger.cellAt P s).slot = s ∨
    (s + P.W ≤ (n.ledger.cellAt P s).slot ∧ (n.ledger.cellAt P s).state = .chosen)
  latest : ∀ i, (n.ledger.cells i).state = .voted → ∀ b v,
    .vote b (n.ledger.cells i).slot v ∈ log → b ≤ (n.ledger.cells i).voteBallot

/-- A node reports every live slot that it voted for, or holds a decision a window later. -/
theorem Displays.lists {n : Node V} {delivered : Nat} {log : Log V} (h : Displays P n log)
    (hr : Remembers P n.ledger n.memoryFloor delivered log) {ballot slot : Nat} {value : V}
    (hlive : n.memoryFloor < slot) (hvote : .vote ballot slot value ∈ log) :
    Lists P n slot ∨ ∃ t, slot + P.W ≤ t ∧ .decided t ∈ log := by
  rcases h.held ballot slot value hlive hvote with hheld | ⟨hlater, hchosen⟩
  · exact Or.inl ⟨hheld, (hr.voted slot ballot value hlive hvote hheld).1⟩
  · exact Or.inr ⟨_, hlater, hr.cellChosen _ hchosen⟩

/-- A report covers every vote for its slot. -/
theorem Displays.covers {n : Node V} {log : Log V} (h : Displays P n log) {slot vote k : Nat}
    {state : CellState} {value w : V} (hreport : Reports P n slot vote state value)
    (hvote : .vote k slot w ∈ log) : state = .chosen ∨ (state = .voted ∧ k ≤ vote) := by
  obtain ⟨hheld, hused, rfl, rfl, -⟩ := hreport
  cases hstate : (n.ledger.cellAt P slot).state with
  | empty => exact absurd hstate hused
  | chosen => exact Or.inl rfl
  | voted =>
      refine Or.inr ⟨rfl, h.latest (cellOf slot P.W) hstate k w ?_⟩
      rwa [show (n.ledger.cells (cellOf slot P.W)).slot = slot from hheld]

/-! ## What a transition answers -/

/-- The message belongs to the answer of a `Prepare`. -/
def Message.Answers : Message V → Prop
  | .promise _ _ _ _ _ => True
  | .promiseRange _ _ _ _ _ _ _ => True
  | _ => False

/-- No message of the transition answers a `Prepare`. -/
def Mute (σ : St V) : Prop :=
  ∀ e ∈ σ.effects.messages, ¬ e.message.Answers

/-- What a small step may send is no answer. -/
theorem Sendable.mute {σ : St V} {e : Envelope V} (h : Sendable P I σ e) : ¬ e.message.Answers := by
  intro hanswers
  have hback := h.2
  rcases e with ⟨sender, recipient, message⟩
  cases message with
  | promise => exact hback
  | promiseRange => exact hback
  | _ => exact hanswers

/-- Envelopes that hold no answer of a member tell nothing of it. -/
theorem not_listed {es : List (Envelope V)} {id : Nat}
    (hquiet : ∀ e ∈ es, e.sender = id → ¬ e.message.Answers) {ballot s : Nat} :
    ¬ Listed es id ballot s := by
  rintro ⟨vote, state, value, e, he, hid, hmsg⟩
  refine hquiet e he hid ?_
  rw [hmsg]
  trivial

/-- The reports of a node for a chunk. -/
def reportsOf (P : Params) (n : Node V) (peer ballot first last : Nat) : List (Envelope V) :=
  (reportedCells P n.ledger first last).map fun cell =>
    ⟨n.id, peer, .promise ballot (n.ledger.cells cell).slot (n.ledger.cells cell).voteBallot
      (n.ledger.cells cell).state (n.ledger.cells cell).value⟩

section Reported

variable {n : Node V} {floor delivered : Nat} {log : Log V} {peer ballot first last : Nat}

/-- The cells that a chunk reports are the used cells of its slots. -/
theorem mem_reportedCells (hr : Remembers P n.ledger floor delivered log)
    (hanchor : n.ledger.anchor.chosenTrimSlot = 0) {cell : Nat} :
    cell ∈ reportedCells P n.ledger first last ↔ (n.ledger.cells cell).state ≠ .empty ∧
      first ≤ (n.ledger.cells cell).slot ∧ (n.ledger.cells cell).slot ≤ last := by
  unfold reportedCells bitSetScan
  rw [List.mem_filter, List.mem_filter, List.mem_range, decide_eq_true_iff, decide_eq_true_iff,
    hanchor, hr.bits.used]
  constructor
  · rintro ⟨⟨-, hused⟩, -, hfirst, hlast⟩
    exact ⟨hused, hfirst, hlast⟩
  · rintro ⟨hused, hfirst, hlast⟩
    have hslot : (n.ledger.cells cell).slot ≠ 0 := fun h0 => hused (hr.free cell h0)
    exact ⟨⟨hr.cell_lt hused, hused⟩, by omega, hfirst, hlast⟩

/-- The answer tells what the node reports for the slots of the chunk, and nothing else. -/
theorem told_reportsOf (hr : Remembers P n.ledger floor delivered log)
    (hanchor : n.ledger.anchor.chosenTrimSlot = 0) {b slot vote : Nat} {state : CellState}
    {value : V} : Told (reportsOf P n peer ballot first last) n.id b slot vote state value ↔
      b = ballot ∧ first ≤ slot ∧ slot ≤ last ∧ Reports P n slot vote state value := by
  constructor
  · rintro ⟨e, he, -, hmsg⟩
    obtain ⟨cell, hcell, rfl⟩ := List.mem_map.mp he
    obtain ⟨hused, hfirst, hlast⟩ := (mem_reportedCells hr hanchor).mp hcell
    have hslot : (n.ledger.cells cell).slot ≠ 0 := fun h0 => hused (hr.free cell h0)
    have htag := hr.tagged cell hslot
    cases hmsg
    exact ⟨rfl, hfirst, hlast, by rw [Ledger.cellAt, htag], hused, by rw [Ledger.cellAt, htag],
      by rw [Ledger.cellAt, htag], by rw [Ledger.cellAt, htag]⟩
  · rintro ⟨rfl, hfirst, hlast, hslot, hused, rfl, rfl, rfl⟩
    refine ⟨_, List.mem_map.mpr ⟨cellOf slot P.W, (mem_reportedCells hr hanchor).mpr
      ⟨hused, ?_, ?_⟩, rfl⟩, rfl, ?_⟩
    · exact hslot.symm ▸ hfirst
    · exact hslot.symm ▸ hlast
    · rw [← Ledger.cellAt, hslot]

/-- The answer lists the slots of the chunk that the node reports. -/
theorem listed_reportsOf (hr : Remembers P n.ledger floor delivered log)
    (hanchor : n.ledger.anchor.chosenTrimSlot = 0) {b slot : Nat} :
    Listed (reportsOf P n peer ballot first last) n.id b slot ↔
      b = ballot ∧ first ≤ slot ∧ slot ≤ last ∧ Lists P n slot := by
  constructor
  · rintro ⟨vote, state, value, ht⟩
    obtain ⟨hballot, hfirst, hlast, hslot, hused, rfl, -, -⟩ := (told_reportsOf hr hanchor).mp ht
    exact ⟨hballot, hfirst, hlast, hslot, hused⟩
  · rintro ⟨hballot, hfirst, hlast, hslot, hused⟩
    exact ⟨_, _, _, (told_reportsOf hr hanchor).mpr
      ⟨hballot, hfirst, hlast, hslot, hused, rfl, rfl, rfl⟩⟩

/-- What lies above the chunk is announced. -/
theorem hasCellsAbove_of_lists (hr : Remembers P n.ledger floor delivered log)
    (hanchor : n.ledger.anchor.chosenTrimSlot = 0) {slot : Nat} (hfirst : first ≤ slot)
    (hlast : last < slot) (h : Lists P n slot) : hasCellsAbove P n.ledger first last = true := by
  obtain ⟨hslot, hused⟩ := h
  have h0 : (n.ledger.cellAt P slot).slot ≠ 0 := fun h0 => hused (hr.free _ h0)
  unfold hasCellsAbove bitSetScan
  rw [List.any_eq_true]
  refine ⟨cellOf slot P.W, ?_, ?_⟩
  · rw [List.mem_filter, List.mem_range, decide_eq_true_iff, hr.bits.used]
    exact ⟨hr.cell_lt hused, hused⟩
  · rw [decide_eq_true_iff, hanchor]
    change 0 < (n.ledger.cellAt P slot).slot ∧ first ≤ (n.ledger.cellAt P slot).slot ∧
      last < (n.ledger.cellAt P slot).slot
    omega

end Reported

section Transitions

variable [DecidableEq V]

/-- A small step answers no `Prepare`. -/
theorem Micro.mute {σ σ' : St V} (h : Micro P I σ σ') (hσ : Mute σ) : Mute σ' := by
  cases h with
  | learn hl =>
      cases hl with
      | send hsend =>
          intro e he
          rcases List.mem_append.mp he with he | he
          · exact hσ e he
          · exact (hsend e he).mute
      | _ => exact hσ
  | nextChunk =>
      intro e he
      rcases List.mem_append.mp he with he | he
      · exact hσ e he
      · obtain ⟨peer, -, rfl⟩ := List.mem_map.mp he
        exact fun hanswers => hanswers
  | _ => exact hσ

/-- Only a `Prepare` is answered. -/
theorem Completes.mute {n : Node V} {σ : St V} (hc : Completes P I n (St.start n) σ)
    (hheard : ∀ e, I.heard = some e → ∀ ballot first last scope,
      e.message ≠ .prepare ballot first last scope) : Mute σ := by
  obtain ⟨τ, hrun, hfinal⟩ := hc
  have hquiet : Mute τ := hrun.preserves (motive := Mute) (fun hm hτ => hm.mute hτ)
    fun e he => absurd he List.not_mem_nil
  rcases hfinal with rfl | hfinal
  · exact hquiet
  cases hfinal with
  | answer hprepare => exact absurd rfl (hheard _ hprepare _ _ _ _)
  | campaign =>
      intro e he
      rcases List.mem_append.mp he with he | he
      · exact hquiet e he
      · obtain ⟨peer, -, rfl⟩ := List.mem_map.mp he
        exact fun hanswers => hanswers
  | revoke =>
      intro e he
      rcases List.mem_append.mp he with he | he
      · exact hquiet e he
      · obtain ⟨peer, -, rfl⟩ := List.mem_map.mp he
        exact fun hanswers => hanswers

/-- What a node does when it answers a `Prepare`: it promises the ballot, and reports the cells that
it had before. -/
structure AnswersWith (P : Params) (n : Node V) (peer ballot first last : Nat) (σ : St V) : Prop where
  messages : σ.effects.messages = reportsOf P n peer ballot first last ++
    [⟨n.id, peer, .promiseRange ballot n.ledger.anchor n.deliveredThrough first last
      (reportedCells P n.ledger first last).length (hasCellsAbove P n.ledger first last)⟩]
  promised : σ.node.ledger.promised = ballot
  cells : σ.node.ledger.cells = n.ledger.cells
  delivered : σ.node.deliveredThrough = n.deliveredThrough

/-- A `Prepare` for every decree is answered with the cells that the node had before, or not at
all. -/
theorem operate_prepare {n : Node V} {e : Envelope V} {ballot first last : Nat}
    (hmsg : e.message = .prepare ballot first last .global) :
    Mute (operate P n (.step e)) ∨
      AnswersWith P n e.sender ballot first last (operate P n (.step e)) := by
  have hstart : ∀ m : Node V, Mute (St.start m) := fun m e he => absurd he List.not_mem_nil
  show Mute (nodeStep P n e).1 ∨ AnswersWith P n e.sender ballot first last (nodeStep P n e).1
  unfold nodeStep
  by_cases hwrong : e.recipient ≠ n.id
  · rw [if_pos hwrong]
    exact Or.inl (hstart n)
  rw [if_neg hwrong]
  rcases membershipIndexOf n.membership e.sender with _ | member
  · exact Or.inl (hstart n)
  dsimp only
  rw [hmsg]
  by_cases hlearner : (!n.votingMember) = true
  · rw [if_pos hlearner]
    exact Or.inl (hstart _)
  rw [if_neg hlearner]
  unfold dispatch onPrepare
  dsimp only
  split_ifs with hlow hrange hsame
  · left
    intro e he
    simp only [sendNack, sendTo, St.addMessages, St.start, List.nil_append,
      List.mem_singleton] at he
    rw [he]
    exact fun hanswers => hanswers
  · exact Or.inl (hstart _)
  · exact Or.inr ⟨rfl, rfl, rfl, rfl⟩
  · exact Or.inr ⟨rfl, (not_not.mp hsame).symm, rfl, rfl⟩

end Transitions

/-! ## What an answer stands for -/

/-- What a report stands for: its member has promised the ballot, a reported vote is on record, and
the report covers every older vote for the slot. -/
structure Truthful (log : Log V) (ballot slot vote : Nat) (state : CellState) (value : V) :
    Prop where
  promised : ballot = 0 ∨ .promise ballot ∈ log
  sent : state = .voted → .vote vote slot value ∈ log
  covers : ∀ k w, .vote k slot w ∈ log → k < ballot →
    state = .chosen ∨ (state = .voted ∧ k ≤ vote)

/-- A promise that is on record lets no older vote follow. -/
theorem no_older {log more : Log V} {ballot k slot : Nat} {v : V}
    (hpromised : ballot = 0 ∨ .promise ballot ∈ log) (hlawful : Synod.Lawful (log ++ more))
    (hv : .vote k slot v ∈ log ++ more) (hlt : k < ballot) : .vote k slot v ∈ log := by
  have hclosed : Synod.Closed log slot k := ⟨ballot, hlt, Or.inl (hpromised.resolve_left (by omega))⟩
  exact hlawful.not_voted_of_closed hclosed hv

/-- A report stands for the same when more is recorded. -/
theorem Truthful.append {log : Log V} {ballot slot vote : Nat} {state : CellState} {value : V}
    (h : Truthful log ballot slot vote state value) {more : Log V}
    (hlawful : Synod.Lawful (log ++ more)) :
    Truthful (log ++ more) ballot slot vote state value := by
  refine ⟨h.promised.imp_right (List.mem_append_left _), fun hstate =>
    List.mem_append_left _ (h.sent hstate), fun k w hvote hlt => h.covers k w ?_ hlt⟩
  exact no_older h.promised hlawful hvote hlt

/-- What a manifest stands for: its member has promised the ballot, at most `reported` slots of the
chunk were and will be reported at it, and every slot from the chunk on with an older vote was
reported, or lies in the decided prefix, or above the chunk, or a window below a decision; and older
votes lie at most a window above the decided prefix.  `log` is what the member has recorded, `told`
is what was sent before the manifest, and `all` also what is still to be sent. -/
structure Answered (P : Params) (log : Log V) (told all : List (Envelope V)) (id ballot : Nat)
    (anchor : TrimAnchor) (through first last reported : Nat) (more : Bool) : Prop where
  frontiers : anchor.chosenTrimSlot = 0 ∧ through ≤ maxSlot
  promised : ballot = 0 ∨ .promise ballot ∈ log
  counted : ∃ slots : Finset Nat, slots.card ≤ reported ∧ ∀ s, Listed all id ballot s →
    first ≤ s → s ≤ last → s ∈ slots
  votes : ∀ b s v, .vote b s v ∈ log → b < ballot → first ≤ s →
    s ≤ through ∨ (s ≤ last ∧ Listed told id ballot s) ∨ (last < s ∧ more = true) ∨
      ∃ t, s + P.W ≤ t ∧ .decided t ∈ log
  window : ∀ b s v, .vote b s v ∈ log → b < ballot → s ≤ through + P.W

/-- A manifest stands for the same when no older vote is added and nothing else is told. -/
theorem Answered.mono {log log' : Log V} {told told' all all' : List (Envelope V)}
    {id ballot through first last reported : Nat} {anchor : TrimAnchor} {more : Bool}
    (h : Answered P log told all id ballot anchor through first last reported more)
    (hlog : log ⊆ log')
    (hvotes : ∀ b s v, .vote b s v ∈ log' → b < ballot → .vote b s v ∈ log)
    (htold : ∀ s, Listed told id ballot s → Listed told' id ballot s)
    (hall : ∀ s, Listed all' id ballot s → first ≤ s → s ≤ last → Listed all id ballot s) :
    Answered P log' told' all' id ballot anchor through first last reported more := by
  obtain ⟨slots, hcard, hslots⟩ := h.counted
  refine ⟨h.frontiers, h.promised.imp_right fun hp => hlog hp, ⟨slots, hcard, ?_⟩, ?_,
    fun b s v hv hlt => h.window b s v (hvotes b s v hv hlt) hlt⟩
  · intro s hlisted hfirst hlast
    exact hslots s (hall s hlisted hfirst hlast) hfirst hlast
  · intro b s v hv hlt hfirst
    rcases h.votes b s v (hvotes b s v hv hlt) hlt hfirst with hle | ⟨hlast, hlisted⟩ | habove |
      ⟨t, hlater, hdecided⟩
    · exact Or.inl hle
    · exact Or.inr (Or.inl ⟨hlast, htold s hlisted⟩)
    · exact Or.inr (Or.inr (Or.inl habove))
    · exact Or.inr (Or.inr (Or.inr ⟨t, hlater, hlog hdecided⟩))

/-- What a host has told, and what it has yet to send, is true. -/
structure Answering (P : Params) (net : List (Envelope V)) (id : Nat) (h : Host V) : Prop where
  told : ∀ ballot s vote state value, Told net id ballot s vote state value →
    Truthful (entries h.journal) ballot s vote state value
  untold : ∀ ballot s vote state value, Told h.outbox id ballot s vote state value →
    Truthful h.log ballot s vote state value
  manifests : ∀ e ∈ net, e.sender = id → ∀ ballot anchor through first last reported more,
    e.message = .promiseRange ballot anchor through first last reported more →
      Answered P (entries h.journal) net (net ++ h.outbox) id ballot anchor through first last
        reported more
  closing : ∀ before e after, h.outbox = before ++ e :: after →
    ∀ ballot anchor through first last reported more,
      e.message = .promiseRange ballot anchor through first last reported more →
        Answered P h.log (net ++ before) (net ++ h.outbox) id ballot anchor through first last
          reported more

/-- A Prepare for slots that the member was asked for before, at the same ballot, is answered with
the same slots: a slot that was reported is reported again, and a slot that a manifest described is
reported only if it was. -/
def Repeated (P : Params) (net : List (Envelope V)) (id : Nat) (n : Node V)
    (ballot first last : Nat) : Prop :=
  ∀ slot, first ≤ slot → slot ≤ last →
    (Listed net id ballot slot → Lists P n slot) ∧
      (Described net id ballot slot → Lists P n slot → Listed net id ballot slot)

/-- Envelopes that hold no answer of the member do not concern its answers. -/
theorem Answering.quiet {net es : List (Envelope V)} {id : Nat} {h : Host V}
    (ha : Answering P net id h) (hquiet : ∀ e ∈ es, e.sender = id → ¬ e.message.Answers) :
    Answering P (net ++ es) id h := by
  have hgrow : ∀ {more : List (Envelope V)}, net ++ more ⊆ net ++ es ++ more := by
    intro more e he
    rcases List.mem_append.mp he with he | he
    · exact List.mem_append_left _ (List.mem_append_left _ he)
    · exact List.mem_append_right _ he
  have hall : ∀ {ballot s : Nat}, Listed (net ++ es ++ h.outbox) id ballot s →
      Listed (net ++ h.outbox) id ballot s := by
    intro ballot s hlisted
    refine listed_append.mpr ((listed_append.mp hlisted).imp_left fun hnet => ?_)
    exact (listed_append.mp hnet).resolve_right (not_listed hquiet)
  constructor
  · intro ballot s vote state value ht
    exact ha.told ballot s vote state value
      ((told_append.mp ht).resolve_right fun hes => not_listed hquiet ⟨_, _, _, hes⟩)
  · exact ha.untold
  · intro e he hid ballot anchor through first last reported more hmsg
    have he' : e ∈ net := by
      refine (List.mem_append.mp he).resolve_right fun hes => hquiet e hes hid ?_
      rw [hmsg]
      trivial
    exact (ha.manifests e he' hid ballot anchor through first last reported more hmsg).mono
      (fun _ hx => hx) (fun b s v hv _ => hv)
      (fun s hs => hs.mono (List.subset_append_left _ _)) (fun s hs _ _ => hall hs)
  · intro before e after houtbox ballot anchor through first last reported more hmsg
    exact (ha.closing before e after houtbox ballot anchor through first last reported more
      hmsg).mono (fun _ hx => hx) (fun b s v hv _ => hv) (fun s hs => hs.mono hgrow)
      (fun s hs _ _ => hall hs)

/-- A batch without an answer, and a host without a batch. -/
theorem Answering.mute {net : List (Envelope V)} {id : Nat} {h h' : Host V}
    (ha : Answering P net id h) (hjournal : h'.journal = h.journal)
    (hmute : ∀ e ∈ h'.outbox, ¬ e.message.Answers) : Answering P net id h' := by
  have hnot : ∀ {ballot s : Nat}, ¬ Listed h'.outbox id ballot s :=
    not_listed fun e he _ => hmute e he
  constructor
  · rw [hjournal]
    exact ha.told
  · exact fun ballot s vote state value ht => absurd ⟨_, _, _, ht⟩ hnot
  · intro e he hid ballot anchor through first last reported more hmsg
    rw [hjournal]
    exact (ha.manifests e he hid ballot anchor through first last reported more hmsg).mono
      (fun _ hx => hx) (fun b s v hv _ => hv) (fun s hs => hs) fun s hs _ _ =>
        listed_append.mpr (Or.inl ((listed_append.mp hs).resolve_right hnot))
  · intro before e after houtbox ballot anchor through first last reported more hmsg
    refine absurd ?_ (hmute e ?_)
    · rw [hmsg]
      trivial
    · rw [houtbox]
      simp

/-- The next message of the batch leaves when all its records are durable. -/
theorem Answering.leave {net : List (Envelope V)} {id : Nat} {h : Host V} {e : Envelope V}
    {rest : List (Envelope V)} (ha : Answering P net id h) (hpending : h.pending = [])
    (houtbox : h.outbox = e :: rest) : Answering P (net ++ [e]) id { h with outbox := rest } := by
  have hlog : h.log = entries h.journal := by simp [Host.log, hpending]
  have hall : net ++ [e] ++ rest = net ++ h.outbox := by simp [houtbox]
  constructor
  · intro ballot s vote state value ht
    rcases told_append.mp ht with ht | ht
    · exact ha.told ballot s vote state value ht
    · have hsaid := ha.untold ballot s vote state value (ht.mono (by simp [houtbox]))
      rwa [hlog] at hsaid
  · exact fun ballot s vote state value ht =>
      ha.untold ballot s vote state value (ht.mono (by simp [houtbox]))
  · intro e' he' hid ballot anchor through first last reported more hmsg
    show Answered P (entries h.journal) (net ++ [e]) (net ++ [e] ++ rest) id ballot anchor through
      first last reported more
    rw [hall]
    rcases List.mem_append.mp he' with he' | he'
    · exact (ha.manifests e' he' hid ballot anchor through first last reported more hmsg).mono
        (fun _ hx => hx) (fun b s v hv _ => hv)
        (fun s hs => hs.mono (List.subset_append_left _ _)) (fun s hs _ _ => hs)
    · obtain rfl := List.mem_singleton.mp he'
      have hanswered := ha.closing [] e' rest houtbox ballot anchor through first last reported more
        hmsg
      rw [hlog, List.append_nil] at hanswered
      exact hanswered.mono (fun _ hx => hx) (fun b s v hv _ => hv)
        (fun s hs => hs.mono (List.subset_append_left _ _)) (fun s hs _ _ => hs)
  · intro before e' after hrest ballot anchor through first last reported more hmsg
    have houtbox' : h.outbox = e :: before ++ e' :: after :=
      houtbox.trans (congrArg (e :: ·) hrest)
    have hanswered := ha.closing (e :: before) e' after houtbox' ballot anchor through first last
      reported more hmsg
    show Answered P h.log (net ++ [e] ++ before) (net ++ [e] ++ rest) id ballot anchor through first
      last reported more
    rw [hall, List.append_assoc]
    exact hanswered

/-- One more record becomes durable. -/
theorem Answering.persist {net : List (Envelope V)} {id : Nat} {h : Host V} {w : Write V}
    {rest : List (Write V)} (ha : Answering P net id h) (hlawful : Synod.Lawful h.log)
    (hpending : h.pending = w :: rest) :
    Answering P net id { h with journal := h.journal ++ [w], pending := rest } := by
  have hlog : Host.log { h with journal := h.journal ++ [w], pending := rest } = h.log := by
    simp [Host.log, hpending]
  have hgrow : entries (h.journal ++ [w]) = entries h.journal ++ entries [w] :=
    entries_append _ _
  have hsplit : h.log = entries (h.journal ++ [w]) ++ entries rest := by
    rw [Host.log, hpending, ← entries_append, List.append_assoc, List.singleton_append]
  rw [hsplit] at hlawful
  have hdurable : Synod.Lawful (entries h.journal ++ entries [w]) :=
    hgrow ▸ Synod.Ruled.of_append hlawful
  constructor
  · intro ballot s vote state value ht
    show Truthful (entries (h.journal ++ [w])) ballot s vote state value
    rw [hgrow]
    exact (ha.told ballot s vote state value ht).append hdurable
  · rw [hlog]
    exact ha.untold
  · intro e he hid ballot anchor through first last reported more hmsg
    have hanswered := ha.manifests e he hid ballot anchor through first last reported more hmsg
    refine hanswered.mono ?_ (fun b s v hv hlt => ?_) (fun s hs => hs) (fun s hs _ _ => hs)
    · show entries h.journal ⊆ entries (h.journal ++ [w])
      rw [hgrow]
      exact List.subset_append_left _ _
    · exact no_older hanswered.promised hdurable (hgrow ▸ hv) hlt
  · rw [hlog]
    exact ha.closing

/-- The manifest closes the batch that it belongs to. -/
theorem AnswersWith.closing {n : Node V} {peer ballot first last : Nat} {σ : St V}
    (h : AnswersWith P n peer ballot first last σ) {before after : List (Envelope V)}
    {e : Envelope V} (hsplit : σ.effects.messages = before ++ e :: after)
    {b through lo hi reported : Nat} {anchor : TrimAnchor} {more : Bool}
    (hmsg : e.message = .promiseRange b anchor through lo hi reported more) :
    before = reportsOf P n peer ballot first last ∧ b = ballot ∧ anchor = n.ledger.anchor ∧
      through = n.deliveredThrough ∧ lo = first ∧ hi = last ∧
        reported = (reportedCells P n.ledger first last).length ∧
          more = hasCellsAbove P n.ledger first last := by
  rw [h.messages] at hsplit
  rcases List.eq_nil_or_concat after with rfl | ⟨init, final, rfl⟩
  · obtain ⟨hbefore, he⟩ := List.append_inj' hsplit rfl
    obtain rfl := List.singleton_inj.mp he
    cases hmsg
    exact ⟨hbefore.symm, rfl, rfl, rfl, rfl, rfl, rfl, rfl⟩
  · -- the reports before the manifest are none
    rw [List.concat_eq_append, ← List.cons_append, ← List.append_assoc] at hsplit
    obtain ⟨hreports, -⟩ := List.append_inj' hsplit rfl
    have he : e ∈ reportsOf P n peer ballot first last := by
      rw [hreports]
      simp
    obtain ⟨cell, -, rfl⟩ := List.mem_map.mp he
    cases hmsg

/-- A host takes over the batch of a node that answers a `Prepare`. -/
theorem Answering.answer {net : List (Envelope V)} {h : Host V} {n : Node V} {σ : St V}
    {peer ballot first last : Nat} (ha : Answering P net n.id h)
    (hr : Remembers P n.ledger n.memoryFloor n.deliveredThrough (entries h.journal))
    (hanchor : n.ledger.anchor.chosenTrimSlot = 0)
    (hr' : Remembers P σ.node.ledger σ.node.memoryFloor σ.node.deliveredThrough
      (σ.log h.journal))
    (hdisplays : Displays P σ.node (σ.log h.journal))
    (hfloor : σ.node.memoryFloor ≤ σ.node.deliveredThrough)
    (hlast : σ.node.deliveredThrough ≤ maxSlot) (hobeys : Obeys P n.memoryFloor (σ.log h.journal))
    (hkept : σ.node.memoryFloor = n.memoryFloor) (hg : Grounded (σ.log h.journal) σ.node.ledger)
    (hanswers : AnswersWith P n peer ballot first last σ)
    (hrepeated : Repeated P net n.id n ballot first last) : Answering P net n.id (h.after σ) := by
  have htold : ∀ {b s vote : Nat} {state : CellState} {value : V},
      Told (h.after σ).outbox n.id b s vote state value →
        b = ballot ∧ first ≤ s ∧ s ≤ last ∧ Reports P n s vote state value := by
    intro b s vote state value ht
    have ht' : Told σ.effects.messages n.id b s vote state value := ht
    rw [hanswers.messages] at ht'
    rcases told_append.mp ht' with ht' | ⟨e, he, -, hmsg⟩
    · exact (told_reportsOf hr hanchor).mp ht'
    · rw [List.mem_singleton.mp he] at hmsg
      cases hmsg
  have hpromised : ballot = 0 ∨ .promise ballot ∈ σ.log h.journal := by
    rw [← hanswers.promised]
    exact hg.promised
  -- the cells are those that the node had before
  have hcells : ∀ s, σ.node.ledger.cellAt P s = n.ledger.cellAt P s := by
    intro s
    unfold Ledger.cellAt
    rw [hanswers.cells]
  constructor
  · exact ha.told
  · intro b s vote state value ht
    obtain ⟨rfl, -, -, hreport⟩ := htold ht
    have hreport' : Reports P σ.node s vote state value := by
      unfold Reports
      rw [hcells]
      exact hreport
    refine ⟨hpromised, ?_, fun k w hvote _ => hdisplays.covers hreport' hvote⟩
    rintro rfl
    obtain ⟨hslot, -, hstate, rfl, rfl⟩ := hreport'
    have hrecorded := hr'.cellVoted (cellOf s P.W) hstate
    rwa [show (σ.node.ledger.cells (cellOf s P.W)).slot = s from hslot] at hrecorded
  · intro e he hid b anchor through lo hi reported more hmsg
    refine (ha.manifests e he hid b anchor through lo hi reported more hmsg).mono
      (fun _ hx => hx) (fun b s v hv _ => hv) (fun s hs => hs) fun s hs hlo hhi => ?_
    rcases listed_append.mp hs with hs | ⟨vote, state, value, ht⟩
    · exact listed_append.mpr (Or.inl hs)
    · -- the slot was described before, so it was reported before
      obtain ⟨rfl, hfirst, hlast, hslot, hused, rfl, -, -⟩ := htold ht
      have hdescribed : Described net n.id b s :=
        ⟨e, he, hid, anchor, through, lo, hi, reported, more, hmsg, hlo, hhi⟩
      exact listed_append.mpr (Or.inl ((hrepeated s hfirst hlast).2 hdescribed ⟨hslot, hused⟩))
  · intro before e after houtbox b anchor through lo hi reported more hmsg
    obtain ⟨rfl, rfl, rfl, rfl, rfl, rfl, rfl, rfl⟩ := hanswers.closing houtbox hmsg
    refine ⟨⟨hanchor, hanswers.delivered ▸ hlast⟩, hpromised,
      ⟨((reportedCells P n.ledger lo hi).map fun cell => (n.ledger.cells cell).slot).toFinset,
        ?_, ?_⟩, ?_, fun k s v hv _ => ?_⟩
    · refine (List.toFinset_card_le _).trans ?_
      rw [List.length_map]
    · intro s hs hfirst hlast
      have hlists : Lists P n s := by
        rcases listed_append.mp hs with hs | ⟨vote, state, value, ht⟩
        · exact (hrepeated s hfirst hlast).1 hs
        · obtain ⟨-, -, -, hslot, hused, rfl, -, -⟩ := htold ht
          exact ⟨hslot, hused⟩
      obtain ⟨hslot, hused⟩ := hlists
      rw [List.mem_toFinset, List.mem_map]
      exact ⟨cellOf s P.W, (mem_reportedCells hr hanchor).mpr
        ⟨hused, hslot.symm ▸ hfirst, hslot.symm ▸ hlast⟩, hslot⟩
    · intro k s v hv hlt hfirst
      by_cases hlive : s ≤ σ.node.memoryFloor
      · left
        rw [← hanswers.delivered]
        exact hlive.trans hfloor
      have hlists := hdisplays.lists hr' (not_le.mp hlive) hv
      unfold Lists at hlists
      rw [hcells] at hlists
      rcases hlists with hlists | hlater
      · by_cases hlast : s ≤ hi
        · refine Or.inr (Or.inl ⟨hlast, listed_append.mpr (Or.inr ?_)⟩)
          exact (listed_reportsOf hr hanchor).mpr ⟨rfl, hfirst, hlast, hlists⟩
        · exact Or.inr (Or.inr (Or.inl ⟨not_le.mp hlast,
            hasCellsAbove_of_lists hr hanchor hfirst (not_le.mp hlast) hlists⟩))
      · exact Or.inr (Or.inr (Or.inr hlater))
    · have hle : s ≤ n.memoryFloor + P.W :=
        (hobeys.window hv (fun b => by simp) fun s => by simp).2
      have hdelivered := hanswers.delivered
      omega

/-! ## The votes in the cells -/

section Cells

/-- A step on the cell of a live slot leaves it to the slot, or to a decision a window later. -/
theorem CellStep.shows {floor i slot : Nat} {c c' : Cell V} (h : CellStep P floor i c c')
    (hc : c.slot = slot ∨ (slot + P.W ≤ c.slot ∧ c.state = .chosen)) (hlive : floor < slot) :
    c'.slot = slot ∨ (slot + P.W ≤ c'.slot ∧ c'.state = .chosen) := by
  rcases hc with hslot | ⟨hlater, hchosen⟩
  · exact Or.inl (h.held hslot hlive).1
  · -- the cell is beyond the window, so nothing is done to it
    rcases h with rfl | ⟨opened, -, -, -, -, hfree, -⟩ | ⟨-, -, hwindow, -, -, -, -⟩
    · exact Or.inr ⟨hlater, hchosen⟩
    · rcases hfree with h0 | ⟨hle, -⟩ <;> omega
    · omega

/-- The same cells, with no further vote and no lower floor. -/
theorem Displays.keep {n n' : Node V} {log log' : Log V} (h : Displays P n log)
    (hcells : n'.ledger.cells = n.ledger.cells) (hfloor : n.memoryFloor ≤ n'.memoryFloor)
    (hlog : ∀ b s v, .vote b s v ∈ log' → .vote b s v ∈ log) : Displays P n' log' := by
  refine ⟨fun b s v hlive hvote => ?_, fun i hstate b v hvote => ?_⟩
  · unfold Ledger.cellAt
    rw [hcells]
    exact h.held b s v (hfloor.trans_lt hlive) (hlog b s v hvote)
  · rw [hcells] at hstate hvote ⊢
    exact h.latest i hstate b v (hlog b _ v hvote)

variable [DecidableEq V] {journal : List (Write V)} {through : Nat} {σ σ' : St V}

/-- A small step leaves the votes in their cells. -/
theorem Micro.displays (h : Micro P I σ σ') (ht : Transit P I through journal σ')
    (hσ : Displays P σ.node (σ.log journal)) : Displays P σ'.node (σ'.log journal) := by
  have hr := ht.steady.sound.remembers
  have hfloor := memoryFloor_of_static h.static
  obtain ⟨es, hes, hnoted⟩ := h.noted
  have hlog : σ'.log journal = σ.log journal ++ es := by
    unfold St.log
    rw [entries_append, entries_append, hes, List.append_assoc]
  refine ⟨fun b s v hlive hvote => ?_, fun i hstate b v hvote => ?_⟩
  · rw [hfloor] at hlive
    rw [hlog] at hvote
    have hheld : (σ.node.ledger.cellAt P s).slot = s ∨ (s + P.W ≤ (σ.node.ledger.cellAt P s).slot ∧
        (σ.node.ledger.cellAt P s).state = .chosen) := by
      rcases List.mem_append.mp hvote with hold | hnew
      · exact hσ.held b s v hlive hold
      · exact Or.inl (hnoted.votes b s v hnew).2.2.1
    exact (h.cell (cellOf s P.W)).shows hheld hlive
  · by_cases hlive : σ.node.memoryFloor < (σ'.node.ledger.cells i).slot
    · -- the cell of a live slot shows the last vote for it
      have htag : cellOf (σ'.node.ledger.cells i).slot P.W = i := hr.tagged i (by omega)
      have hcell : σ'.node.ledger.cellAt P (σ'.node.ledger.cells i).slot =
          σ'.node.ledger.cells i := by
        unfold Ledger.cellAt
        rw [htag]
      have hshown := hr.voted _ b v (by omega) hvote (by rw [hcell])
      rw [hcell] at hshown
      rcases hshown.2 hstate with hlt | ⟨heq, -⟩
      · exact hlt.le
      · exact heq.le
    · -- a released cell has not changed, and no vote is cast for it
      have hsame : σ'.node.ledger.cells i = σ.node.ledger.cells i := by
        rcases h.cell i with hsame | ⟨slot, -, hopened, -, -, -, heq⟩ | ⟨-, hcell, -, hslot, -⟩
        · exact hsame
        · rw [heq] at hlive
          exact absurd hopened hlive
        · rw [hslot] at hlive
          exact absurd hcell hlive
      rw [hsame] at hstate hlive hvote ⊢
      rw [hlog] at hvote
      rcases List.mem_append.mp hvote with hold | hnew
      · exact hσ.latest i hstate b v hold
      · exact absurd (hnoted.votes b _ v hnew).1 hlive

/-- So does a transition. -/
theorem Completes.displays {n₀ : Node V} (hc : Completes P I n₀ σ σ')
    (ht : Transit P I through journal σ) (hσ : Displays P σ.node (σ.log journal)) :
    Displays P σ'.node (σ'.log journal) := by
  obtain ⟨τ, hrun, hfinal⟩ := hc
  obtain ⟨-, hτ⟩ := hrun.preserves (motive := fun σ => Transit P I through journal σ ∧
      Displays P σ.node (σ.log journal))
    (fun hm ⟨ht, hσ⟩ => ⟨hm.transit ht, hm.displays (hm.transit ht) hσ⟩) ⟨ht, hσ⟩
  rcases hfinal with rfl | hfinal
  · exact hτ
  cases hfinal with
  | campaign =>
      refine hτ.keep rfl le_rfl fun b s v hvote => ?_
      rw [St.log_append journal τ _ rfl rfl] at hvote
      simpa using hvote
  | revoke => exact hτ.keep rfl le_rfl fun b s v hvote => hvote
  | answer => exact hτ.keep rfl le_rfl fun b s v hvote => hvote

variable [Inhabited V] {d : Deployment} {id : Nat} {h h' : Host V} {net es : List (Envelope V)}

omit [DecidableEq V] in
/-- A fresh node has no vote to show. -/
theorem Displays.fresh {n : Node V} (hledger : n.ledger = Ledger.empty) : Displays P n [] := by
  refine ⟨fun b s v _ hvote => absurd hvote List.not_mem_nil, fun i hstate => ?_⟩
  rw [hledger] at hstate
  cases hstate

/-- A restart finds all live votes in their cells, or a decision a window later. -/
theorem Recorded.displays (hr : Recorded d id h) {options : NodeOptions} {n : Node V}
    (hrestart : h.restarted d id options = some h') (hnode : h'.node = some n) :
    Displays d.params n (entries h.journal) := by
  obtain ⟨l, n', hreplay, hn, rfl⟩ := Host.restarted_eq_some hrestart
  cases hnode
  have hrestored :
      Restored d.params id d.membership (d.optionsFor options) h.consumed h.journal n :=
    ⟨hr.durable, d.valid, d.valid.small, l, hreplay, hn⟩
  obtain ⟨l', hfold, hfields⟩ := hrestored.folded
  have hremembers := hrestored.sound.remembers
  rw [hfields.memoryFloor] at hremembers
  have hclear := clearOpenCells_cells (P := d.params) h.consumed l'
  rw [← hfields.ledger] at hclear
  refine ⟨fun b s v hlive hvote => ?_, fun i hstate b v hvote => ?_⟩
  · rw [hfields.memoryFloor] at hlive
    rcases hremembers.held s b hlive (Or.inr ⟨v, hvote⟩) with ⟨hslot, -⟩ | hlater
    · exact Or.inl hslot
    · -- a later slot owns the cell, so a record of it was folded
      simp only [Ledger.cellAt] at hlater ⊢
      have h0 : (n.ledger.cells (cellOf s d.params.W)).slot ≠ 0 := by omega
      have hkept : n.ledger.cells (cellOf s d.params.W) = l'.cells (cellOf s d.params.W) := by
        rw [hclear.cells] at h0 ⊢
        split_ifs at h0 ⊢ with hcleared
        · exact absurd rfl h0
        · rfl
      have htag := hremembers.tagged _ h0
      have hbeyond : ∀ floor, floor < s → s ≤ floor + d.params.W →
          floor + d.params.W < (n.ledger.cells (cellOf s d.params.W)).slot := by
        intro floor hfloor hwindow
        by_contra hle
        have heq := eq_of_cellOf_eq d.params (by omega) (not_lt.mp hle) hfloor hwindow htag
        omega
      have hW := d.params.window_pos
      have hfar := hbeyond (s - 1) (by omega) (by omega)
      have hoff := hbeyond h.consumed hlive
        (hr.durable.obeys.window hvote (fun b => by simp) (fun s => by simp)).2
      have hshows := (hfold.cells (cellOf s d.params.W)).shows (hkept ▸ h0)
      obtain ⟨w, hw, hslot⟩ := hfold.source (cellOf s d.params.W) (hkept ▸ h0)
      rw [hkept] at hfar hoff ⊢
      rw [← hslot] at hfar hoff
      refine Or.inr ⟨by omega, ?_⟩
      cases w with
      | promise => exact absurd hoff (Nat.not_lt_zero _)
      | trim anchor => exact absurd hw (hr.durable.untrimmed anchor)
      | promiseAt ballot slot =>
          exact absurd hoff (not_lt.mpr (hr.durable.obeys.window (e := .promiseAt ballot slot)
            (promiseAt_mem_entries.mpr hw) (fun b => by simp) (fun s => by simp)).2)
      | vote ballot slot value =>
          exact absurd hoff (not_lt.mpr (hr.durable.obeys.window (e := .vote ballot slot value)
            (vote_mem_entries.mpr hw) (fun b => by simp) (fun s => by simp)).2)
      | chosen slot value =>
          have hrecord : .chosen (l'.cells (cellOf s d.params.W)).slot value ∈ h.journal :=
            hslot ▸ hw
          unfold Shows at hshows
          cases hstate : (l'.cells (cellOf s d.params.W)).state with
          | chosen => rfl
          | empty =>
              rw [hstate] at hshows
              exact absurd hrecord (hshows.2.1 value)
          | voted =>
              rw [hstate] at hshows
              exact absurd hrecord (hshows.2 value)
  · -- only live cells keep a vote over a restart
    have hused : (n.ledger.cells i).state ≠ .empty := by simp [hstate]
    have h0 : (n.ledger.cells i).slot ≠ 0 := fun h0 => hused (hremembers.free i h0)
    have hlive : h.consumed < (n.ledger.cells i).slot := by
      by_contra hle
      have hkept := hclear.used hused
      have hcell := hclear.cells i
      rw [if_pos ⟨List.mem_range.mpr (hremembers.cell_lt hused), by
        rw [← hkept]
        exact ⟨h0, not_lt.mp hle, by simp [hstate]⟩⟩] at hcell
      rw [hcell] at hused
      exact hused rfl
    have hcell : n.ledger.cellAt d.params (n.ledger.cells i).slot = n.ledger.cells i := by
      unfold Ledger.cellAt
      rw [hremembers.tagged i h0]
    have hshown := hremembers.voted _ b v hlive hvote (by rw [hcell])
    rw [hcell] at hshown
    rcases hshown.2 hstate with hlt | ⟨heq, -⟩
    · exact hlt.le
    · exact heq.le

/-- Every change of a host keeps what the cells show. -/
theorem Change.displays {asked : Option (Operation V)} (hr : Recorded d id h)
    (hnet : ∀ e ∈ net, e.Authentic d.ownership) (hc : Change d net id h asked h' es)
    (hdisplays : ∀ n, h.node = some n → Displays d.params n h.log) {n' : Node V}
    (hnode' : h'.node = some n') : Displays d.params n' h'.log := by
  cases hc with
  | @operated n op hnode hpending hreleased hserves =>
      obtain ⟨hstart, hdone⟩ := hr.begins hnet hnode hpending hserves
      cases hnode'
      have hbefore : Displays d.params (St.start n).node ((St.start n).log h.journal) := by
        have hold := hdisplays n hnode
        unfold Host.log at hold
        rwa [hpending] at hold
      exact hdone.displays hstart hbefore
  | @adjusted n op hnode hop =>
      cases hnode'
      refine (hdisplays n hnode).keep ?_ ?_ fun b s v hvote => hvote
      · rcases hop with ⟨through, -, rfl⟩ | ⟨enabled, rfl⟩
        · exact (nodeAdvanceMemoryFloor_hosted n through).cells
        · rfl
      · rcases hop with ⟨through, -, rfl⟩ | ⟨enabled, rfl⟩
        · exact (nodeAdvanceMemoryFloor_hosted n through).floor
        · exact le_rfl
  | @persisted w rest hpending =>
      have hlog : Host.log { h with journal := h.journal ++ [w], pending := rest } = h.log := by
        simp [Host.log, hpending]
      rw [hlog]
      exact hdisplays n' hnode'
  | crashed => cases hnode'
  | restarted _ hrestart =>
      have hlog : h'.log = entries h.journal := by
        obtain ⟨l, n, -, -, rfl⟩ := Host.restarted_eq_some hrestart
        simp [Host.log]
      rw [hlog]
      exact hr.displays hrestart hnode'
  | _ => exact hdisplays n' hnode'

end Cells

/-! ## The answers of the hosts -/

section Hosts

variable [DecidableEq V] [Inhabited V] {d : Deployment} {id : Nat} {h h' : Host V}
  {net es : List (Envelope V)}

omit [Inhabited V] in
/-- A transition of a member that campaigns. -/
theorem Answering.operated {n : Node V} {op : Operation V} (ha : Answering d.params net id h)
    (hr : Recorded d id h) (hs : Sworn h) (hdisplays : Displays d.params n h.log)
    (hauthentic : ∀ e ∈ net, e.Authentic d.ownership) (hgenuine : ∀ e ∈ net, e.Genuine)
    (hnode : h.node = some n) (hpending : h.pending = []) (hserves : Serves net id op)
    (hrepeats : ∀ e ballot first last scope, op = .step e →
      e.message = .prepare ballot first last scope → Repeated d.params net id n ballot first last) :
    Answering d.params net id (h.after (operate d.params n op)) := by
  have hw := hr.works n hnode
  obtain ⟨htransit, hdone⟩ := hr.begins hauthentic hnode hpending hserves
  have hquiet : Mute (operate d.params n op) →
      Answering d.params net id (h.after (operate d.params n op)) := fun hmute => ha.mute rfl hmute
  by_cases hasked : ∃ e ballot first last scope, op = .step e ∧
      e.message = .prepare ballot first last scope
  · obtain ⟨e, ballot, first, last, scope, rfl, hmsg⟩ := hasked
    have he : e ∈ net := by
      rcases hserves with ⟨call, hcall⟩ | ⟨e', he', -, hop⟩
      · cases hcall
      · cases hop
        exact he'
    have hscope : scope = .global := by
      have hwritten := hgenuine e he
      unfold Envelope.Genuine at hwritten
      rw [hmsg] at hwritten
      exact hwritten
    subst hscope
    rcases operate_prepare hmsg with hmute | hanswers
    · exact hquiet hmute
    · have hlog : h.log = entries h.journal := by simp [Host.log, hpending]
      have hground : Grounded ((St.start n).log h.journal) n.ledger := by
        simpa [St.log, St.start, hlog] using hs.grounded n hnode
      have hafter := hdone.transit htransit
      have hsound := hw.sound
      rw [hpending, List.append_nil] at hsound
      obtain rfl : n.id = id := hw.id_eq
      have hbefore : Displays d.params (St.start n).node ((St.start n).log h.journal) := by
        unfold Host.log at hdisplays
        rwa [hpending] at hdisplays
      exact ha.answer hsound.remembers hw.anchor hafter.steady.sound.remembers
        (hdone.displays htransit hbefore) hafter.steady.opened.floor hafter.steady.opened.last
        hafter.steady.sound.obeys (memoryFloor_of_static hdone.static)
        (hdone.grounded (σ := St.start n) hground) hanswers
        (hrepeats e ballot first last .global rfl hmsg)
  · refine hquiet (hdone.mute fun e he ballot first last scope hmsg => hasked ?_)
    cases op with
    | step =>
        cases he
        exact ⟨e, ballot, first, last, scope, rfl, hmsg⟩
    | call call => cases call <;> cases he
    | learnChosen =>
        cases he
        cases hmsg
    | _ => cases he

/-- Every change of a host keeps its answers true. -/
theorem Change.answering {asked : Option (Operation V)} (ha : Answering d.params net id h)
    (hr : Recorded d id h) (hs : Sworn h)
    (hdisplays : ∀ n, h.node = some n → Displays d.params n h.log)
    (hauthentic : ∀ e ∈ net, e.Authentic d.ownership) (hgenuine : ∀ e ∈ net, e.Genuine)
    (hrepeats : ∀ n e ballot first last scope, h.node = some n → asked = some (.step e) →
      e.message = .prepare ballot first last scope → Repeated d.params net id n ballot first last)
    (hc : Change d net id h asked h' es) : Answering d.params (net ++ es) id h' := by
  have hnone : ∀ {g : Host V}, Answering d.params net id g → Answering d.params (net ++ []) id g :=
    fun hg => (List.append_nil net).symm ▸ hg
  cases hc with
  | @operated n op hnode hpending hreleased hserves =>
      refine hnone (ha.operated hr hs (hdisplays n hnode) hauthentic hgenuine hnode hpending hserves ?_)
      rintro e ballot first last scope rfl hmsg
      exact hrepeats n e ballot first last scope hnode rfl hmsg
  | adjusted => exact hnone ⟨ha.told, ha.untold, ha.manifests, ha.closing⟩
  | persisted hpending => exact hnone (ha.persist hr.lawful hpending)
  | sent hpending houtbox => exact ha.leave hpending houtbox
  | @hastened e he hpre =>
      refine ha.quiet fun e' he' _ hanswers => ?_
      obtain rfl := List.mem_singleton.mp he'
      rcases e' with ⟨sender, recipient, message⟩
      cases message with
      | promise => cases hpre
      | promiseRange => cases hpre
      | _ => exact hanswers
  | applied => exact hnone ⟨ha.told, ha.untold, ha.manifests, ha.closing⟩
  | consumed => exact hnone ⟨ha.told, ha.untold, ha.manifests, ha.closing⟩
  | served =>
      refine ha.quiet fun e' he' _ hanswers => ?_
      obtain rfl := List.mem_singleton.mp he'
      exact hanswers
  | crashed => exact hnone (ha.mute rfl fun e he => absurd he List.not_mem_nil)
  | restarted _ hrestart =>
      obtain ⟨l, n, -, -, rfl⟩ := Host.restarted_eq_some hrestart
      exact hnone (ha.mute rfl fun e he => absurd he List.not_mem_nil)

/-! ## The runs -/

/-- A member that is asked again for a chunk, at the same ballot, reports the same slots. -/
def Repeats (d : Deployment) (c : Cluster V) (a : Action V) : Prop :=
  ∀ id n e ballot first last scope, (c.hosts id).node = some n → c.asks id a = some (.step e) →
    e.message = .prepare ballot first last scope → Repeated d.params c.net id n ballot first last

variable {ok : Cluster V → Action V → Prop} {c : Cluster V}

/-- In every run in which members that are asked again report the same slots, the nodes show their
votes, and the answers of all hosts are true. -/
theorem Cluster.Reaches.answering (h : Cluster.Reaches d ok c) (hmode : d.ownership = false)
    (hok : ∀ c a, ok c a → Repeats d c a) :
    ∀ id, (∀ n, (c.hosts id).node = some n → Displays d.params n (c.hosts id).log) ∧
      Answering d.params c.net id (c.hosts id) := by
  refine h.invariant (motive := fun c => ∀ id,
    (∀ n, (c.hosts id).node = some n → Displays d.params n (c.hosts id).log) ∧
      Answering d.params c.net id (c.hosts id)) ?_ ?_
  · intro id
    refine ⟨fun n hn => .fresh (initialHost_fresh hn).2.2, ?_⟩
    constructor
    · rintro ballot s vote state value ⟨e, he, -⟩
      exact absurd he List.not_mem_nil
    · rintro ballot s vote state value ⟨e, he, -⟩
      exact absurd he List.not_mem_nil
    · exact fun e he => absurd he List.not_mem_nil
    · intro before e after hnil
      exact absurd hnil (by simp [Cluster.initial, initialHost])
  · intro c c' a hc ha hstep hnext other
    have hrepeats := hok c a hstep
    obtain ⟨hr, hauthentic⟩ := hc.recorded
    obtain ⟨-, hgenuine⟩ := hc.campaigns hmode
    obtain ⟨id, h', es, hchange, hhosts, hes⟩ := Cluster.step_change hnext
    rw [hhosts, hes]
    by_cases hother : other = id
    · subst hother
      rw [Function.update_self]
      exact ⟨fun n' hn' => hchange.displays (hr other) hauthentic (ha other).1 hn',
        hchange.answering (ha other).2 (hr other) (hc.sworn.1 other) (ha other).1 hauthentic hgenuine
          (hrepeats other)⟩
    · rw [Function.update_of_ne hother]
      refine ⟨(ha other).1, (ha other).2.quiet fun e he hsender => ?_⟩
      exact absurd (hsender.symm.trans (hchange.sender (hr id) e he)) hother

end Hosts

end PaxosOdin
