import PaxosOdin.Acceptor.Sound

/-!
# Restart from the journal

A member restarts from the fold of its durable journal, at the slot its host has consumed.
The fold remembers enough: whatever the journal records for a live slot is in its cell, or
a later slot owns that cell and no vote or promise for the slot is possible until it is
decided.  The next own slot lies beyond every suggestion that was ever durable.

Main results:

- Theorem `clearOpenCells_cells`: the scan of `node_resume_at`, cell by cell.
- Theorem `Restored.sound`: a restored node works in step with its journal.
- Theorem `Restored.opened`: its frontiers are ordered.
- Theorem `nodeInit_sound`: so does a node with an empty journal.
-/

namespace PaxosOdin

variable {V : Type} {P : Params}

/-! ## The scan of the cells -/

/-- Whether the restart at `base` clears a cell. -/
def Clears (base : Nat) (c : Cell V) : Prop :=
  c.slot ≠ 0 ∧ c.slot ≤ base ∧ c.state ≠ .chosen

instance (base : Nat) (c : Cell V) : Decidable (Clears base c) := by
  unfold Clears
  infer_instance

/-- A cleared cell. -/
def Cell.cleared (c : Cell V) : Cell V :=
  { slot := 0, promisedAt := 0, voteBallot := 0, state := .empty, value := c.value }

/-- What the scan over `cells` leaves of a ledger. -/
structure Cleared (base : Nat) (cells : List Nat) (l l' : Ledger V) : Prop where
  cells : ∀ i, l'.cells i = if i ∈ cells ∧ Clears base (l.cells i) then (l.cells i).cleared
    else l.cells i
  promised : l'.promised = l.promised
  anchor : l'.anchor = l.anchor
  bits : Bits l → Bits l'

/-- The scan of `node_resume_at`, over any cells. -/
theorem clearOpenCells_fold (base : Nat) (cells : List Nat) (l : Ledger V) :
    Cleared base cells l
      (cells.foldl (fun l cell =>
        let c := l.cells cell
        if c.slot ≠ 0 ∧ c.slot ≤ base ∧ c.state ≠ .chosen then ledgerClearCell l cell else l) l) := by
  induction cells generalizing l with
  | nil => exact ⟨fun i => by simp, rfl, rfl, id⟩
  | cons j cells ih =>
      rw [List.foldl_cons]
      dsimp only
      by_cases hj : (l.cells j).slot ≠ 0 ∧ (l.cells j).slot ≤ base ∧ (l.cells j).state ≠ .chosen
      · rw [if_pos hj]
        obtain ⟨hcells, hpromised, hanchor, hbits⟩ := ih (ledgerClearCell l j)
        refine ⟨fun i => ?_, hpromised, hanchor, fun h => hbits (h.open j 0)⟩
        rw [hcells, ledgerClearCell, ledgerOpen_cells]
        by_cases hi : i = j
        · subst hi
          have hclears : Clears base (l.cells i) := hj
          rw [if_pos rfl, if_neg, if_pos ⟨List.mem_cons_self, hclears⟩]
          · rfl
          · rintro ⟨-, h0, -⟩
            exact h0 rfl
        · rw [if_neg hi]
          simp [hi]
      · rw [if_neg hj]
        obtain ⟨hcells, hpromised, hanchor, hbits⟩ := ih l
        refine ⟨fun i => ?_, hpromised, hanchor, hbits⟩
        rw [hcells]
        by_cases hi : i = j
        · subst hi
          have hkept : ¬ Clears base (l.cells i) := hj
          simp [hkept]
        · simp [hi]

/-- The scan of `node_resume_at`, cell by cell. -/
theorem clearOpenCells_cells (base : Nat) (l : Ledger V) :
    Cleared base (List.range P.W) l (clearOpenCells P l base) :=
  clearOpenCells_fold base (List.range P.W) l

/-- A live cell of the fold survives the restart. -/
theorem Cleared.live {base : Nat} {l l' : Ledger V} {cells : List Nat} (h : Cleared base cells l l')
    {i : Nat} (hlive : base < (l.cells i).slot) : l'.cells i = l.cells i := by
  rw [h.cells, if_neg]
  rintro ⟨-, -, hle, -⟩
  omega

/-- A cell that is not empty after the restart is a cell of the fold. -/
theorem Cleared.used {base : Nat} {l l' : Ledger V} {cells : List Nat} (h : Cleared base cells l l')
    {i : Nat} (hused : (l'.cells i).state ≠ .empty) : l'.cells i = l.cells i := by
  rw [h.cells] at hused ⊢
  split_ifs at hused ⊢ with hc
  · exact absurd rfl hused
  · rfl

/-- The greatest used slot is above every used cell, and no greater than they are. -/
theorem ledgerHighestUsed_bounds (l : Ledger V) :
    (∀ i < P.W, i ∈ l.used → (l.cells i).slot ≤ ledgerHighestUsed P l) ∧
      ∀ bound, (∀ i < P.W, i ∈ l.used → (l.cells i).slot ≤ bound) →
        ledgerHighestUsed P l ≤ bound := by
  have hfold : ∀ (is : List Nat) (start : Nat),
      (start ≤ is.foldl (fun highest cell => max highest (l.cells cell).slot) start ∧
        ∀ i ∈ is, (l.cells i).slot ≤
          is.foldl (fun highest cell => max highest (l.cells cell).slot) start) ∧
      ∀ bound, start ≤ bound → (∀ i ∈ is, (l.cells i).slot ≤ bound) →
        is.foldl (fun highest cell => max highest (l.cells cell).slot) start ≤ bound := by
    intro is
    induction is with
    | nil => exact fun start => ⟨⟨le_rfl, fun _ h => (by cases h)⟩, fun _ h _ => h⟩
    | cons j is ih =>
        intro start
        rw [List.foldl_cons]
        obtain ⟨⟨hstart, hall⟩, hle⟩ := ih (max start (l.cells j).slot)
        refine ⟨⟨(le_max_left _ _).trans hstart, fun i hi => ?_⟩, fun bound hs hb => ?_⟩
        · rcases List.mem_cons.mp hi with rfl | hi
          · exact (le_max_right _ _).trans hstart
          · exact hall i hi
        · exact hle bound (max_le hs (hb j List.mem_cons_self))
            fun i hi => hb i (List.mem_cons_of_mem _ hi)
  have hmem : ∀ i, i ∈ bitSetScan l.used P.W ↔ i < P.W ∧ i ∈ l.used := by
    intro i
    simp [bitSetScan]
  obtain ⟨⟨-, hall⟩, hle⟩ := hfold (bitSetScan l.used P.W) 0
  refine ⟨fun i hlt hi => hall i ((hmem i).mpr ⟨hlt, hi⟩), fun bound hb => hle bound (Nat.zero_le _)
    fun i hi => ?_⟩
  obtain ⟨hlt, hused⟩ := (hmem i).mp hi
  exact hb i hlt hused

/-! ## What the journal of a crashed member guarantees -/

/-- What holds of a durable journal whose host has consumed `through`: it does not mention
the node, which is gone after a crash. -/
structure Durable (P : Params) (id : Nat) (ownership : Bool) (through : Nat)
    (journal : List (Write V)) : Prop where
  obeys : Obeys P through (entries journal)
  decided : ∀ u, 0 < u → u ≤ through → .decided u ∈ entries journal
  through_le : through ≤ maxSlot
  words : ownership = true → ∀ s, ((∃ b v, .vote b s v ∈ entries journal) ∨
    .decided s ∈ entries journal) → s ≤ maxSlot
  own : ownership = true → ∀ s v, .vote (ownershipBallot id) s v ∈ entries journal → s < maxSlot
  untrimmed : ∀ anchor, .trim anchor ∉ journal

theorem Write.entry?_slot {w : Write V} (h0 : w.slot ≠ 0) :
    ∃ e, w.entry? = some e ∧ entrySlot e = w.slot := by
  cases w with
  | promise => exact absurd rfl h0
  | trim => exact absurd rfl h0
  | promiseAt ballot slot => exact ⟨_, rfl, rfl⟩
  | vote ballot slot value => exact ⟨_, rfl, rfl⟩
  | chosen slot value => exact ⟨_, rfl, rfl⟩

/-- A log that obeys the rule is orderly. -/
theorem Obeys.orderly {through : Nat} {records : List (Write V)}
    (h : Obeys P through (entries records)) : Orderly P records := by
  intro before w after hlog u hu hle
  have h0 : w.slot ≠ 0 := by
    have := P.window_pos
    omega
  obtain ⟨e, he, hslot⟩ := Write.entry?_slot h0
  have hentries : entries records = entries before ++ e :: entries after := by
    rw [hlog, entries_append]
    congr 1
    simp [entries, he]
  have hdecided := (h (entries before) e (entries after) hentries).order u hu (by rw [hslot]; exact hle)
  exact decided_mem_entries.mp hdecided

section Replay

variable [DecidableEq V]

/-- A journal without trims leaves the anchor alone. -/
theorem replayFrom_anchor {l l' : Ledger V} {e : Error} {records : List (Write V)}
    (htrim : ∀ anchor, .trim anchor ∉ records) (h : replayFrom P l records = (l', e)) :
    l'.anchor = l.anchor := by
  induction records generalizing l with
  | nil =>
      cases h
      rfl
  | cons w records ih =>
      have hclaim : ∀ {slot : Nat} {l₁ : Ledger V}, ledgerClaim P l slot = some l₁ →
          l₁.anchor = l.anchor := by
        intro slot l₁ hc
        unfold ledgerClaim at hc
        dsimp only at hc
        split_ifs at hc <;> cases hc <;> rfl
      have hw : (ledgerReplayFold P l w).1.anchor = l.anchor := by
        cases w with
        | promise => rfl
        | trim anchor => exact absurd List.mem_cons_self (htrim anchor)
        | promiseAt ballot slot =>
            simp only [ledgerReplayFold]
            by_cases h0 : slot = 0
            · rw [if_pos h0]
            rw [if_neg h0]
            cases hc : ledgerClaim P l slot with
            | none => rfl
            | some l₁ =>
                have hanchor := hclaim hc
                exact hanchor
        | vote ballot slot value =>
            simp only [ledgerReplayFold]
            by_cases h0 : slot = 0
            · rw [if_pos h0]
            rw [if_neg h0]
            cases hc : ledgerClaim P l slot with
            | none => rfl
            | some l₁ =>
                have hanchor := hclaim hc
                dsimp only
                split_ifs <;> exact hanchor
        | chosen slot value =>
            simp only [ledgerReplayFold, ledgerApply]
            by_cases h0 : slot = 0
            · rw [if_pos h0]
            rw [if_neg h0]
            cases hc : ledgerClaim P l slot with
            | none => rfl
            | some l₁ =>
                have hanchor := hclaim hc
                dsimp only
                split_ifs <;> exact hanchor
      simp only [replayFrom] at h
      rcases hstep : ledgerReplayFold P l w with ⟨l₁, e₁⟩
      rw [hstep] at h hw
      cases e₁ with
      | none =>
          exact (ih (fun anchor hmem => htrim anchor (List.mem_cons_of_mem _ hmem)) h).trans hw
      | _ =>
          cases h
          exact hw

variable [Inhabited V]

/-- A restart of the member `id` from its journal, at the slot its host has consumed. -/
structure Restored (P : Params) (id : Nat) (membership : Membership) (options : NodeOptions)
    (through : Nat) (journal : List (Write V)) (n : Node V) : Prop where
  durable : Durable P id options.rotatingOwnership through journal
  valid : membership.Valid
  small : membership.members.length ≤ maxSlot
  restart : ∃ l, replay P journal = (l, .none) ∧
    nodeRestore P id membership l through options = .ok n

/-- What `node_restore` sets. -/
structure RestoredNode (P : Params) (id : Nat) (membership : Membership) (options : NodeOptions)
    (through : Nat) (l : Ledger V) (n : Node V) : Prop where
  id_eq : n.id = id
  membership_eq : n.membership = membership
  member : membership.members[n.selfIndex]? = some id
  votingMember : n.votingMember = true
  ownership : n.ownership = options.rotatingOwnership
  ledger : n.ledger = clearOpenCells P l through
  role : n.role = .follower
  ballot : n.ballot = 0
  memoryFloor : n.memoryFloor = through
  deliveredThrough : n.deliveredThrough = through
  ownNext : n.ownNext =
    ownSlotFrom n (slotAdd (max (ledgerHighestUsed P (clearOpenCells P l through)) through) 1)

omit [DecidableEq V] in
/-- The fields of a restored node. -/
theorem nodeRestore_fields {id through : Nat} {membership : Membership} {options : NodeOptions}
    {l : Ledger V} {n : Node V} (hm : membership.Valid) (hanchor : l.anchor.chosenTrimSlot = 0)
    (h : nodeRestore P id membership l through options = .ok n) :
    RestoredNode P id membership options through l n := by
  unfold nodeRestore nodeInit at h
  rcases hindex : membershipIndexOf membership id with _ | selfIndex
  · rw [hindex] at h
    cases h
  · rw [hindex] at h
    have hbase : max through l.anchor.chosenTrimSlot = through := by omega
    dsimp only at h
    rw [hbase] at h
    cases h
    exact ⟨rfl, rfl, (membershipIndexOf_eq_some hm).mp hindex, rfl, rfl, rfl, rfl, rfl, rfl, rfl, rfl⟩

section Restored

variable {id through : Nat} {membership : Membership} {options : NodeOptions}
  {journal : List (Write V)} {n : Node V}

/-- What a restart folds and restores. -/
theorem Restored.folded (h : Restored P id membership options through journal n) :
    ∃ l, Folded P journal l ∧ RestoredNode P id membership options through l n := by
  obtain ⟨l, hreplay, hrestore⟩ := h.restart
  have hanchor : l.anchor.chosenTrimSlot = 0 := by
    rw [replayFrom_anchor h.durable.untrimmed hreplay]
    rfl
  exact ⟨l, replay_folded h.durable.obeys.orderly hreplay,
    nodeRestore_fields h.valid hanchor hrestore⟩

omit [DecidableEq V] [Inhabited V] in
/-- The restored ledger remembers the journal. -/
theorem Folded.remembers {l : Ledger V} (hfold : Folded P journal l)
    (hobeys : Obeys P through (entries journal))
    (hdecided : ∀ u, 0 < u → u ≤ through → .decided u ∈ entries journal) :
    Remembers P (clearOpenCells P l through) through through (entries journal) := by
  have hclear := clearOpenCells_cells (P := P) through l
  have hslot : ∀ i, (l.cells i).slot ≠ 0 → Shows journal (l.cells i) := fun i => (hfold.cells i).shows
  -- a live slot that the journal records is in its cell, or a later slot owns the cell
  have hlater : ∀ w ∈ journal, through < w.slot →
      (clearOpenCells P l through).cellAt P w.slot = l.cellAt P w.slot ∧
        w.slot ≤ (l.cellAt P w.slot).slot := by
    intro w hw hlive
    have hle := (hfold.cells (cellOf w.slot P.W)).above w hw (by omega) rfl
    exact ⟨hclear.live (Nat.lt_of_lt_of_le hlive hle), hle⟩
  refine ⟨fun b hb => ?_, fun s b hs hrec => ?_, fun s b v hs hv hheld => ?_, fun i hi => ?_,
    fun i hi => ?_, fun i h0 => ?_, fun i h0 => ?_, hclear.bits hfold.bits, hdecided⟩
  · rw [hclear.promised]
    exact hfold.promised b (promise_mem_entries.mp hb)
  · simp only [promiseAt_mem_entries, vote_mem_entries] at hrec
    have hle : (clearOpenCells P l through).cellAt P s = l.cellAt P s ∧
        s ≤ (l.cellAt P s).slot := by
      rcases hrec with hrec | ⟨v, hrec⟩
      · exact hlater _ hrec hs
      · exact hlater _ hrec hs
    rw [hle.1]
    rcases Nat.lt_or_eq_of_le hle.2 with hlt | heq
    · exact Or.inr hlt
    · refine Or.inl ⟨heq.symm, (hfold.cells _).promises ?_ b ?_⟩
      · show (l.cellAt P s).slot ≠ 0
        omega
      · rw [show (l.cells (cellOf s P.W)).slot = s from heq.symm]
        exact hrec
  · rw [vote_mem_entries] at hv
    have hcell := (hlater _ hv hs).1
    simp only [Write.slot] at hcell
    rw [hcell] at hheld ⊢
    have hshows : Shows journal (l.cellAt P s) := hslot _ (by rw [Ledger.cellAt] at hheld; omega)
    unfold Shows at hshows
    rw [hheld] at hshows
    refine ⟨fun he => ?_, fun hst => ?_⟩
    · rw [he] at hshows
      exact hshows.1 b v hv
    · rw [hst] at hshows
      obtain ⟨⟨pre, post, hlog, hlast⟩, -⟩ := hshows
      rw [hlog] at hv
      rcases List.mem_append.mp hv with hpre | hpost
      · have hlaw : Synod.VoteLaw (entries pre)
            (.vote (l.cellAt P s).voteBallot s (l.cellAt P s).value) := by
          refine (hobeys (entries pre) _ (entries post) ?_).law
          rw [hlog, entries_append]
          rfl
        exact hlaw.2 b v (vote_mem_entries.mpr hpre)
      · rcases List.mem_cons.mp hpost with heq | hpost
        · obtain ⟨hb, -, hval⟩ := Write.vote.inj heq
          exact Or.inr ⟨hb, hval⟩
        · exact absurd hpost (hlast b v)
  · have hsame := hclear.used (by rw [hi]; exact fun h => (by cases h))
    rw [hsame] at hi ⊢
    have h0 : (l.cells i).slot ≠ 0 := fun h0 => by
      rw [(hfold.cells i).free h0] at hi
      cases hi
    have hshows := hslot i h0
    unfold Shows at hshows
    rw [hi] at hshows
    exact vote_mem_entries.mpr hshows.1.mem
  · have hsame := hclear.used (by rw [hi]; exact fun h => (by cases h))
    rw [hsame] at hi ⊢
    have h0 : (l.cells i).slot ≠ 0 := fun h0 => by
      rw [(hfold.cells i).free h0] at hi
      cases hi
    have hshows := hslot i h0
    unfold Shows at hshows
    rw [hi] at hshows
    exact decided_mem_entries.mpr ⟨_, hshows.mem⟩
  · rw [hclear.cells] at h0 ⊢
    split_ifs at h0 ⊢ with hc
    · exact absurd rfl h0
    · exact (hfold.cells i).tagged h0
  · rw [hclear.cells] at h0 ⊢
    split_ifs at h0 ⊢ with hc
    · rfl
    · exact (hfold.cells i).free h0

omit [DecidableEq V] [Inhabited V] in
/-- Every durable suggestion lies at or below the frontier of the restored node. -/
theorem Folded.suggestion_le {l : Ledger V} {slot ballot : Nat} {value : V}
    (hfold : Folded P journal l) (hobeys : Obeys P through (entries journal))
    (hv : .vote ballot slot value ∈ journal) :
    slot ≤ max (ledgerHighestUsed P (clearOpenCells P l through)) through := by
  have hclear := clearOpenCells_cells (P := P) through l
  by_cases hlive : slot ≤ through
  · exact hlive.trans (le_max_right _ _)
  refine le_trans ?_ (le_max_left _ _)
  have hwin := hobeys.window (vote_mem_entries.mpr hv) (fun b hb => (by cases hb))
    fun s hs => (by cases hs)
  have hpos : 0 < slot := hwin.1
  have hused : ∀ i, through < (l.cells i).slot → (l.cells i).state ≠ .empty → i < P.W →
      (l.cells i).slot ≤ ledgerHighestUsed P (clearOpenCells P l through) := by
    intro i hi hstate hlt
    have hsame := hclear.live hi
    have hbit := ((hclear.bits hfold.bits).used i).mpr (by rw [hsame]; exact hstate)
    have := (ledgerHighestUsed_bounds (P := P) (clearOpenCells P l through)).1 i hlt hbit
    rwa [hsame] at this
  have hcell := cellOf_lt P slot
  rcases hfold.vote_used (P := P) (by omega) hv with hlater | ⟨hheld, hstate⟩
  · -- a later slot owns the cell: it is used, or it was promised in the window of the restart
    by_cases hempty : (l.cells (cellOf slot P.W)).state = .empty
    · exfalso
      have h0 : (l.cells (cellOf slot P.W)).slot ≠ 0 := by omega
      obtain ⟨w, hw, hwslot⟩ := hfold.source _ h0
      have hshows := (hfold.cells (cellOf slot P.W)).shows h0
      unfold Shows at hshows
      rw [hempty] at hshows
      have hpromise : ∃ b, w = .promiseAt b (l.cells (cellOf slot P.W)).slot := by
        cases w with
        | promise => exact absurd hwslot.symm h0
        | trim => exact absurd hwslot.symm h0
        | promiseAt b s => exact ⟨b, by rw [show s = _ from hwslot]⟩
        | vote b s v => exact absurd (show Write.vote b _ v ∈ journal from hwslot ▸ hw) (hshows.1 b v)
        | chosen s v => exact absurd (show Write.chosen _ v ∈ journal from hwslot ▸ hw) (hshows.2.1 v)
      obtain ⟨b, rfl⟩ := hpromise
      have hwindow := (hobeys.window (promiseAt_mem_entries.mpr hw) (fun b hb => (by cases hb))
        fun s hs => (by cases hs)).2
      have hapart := add_window_le P hpos hlater ((hfold.cells _).tagged h0).symm
      have : (l.cells (cellOf slot P.W)).slot ≤ through + P.W := hwindow
      omega
    · exact hlater.le.trans (hused _ (by omega) hempty hcell)
  · have := hused _ (by omega) hstate hcell
    omega

/-- A restored node works in step with its journal. -/
theorem Restored.sound (h : Restored P id membership options through journal n) :
    Sound P through n (entries journal) := by
  obtain ⟨l, hfold, hn⟩ := h.folded
  have hd := h.durable
  refine ⟨hd.obeys, ?_, ⟨fun hr => absurd hn.role hr, fun hr => absurd hn.role hr,
    fun hown s v hv => ?_, fun hown => hd.words (hn.ownership ▸ hown)⟩⟩
  · rw [hn.ledger, hn.memoryFloor, hn.deliveredThrough]
    exact hfold.remembers hd.obeys hd.decided
  · rw [hn.id_eq] at hv
    have hle := hfold.suggestion_le hd.obeys (vote_mem_entries.mp hv)
    have hlt := hd.own (hn.ownership ▸ hown) s v hv
    have hself : n.selfIndex < n.membership.members.length := by
      by_contra hge
      have hmember := hn.member
      rw [← hn.membership_eq, List.getElem?_eq_none (by omega)] at hmember
      cases hmember
    rw [hn.ownNext]
    generalize max (ledgerHighestUsed P (clearOpenCells P l through)) through = top at hle
    have hsucc : s < slotAdd top 1 := by
      unfold slotAdd
      omega
    refine Nat.lt_of_lt_of_le hsucc ?_
    unfold ownSlotFrom
    dsimp only
    split_ifs with h1 h2
    · exact h1
    · exact le_rfl
    · exact le_slotAdd _ _

/-- The frontiers of a restored node are ordered. -/
theorem Restored.opened (h : Restored P id membership options through journal n) :
    Opened P n := by
  obtain ⟨l, hfold, hn⟩ := h.folded
  have hd := h.durable
  have hself : n.selfIndex < n.membership.members.length := by
    by_contra hge
    have hmember := hn.member
    rw [← hn.membership_eq, List.getElem?_eq_none (by omega)] at hmember
    cases hmember
  refine ⟨fun _ => by rw [hn.membership_eq, hn.id_eq]; exact hn.member, by rw [hn.membership_eq]; exact h.small,
    fun _ hown => ?_, fun hr => ?_, fun hr => ?_, ?_, ?_⟩
  · have hclear := clearOpenCells_cells (P := P) through l
    have hhigh : ledgerHighestUsed P (clearOpenCells P l through) ≤ maxSlot := by
      refine (ledgerHighestUsed_bounds _).2 maxSlot fun i _ hi => ?_
      have hstate := ((hclear.bits hfold.bits).used i).mp hi
      have hsame := hclear.used hstate
      rw [hsame] at hstate ⊢
      have h0 : (l.cells i).slot ≠ 0 := fun h0 => hstate ((hfold.cells i).free h0)
      have hshows := (hfold.cells i).shows h0
      unfold Shows at hshows
      refine hd.words (hn.ownership ▸ hown) _ ?_
      cases hs : (l.cells i).state with
      | empty => exact absurd hs hstate
      | voted =>
          rw [hs] at hshows
          exact Or.inl ⟨_, _, vote_mem_entries.mpr hshows.1.mem⟩
      | chosen =>
          rw [hs] at hshows
          exact Or.inr (decided_mem_entries.mpr ⟨_, hshows.mem⟩)
    rw [hn.ownNext]
    exact (ownSlotFrom_spec _ hself (by rw [hn.membership_eq]; exact h.small)
      (slotAdd_le_maxSlot _ (max_le hhigh hd.through_le))).1
  · rw [hn.role] at hr
    cases hr
  · rw [hn.role] at hr
    cases hr
  · rw [hn.memoryFloor, hn.deliveredThrough]
  · rw [hn.deliveredThrough]
    exact hd.through_le

end Restored

omit [DecidableEq V] in
/-- A node with an empty journal works in step with it, and its frontiers are ordered. -/
theorem nodeInit_sound {id through : Nat} {membership : Membership} {options : NodeOptions}
    {n : Node V} (hm : membership.Valid) (hsmall : membership.members.length ≤ maxSlot)
    (h : nodeInit id membership options = .ok n) : Sound P through n [] ∧ Opened P n := by
  unfold nodeInit at h
  rcases hindex : membershipIndexOf membership id with _ | selfIndex
  · rw [hindex] at h
    cases h
  rw [hindex] at h
  cases h
  have hmember := (membershipIndexOf_eq_some hm).mp hindex
  have hself : selfIndex < membership.members.length := by
    by_contra hge
    rw [List.getElem?_eq_none (by omega)] at hmember
    cases hmember
  refine ⟨⟨Synod.Ruled.nil _, ⟨fun b hb => (by cases hb), fun s b _ hb => ?_, fun s b v _ hv => ?_,
    fun i hi => (by cases hi), fun i hi => (by cases hi), fun i h0 => absurd rfl h0, fun _ _ => rfl,
    ⟨fun i => ?_, fun i => ?_⟩, fun u hu hle => ?_⟩, ⟨fun hr => absurd rfl hr, fun hr => absurd rfl hr,
    fun _ s v hv => (by cases hv), fun _ s hs => ?_⟩⟩, fun _ => hmember, hsmall, fun _ _ => ?_,
    fun hr => (by cases hr), fun hr => (by cases hr), le_rfl, Nat.zero_le _⟩
  · rcases hb with hb | ⟨v, hb⟩ <;> cases hb
  · cases hv
  · simp [initialNode, Ledger.empty]
  · simp [initialNode, Ledger.empty]
  · have : u ≤ 0 := hle
    omega
  · rcases hs with ⟨b, v, hv⟩ | hs
    · cases hv
    · cases hs
  · exact (ownSlotFrom_spec 1 hself
      hsmall (by unfold maxSlot; omega)).1

end Replay

end PaxosOdin
