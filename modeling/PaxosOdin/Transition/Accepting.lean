import PaxosOdin.Transition.Recovering

/-!
# The acceptor and the wire as small steps

Votes for a peer's proposal, acknowledgements, decisions, heartbeats, catch-up and
retransmission, and the promises an acceptor makes before it answers a Prepare.

Main results:

- Theorem `onAccept_run`, `onAccepted_run` and `onCommit_run`: phase two is a run.
- Theorem `promiseBounded_run`: promising a range is a run that leaves every live slot of the
  range in its cell, promised.
- Theorem `onPrepare_run`: a Prepare is a run that may end with the answer.
-/

namespace PaxosOdin

variable {V : Type} {P : Params} {I : Input V}

/-! ## Sending -/

/-- One envelope whose kind needs no backing. -/
theorem sendNack_run (σ : St V) (peer rejected promised slot : Nat) :
    LearnRun P I σ (sendNack σ peer rejected promised slot) :=
  LearnRun.single (Learn.send fun e he => by
    obtain rfl := List.mem_singleton.mp he
    exact ⟨rfl, rfl⟩)

theorem resendMessage_sendable {σ : St V} {acknowledged cell peer : Nat} {msg : Message V}
    (hpeer : peer ≠ σ.node.id) (h : resendMessage σ.node acknowledged cell = some msg) :
    Sendable P I σ ⟨σ.node.id, peer, msg⟩ := by
  unfold resendMessage at h
  dsimp only at h
  by_cases hlow : (σ.node.ledger.cells cell).slot ≤ acknowledged
  · rw [if_pos hlow] at h
    cases h
  rw [if_neg hlow] at h
  cases hstate : (σ.node.ledger.cells cell).state with
  | empty => rw [hstate] at h; cases h
  | chosen =>
      rw [hstate] at h
      cases h
      exact ⟨rfl, Or.inl ⟨cell, Or.inr hstate, rfl, rfl⟩⟩
  | voted =>
      rw [hstate] at h
      dsimp only at h
      split_ifs at h with hstale
      cases h
      rw [not_or, not_not, not_not] at hstale
      exact ⟨rfl, hpeer, cell, hstale.1, rfl, Or.inr ⟨rfl, hstate, hstale.2, rfl⟩⟩

theorem resendLoop_messages {n : Node V} {acknowledged start : Nat} {msg : Message V} :
    ∀ {fuel cursor : Nat} {wrapped : Bool} {sent : Nat},
      msg ∈ (resendLoop P n acknowledged start fuel cursor wrapped sent).1 →
      ∃ cell, resendMessage n acknowledged cell = some msg := by
  intro fuel
  induction fuel with
  | zero => intro cursor wrapped sent h; cases h
  | succ fuel ih =>
      intro cursor wrapped sent h
      unfold resendLoop at h
      rcases hnext : resendNext P n.ledger start cursor wrapped with ⟨_ | cell, c, w⟩
      · rw [hnext] at h
        cases h
      · rw [hnext] at h
        dsimp only at h
        cases hmsg : resendMessage n acknowledged cell with
        | none => rw [hmsg] at h; exact ih h
        | some m =>
            rw [hmsg] at h
            dsimp only at h
            split_ifs at h
            · rw [List.mem_singleton.mp h]
              exact ⟨cell, hmsg⟩
            · rcases List.mem_cons.mp h with rfl | h
              · exact ⟨cell, hmsg⟩
              · exact ih h

section Steps

variable [DecidableEq V]

/-- Retransmission to a peer is a run of small steps. -/
theorem resendTo_run (σ : St V) {peer : Nat} (hpeer : peer ≠ σ.node.id) :
    Run P I σ (resendTo P σ peer) ∧ (resendTo P σ peer).node.fixed = σ.node.fixed := by
  unfold resendTo
  cases hindex : membershipIndexOf σ.node.membership peer with
  | none => exact ⟨Run.refl σ, rfl⟩
  | some i =>
      dsimp only
      have hlearn : LearnRun P I σ
          (if σ.node.peerDecidedThrough i > σ.node.deliveredThrough then requestLearn P σ peer
            else σ) := by
        split_ifs
        · exact requestLearn_run σ peer
        · exact LearnRun.refl σ
      generalize (if σ.node.peerDecidedThrough i > σ.node.deliveredThrough then
        requestLearn P σ peer else σ) = τ at hlearn ⊢
      have hpeer' : peer ≠ τ.node.id := by
        rw [show τ.node.id = σ.node.id from congrArg Fixed.id hlearn.fixed]
        exact hpeer
      refine ⟨hlearn.run.trans ((LearnRun.single (Learn.send fun e he => ?_)).run.trans
        (Run.single (Micro.idle (σ := τ.addMessages _) (Or.inl rfl) le_rfl le_rfl (Or.inl rfl)
          (Or.inl rfl) fun _ h => h))), hlearn.fixed⟩
      obtain ⟨msg, hmsg, rfl⟩ := List.mem_map.mp he
      obtain ⟨cell, hcell⟩ := resendLoop_messages hmsg
      exact resendMessage_sendable hpeer' hcell

/-- Retransmission to every peer is a run of small steps. -/
theorem resendToPeers_run (σ : St V) :
    Run P I σ (resendToPeers P σ) ∧ (resendToPeers P σ).node.fixed = σ.node.fixed := by
  unfold resendToPeers
  have hne : ∀ peer ∈ σ.node.membership.members.filter (· ≠ σ.node.id), peer ≠ σ.node.id :=
    fun peer hpeer => by simpa using (List.mem_filter.mp hpeer).2
  generalize σ.node.membership.members.filter (· ≠ σ.node.id) = peers at hne
  induction peers generalizing σ with
  | nil => exact ⟨Run.refl σ, rfl⟩
  | cons peer rest ih =>
      have hone := resendTo_run (P := P) (I := I) σ (hne peer List.mem_cons_self)
      have hid : (resendTo P σ peer).node.id = σ.node.id := congrArg Fixed.id hone.2
      have hrest := ih (resendTo P σ peer) fun p hp => by
        rw [hid]
        exact hne p (List.mem_cons_of_mem _ hp)
      exact ⟨hone.1.trans hrest.1, hrest.2.trans hone.2⟩

/-! ## Phase two -/

omit [DecidableEq V] in
/-- A node that has heard a campaign ballot does not campaign at another. -/
theorem observeLeader_yields (n : Node V) (sender ballot : Nat) :
    Yields (observeLeader n sender ballot) ballot := by
  unfold Yields observeLeader
  dsimp only
  split_ifs with hother
  · exact Or.inl rfl
  · exact Or.inr (not_not.mp hother).symm

/-- To hear a campaign ballot is an idle step. -/
theorem observeLeader_run (σ : St V) (sender ballot : Nat) :
    Run P I σ { σ with node := observeLeader σ.node sender ballot } := by
  refine Run.single (Micro.idle (σ := σ) ?_ (le_max_left _ _) le_rfl (Or.inl rfl) (Or.inl rfl)
    fun _ h => h)
  split_ifs
  · exact Or.inr rfl
  · exact Or.inl rfl

/-- An Accept is a run of small steps. -/
theorem onAccept_run {σ : St V} {sender ballot slot : Nat} {value : V}
    (hheard : I.Hears σ.node sender (.accept ballot slot value)) :
    Run P I σ (onAccept P σ sender ballot slot value).1 := by
  unfold onAccept
  dsimp only
  by_cases hzero : slot = 0
  · rw [if_pos hzero]; exact Run.refl σ
  rw [if_neg hzero]
  by_cases htrim : slot ≤ σ.node.ledger.anchor.chosenTrimSlot
  · rw [if_pos htrim]; exact Run.refl σ
  rw [if_neg htrim]
  by_cases howner : ballotRound ballot = 0 ∧
      (!σ.node.ownership ∨ ballotNode ballot ≠ ownerOf σ.node slot)
  · rw [if_pos howner]; exact Run.refl σ
  rw [if_neg howner]
  by_cases hpromised : ballot < σ.node.ledger.promised
  · rw [if_pos hpromised]; exact (sendNack_run σ _ _ _ _).run
  rw [if_neg hpromised]
  rcases hclaim : claimLive P σ.node slot with ⟨n, _ | cell⟩
  · exact Run.refl σ
  have hc := claimLive_some hclaim
  have hcell := hc.cell_eq
  subst hcell
  dsimp only
  -- the claimed node, with the greatest slot seen
  set τ : St V := { σ with node := { n with highestSeen := max n.highestSeen slot } }
  have hclaimed : LearnRun P I σ τ :=
    (Claimed.run (σ := σ) hc).trans (LearnRun.single (Learn.note (σ := { σ with node := n })
      (le_max_left _ _) fun v hv => Or.inl hv))
  have hfixed : τ.node.fixed = σ.node.fixed := hclaimed.fixed
  have hid : τ.node.id = σ.node.id := congrArg Fixed.id hfixed
  have hfloor : τ.node.memoryFloor = σ.node.memoryFloor := congrArg Fixed.memoryFloor hfixed
  have hheardτ : I.Hears τ.node sender (.accept ballot slot value) := by
    unfold Input.Hears
    rw [hid]
    exact hheard
  by_cases hlocal : ballot < (n.ledger.cells (cellOf slot P.W)).promisedAt
  · rw [if_pos hlocal]
    exact hclaimed.run.trans (sendNack_run τ _ _ _ _).run
  rw [if_neg hlocal]
  by_cases hchosen : (n.ledger.cells (cellOf slot P.W)).state = .chosen
  · rw [if_pos hchosen]
    split_ifs with hvalue
    · refine hclaimed.run.trans (LearnRun.single (Learn.send fun e he => ?_)).run
      obtain rfl := List.mem_singleton.mp he
      exact ⟨rfl, rfl, value, hheardτ, hc.held, hvalue, Or.inr hchosen⟩
    · refine hclaimed.run.trans (LearnRun.single (Learn.send fun e he => ?_)).run
      obtain rfl := List.mem_singleton.mp he
      exact ⟨rfl, Or.inl ⟨cellOf slot P.W, Or.inr hchosen, hc.held, rfl⟩⟩
  rw [if_neg hchosen]
  by_cases hagain : (n.ledger.cells (cellOf slot P.W)).state = .voted ∧
      (n.ledger.cells (cellOf slot P.W)).voteBallot = ballot
  · rw [if_pos hagain]
    split_ifs with hvalue
    · exact hclaimed.run
    · refine hclaimed.run.trans (LearnRun.single (Learn.send fun e he => ?_)).run
      obtain rfl := List.mem_singleton.mp he
      rw [not_not] at hvalue
      exact ⟨rfl, rfl, value, hheardτ, hc.held, hvalue, Or.inl hagain⟩
  rw [if_neg hagain]
  -- the owner's overwritten suggestion is queued before the vote
  set requeue : Prop := (n.ledger.cells (cellOf slot P.W)).state = .voted ∧
    τ.node.ownership = true ∧
    (n.ledger.cells (cellOf slot P.W)).voteBallot = ownershipBallot τ.node.id ∧
    (n.ledger.cells (cellOf slot P.W)).value ≠ value
  have hqueue : LearnRun P I τ
      { τ with node :=
        if requeue then queueResubmit P τ.node (n.ledger.cells (cellOf slot P.W)).value
        else τ.node } :=
    requeue_run (σ := τ) requeue fun h => ⟨_, h.1, h.2.2.1, rfl⟩
  have hledger := requeue_ledger (P := P) τ.node (n.ledger.cells (cellOf slot P.W)).value requeue
  have hdelivered : (if requeue then
      queueResubmit P τ.node (n.ledger.cells (cellOf slot P.W)).value
      else τ.node).deliveredThrough = τ.node.deliveredThrough := by
    unfold queueResubmit
    split_ifs <;> rfl
  generalize (if requeue then queueResubmit P τ.node (n.ledger.cells (cellOf slot P.W)).value
    else τ.node) = n₂ at hqueue hledger hdelivered ⊢
  have hfixed₂ : n₂.fixed = τ.node.fixed := hqueue.fixed
  have hid₂ : n₂.id = τ.node.id := congrArg Fixed.id hfixed₂
  have hfloor₂ : n₂.memoryFloor = σ.node.memoryFloor :=
    (congrArg Fixed.memoryFloor hfixed₂).trans hfloor
  have hcells : n₂.ledger.cellAt P slot = n.ledger.cellAt P slot := by rw [hledger]
  have hglobal : n₂.ledger.promised = σ.node.ledger.promised := by
    rw [hledger]
    rcases hc.cases with rfl | ⟨rfl, -⟩ <;> rfl
  -- the vote, once the node has stepped down for a campaign ballot
  have hvote : ∀ n₃ : Node V, n₃.ledger = n₂.ledger → n₃.memoryFloor = n₂.memoryFloor →
      n₃.id = n₂.id → n₃.ownership = n₂.ownership → n₃.membership = n₂.membership →
      (0 < ballotRound ballot → Yields n₃ ballot) →
      Micro P I { τ with node := n₃ }
        (St.addWrite (St.withLedger { τ with node := n₃ } (ledgerRecordVote
          (ledgerSetPromiseAt n₃.ledger (cellOf slot P.W) ballot) (cellOf slot P.W) ballot value))
          (.vote ballot slot value)) := by
    intro n₃ hledger₃ hfloor₃ hid₃ hmode₃ hmem₃ hyields
    have hheard₃ : I.Hears n₃ sender (.accept ballot slot value) := by
      unfold Input.Hears at hheardτ ⊢
      rw [hid₃, hid₂]
      exact hheardτ
    refine Micro.vote (σ := { τ with node := n₃ }) hheard₃ ?_ ?_ ?_ ?_ ?_ ?_ ?_ ?_ hyields
    · rw [hfloor₃, hfloor₂]; exact hc.live
    · rw [hfloor₃, hfloor₂]; exact hc.window
    · rw [hledger₃, hcells]; exact hc.held
    · rw [hledger₃, hcells]; exact hchosen
    · rw [hledger₃, hcells]; exact fun hstate hballot => hagain ⟨hstate, hballot⟩
    · intro hround
      have hmode : n₃.ownership = σ.node.ownership :=
        hmode₃.trans ((congrArg Fixed.ownership hfixed₂).trans (congrArg Fixed.ownership hfixed))
      have hmem : n₃.membership = σ.node.membership :=
        hmem₃.trans ((congrArg Fixed.membership hfixed₂).trans (congrArg Fixed.membership hfixed))
      have hown : ¬ ((!σ.node.ownership) = true ∨ ballotNode ballot ≠ ownerOf σ.node slot) :=
        fun h => howner ⟨hround, h⟩
      rw [not_or, not_not] at hown
      refine ⟨?_, ?_⟩
      · rw [hmode]; simpa using hown.1
      · show ballotNode ballot = ownerOf n₃ slot
        unfold ownerOf
        rw [hmem]
        exact hown.2
    · rw [hledger₃, hglobal]; omega
    · rw [hledger₃, hcells]; exact Nat.le_of_not_lt hlocal
  -- the acknowledgement
  have hack : ∀ {υ : St V}, υ.node.id = τ.node.id →
      υ.node.deliveredThrough = τ.node.deliveredThrough → υ.node.ledger = ledgerRecordVote
        (ledgerSetPromiseAt n₂.ledger (cellOf slot P.W) ballot) (cellOf slot P.W) ballot value →
      LearnRun P I υ (sendTo υ sender (.accepted ballot slot τ.node.deliveredThrough)) := by
    intro υ hidυ hdeliveredυ hledgerυ
    refine LearnRun.single (Learn.send fun e he => ?_)
    obtain rfl := List.mem_singleton.mp he
    refine ⟨rfl, hdeliveredυ.symm, value, ?_, ?_, ?_, Or.inl ⟨?_, ?_⟩⟩
    · unfold Input.Hears at hheardτ ⊢
      rw [hidυ]
      exact hheardτ
    all_goals
      simp only [hledgerυ, Ledger.cellAt, ledgerRecordVote_cells, ledgerSetPromiseAt_cells, if_true]
    rw [hledger]
    exact hc.held
  refine hclaimed.run.trans (hqueue.run.trans ?_)
  split_ifs with hround
  · exact (observeLeader_run { τ with node := n₂ } sender ballot).trans
      ((Run.single (hvote (observeLeader n₂ sender ballot) rfl rfl rfl rfl rfl
        fun _ => observeLeader_yields _ _ _)).trans (hack hid₂ hdelivered rfl).run)
  · exact (Run.single (hvote n₂ rfl rfl rfl rfl rfl fun h => absurd h hround)).trans
      (hack hid₂ hdelivered rfl).run

/-- An acknowledgement is a run of small steps. -/
theorem onAccepted_run {σ : St V} {sender member ballot slot decidedThrough : Nat}
    (hheard : I.Hears σ.node sender (.accepted ballot slot decidedThrough))
    (hmember : membershipIndexOf σ.node.membership sender = some member)
    (hempty : σ.effects.committed = []) :
    Run P I σ (onAccepted P σ member ballot slot).1 := by
  unfold onAccepted
  by_cases hzero : slot = 0
  · rw [if_pos hzero]; exact Run.refl σ
  rw [if_neg hzero]
  dsimp only
  by_cases hstale : (σ.node.lead (cellOf slot P.W)).slot ≠ slot ∨
      (σ.node.lead (cellOf slot P.W)).ballot ≠ ballot
  · rw [if_pos hstale]; exact Run.refl σ
  rw [if_neg hstale]
  rw [not_or, not_not, not_not] at hstale
  -- the count after this acknowledgement
  generalize hlead : (if member ∈ (σ.node.lead (cellOf slot P.W)).acknowledgements then
      σ.node.lead (cellOf slot P.W)
    else
      { σ.node.lead (cellOf slot P.W) with
        acknowledgements := insert member (σ.node.lead (cellOf slot P.W)).acknowledgements
        acknowledged := (σ.node.lead (cellOf slot P.W)).acknowledged + 1 }) = lead
  have hcount : Run P I σ
      { σ with node :=
        { σ.node with lead := Function.update σ.node.lead (cellOf slot P.W) lead } } ∧
      lead.slot = slot ∧ lead.ballot = ballot := by
    split_ifs at hlead with hold
    · subst hlead
      rw [Function.update_eq_self]
      exact ⟨Run.refl σ, hstale⟩
    · exact ⟨Run.single (Micro.acknowledge hheard hmember hstale.1 hstale.2 hold hlead.symm),
        by rw [← hlead]; exact hstale.1, by rw [← hlead]; exact hstale.2⟩
  obtain ⟨hrun, hslot, hballot⟩ := hcount
  split_ifs with hfew hmoved hreplaced hnovote
  · exact hrun
  · exact hrun
  · exact hrun
  · exact hrun
  rw [not_or, not_not] at hmoved
  have hvoted : (σ.node.ledger.cells (cellOf slot P.W)).state = .voted := not_not.mp hnovote
  have hsame : (σ.node.ledger.cells (cellOf slot P.W)).voteBallot = ballot := by
    by_contra hne
    exact hreplaced ⟨hvoted, hne⟩
  have hacked : QuorumAcked P
      { σ.node with lead := Function.update σ.node.lead (cellOf slot P.W) lead } slot
      (σ.node.ledger.cells (cellOf slot P.W)).value := by
    refine ⟨?_, ?_, hmoved.1, hvoted, ?_, rfl⟩ <;> simp only [Function.update_self]
    · exact hslot
    · exact Nat.le_of_not_lt hfew
    · exact hsame.trans hballot.symm
  have hcommit := recordCommit_run (P := P) (I := I)
    (σ := { σ with node :=
      { σ.node with lead := Function.update σ.node.lead (cellOf slot P.W) lead } })
    (.acked hacked) (Or.inl hempty)
  have hafter := hcommit.ackedOrChosen hzero (Or.inl hacked)
  rcases hrecord : recordCommit P
      { σ with node :=
        { σ.node with lead := Function.update σ.node.lead (cellOf slot P.W) lead } } slot
      (σ.node.ledger.cells (cellOf slot P.W)).value with ⟨τ, e⟩
  rw [hrecord] at hcommit hafter
  cases e with
  | none =>
      refine hrun.trans (hcommit.run.trans (LearnRun.single (Learn.send fun e he => ?_)).run)
      obtain ⟨peer, -, rfl⟩ := List.mem_map.mp he
      refine ⟨rfl, ?_⟩
      rcases hafter with hacked' | ⟨-, hheld, hchosen⟩
      · exact Or.inr ⟨hacked'.lead, hacked'.acked, hacked'.held, hacked'.state, hacked'.ballot, rfl⟩
      · exact Or.inl ⟨cellOf slot P.W, Or.inr hchosen, hheld, rfl⟩
  | _ => exact hrun.trans hcommit.run

/-- A decision announced by a peer is a run of small steps. -/
theorem onCommit_run {σ : St V} {sender slot : Nat} {value : V}
    (hheard : I.Hears σ.node sender (.commit slot value)) (hempty : σ.effects.committed = []) :
    Run P I σ (onCommit P σ sender slot value).1 := by
  have hidle : Run P I σ
      { σ with node := { σ.node with leaderHint := some sender, electionTicks := 0 } } :=
    Run.single (Micro.idle (σ := σ) (Or.inl rfl) le_rfl le_rfl (Or.inl rfl) (Or.inl rfl)
      fun _ h => h)
  unfold onCommit
  exact hidle.trans (LearnRun.run (recordCommit_run (.heard sender hheard) (Or.inl hempty)))

/-! ## Heartbeats and catch-up -/

/-- A heartbeat is a run of small steps. -/
theorem onHeartbeat_run (σ : St V) (sender ballot decidedThrough : Nat) :
    Run P I σ (onHeartbeat P σ sender ballot decidedThrough) := by
  unfold onHeartbeat
  dsimp only
  split_ifs with hlow hnew hahead hahead
  · exact (sendNack_run σ _ _ _ _).run
  · exact ((observeLeader_run σ sender ballot).trans (Run.single (Micro.promise (Nat.le_of_not_lt hlow)
      (observeLeader_yields _ _ _)))).trans (requestLearn_run _ _).run
  · exact (observeLeader_run σ sender ballot).trans (Run.single (Micro.promise
      (Nat.le_of_not_lt hlow) (observeLeader_yields _ _ _)))
  · exact (observeLeader_run _ _ _).trans (requestLearn_run _ _).run
  · exact observeLeader_run _ _ _

/-- A catch-up request is a run of small steps. -/
theorem onLearn_run (σ : St V) (sender fromSlot count : Nat) :
    Run P I σ (onLearn P σ sender fromSlot count).1 := by
  unfold onLearn
  by_cases hinvalid : fromSlot = 0 ∨ count = 0 ∨ count > P.C
  · rw [if_pos hinvalid]; exact Run.refl σ
  rw [if_neg hinvalid]
  dsimp only
  have hrequest : LearnRun P I σ
      (if fromSlot ≤ σ.node.memoryFloor then
        σ.addRequest ⟨sender, fromSlot,
          min (slotAdd fromSlot (count - 1)) σ.node.memoryFloor - fromSlot + 1⟩
      else σ) := by
    split_ifs
    · exact LearnRun.single Learn.request
    · exact LearnRun.refl σ
  refine hrequest.run.trans (LearnRun.single (Learn.send fun e he => ?_)).run
  obtain ⟨cell, hcell, rfl⟩ := List.mem_map.mp he
  have hchosen := (List.mem_filter.mp (List.mem_filter.mp hcell).1).2
  exact ⟨rfl, Or.inl ⟨cell, Or.inl (by simpa using hchosen), rfl, rfl⟩⟩

/-- A refusal only demotes. -/
theorem onNack_run (σ : St V) (rejected promised : Nat) :
    Run P I σ { σ with node := onNack σ.node rejected promised } := by
  unfold onNack
  dsimp only
  split_ifs
  · exact Run.single (Micro.idle (σ := σ) (Or.inl rfl) (le_max_left _ _) le_rfl (Or.inl rfl)
      (Or.inl rfl) fun _ h => h)
  · exact Run.single (Micro.idle (σ := σ) (Or.inr rfl) (le_max_left _ _) le_rfl (Or.inl rfl)
      (Or.inl rfl) fun _ h => h)

/-! ## Promising a range -/

omit [DecidableEq V] in
/-- A live slot in its cell stays there, untouched, while other slots are claimed. -/
theorem Claimed.keeps {n n' : Node V} {slot cell s : Nat} (h : Claimed P n n' slot cell)
    (hlive : n.memoryFloor < s) (hheld : (n.ledger.cellAt P s).slot = s) :
    n'.ledger.cellAt P s = n.ledger.cellAt P s := by
  rcases h.cases with rfl | ⟨rfl, hother, hfree⟩
  · rfl
  · have hcell : cellOf s P.W ≠ cellOf slot P.W := by
      intro hcell
      simp only [Ledger.cellAt, ← hcell] at hfree
      simp only [Ledger.cellAt] at hheld
      rcases hfree with h0 | ⟨hle, -⟩ <;> omega
    simp [Ledger.cellAt, ledgerOpen_cells, hcell]

/-- What promising a range to `ballot` may change: cells are opened, and promises of cells
raised to the ballot. -/
structure Reserved (P : Params) (ballot : Nat) (n n' : Node V) : Prop where
  ledger_only : n' = { n with ledger := n'.ledger }
  promised : n'.ledger.promised = n.ledger.promised
  anchor : n'.ledger.anchor = n.ledger.anchor
  votes : ∀ cell, (n'.ledger.cells cell).voteBallot = (n.ledger.cells cell).voteBallot ∨
    (n'.ledger.cells cell).voteBallot = 0
  promises : ∀ cell, (n'.ledger.cells cell).promisedAt = (n.ledger.cells cell).promisedAt ∨
    (n'.ledger.cells cell).promisedAt = 0 ∨ (n'.ledger.cells cell).promisedAt = ballot
  live : ∀ s, n.memoryFloor < s → (n.ledger.cellAt P s).slot = s →
    (n'.ledger.cellAt P s).slot = s

omit [DecidableEq V] in
theorem Reserved.refl (ballot : Nat) (n : Node V) : Reserved P ballot n n :=
  ⟨rfl, rfl, rfl, fun _ => Or.inl rfl, fun _ => Or.inl rfl, fun _ _ h => h⟩

omit [DecidableEq V] in
theorem Reserved.fixed {ballot : Nat} {n n' : Node V} (h : Reserved P ballot n n') :
    n'.fixed = n.fixed := by
  have hanchor := h.anchor
  rw [h.ledger_only]
  unfold Node.fixed
  simp only [hanchor]

omit [DecidableEq V] in
theorem Reserved.trans {ballot : Nat} {n n' n'' : Node V} (h : Reserved P ballot n n')
    (h' : Reserved P ballot n' n'') : Reserved P ballot n n'' := by
  have hfloor : n'.memoryFloor = n.memoryFloor := congrArg Fixed.memoryFloor h.fixed
  refine ⟨?_, h'.promised.trans h.promised, h'.anchor.trans h.anchor, fun cell => ?_, fun cell => ?_,
    fun s hs hheld => h'.live s (by rw [hfloor]; exact hs) (h.live s hs hheld)⟩
  · calc n'' = { n' with ledger := n''.ledger } := h'.ledger_only
      _ = { n with ledger := n''.ledger } := by rw [h.ledger_only]
  · rcases h'.votes cell with h2 | h2
    · rw [h2]; exact h.votes cell
    · exact Or.inr h2
  · rcases h'.promises cell with h2 | h2 | h2
    · rw [h2]; exact h.promises cell
    · exact Or.inr (Or.inl h2)
    · exact Or.inr (Or.inr h2)

omit [DecidableEq V] in
theorem Claimed.reserved {n n' : Node V} {slot cell ballot : Nat} (h : Claimed P n n' slot cell) :
    Reserved P ballot n n' := by
  have hkeeps := fun s hs hheld => h.keeps (s := s) hs hheld
  rcases h.cases with rfl | ⟨rfl, -, -⟩
  · exact Reserved.refl ballot n'
  · refine ⟨rfl, rfl, rfl, fun c => ?_, fun c => ?_, fun s hs hheld => ?_⟩
    · by_cases hcell : c = cellOf slot P.W <;> simp [ledgerOpen_cells, hcell]
    · by_cases hcell : c = cellOf slot P.W <;> simp [ledgerOpen_cells, hcell]
    · exact (congrArg Cell.slot (hkeeps s hs hheld)).trans hheld

omit [DecidableEq V] in
/-- The first loop of `promise_bounded` only claims cells. -/
theorem claimRange_run {ballot : Nat} {e : Effects V} :
    ∀ {slots : List Nat} {n n' : Node V} {ok : Bool}, claimRange P ballot n slots = (n', ok) →
      LearnRun P I { node := n, effects := e } { node := n', effects := e } ∧
        Reserved P ballot n n' ∧
        (∀ s, n.memoryFloor < s → (n.ledger.cellAt P s).slot = s →
          n'.ledger.cellAt P s = n.ledger.cellAt P s) ∧
        (ok = true → ∀ s ∈ slots, n.memoryFloor < s →
          s ≤ n.memoryFloor + P.W ∧ (n'.ledger.cellAt P s).slot = s ∧
            (n'.ledger.cellAt P s).promisedAt ≤ ballot) := by
  intro slots
  induction slots with
  | nil =>
      intro n n' ok h
      cases h
      exact ⟨LearnRun.refl _, Reserved.refl ballot n, fun _ _ _ => rfl, fun _ s hs => by cases hs⟩
  | cons slot rest ih =>
      intro n n' ok h
      unfold claimRange at h
      by_cases hlow : slot ≤ n.memoryFloor
      · rw [if_pos hlow] at h
        obtain ⟨hrun, hres, hkeep, hall⟩ := ih h
        refine ⟨hrun, hres, hkeep, fun hok s hs hlive => ?_⟩
        rcases List.mem_cons.mp hs with rfl | hs
        · omega
        · exact hall hok s hs hlive
      rw [if_neg hlow] at h
      rcases hclaim : claimLive P n slot with ⟨n₁, _ | cell⟩
      · rw [hclaim] at h
        obtain ⟨rfl, rfl⟩ := Prod.mk.inj h
        rw [claimLive_none_fst hclaim]
        exact ⟨LearnRun.refl _, Reserved.refl ballot n, fun _ _ _ => rfl, fun hok => by cases hok⟩
      have hc := claimLive_some hclaim
      have hcell := hc.cell_eq
      subst hcell
      have hfloor : n₁.memoryFloor = n.memoryFloor := congrArg Fixed.memoryFloor hc.fixed
      have hclaimed : LearnRun P I { node := n, effects := e } { node := n₁, effects := e } :=
        Claimed.run (σ := { node := n, effects := e }) hc
      rw [hclaim] at h
      dsimp only at h
      split_ifs at h with hpromise
      · obtain ⟨rfl, rfl⟩ := Prod.mk.inj h
        exact ⟨hclaimed, hc.reserved, fun s hs hheld => hc.keeps hs hheld, fun hok => by cases hok⟩
      · obtain ⟨hrun, hres, hkeep, hall⟩ := ih h
        refine ⟨hclaimed.trans hrun, hc.reserved.trans hres, fun s hs hheld => ?_,
          fun hok s hs hlive => ?_⟩
        · have hfirst := hc.keeps hs hheld
          rw [hkeep s (by rw [hfloor]; exact hs) (by rw [hfirst]; exact hheld), hfirst]
        · rcases List.mem_cons.mp hs with rfl | hs
          · have hsame := hkeep s (by rw [hfloor]; exact hlive) hc.held
            refine ⟨hc.window, ?_, ?_⟩
            · rw [hsame]; exact hc.held
            · rw [hsame]; exact Nat.le_of_not_lt hpromise
          · have := hall hok s hs (by rw [hfloor]; exact hlive)
            rw [hfloor] at this
            exact this

omit [DecidableEq V] in
theorem PromisesDecrees.congr {n n' : Node V} {ballot : Nat} (h : PromisesDecrees I n ballot)
    (hfixed : n'.fixed = n.fixed) : PromisesDecrees I n' ballot := by
  have hmode : n'.ownership = n.ownership := congrArg Fixed.ownership hfixed
  have hid : n'.id = n.id := congrArg Fixed.id hfixed
  unfold PromisesDecrees Input.Hears at h ⊢
  rw [hmode, hid]
  exact h

/-- The second loop of `promise_bounded` records the promises. -/
theorem promiseRange_run (ballot : Nat) :
    ∀ (slots : List Nat) (σ : St V), PromisesDecrees I σ.node ballot →
      (∀ s ∈ slots, σ.node.memoryFloor < s → s ≤ σ.node.memoryFloor + P.W ∧
        (σ.node.ledger.cellAt P s).slot = s ∧ (σ.node.ledger.cellAt P s).promisedAt ≤ ballot) →
      Run P I σ (promiseRange P ballot σ slots) ∧
        Reserved P ballot σ.node (promiseRange P ballot σ slots).node ∧
        (promiseRange P ballot σ slots).effects.messages = σ.effects.messages ∧
        ∀ s, σ.node.memoryFloor < s → (σ.node.ledger.cellAt P s).slot = s →
          (s ∈ slots ∨ (σ.node.ledger.cellAt P s).promisedAt = ballot) →
          ((promiseRange P ballot σ slots).node.ledger.cellAt P s).promisedAt = ballot := by
  intro slots
  induction slots with
  | nil =>
      intro σ _ _
      refine ⟨Run.refl σ, Reserved.refl ballot σ.node, rfl, fun s _ _ hs => ?_⟩
      rcases hs with hs | hs
      · cases hs
      · exact hs
  | cons slot rest ih =>
      intro σ hreason hready
      unfold promiseRange
      dsimp only
      by_cases hlow : slot ≤ σ.node.memoryFloor
      · rw [if_pos hlow]
        obtain ⟨hrun, hres, hmsg, hall⟩ :=
          ih σ hreason fun s hs => hready s (List.mem_cons_of_mem _ hs)
        refine ⟨hrun, hres, hmsg, fun s hlive hheld hs => hall s hlive hheld ?_⟩
        rcases hs with hs | hs
        · rcases List.mem_cons.mp hs with rfl | hs
          · omega
          · exact Or.inl hs
        · exact Or.inr hs
      rw [if_neg hlow]
      obtain ⟨hwindow, hheld, hle⟩ := hready slot List.mem_cons_self (Nat.lt_of_not_le hlow)
      by_cases hdone : (σ.node.ledger.cells (cellOf slot P.W)).promisedAt = ballot
      · rw [if_pos hdone]
        obtain ⟨hrun, hres, hmsg, hall⟩ :=
          ih σ hreason fun s hs => hready s (List.mem_cons_of_mem _ hs)
        refine ⟨hrun, hres, hmsg, fun s hlive hheld hs => hall s hlive hheld ?_⟩
        rcases hs with hs | hs
        · rcases List.mem_cons.mp hs with rfl | hs
          · exact Or.inr hdone
          · exact Or.inl hs
        · exact Or.inr hs
      rw [if_neg hdone]
      -- the state after this promise
      set τ : St V :=
        (σ.withLedger (ledgerSetPromiseAt σ.node.ledger (cellOf slot P.W) ballot)).addWrite
          (.promiseAt ballot slot)
      have hmicro : Micro P I σ τ :=
        Micro.promiseAt (Nat.lt_of_not_le hlow) hwindow hheld hle hreason
      have hslot : ∀ s, (τ.node.ledger.cellAt P s).slot = (σ.node.ledger.cellAt P s).slot := by
        intro s
        simp [τ, St.withLedger, St.addWrite, Ledger.cellAt, ledgerSetPromiseAt_cells]
      have hpromised : ∀ s, (τ.node.ledger.cellAt P s).promisedAt =
          if cellOf s P.W = cellOf slot P.W then ballot
          else (σ.node.ledger.cellAt P s).promisedAt := by
        intro s
        simp [τ, St.withLedger, St.addWrite, Ledger.cellAt, ledgerSetPromiseAt_cells]
      have hres₁ : Reserved P ballot σ.node τ.node := by
        refine ⟨rfl, rfl, rfl, fun c => Or.inl ?_, fun c => ?_, fun s _ h => (hslot s).trans h⟩
        · simp [τ, St.withLedger, St.addWrite, ledgerSetPromiseAt_cells]
        · by_cases hcell : c = cellOf slot P.W <;>
            simp [τ, St.withLedger, St.addWrite, ledgerSetPromiseAt_cells, hcell]
      obtain ⟨hrun, hres, hmsg, hall⟩ := ih τ hreason fun s hs hlive => by
        obtain ⟨hw, hh, hl⟩ := hready s (List.mem_cons_of_mem _ hs) hlive
        refine ⟨hw, (hslot s).trans hh, ?_⟩
        rw [hpromised s]
        split_ifs
        · exact le_rfl
        · exact hl
      refine ⟨(Run.single hmicro).trans hrun, hres₁.trans hres, hmsg, fun s hlive hheld hs =>
        hall s hlive ((hslot s).trans hheld) ?_⟩
      rw [hpromised s]
      rcases hs with hs | hs
      · rcases List.mem_cons.mp hs with rfl | hs
        · exact Or.inr (if_pos rfl)
        · exact Or.inl hs
      · right
        split_ifs
        · rfl
        · exact hs

/-- What a promised range leaves behind. -/
structure Bounded (P : Params) (I : Input V) (σ σ' : St V) (ballot first last : Nat) : Prop where
  run : Run P I σ σ'
  reserved : Reserved P ballot σ.node σ'.node
  messages : σ'.effects.messages = σ.effects.messages
  short : slotSub last first < P.C
  promised : ∀ s, first ≤ s → s ≤ last → σ'.node.memoryFloor < s →
    (σ'.node.ledger.cellAt P s).slot = s ∧ (σ'.node.ledger.cellAt P s).promisedAt = ballot

/-- Promising a range is a run that leaves every live slot of the range in its cell,
promised; a range that cannot be promised only claims cells. -/
theorem promiseBounded_run {σ : St V} {first last : Nat} (ballot : Nat) (hrange : first ≤ last)
    (hreason : PromisesDecrees I σ.node ballot) :
    (∀ σ', promiseBounded P σ ballot first last = (σ', false) → LearnRun P I σ σ') ∧
      ∀ σ', promiseBounded P σ ballot first last = (σ', true) →
        Bounded P I σ σ' ballot first last := by
  unfold promiseBounded
  by_cases hlong : slotSub last first ≥ P.C
  · rw [if_pos hlong]
    refine ⟨fun σ' h => ?_, fun σ' h => (by cases h)⟩
    obtain ⟨rfl, -⟩ := Prod.mk.inj h
    exact LearnRun.refl σ
  rw [if_neg hlong]
  dsimp only
  rcases hclaim : claimRange P ballot σ.node
    ((List.range (slotSub last first + 1)).map (first + ·)) with ⟨n, _ | _⟩
  · refine ⟨fun σ' h => ?_, fun σ' h => (by cases h)⟩
    obtain ⟨rfl, -⟩ := Prod.mk.inj h
    exact (claimRange_run (e := σ.effects) hclaim).1
  · refine ⟨fun σ' h => (by cases h), fun σ' h => ?_⟩
    obtain ⟨rfl, -⟩ := Prod.mk.inj h
    obtain ⟨hrun₁, hres₁, -, hall₁⟩ := claimRange_run (I := I) (e := σ.effects) hclaim
    have hfloor : n.memoryFloor = σ.node.memoryFloor := congrArg Fixed.memoryFloor hres₁.fixed
    obtain ⟨hrun₂, hres₂, hmsg, hall₂⟩ := promiseRange_run (P := P) (I := I)
      ballot ((List.range (slotSub last first + 1)).map (first + ·))
      { σ with node := n } (hreason.congr hres₁.fixed) fun s hs hlive => by
        have := hall₁ rfl s hs (by rw [← hfloor]; exact hlive)
        rw [← hfloor] at this
        exact this
    refine ⟨hrun₁.run.trans hrun₂, hres₁.trans hres₂, hmsg, Nat.lt_of_not_le hlong,
      fun s hfirst hlast hlive => ?_⟩
    have hfloor₂ := congrArg Fixed.memoryFloor hres₂.fixed
    simp only [Node.fixed] at hfloor₂
    rw [hfloor₂] at hlive
    have hmem : s ∈ (List.range (slotSub last first + 1)).map (first + ·) := by
      rw [slotSub_of_le hrange]
      exact List.mem_map.mpr ⟨s - first, List.mem_range.mpr (by omega), by omega⟩
    have hheld := (hall₁ rfl s hmem (by rw [← hfloor]; exact hlive)).2.1
    exact ⟨hres₂.live s hlive hheld, hall₂ s hlive hheld (Or.inl hmem)⟩

/-- A Prepare is a run of small steps that may end with the answer. -/
theorem onPrepare_run {σ : St V} {n₀ : Node V} {sender ballot first last : Nat}
    {scope : PrepareScope} (hheard : I.Hears σ.node sender (.prepare ballot first last scope))
    (hquiet : σ.effects.messages = []) :
    ∃ τ, Run P I σ τ ∧ ((onPrepare P σ sender ballot first last scope).1 = τ ∨
      Final P I n₀ τ (onPrepare P σ sender ballot first last scope).1) := by
  unfold onPrepare
  dsimp only
  by_cases hlow : ballot < σ.node.ledger.promised
  · rw [if_pos hlow]
    exact ⟨_, (sendNack_run σ _ _ _ _).run, Or.inl rfl⟩
  rw [if_neg hlow]
  by_cases hinvalid : first = 0 ∨ last < first
  · rw [if_pos hinvalid]
    exact ⟨σ, Run.refl σ, Or.inl rfl⟩
  rw [if_neg hinvalid]
  rw [not_or, Nat.not_lt] at hinvalid
  cases scope with
  | global =>
      dsimp only
      -- the node steps down, then makes the promise, if it is new
      generalize hpromise : (if ballot ≠ σ.node.ledger.promised then
        (σ.withLedger { σ.node.ledger with promised := ballot }).addWrite (.promise ballot)
        else σ) = τ
      have hτ : Run P I σ { τ with node := observeLeader τ.node sender ballot } ∧
          τ.node.ledger.promised = ballot ∧ τ.node.id = σ.node.id ∧ τ.effects.messages = [] := by
        have hobserve := observeLeader_run (P := P) (I := I) σ sender ballot
        subst hpromise
        split_ifs with hnew
        · exact ⟨hobserve.trans (Run.single (Micro.promise (Nat.le_of_not_lt hlow)
            (observeLeader_yields _ _ _))), rfl, rfl, hquiet⟩
        · exact ⟨hobserve, (not_not.mp hnew).symm, rfl, hquiet⟩
      obtain ⟨hrun, hpromised, hid, hmsg⟩ := hτ
      have hheard' : I.Hears (observeLeader τ.node sender ballot) sender
          (.prepare ballot first last .global) := by
        unfold Input.Hears at hheard ⊢
        rw [hheard]
        simp only [observeLeader, hid]
      exact ⟨_, hrun, Or.inr (Final.answer hheard' hinvalid.1 hinvalid.2
        hmsg (fun _ => hpromised) fun h => by cases h)⟩
  | bounded =>
      dsimp only
      obtain ⟨hfail, hdone⟩ := promiseBounded_run (P := P) (I := I) (σ := σ)
        ballot hinvalid.2 (Or.inr ⟨sender, first, last, hheard⟩)
      rcases hbounded : promiseBounded P σ ballot first last with ⟨τ, _ | _⟩
      · exact ⟨τ, (hfail τ hbounded).run, Or.inl rfl⟩
      · have hb := hdone τ hbounded
        have hid : τ.node.id = σ.node.id := congrArg Fixed.id hb.reserved.fixed
        have hheard' : I.Hears τ.node sender (.prepare ballot first last .bounded) := by
          unfold Input.Hears at hheard ⊢
          rw [hheard]
          simp only [hid]
        have hobserve : Run P I τ { τ with node := { τ.node with
            highestObservedRound := max τ.node.highestObservedRound (ballotRound ballot) } } :=
          Run.single (Micro.idle (σ := τ) (Or.inl rfl) (le_max_left _ _) le_rfl (Or.inl rfl)
            (Or.inl rfl) fun _ h => h)
        exact ⟨_, hb.run.trans hobserve, Or.inr (Final.answer hheard' hinvalid.1 hinvalid.2
          (hb.messages.trans hquiet) (fun h => by cases h) fun _ => hb.promised)⟩

end Steps

end PaxosOdin
