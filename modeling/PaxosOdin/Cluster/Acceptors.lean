import PaxosOdin.Cluster.Ballots

/-!
# The acceptor law

A member keeps its word: the promise that governs a slot never sinks, no vote undercuts it, votes
for a slot climb, and an answered Prepare closes its chunk for lower ballots for good.  The word
survives crashes, because an answer leaves its host only after the promise is durable.

Main definitions:

- Definition `Moment`: what may happen from one moment of a transition to the next.
- Definition `Grounded`: every promise of a ledger has a record.
- Definition `Barred`: what keeps a member from a vote below a ballot, for good.

Main results:

- Theorem `Completes.moments`: a transition is a sequence of such moments.
- Theorem `Cluster.Reaches.barred`: every answer that was given bars its chunk.
- Theorem `acceptor_law`: the four laws, in every run.
-/

namespace PaxosOdin

variable {V : Type} {P : Params} {I : Input V}

/-! ## What a record binds -/

/-- The log binds the slot to `ballot`, by a promise for it or by a vote at it. -/
def Pledged (log : Log V) (slot ballot : Nat) : Prop :=
  Synod.Promised log slot ballot ∨ ∃ value, Synod.Voted log slot ballot value

/-- A pledge stays in a journal that grows. -/
theorem Pledged.mono {log log' : Log V} {slot ballot : Nat} (h : Pledged log slot ballot)
    (hsub : log ⊆ log') : Pledged log' slot ballot := by
  rcases h with hp | ⟨value, hv⟩
  · exact Or.inl (hp.imp (fun h => hsub h) fun h => hsub h)
  · exact Or.inr ⟨value, hsub hv⟩

/-- A vote that follows does not undercut what the log binds. -/
theorem Pledged.le {log more : Log V} {slot ballot b : Nat} {v : V} (h : Pledged log slot ballot)
    (hlawful : Synod.Lawful (log ++ more)) (hvote : .vote b slot v ∈ more) : ballot ≤ b := by
  obtain ⟨between, hlaw⟩ := Synod.Ruled.of_mem hlawful hvote
  rcases h with hp | ⟨value, hv⟩
  · exact hlaw.1 ballot (hp.append between)
  · rcases hlaw.2 ballot value (hv.append between) with hlt | ⟨heq, -⟩
    · exact hlt.le
    · exact heq.le

/-- Every promise that the ledger holds has a record. -/
structure Grounded (log : Log V) (l : Ledger V) : Prop where
  promised : l.promised = 0 ∨ .promise l.promised ∈ log
  cells : ∀ i, (l.cells i).slot ≠ 0 →
    (l.cells i).promisedAt = 0 ∨ Pledged log (l.cells i).slot (l.cells i).promisedAt

/-- A ledger stays grounded in a journal that grows. -/
theorem Grounded.mono {log log' : Log V} {l : Ledger V} (h : Grounded log l) (hsub : log ⊆ log') :
    Grounded log' l :=
  ⟨h.promised.imp_right fun hp => hsub hp,
    fun i hi => (h.cells i hi).imp_right fun hp => hp.mono hsub⟩

/-- A ledger of which one cell changed. -/
theorem Grounded.update {log log' : Log V} {l l' : Ledger V} (h : Grounded log l)
    (hsub : log ⊆ log') (hpromised : l'.promised = l.promised) (cell : Nat)
    (hother : ∀ i, i ≠ cell → l'.cells i = l.cells i)
    (hcell : (l'.cells cell).slot ≠ 0 → (l'.cells cell).promisedAt = 0 ∨
      Pledged log' (l'.cells cell).slot (l'.cells cell).promisedAt) : Grounded log' l' := by
  have hold := h.mono hsub
  refine ⟨hpromised ▸ hold.promised, fun i hi => ?_⟩
  by_cases heq : i = cell
  · subst heq
    exact hcell hi
  · rw [hother i heq] at hi ⊢
    exact hold.cells i hi

/-- A promise that is journaled. -/
theorem Grounded.promise {log : Log V} {l : Ledger V} (h : Grounded log l) (ballot : Nat) :
    Grounded (log ++ [.promise ballot]) { l with promised := ballot } :=
  ⟨Or.inr (by simp), (h.mono (List.subset_append_left _ _)).cells⟩

/-- A promise for one slot that is journaled. -/
theorem Grounded.promiseAt {log : Log V} {l : Ledger V} (h : Grounded log l) {slot : Nat}
    (hheld : (l.cellAt P slot).slot = slot) (ballot : Nat) :
    Grounded (log ++ [.promiseAt ballot slot])
      (ledgerSetPromiseAt l (cellOf slot P.W) ballot) := by
  refine h.update (List.subset_append_left _ _) rfl (cellOf slot P.W) (fun i hi => ?_)
    fun _ => Or.inr (Or.inl (Or.inr ?_))
  · simp [ledgerSetPromiseAt_cells, hi]
  · simp only [Ledger.cellAt] at hheld
    simp [ledgerSetPromiseAt_cells, hheld]

/-- A vote that is journaled. -/
theorem Grounded.vote {log : Log V} {l : Ledger V} (h : Grounded log l) {slot : Nat}
    (hheld : (l.cellAt P slot).slot = slot) (ballot : Nat) (value : V) :
    Grounded (log ++ [.vote ballot slot value])
      (ledgerRecordVote (ledgerSetPromiseAt l (cellOf slot P.W) ballot) (cellOf slot P.W) ballot
        value) := by
  refine h.update (List.subset_append_left _ _) rfl (cellOf slot P.W) (fun i hi => ?_)
    fun _ => Or.inr (Or.inr ⟨value, ?_⟩)
  · simp [ledgerVote_cells, hi]
  · simp only [Ledger.cellAt] at hheld
    simp [ledgerVote_cells, hheld, Synod.Voted]

/-! ## One transition -/

section Transitions

/-- A step of the learner journals what it writes down. -/
theorem Learn.grounded {journal : List (Write V)} {σ σ' : St V} (h : Learn P I σ σ')
    (hg : Grounded (σ.log journal) σ.node.ledger) : Grounded (σ'.log journal) σ'.node.ledger := by
  obtain ⟨more, hmore⟩ := h.log_grows journal
  have hsub : σ.log journal ⊆ σ'.log journal := by
    rw [hmore]
    exact List.subset_append_left _ _
  cases h with
  | @claim slot =>
      refine hg.update hsub rfl (cellOf slot P.W) (fun i hi => ?_) fun _ => Or.inl ?_
      · simp [St.withLedger, ledgerOpen_cells, hi]
      · simp [St.withLedger]
  | @choose slot value =>
      refine hg.update hsub rfl (cellOf slot P.W) (fun i hi => ?_) fun hslot => ?_
      · simp [St.withLedger, St.addWrite, ledgerRecordChosen_cells, hi]
      · simp only [St.withLedger, St.addWrite, ledgerRecordChosen_cells, if_pos] at hslot ⊢
        exact (hg.cells _ hslot).imp_right fun hp => hp.mono hsub
  | pass => exact hg.mono hsub
  | _ => exact hg

variable [DecidableEq V]

/-- A small step records every promise that it makes. -/
theorem Micro.grounded {journal : List (Write V)} {σ σ' : St V} (h : Micro P I σ σ')
    (hg : Grounded (σ.log journal) σ.node.ledger) : Grounded (σ'.log journal) σ'.node.ledger := by
  cases h with
  | learn hl => exact hl.grounded hg
  | @promise ballot =>
      rw [St.log_append journal σ ((σ.withLedger { σ.node.ledger with promised := ballot }).addWrite
        (.promise ballot)) rfl rfl]
      exact hg.promise ballot
  | @promiseAt ballot slot _ _ hheld =>
      rw [St.log_append journal σ ((σ.withLedger
        (ledgerSetPromiseAt σ.node.ledger (cellOf slot P.W) ballot)).addWrite
          (.promiseAt ballot slot)) rfl rfl]
      exact hg.promiseAt hheld ballot
  | @vote sender ballot slot value _ _ _ hheld =>
      rw [St.log_append journal σ ((σ.withLedger (ledgerRecordVote
        (ledgerSetPromiseAt σ.node.ledger (cellOf slot P.W) ballot) (cellOf slot P.W) ballot
          value)).addWrite (.vote ballot slot value)) rfl rfl]
      exact hg.vote hheld ballot value
  | @drive slot ballot value _ _ _ _ hheld _ _ _ hlocal =>
      have hmax : max (σ.node.ledger.cells (cellOf slot P.W)).promisedAt ballot = ballot :=
        max_eq_right hlocal
      rw [St.log_append journal σ (voteForProposal σ (cellOf slot P.W) slot ballot value) rfl rfl]
      simp only [voteForProposal, St.addWrite, hmax]
      exact hg.vote hheld ballot value
  | @own slot next value _ _ _ _ _ _ _ _ hheld _ _ hlocal =>
      have hmax : max (σ.node.ledger.cells (cellOf slot P.W)).promisedAt
          (ownershipBallot σ.node.id) = ownershipBallot σ.node.id := max_eq_right hlocal
      rw [St.log_append journal σ ((voteForProposal σ (cellOf slot P.W) slot
        (ownershipBallot σ.node.id) value).bump next) rfl rfl]
      simp only [St.bump, voteForProposal, St.addWrite, hmax]
      exact hg.vote hheld (ownershipBallot σ.node.id) value
  | @report sender member offset ballot slot vote state value =>
      have hledger : (recordReport σ.node member offset slot vote state value).1.ledger =
          σ.node.ledger := by
        unfold recordReport
        dsimp only
        split_ifs <;> rfl
      show Grounded (σ.log journal)
        (recordReport σ.node member offset slot vote state value).1.ledger
      rw [hledger]
      exact hg
  | _ => exact hg

omit [DecidableEq V] in
/-- So do the final moves. -/
theorem Final.grounded {journal : List (Write V)} {n₀ : Node V} {σ σ' : St V}
    (h : Final P I n₀ σ σ') (hg : Grounded (σ.log journal) σ.node.ledger) :
    Grounded (σ'.log journal) σ'.node.ledger := by
  cases h with
  | @campaign round noop =>
      have hlog : St.log journal
          (broadcastAll
            (St.addWrite
              { σ with node :=
                campaignNode P σ.node (ballotMake round σ.node.priority σ.node.id) noop }
              (.promise (ballotMake round σ.node.priority σ.node.id)))
            (.prepare (ballotMake round σ.node.priority σ.node.id) (σ.node.deliveredThrough + 1)
              (slotAdd (σ.node.deliveredThrough + 1) (P.C - 1)) .global)) =
          σ.log journal ++ [.promise (ballotMake round σ.node.priority σ.node.id)] :=
        St.log_append _ _ _ rfl rfl
      rw [hlog]
      exact hg.promise _
  | revoke => exact hg
  | answer => exact hg

/-- And so does an operation. -/
theorem Completes.grounded {journal : List (Write V)} {n₀ : Node V} {σ σ' : St V}
    (hc : Completes P I n₀ σ σ') (hg : Grounded (σ.log journal) σ.node.ledger) :
    Grounded (σ'.log journal) σ'.node.ledger := by
  obtain ⟨τ, hrun, hlast⟩ := hc
  have hτ : Grounded (τ.log journal) τ.node.ledger :=
    hrun.preserves (motive := fun τ => Grounded (τ.log journal) τ.node.ledger)
      (fun hm hτ => hm.grounded hτ) hg
  rcases hlast with rfl | hfinal
  · exact hτ
  · exact hfinal.grounded hτ

end Transitions

/-! ## Moments -/

section Moments

/-- What a node may record at one moment: one thing, and a vote only in the cell that holds its slot
undecided, at no less than the promise that governs the slot. -/
structure Noted (P : Params) (n : Node V) (es : Log V) : Prop where
  single : es.length ≤ 1
  votes : ∀ b s v, .vote b s v ∈ es → n.memoryFloor < s ∧ governing P n.ledger s ≤ b ∧
    (n.ledger.cellAt P s).slot = s ∧ (n.ledger.cellAt P s).state ≠ .chosen

/-- From one moment of a transition to the next: no governing promise of a live slot sinks, at most
one thing is recorded, and a decided cell keeps its decision while it holds its slot. -/
structure Moment (P : Params) (σ σ' : St V) : Prop where
  floor : σ'.node.memoryFloor = σ.node.memoryFloor
  governing : ∀ slot, σ.node.memoryFloor < slot →
    governing P σ.node.ledger slot ≤ governing P σ'.node.ledger slot
  records : ∃ es : Log V, entries σ'.effects.writes = entries σ.effects.writes ++ es ∧
    Noted P σ.node es
  decided : ∀ i, (σ.node.ledger.cells i).state = .chosen →
    (σ'.node.ledger.cells i).slot = (σ.node.ledger.cells i).slot →
    (σ'.node.ledger.cells i).state = .chosen ∧
      (σ'.node.ledger.cells i).value = (σ.node.ledger.cells i).value

/-- Nothing was written yet. -/
theorem Noted.nil (n : Node V) : Noted P n [] :=
  ⟨Nat.zero_le _, fun _ _ _ hv => absurd hv List.not_mem_nil⟩

/-- A record that is no vote. -/
theorem Noted.other (n : Node V) {e : Synod.Entry Nat Nat V} (he : ∀ b s v, e ≠ .vote b s v) :
    Noted P n [e] :=
  ⟨le_rfl, fun b s v hv => absurd (List.mem_singleton.mp hv).symm (he b s v)⟩

/-- A vote is noted when no promise stands against it. -/
theorem Noted.vote {n : Node V} {ballot slot : Nat} (value : V) (hlive : n.memoryFloor < slot)
    (hheld : (n.ledger.cellAt P slot).slot = slot)
    (hopen : (n.ledger.cellAt P slot).state ≠ .chosen) (hglobal : n.ledger.promised ≤ ballot)
    (hlocal : (n.ledger.cellAt P slot).promisedAt ≤ ballot) :
    Noted P n [.vote ballot slot value] := by
  refine ⟨le_rfl, fun b s v hv => ?_⟩
  obtain ⟨rfl, rfl, rfl⟩ := Synod.Entry.vote.inj (List.mem_singleton.mp hv)
  refine ⟨hlive, ?_, hheld, hopen⟩
  unfold governing
  rw [if_pos hheld]
  exact max_le hglobal hlocal

/-- A moment that only moves other fields. -/
theorem Moment.quiet {σ σ' : St V} (hfloor : σ'.node.memoryFloor = σ.node.memoryFloor)
    (hledger : σ'.node.ledger = σ.node.ledger) (hwrites : σ'.effects.writes = σ.effects.writes) :
    Moment P σ σ' := by
  refine ⟨hfloor, fun slot _ => by rw [hledger], ⟨[], ?_, .nil _⟩, fun i hc _ => ?_⟩
  · rw [hwrites, List.append_nil]
  · rw [hledger]
    exact ⟨hc, rfl⟩

variable [DecidableEq V]

/-- What a small step records. -/
theorem Micro.noted {σ σ' : St V} (h : Micro P I σ σ') : ∃ es : Log V,
    entries σ'.effects.writes = entries σ.effects.writes ++ es ∧ Noted P σ.node es := by
  have hnone : entries σ'.effects.writes = entries σ.effects.writes → ∃ es : Log V,
      entries σ'.effects.writes = entries σ.effects.writes ++ es ∧ Noted P σ.node es :=
    fun heq => ⟨[], heq.trans (List.append_nil _).symm, .nil _⟩
  cases h with
  | learn hl =>
      cases hl with
      | choose => exact ⟨_, entries_append _ _, .other _ fun b s v heq => by cases heq⟩
      | @pass slot value =>
          refine ⟨[.decided slot], ?_, .other _ fun b s v heq => by cases heq⟩
          simp only [St.addCommitted, St.addWrite, St.setPassThrough, entries_append,
            entries_rebind]
          rfl
      | _ => exact hnone rfl
  | promise => exact ⟨_, entries_append _ _, .other _ fun b s v heq => by cases heq⟩
  | promiseAt => exact ⟨_, entries_append _ _, .other _ fun b s v heq => by cases heq⟩
  | @vote sender ballot slot value _ hlive _ hheld hopen _ _ hglobal hlocal =>
      exact ⟨_, entries_append _ _, .vote value hlive hheld hopen hglobal hlocal⟩
  | @drive slot ballot value _ _ hlive _ hheld hopen _ hglobal hlocal =>
      exact ⟨_, entries_append _ _, .vote value hlive hheld hopen hglobal hlocal⟩
  | @own slot next value _ _ _ _ _ _ hlive _ hheld hopen hglobal hlocal =>
      exact ⟨_, entries_append _ _, .vote value hlive hheld hopen hglobal hlocal⟩
  | _ => exact hnone rfl

/-- A move writes nothing, or one record at its moment. -/
theorem Micro.moment {σ σ' : St V} (h : Micro P I σ σ') : Moment P σ σ' :=
  ⟨memoryFloor_of_static h.static, fun _ hlive => h.governing_mono hlive, h.noted,
    fun i hc hslot => (h.cell i).kept rfl hslot hc⟩

omit [DecidableEq V] in
/-- So do the final moves. -/
theorem Final.moment {n₀ : Node V} {σ σ' : St V} (h : Final P I n₀ σ σ') : Moment P σ σ' := by
  cases h with
  | @campaign round noop _ _ hround =>
      have hle : σ.node.ledger.promised ≤ ballotMake round σ.node.priority σ.node.id :=
        (lt_ballotMake (nextRound_fresh hround).promised).le
      refine ⟨rfl, fun slot _ => ?_,
        ⟨_, entries_append _ _, .other _ fun b s v heq => by cases heq⟩, fun i hc _ => ⟨hc, rfl⟩⟩
      show governing P σ.node.ledger slot ≤ governing P { σ.node.ledger with
          promised := ballotMake round σ.node.priority σ.node.id } slot
      unfold governing
      split_ifs
      · exact max_le_max hle le_rfl
      · exact hle
  | revoke => exact Moment.quiet rfl rfl rfl
  | answer => exact Moment.quiet rfl rfl rfl

/-- A transition is a sequence of such moments. -/
theorem Completes.moments {n₀ : Node V} {σ σ' : St V} (hc : Completes P I n₀ σ σ') :
    Relation.ReflTransGen (Moment P) σ σ' := by
  obtain ⟨τ, hrun, hlast⟩ := hc
  have hτ : Relation.ReflTransGen (Moment P) σ τ := hrun.lift id fun _ _ hm => hm.moment
  rcases hlast with rfl | hfinal
  · exact hτ
  · exact hτ.tail hfinal.moment

/-- A decided cell keeps its decision while it holds its slot. -/
theorem Completes.decided {n₀ : Node V} {σ σ' : St V} (hc : Completes P I n₀ σ σ') {i : Nat}
    (hchosen : (σ.node.ledger.cells i).state = .chosen)
    (hslot : (σ'.node.ledger.cells i).slot = (σ.node.ledger.cells i).slot) :
    (σ'.node.ledger.cells i).state = .chosen ∧
      (σ'.node.ledger.cells i).value = (σ.node.ledger.cells i).value := by
  obtain ⟨τ, hrun, hlast⟩ := hc
  -- a cell that is taken over holds a slot above the floor from then on
  have hτ : τ.node.memoryFloor = σ.node.memoryFloor ∧
      (((τ.node.ledger.cells i).slot = (σ.node.ledger.cells i).slot ∧
          (τ.node.ledger.cells i).state = .chosen ∧
          (τ.node.ledger.cells i).value = (σ.node.ledger.cells i).value) ∨
        ((σ.node.ledger.cells i).slot ≤ σ.node.memoryFloor ∧
          σ.node.memoryFloor < (τ.node.ledger.cells i).slot)) := by
    refine hrun.preserves (motive := fun τ => τ.node.memoryFloor = σ.node.memoryFloor ∧
      (((τ.node.ledger.cells i).slot = (σ.node.ledger.cells i).slot ∧
          (τ.node.ledger.cells i).state = .chosen ∧
          (τ.node.ledger.cells i).value = (σ.node.ledger.cells i).value) ∨
        ((σ.node.ledger.cells i).slot ≤ σ.node.memoryFloor ∧
          σ.node.memoryFloor < (τ.node.ledger.cells i).slot))) ?_ ⟨rfl, Or.inl ⟨rfl, hchosen, rfl⟩⟩
    rintro τ τ' hm ⟨hfloor, hcell⟩
    refine ⟨(memoryFloor_of_static hm.static).trans hfloor, ?_⟩
    rcases hm.cell i with heq | ⟨slot, -, hlive, -, -, hfree, heq⟩ | ⟨-, -, -, hs, -, hkept, -⟩
    · rw [heq]
      exact hcell
    · rw [heq]
      rw [hfloor] at hlive hfree
      refine Or.inr ⟨?_, hlive⟩
      rcases hcell with ⟨hheld, -, -⟩ | ⟨hle, -⟩
      · rcases hfree with h0 | ⟨hle, -⟩ <;> omega
      · exact hle
    · rw [hs]
      refine hcell.imp_left fun ⟨hheld, hc, hv⟩ => ⟨hheld, (hkept hc).1, (hkept hc).2.trans hv⟩
  have hcells : σ'.node.ledger.cells i = τ.node.ledger.cells i := by
    rcases hlast with rfl | hfinal
    · rfl
    · cases hfinal <;> rfl
  rw [hcells] at hslot ⊢
  rcases hτ.2 with ⟨-, hc, hv⟩ | ⟨hle, hlt⟩
  · exact ⟨hc, hv⟩
  · omega

omit [DecidableEq V] in
/-- The governing promises of live slots never sink in a sequence of moments. -/
theorem Moment.governing_mono {σ σ' : St V} (h : Relation.ReflTransGen (Moment P) σ σ') {slot : Nat}
    (hlive : σ.node.memoryFloor < slot) :
    PaxosOdin.governing P σ.node.ledger slot ≤ PaxosOdin.governing P σ'.node.ledger slot := by
  suffices hsame : σ'.node.memoryFloor = σ.node.memoryFloor ∧
      PaxosOdin.governing P σ.node.ledger slot ≤ PaxosOdin.governing P σ'.node.ledger slot from
    hsame.2
  induction h with
  | refl => exact ⟨rfl, le_rfl⟩
  | tail _ hm ih =>
      exact ⟨hm.floor.trans ih.1, ih.2.trans (hm.governing slot (by rw [ih.1]; exact hlive))⟩

omit [DecidableEq V] in
/-- A vote of a transition is for a slot above the floor. -/
theorem Moment.vote_live {σ σ' : St V} (h : Relation.ReflTransGen (Moment P) σ σ')
    {b s : Nat} {v : V} (hv : .vote b s v ∈ σ'.effects.writes) :
    .vote b s v ∈ σ.effects.writes ∨ σ.node.memoryFloor < s := by
  suffices hsame : σ'.node.memoryFloor = σ.node.memoryFloor ∧ (.vote b s v ∈ σ'.effects.writes →
      .vote b s v ∈ σ.effects.writes ∨ σ.node.memoryFloor < s) from hsame.2 hv
  clear hv
  induction h with
  | refl => exact ⟨rfl, Or.inl⟩
  | @tail τ τ' _ hm ih =>
      refine ⟨hm.floor.trans ih.1, fun hv => ?_⟩
      obtain ⟨es, heq, hes⟩ := hm.records
      rw [← vote_mem_entries, heq, List.mem_append, vote_mem_entries] at hv
      rcases hv with hv | hv
      · exact ih.2 hv
      · exact Or.inr (ih.1 ▸ (hes.votes b s v hv).1)

end Moments

/-! ## The restart -/

section Replay

/-- An empty ledger promises nothing. -/
theorem Grounded.empty [Inhabited V] (log : Log V) : Grounded log Ledger.empty :=
  ⟨Or.inl rfl, fun _ h0 => absurd rfl h0⟩

/-- A claim keeps the ledger grounded, and the cell it finds has the slot it was asked for. -/
theorem ledgerClaim_grounded {log : Log V} {l l' : Ledger V} {slot : Nat} (hg : Grounded log l)
    (hclaim : ledgerClaim P l slot = some l') :
    Grounded log l' ∧ (l'.cells (cellOf slot P.W)).slot = slot := by
  unfold ledgerClaim at hclaim
  dsimp only at hclaim
  split_ifs at hclaim with hheld hfree
  · cases hclaim
    exact ⟨hg, hheld⟩
  · cases hclaim
    refine ⟨hg.update (fun _ he => he) rfl (cellOf slot P.W) (fun i hi => ?_)
      fun _ => Or.inl ?_, ?_⟩
    · simp [ledgerOpen_cells, hi]
    · simp
    · simp

/-- The greater of a recorded promise and a new one is recorded. -/
theorem Grounded.raise {log log' : Log V} {l : Ledger V} (hg : Grounded log l)
    (hsub : log ⊆ log') {cell slot ballot : Nat} (h0 : slot ≠ 0)
    (hheld : (l.cells cell).slot = slot) (hnew : Pledged log' slot ballot) :
    max (l.cells cell).promisedAt ballot = 0 ∨
      Pledged log' slot (max (l.cells cell).promisedAt ballot) := by
  rcases le_total (l.cells cell).promisedAt ballot with hle | hle
  · rw [max_eq_right hle]
    exact Or.inr hnew
  · rw [max_eq_left hle]
    have hcell := hg.cells cell (hheld ▸ h0)
    rw [hheld] at hcell
    exact hcell.imp_right fun hp => hp.mono hsub

variable [DecidableEq V]

/-- One more record. -/
theorem ledgerReplayFold_grounded {journal : List (Write V)} {l : Ledger V} {w : Write V}
    (hg : Grounded (entries journal) l) :
    Grounded (entries (journal ++ [w])) (ledgerReplayFold P l w).1 := by
  have hsub : entries journal ⊆ entries (journal ++ [w]) := by
    rw [entries_append]
    exact List.subset_append_left _ _
  cases w with
  | promise ballot =>
      refine ⟨?_, (hg.mono hsub).cells⟩
      simp only [ledgerReplayFold]
      rcases le_total l.promised ballot with hle | hle
      · rw [max_eq_right hle]
        exact Or.inr (by simp)
      · rw [max_eq_left hle]
        exact (hg.mono hsub).promised
  | promiseAt ballot slot =>
      simp only [ledgerReplayFold]
      by_cases h0 : slot = 0
      · rw [if_pos h0]
        exact hg.mono hsub
      rw [if_neg h0]
      cases hclaim : ledgerClaim P l slot with
      | none => exact hg.mono hsub
      | some l₁ =>
          obtain ⟨hg₁, hheld⟩ := ledgerClaim_grounded hg hclaim
          refine hg₁.update hsub rfl (cellOf slot P.W) (fun i hi => ?_) fun _ => ?_
          · simp [ledgerSetPromiseAt_cells, hi]
          · simp only [ledgerSetPromiseAt_cells, if_pos, hheld]
            exact hg₁.raise hsub h0 hheld (Or.inl (Or.inr (by simp)))
  | vote ballot slot value =>
      simp only [ledgerReplayFold]
      by_cases h0 : slot = 0
      · rw [if_pos h0]
        exact hg.mono hsub
      rw [if_neg h0]
      cases hclaim : ledgerClaim P l slot with
      | none => exact hg.mono hsub
      | some l₁ =>
          obtain ⟨hg₁, hheld⟩ := ledgerClaim_grounded hg hclaim
          have hvoted : Pledged (entries (journal ++ [.vote ballot slot value])) slot ballot :=
            Or.inr ⟨value, by simp [Synod.Voted]⟩
          have hraised := hg₁.raise hsub h0 hheld hvoted
          dsimp only
          split_ifs
          · exact hg₁.mono hsub
          · refine hg₁.update hsub rfl (cellOf slot P.W) (fun i hi => ?_) fun _ => ?_
            · simp [ledgerSetPromiseAt_cells, hi]
            · simp only [ledgerSetPromiseAt_cells, if_pos, hheld]
              exact hraised
          · refine hg₁.update hsub rfl (cellOf slot P.W) (fun i hi => ?_) fun _ => ?_
            · simp [ledgerVote_cells, hi]
            · simp only [ledgerVote_cells, if_pos, hheld]
              exact hraised
  | chosen slot value =>
      simp only [ledgerReplayFold, ledgerApply]
      by_cases h0 : slot = 0
      · rw [if_pos h0]
        exact hg.mono hsub
      rw [if_neg h0]
      cases hclaim : ledgerClaim P l slot with
      | none => exact hg.mono hsub
      | some l₁ =>
          obtain ⟨hg₁, hheld⟩ := ledgerClaim_grounded hg hclaim
          dsimp only
          split_ifs
          · exact hg₁.mono hsub
          · refine hg₁.update hsub rfl (cellOf slot P.W) (fun i hi => ?_) fun hslot => ?_
            · simp [ledgerRecordChosen_cells, hi]
            · simp only [ledgerRecordChosen_cells, if_pos] at hslot ⊢
              exact (hg₁.cells _ hslot).imp_right fun hp => hp.mono hsub
  | trim anchor =>
      simp only [ledgerReplayFold, ledgerApply]
      split_ifs <;> exact ⟨(hg.mono hsub).promised, (hg.mono hsub).cells⟩

variable [Inhabited V]

/-- The fold of a journal makes up no promise. -/
theorem replay_grounded {journal : List (Write V)} {l : Ledger V}
    (h : replay P journal = (l, .none)) : Grounded (entries journal) l := by
  induction journal using List.reverseRecOn generalizing l with
  | nil =>
      cases h
      exact Grounded.empty _
  | append_singleton journal w ih =>
      unfold replay at h ih
      rw [replayFrom_concat] at h
      rcases hfold : replayFrom P Ledger.empty journal with ⟨l₁, e⟩
      rw [hfold] at h
      cases e with
      | none =>
          have hstep : (ledgerReplayFold P l₁ w).1 = l := congrArg Prod.fst h
          rw [← hstep]
          exact ledgerReplayFold_grounded (ih hfold)
      | _ => cases h

omit [DecidableEq V] in
/-- Nor does the restart from it. -/
theorem nodeRestore_grounded {id through : Nat} {membership : Membership} {options : NodeOptions}
    {log : Log V} {l : Ledger V} {n : Node V} (hg : Grounded log l)
    (h : nodeRestore P id membership l through options = .ok n) : Grounded log n.ledger := by
  have hcleared : ∀ base, Grounded log (clearOpenCells P l base) := by
    intro base
    obtain ⟨hcells, hpromised, -, -⟩ := clearOpenCells_cells (P := P) base l
    refine ⟨hpromised ▸ hg.promised, fun i hi => ?_⟩
    rw [hcells] at hi ⊢
    split_ifs at hi ⊢
    · exact Or.inl rfl
    · exact hg.cells i hi
  unfold nodeRestore at h
  split at h
  · cases h
  · next n₀ hinit =>
      cases h
      unfold nodeResumeAt
      dsimp only
      split_ifs <;> exact hcleared _

end Replay

/-! ## Answers -/

/-- What bars a member from a vote below `ballot` in the slot, for good: a record, or a floor that
its node never goes back below. -/
def Barred (log : Log V) (h : Host V) (slot ballot : Nat) : Prop :=
  ballot = 0 ∨ Pledged log slot ballot ∨
    (slot ≤ h.consumed ∧ ∀ n, h.node = some n → slot ≤ n.memoryFloor)

/-- A manifest bars the chunk that it describes. -/
def Bars (log : Log V) (h : Host V) (e : Envelope V) : Prop :=
  ∀ ballot anchor through first last reported more,
    e.message = .promiseRange ballot anchor through first last reported more →
      ∀ s, first ≤ s → s ≤ last → Barred log h s ballot

section Answers

/-- No message of the transition is a manifest. -/
def Unanswered (σ : St V) : Prop :=
  ∀ e ∈ σ.effects.messages, ∀ ballot anchor through first last reported more,
    e.message ≠ .promiseRange ballot anchor through first last reported more

/-- No manifest leaves but as the answer to a `Prepare`. -/
theorem Sendable.unanswered {σ : St V} {e : Envelope V} (h : Sendable P I σ e)
    {ballot through first last reported : Nat} {anchor : TrimAnchor} {more : Bool} :
    e.message ≠ .promiseRange ballot anchor through first last reported more := by
  intro hmsg
  have hback := h.2
  rw [hmsg] at hback
  exact hback

variable [DecidableEq V]

/-- A move answers no `Prepare`. -/
theorem Micro.unanswered {σ σ' : St V} (h : Micro P I σ σ') (hσ : Unanswered σ) :
    Unanswered σ' := by
  cases h with
  | learn hl =>
      cases hl with
      | send hsend =>
          intro e he ballot anchor through first last reported more
          rcases List.mem_append.mp he with he | he
          · exact hσ e he _ _ _ _ _ _ _
          · exact (hsend e he).unanswered
      | _ => exact hσ
  | nextChunk =>
      intro e he ballot anchor through first last reported more hmsg
      rcases List.mem_append.mp he with he | he
      · exact hσ e he _ _ _ _ _ _ _ hmsg
      · obtain ⟨peer, -, rfl⟩ := List.mem_map.mp he
        cases hmsg
  | _ => exact hσ

/-- A manifest that a transition sends describes a chunk that its records close, above the floor. -/
theorem Completes.manifest {journal : List (Write V)} {n : Node V} {σ : St V}
    (hc : Completes P I n (St.start n) σ) (hg : Grounded (entries journal) n.ledger)
    {e : Envelope V} (he : e ∈ σ.effects.messages) {ballot through first last reported : Nat}
    {anchor : TrimAnchor} {more : Bool}
    (hmsg : e.message = .promiseRange ballot anchor through first last reported more) {s : Nat}
    (hfirst : first ≤ s) (hlast : s ≤ last) :
    ballot = 0 ∨ Pledged (σ.log journal) s ballot ∨ s ≤ n.memoryFloor := by
  have hstart : Grounded ((St.start n).log journal) n.ledger := by
    simpa [St.log, St.start] using hg
  have hdone := hc.grounded (σ := St.start n) hstart
  obtain ⟨τ, hrun, hfinal⟩ := hc
  have hquiet : Unanswered τ :=
    hrun.preserves (motive := Unanswered) (fun hm hτ => hm.unanswered hτ)
      fun e he => absurd he List.not_mem_nil
  rcases hfinal with rfl | hfinal
  · exact absurd hmsg (hquiet e he _ _ _ _ _ _ _)
  have hfloor : τ.node.memoryFloor = n.memoryFloor := memoryFloor_of_static hrun.static
  cases hfinal with
  | @answer sender asked lo hi scope _ hpos _ _ hglobal hbounded =>
      rcases List.mem_append.mp he with he | he
      · rcases List.mem_append.mp he with he | he
        · exact absurd hmsg (hquiet e he _ _ _ _ _ _ _)
        · obtain ⟨cell, -, rfl⟩ := List.mem_map.mp he
          cases hmsg
      · cases List.mem_singleton.mp he
        cases hmsg
        cases scope with
        | global =>
            rcases hdone.promised with h0 | hp
            · exact Or.inl ((hglobal rfl).symm.trans h0)
            · exact Or.inr (Or.inl (Or.inl (Or.inl (hglobal rfl ▸ hp))))
        | bounded =>
            by_cases hlive : s ≤ n.memoryFloor
            · exact Or.inr (Or.inr hlive)
            obtain ⟨hheld, hpromise⟩ := hbounded rfl s hfirst hlast (by omega)
            simp only [Ledger.cellAt] at hheld hpromise
            have hcell := hdone.cells (cellOf s P.W) (by
              show (τ.node.ledger.cells (cellOf s P.W)).slot ≠ 0
              omega)
            change (τ.node.ledger.cells (cellOf s P.W)).promisedAt = 0 ∨
              Pledged _ (τ.node.ledger.cells (cellOf s P.W)).slot
                (τ.node.ledger.cells (cellOf s P.W)).promisedAt at hcell
            rw [hheld, hpromise] at hcell
            exact hcell.imp_right Or.inl
  | campaign =>
      rcases List.mem_append.mp he with he | he
      · exact absurd hmsg (hquiet e he _ _ _ _ _ _ _)
      · obtain ⟨peer, -, rfl⟩ := List.mem_map.mp he
        cases hmsg
  | revoke =>
      rcases List.mem_append.mp he with he | he
      · exact absurd hmsg (hquiet e he _ _ _ _ _ _ _)
      · obtain ⟨peer, -, rfl⟩ := List.mem_map.mp he
        cases hmsg

end Answers

/-! ## Hosts -/

section Hosts

variable {d : Deployment} {id : Nat} {h h' : Host V} {net es : List (Envelope V)}
  {asked : Option (Operation V)}

/-- A host that is bound by what its node promised and what it has yet to send. -/
structure Sworn (h : Host V) : Prop where
  grounded : ∀ n, h.node = some n → Grounded h.log n.ledger
  outbox : ∀ e ∈ h.outbox, Bars h.log h e

/-- A slot that is barred stays barred. -/
theorem Barred.mono {log log' : Log V} {slot ballot : Nat} (hb : Barred log h slot ballot)
    (hsub : log ⊆ log') (hconsumed : h.consumed ≤ h'.consumed)
    (hfloor : ∀ n', h'.node = some n' → h.consumed ≤ n'.memoryFloor ∨
      ∃ n, h.node = some n ∧ n.memoryFloor ≤ n'.memoryFloor) : Barred log' h' slot ballot := by
  refine hb.imp_right fun hb => hb.imp (fun hp => hp.mono hsub) fun ⟨hle, hnode⟩ => ?_
  refine ⟨hle.trans hconsumed, fun n' hn' => ?_⟩
  rcases hfloor n' hn' with hthrough | ⟨n, hn, hmono⟩
  · exact hle.trans hthrough
  · exact (hnode n hn).trans hmono

variable [DecidableEq V] [Inhabited V]

/-- Neither the position of a host nor the floor of its node ever goes back. -/
theorem Change.floor (hr : Recorded d id h) (hnet : ∀ e ∈ net, e.Authentic d.ownership)
    (hc : Change d net id h asked h' es) : h.consumed ≤ h'.consumed ∧
      ∀ n', h'.node = some n' → h.consumed ≤ n'.memoryFloor ∨
        ∃ n, h.node = some n ∧ n.memoryFloor ≤ n'.memoryFloor := by
  have hsame : ∀ n', h.node = some n' → h.consumed ≤ n'.memoryFloor ∨
      ∃ n, h.node = some n ∧ n.memoryFloor ≤ n'.memoryFloor :=
    fun n' hn' => Or.inr ⟨n', hn', le_rfl⟩
  cases hc with
  | @operated n op hnode hpending _ hserves =>
      refine ⟨le_rfl, fun n' hn' => Or.inr ⟨n, hnode, ?_⟩⟩
      cases hn'
      obtain ⟨-, hdone⟩ := hr.begins hnet hnode hpending hserves
      exact (memoryFloor_of_static hdone.static).ge
  | @adjusted n op hnode hop =>
      refine ⟨le_rfl, fun n' hn' => Or.inr ⟨n, hnode, ?_⟩⟩
      cases hn'
      rcases hop with ⟨through, -, rfl⟩ | ⟨enabled, rfl⟩
      · exact (nodeAdvanceMemoryFloor_hosted n through).floor
      · exact (nodeSetCampaignEnabled_hosted n enabled).floor
  | consumed _ hle _ => exact ⟨hle, hsame⟩
  | crashed => exact ⟨le_rfl, fun n' hn' => by cases hn'⟩
  | restarted hdown hrestart =>
      have hworks := (hr.restarted hrestart).works
      unfold Host.restarted at hrestart
      split at hrestart
      swap
      · cases hrestart
      next l hreplay =>
      split at hrestart
      swap
      · cases hrestart
      next n hn =>
      cases hrestart
      refine ⟨le_rfl, fun n' hn' => Or.inl ?_⟩
      cases hn'
      have hanchor : l.anchor = {} := replayFrom_anchor hr.durable.untrimmed hreplay
      exact (nodeRestore_fields d.valid (by rw [hanchor]) hn).memoryFloor.ge
  | _ => exact ⟨le_rfl, hsame⟩

/-- What bars a member goes on barring it. -/
theorem Change.barred (hr : Recorded d id h) (hnet : ∀ e ∈ net, e.Authentic d.ownership)
    (hc : Change d net id h asked h' es) {slot ballot : Nat}
    (hb : Barred (entries h.journal) h slot ballot) :
    Barred (entries h'.journal) h' slot ballot :=
  hb.mono hc.log.1 (hc.floor hr hnet).1 (hc.floor hr hnet).2

/-- Every change of a host keeps it bound, and the manifests that leave it bar their chunks. -/
theorem Change.sworn (hr : Recorded d id h) (hnet : ∀ e ∈ net, e.Authentic d.ownership)
    (hs : Sworn h) (hc : Change d net id h asked h' es) :
    Sworn h' ∧ ∀ e ∈ es, Bars (entries h'.journal) h' e := by
  have hnone : ∀ h : Host V, ∀ e ∈ ([] : List (Envelope V)), Bars (entries h.journal) h e :=
    fun h e he => absurd he List.not_mem_nil
  cases hc with
  | @operated n op hnode hpending _ hserves =>
      obtain ⟨-, hdone⟩ := hr.begins hnet hnode hpending hserves
      have hlog : h.log = entries h.journal := by simp [Host.log, hpending]
      have hground : Grounded (entries h.journal) n.ledger := hlog ▸ hs.grounded n hnode
      have hstart : Grounded ((St.start n).log h.journal) n.ledger := by
        simpa [St.log, St.start] using hground
      refine ⟨⟨fun n' hn' => ?_, fun e he ballot anchor through first last reported more hmsg s
        hfirst hlast => ?_⟩, hnone _⟩
      · cases hn'
        exact hdone.grounded (σ := St.start n) hstart
      · rcases hdone.manifest hground he hmsg hfirst hlast with h0 | hp | hle
        · exact Or.inl h0
        · exact Or.inr (Or.inl hp)
        · refine Or.inr (Or.inr ⟨hle.trans (hr.works n hnode).floor, fun n' hn' => ?_⟩)
          cases hn'
          exact hle.trans (memoryFloor_of_static hdone.static).ge
  | @adjusted n op hnode hop =>
      have hfloor : n.memoryFloor ≤ (operate d.params n op).node.memoryFloor := by
        rcases hop with ⟨through, -, rfl⟩ | ⟨enabled, rfl⟩
        · exact (nodeAdvanceMemoryFloor_hosted n through).floor
        · exact (nodeSetCampaignEnabled_hosted n enabled).floor
      have hledger : (operate d.params n op).node.ledger = n.ledger := by
        rcases hop with ⟨through, -, rfl⟩ | ⟨enabled, rfl⟩
        · show (nodeAdvanceMemoryFloor n through).1.ledger = n.ledger
          unfold nodeAdvanceMemoryFloor
          split_ifs <;> rfl
        · rfl
      refine ⟨⟨fun n' hn' => ?_, fun e he ballot anchor through first last reported more hmsg s
        hfirst hlast => ?_⟩, hnone _⟩
      · cases hn'
        rw [hledger]
        exact hs.grounded n hnode
      · refine (hs.outbox e he ballot anchor through first last reported more hmsg s hfirst
          hlast).mono (fun _ he => he) le_rfl fun n' hn' => Or.inr ⟨n, hnode, ?_⟩
        cases hn'
        exact hfloor
  | @persisted w rest hpending =>
      have hlog : Host.log { h with journal := h.journal ++ [w], pending := rest } = h.log := by
        simp [Host.log, hpending]
      refine ⟨⟨fun n hn => ?_, fun e he => ?_⟩, hnone _⟩
      · rw [hlog]
        exact hs.grounded n hn
      · rw [hlog]
        exact hs.outbox e he
  | @sent e rest hpending houtbox =>
      refine ⟨⟨hs.grounded, fun e' he' => hs.outbox e' (by simp [houtbox, he'])⟩, fun e' he' => ?_⟩
      obtain rfl := List.mem_singleton.mp he'
      have hbars := hs.outbox e' (by simp [houtbox])
      have hlog : h.log = entries h.journal := by simp [Host.log, hpending]
      rw [hlog] at hbars
      exact hbars
  | @hastened e he hpre =>
      refine ⟨hs, fun e' he' ballot anchor through first last reported more hmsg => ?_⟩
      obtain rfl := List.mem_singleton.mp he'
      simp [Envelope.isPreDurable, hmsg] at hpre
  | @served entry peer =>
      refine ⟨hs, fun e' he' ballot anchor through first last reported more hmsg => ?_⟩
      obtain rfl := List.mem_singleton.mp he'
      cases hmsg
  | applied => exact ⟨⟨hs.grounded, hs.outbox⟩, hnone _⟩
  | consumed hnode hle =>
      refine ⟨⟨hs.grounded, fun e he ballot anchor through first last reported more hmsg s hfirst
        hlast => ?_⟩, hnone _⟩
      exact (hs.outbox e he ballot anchor through first last reported more hmsg s hfirst
          hlast).mono (fun _ he => he) hle fun n' hn' => Or.inr ⟨n', hn', le_rfl⟩
  | crashed =>
      exact ⟨⟨fun n hn => (by cases hn), fun e he => absurd he List.not_mem_nil⟩, hnone _⟩
  | restarted _ hrestart =>
      unfold Host.restarted at hrestart
      split at hrestart
      swap
      · cases hrestart
      next l hreplay =>
      split at hrestart
      swap
      · cases hrestart
      next n hn =>
      cases hrestart
      refine ⟨⟨fun n' hn' => ?_, fun e he => absurd he List.not_mem_nil⟩, hnone _⟩
      cases hn'
      simp only [Host.log, List.append_nil]
      exact nodeRestore_grounded (replay_grounded hreplay) hn

/-- A host hands its own envelopes to the network. -/
theorem Change.sender (hr : Recorded d id h) (hc : Change d net id h asked h' es) :
    ∀ e ∈ es, e.sender = id := by
  cases hc with
  | @sent e rest _ houtbox =>
      intro e' he'
      obtain rfl := List.mem_singleton.mp he'
      exact (hr.outbox e' (by simp [houtbox])).1
  | hastened he =>
      intro e' he'
      obtain rfl := List.mem_singleton.mp he'
      exact (hr.outbox e' he).1
  | served =>
      intro e' he'
      obtain rfl := List.mem_singleton.mp he'
      rfl
  | _ => exact fun e' he' => absurd he' List.not_mem_nil

end Hosts

/-! ## Runs -/

section Runs

variable [DecidableEq V] [Inhabited V] {d : Deployment} {ok : Cluster V → Action V → Prop}
  {c c' : Cluster V} {id : Nat}

/-- In every run the hosts are bound, and every manifest that left its host bars its chunk. -/
theorem Cluster.Reaches.sworn (h : Cluster.Reaches d ok c) : (∀ id, Sworn (c.hosts id)) ∧
    ∀ e ∈ c.net, Bars (entries (c.hosts e.sender).journal) (c.hosts e.sender) e := by
  refine h.invariant (motive := fun c => (∀ id, Sworn (c.hosts id)) ∧
    ∀ e ∈ c.net, Bars (entries (c.hosts e.sender).journal) (c.hosts e.sender) e)
    ⟨fun id => ⟨fun n hn => ?_, fun e he => absurd he List.not_mem_nil⟩,
      fun e he => absurd he List.not_mem_nil⟩ ?_
  · have hledger : n.ledger = Ledger.empty := by
      have hinit : (nodeInit id d.membership (d.optionsFor (d.options id)) :
          Except Error (Node V)).toOption = some n := hn
      unfold nodeInit at hinit
      split at hinit
      · cases hinit
      · cases hinit
        rfl
    rw [hledger]
    exact Grounded.empty _
  · rintro c c' a hc ⟨hsworn, hanswers⟩ - hstep
    obtain ⟨hr, hnet⟩ := hc.recorded
    obtain ⟨id, h', es, hchange, hhosts, hes⟩ := Cluster.step_change hstep
    obtain ⟨hnew, hsent⟩ := hchange.sworn (hr id) hnet (hsworn id)
    constructor
    · intro other
      rw [hhosts]
      by_cases hother : other = id
      · subst hother
        rw [Function.update_self]
        exact hnew
      · rw [Function.update_of_ne hother]
        exact hsworn other
    · intro e he
      rw [hes] at he
      rcases List.mem_append.mp he with he | he
      · rw [hhosts]
        by_cases hother : e.sender = id
        · rw [hother, Function.update_self]
          intro ballot anchor through first last reported more hmsg s hfirst hlast
          have hold := hanswers e he ballot anchor through first last reported more hmsg s hfirst
            hlast
          rw [hother] at hold
          exact hchange.barred (hr id) hnet hold
        · rw [Function.update_of_ne hother]
          exact hanswers e he
      · rw [hhosts, hchange.sender (hr id) e he, Function.update_self]
        exact hsent e he

/-- The states that a cluster may get to from `c`. -/
def Cluster.Follows (d : Deployment) : Cluster V → Cluster V → Prop :=
  Relation.ReflTransGen fun c c' => ∃ a, c.step d a = some c'

/-- A run may go on with any step. -/
theorem Cluster.Reaches.follows (h : Cluster.Reaches d ok c) (hf : Cluster.Follows d c c') :
    Cluster.Reaches d (fun _ _ => True) c' := by
  induction hf with
  | refl => exact h.weaken fun _ _ _ _ => trivial
  | tail _ hstep ih =>
      obtain ⟨a, hstep⟩ := hstep
      exact ih.step trivial hstep

/-- A list of actions leads to a state that follows. -/
theorem Cluster.Follows.of_run {actions : List (Action V)} (h : c.run d actions = some c') :
    Cluster.Follows d c c' := by
  induction actions generalizing c with
  | nil =>
      cases h
      exact .refl
  | cons a actions ih =>
      obtain ⟨c₁, hstep, hrest⟩ := Option.bind_eq_some_iff.mp h
      exact (ih hrest).head ⟨a, hstep⟩

/-- A member that is barred from a vote never casts it. -/
theorem Cluster.Reaches.closed (h : Cluster.Reaches d ok c) {slot ballot : Nat}
    (hb : Barred (entries (c.hosts id).journal) (c.hosts id) slot ballot)
    (hf : Cluster.Follows d c c') :
    Barred (entries (c'.hosts id).journal) (c'.hosts id) slot ballot ∧
      ∀ b v, b < ballot → .vote b slot v ∈ (c'.hosts id).log →
        .vote b slot v ∈ (c.hosts id).log := by
  induction hf with
  | refl => exact ⟨hb, fun b v _ hv => hv⟩
  | @tail c₁ c₂ hf₁ hstep ih =>
      obtain ⟨hbarred, hvotes⟩ := ih
      obtain ⟨a, hstep⟩ := hstep
      obtain ⟨hr, hnet⟩ := (h.follows hf₁).recorded
      obtain ⟨other, h', es, hchange, hhosts, -⟩ := Cluster.step_change hstep
      rw [hhosts]
      by_cases hother : id = other
      swap
      · rw [Function.update_of_ne hother]
        exact ⟨hbarred, hvotes⟩
      subst hother
      rw [Function.update_self]
      refine ⟨hchange.barred (hr id) hnet hbarred, fun b v hlt hv => ?_⟩
      rcases hchange.log.2 with heq | heq | ⟨n, op, hn, hpending, hserves, -, heq⟩
      · exact hvotes b v hlt (heq ▸ hv)
      · exact hvotes b v hlt (Host.journal_subset_log _ (heq ▸ hv))
      rw [heq] at hv
      rcases mem_log_iff.mp hv with hv | hv
      · exact hvotes b v hlt (Host.journal_subset_log _ hv)
      -- a new vote respects the durable records and the floor
      obtain ⟨hstart, hdone⟩ := (hr id).begins hnet hn hpending hserves
      have hlawful := (hdone.transit hstart).steady.sound.obeys.lawful
      unfold St.log at hlawful
      rw [entries_append] at hlawful
      rcases hbarred with h0 | hp | ⟨-, hfloor⟩
      · omega
      · exact absurd (hp.le hlawful (vote_mem_entries.mpr hv)) (by omega)
      · rcases Moment.vote_live hdone.moments hv with hnone | hlive
        · cases hnone
        · exact absurd (hfloor n hn) (by simpa [St.start] using hlive)

/-- What a host does to its node keeps the promises of live slots and the decisions. -/
theorem Change.keeps_word {h h' : Host V} {net es : List (Envelope V)}
    {asked : Option (Operation V)} (hr : Recorded d id h)
    (hnet : ∀ e ∈ net, e.Authentic d.ownership) (hc : Change d net id h asked h' es)
    {n n' : Node V} (hn : h.node = some n) (hn' : h'.node = some n') :
    (∀ slot, n'.memoryFloor < slot →
      governing d.params n.ledger slot ≤ governing d.params n'.ledger slot) ∧
    ∀ i, (n.ledger.cells i).state = .chosen →
      (n'.ledger.cells i).slot = (n.ledger.cells i).slot →
        (n'.ledger.cells i).state = .chosen ∧
          (n'.ledger.cells i).value = (n.ledger.cells i).value := by
  have hsame : n'.ledger = n.ledger → (∀ slot, n'.memoryFloor < slot →
      governing d.params n.ledger slot ≤ governing d.params n'.ledger slot) ∧
    ∀ i, (n.ledger.cells i).state = .chosen →
      (n'.ledger.cells i).slot = (n.ledger.cells i).slot →
        (n'.ledger.cells i).state = .chosen ∧
          (n'.ledger.cells i).value = (n.ledger.cells i).value := by
    intro heq
    rw [heq]
    exact ⟨fun _ _ => le_rfl, fun _ hchosen _ => ⟨hchosen, rfl⟩⟩
  have hidle : h'.node = h.node → n'.ledger = n.ledger := by
    intro heq
    rw [heq, hn] at hn'
    cases hn'
    rfl
  cases hc with
  | @operated n₁ op hnode hpending _ hserves =>
      cases hn.symm.trans hnode
      cases hn'
      obtain ⟨-, hdone⟩ := hr.begins hnet hnode hpending hserves
      refine ⟨fun slot hlive => Moment.governing_mono hdone.moments ?_,
        fun i hchosen hslot => hdone.decided (σ := St.start n) hchosen hslot⟩
      have hfloor : (operate d.params n op).node.memoryFloor = n.memoryFloor :=
        memoryFloor_of_static hdone.static
      rw [hfloor] at hlive
      exact hlive
  | @adjusted n₁ op hnode hop =>
      cases hn.symm.trans hnode
      cases hn'
      refine hsame ?_
      rcases hop with ⟨through, -, rfl⟩ | ⟨enabled, rfl⟩
      · show (nodeAdvanceMemoryFloor n through).1.ledger = n.ledger
        unfold nodeAdvanceMemoryFloor
        split_ifs <;> rfl
      · rfl
  | crashed => cases hn'
  | restarted hdown => cases hdown.symm.trans hn
  | _ => exact hsame (hidle rfl)

/-- The acceptor law.  In every run, for every member: the promise that governs a slot above the
floor never sinks and a decided cell keeps its decision; within a transition, every vote is cast at
no less than the promise that governs its slot at that moment; the votes for a slot climb over all
incarnations; and after an answer to a Prepare no vote for its chunk undercuts the ballot. -/
theorem acceptor_law (h : Cluster.Reaches d ok c) (id : Nat) :
    (∀ a c' n n', c.step d a = some c' → (c.hosts id).node = some n →
      (c'.hosts id).node = some n' →
        (∀ slot, n'.memoryFloor < slot →
          governing d.params n.ledger slot ≤ governing d.params n'.ledger slot) ∧
        ∀ i, (n.ledger.cells i).state = .chosen →
          (n'.ledger.cells i).slot = (n.ledger.cells i).slot →
            (n'.ledger.cells i).state = .chosen ∧
              (n'.ledger.cells i).value = (n.ledger.cells i).value) ∧
    (∀ n op, (c.hosts id).ready = some n → Serves c.net id op →
      Relation.ReflTransGen (Moment d.params) (St.start n) (operate d.params n op)) ∧
    Synod.Lawful (c.hosts id).log ∧
    ∀ e, (e ∈ c.net ∨ (e ∈ (c.hosts id).outbox ∧ (c.hosts id).pending = [])) → e.sender = id →
      ∀ ballot anchor through first last reported more,
        e.message = .promiseRange ballot anchor through first last reported more →
          ∀ c', Cluster.Follows d c c' → ∀ b slot v, first ≤ slot → slot ≤ last → b < ballot →
            .vote b slot v ∈ (c'.hosts id).log → .vote b slot v ∈ (c.hosts id).log := by
  obtain ⟨hr, hnet⟩ := h.recorded
  obtain ⟨hsworn, hanswers⟩ := h.sworn
  refine ⟨fun a c' n n' hstep hn hn' => ?_, fun n op hready hserves => ?_, (hr id).lawful,
    fun e he hsender ballot anchor through first last reported more hmsg c' hf b slot v hfirst
      hlast hlt hv => ?_⟩
  · obtain ⟨other, h', es, hchange, hhosts, -⟩ := Cluster.step_change hstep
    rw [hhosts] at hn'
    by_cases hother : id = other
    · subst hother
      rw [Function.update_self] at hn'
      exact hchange.keeps_word (hr id) hnet hn hn'
    · rw [Function.update_of_ne hother] at hn'
      cases hn.symm.trans hn'
      exact ⟨fun _ _ => le_rfl, fun _ hchosen _ => ⟨hchosen, rfl⟩⟩
  · obtain ⟨hnode, hpending, -⟩ := Host.ready_eq_some hready
    exact ((hr id).begins hnet hnode hpending hserves).2.moments
  · have hbars : Bars (entries (c.hosts id).journal) (c.hosts id) e := by
      rcases he with he | ⟨he, hpending⟩
      · exact hsender ▸ hanswers e he
      · have hlog : (c.hosts id).log = entries (c.hosts id).journal := by
          simp [Host.log, hpending]
        exact hlog ▸ (hsworn id).outbox e he
    exact (h.closed (hbars ballot anchor through first last reported more hmsg slot hfirst hlast)
      hf).2 b v hlt hv

end Runs

/-- Member 2 of the trio answers the Prepare of member 1 and later votes for its Accept; in the
chunk that it described it holds no vote below the ballot. -/
theorem acceptor_law_trio :
    ∃ c c' : Cluster Nat, Cluster.Reaches trioDeployment (fun _ _ => True) c ∧
      Cluster.Follows trioDeployment c c' ∧
        (c'.hosts 2).journal = [.promise (ballotMake 1 0 1), .vote (ballotMake 1 0 1) 1 5] ∧
          ∀ b v, b < ballotMake 1 0 1 → .vote b 1 v ∈ (c'.hosts 2).log →
            .vote b 1 v ∈ (c.hosts 2).log := by
  have hrun : ((Cluster.initial trioDeployment).run trioDeployment trioElection).map
      (·.net[4]?) = some (some ⟨2, 1, .promiseRange (ballotMake 1 0 1) {} 0 1 1 0 false⟩) := by
    decide +kernel
  obtain ⟨c, hc, hnet⟩ := Option.map_eq_some_iff.mp hrun
  have hlater : (((Cluster.initial trioDeployment).run trioDeployment trioElection).bind
      fun c => c.run trioDeployment
        [.call 1 (.propose 5), .sendPreDurable 1 0, .deliver 5, .persist 2]).map
          (fun c => (c.hosts 2).journal) =
      some [.promise (ballotMake 1 0 1), .vote (ballotMake 1 0 1) 1 5] := by
    decide +kernel
  rw [hc, Option.bind_some] at hlater
  obtain ⟨c', hc', hjournal⟩ := Option.map_eq_some_iff.mp hlater
  have hreach := Cluster.Reaches.initial.of_run hc
  have hfollows := Cluster.Follows.of_run hc'
  exact ⟨c, c', hreach, hfollows, hjournal, fun b v hlt hv =>
    (acceptor_law hreach 2).2.2.2 _ (Or.inl (List.mem_of_getElem? hnet)) rfl _ _ _ _ _ _ _ rfl c'
      hfollows b 1 v le_rfl le_rfl hlt hv⟩

end PaxosOdin
