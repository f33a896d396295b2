import PaxosOdin.Transition.Incarnation

/-!
# Suggestions and revocations as small steps

The loops of rotating ownership: the probe for the next own slot, suggestions, skips and
resubmissions, and the revocation of a stalled prefix.

Main results:

- Theorem `ownSlotProbe_spec`: a probe returns an own slot at or after its start.
- Theorem `proposeOwned_run`: a suggestion is a run of small steps.
- Theorem `startRevocation_run`: a revocation ends its transition, or claims a few cells.
- Theorem `tickOwnership_run`: so does the ownership side of a tick.
-/

namespace PaxosOdin

variable {V : Type} {P : Params} {I : Input V}

/-! ## Own slots -/

/-- The first own slot at or after `start` is own and not before `start`. -/
theorem ownSlotFrom_spec {n : Node V} (start : Nat) (hself : n.selfIndex < n.membership.members.length)
    (hsmall : n.membership.members.length ≤ maxSlot) (hstart : start ≤ maxSlot) :
    OwnAligned n (ownSlotFrom n start) ∧ start ≤ ownSlotFrom n start := by
  have hmod : ∀ k, (n.selfIndex + k * n.membership.members.length) % n.membership.members.length =
      n.selfIndex := fun k => by
    rw [Nat.add_mul_mod_self_right]
    exact Nat.mod_eq_of_lt hself
  unfold ownSlotFrom
  dsimp only
  by_cases hle : start ≤ n.selfIndex + 1
  · rw [if_pos hle]
    refine ⟨⟨by omega, Or.inr ⟨by omega, ?_⟩⟩, hle⟩
    rw [Nat.add_sub_cancel]
    exact Nat.mod_eq_of_lt hself
  rw [if_neg hle]
  have hdiv := Nat.div_add_mod (start - (n.selfIndex + 1)) n.membership.members.length
  have hlt := Nat.mod_lt (start - (n.selfIndex + 1)) (Nat.zero_lt_of_lt hself)
  generalize hq : (start - (n.selfIndex + 1)) / n.membership.members.length = q at hdiv
  generalize hr : (start - (n.selfIndex + 1)) % n.membership.members.length = r at hdiv hlt
  rw [Nat.mul_comm] at hdiv
  by_cases hzero : r = 0
  · rw [if_pos hzero]
    refine ⟨⟨hstart, Or.inr ⟨by omega, ?_⟩⟩, le_rfl⟩
    have : start - 1 = n.selfIndex + q * n.membership.members.length := by omega
    rw [this]
    exact hmod q
  rw [if_neg hzero]
  have hge := le_slotAdd start (n.membership.members.length - r)
  refine ⟨?_, hge⟩
  unfold OwnAligned slotAdd
  by_cases hroom : n.membership.members.length - r ≤ maxSlot - start
  · rw [Nat.min_eq_left hroom]
    refine ⟨by omega, Or.inr ⟨by omega, ?_⟩⟩
    have hnext : (q + 1) * n.membership.members.length =
        q * n.membership.members.length + n.membership.members.length := by
      rw [Nat.add_mul, Nat.one_mul]
    have : start + (n.membership.members.length - r) - 1 =
        n.selfIndex + (q + 1) * n.membership.members.length := by omega
    rw [this]
    exact hmod (q + 1)
  · rw [Nat.min_eq_right (by omega)]
    exact ⟨by omega, Or.inl (by omega)⟩

/-- A member knows its place in the membership. -/
theorem Opened.selfIndex_lt {n : Node V} (h : Opened P n) (hv : n.votingMember = true) :
    n.selfIndex < n.membership.members.length := by
  by_contra hge
  have hmember := h.member hv
  rw [List.getElem?_eq_none (by omega)] at hmember
  cases hmember

/-- An own slot belongs to this member. -/
theorem OwnAligned.owner {n : Node V} {slot : Nat} (ho : Opened P n) (hv : n.votingMember = true)
    (h : OwnAligned n slot) (hmax : slot ≠ maxSlot) : ownerOf n slot = n.id := by
  rcases h.2 with heq | ⟨hpos, hmod⟩
  · exact absurd heq hmax
  · rw [ownerOf, slotSub_of_le hpos, hmod]
    simp [membershipGet, List.getD_eq_getElem?_getD, ho.member hv]

/-- The slot a probe returns is own, not before its start and not the last slot of all. -/
theorem ownSlotProbeLoop_spec {n : Node V} (hself : n.selfIndex < n.membership.members.length)
    (hsmall : n.membership.members.length ≤ maxSlot) {fuel : Nat} :
    ∀ {start slot : Nat}, OwnAligned n start → ownSlotProbeLoop P n fuel start = .ok slot →
      OwnAligned n slot ∧ start ≤ slot ∧ slot ≠ maxSlot := by
  induction fuel with
  | zero => intro start slot _ h; cases h
  | succ fuel ih =>
      intro start slot haligned h
      have hnext : start ≠ maxSlot → OwnAligned n (ownSlotFrom n (start + 1)) ∧
          start + 1 ≤ ownSlotFrom n (start + 1) := fun hmax =>
        ownSlotFrom_spec _ hself hsmall (by have := haligned.1; omega)
      have hskip : start ≠ maxSlot → ownSlotProbeLoop P n fuel (ownSlotFrom n (start + 1)) = .ok slot →
          OwnAligned n slot ∧ start ≤ slot ∧ slot ≠ maxSlot := fun hmax hrest => by
        obtain ⟨ha, hle, hne⟩ := ih (hnext hmax).1 hrest
        exact ⟨ha, by have := (hnext hmax).2; omega, hne⟩
      simp only [ownSlotProbeLoop] at h
      split_ifs at h with hmax hfull hheld hopen hfree hquiet
      · cases h
        exact ⟨haligned, le_rfl, hmax⟩
      · exact hskip hmax h
      · cases h
        exact ⟨haligned, le_rfl, hmax⟩
      · exact hskip hmax h

/-- The slot a probe returns is own, not before its start and not the last slot of all. -/
theorem ownSlotProbe_spec {n : Node V} (ho : Opened P n) (hv : n.votingMember = true)
    {start slot : Nat} (haligned : OwnAligned n start) (h : ownSlotProbe P n start = .ok slot) :
    OwnAligned n slot ∧ start ≤ slot ∧ slot ≠ maxSlot := by
  unfold ownSlotProbe at h
  have hself := ho.selfIndex_lt hv
  split_ifs at h with hmax hlow
  · have hfloor := ho.floor.trans ho.last
    obtain ⟨ha, hle⟩ := ownSlotFrom_spec (n.memoryFloor + 1) hself ho.small (by omega)
    obtain ⟨ha', hle', hne⟩ := ownSlotProbeLoop_spec hself ho.small ha h
    exact ⟨ha', by omega, hne⟩
  · exact ownSlotProbeLoop_spec hself ho.small haligned h

section Proposals

variable [DecidableEq V]

/-- A suggestion that fails leaves the queue of suggestions as it was. -/
theorem sendAccept_resubmit {σ : St V} (slot ballot : Nat) (value : V)
    (h : (sendAccept P σ slot ballot value).2 ≠ .none) :
    (sendAccept P σ slot ballot value).1.node.resubmit = σ.node.resubmit := by
  unfold sendAccept at h ⊢
  rcases hclaim : claimLive P σ.node slot with ⟨n, _ | cell⟩
  · rfl
  have hc := claimLive_some hclaim
  have hcell := hc.cell_eq
  subst hcell
  have hn : n.resubmit = σ.node.resubmit := by rw [hc.ledger_only]
  rw [hclaim] at h
  dsimp only at h ⊢
  by_cases hchosen : (n.ledger.cells (cellOf slot P.W)).state = .chosen
  · rw [if_pos hchosen] at h
    exact absurd rfl h
  rw [if_neg hchosen] at h ⊢
  split_ifs at h ⊢ with hconflict hpromise
  · exact hn
  · exact hn
  · have hfloor : n.memoryFloor = σ.node.memoryFloor := congrArg Fixed.memoryFloor hc.fixed
    have hfresh := FreshVote.ofVote (P := P) (σ := { σ with node := n }) ballot value
      (by rw [hfloor]; exact hc.live) (by rw [hfloor]; exact hc.window) hc.held
    exact absurd (announceProposal_ok hfresh) h

/-- What an owner needs to suggest `value`. -/
structure Suggesting (P : Params) (I : Input V) (σ : St V) (value : V) : Prop where
  opened : Opened P σ.node
  voter : σ.node.votingMember = true
  mode : σ.node.ownership = true
  source : value ∈ I.values ∨ value ∈ I.noops ∨ value ∈ σ.node.resubmit

/-- The loop of `propose_owned` is a run of small steps. -/
theorem proposeOwnedLoop_run {value : V} {fuel : Nat} :
    ∀ {σ : St V}, Suggesting P I σ value → Run P I σ (proposeOwnedLoop P value fuel σ).1 := by
  induction fuel with
  | zero => exact fun _ => Run.refl _
  | succ fuel ih =>
      intro σ hs
      have haligned := hs.opened.aligned hs.voter hs.mode
      simp only [proposeOwnedLoop]
      unfold nextUsableOwnSlot
      rcases hprobe : ownSlotProbe P σ.node σ.node.ownNext with e | slot
      · exact Run.refl σ
      obtain ⟨ha, hle, hmax⟩ := ownSlotProbe_spec hs.opened hs.voter haligned hprobe
      dsimp only
      -- the probe moves `own_next` up to the slot it found
      have hidle : Run P I σ (σ.bump slot) := Run.single (Micro.idle (σ := σ) (Or.inl rfl) le_rfl
        le_rfl (Or.inl rfl) (Or.inr ⟨hle, ha⟩) fun _ h => h)
      have hopened : Opened P (σ.bump slot).node := hidle.opened hs.opened
      have hself := hopened.selfIndex_lt hs.voter
      obtain ⟨hnextAligned, hnextLe⟩ := ownSlotFrom_spec (slot + 1) hself hopened.small
        (by have := ha.1; omega)
      obtain ⟨hok, hfail, hfixed⟩ := sendAccept_own (P := P) (I := I) (σ := σ.bump slot)
        value hs.mode hs.source (OwnAligned.owner hopened hs.voter ha hmax)
        le_rfl (Nat.lt_of_lt_of_le (Nat.lt_succ_self slot) hnextLe) hnextAligned
      have hresubmit := sendAccept_resubmit (P := P) (σ := σ.bump slot) slot
        (ownershipBallot σ.node.id) value
      have hnextEq : ∀ n' : Node V, n'.fixed = (σ.bump slot).node.fixed →
          ownSlotFrom n' (slot + 1) = ownSlotFrom (σ.bump slot).node (slot + 1) := fun n' h => by
        have h1 : n'.membership = (σ.bump slot).node.membership := congrArg Fixed.membership h
        have h2 : n'.selfIndex = (σ.bump slot).node.selfIndex := congrArg Fixed.selfIndex h
        simp only [ownSlotFrom, h1, h2]
      rcases hsend : sendAccept P { σ with node := { σ.node with ownNext := slot } } slot
        (ownershipBallot σ.node.id) value with ⟨τ, e⟩
      change sendAccept P (σ.bump slot) slot (ownershipBallot (σ.bump slot).node.id) value = _ at hsend
      rw [hsend] at hok hfail hfixed
      change sendAccept P (σ.bump slot) slot (ownershipBallot σ.node.id) value = _ at hsend
      rw [hsend] at hresubmit
      dsimp only at hok hfail hfixed hresubmit
      have hτnext := hnextEq τ.node hfixed
      cases e with
      | none =>
          dsimp only
          rw [hτnext]
          refine hidle.trans ((hok rfl).trans (Run.single (Micro.idle (σ := τ.bump _) (Or.inl rfl)
            le_rfl (le_max_left _ _) (Or.inl rfl) (Or.inl rfl) fun _ h => h)))
      | notLeader =>
          dsimp only
          have hrun := hidle.trans (hfail (by simp)).run
          have hτopened := hrun.opened hs.opened
          have hstatic := static_of_fixed hfixed
          have hstep : Run P I τ (τ.bump (ownSlotFrom τ.node (slot + 1))) := by
            refine Run.single (Micro.idle (σ := τ) (Or.inl rfl) le_rfl le_rfl (Or.inl rfl)
              (Or.inr ⟨?_, ?_⟩) fun _ h => h)
            · have : τ.node.ownNext = slot := congrArg Fixed.ownNext hfixed
              rw [hτnext]
              omega
            · rw [hτnext]
              exact hnextAligned.congr hstatic
          refine (hrun.trans hstep).trans (ih ⟨hstep.opened hτopened, ?_, ?_, ?_⟩)
          · exact (congrArg Static.votingMember hstatic).trans hs.voter
          · exact (congrArg Static.ownership hstatic).trans hs.mode
          · show _ ∨ _ ∨ value ∈ τ.node.resubmit
            rw [hresubmit (by simp)]
            exact hs.source
      | _ => exact hidle.trans (hfail (by simp)).run

/-- A suggestion is a run of small steps. -/
theorem proposeOwned_run {σ : St V} {value : V} (hs : Suggesting P I σ value) :
    Run P I σ (proposeOwned P σ value).1 :=
  proposeOwnedLoop_run hs

theorem Suggesting.after {σ σ' : St V} {value : V} (hs : Suggesting P I σ value)
    (hrun : Run P I σ σ')
    (hsource : value ∈ I.values ∨ value ∈ I.noops ∨ value ∈ σ'.node.resubmit) :
    Suggesting P I σ' value := by
  have hstatic := hrun.static
  exact ⟨hrun.opened hs.opened, (congrArg Static.votingMember hstatic).trans hs.voter,
    (congrArg Static.ownership hstatic).trans hs.mode, hsource⟩

/-- Skips are a run of small steps. -/
theorem skipLoop_run {noop : V} {fuel : Nat} :
    ∀ {σ : St V} {sent : Nat}, Suggesting P I σ noop → noop ∈ I.noops →
      Run P I σ (skipLoop P noop fuel σ sent).1 := by
  induction fuel with
  | zero => exact fun _ _ => Run.refl _
  | succ fuel ih =>
      intro σ sent hs hnoop
      simp only [skipLoop]
      by_cases hidle : σ.node.ownNext ≤ σ.node.highestSeen
      · rw [if_pos hidle]
        have hrun := proposeOwned_run hs
        rcases hpropose : proposeOwned P σ noop with ⟨τ, slot, e⟩
        rw [hpropose] at hrun
        cases e with
        | none => exact hrun.trans (ih (hs.after hrun (Or.inr (Or.inl hnoop))) hnoop)
        | _ => exact hrun
      · rw [if_neg hidle]
        exact Run.refl σ

/-- Resubmissions are a run of small steps. -/
theorem drainLoop_run {fuel : Nat} :
    ∀ {σ : St V} {sent : Nat}, Opened P σ.node → σ.node.votingMember = true →
      σ.node.ownership = true → Run P I σ (drainLoop P fuel σ sent).1 := by
  induction fuel with
  | zero => exact fun _ _ _ => Run.refl _
  | succ fuel ih =>
      intro σ sent ho hv hmode
      simp only [drainLoop]
      rcases hqueue : σ.node.resubmit with _ | ⟨value, rest⟩
      · exact Run.refl σ
      dsimp only
      have hs : Suggesting P I σ value := ⟨ho, hv, hmode, Or.inr (Or.inr (by simp [hqueue]))⟩
      have hrun := proposeOwned_run hs
      rcases hpropose : proposeOwned P σ value with ⟨τ, slot, e⟩
      rw [hpropose] at hrun
      cases e with
      | none =>
          dsimp only
          have hpop : Run P I τ { τ with node := { τ.node with resubmit := τ.node.resubmit.tail } } :=
            Run.single (Micro.idle (σ := τ) (Or.inl rfl) le_rfl le_rfl (Or.inl rfl) (Or.inl rfl)
              fun _ h => List.mem_of_mem_tail h)
          have hboth := hrun.trans hpop
          have hstatic := hboth.static
          exact hboth.trans (ih (hboth.opened ho) ((congrArg Static.votingMember hstatic).trans hv)
            ((congrArg Static.ownership hstatic).trans hmode))
      | _ => exact hrun

end Proposals

/-! ## Rounds -/

/-- The greatest ballot of a ledger bounds every ballot recorded in it. -/
theorem ledgerHighestBallot_ge (l : Ledger V) :
    l.promised ≤ ledgerHighestBallot P l ∧
      ∀ cell < P.W, (l.cells cell).promisedAt ≤ ledgerHighestBallot P l ∧
        (l.cells cell).voteBallot ≤ ledgerHighestBallot P l := by
  have hfold : ∀ (is : List Nat) (start : Nat),
      start ≤ is.foldl (fun highest cell =>
        max highest (max (l.cells cell).promisedAt (l.cells cell).voteBallot)) start ∧
      ∀ cell ∈ is, max (l.cells cell).promisedAt (l.cells cell).voteBallot ≤
        is.foldl (fun highest cell =>
          max highest (max (l.cells cell).promisedAt (l.cells cell).voteBallot)) start := by
    intro is
    induction is with
    | nil => exact fun start => ⟨le_rfl, fun _ h => (by cases h)⟩
    | cons i is ih =>
        intro start
        rw [List.foldl_cons]
        obtain ⟨hstart, hall⟩ := ih (max start (max (l.cells i).promisedAt (l.cells i).voteBallot))
        refine ⟨(le_max_left _ _).trans hstart, fun cell hcell => ?_⟩
        rcases List.mem_cons.mp hcell with rfl | hcell
        · exact (le_max_right _ _).trans hstart
        · exact hall cell hcell
  obtain ⟨hstart, hall⟩ := hfold (List.range P.W) l.promised
  refine ⟨hstart, fun cell hcell => ?_⟩
  have hmax := hall cell (List.mem_range.mpr hcell)
  exact ⟨(le_max_left _ _).trans hmax, (le_max_right _ _).trans hmax⟩

/-- The round of a new campaign is above every round the node knows of. -/
structure FreshRound (P : Params) (n : Node V) (round : Nat) : Prop where
  le_max : round ≤ maxRound
  current : ballotRound n.ballot < round
  promised : ballotRound n.ledger.promised < round
  promises : ∀ cell < P.W, ballotRound (n.ledger.cells cell).promisedAt < round
  votes : ∀ cell < P.W, ballotRound (n.ledger.cells cell).voteBallot < round

/-- The round of a new campaign is above every round the node knows of. -/
theorem nextRound_fresh {n : Node V} {round : Nat} (h : nextRound P n = some round) :
    FreshRound P n round := by
  unfold nextRound at h
  dsimp only at h
  split_ifs at h with hmax
  obtain rfl := Option.some.inj h
  obtain ⟨hpromised, hcells⟩ := ledgerHighestBallot_ge (P := P) n.ledger
  have hbelow : ∀ {b : Nat}, b ≤ ledgerHighestBallot P n.ledger →
      ballotRound b ≤ ballotRound (ledgerHighestBallot P n.ledger) := ballotRound_mono
  refine ⟨by omega, ?_, ?_, fun cell hcell => ?_, fun cell hcell => ?_⟩
  · omega
  · have := hbelow hpromised
    omega
  · have := hbelow (hcells cell hcell).1
    omega
  · have := hbelow (hcells cell hcell).2
    omega

/-- A ballot of a lower round is below a packed ballot. -/
theorem lt_ballotMake {b round priority node : Nat} (h : ballotRound b < round) :
    b < ballotMake round priority node := by
  unfold ballotRound at h
  unfold ballotMake
  omega

/-! ## Revocation -/

section Revocation

variable [DecidableEq V]

/-- A transition from `σ`, which began at node `n₀`, goes on to `σ'`: small steps, and at
most one step that ends it. -/
def Completes (P : Params) (I : Input V) (n₀ : Node V) (σ σ' : St V) : Prop :=
  ∃ τ, Run P I σ τ ∧ (σ' = τ ∨ Final P I n₀ τ σ')

theorem Run.completes {n₀ : Node V} {σ σ' : St V} (h : Run P I σ σ') :
    Completes P I n₀ σ σ' :=
  ⟨σ', h, Or.inl rfl⟩

theorem Completes.before {n₀ : Node V} {σ σ' σ'' : St V} (h : Completes P I n₀ σ' σ'')
    (hrun : Run P I σ σ') : Completes P I n₀ σ σ'' := by
  obtain ⟨τ, hτ, hlast⟩ := h
  exact ⟨τ, hrun.trans hτ, hlast⟩

omit [DecidableEq V] in
theorem revocationLast_le (n : Node V) (base : Nat) :
    revocationLast P n base ≤ base + (P.C - 1) :=
  (Nat.min_le_left _ _).trans (slotAdd_le_add _ _)

omit [DecidableEq V] in
/-- When the window ends before the stalled slot, the revocation fails closed. -/
theorem promiseBounded_empty {σ : St V} {ballot : Nat} (ho : Opened P σ.node)
    (hmax : σ.node.deliveredThrough ≠ maxSlot)
    (hempty : revocationLast P σ.node (σ.node.deliveredThrough + 1) < σ.node.deliveredThrough + 1) :
    promiseBounded P σ ballot (σ.node.deliveredThrough + 1)
      (revocationLast P σ.node (σ.node.deliveredThrough + 1)) = (σ, false) := by
  have hC := P.chunk_le
  have hlast := ho.last
  have hbase := le_slotAdd (σ.node.deliveredThrough + 1) (P.C - 1)
  have hwrap : slotSub (revocationLast P σ.node (σ.node.deliveredThrough + 1))
      (σ.node.deliveredThrough + 1) ≥ P.C := by
    rw [slotSub, if_neg (by omega)]
    unfold revocationLast slotAdd maxSlot at *
    omega
  unfold promiseBounded
  rw [if_pos hwrap]

/-- A revocation ends its transition, or leaves at most a few claimed cells. -/
theorem startRevocation_run {n₀ : Node V} {σ : St V} {noop : V} (hrun : Run P I (St.start n₀) σ)
    (ho : Opened P σ.node) (hmode : n₀.ownership = true) (hnoop : noop ∈ I.noops) :
    Completes P I n₀ σ (startRevocation P σ noop).1 := by
  unfold startRevocation
  dsimp only
  rcases hround : nextRound P σ.node with _ | round
  · exact (Run.refl σ).completes
  dsimp only
  have hfresh := nextRound_fresh hround
  by_cases hmax : σ.node.deliveredThrough = maxSlot
  · rw [if_pos hmax]
    exact (Run.refl σ).completes
  rw [if_neg hmax]
  have hfail : ∀ {τ : St V}, LearnRun P I σ τ →
      Completes P I n₀ σ { τ with node := { τ.node with stallTicks := 0 } } := fun {τ} hτ =>
    (hτ.run.trans (Run.single (Micro.idle (σ := τ) (Or.inl rfl) le_rfl le_rfl (Or.inl rfl)
      (Or.inl rfl) fun _ h => h))).completes
  by_cases hempty : revocationLast P σ.node (σ.node.deliveredThrough + 1) <
      σ.node.deliveredThrough + 1
  · rw [promiseBounded_empty ho hmax hempty]
    exact hfail (LearnRun.refl σ)
  obtain ⟨hfalse, htrue⟩ := promiseBounded_run (P := P) (I := I) (σ := σ)
    (ballotMake round σ.node.priority σ.node.id) (Nat.le_of_not_lt hempty)
    (Or.inl ((congrArg Static.ownership hrun.static).trans hmode))
  rcases hbounded : promiseBounded P σ (ballotMake round σ.node.priority σ.node.id)
    (σ.node.deliveredThrough + 1) (revocationLast P σ.node (σ.node.deliveredThrough + 1)) with ⟨τ, _ | _⟩
  · exact hfail (hfalse τ hbounded)
  have hb := htrue τ hbounded
  have hres := hb.reserved
  have hid : τ.node.id = σ.node.id := congrArg Fixed.id hres.fixed
  have hprio : τ.node.priority = σ.node.priority := congrArg Fixed.priority hres.fixed
  have hballot : τ.node.ballot = σ.node.ballot := congrArg Fixed.ballot hres.fixed
  have hdelivered : τ.node.deliveredThrough = σ.node.deliveredThrough := by rw [hres.ledger_only]
  have hpos : 0 < round := Nat.zero_lt_of_lt hfresh.current
  have hlow : ∀ {b : Nat}, ballotRound b < round →
      b ≤ ballotMake round σ.node.priority σ.node.id := fun h => (lt_ballotMake h).le
  have hfinal : Final P I n₀ τ
      (broadcastAll
        { τ with
          node := revocationNode τ.node (ballotMake round σ.node.priority σ.node.id)
            (τ.node.deliveredThrough + 1) (revocationLast P σ.node (σ.node.deliveredThrough + 1)) noop }
        (.prepare (ballotMake round σ.node.priority σ.node.id) (τ.node.deliveredThrough + 1)
          (revocationLast P σ.node (σ.node.deliveredThrough + 1)) .bounded)) :=
    Final.revoke hmode hnoop
    (by rw [hid, hprio]) hfresh.le_max (by rw [hballot]; exact hfresh.current)
    (by rw [hres.promised]; exact hfresh.promised)
    (fun cell hcell => by
      rcases hres.votes cell with h | h
      · rw [h]; exact hfresh.votes cell hcell
      · rw [h]; simpa [ballotRound] using hpos)
    (fun cell hcell => by
      rcases hres.promises cell with h | h | h
      · rw [h]; exact hlow (hfresh.promises cell hcell)
      · rw [h]; exact Nat.zero_le _
      · exact h.le)
    (fun s hlive hheld => by
      obtain ⟨-, hle⟩ := hrun.held (P := P) hheld hlive
      exact Nat.lt_of_le_of_lt (ballotRound_mono hle) (hfresh.promises _ (cellOf_lt P s)))
    (by rw [hdelivered]; exact hmax)
    (by
      have := revocationLast_le (P := P) σ.node (σ.node.deliveredThrough + 1)
      have hC := P.chunk_pos
      omega)
    (by
      have hlast := ho.last
      exact (Nat.min_le_left _ _).trans (slotAdd_le_maxSlot _ (by omega)))
    (by rw [hdelivered]; exact Nat.le_of_not_lt hempty)
    (fun s hfirst hlast hlive => hb.promised s (by rw [← hdelivered]; exact hfirst) hlast hlive)
  refine ⟨τ, hb.run, Or.inr ?_⟩
  dsimp only
  rw [hdelivered] at hfinal
  exact hfinal

/-- The quiet part of an ownership tick ends its transition or is a run. -/
theorem tickStalled_run {n₀ : Node V} {σ : St V} {noop : V} {proposed : Nat}
    (hrun : Run P I (St.start n₀) σ) (ho : Opened P n₀) (hmode : n₀.ownership = true)
    (hnoop : noop ∈ I.noops) : Completes P I n₀ σ (tickStalled P σ noop proposed).1 := by
  unfold tickStalled
  dsimp only
  generalize hresend : (if proposed = 0 ∧ σ.node.resendTicks ≥ σ.node.resendIntervalTicks then
    resendToPeers P { σ with node := { σ.node with resendTicks := 0 } } else σ) = τ
  have hτ : Run P I σ τ := by
    subst hresend
    split_ifs
    · exact (Run.single (Micro.idle (σ := σ) (Or.inl rfl) le_rfl le_rfl (Or.inl rfl) (Or.inl rfl)
        fun _ h => h)).trans (resendToPeers_run _).1
    · exact Run.refl σ
  have hstall : ∀ ticks, Run P I τ { τ with node := { τ.node with stallTicks := ticks } } :=
    fun ticks => Run.single (Micro.idle (σ := τ) (Or.inl rfl) le_rfl le_rfl (Or.inl rfl)
      (Or.inl rfl) fun _ h => h)
  split_ifs with hcurrent hrevoke hask howner
  · exact (hτ.trans (hstall 0)).completes
  · have hall := hrun.trans (hτ.trans (hstall (saturatingIncrement τ.node.stallTicks)))
    exact (startRevocation_run hall (hall.opened ho) hmode hnoop).before (hτ.trans (hstall _))
  · exact (hτ.trans ((hstall _).trans (requestLearn_run _ _).run)).completes
  · exact (hτ.trans (hstall _)).completes
  · exact (hτ.trans (hstall _)).completes

/-- The ownership side of a tick ends its transition or is a run. -/
theorem tickOwnership_run {n₀ : Node V} {σ : St V} {noop : V} (hrun : Run P I (St.start n₀) σ)
    (ho : Opened P n₀) (hv : n₀.votingMember = true) (hmode : n₀.ownership = true)
    (hnoop : noop ∈ I.noops) (honward : I.onward = true ∨ (σ.node.role = .preparing →
      σ.node.electionTicks < σ.node.electionTimeoutTicks → nextChunkState P σ = none)) : Completes P I n₀ σ (tickOwnership P σ noop).1 := by
  have hσ := hrun.opened ho
  unfold tickOwnership
  by_cases hrole : σ.node.role = .preparing
  · rw [if_pos hrole]
    split_ifs with hticks
    · have honward := honward.imp_right fun hquiet => hquiet hrole hticks
      exact (maybeResolveChunk_run hrole (hσ.chunk hrole).1 honward).completes
    · exact startRevocation_run hrun hσ hmode hnoop
  rw [if_neg hrole]
  have hstatic := hrun.static
  have hv' : σ.node.votingMember = true := (congrArg Static.votingMember hstatic).trans hv
  have hmode' : σ.node.ownership = true := (congrArg Static.ownership hstatic).trans hmode
  have hdrain : Run P I σ (drainResubmits P σ).1 := drainLoop_run hσ hv' hmode'
  rcases hd : drainResubmits P σ with ⟨τ, drained, e⟩
  rw [hd] at hdrain
  cases e with
  | none =>
      dsimp only
      have hs : Suggesting P I τ noop :=
        Suggesting.after ⟨hσ, hv', hmode', Or.inr (Or.inl hnoop)⟩ hdrain (Or.inr (Or.inl hnoop))
      have hskip : Run P I τ (skipIdleSlots P τ noop (P.C - drained)).1 := skipLoop_run hs hnoop
      rcases hk : skipIdleSlots P τ noop (P.C - drained) with ⟨ρ, skipped, e⟩
      rw [hk] at hskip
      cases e with
      | none =>
          exact (tickStalled_run (hrun.trans (hdrain.trans hskip)) ho hmode hnoop).before
            (hdrain.trans hskip)
      | _ => exact (hdrain.trans hskip).completes
  | _ => exact hdrain.completes

end Revocation

end PaxosOdin
