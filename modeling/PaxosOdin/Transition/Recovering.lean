import PaxosOdin.Transition.Proposing

/-!
# Phase one of the candidate as small steps

Gathering reports, freezing the selection, driving the chunk, and moving on to the next
chunk or to leadership.

Main definitions:

- Definition `frozenState`: the state in which `maybe_resolve_chunk` drives the chunk.
- Definition `nextChunkState`: the state in which it calls `begin_next_chunk`.

Main results:

- Theorem `Micro.settled`: a settled slot stays settled.
- Theorem `resolveLoop_run`: driving a chunk is a run that settles every slot it reaches.
- Theorem `maybeResolveChunk_run`: so is the whole resolution.
-/

namespace PaxosOdin

variable {V : Type} {P : Params} {I : Input V}

/-! ## Reports only grow -/

/-- Reports that grew leave fewer slots above them. -/
theorem AboveReports.of_le {n n' : Node V} {slot : Nat} (h : AboveReports n' slot)
    (hmembership : n'.membership = n.membership)
    (hanchor : n'.ledger.anchor = n.ledger.anchor)
    (hchosen : ∀ i < n.membership.members.length,
      (n.election i).chosenThrough ≤ (n'.election i).chosenThrough)
    (htrim : ∀ i < n.membership.members.length, (n.election i).anchor.chosenTrimSlot ≤
      (n'.election i).anchor.chosenTrimSlot) : AboveReports n slot := by
  refine ⟨by rw [← hanchor]; exact h.1, fun i hi => ?_⟩
  have hi' := h.2 i (by rw [hmembership]; exact hi)
  exact ⟨lt_of_le_of_lt (hchosen i hi) hi'.1, lt_of_le_of_lt (htrim i hi) hi'.2⟩

/-- A report leaves the membership alone. -/
theorem recordReport_membership [DecidableEq V] (n : Node V) (member cell slot vote : Nat)
    (state : CellState) (value : V) :
    (recordReport n member cell slot vote state value).1.membership = n.membership := by
  unfold recordReport
  dsimp only
  split_ifs <;> rfl

/-- A report leaves what a member said of its frontier alone. -/
theorem recordReport_frontiers [DecidableEq V] (n : Node V) (member cell slot vote : Nat)
    (state : CellState) (value : V) (i : Nat) :
    ((recordReport n member cell slot vote state value).1.election i).chosenThrough =
        (n.election i).chosenThrough ∧
      ((recordReport n member cell slot vote state value).1.election i).anchor =
        (n.election i).anchor := by
  unfold recordReport
  dsimp only
  split_ifs
  · exact ⟨rfl, rfl⟩
  · by_cases h : i = member
    · subst h; simp
    · simp [Function.update_of_ne h]

/-- A manifest only raises what its member said of its frontier. -/
theorem recordManifest_frontiers (n : Node V) (member : Nat) (anchor : TrimAnchor)
    (chosenThrough first last reported : Nat) (more : Bool) (i : Nat) :
    (n.election i).chosenThrough ≤
        ((recordManifest n member anchor chosenThrough first last reported more).election
          i).chosenThrough ∧
      (n.election i).anchor.chosenTrimSlot ≤
        ((recordManifest n member anchor chosenThrough first last reported more).election
          i).anchor.chosenTrimSlot := by
  unfold recordManifest
  dsimp only
  by_cases h : i = member
  · subst h
    simp only [Function.update_self]
    split_ifs <;> simp <;> omega
  · simp [Function.update_of_ne h]

/-- Asking for the next chunk keeps the frontiers. -/
theorem beginNextChunk_frontiers (σ : St V) (i : Nat) :
    ((beginNextChunk P σ).node.election i).chosenThrough = (σ.node.election i).chosenThrough ∧
      ((beginNextChunk P σ).node.election i).anchor = (σ.node.election i).anchor := by
  unfold beginNextChunk broadcastAll St.addMessages
  simp only
  split_ifs <;> exact ⟨rfl, rfl⟩

/-! ## Settled slots stay settled -/

section Steps

variable [DecidableEq V]

/-- A settled slot stays settled. -/
theorem Micro.settled {σ σ' : St V} (h : Micro P I σ σ') {slot : Nat}
    (hs : Settled P σ.node slot) : Settled P σ'.node slot := by
  cases h with
  | learn h => exact h.settled hs
  | idle => exact hs
  | progress => exact hs
  | promise => exact hs
  | promiseAt =>
      refine hs.of_cell rfl le_rfl id (Or.inr ?_) (Or.inl ?_) <;>
        simp [St.withLedger, St.addWrite, Ledger.cellAt, ledgerSetPromiseAt_cells]
  | vote _ hlive _ hheld => exact hs.vote hlive hheld rfl rfl rfl Iff.rfl
  | drive _ _ hlive _ hheld => exact hs.vote hlive hheld rfl rfl rfl Iff.rfl
  | own _ _ _ _ _ _ hlive _ hheld => exact hs.vote hlive hheld rfl rfl rfl Iff.rfl
  | acknowledge => exact hs
  | @report sender member offset ballot rslot vote state value =>
      have hledger : (recordReport σ.node member offset rslot vote state value).1.ledger =
          σ.node.ledger := by
        unfold recordReport; dsimp only; split_ifs <;> rfl
      have hfloor : (recordReport σ.node member offset rslot vote state value).1.memoryFloor =
          σ.node.memoryFloor := by
        unfold recordReport; dsimp only; split_ifs <;> rfl
      have hdelivered : (recordReport σ.node member offset rslot vote state value).1.deliveredThrough
          = σ.node.deliveredThrough := by
        unfold recordReport; dsimp only; split_ifs <;> rfl
      refine hs.of_cell hfloor hdelivered.ge (fun hn hn' => hn ?_) (Or.inr ?_) (Or.inl ?_)
      · refine hn'.of_le (recordReport_membership _ _ _ _ _ _ _) (by rw [hledger]) (fun i _ => ?_)
          (fun i _ => ?_)
        · exact (recordReport_frontiers _ _ _ _ _ _ _ i).1.ge
        · rw [(recordReport_frontiers _ _ _ _ _ _ _ i).2]
      · rw [hledger]
      · rw [hledger]
  | manifest =>
      refine hs.of_cell rfl le_rfl (fun hn hn' => hn ?_) (Or.inr rfl) (Or.inl rfl)
      exact hn'.of_le rfl rfl (fun i _ => (recordManifest_frontiers _ _ _ _ _ _ _ _ i).1)
        (fun i _ => (recordManifest_frontiers _ _ _ _ _ _ _ _ i).2)
  | freeze => exact hs
  | nextChunk =>
      refine hs.of_cell rfl le_rfl (fun hn hn' => hn ?_) (Or.inr rfl) (Or.inl rfl)
      refine hn'.of_le rfl rfl (fun i _ => (beginNextChunk_frontiers σ i).1.ge) (fun i _ => ?_)
      rw [(beginNextChunk_frontiers σ i).2]
  | lead => exact hs

/-- A settled slot stays settled along a run. -/
theorem Run.settled {σ σ' : St V} (h : Run P I σ σ') {slot : Nat}
    (hs : Settled P σ.node slot) : Settled P σ'.node slot :=
  h.preserves (motive := fun τ => Settled P τ.node slot) (fun hstep hτ => hstep.settled hτ) hs

end Steps

/-! ## Driving the chunk -/

/-- What `ledger_chosen_at` finds is a decided cell of the slot. -/
theorem ledgerChosenAt_eq_some {l : Ledger V} {slot : Nat} {value : V}
    (h : ledgerChosenAt P l slot = some value) :
    (l.cellAt P slot).slot = slot ∧ (l.cellAt P slot).state = .chosen ∧
      (l.cellAt P slot).value = value := by
  unfold ledgerChosenAt at h
  dsimp only at h
  split_ifs at h with h0 hne
  rw [not_or, not_not, not_not] at hne
  exact ⟨hne.1, hne.2, Option.some.inj h⟩

/-- Rebroadcasting a resident decision is a step of the learner. -/
theorem broadcastCommit_run {σ : St V} {slot : Nat} {value : V}
    (h : ledgerChosenAt P σ.node.ledger slot = some value) :
    LearnRun P I σ (broadcastPeers σ (.commit slot value)) := by
  refine LearnRun.single (Learn.send fun e he => ?_)
  obtain ⟨peer, -, rfl⟩ := List.mem_map.mp he
  obtain ⟨hslot, hstate, hvalue⟩ := ledgerChosenAt_eq_some h
  exact ⟨rfl, Or.inl ⟨cellOf slot P.W, Or.inr hstate, hslot, hvalue⟩⟩

/-- What the loop of `resolve_chunk` needs of the node: a frozen chunk, and a range of
slots inside it, above every fence and inside the window. -/
structure Driving (P : Params) (n : Node V) (noop : V) (slot stop : Nat) : Prop where
  role : n.role = .preparing
  frozen : n.recoveryReady = true
  noop : n.noop = some noop
  base : n.recoverBase ≤ slot
  last : stop ≤ n.recoverLast + 1
  window : stop ≤ n.memoryFloor + P.W + 1
  above : ∀ s, slot ≤ s → AboveReports n s

/-- The drive looks at the fixed fields only. -/
theorem Driving.congr {n n' : Node V} {noop : V} {slot stop : Nat}
    (h : Driving P n noop slot stop) (hfixed : n'.fixed = n.fixed) :
    Driving P n' noop slot stop := by
  have hmem : n'.membership = n.membership := congrArg Fixed.membership hfixed
  have helection : n'.election = n.election := congrArg Fixed.election hfixed
  have hbase : n'.recoverBase = n.recoverBase := congrArg Fixed.recoverBase hfixed
  have hlast : n'.recoverLast = n.recoverLast := congrArg Fixed.recoverLast hfixed
  have hfloor : n'.memoryFloor = n.memoryFloor := congrArg Fixed.memoryFloor hfixed
  have hanchor : n'.ledger.anchor = n.ledger.anchor := congrArg Fixed.anchor hfixed
  refine ⟨(congrArg Fixed.role hfixed).trans h.role,
    (congrArg Fixed.recoveryReady hfixed).trans h.frozen,
    (congrArg Fixed.noop hfixed).trans h.noop, ?_, ?_, ?_, fun s hs => ?_⟩
  · rw [hbase]; exact h.base
  · rw [hlast]; exact h.last
  · rw [hfloor]; exact h.window
  · unfold AboveReports
    rw [hmem, helection, hanchor]
    exact h.above s hs

/-- Every slot the drive has before it may be driven. -/
theorem Driving.drives {n : Node V} {noop : V} {slot stop s : Nat} (h : Driving P n noop slot stop)
    (hs : slot ≤ s) (hstop : s < stop) : Drives n s :=
  ⟨h.role, h.frozen, h.base.trans hs, by have := h.last; omega, h.above s hs⟩

/-- After one slot the drive goes on with the next. -/
theorem Driving.next {n : Node V} {noop : V} {slot stop : Nat} (h : Driving P n noop slot stop) :
    Driving P n noop (slot + 1) stop :=
  ⟨h.role, h.frozen, h.noop, h.base.trans (Nat.le_succ _), h.last, h.window,
    fun s hs => h.above s (by omega)⟩

/-- Without a recovered decision the choice is the recovered vote, or the no-op. -/
theorem Driving.selects {n : Node V} {noop : V} {slot stop : Nat} (h : Driving P n noop slot stop)
    (hchosen : ¬ ((n.recovered (slot - n.recoverBase)).slot = slot ∧
      (n.recovered (slot - n.recoverBase)).state = .chosen)) :
    Selects n slot
      (if (n.recovered (slot - n.recoverBase)).slot = slot ∧
          (n.recovered (slot - n.recoverBase)).state = .voted then
        (n.recovered (slot - n.recoverBase)).value else noop) := by
  unfold Selects
  dsimp only
  split_ifs with hvoted
  · exact Or.inl ⟨hvoted.1, hvoted.2, rfl⟩
  · refine Or.inr ⟨fun hslot => ?_, h.noop⟩
    cases hstate : (n.recovered (slot - n.recoverBase)).state with
    | empty => rfl
    | voted => exact absurd ⟨hslot, hstate⟩ hvoted
    | chosen => exact absurd ⟨hslot, hstate⟩ hchosen

/-- What the loop of `resolve_chunk` leaves behind when it runs to its end. -/
structure Drove (P : Params) (σ σ' : St V) (slot stop : Nat) : Prop where
  fixed : σ'.node.fixed = σ.node.fixed
  settled : ∀ s, slot ≤ s → s < stop → Settled P σ'.node s
  driven : ∀ s, slot ≤ s → s < stop → Redriven P σ'.node s
  others : ∀ s, Redriven P σ.node s → Redriven P σ'.node s

section Drive

variable [DecidableEq V]

/-- Driving a chunk is a run that settles every slot it reaches. -/
theorem resolveLoop_run {noop : V} {stop : Nat} :
    ∀ {fuel : Nat} {σ : St V} {slot : Nat}, slot + fuel = stop →
      (0 < fuel → Driving P σ.node noop slot stop) →
      Run P I σ (resolveLoop P noop fuel σ slot).1 ∧
        ((resolveLoop P noop fuel σ slot).2 = none →
          Drove P σ (resolveLoop P noop fuel σ slot).1 slot stop) := by
  intro fuel
  induction fuel with
  | zero =>
      intro σ slot hstop _
      exact ⟨Run.refl σ, fun _ => ⟨rfl, fun s hs hlt => absurd hlt (by omega),
        fun s hs hlt => absurd hlt (by omega), fun _ h => h⟩⟩
  | succ fuel ih =>
      intro σ slot hstop hdriving
      have hd := hdriving (Nat.succ_pos fuel)
      have hwindow : slot ≤ σ.node.memoryFloor + P.W := by have := hd.window; omega
      have hdrives : Drives σ.node slot := hd.drives le_rfl (by omega)
      -- what is left to do after `slot` was handled in `τ`
      have hrest : ∀ {τ : St V}, Run P I σ τ → τ.node.fixed = σ.node.fixed →
          Settled P τ.node slot → Redriven P τ.node slot →
          (∀ s, Redriven P σ.node s → Redriven P τ.node s) →
          Run P I σ (resolveLoop P noop fuel τ (slot + 1)).1 ∧
            ((resolveLoop P noop fuel τ (slot + 1)).2 = none →
              Drove P σ (resolveLoop P noop fuel τ (slot + 1)).1 slot stop) := by
        intro τ hrun hfixed hsettled hdriven hothers
        obtain ⟨hloop, hdone⟩ :=
          ih (by omega : slot + 1 + fuel = stop) fun _ => (hd.congr hfixed).next
        refine ⟨hrun.trans hloop, fun hnone => ?_⟩
        have hdrove := hdone hnone
        refine ⟨hdrove.fixed.trans hfixed, fun s hs hlt => ?_, fun s hs hlt => ?_,
          fun s hs => hdrove.others s (hothers s hs)⟩
        · rcases Nat.eq_or_lt_of_le hs with rfl | hgt
          · exact hloop.settled hsettled
          · exact hdrove.settled s hgt hlt
        · rcases Nat.eq_or_lt_of_le hs with rfl | hgt
          · exact hdrove.others _ hdriven
          · exact hdrove.driven s hgt hlt
      unfold resolveLoop
      by_cases hmax : slot = maxSlot
      · rw [if_pos hmax]
        exact ⟨Run.refl σ, fun h => by cases h⟩
      rw [if_neg hmax]
      dsimp only
      cases hresident : ledgerChosenAt P σ.node.ledger slot with
      | some value =>
          have hcell := ledgerChosenAt_eq_some hresident
          have hrun : LearnRun P I σ _ := broadcastCommit_run hresident
          refine hrest hrun.run hrun.fixed
            (Or.inr (Or.inr (Or.inr (Or.inl ⟨hcell.1, by
              show (σ.node.ledger.cellAt P slot).state ≠ .empty
              rw [hcell.2.1]; decide⟩)))) (hrun.redriven fun ho => ?_) fun _ h => hrun.redriven h
          have hvoted := ho.2.2.1
          rw [hcell.2.1] at hvoted
          cases hvoted
      | none =>
          dsimp only
          by_cases hchosen : (σ.node.recovered (slot - σ.node.recoverBase)).slot = slot ∧
              (σ.node.recovered (slot - σ.node.recoverBase)).state = .chosen
          · rw [if_pos hchosen]
            have hrun : LearnRun P I σ _ := recordCommit_run
              (.recovered hdrives hchosen.1 hchosen.2 rfl) (Or.inr hwindow)
            have hsettled := recordCommit_settled
              (σ.node.recovered (slot - σ.node.recoverBase)).value hwindow (hd.above slot le_rfl).1
            have hdriven := recordCommit_redriven
              (σ.node.recovered (slot - σ.node.recoverBase)).value hwindow (hd.above slot le_rfl).1
            rcases hcommit : recordCommit P σ slot
              (σ.node.recovered (slot - σ.node.recoverBase)).value with ⟨τ, e⟩
            rw [hcommit] at hrun hsettled hdriven
            cases e with
            | none =>
                dsimp only at hsettled hdriven ⊢
                cases hdecided : ledgerChosenAt P τ.node.ledger slot with
                | none =>
                    exact hrest hrun.run hrun.fixed (hsettled rfl) (hdriven rfl)
                      fun _ h => hrun.redriven h
                | some decided =>
                    have hsend : LearnRun P I _ _ := broadcastCommit_run hdecided
                    exact hrest (hrun.trans hsend).run (hrun.trans hsend).fixed
                      (hsend.settled (hsettled rfl)) (hsend.redriven (hdriven rfl))
                      fun _ h => (hrun.trans hsend).redriven h
            | _ => exact ⟨hrun.run, fun h => by cases h⟩
          · rw [if_neg hchosen]
            have hselects := hd.selects hchosen
            have hsend := sendAccept_run (P := P) (.drive hdrives hselects hmax : Proposal I _ _ _)
            rcases haccept : sendAccept P σ slot σ.node.ballot
                (if (σ.node.recovered (slot - σ.node.recoverBase)).slot = slot ∧
                    (σ.node.recovered (slot - σ.node.recoverBase)).state = .voted then
                  (σ.node.recovered (slot - σ.node.recoverBase)).value else noop) with ⟨τ, e⟩
            rw [haccept] at hsend
            cases e with
            | none =>
                exact hrest hsend.run hsend.fixed (hsend.settled rfl) (hsend.driven rfl) hsend.others
            | notLeader =>
                refine ⟨hsend.run.trans (Run.single (Micro.idle (σ := τ) (Or.inr rfl) le_rfl
                  le_rfl (Or.inl rfl) (Or.inl rfl) fun _ h => h)), fun h => by cases h⟩
            | _ => exact ⟨hsend.run, fun h => by cases h⟩

end Drive

/-! ## The fences -/

/-- What the fold of `quorum_fences` has covered so far. -/
theorem quorumFences_fold (n : Node V) (is : List Nat) (f : Fences) :
    let g := is.foldl
      (fun f i =>
        let peer := n.election i
        let f := { f with trim := max f.trim peer.anchor.chosenTrimSlot }
        if peer.chosenThrough > f.chosen then
          { f with
            chosen := peer.chosenThrough, chosenPeer := some (membershipGet n.membership i) }
        else f) f
    f.trim ≤ g.trim ∧ f.chosen ≤ g.chosen ∧
      ∀ i ∈ is, (n.election i).anchor.chosenTrimSlot ≤ g.trim ∧
        (n.election i).chosenThrough ≤ g.chosen := by
  induction is generalizing f with
  | nil => simp
  | cons i is ih =>
      dsimp only [List.foldl_cons]
      have hstep := ih
        (if (n.election i).chosenThrough > f.chosen then
          { trim := max f.trim (n.election i).anchor.chosenTrimSlot,
            chosen := (n.election i).chosenThrough,
            chosenPeer := some (membershipGet n.membership i) }
        else { f with trim := max f.trim (n.election i).anchor.chosenTrimSlot })
      dsimp only at hstep
      obtain ⟨htrim, hchosen, hall⟩ := hstep
      split_ifs at htrim hchosen hall ⊢ with h
      all_goals
        dsimp only at htrim hchosen hall ⊢
        refine ⟨by omega, by omega, fun j hj => ?_⟩
        rcases List.mem_cons.mp hj with rfl | hj
        · exact ⟨by omega, by omega⟩
        · exact hall j hj

/-- The fences bound every report and this node's own frontiers. -/
theorem quorumFences_bounds (n : Node V) :
    n.ledger.anchor.chosenTrimSlot ≤ (quorumFences n).trim ∧
      n.deliveredThrough ≤ (quorumFences n).chosen ∧
      ∀ i < n.membership.members.length,
        (n.election i).anchor.chosenTrimSlot ≤ (quorumFences n).trim ∧
          (n.election i).chosenThrough ≤ (quorumFences n).chosen := by
  have h := quorumFences_fold n (List.range n.membership.members.length)
    ⟨n.ledger.anchor.chosenTrimSlot, n.deliveredThrough, none⟩
  exact ⟨h.1, h.2.1, fun i hi => h.2.2 i (List.mem_range.mpr hi)⟩

/-- The fences are reached: each is a report or this node's own frontier. -/
theorem quorumFences_fold_attained (n : Node V) (is : List Nat) (f : Fences) :
    let g := is.foldl
      (fun f i =>
        let peer := n.election i
        let f := { f with trim := max f.trim peer.anchor.chosenTrimSlot }
        if peer.chosenThrough > f.chosen then
          { f with
            chosen := peer.chosenThrough, chosenPeer := some (membershipGet n.membership i) }
        else f) f
    (g.trim = f.trim ∨ ∃ i ∈ is, g.trim = (n.election i).anchor.chosenTrimSlot) ∧
      (g.chosen = f.chosen ∨ ∃ i ∈ is, g.chosen = (n.election i).chosenThrough) := by
  induction is generalizing f with
  | nil => simp
  | cons i is ih =>
      dsimp only [List.foldl_cons]
      have hstep := ih
        (if (n.election i).chosenThrough > f.chosen then
          { trim := max f.trim (n.election i).anchor.chosenTrimSlot,
            chosen := (n.election i).chosenThrough,
            chosenPeer := some (membershipGet n.membership i) }
        else { f with trim := max f.trim (n.election i).anchor.chosenTrimSlot })
      dsimp only at hstep
      obtain ⟨htrim, hchosen⟩ := hstep
      constructor
      · rcases htrim with htrim | ⟨j, hj, htrim⟩
        · have hmax : max f.trim (n.election i).anchor.chosenTrimSlot = f.trim ∨
              max f.trim (n.election i).anchor.chosenTrimSlot =
                (n.election i).anchor.chosenTrimSlot := by omega
          split_ifs at htrim ⊢
          all_goals
            dsimp only at htrim
            rcases hmax with hmax | hmax
            · exact Or.inl (htrim.trans hmax)
            · exact Or.inr ⟨i, List.mem_cons_self, htrim.trans hmax⟩
        · exact Or.inr ⟨j, List.mem_cons_of_mem _ hj, htrim⟩
      · rcases hchosen with hchosen | ⟨j, hj, hchosen⟩
        · split_ifs at hchosen ⊢
          · exact Or.inr ⟨i, List.mem_cons_self, hchosen⟩
          · exact Or.inl hchosen
        · exact Or.inr ⟨j, List.mem_cons_of_mem _ hj, hchosen⟩

/-- The slots at or below a fence are those that are delivered here or reported elsewhere. -/
theorem le_fence_iff {n : Node V} {slot : Nat} :
    slot ≤ max (quorumFences n).trim (quorumFences n).chosen ↔
      slot ≤ n.deliveredThrough ∨ ¬ AboveReports n slot := by
  constructor
  · intro h
    obtain ⟨htrim, hchosen⟩ := quorumFences_fold_attained n
      (List.range n.membership.members.length) ⟨n.ledger.anchor.chosenTrimSlot, n.deliveredThrough, none⟩
    rcases le_max_iff.mp h with hle | hle
    · refine Or.inr fun ha => ?_
      rcases htrim with heq | ⟨i, hi, heq⟩
      · have : (quorumFences n).trim = n.ledger.anchor.chosenTrimSlot := heq
        have := ha.1
        omega
      · have : (quorumFences n).trim = (n.election i).anchor.chosenTrimSlot := heq
        have := (ha.2 i (List.mem_range.mp hi)).2
        omega
    · rcases hchosen with heq | ⟨i, hi, heq⟩
      · have : (quorumFences n).chosen = n.deliveredThrough := heq
        omega
      · refine Or.inr fun ha => ?_
        have : (quorumFences n).chosen = (n.election i).chosenThrough := heq
        have := (ha.2 i (List.mem_range.mp hi)).1
        omega
  · intro h
    by_contra hgt
    obtain ⟨htrim, hchosen, hreports⟩ := quorumFences_bounds n
    have hdelivered : ¬ slot ≤ n.deliveredThrough := by omega
    refine h.resolve_left hdelivered ⟨by omega, fun i hi => ?_⟩
    obtain ⟨htrim', hchosen'⟩ := hreports i hi
    omega

/-- A slot at or below a fence is settled. -/
theorem settled_of_le_fence {n : Node V} {slot : Nat}
    (h : slot ≤ max (quorumFences n).trim (quorumFences n).chosen) : Settled P n slot :=
  (le_fence_iff.mp h).elim (fun hle => Or.inr (Or.inl hle))
    fun habove => Or.inr (Or.inr (Or.inl habove))

/-- The search keeps the highest slot seen so far. -/
theorem highestRecoveredSlot_fold (n : Node V) (is : List Nat) (start : Nat) :
    let g := is.foldl
      (fun highest i =>
        if (n.recovered i).state ≠ .empty then max highest (n.recovered i).slot else highest) start
    start ≤ g ∧ ∀ i ∈ is, (n.recovered i).state ≠ .empty → (n.recovered i).slot ≤ g := by
  induction is generalizing start with
  | nil => simp
  | cons i is ih =>
      dsimp only [List.foldl_cons]
      obtain ⟨hstart, hall⟩ := ih
        (if (n.recovered i).state ≠ .empty then max start (n.recovered i).slot else start)
      refine ⟨?_, fun j hj hstate => ?_⟩
      · split_ifs at hstart ⊢ <;> omega
      · rcases List.mem_cons.mp hj with rfl | hj
        · rw [if_pos hstate] at hstart ⊢
          omega
        · exact hall j hj hstate

/-- Every recovered slot of the chunk counts for the highest one. -/
theorem le_highestRecoveredSlot {n : Node V} {i : Nat} (hi : i < P.C)
    (hstate : (n.recovered i).state ≠ .empty) :
    (n.recovered i).slot ≤ highestRecoveredSlot P n :=
  (highestRecoveredSlot_fold n (List.range P.C) (ledgerHighestUsed P n.ledger)).2 i
    (List.mem_range.mpr hi) hstate

/-! ## Resolving the chunk -/

/-- A request for missing decisions is a step of the learner. -/
theorem requestLearn_run (σ : St V) (peer : Nat) : LearnRun P I σ (requestLearn P σ peer) :=
  LearnRun.single (Learn.send fun e he => by
    obtain rfl := List.mem_singleton.mp he
    exact ⟨rfl, Or.inl rfl⟩)

/-- The slots of the chunk from the first one driven. -/
theorem driving_of_frozen {n : Node V} {noop : V} {anyMore : Bool} (hrole : n.role = .preparing)
    (hfrozen : n.recoveryReady = true) (hnoop : n.noop = some noop) {driveLimit : Nat}
    (hlimit : driveLimit = min (driveGoal P n anyMore) (slotAdd n.memoryFloor P.W))
    (hpos : 0 < driveLimit + 1 - driveStart n) :
    Driving P n noop (driveStart n) (driveStart n + (driveLimit + 1 - driveStart n)) := by
  have hstop : driveStart n + (driveLimit + 1 - driveStart n) = driveLimit + 1 := by omega
  have hbounds := quorumFences_bounds n
  have hgoal : driveGoal P n anyMore ≤ n.recoverLast := by
    unfold driveGoal
    dsimp only
    split_ifs
    · exact le_rfl
    · exact min_le_left _ _
  have hstart : max (quorumFences n).trim (quorumFences n).chosen + 1 ≤ driveStart n :=
    le_max_right _ _
  rw [hstop]
  refine ⟨hrole, hfrozen, hnoop, le_max_left _ _, ?_, ?_, fun s hs => ⟨?_, fun i hi => ?_⟩⟩
  · omega
  · have := slotAdd_le_add n.memoryFloor P.W
    omega
  · have := hbounds.1
    omega
  · have := hbounds.2.2 i hi
    omega

section Resolve

variable [DecidableEq V]

/-- When the loop of `resolve_chunk` stops early, the chunk is not resolved. -/
theorem resolveLoop_stopped {noop : V} {resolved : Bool} {e : Error} :
    ∀ {fuel : Nat} {σ : St V} {slot : Nat},
      (resolveLoop P noop fuel σ slot).2 = some (resolved, e) → resolved = false := by
  intro fuel
  induction fuel with
  | zero => intro σ slot h; cases h
  | succ fuel ih =>
      intro σ slot h
      unfold resolveLoop at h
      dsimp only at h
      repeat' split at h
      all_goals first
        | exact ih h
        | (cases h; rfl)

/-- Resolving a frozen chunk is a run; resolved, every slot up to the goal is settled. -/
theorem resolveChunk_run {σ : St V} {noop : V} (anyMore : Bool)
    (hrole : σ.node.role = .preparing) (hfrozen : σ.node.recoveryReady = true)
    (hnoop : σ.node.noop = some noop) :
    Run P I σ (resolveChunk P σ noop anyMore).1 ∧
      ((resolveChunk P σ noop anyMore).2 = (true, .none) →
        Drove P σ (resolveChunk P σ noop anyMore).1 σ.node.recoverBase
          (driveGoal P σ.node anyMore + 1)) := by
  obtain ⟨hrun, hdone⟩ := resolveLoop_run (P := P) (I := I) rfl
    (driving_of_frozen hrole hfrozen hnoop rfl)
  rcases hloop : resolveLoop P noop
      (min (driveGoal P σ.node anyMore) (slotAdd σ.node.memoryFloor P.W) + 1 - driveStart σ.node) σ
      (driveStart σ.node) with ⟨τ, _ | ⟨resolved, e⟩⟩
  · rw [hloop] at hrun hdone
    have hdrove := hdone rfl
    -- the catch-up request of the last step
    have hlast : (resolveChunk P σ noop anyMore).1 = σ ∧
        (resolveChunk P σ noop anyMore).2 ≠ (true, .none) ∨
        LearnRun P I τ (resolveChunk P σ noop anyMore).1 ∧
          ((resolveChunk P σ noop anyMore).2 = (true, .none) → driveGoal P σ.node anyMore ≤
            min (driveGoal P σ.node anyMore) (slotAdd σ.node.memoryFloor P.W)) := by
      unfold resolveChunk
      dsimp only
      split_ifs with hfence
      · exact Or.inl ⟨rfl, fun h => by cases h⟩
      · rw [hloop]
        dsimp only
        refine Or.inr ⟨?_, fun hres => of_decide_eq_true (Prod.mk.inj hres).1⟩
        split_ifs
        · cases (quorumFences σ.node).chosenPeer with
          | some peer => exact requestLearn_run τ peer
          | none => exact LearnRun.refl τ
        · exact LearnRun.refl τ
    rcases hlast with ⟨hsame, hstopped⟩ | ⟨hlast, hgoal⟩
    · rw [hsame]
      exact ⟨Run.refl σ, fun hres => absurd hres hstopped⟩
    refine ⟨hrun.trans hlast.run, fun hres => ?_⟩
    have hreached := hgoal hres
    -- a slot of the chunk below the first one driven lies at a fence
    have hfence : ∀ s, σ.node.recoverBase ≤ s → s < driveStart σ.node →
        s ≤ max (quorumFences σ.node).trim (quorumFences σ.node).chosen := by
      intro s hbase hlow
      unfold driveStart at hlow
      omega
    refine ⟨hlast.fixed.trans hdrove.fixed, fun s hbase hs => hlast.settled ?_,
      fun s hbase hs => hlast.redriven ?_, fun s hs => hlast.redriven (hdrove.others s hs)⟩
    · by_cases hlow : s < driveStart σ.node
      · exact hrun.settled (settled_of_le_fence (hfence s hbase hlow))
      · exact hdrove.settled s (by omega) (by omega)
    · by_cases hlow : s < driveStart σ.node
      · exact hdrove.others s fun _ => le_fence_iff.mp (hfence s hbase hlow)
      · exact hdrove.driven s (by omega) (by omega)
  · rw [hloop] at hrun
    have hstopped := resolveLoop_stopped (by rw [hloop])
    unfold resolveChunk
    dsimp only
    split_ifs with hfence
    · exact ⟨Run.refl σ, fun h => by cases h⟩
    rw [hloop]
    refine ⟨hrun, fun hres => ?_⟩
    dsimp only at hres
    rw [hstopped] at hres
    cases hres

/-- The end of a driven chunk: a revocation is over, a candidate leads. -/
theorem becomeLeader_run {σ : St V} (hrole : σ.node.role = .preparing)
    (hfrozen : σ.node.recoveryReady = true) (hmore : σ.node.recoveryMore = false)
    (hsettled : ∀ s, σ.node.recoverBase ≤ s → s ≤ σ.node.recoverLast →
      (σ.node.recovered (s - σ.node.recoverBase)).slot = s →
      (σ.node.recovered (s - σ.node.recoverBase)).state ≠ .empty → Settled P σ.node s) :
    Run P I σ (becomeLeader P σ) := by
  unfold becomeLeader
  dsimp only
  by_cases hmode : σ.node.ownership = true
  · rw [if_pos hmode]
    refine (Run.single (Micro.idle (σ := σ) (Or.inr rfl) le_rfl le_rfl (Or.inl rfl) (Or.inl rfl)
      fun _ h => h)).trans (emitContiguous_run _).run
  · rw [if_neg hmode]
    exact (Run.single (Micro.lead hrole (by simpa using hmode) hfrozen hmore rfl hsettled)).trans
      (emitContiguous_run _).run

/-- The state in which `maybe_resolve_chunk` drives the chunk, with the no-op of the campaign. -/
def frozenState (σ : St V) : Option (St V × V) :=
  match σ.node.noop with
  | none => none
  | some noop =>
      if !σ.node.recoveryReady ∧
          (completeMembers σ.node).length < σ.node.membership.readQuorumSize then none
      else some ({ σ with node := freezeSelection σ.node }, noop)

/-- The state in which a driven chunk calls `begin_next_chunk`, if it does. -/
def continuedState (P : Params) (τ : St V) (noop : V) : Option (St V) :=
  match resolveChunk P τ noop τ.node.recoveryMore with
  | (ρ, true, .none) =>
      if τ.node.recoveryMore = true ∧ ρ.node.recoverLast ≠ maxSlot then some ρ else none
  | _ => none

/-- The state in which `maybe_resolve_chunk` calls `begin_next_chunk`, if it does. -/
def nextChunkState (P : Params) (σ : St V) : Option (St V) :=
  (frozenState σ).bind fun τ => continuedState P τ.1 τ.2

/-- `maybe_resolve_chunk` resolves where the chunk is complete. -/
theorem maybeResolveChunk_frozen {σ τ : St V} {noop : V} (h : frozenState σ = some (τ, noop)) :
    maybeResolveChunk P σ = resolveFrozen P τ noop := by
  unfold frozenState at h
  unfold maybeResolveChunk
  cases hnoop : σ.node.noop with
  | none =>
      rw [hnoop] at h
      cases h
  | some w =>
      rw [hnoop] at h
      dsimp only at h ⊢
      split_ifs at h ⊢
      cases h
      rfl

/-- Resolving a frozen chunk, with what follows, is a run of small steps. -/
theorem resolveFrozen_run {σ : St V} {noop : V} (hrole : σ.node.role = .preparing)
    (hfrozen : σ.node.recoveryReady = true) (hnoop : σ.node.noop = some noop)
    (hchunk : σ.node.recoverLast < σ.node.recoverBase + P.C)
    (honward : I.onward = true ∨ continuedState P σ noop = none) :
    Run P I σ (resolveFrozen P σ noop).1 := by
  unfold continuedState at honward
  unfold resolveFrozen
  obtain ⟨hrun, hdone⟩ := resolveChunk_run (P := P) (I := I)
    σ.node.recoveryMore hrole hfrozen hnoop
  dsimp only
  rcases hres : resolveChunk P σ noop σ.node.recoveryMore with ⟨τ, resolved, e⟩
  rw [hres] at hrun hdone honward
  cases e with
  | none =>
      dsimp only
      cases resolved with
      | false => exact hrun
      | true =>
          have hdrove := hdone rfl
          have hfixed := hdrove.fixed
          have hrole' : τ.node.role = .preparing := (congrArg Fixed.role hfixed).trans hrole
          have hfrozen' : τ.node.recoveryReady = true :=
            (congrArg Fixed.recoveryReady hfixed).trans hfrozen
          have hmore' : τ.node.recoveryMore = σ.node.recoveryMore :=
            congrArg Fixed.recoveryMore hfixed
          have hbase' : τ.node.recoverBase = σ.node.recoverBase :=
            congrArg Fixed.recoverBase hfixed
          have hlast' : τ.node.recoverLast = σ.node.recoverLast :=
            congrArg Fixed.recoverLast hfixed
          have hrec' : τ.node.recovered = σ.node.recovered := congrArg Fixed.recovered hfixed
          simp only [Bool.not_true, Bool.false_eq_true, if_false]
          split_ifs with hmore hlast
          · exact hrun
          · have honward := honward.resolve_right (by simp [hmore, hlast])
            have hgoal : driveGoal P σ.node σ.node.recoveryMore = τ.node.recoverLast := by
              rw [hlast']
              unfold driveGoal
              simp only [hmore, Bool.true_or, if_true]
            refine hrun.trans (Run.single (Micro.nextChunk hrole' hfrozen' (hmore'.trans hmore) hlast
              (fun s hs hle => hdrove.settled s ?_ ?_) (fun s hs hle => hdrove.driven s ?_ ?_) honward))
            · rw [← hbase']; exact hs
            · rw [hgoal]; exact Nat.lt_succ_of_le hle
            · rw [← hbase']; exact hs
            · rw [hgoal]; exact Nat.lt_succ_of_le hle
          · refine hrun.trans (becomeLeader_run hrole' hfrozen' (hmore'.trans (by simpa using hmore))
              fun s hs hle hslot hstate => hdrove.settled s ?_ (Nat.lt_succ_of_le ?_))
            · rw [← hbase']; exact hs
            · rw [hbase'] at hs
              rw [hlast'] at hle
              rw [hrec', hbase'] at hslot hstate
              have hrecovered := le_highestRecoveredSlot (P := P)
                (i := s - σ.node.recoverBase) (by omega) hstate
              rw [hslot] at hrecovered
              unfold driveGoal
              dsimp only
              split_ifs
              · exact hle
              · omega
  | _ => exact hrun

/-- Resolving what a read quorum described is a run of small steps. -/
theorem maybeResolveChunk_run {σ : St V} (hrole : σ.node.role = .preparing)
    (hchunk : σ.node.recoverLast < σ.node.recoverBase + P.C)
    (honward : I.onward = true ∨ nextChunkState P σ = none) :
    Run P I σ (maybeResolveChunk P σ).1 := by
  unfold maybeResolveChunk
  cases hnoop : σ.node.noop with
  | none => exact Run.refl σ
  | some noop =>
      dsimp only
      split_ifs with hwait
      · exact Run.refl σ
      have honward : I.onward = true ∨
          continuedState P { σ with node := freezeSelection σ.node } noop = none := by
        refine honward.imp_right fun hquiet => ?_
        unfold nextChunkState frozenState at hquiet
        rw [hnoop] at hquiet
        dsimp only at hquiet
        rw [if_neg hwait] at hquiet
        exact hquiet
      cases hready : σ.node.recoveryReady with
      | true =>
          have hsame : freezeSelection σ.node = σ.node := by
            unfold freezeSelection
            rw [if_pos hready]
          rw [hsame] at honward ⊢
          exact resolveFrozen_run hrole hready hnoop hchunk honward
      | false =>
          have hfreeze : Micro P I σ { σ with node := freezeSelection σ.node } := by
            unfold freezeSelection
            rw [if_neg (by simp [hready])]
            refine Micro.freeze hrole hready ?_
            by_contra hlt
            exact hwait ⟨by simp [hready], by omega⟩
          refine (Run.single hfreeze).trans ?_
          unfold freezeSelection at honward ⊢
          rw [if_neg (by simp [hready])] at honward ⊢
          exact resolveFrozen_run hrole rfl hnoop hchunk honward

/-- The state in which a message calls `maybe_resolve_chunk`, if it does. -/
def messageResolves (P : Params) (σ : St V) (member : Nat) : Message V → Option (St V)
  | .promise ballot slot vote state value =>
      if σ.node.role ≠ .preparing ∨ ballot ≠ σ.node.ballot then none
      else if σ.node.recoveryReady then some σ
      else
        match recoveryIndex P σ.node slot with
        | none => none
        | some cell =>
            if state = .empty then none
            else
              match recordReport σ.node member cell slot vote state value with
              | (n, .none) => some { σ with node := n }
              | _ => none
  | .promiseRange ballot anchor chosenThrough first last reported more =>
      if σ.node.role ≠ .preparing ∨ ballot ≠ σ.node.ballot then none
      else if σ.node.recoveryReady then some σ
      else if reported > P.C ∨ last < first then none
      else if first ≠ σ.node.recoverBase ∨ last ≠ σ.node.recoverLast then none
      else
        some { σ with node :=
          recordManifest σ.node member anchor chosenThrough first last reported more }
  | _ => none

/-- A report is a run of small steps. -/
theorem onPromise_run {σ : St V} {sender member ballot slot vote : Nat} {state : CellState}
    {value : V} (hheard : I.Hears σ.node sender (.promise ballot slot vote state value))
    (hmember : membershipIndexOf σ.node.membership sender = some member)
    (honward : I.onward = true ∨ (messageResolves P σ member
      (.promise ballot slot vote state value)).bind (nextChunkState P) = none)
    (hchunk : σ.node.role = .preparing → σ.node.recoverLast < σ.node.recoverBase + P.C) :
    Run P I σ (onPromise P σ member ballot slot vote state value).1 := by
  unfold messageResolves at honward
  dsimp only at honward
  unfold onPromise
  by_cases hstale : σ.node.role ≠ .preparing ∨ ballot ≠ σ.node.ballot
  · rw [if_pos hstale]
    exact Run.refl σ
  rw [if_neg hstale] at honward ⊢
  rw [not_or, not_not, not_not] at hstale
  by_cases hready : σ.node.recoveryReady = true
  · rw [if_pos hready] at honward ⊢
    exact maybeResolveChunk_run hstale.1 (hchunk hstale.1) honward
  · rw [if_neg hready] at honward ⊢
    cases hoffset : recoveryIndex P σ.node slot with
    | none => exact Run.refl σ
    | some offset =>
        rw [hoffset] at honward
        dsimp only at honward ⊢
        split_ifs with hempty
        · exact Run.refl σ
        rw [if_neg hempty] at honward
        have hmicro : Micro P I σ
            { σ with node := (recordReport σ.node member offset slot vote state value).1 } :=
          Micro.report hheard hmember hstale.1 hstale.2 (by simpa using hready) hoffset hempty
        have hframe : (recordReport σ.node member offset slot vote state value).1.role =
              σ.node.role ∧
            (recordReport σ.node member offset slot vote state value).1.recoverLast =
              σ.node.recoverLast ∧
            (recordReport σ.node member offset slot vote state value).1.recoverBase =
              σ.node.recoverBase := by
          unfold recordReport
          dsimp only
          split_ifs <;> exact ⟨rfl, rfl, rfl⟩
        rcases hrecord : recordReport σ.node member offset slot vote state value with ⟨n, e⟩
        rw [hrecord] at hmicro hframe honward
        cases e with
        | none =>
            refine (Run.single hmicro).trans (maybeResolveChunk_run ?_ ?_ honward)
            · exact hframe.1.trans hstale.1
            · show n.recoverLast < n.recoverBase + P.C
              rw [hframe.2.1, hframe.2.2]
              exact hchunk hstale.1
        | _ => exact Run.single hmicro

/-- A manifest is a run of small steps. -/
theorem onPromiseRange_run {σ : St V} {sender member ballot : Nat} {anchor : TrimAnchor}
    {chosenThrough first last reported : Nat} {more : Bool}
    (hheard : I.Hears σ.node sender
      (.promiseRange ballot anchor chosenThrough first last reported more))
    (hmember : membershipIndexOf σ.node.membership sender = some member)
    (honward : I.onward = true ∨ (messageResolves P σ member
      (.promiseRange ballot anchor chosenThrough first last reported more)).bind
        (nextChunkState P) = none)
    (hchunk : σ.node.role = .preparing → σ.node.recoverLast < σ.node.recoverBase + P.C) :
    Run P I σ
      (onPromiseRange P σ member ballot anchor chosenThrough first last reported more).1 := by
  unfold messageResolves at honward
  unfold onPromiseRange
  dsimp only at honward ⊢
  split_ifs with hstale hready hinvalid hmismatch hother
  · exact Run.refl σ
  · rw [if_neg hstale, if_pos hready] at honward
    rw [not_or, not_not, not_not] at hstale
    exact maybeResolveChunk_run hstale.1 (hchunk hstale.1) honward
  · exact Run.refl σ
  · exact Run.refl σ
  all_goals
    rw [if_neg hstale, if_neg hready, if_neg hinvalid] at honward
    rw [not_or, not_not, not_not] at hstale
    have hmicro : Micro P I σ
        { σ with node :=
          recordManifest σ.node member anchor chosenThrough first last reported more } :=
      Micro.manifest hheard hmember hstale.1 hstale.2 (by simpa using hready) fun hfirst => by
        by_contra hlast
        exact hmismatch ⟨hfirst, hlast⟩
  · exact Run.single hmicro
  · have hwhole : ¬ (first ≠ σ.node.recoverBase ∨ last ≠ σ.node.recoverLast) := by
      rw [not_or, not_not, not_not]
      exact ⟨not_not.mp hother, not_not.mp fun hlast => hmismatch ⟨not_not.mp hother, hlast⟩⟩
    rw [if_neg hwhole] at honward
    exact (Run.single hmicro).trans (maybeResolveChunk_run hstale.1 (hchunk hstale.1) honward)

end Resolve

end PaxosOdin
