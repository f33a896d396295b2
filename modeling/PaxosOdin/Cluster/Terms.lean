import PaxosOdin.Cluster.Recovery

/-!
# What a leader may propose

A leader starts its term above everything that it holds and above every frontier that was reported
to it.  In a slot of the term the read quorum of its campaign is silent, unless another slot keeps
the cell or the slot was overtaken; so any value that a client gives is safe there.  Together with
the choice of the candidate this makes every vote of a transition a founded one, as long as the
answers on the network are true and the Accepts on it are founded.

Main definitions:

- Definition `Term`: where a leader may propose.
- Definition `Presides`: the scratch of a candidate is true, and the slots of a term are silent.
- Definition `Owned`: the durable votes at the ballot of a campaign are its own.
- Definition `Judging`: what holds of a transition in progress.

Main results:

- Theorem `Heeds.term`: where a leader starts its term the read quorum is silent.
- Theorem `Micro.presides`: every small step keeps the candidate's scratch and the leader's term.
- Theorem `Micro.founded`: every small step casts only founded votes.
- Theorem `Completes.judging`: so does a transition.
-/

namespace PaxosOdin

variable {V : Type} {P : Params} {I : Input V}

/-! ## The slots of a term -/

/-- A used cell is counted. -/
theorem le_highestUsed {l : Ledger V} {slot : Nat} (hbits : Bits l)
    (hheld : (l.cellAt P slot).slot = slot) (hstate : (l.cellAt P slot).state ≠ .empty) :
    slot ≤ ledgerHighestUsed P l := by
  have hle := (ledgerHighestUsed_bounds l).1 _ (cellOf_lt P slot) ((hbits.used _).mpr hstate)
  rwa [show (l.cells (cellOf slot P.W)).slot = slot from hheld] at hle

/-- The used cells are those of slots that were voted for or decided. -/
theorem highestUsed_le_maxSlot {l : Ledger V} {floor delivered : Nat} {log : Log V}
    (hr : Remembers P l floor delivered log) (hvotes : ∀ b s v, .vote b s v ∈ log → s < maxSlot)
    (hchosen : ∀ i, (l.cells i).state = .chosen → (l.cells i).slot < maxSlot) :
    ledgerHighestUsed P l ≤ maxSlot := by
  refine (ledgerHighestUsed_bounds l).2 maxSlot fun i _ hused => ?_
  cases hstate : (l.cells i).state with
  | empty => exact absurd hstate ((hr.bits.used i).mp hused)
  | voted => exact (hvotes _ _ _ (hr.cellVoted i hstate)).le
  | chosen => exact (hchosen i hstate).le

/-- A slot that was decided was voted for. -/
theorem Ratified.lt_maxSlot {M : Membership} (hm : M.Valid) {logs : Nat → Log V} {slot : Nat}
    {value : V} (h : Ratified M logs slot value)
    (hvotes : ∀ m b s v, .vote b s v ∈ logs m → s < maxSlot) : slot < maxSlot := by
  obtain ⟨ballot, q, hq, hcard⟩ := h
  obtain ⟨m, hmem⟩ := Finset.card_pos.mp (Nat.lt_of_lt_of_le hm.write_pos hcard)
  exact hvotes m ballot slot value (hq m hmem).2

/-- A slot of the term of a leader lies behind it, its cell is kept by another slot, a read quorum is
silent there, or it was overtaken. -/
def Term (M : Membership) (hm : M.Valid) (P : Params) (D : Nat → Log V) (n : Node V) : Prop :=
  n.role = .leader → ∀ s, n.leaderBase ≤ s → s < maxSlot →
    s ≤ n.memoryFloor ∨ Stuck P n s ∨
      Synod.Silent (M.quorums hm) (Synod.Board.ofLogs D s) n.ballot ∨
        Overtaken M hm P D n.ballot s

/-- What holds of a node in campaign mode: the scratch of a candidate is true, a leader has won its
ballot, the slots of its term are silent, and no frontier or proposal is beyond the last slot. -/
structure Presides (M : Membership) (hm : M.Valid) (P : Params) (net : List (Envelope V))
    (D : Nat → Log V) (n : Node V) : Prop where
  heeds : n.role = .preparing → Heeds net n
  elected : n.role = .leader → Elected M hm D n.ballot
  term : Term M hm P D n
  next : n.nextSlot ≤ maxSlot
  reported : ∀ i, (n.election i).chosenThrough ≤ maxSlot ∧
    (n.election i).anchor.chosenTrimSlot ≤ maxSlot

/-- The durable votes at the ballot of a candidate or a leader are its own. -/
def Owned (D : Nat → Log V) (journal : List (Write V)) (n : Node V) : Prop :=
  n.role ≠ .follower → ∀ a s v, .vote n.ballot s v ∈ D a → .vote n.ballot s v ∈ entries journal

/-- So they lie in its window. -/
theorem Owned.window {D : Nat → Log V} {journal : List (Write V)} {σ : St V}
    (h : Owned D journal σ.node) (hobeys : Obeys P σ.node.memoryFloor (σ.log journal))
    (hrole : σ.node.role ≠ .follower) {a s : Nat} {v : V}
    (hvote : .vote σ.node.ballot s v ∈ D a) : s ≤ σ.node.memoryFloor + P.W := by
  have hmine : .vote σ.node.ballot s v ∈ σ.log journal :=
    mem_log_iff.mpr (Or.inl (h hrole a s v hvote))
  exact (hobeys.window hmine (fun b => by simp) fun s => by simp).2

section Presiding

variable {M : Membership} {hm : M.Valid} {net : List (Envelope V)} {D D' : Nat → Log V}
  {n n' : Node V}

/-- Where a leader starts its term the read quorum is silent, unless another slot keeps the cell or
the slot was overtaken. -/
theorem Heeds.term (h : Heeds net n) (hk : Known M hm P net D) (hmembership : n.membership = M)
    (hwindow : ∀ a s v, .vote n.ballot s v ∈ D a → s ≤ n.memoryFloor + P.W)
    (hrested : Rested P n) (hrole : n.role = .preparing) (hbits : Bits n.ledger)
    (hready : n.recoveryReady = true) (hmore : n.recoveryMore = false)
    (hsettled : ∀ s, n.recoverBase ≤ s → s ≤ n.recoverLast →
      (n.recovered (s - n.recoverBase)).slot = s →
      (n.recovered (s - n.recoverBase)).state ≠ .empty → Settled P n s)
    {s : Nat} (hused : ledgerHighestUsed P n.ledger < s)
    (hfence : max (quorumFences n).trim (quorumFences n).chosen < s) :
    s ≤ n.memoryFloor ∨ Stuck P n s ∨
      Synod.Silent (M.quorums hm) (Synod.Board.ofLogs D s) n.ballot ∨
        Overtaken M hm P D n.ballot s := by
  by_cases hbehind : s ≤ n.memoryFloor
  · exact Or.inl hbehind
  obtain ⟨hdelivered, habove⟩ : ¬ s ≤ n.deliveredThrough ∧ AboveReports n s := by
    have hnot := mt le_fence_iff.mpr (not_le.mpr hfence)
    rwa [not_or, not_not] at hnot
  have hunused : ¬ ((n.ledger.cellAt P s).slot = s ∧ (n.ledger.cellAt P s).state ≠ .empty) :=
    fun hcell => absurd (le_highestUsed hbits hcell.1 hcell.2) (not_le.mpr hused)
  by_cases hlow : s < n.recoverBase
  · -- an earlier chunk, which was driven
    rcases hrested hrole s hlow with (hle | hbehind) | ⟨hheld, hstate⟩ | hstuck
    · exact absurd hle hdelivered
    · exact absurd habove hbehind
    · refine absurd ⟨hheld, ?_⟩ hunused
      rcases hstate with hchosen | ⟨hvoted, -⟩
      · simp [hchosen]
      · simp [hvoted]
    · exact Or.inr (Or.inl hstuck)
  have hbase : n.recoverBase ≤ s := not_lt.mp hlow
  by_cases hrecovered : s ≤ n.recoverLast ∧ (n.recovered (s - n.recoverBase)).slot = s ∧
      (n.recovered (s - n.recoverBase)).state ≠ .empty
  · rcases hsettled s hbase hrecovered.1 hrecovered.2.1 hrecovered.2.2 with
      hle | hle | hbehind | hcell | hstuck
    · exact Or.inl hle
    · exact absurd hle hdelivered
    · exact absurd habove hbehind
    · exact absurd hcell hunused
    · exact Or.inr (Or.inl hstuck)
  · refine Or.inr (Or.inr (h.silent hk hmembership hready hwindow (not_le.mp hbehind) hbase
      (fun i hi => (habove.2 i hi).1) (fun hlast hslot => ?_) fun _ => hmore))
    by_contra hstate
    exact hrecovered ⟨hlast, hslot, hstate⟩

/-- The frontiers are not beyond the last slot. -/
theorem Presides.fence_le (hp : Presides M hm P net D n) (hlast : n.deliveredThrough ≤ maxSlot)
    (hanchor : n.ledger.anchor.chosenTrimSlot = 0) :
    max (quorumFences n).trim (quorumFences n).chosen ≤ maxSlot := by
  by_contra hgt
  have hbeyond : max (quorumFences n).trim (quorumFences n).chosen ≤ n.deliveredThrough ∨
      ¬ AboveReports n (max (quorumFences n).trim (quorumFences n).chosen) :=
    le_fence_iff.mp le_rfl
  rcases hbeyond with hle | hbehind
  · exact hgt (hle.trans hlast)
  · refine hbehind ⟨by omega, fun i _ => ?_⟩
    obtain ⟨hchosen, htrim⟩ := hp.reported i
    omega

/-- A manifest whose frontiers are not beyond the last slot leaves them so. -/
theorem recordManifest_reported {member through first last reported i : Nat} {anchor : TrimAnchor}
    {more : Bool} (htrim : anchor.chosenTrimSlot ≤ maxSlot) (hthrough : through ≤ maxSlot)
    (h : (n.election i).chosenThrough ≤ maxSlot ∧ (n.election i).anchor.chosenTrimSlot ≤ maxSlot) :
    ((recordManifest n member anchor through first last reported more).election i).chosenThrough ≤
        maxSlot ∧
      ((recordManifest n member anchor through first last reported more).election
        i).anchor.chosenTrimSlot ≤ maxSlot := by
  unfold recordManifest
  dsimp only
  by_cases hi : i = member
  · subst hi
    have hanchor : (if anchor.chosenTrimSlot > (n.election i).anchor.chosenTrimSlot then anchor
        else (n.election i).anchor).chosenTrimSlot ≤ maxSlot := by
      split_ifs
      · exact htrim
      · exact h.2
    rw [Function.update_self]
    by_cases hfirst : first ≠ n.recoverBase
    · rw [if_pos hfirst]
      exact ⟨max_le h.1 hthrough, hanchor⟩
    · rw [if_neg hfirst]
      exact ⟨max_le h.1 hthrough, hanchor⟩
  · rw [Function.update_of_ne hi]
    exact h

/-- Only the scratch, the role and the term matter. -/
theorem Presides.keep (hp : Presides M hm P net D n) (hscratch : n'.scratch = n.scratch)
    (hrole : n'.role = n.role ∨ n'.role = .follower) (hbase : n'.leaderBase = n.leaderBase)
    (hnext : n'.nextSlot ≤ maxSlot) (hfloor : n.memoryFloor ≤ n'.memoryFloor)
    (hstuck : ∀ s, n'.memoryFloor < s → Stuck P n s → Stuck P n' s) :
    Presides M hm P net D n' := by
  have hballot : n'.ballot = n.ballot := congrArg Scratch.ballot hscratch
  have helection : n'.election = n.election := congrArg Scratch.election hscratch
  have hleads : n'.role = .leader → n.role = .leader := by
    intro hleader
    rcases hrole with hsame | hfollower
    · exact hsame.symm.trans hleader
    · rw [hfollower] at hleader
      cases hleader
  refine ⟨fun hpreparing => ?_, fun hleader => ?_, fun hleader s hs hmax => ?_, hnext, ?_⟩
  · rcases hrole with hsame | hfollower
    · exact (hp.heeds (hsame.symm.trans hpreparing)).congr hscratch
    · rw [hfollower] at hpreparing
      cases hpreparing
  · rw [hballot]
    exact hp.elected (hleads hleader)
  · by_cases hlow : s ≤ n'.memoryFloor
    · exact Or.inl hlow
    rw [hbase] at hs
    rcases hp.term (hleads hleader) s hs hmax with hle | hkept | hsilent
    · exact absurd (hle.trans hfloor) hlow
    · exact Or.inr (Or.inl (hstuck s (not_le.mp hlow) hkept))
    · rw [hballot]
      exact Or.inr (Or.inr hsilent)
  · rw [helection]
    exact hp.reported

/-- A candidate whose scratch is true. -/
theorem Presides.candidate (hp : Presides M hm P net D n) (hheeds : Heeds net n')
    (hrole : n'.role = .preparing) (hnext : n'.nextSlot = n.nextSlot)
    (hreported : ∀ i, (n'.election i).chosenThrough ≤ maxSlot ∧
      (n'.election i).anchor.chosenTrimSlot ≤ maxSlot) : Presides M hm P net D n' := by
  have hleads : n'.role ≠ .leader := by simp [hrole]
  exact ⟨fun _ => hheeds, fun hleader => absurd hleader hleads,
    fun hleader => absurd hleader hleads, hnext.le.trans hp.next, hreported⟩

/-- A follower that has heard nothing. -/
theorem Presides.following (hrole : n.role = .follower) (hnext : n.nextSlot ≤ maxSlot)
    (helection : ∀ i, n.election i = {}) : Presides M hm P net D n := by
  have hleads : n.role ≠ .leader := by simp [hrole]
  refine ⟨fun hpreparing => ?_, fun hleader => absurd hleader hleads,
    fun hleader => absurd hleader hleads, hnext, fun i => ?_⟩
  · rw [hrole] at hpreparing
    cases hpreparing
  · rw [helection i]
    exact ⟨Nat.zero_le _, Nat.zero_le _⟩

/-- What a node presides over stays so while the network and the records grow. -/
theorem Presides.mono {net' : List (Envelope V)} (hp : Presides M hm P net D n)
    (hnet : net ⊆ net') (hgrow : ∀ a, ∃ more, D' a = D a ++ more)
    (hlawful : ∀ a, Synod.Lawful (D' a)) : Presides M hm P net' D' n := by
  refine ⟨fun hrole => (hp.heeds hrole).mono hnet, fun hrole => (hp.elected hrole).mono hgrow,
    fun hrole s hs hmax => ?_, hp.next, hp.reported⟩
  rcases hp.term hrole s hs hmax with hle | hstuck | hsilent | hovertaken
  · exact Or.inl hle
  · exact Or.inr (Or.inl hstuck)
  · exact Or.inr (Or.inr (Or.inl
      (hsilent.mono (Synod.Board.ofLogs_extends hgrow hlawful s))))
  · exact Or.inr (Or.inr (Or.inr (hovertaken.mono hgrow hlawful)))

end Presiding

/-! ## One transition -/

/-- What holds of a transition in progress: its node presides, and the votes that it has cast are
founded. -/
structure Judging (M : Membership) (hm : M.Valid) (P : Params) (net : List (Envelope V))
    (D : Nat → Log V) (σ : St V) : Prop where
  presides : Presides M hm P net D σ.node
  votes : ∀ b s v, .vote b s v ∈ σ.effects.writes → Founded M hm P D b s v

section Transitions

variable {M : Membership} {hm : M.Valid} {net : List (Envelope V)} {D : Nat → Log V}
  {journal : List (Write V)} {through : Nat} {σ : St V} {n : Node V}

/-- Every vote that the transition sees is founded. -/
theorem Judging.founded (hj : Judging M hm P net D σ) (hk : Known M hm P net D)
    (hself : D σ.node.id = entries journal) {m b s : Nat} {v : V}
    (hvote : .vote b s v ∈ σ.view D journal m) : Founded M hm P D b s v := by
  unfold St.view at hvote
  by_cases hmine : m = σ.node.id
  · subst hmine
    rw [Function.update_self] at hvote
    rcases mem_log_iff.mp hvote with hold | hnew
    · exact hk.votes σ.node.id b s v (hself ▸ hold)
    · exact hj.votes b s v hnew
  · rw [Function.update_of_ne hmine] at hvote
    exact hk.votes m b s v hvote

/-- No cell is used for a slot beyond the last one. -/
theorem Judging.highestUsed_le (hj : Judging M hm P net D σ) (hk : Known M hm P net D)
    (hself : D σ.node.id = entries journal) (hs : Sound P through σ.node (σ.log journal))
    (hd : Deciding M net D journal σ) : ledgerHighestUsed P σ.node.ledger ≤ maxSlot := by
  have hvotes : ∀ m b s v, .vote b s v ∈ σ.view D journal m → s < maxSlot :=
    fun m b s v hvote => (hj.founded hk hself hvote).room
  refine highestUsed_le_maxSlot hs.remembers (fun b s v hvote => ?_) fun i hi =>
    (hd.cells i hi).lt_maxSlot hm hvotes
  rw [← σ.view_self (D := D)] at hvote
  exact hvotes _ b s v hvote

/-- What a campaign proposes is founded. -/
theorem Proposal.founded {slot : Nat} {value : V} (h : Proposal I σ.node slot value)
    (hj : Judging M hm P net D σ) (hk : Known M hm P net D) (hmembership : σ.node.membership = M)
    (hc : Campaigns P σ)
    (hwindow : ∀ a s v, .vote σ.node.ballot s v ∈ D a → s ≤ σ.node.memoryFloor + P.W)
    (hsame : ∀ a w, .vote σ.node.ballot slot w ∈ D a → w = value)
    (hlive : σ.node.memoryFloor < slot) (hheld : (σ.node.ledger.cellAt P slot).slot = slot) :
    Founded M hm P D σ.node.ballot slot value := by
  -- an overtaken slot was voted for at this ballot before, or never will be
  have hfounded : 0 < ballotRound σ.node.ballot → slot < maxSlot →
      Elected M hm D σ.node.ballot →
        (Synod.SafeAt (M.quorums hm) (Synod.Board.ofLogs D slot) σ.node.ballot value ∨
          Overtaken M hm P D σ.node.ballot slot) → Founded M hm P D σ.node.ballot slot value := by
    rintro hround hmax helected (hsafe | hovertaken)
    · exact ⟨hround, hmax, helected, Or.inl hsafe⟩
    · by_cases hvoted : ∃ a w, .vote σ.node.ballot slot w ∈ D a
      · obtain ⟨a, w, hvote⟩ := hvoted
        rw [← hsame a w hvote]
        exact hk.votes a _ _ w hvote
      · refine ⟨hround, hmax, helected, Or.inr ⟨hovertaken.dead hk fun a w hvote => ?_, hovertaken⟩⟩
        exact hvoted ⟨a, w, hvote⟩
  cases h with
  | drive hdrives hselects hmax =>
      have hrole : σ.node.role ≠ .follower := by simp [hdrives.role]
      have hround := (hc.commands hrole).round
      have hheeds := hj.presides.heeds hdrives.role
      have hlast := (hc.opened.chunk hdrives.role).2
      have hle := hdrives.last
      exact hfounded hround (by omega) (hheeds.elected hk hmembership hround hdrives.frozen)
        (hheeds.safe hk hmembership hwindow hlive hdrives hselects)
  | lead hrole _ hbase _ hnext =>
      have hmax : slot < maxSlot := Nat.lt_of_lt_of_le hnext hj.presides.next
      refine hfounded (hc.commands (by simp [hrole])).round hmax (hj.presides.elected hrole) ?_
      rcases hj.presides.term hrole slot hbase hmax with hle | hstuck | hsilent | hovertaken
      · exact absurd hlive (not_lt.mpr hle)
      · exact absurd hheld hstuck.2.1
      · exact Or.inl (.of_silent hsilent value)
      · exact Or.inr hovertaken

variable [DecidableEq V]

/-- A small step casts only founded votes. -/
theorem Micro.founded {σ' : St V} (h : Micro P I σ σ') (hj : Judging M hm P net D σ)
    (hk : Known M hm P net D)
    (hasked : ∀ e ∈ net, ∀ b s v, e.message = .accept b s v → Founded M hm P D b s v)
    (hin : Informed M net D I n) (hid : σ.node.id = n.id) (hmembership : σ.node.membership = M)
    (howned : Owned D journal σ.node) (hs : Sound P σ.node.memoryFloor σ.node (σ.log journal))
    (hlawful : Synod.Lawful (σ'.log journal)) (hc : Campaigns P σ) {b s : Nat} {v : V}
    (hvote : .vote b s v ∈ σ'.effects.writes) :
    Founded M hm P D b s v := by
  have hold : ∀ {w : Write V}, (∀ b s v, w ≠ .vote b s v) →
      .vote b s v ∈ σ.effects.writes ++ [w] → Founded M hm P D b s v := by
    intro w hw hmem
    rcases List.mem_append.mp hmem with hmem | hmem
    · exact hj.votes b s v hmem
    · exact absurd (List.mem_singleton.mp hmem).symm (hw b s v)
  cases h with
  | learn hl => exact hj.votes b s v (hl.vote_back hvote)
  | promise => exact hold (fun b s v => by simp) hvote
  | promiseAt => exact hold (fun b s v => by simp) hvote
  | @vote sender ballot slot value hheard =>
      rcases List.mem_append.mp hvote with hmem | hmem
      · exact hj.votes b s v hmem
      · cases List.mem_singleton.mp hmem
        unfold Input.Hears at hheard
        rw [hid] at hheard
        obtain ⟨e, he, -, hmsg⟩ := hin.sent _ _ hheard
        exact hasked e he b s v hmsg
  | drive hballot hsource hlive _ hheld =>
      rcases List.mem_append.mp hvote with hmem | hmem
      · exact hj.votes b s v hmem
      · cases List.mem_singleton.mp hmem
        rw [hballot]
        have hrole : σ.node.role ≠ .follower := by
          cases hsource with
          | drive hdrives => simp [hdrives.role]
          | lead hrole => simp [hrole]
        refine hsource.founded hj hk hmembership hc (fun a s v => howned.window hs.obeys hrole)
          (fun a w hw => ?_) hlive hheld
        -- one ballot of its records carries one value
        refine hlawful.value_unique (mem_log_iff.mpr (Or.inl (howned hrole a _ w hw)))
          (mem_log_iff.mpr (Or.inr ?_))
        rw [← hballot]
        exact List.mem_append_right _ (List.mem_singleton_self _)
  | own hown =>
      rw [hc.mode] at hown
      cases hown
  | _ => exact hj.votes b s v hvote

/-- A small step keeps the scratch of a candidate true and the term of a leader silent. -/
theorem Micro.presides {σ' : St V} (h : Micro P I σ σ') (hj : Judging M hm P net D σ)
    (hk : Known M hm P net D) (hin : Informed M net D I n) (hid : σ.node.id = n.id)
    (hself : D σ.node.id = entries journal) (hmembership : σ.node.membership = M)
    (hanchor : σ.node.ledger.anchor.chosenTrimSlot = 0) (howned : Owned D journal σ.node)
    (hs : Sound P σ.node.memoryFloor σ.node (σ.log journal)) (hd : Deciding M net D journal σ)
    (hc : Campaigns P σ) (hr : Rested P σ.node) : Presides M hm P net D σ'.node := by
  have hp := hj.presides
  have hfloor := memoryFloor_of_static h.static
  have hstuck : ∀ s, σ'.node.memoryFloor < s → Stuck P σ.node s → Stuck P σ'.node s :=
    fun s hlive => ((h.cell (cellOf s P.W)).stuck hfloor (hfloor ▸ hlive)).mpr
  have hkeep : σ'.node.scratch = σ.node.scratch →
      σ'.node.role = σ.node.role ∨ σ'.node.role = .follower →
        σ'.node.leaderBase = σ.node.leaderBase → σ'.node.nextSlot ≤ maxSlot →
          Presides M hm P net D σ'.node :=
    fun hscratch hrole hbase hnext => hp.keep hscratch hrole hbase hnext hfloor.ge hstuck
  -- what is heard was sent by the member that the report is credited to
  have hsent : ∀ {sender member : Nat} {msg : Message V}, I.Hears σ.node sender msg →
      membershipIndexOf σ.node.membership sender = some member →
        σ.node.membership.members[member]? = some sender ∧
          ∃ e ∈ net, e.sender = sender ∧ e.message = msg := by
    intro sender member msg hheard hmember
    unfold Input.Hears at hheard
    rw [hid] at hheard
    rw [hmembership] at hmember ⊢
    exact ⟨(membershipIndexOf_eq_some hm).mp hmember, hin.sent sender msg hheard⟩
  cases h with
  | learn hl =>
      have hfixed := hl.fixed
      refine hkeep ?_ (Or.inl (congrArg Fixed.role hfixed)) (congrArg Fixed.leaderBase hfixed) ?_
      · simp only [Node.fixed, Fixed.mk.injEq] at hfixed
        simp [Node.scratch, hfixed]
      · rw [show σ'.node.nextSlot = σ.node.nextSlot from congrArg Fixed.nextSlot hfixed]
        exact hp.next
  | idle hrole _ _ hnext =>
      refine hkeep rfl hrole rfl ?_
      have hle := hp.next
      rcases hnext with rfl | ⟨rfl, hmax⟩
      · exact hle
      · exact Nat.lt_of_le_of_ne hle hmax
  | @report sender member offset ballot slot vote state value hheard hmember hrole hballot hfrozen
      hoffset hstate =>
      obtain ⟨ha, htold⟩ := hsent hheard hmember
      rw [hballot] at htold
      have hframe : (recordReport σ.node member offset slot vote state value).1.role =
            σ.node.role ∧
          (recordReport σ.node member offset slot vote state value).1.nextSlot =
            σ.node.nextSlot := by
        unfold recordReport
        dsimp only
        split_ifs <;> exact ⟨rfl, rfl⟩
      refine hp.candidate ((hp.heeds hrole).report hfrozen ha htold hoffset hstate)
        (hframe.1.trans hrole) hframe.2 fun i => ?_
      obtain ⟨hthrough, htrim⟩ :=
        recordReport_frontiers σ.node member offset slot vote state value i
      rw [hthrough, htrim]
      exact hp.reported i
  | @manifest sender member ballot through' first last reported anchor more hheard hmember hrole
      hballot hfrozen hlast =>
      obtain ⟨ha, htold⟩ := hsent hheard hmember
      rw [hballot] at htold
      refine hp.candidate ((hp.heeds hrole).manifest hfrozen ha htold hlast) hrole rfl fun i => ?_
      obtain ⟨e, he, hsender, hmsg⟩ := htold
      obtain ⟨hzero, hle⟩ := (hk.manifests e he _ _ _ _ _ _ _ hmsg).frontiers
      exact recordManifest_reported (by omega) hle (hp.reported i)
  | freeze hrole _ hquorum =>
      exact hp.candidate ((hp.heeds hrole).freeze hquorum) hrole rfl hp.reported
  | nextChunk hrole =>
      refine hp.candidate (.fresh (fun i a ha => ?_) (fun i => rfl) (fun p => rfl) rfl) hrole rfl
        fun i => ?_
      · have hlt : i < σ.node.membership.members.length := (List.getElem?_eq_some_iff.mp ha).1
        simp [beginNextChunk, broadcastAll, St.addMessages, hlt]
      · obtain ⟨hthrough, htrim⟩ := beginNextChunk_frontiers (P := P) σ i
        rw [hthrough, htrim]
        exact hp.reported i
  | @lead next hrole _ hready hmore hnext hsettled =>
      have hbound : max (ledgerHighestUsed P σ.node.ledger)
          (max (quorumFences σ.node).trim (quorumFences σ.node).chosen) ≤ maxSlot :=
        max_le (hj.highestUsed_le hk hself hs hd) (hp.fence_le hc.opened.last hanchor)
      have hcommands : σ.node.role ≠ .follower := by simp [hrole]
      refine ⟨fun hpreparing => (by cases hpreparing), fun _ => ?_, fun _ s hbase hmax => ?_, ?_,
        hp.reported⟩
      · exact (hp.heeds hrole).elected hk hmembership (hc.commands hcommands).round hready
      · -- the slots of the term are above all that is used and above the fence
        have habove : max (ledgerHighestUsed P σ.node.ledger)
            (max (quorumFences σ.node).trim (quorumFences σ.node).chosen) < s := by
          have hle : next ≤ s := hbase
          unfold slotAdd at hnext
          omega
        exact (hp.heeds hrole).term hk hmembership
          (fun a s v => howned.window hs.obeys hcommands) hr hrole hs.remembers.bits hready hmore
          hsettled ((le_max_left _ _).trans_lt habove) ((le_max_right _ _).trans_lt habove)
      · show next ≤ maxSlot
        rw [hnext]
        exact max_le hp.next (slotAdd_le_maxSlot 1 hbound)
  | own hown =>
      rw [hc.mode] at hown
      cases hown
  | _ => exact hkeep rfl (Or.inl rfl) rfl hp.next

omit [DecidableEq V] in
/-- So does the step that ends a transition. -/
theorem Final.judging {n₀ : Node V} {σ' : St V} (h : Final P I n₀ σ σ') (hmode : n₀.ownership = false)
    (hj : Judging M hm P net D σ) : Judging M hm P net D σ' := by
  have hp := hj.presides
  cases h with
  | campaign =>
      refine ⟨⟨fun _ => .fresh (fun i a _ => ⟨rfl, rfl⟩) (fun i => rfl) (fun p => rfl) rfl,
        fun hleader => (by cases hleader), fun hleader => (by cases hleader), hp.next,
        fun i => ⟨Nat.zero_le _, Nat.zero_le _⟩⟩,
        fun b s v hvote => ?_⟩
      rcases List.mem_append.mp hvote with hmem | hmem
      · exact hj.votes b s v hmem
      · cases List.mem_singleton.mp hmem
  | revoke hown =>
      rw [hmode] at hown
      cases hown
  | answer => exact ⟨hp.keep rfl (Or.inl rfl) rfl hp.next le_rfl fun s _ hs => hs, hj.votes⟩

/-- A transition of a node in campaign mode casts only founded votes. -/
theorem Completes.judging (hc : Completes P I n (St.start n) σ)
    (ht : Transit P I n.memoryFloor journal (St.start n))
    (hd : Deciding M net D journal (St.start n))
    (hin : Informed M net D I n) (hself : D n.id = entries journal) (hmembership : n.membership = M)
    (hvoting : n.votingMember = true) (hanchor : n.ledger.anchor.chosenTrimSlot = 0)
    (hgenuine : I.Genuine) (hcampaigns : Campaigns P (St.start n)) (hrested : Rested P n)
    (hk : Known M hm P net D) (howned : Owned D journal n)
    (hasked : ∀ e ∈ net, ∀ b s v, e.message = .accept b s v → Founded M hm P D b s v)
    (hp : Presides M hm P net D n) : Judging M hm P net D σ := by
  obtain ⟨τ, hrun, hlast⟩ := hc
  have hmode : n.ownership = false := hcampaigns.mode
  have hτ : Judging M hm P net D τ := by
    refine (hrun.preserves (motive := fun τ => (Transit P I n.memoryFloor journal τ ∧
      Balloting I journal n τ ∧ τ.node.static = n.static) ∧ Deciding M net D journal τ ∧
        (Campaigns P τ ∧ Rested P τ.node) ∧ Judging M hm P net D τ) ?_
      ⟨⟨ht, .start journal n, rfl⟩, hd, ⟨hcampaigns, hrested⟩, hp,
        fun b s v hvote => absurd hvote List.not_mem_nil⟩).2.2.2
    rintro τ τ' hmicro ⟨⟨ht, hb, hstatic⟩, hd, ⟨hc, hr⟩, hj⟩
    have hmembership' : τ.node.membership = M :=
      (congrArg Static.membership hstatic).trans hmembership
    have hself' : D τ.node.id = entries journal := by
      rw [hb.id_eq]
      exact hself
    have hanchor' : τ.node.ledger.anchor.chosenTrimSlot = 0 := by
      rw [show τ.node.ledger.anchor = n.ledger.anchor from congrArg Static.anchor hstatic]
      exact hanchor
    have howned' : Owned D journal τ.node := by
      intro hrole
      rw [hb.ballot]
      exact howned (hb.role hrole)
    have hsound : Sound P τ.node.memoryFloor τ.node (τ.log journal) := by
      rw [memoryFloor_of_static hstatic]
      exact ht.steady.sound
    refine ⟨⟨hmicro.transit ht, hmicro.balloting hb, hmicro.static.trans hstatic⟩,
      hmicro.deciding ht hb hd hin hself hmembership' hm
        ((congrArg Static.ownership hstatic).trans hmode)
        ((congrArg Static.votingMember hstatic).trans hvoting),
      ⟨hmicro.campaigns hgenuine hc, hmicro.rested hgenuine hc hr⟩, ?_, fun b s v hvote => ?_⟩
    · exact hmicro.presides hj hk hin hb.id_eq hself' hmembership' hanchor' howned' hsound hd hc hr
    · exact hmicro.founded hj hk hasked hin hb.id_eq hmembership' howned' hsound
        (hmicro.transit ht).steady.sound.obeys.lawful hc hvote
  rcases hlast with rfl | hfinal
  · exact hτ
  · exact hfinal.judging hmode hτ

end Transitions

end PaxosOdin
