import PaxosOdin.Acceptor.Memory
import PaxosOdin.Transition.Owning

/-!
# The log of a running member obeys the rule

One small step at a time, the log of a member obeys the acceptor law and the ledger remembers
it.  A vote at an equal ballot carries an equal value: for a received proposal because
the cell is compared, for this member's own because it knows which slots it drives and which
own slots it has used.

Main results:

- Theorem `Micro.sound`: every small step keeps the rule and the memory.
- Theorem `Final.sound`: so does the step that ends a transition.
- Theorem `Completes.sound`: so does a whole transition.
- Theorem `Sound.advanceFloor`: so does the host's move of the floor.
-/

namespace PaxosOdin

variable {V : Type} {P : Params} {I : Input V}

/-! ## Ballots of one's own -/

/-- What a member knows about its own proposals. -/
structure Proposes (n : Node V) (log : Log V) : Prop where
  role : n.role ≠ .follower → ballotNode n.ballot = n.id ∧ 0 < ballotRound n.ballot
  lead : n.role ≠ .follower → ∀ i, (n.ledger.cells i).state = .voted →
    (n.ledger.cells i).voteBallot = n.ballot → (n.lead i).slot = (n.ledger.cells i).slot
  own : n.ownership = true → ∀ s v, .vote (ownershipBallot n.id) s v ∈ log → s < n.ownNext
  words : n.ownership = true → ∀ s, ((∃ b v, .vote b s v ∈ log) ∨ .decided s ∈ log) → s ≤ maxSlot

/-- What every envelope of the system satisfies: nobody is sent a proposal at a ballot of its
own, and slots are words. -/
structure Fair (I : Input V) (n : Node V) : Prop where
  foreign : ∀ sender b s v, I.Hears n sender (.accept b s v) → ballotNode b ≠ n.id
  accepts : n.ownership = true → ∀ sender b s v, I.Hears n sender (.accept b s v) → s ≤ maxSlot
  commits : n.ownership = true → ∀ sender s v, I.Hears n sender (.commit s v) → s ≤ maxSlot

theorem Fair.congr {n n' : Node V} (h : Fair I n) (hstatic : n'.static = n.static) :
    Fair I n' := by
  have hid : n'.id = n.id := congrArg Static.id hstatic
  have hmode : n'.ownership = n.ownership := congrArg Static.ownership hstatic
  obtain ⟨h1, h2, h3⟩ := h
  unfold Input.Hears at h1 h2 h3
  constructor <;> unfold Input.Hears <;> rw [hid]
  · exact h1
  · rw [hmode]
    exact h2
  · rw [hmode]
    exact h3

/-- A member that works in step with its log, of which the host has consumed `through`. -/
structure Sound (P : Params) (through : Nat) (n : Node V) (log : Log V) : Prop where
  obeys : Obeys P through log
  remembers : Remembers P n.ledger n.memoryFloor n.deliveredThrough log
  proposes : Proposes n log

/-! ## Small steps -/

section Votes

variable {n : Node V} {log : Log V}

/-- A cell that holds no vote at this member's ballot asks nothing of its leadership. -/
theorem Proposes.frame {n' : Node V} {log' : Log V} (h : Proposes n log)
    (hstatic : n'.static = n.static) (hrole : n'.role = n.role ∨ n'.role = .follower)
    (hballot : n'.ballot = n.ballot) (hnext : n.ownNext ≤ n'.ownNext)
    (hcells : ∀ i, (n'.ledger.cells i).state = .voted →
      (n'.ledger.cells i).voteBallot = n.ballot → n'.role ≠ .follower →
      (n'.lead i).slot = (n'.ledger.cells i).slot)
    (hvotes : ∀ s v, .vote (ownershipBallot n.id) s v ∈ log' → n.ownership = true →
      .vote (ownershipBallot n.id) s v ∈ log ∨ s < n'.ownNext)
    (hwords : n.ownership = true → ∀ s, ((∃ b v, .vote b s v ∈ log') ∨ .decided s ∈ log') →
      ((∃ b v, .vote b s v ∈ log) ∨ .decided s ∈ log) ∨ s ≤ maxSlot) : Proposes n' log' := by
  have hid : n'.id = n.id := congrArg Static.id hstatic
  have hmode : n'.ownership = n.ownership := congrArg Static.ownership hstatic
  have hkeep : n'.role ≠ .follower → n.role ≠ .follower := by
    rintro hne
    rcases hrole with h | h
    · rw [← h]
      exact hne
    · exact absurd h hne
  refine ⟨fun hne => ?_, fun hne i hs hb => ?_, fun hown s v hv => ?_, fun hown s hs => ?_⟩
  · rw [hballot, hid]
    exact h.role (hkeep hne)
  · exact hcells i hs (hb.trans hballot) hne
  · rw [hid] at hv
    rw [hmode] at hown
    rcases hvotes s v hv hown with hold | hnew
    · exact Nat.lt_of_lt_of_le (h.own hown s v hold) hnext
    · exact hnew
  · rw [hmode] at hown
    exact (hwords hown s hs).elim (h.words hown s) id

/-- Steps that add neither a vote nor a decision to the log, nor a vote to a cell. -/
theorem Proposes.quiet {n' : Node V} {log' : Log V} (h : Proposes n log)
    (hstatic : n'.static = n.static) (hrole : n'.role = n.role ∨ n'.role = .follower)
    (hballot : n'.ballot = n.ballot) (hnext : n.ownNext ≤ n'.ownNext)
    (hcells : ∀ i, (n'.ledger.cells i).state = .voted →
      (n.ledger.cells i).state = .voted ∧
        (n'.ledger.cells i).voteBallot = (n.ledger.cells i).voteBallot ∧
        (n'.ledger.cells i).slot = (n.ledger.cells i).slot)
    (hlead : ∀ i, (n'.lead i).slot = (n.lead i).slot)
    (hvotes : ∀ b s v, .vote b s v ∈ log' → .vote b s v ∈ log)
    (hdecided : n.ownership = true → ∀ s, .decided s ∈ log' → .decided s ∈ log ∨ s ≤ maxSlot) :
    Proposes n' log' := by
  refine h.frame hstatic hrole hballot hnext (fun i hs hb hne => ?_)
    (fun s v hv _ => Or.inl (hvotes _ s v hv)) (fun hown s hs => ?_)
  · obtain ⟨hs', hb', hslot⟩ := hcells i hs
    have hne' : n.role ≠ .follower := by
      rcases hrole with h | h
      · rw [← h]
        exact hne
      · exact absurd h hne
    rw [hlead, hslot]
    exact h.lead hne' i hs' (hb' ▸ hb)
  · rcases hs with ⟨b, v, hv⟩ | hs
    · exact Or.inl (Or.inl ⟨b, v, hvotes b s v hv⟩)
    · exact (hdecided hown s hs).imp (fun h => Or.inr h) id

end Votes

/-- Appending an entry of a live slot keeps the rule. -/
theorem Obeys.live {through : Nat} {n : Node V} {log : Log V} {e : Synod.Entry Nat Nat V}
    (h : Sound P through n log) (hthrough : n.memoryFloor ≤ through)
    (hfloor : n.memoryFloor ≤ n.deliveredThrough) (hlaw : Synod.VoteLaw log e)
    (hlive : n.memoryFloor < entrySlot e) (hwindow : entrySlot e ≤ n.memoryFloor + P.W) :
    Obeys P through (log ++ [e]) := by
  refine h.obeys.concat ⟨hlaw, fun u hu hle => ?_, fun _ => ⟨by omega, Or.inl (by omega)⟩⟩
  exact h.remembers.decided u hu (by omega)

section Steps

/-- A decision that a transition takes over in own mode is a word. -/
theorem Decision.word {n : Node V} {log : Log V} {through slot : Nat} {value : V}
    (h : Decision P I n slot value) (hs : Sound P through n log) (ho : Opened P n)
    (hfair : Fair I n) (hown : n.ownership = true) : slot ≤ maxSlot := by
  cases h with
  | heard sender h => exact hfair.commits hown sender slot value h
  | recovered hdrives => exact hdrives.last.trans (ho.chunk hdrives.role).2
  | acked h =>
      have hvote := hs.remembers.cellVoted _ h.state
      have hheld := h.held
      rw [Ledger.cellAt] at hheld
      rw [hheld] at hvote
      exact hs.proposes.words hown slot (Or.inl ⟨_, _, hvote⟩)

/-- The log of a transition in progress: the journal and the batch. -/
def St.log (journal : List (Write V)) (σ : St V) : Log V :=
  entries (journal ++ σ.effects.writes)

theorem St.log_append (journal : List (Write V)) (σ σ' : St V) {w : Write V}
    {e : Synod.Entry Nat Nat V} (hwrites : σ'.effects.writes = σ.effects.writes ++ [w])
    (he : w.entry? = some e) : σ'.log journal = σ.log journal ++ [e] := by
  unfold St.log
  rw [hwrites, ← List.append_assoc, entries_append]
  congr 1
  simp [entries, he]

theorem Learn.sound {journal : List (Write V)} {through : Nat} {σ σ' : St V}
    (hl : Learn P I σ σ') (h : Sound P through σ.node (σ.log journal)) (ho : Opened P σ.node)
    (hfair : Fair I σ.node) (hthrough : σ.node.memoryFloor ≤ through) :
    Sound P through σ'.node (σ'.log journal) := by
  have hdecision : ∀ {slot : Nat} {value : V}, Decision P I σ.node slot value →
      σ.node.ownership = true → ∀ s, .decided s ∈ σ.log journal ++ [.decided slot] →
      .decided s ∈ σ.log journal ∨ s ≤ maxSlot := by
    intro slot value hsource hown s hs
    rcases List.mem_append.mp hs with hs | hs
    · exact Or.inl hs
    · cases List.mem_singleton.mp hs
      exact Or.inr (hsource.word h ho hfair hown)
  cases hl with
  | note =>
      exact ⟨h.obeys, h.remembers, h.proposes.quiet rfl (Or.inl rfl) rfl le_rfl
        (fun i hs => ⟨hs, rfl, rfl⟩) (fun _ => rfl) (fun _ _ _ hv => hv) fun _ _ hd => Or.inl hd⟩
  | claim hlive hwindow hother hfree =>
      refine ⟨h.obeys, h.remembers.open hfree, h.proposes.quiet rfl (Or.inl rfl) rfl le_rfl
        (fun i => ?_) (fun _ => rfl) (fun _ _ _ hv => hv) fun _ _ hd => Or.inl hd⟩
      simp only [St.withLedger, ledgerOpen_cells]
      split_ifs with hi
      · exact fun hs => (by cases hs)
      · exact fun hs => ⟨hs, rfl, rfl⟩
  | @choose slot value hsource hlive hwindow hheld hopen =>
      have hlog := St.log_append journal σ ((σ.withLedger (ledgerRecordChosen σ.node.ledger (cellOf slot P.W) value)).addWrite
          (.chosen slot value)) rfl rfl
      rw [hlog]
      refine ⟨Obeys.live h hthrough ho.floor trivial hlive hwindow, h.remembers.choose hlive hheld,
        h.proposes.quiet rfl (Or.inl rfl) rfl le_rfl (fun i => ?_) (fun _ => rfl)
        (fun b s v hv => by simpa using hv) (hdecision hsource)⟩
      simp only [St.withLedger, St.addWrite, ledgerRecordChosen_cells]
      split_ifs with hi
      · exact fun hs => (by cases hs)
      · exact fun hs => ⟨hs, trivial, trivial⟩
  | @pass slot value hsource hnext hmax hlive hclaim hfirst _ =>
      subst hnext
      have hlog : St.log journal
          { (((σ.setPassThrough value).addWrite
              (.chosen (σ.node.deliveredThrough + 1) value)).addCommitted
              ⟨σ.node.deliveredThrough + 1, value, true⟩) with
            node := { (σ.setPassThrough value).node with
              deliveredThrough := σ.node.deliveredThrough + 1 } } =
          σ.log journal ++ [.decided (σ.node.deliveredThrough + 1)] := by
        simp only [St.log, St.addWrite, St.addCommitted, St.setPassThrough, entries_append,
          entries_rebind, List.append_assoc]
        rfl
      rw [hlog]
      refine ⟨h.obeys.concat ⟨trivial, fun u hu hle => ?_, fun _ => ⟨Nat.succ_pos _, Or.inr ⟨rfl,
        fun u hu hlt => ?_⟩⟩⟩, h.remembers.pass, h.proposes.quiet rfl (Or.inl rfl) rfl le_rfl
        (fun i hs => ⟨hs, rfl, rfl⟩) (fun _ => rfl) (fun b s v hv => by simpa using hv)
        (hdecision hsource)⟩
      · refine h.remembers.decided u hu ?_
        have := P.window_pos
        have : u + P.W ≤ σ.node.deliveredThrough + 1 := hle
        omega
      · exact h.remembers.decided u hu (Nat.le_of_lt_succ hlt)
  | deliver hmax hheld hchosen =>
      exact ⟨h.obeys, h.remembers.deliver hheld hchosen, h.proposes.quiet rfl (Or.inl rfl) rfl le_rfl
        (fun i hs => ⟨hs, rfl, rfl⟩) (fun _ => rfl) (fun _ _ _ hv => hv) fun _ _ hd => Or.inl hd⟩
  | send =>
      exact ⟨h.obeys, h.remembers, h.proposes.quiet rfl (Or.inl rfl) rfl le_rfl
        (fun i hs => ⟨hs, rfl, rfl⟩) (fun _ => rfl) (fun _ _ _ hv => hv) fun _ _ hd => Or.inl hd⟩
  | request =>
      exact ⟨h.obeys, h.remembers, h.proposes.quiet rfl (Or.inl rfl) rfl le_rfl
        (fun i hs => ⟨hs, rfl, rfl⟩) (fun _ => rfl) (fun _ _ _ hv => hv) fun _ _ hd => Or.inl hd⟩

/-- A round-zero ballot is no campaign's. -/
theorem ballotRound_ownership {id : Nat} (hid : id < 2 ^ 16) :
    ballotRound (ownershipBallot id) = 0 := by
  rw [ownershipBallot_eq]
  unfold ballotRound
  omega

variable [DecidableEq V]

/-- Every small step keeps the rule and the memory. -/
theorem Micro.sound {journal : List (Write V)} {through : Nat} {σ σ' : St V}
    (hm : Micro P I σ σ') (h : Sound P through σ.node (σ.log journal)) (ho : Opened P σ.node)
    (hfair : Fair I σ.node) (hid : σ.node.id < 2 ^ 16)
    (hthrough : σ.node.memoryFloor ≤ through) : Sound P through σ'.node (σ'.log journal) := by
  have hstatic := hm.static
  cases hm with
  | learn hl => exact hl.sound h ho hfair hthrough
  | idle hrole _ _ _ hown =>
      refine ⟨h.obeys, h.remembers, h.proposes.quiet rfl hrole rfl ?_ (fun i hs => ⟨hs, rfl, rfl⟩)
        (fun _ => rfl) (fun _ _ _ hv => hv) fun _ _ hd => Or.inl hd⟩
      rcases hown with heq | ⟨hle, -⟩
      · exact heq.ge
      · exact hle
  | progress =>
      exact ⟨h.obeys, h.remembers, h.proposes.quiet rfl (Or.inl rfl) rfl le_rfl
        (fun i hs => ⟨hs, rfl, rfl⟩) (fun _ => rfl) (fun _ _ _ hv => hv) fun _ _ hd => Or.inl hd⟩
  | @promise ballot hle =>
      have hlog := St.log_append journal σ ((σ.withLedger { σ.node.ledger with promised := ballot }).addWrite (.promise ballot))
        rfl rfl
      rw [hlog]
      refine ⟨h.obeys.concat ⟨trivial, fun u hu hle => ?_, fun hp => absurd rfl (hp ballot)⟩,
        h.remembers.promise hle, h.proposes.quiet rfl (Or.inl rfl) rfl le_rfl
        (fun i hs => ⟨hs, rfl, rfl⟩) (fun _ => rfl) (fun b s v hv => by simpa using hv)
        fun _ s hd => Or.inl (by simpa using hd)⟩
      have : u + P.W ≤ 0 := hle
      omega
  | @promiseAt ballot slot hlive hwindow hheld hle =>
      have hlog := St.log_append journal σ ((σ.withLedger (ledgerSetPromiseAt σ.node.ledger (cellOf slot P.W) ballot)).addWrite
          (.promiseAt ballot slot)) rfl rfl
      rw [hlog]
      refine ⟨Obeys.live h hthrough ho.floor trivial hlive hwindow, h.remembers.promiseAt hheld hle,
        h.proposes.quiet rfl (Or.inl rfl) rfl le_rfl (fun i => ?_) (fun _ => rfl)
        (fun b s v hv => by simpa using hv) fun _ s hd => Or.inl (by simpa using hd)⟩
      simp only [St.withLedger, St.addWrite, ledgerSetPromiseAt_cells]
      exact fun hs => ⟨hs, trivial, trivial⟩
  | @vote sender ballot slot value hheard hlive hwindow hheld hopen hfresh hzero hglobal hlocal =>
      have hlog := St.log_append journal σ ((σ.withLedger (ledgerRecordVote
          (ledgerSetPromiseAt σ.node.ledger (cellOf slot P.W) ballot)
          (cellOf slot P.W) ballot value)).addWrite (.vote ballot slot value)) rfl rfl
      have hlaw := h.remembers.vote_fits value hlive hheld hopen hglobal hlocal
        fun hs hb => absurd hb (hfresh hs)
      have hforeign := hfair.foreign sender ballot slot value hheard
      rw [hlog]
      refine ⟨Obeys.live h hthrough ho.floor hlaw hlive hwindow,
        h.remembers.vote hlive hheld hopen hlocal le_rfl hlaw.2,
        h.proposes.frame rfl (Or.inl rfl) rfl le_rfl (fun i => ?_) (fun s v hv _ => Or.inl ?_)
        fun hown s hs => ?_⟩
      · simp only [St.withLedger, St.addWrite, ledgerVote_cells]
        split_ifs with hi
        · intro _ hb hne
          exact absurd ((congrArg ballotNode hb).trans (h.proposes.role hne).1) hforeign
        · exact fun hs hb hne => h.proposes.lead hne i hs hb
      · rcases List.mem_append.mp hv with hv | hv
        · exact hv
        · have hb : ownershipBallot σ.node.id = ballot :=
            (Synod.Entry.vote.inj (List.mem_singleton.mp hv)).1
          refine absurd ?_ hforeign
          rw [← hb, ownershipBallot_eq]
          exact Nat.mod_eq_of_lt hid
      · rcases hs with ⟨b, v, hv⟩ | hs
        · rcases List.mem_append.mp hv with hv | hv
          · exact Or.inl (Or.inl ⟨b, v, hv⟩)
          · rw [(Synod.Entry.vote.inj (List.mem_singleton.mp hv)).2.1]
            exact Or.inr (hfair.accepts hown sender ballot slot value hheard)
        · exact Or.inl (Or.inr (by simpa using hs))
  | @drive slot ballot value hballot hsource hlive hwindow hheld hopen hfresh hglobal hlocal =>
      have hlog := St.log_append journal σ
        (voteForProposal σ (cellOf slot P.W) slot ballot value) rfl rfl
      have hrole : σ.node.role ≠ .follower := by
        cases hsource with
        | drive hdrives => rw [hdrives.role]; exact fun h => (by cases h)
        | lead hrole => rw [hrole]; exact fun h => (by cases h)
      have hlaw := h.remembers.vote_fits value hlive hheld hopen hglobal hlocal
        fun hs hb _ => hfresh ((h.proposes.lead hrole _ hs (hb.trans hballot)).trans hheld) hs hb
      rw [hlog]
      refine ⟨Obeys.live h hthrough ho.floor hlaw hlive hwindow,
        h.remembers.vote hlive hheld hopen (le_max_left _ _) (le_max_right _ _) hlaw.2,
        h.proposes.frame rfl (Or.inl rfl) rfl le_rfl (fun i => ?_) (fun s v hv hown => Or.inl ?_)
        fun hown s hs => ?_⟩
      · simp only [voteForProposal, St.addWrite, ledgerVote_cells, Function.update_apply]
        split_ifs with hi
        · exact fun _ _ _ => by rw [hi]; exact hheld.symm
        · exact fun hs hb hne => h.proposes.lead hne i hs hb
      · rcases List.mem_append.mp hv with hv | hv
        · exact hv
        · have hb : ownershipBallot σ.node.id = ballot :=
            (Synod.Entry.vote.inj (List.mem_singleton.mp hv)).1
          have hround := (h.proposes.role hrole).2
          rw [← hballot, ← hb, ballotRound_ownership hid] at hround
          exact absurd hround (lt_irrefl 0)
      · rcases hs with ⟨b, v, hv⟩ | hs
        · rcases List.mem_append.mp hv with hv | hv
          · exact Or.inl (Or.inl ⟨b, v, hv⟩)
          · rw [(Synod.Entry.vote.inj (List.mem_singleton.mp hv)).2.1]
            cases hsource with
            | drive hdrives => exact Or.inr (hdrives.last.trans (ho.chunk hdrives.role).2)
            | lead _ hmode => rw [hmode] at hown; cases hown
        · exact Or.inl (Or.inr (by simpa using hs))
  | @own slot next value hmode _ hmine hbeyond hnext haligned hlive hwindow hheld hopen hglobal
      hlocal =>
      have hlog := St.log_append journal σ ((voteForProposal σ (cellOf slot P.W) slot (ownershipBallot σ.node.id) value).bump next)
        rfl rfl
      -- no own suggestion was made in this slot before
      have hlaw := h.remembers.vote_fits value hlive hheld hopen hglobal hlocal
        fun _ _ hmem => absurd (h.proposes.own hmode slot _ hmem) (Nat.not_lt.mpr hbeyond)
      rw [hlog]
      refine ⟨Obeys.live h hthrough ho.floor hlaw hlive hwindow,
        h.remembers.vote hlive hheld hopen (le_max_left _ _) (le_max_right _ _) hlaw.2,
        h.proposes.frame rfl (Or.inl rfl) rfl (hbeyond.trans hnext.le) (fun i => ?_)
        (fun s v hv _ => ?_) fun hown s hs => ?_⟩
      · simp only [St.bump, voteForProposal, St.addWrite, ledgerVote_cells, Function.update_apply]
        split_ifs with hi
        · exact fun _ _ _ => by rw [hi]; exact hheld.symm
        · exact fun hs hb hne => h.proposes.lead hne i hs hb
      · rcases List.mem_append.mp hv with hv | hv
        · exact Or.inl hv
        · rw [(Synod.Entry.vote.inj (List.mem_singleton.mp hv)).2.1]
          exact Or.inr hnext
      · rcases hs with ⟨b, v, hv⟩ | hs
        · rcases List.mem_append.mp hv with hv | hv
          · exact Or.inl (Or.inl ⟨b, v, hv⟩)
          · rw [(Synod.Entry.vote.inj (List.mem_singleton.mp hv)).2.1]
            exact Or.inr (hnext.le.trans haligned.1)
        · exact Or.inl (Or.inr (by simpa using hs))
  | acknowledge _ _ _ _ _ hlead =>
      refine ⟨h.obeys, h.remembers, h.proposes.quiet rfl (Or.inl rfl) rfl le_rfl
        (fun i hs => ⟨hs, rfl, rfl⟩) (fun i => ?_) (fun _ _ _ hv => hv) fun _ _ hd => Or.inl hd⟩
      simp only [Function.update_apply]
      split_ifs with hi
      · rw [hlead, hi]
      · rfl
  | @report sender member offset ballot slot vote state value =>
      have hkeep : ∀ n : Node V,
          (recordReport n member offset slot vote state value).1.ledger = n.ledger ∧
          (recordReport n member offset slot vote state value).1.memoryFloor = n.memoryFloor ∧
          (recordReport n member offset slot vote state value).1.deliveredThrough =
            n.deliveredThrough ∧
          (recordReport n member offset slot vote state value).1.role = n.role ∧
          (recordReport n member offset slot vote state value).1.ballot = n.ballot ∧
          (recordReport n member offset slot vote state value).1.ownNext = n.ownNext ∧
          (recordReport n member offset slot vote state value).1.lead = n.lead := by
        intro n
        unfold recordReport
        dsimp only
        split_ifs <;> exact ⟨rfl, rfl, rfl, rfl, rfl, rfl, rfl⟩
      obtain ⟨h1, h2, h3, h4, h5, h6, h7⟩ := hkeep σ.node
      refine ⟨h.obeys, ?_, h.proposes.quiet hstatic (Or.inl h4) h5 h6.ge (fun i => ?_)
        (fun i => ?_) (fun _ _ _ hv => hv) fun _ _ hd => Or.inl hd⟩
      · show Remembers P (recordReport σ.node member offset slot vote state value).1.ledger _ _ _
        rw [h1, h2, h3]
        exact h.remembers
      · show (Node.ledger (recordReport σ.node member offset slot vote state value).1 |>.cells i
          |>.state) = .voted → _
        rw [h1]
        exact fun hs => ⟨hs, rfl, rfl⟩
      · exact congrArg (fun lead => (lead i).slot) h7
  | manifest =>
      exact ⟨h.obeys, h.remembers, h.proposes.quiet hstatic (Or.inl rfl) rfl le_rfl
        (fun i hs => ⟨hs, rfl, rfl⟩) (fun _ => rfl) (fun _ _ _ hv => hv) fun _ _ hd => Or.inl hd⟩
  | freeze =>
      exact ⟨h.obeys, h.remembers, h.proposes.quiet hstatic (Or.inl rfl) rfl le_rfl
        (fun i hs => ⟨hs, rfl, rfl⟩) (fun _ => rfl) (fun _ _ _ hv => hv) fun _ _ hd => Or.inl hd⟩
  | nextChunk =>
      exact ⟨h.obeys, h.remembers, h.proposes.quiet hstatic (Or.inl rfl) rfl le_rfl
        (fun i hs => ⟨hs, rfl, rfl⟩) (fun _ => rfl) (fun _ _ _ hv => hv) fun _ _ hd => Or.inl hd⟩
  | lead hrole =>
      refine ⟨h.obeys, h.remembers, ⟨fun _ => ?_, fun _ => ?_, h.proposes.own, h.proposes.words⟩⟩
      · exact h.proposes.role (by rw [hrole]; exact fun h => (by cases h))
      · exact h.proposes.lead (by rw [hrole]; exact fun h => (by cases h))

/-! ## Whole transitions -/

omit [DecidableEq V] in
/-- The ballot of a new campaign is this member's own and above every vote of its ledger. -/
theorem Proposes.fresh {n n' : Node V} {log log' : Log V} {round : Nat} (h : Proposes n log)
    (hr : Remembers P n.ledger n.memoryFloor n.deliveredThrough log)
    (hstatic : n'.static = n.static) (hid : n.id < 2 ^ 16) (hpos : 0 < round)
    (hballot : n'.ballot = ballotMake round n.priority n.id)
    (hvotes : ∀ i < P.W, ballotRound (n.ledger.cells i).voteBallot < round)
    (hcells : ∀ i, n'.ledger.cells i = n.ledger.cells i) (hnext : n'.ownNext = n.ownNext)
    (hlog : ∀ e ∈ log', (∀ b, e ≠ .promise b) → e ∈ log) : Proposes n' log' := by
  have hid' : n'.id = n.id := congrArg Static.id hstatic
  have hmode : n'.ownership = n.ownership := congrArg Static.ownership hstatic
  have hround : ballotRound n'.ballot = round := by
    rw [hballot]
    exact ballotMake_round n.priority.isLt hid
  refine ⟨fun _ => ⟨?_, by omega⟩, fun _ i hs hb => ?_, fun hown s v hv => ?_, fun hown s hs => ?_⟩
  · rw [hballot, hid']
    exact ballotMake_node hid
  · rw [hcells] at hs hb
    have hlt := hvotes i (hr.cell_lt (by rw [hs]; exact fun h => (by cases h)))
    rw [hb, hround] at hlt
    exact absurd hlt (lt_irrefl round)
  · rw [hid'] at hv
    rw [hnext]
    exact h.own (hmode ▸ hown) s v (hlog _ hv fun b hb => (by cases hb))
  · refine h.words (hmode ▸ hown) s ?_
    rcases hs with ⟨b, v, hv⟩ | hd
    · exact Or.inl ⟨b, v, hlog _ hv fun b hb => (by cases hb)⟩
    · exact Or.inr (hlog _ hd fun b hb => (by cases hb))

omit [DecidableEq V] in
/-- The step that ends a transition keeps the rule and the memory. -/
theorem Final.sound {journal : List (Write V)} {through : Nat} {n₀ : Node V} {σ σ' : St V}
    (hf : Final P I n₀ σ σ') (h : Sound P through σ.node (σ.log journal))
    (hid : σ.node.id < 2 ^ 16) : Sound P through σ'.node (σ'.log journal) := by
  cases hf with
  | @campaign round noop _ _ hround =>
      have hfresh := nextRound_fresh hround
      have hlog : St.log journal
          (broadcastAll
            (St.addWrite
              { σ with node :=
                campaignNode P σ.node (ballotMake round σ.node.priority σ.node.id) noop }
              (.promise (ballotMake round σ.node.priority σ.node.id)))
            (.prepare (ballotMake round σ.node.priority σ.node.id) (σ.node.deliveredThrough + 1)
              (slotAdd (σ.node.deliveredThrough + 1) (P.C - 1)) .global)) =
          σ.log journal ++ [.promise (ballotMake round σ.node.priority σ.node.id)] :=
        St.log_append _ _ _ rfl rfl
      rw [hlog]
      refine ⟨h.obeys.concat ⟨trivial, fun u hu hle => ?_, fun hp => absurd rfl (hp _)⟩,
        h.remembers.promise (lt_ballotMake hfresh.promised).le,
        h.proposes.fresh h.remembers rfl hid (Nat.zero_lt_of_lt hfresh.current) rfl hfresh.votes
          (fun _ => rfl) rfl fun e he hp => ?_⟩
      · have : u + P.W ≤ 0 := hle
        omega
      · rcases List.mem_append.mp he with he | he
        · exact he
        · exact absurd (List.mem_singleton.mp he) (hp _)
  | @revoke round ballot last noop _ _ hballot _ hcurrent _ hvotes =>
      exact ⟨h.obeys, h.remembers, h.proposes.fresh h.remembers rfl hid
        (Nat.zero_lt_of_lt hcurrent) hballot hvotes (fun _ => rfl) rfl fun e he _ => he⟩
  | answer =>
      exact ⟨h.obeys, h.remembers, h.proposes⟩

/-- What a transition in progress is known to satisfy. -/
structure Steady (P : Params) (I : Input V) (through : Nat) (journal : List (Write V)) (σ : St V) :
    Prop where
  sound : Sound P through σ.node (σ.log journal)
  opened : Opened P σ.node
  fair : Fair I σ.node
  id_lt : σ.node.id < 2 ^ 16
  floor : σ.node.memoryFloor ≤ through

theorem Micro.steady {journal : List (Write V)} {through : Nat} {σ σ' : St V}
    (hm : Micro P I σ σ') (h : Steady P I through journal σ) :
    Steady P I through journal σ' := by
  have hstatic := hm.static
  refine ⟨hm.sound h.sound h.opened h.fair h.id_lt h.floor, hm.opened h.opened,
    h.fair.congr hstatic, ?_, ?_⟩
  · rw [show σ'.node.id = σ.node.id from congrArg Static.id hstatic]
    exact h.id_lt
  · rw [memoryFloor_of_static hstatic]
    exact h.floor

/-- A whole transition keeps the rule and the memory. -/
theorem Completes.steady {journal : List (Write V)} {through : Nat} {n₀ : Node V} {σ σ' : St V}
    (hc : Completes P I n₀ σ σ') (h : Steady P I through journal σ) :
    Steady P I through journal σ' := by
  obtain ⟨τ, hrun, hlast⟩ := hc
  have hτ : Steady P I through journal τ :=
    hrun.preserves (motive := Steady P I through journal) (fun hstep hs => hstep.steady hs) h
  rcases hlast with rfl | hfinal
  · exact hτ
  · have hstatic := hfinal.static
    refine ⟨hfinal.sound hτ.sound hτ.id_lt, hfinal.opened hτ.opened, hτ.fair.congr hstatic, ?_, ?_⟩
    · rw [show σ'.node.id = τ.node.id from congrArg Static.id hstatic]
      exact hτ.id_lt
    · rw [memoryFloor_of_static hstatic]
      exact hτ.floor

end Steps

/-! ## Host operations -/

/-- The host moves the floor up to a delivered slot. -/
theorem Sound.advanceFloor {through : Nat} {n : Node V} {log : Log V} (h : Sound P through n log)
    (floor : Nat) : Sound P through (nodeAdvanceMemoryFloor n floor).1 log := by
  unfold nodeAdvanceMemoryFloor
  split_ifs
  · exact h
  have hr := h.remembers
  have hle : n.memoryFloor ≤ max n.memoryFloor floor := le_max_left _ _
  exact ⟨h.obeys, { hr with
    held := fun s b hs => hr.held s b (Nat.lt_of_le_of_lt hle hs)
    voted := fun s b v hs => hr.voted s b v (Nat.lt_of_le_of_lt hle hs) },
    ⟨h.proposes.role, h.proposes.lead, h.proposes.own, h.proposes.words⟩⟩

theorem Opened.advanceFloor {n : Node V} (h : Opened P n) (floor : Nat) :
    Opened P (nodeAdvanceMemoryFloor n floor).1 := by
  unfold nodeAdvanceMemoryFloor
  split_ifs with hover
  · exact h
  · exact ⟨h.member, h.small, h.aligned, h.term, h.chunk, max_le h.floor (Nat.le_of_not_lt hover),
      h.last⟩

/-- The host allows or forbids campaigns. -/
theorem Sound.setCampaignEnabled {through : Nat} {n : Node V} {log : Log V}
    (h : Sound P through n log) (enabled : Bool) :
    Sound P through (nodeSetCampaignEnabled n enabled) log := by
  have hrole : (nodeSetCampaignEnabled n enabled).role ≠ .follower → n.role ≠ .follower := by
    unfold nodeSetCampaignEnabled
    dsimp only
    split_ifs
    · exact fun h => absurd rfl h
    · exact id
  exact ⟨h.obeys, h.remembers, ⟨fun hr => h.proposes.role (hrole hr),
    fun hr => h.proposes.lead (hrole hr), h.proposes.own, h.proposes.words⟩⟩

theorem Opened.setCampaignEnabled {n : Node V} (h : Opened P n) (enabled : Bool) :
    Opened P (nodeSetCampaignEnabled n enabled) := by
  have hrole : ∀ r : Role, r ≠ .follower → (nodeSetCampaignEnabled n enabled).role = r →
      n.role = r := by
    unfold nodeSetCampaignEnabled
    dsimp only
    split_ifs
    · exact fun r hr h => absurd h.symm hr
    · exact fun r _ h => h
  exact ⟨h.member, h.small, h.aligned, fun hr => h.term (hrole _ (fun h => (by cases h)) hr),
    fun hr => h.chunk (hrole _ (fun h => (by cases h)) hr), h.floor, h.last⟩

end PaxosOdin
