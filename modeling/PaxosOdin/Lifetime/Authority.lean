import PaxosOdin.Lifetime.Admission
import PaxosOdin.Lifetime.Resolving
import PaxosOdin.Lifetime.Suggesting

/-!
# The authority of a leader

A node that campaigns or leads has promised its own ballot for every decree, and no cell of its
ledger knows a greater one: a handler that lets a greater ballot in first makes the node a follower.
Its own votes lie below the slots it is going to propose in, so that none of its proposals is
refused.

Main definitions:

- Definition `Commands`: what holds of a candidate and of a leader.
- Definition `Campaigning`: the nodes of a cluster in campaign mode, and `Sent`, its messages.
- Definition `Unrefused`: no promise and no other value stands in the way of a proposal.

Main results:

- Theorem `Micro.commands`: a small step keeps the authority.
- Theorem `Campaigning.commands`: it holds in every reachable state.
- Theorem `leader_authority`: no proposal of a leader or a candidate is refused.
-/

namespace PaxosOdin

variable {V : Type} {P : Params} {I : Input V}

/-! ## The invariant -/

/-- What a cell may hold while its node campaigns or leads. -/
structure Ruled (n : Node V) (i : Nat) : Prop where
  promised : (n.ledger.cells i).promisedAt ≤ n.ballot
  voted : (n.ledger.cells i).voteBallot ≤ n.ballot
  used : (n.ledger.cells i).voteBallot = n.ballot → i ∈ n.ledger.used
  driven : n.role = .preparing → (n.ledger.cells i).voteBallot = n.ballot →
    (n.ledger.cells i).slot < maxSlot ∧ ((n.ledger.cells i).slot < n.recoverBase ∨
      (n.recoveryReady = true ∧ (n.ledger.cells i).slot ≤ n.recoverLast ∧
        ((n.ledger.cells i).state = .voted →
          Selects n (n.ledger.cells i).slot (n.ledger.cells i).value)))
  led : n.role = .leader → (n.ledger.cells i).voteBallot = n.ballot →
    (n.ledger.cells i).slot < n.nextSlot

/-- A candidate or a leader: its ballot is its own, it has promised it, and nothing in its ledger is
above it. -/
structure Commands (P : Params) (n : Node V) : Prop where
  round : 0 < ballotRound n.ballot
  mine : ballotNode n.ballot = n.id
  promised : n.ledger.promised = n.ballot
  chunk : n.role = .preparing → n.recoverBase ≤ n.recoverLast
  cells : ∀ i < P.W, Ruled n i

/-- An envelope as members in campaign mode write them: a Prepare asks for every decree, and an
Accept is at a ballot of its sender, who does not address it to itself. -/
def Envelope.Genuine (e : Envelope V) : Prop :=
  match e.message with
  | .prepare _ _ _ scope => scope = .global
  | .accept ballot _ _ =>
      (ballotNode ballot = e.sender ∨ ballotRound ballot = 0) ∧ e.recipient ≠ e.sender
  | _ => True

/-- What a transition hears is genuine. -/
def Input.Genuine (I : Input V) : Prop :=
  ∀ e, I.heard = some e → e.Genuine

/-- A chunk has one choice for each decree. -/
theorem Selects.unique {n : Node V} {slot : Nat} {v w : V} (hv : Selects n slot v)
    (hw : Selects n slot w) : v = w := by
  unfold Selects at hv hw
  rcases hv with ⟨hs, hstate, rfl⟩ | ⟨hempty, hnoop⟩ <;>
    rcases hw with ⟨hs', hstate', rfl⟩ | ⟨hempty', hnoop'⟩
  · rfl
  · rw [hempty' hs] at hstate
    cases hstate
  · rw [hempty hs'] at hstate'
    cases hstate'
  · exact Option.some.inj (hnoop.symm.trans hnoop')

section Steps

variable [DecidableEq V]

/-! ## Small steps -/

omit [DecidableEq V] in
/-- A vote of the node itself, at its own ballot. -/
theorem Ruled.ofVote {σ : St V} {slot : Nat} {value : V} (h : ∀ i < P.W, Ruled σ.node i)
    (hheld : (σ.node.ledger.cellAt P slot).slot = slot) (hsource : Proposal I σ.node slot value)
    (hlast : σ.node.role = .preparing → slot ≤ maxSlot) {i : Nat} (hi : i < P.W) :
    Ruled (voteForProposal σ (cellOf slot P.W) slot σ.node.ballot value).node i := by
  have hrule := h i hi
  by_cases hcell : i = cellOf slot P.W
  · subst hcell
    simp only [Ledger.cellAt] at hheld
    constructor <;> simp only [voteForProposal, St.addWrite, ledgerVote_cells, if_pos]
    · exact max_le hrule.promised le_rfl
    · exact le_rfl
    · intro _
      simp [ledgerRecordVote]
    · intro hrole _
      rw [hheld]
      rcases hsource with ⟨hdrives, hselects, hmax⟩ | ⟨hleader, -⟩
      · have hle := hlast hdrives.role
        exact ⟨by omega, Or.inr ⟨hdrives.frozen, hdrives.last, fun _ => hselects⟩⟩
      · rw [hleader] at hrole
        cases hrole
    · intro hrole _
      rw [hheld]
      rcases hsource with ⟨hdrives, -⟩ | ⟨-, -, -, -, hnext⟩
      · rw [hdrives.role] at hrole
        cases hrole
      · exact hnext
  · have hsame : (voteForProposal σ (cellOf slot P.W) slot σ.node.ballot value).node.ledger.cells i =
        σ.node.ledger.cells i := by
      simp [voteForProposal, St.addWrite, ledgerVote_cells, hcell]
    constructor <;> rw [hsame]
    · exact hrule.promised
    · exact hrule.voted
    · intro hballot
      exact Finset.mem_insert_of_mem (hrule.used hballot)
    · exact hrule.driven
    · exact hrule.led

omit [DecidableEq V] in
/-- A cell that was just opened holds no vote. -/
theorem Ruled.ofOpen {n : Node V} {slot cell : Nat} (hround : 0 < ballotRound n.ballot)
    {i : Nat} (h : Ruled n i) :
    Ruled { n with ledger := ledgerOpen n.ledger cell slot } i := by
  have hzero : (0 : Nat) ≠ n.ballot := by
    intro h0
    rw [← h0] at hround
    exact absurd hround (by decide)
  by_cases hcell : i = cell
  · subst hcell
    constructor <;> simp only [ledgerOpen_self]
    · exact Nat.zero_le _
    · exact Nat.zero_le _
    · exact fun h0 => absurd h0 hzero
    · exact fun _ h0 => absurd h0 hzero
    · exact fun _ h0 => absurd h0 hzero
  · have hsame := @ledgerOpen_of_ne _ n.ledger _ _ slot hcell
    constructor <;> simp only [hsame]
    · exact h.promised
    · exact h.voted
    · exact fun hballot => Finset.mem_erase_of_ne_of_mem hcell (h.used hballot)
    · exact h.driven
    · exact h.led

omit [DecidableEq V] in
/-- A decision leaves the ballots of its cell as they are. -/
theorem Ruled.ofChosen {n : Node V} {cell : Nat} {value : V} {i : Nat} (h : Ruled n i) :
    Ruled { n with ledger := ledgerRecordChosen n.ledger cell value } i := by
  constructor <;> simp only [ledgerRecordChosen_cells]
  · exact h.promised
  · exact h.voted
  · exact fun hballot => Finset.mem_insert_of_mem (h.used hballot)
  · intro hrole hballot
    obtain ⟨hmax, hchunk⟩ := h.driven hrole hballot
    refine ⟨hmax, hchunk.imp_right fun ⟨hready, hlast, hselects⟩ => ⟨hready, hlast, ?_⟩⟩
    split_ifs with hcell
    · exact fun hstate => (by cases hstate)
    · exact hselects
  · exact h.led

omit [DecidableEq V] in
/-- The small steps of a learner keep the authority. -/
theorem Learn.commands {σ σ' : St V} (h : Learn P I σ σ') (hc : Commands P σ.node) :
    Commands P σ'.node := by
  cases h with
  | claim =>
      exact ⟨hc.round, hc.mine, hc.promised, hc.chunk, fun i hi =>
        (hc.cells i hi).ofOpen hc.round⟩
  | choose =>
      exact ⟨hc.round, hc.mine, hc.promised, hc.chunk, fun i hi => (hc.cells i hi).ofChosen⟩
  | _ =>
      refine ⟨hc.round, hc.mine, hc.promised, hc.chunk, fun i hi => ?_⟩
      have hrule := hc.cells i hi
      exact ⟨hrule.promised, hrule.voted, hrule.used, hrule.driven, hrule.led⟩

omit [DecidableEq V] in
/-- A report goes to the scratch of an open chunk, which binds no vote yet. -/
theorem Commands.report {n n' : Node V} (hc : Commands P n) (hframe : n'.ledger = n.ledger)
    (hid : n'.id = n.id) (hballot : n'.ballot = n.ballot) (hrole : n'.role = n.role)
    (hbase : n'.recoverBase = n.recoverBase) (hlast : n'.recoverLast = n.recoverLast) (hnext : n'.nextSlot = n.nextSlot)
    (hopen : n.recoveryReady = false) : Commands P n' := by
  refine ⟨?_, ?_, ?_, ?_, fun i hi => ?_⟩
  · rw [hballot]
    exact hc.round
  · rw [hballot, hid]
    exact hc.mine
  · rw [hframe, hballot]
    exact hc.promised
  · rw [hrole, hbase, hlast]
    exact hc.chunk
  · have hrule := hc.cells i hi
    constructor <;> rw [hframe, hballot]
    · exact hrule.promised
    · exact hrule.voted
    · exact hrule.used
    · intro hpreparing hvote
      rw [hrole] at hpreparing
      obtain ⟨hmax, hchunk⟩ := hrule.driven hpreparing hvote
      rw [hbase]
      refine ⟨hmax, hchunk.imp_right fun ⟨h, _⟩ => ?_⟩
      rw [hopen] at h
      cases h
    · rw [hrole, hnext]
      exact hrule.led

/-- A small step keeps the authority, or gives up the role. -/
theorem Micro.commands {σ σ' : St V} (h : Micro P I σ σ') (hgenuine : I.Genuine)
    (hmode : σ.node.ownership = false) (ho : Opened P σ.node)
    (hc : σ.node.role ≠ .follower → Commands P σ.node) :
    σ'.node.role ≠ .follower → Commands P σ'.node := by
  intro hrole'
  cases h with
  | learn hl =>
      have hrole : σ'.node.role = σ.node.role := congrArg Fixed.role hl.fixed
      rw [hrole] at hrole'
      exact hl.commands (hc hrole')
  | @idle role _ _ _ _ _ _ _ _ nextSlot _ _ _ hrole _ _ hnext =>
      rcases hrole with rfl | rfl
      · have hc := hc hrole'
        refine ⟨hc.round, hc.mine, hc.promised, hc.chunk, fun i hi => ?_⟩
        have hrule := hc.cells i hi
        have hgrows : σ.node.nextSlot ≤ nextSlot := by omega
        exact ⟨hrule.promised, hrule.voted, hrule.used, hrule.driven, fun hleader hvote =>
          (hrule.led hleader hvote).trans_le hgrows⟩
      · exact absurd rfl hrole'
  | progress =>
      have hc := hc hrole'
      refine ⟨hc.round, hc.mine, hc.promised, hc.chunk, fun i hi => ?_⟩
      have hrule := hc.cells i hi
      exact ⟨hrule.promised, hrule.voted, hrule.used, hrule.driven, hrule.led⟩
  | promise _ hyields =>
      have hc := hc hrole'
      rcases hyields with hfollower | rfl
      · exact absurd hfollower hrole'
      · refine ⟨hc.round, hc.mine, rfl, hc.chunk, fun i hi => ?_⟩
        have hrule := hc.cells i hi
        exact ⟨hrule.promised, hrule.voted, hrule.used, hrule.driven, hrule.led⟩
  | promiseAt _ _ _ _ hreason =>
      rcases hreason with hown | ⟨sender, first, last, hheard⟩
      · rw [hmode] at hown
        cases hown
      · cases hgenuine _ hheard
  | @vote sender ballot slot value hheard _ _ _ _ _ hzero _ _ hyields =>
      have hround : 0 < ballotRound ballot := by
        refine Nat.pos_of_ne_zero fun h0 => ?_
        rw [(hzero h0).1] at hmode
        cases hmode
      rcases hyields hround with hfollower | rfl
      · exact absurd hfollower hrole'
      · obtain ⟨hsigned, hother⟩ := hgenuine _ hheard
        rcases hsigned with hsender | h0
        · exact absurd ((hc hrole').mine.symm.trans hsender) hother
        · exact absurd h0 hround.ne'
  | @drive slot ballot value hballot hsource _ _ hheld =>
      subst hballot
      have hc := hc hrole'
      refine ⟨hc.round, hc.mine, hc.promised, hc.chunk, fun i hi =>
        Ruled.ofVote hc.cells hheld hsource (fun hpreparing => ?_) hi⟩
      rcases hsource with ⟨hdrives, -⟩ | ⟨hleader, -⟩
      · exact hdrives.last.trans (ho.chunk hpreparing).2
      · rw [hleader] at hpreparing
        cases hpreparing
  | own hown =>
      rw [hmode] at hown
      cases hown
  | acknowledge =>
      have hc := hc hrole'
      refine ⟨hc.round, hc.mine, hc.promised, hc.chunk, fun i hi => ?_⟩
      have hrule := hc.cells i hi
      exact ⟨hrule.promised, hrule.voted, hrule.used, hrule.driven, hrule.led⟩
  | @report _ member offset _ slot vote state value _ _ hrole _ hfrozen =>
      have hfollower : σ.node.role ≠ .follower := by
        rw [hrole]
        simp
      refine (hc hfollower).report ?_ ?_ ?_ ?_ ?_ ?_ ?_ hfrozen <;>
        (dsimp only; unfold recordReport; dsimp only; split_ifs <;> rfl)
  | manifest _ _ hrole _ hfrozen =>
      have hfollower : σ.node.role ≠ .follower := by
        rw [hrole]
        simp
      exact (hc hfollower).report rfl rfl rfl rfl rfl rfl rfl hfrozen
  | freeze hrole hfrozen =>
      have hc := hc hrole'
      refine ⟨hc.round, hc.mine, hc.promised, hc.chunk, fun i hi => ?_⟩
      have hrule := hc.cells i hi
      refine ⟨hrule.promised, hrule.voted, hrule.used, fun hpreparing hvote => ?_, hrule.led⟩
      obtain ⟨hmax, hchunk⟩ := hrule.driven hpreparing hvote
      refine ⟨hmax, hchunk.imp_right fun ⟨h, _⟩ => ?_⟩
      rw [hfrozen] at h
      cases h
  | nextChunk hrole _ _ hlast =>
      have hc := hc hrole'
      have hchunk := hc.chunk hrole
      refine ⟨hc.round, hc.mine, hc.promised, fun _ => ?_, fun i hi => ?_⟩
      · show σ.node.recoverLast + 1 ≤
          if σ.node.ownership then _ else slotAdd (σ.node.recoverLast + 1) (P.C - 1)
        rw [hmode]
        exact le_slotAdd _ _
      · have hrule := hc.cells i hi
        refine ⟨hrule.promised, hrule.voted, hrule.used, fun hpreparing hvote => ?_, hrule.led⟩
        obtain ⟨hmax, hslot⟩ := hrule.driven hrole hvote
        refine ⟨hmax, Or.inl ?_⟩
        show (σ.node.ledger.cells i).slot < σ.node.recoverLast + 1
        rcases hslot with hlow | ⟨-, hlow, -⟩ <;> omega
  | @lead next hrole _ _ _ hnext =>
      have hfollower : σ.node.role ≠ .follower := by
        rw [hrole]
        simp
      have hc := hc hfollower
      refine ⟨hc.round, hc.mine, hc.promised, fun h => (by cases h), fun i hi => ?_⟩
      have hrule := hc.cells i hi
      refine ⟨hrule.promised, hrule.voted, hrule.used, fun h => (by cases h), fun _ hvote => ?_⟩
      obtain ⟨hmax, -⟩ := hrule.driven hrole hvote
      have hused := (ledgerHighestUsed_bounds σ.node.ledger).1 i hi (hrule.used hvote)
      show (σ.node.ledger.cells i).slot < next
      rw [hnext]
      unfold slotAdd
      omega

omit [DecidableEq V] in
/-- The step that ends a transition starts with a fresh ballot, or keeps the authority. -/
theorem Final.commands {n₀ : Node V} {σ σ' : St V} (h : Final P I n₀ σ σ')
    (hmode : n₀.ownership = false) (hid : σ.node.id < 2 ^ 16)
    (hc : σ.node.role ≠ .follower → Commands P σ.node) :
    σ'.node.role ≠ .follower → Commands P σ'.node := by
  intro hrole'
  cases h with
  | @campaign round noop _ _ hround =>
      have hfresh := nextRound_fresh hround
      have hpriority := σ.node.priority.isLt
      refine ⟨?_, ballotMake_node hid, rfl, fun _ => le_slotAdd _ _, fun i hi => ?_⟩
      · show 0 < ballotRound (ballotMake round σ.node.priority σ.node.id)
        rw [ballotMake_round hpriority hid]
        exact Nat.zero_lt_of_lt hfresh.promised
      · have hvote : (σ.node.ledger.cells i).voteBallot <
            ballotMake round σ.node.priority σ.node.id := lt_ballotMake (hfresh.votes i hi)
        exact ⟨(lt_ballotMake (hfresh.promises i hi)).le, hvote.le, fun h => absurd h hvote.ne,
          fun _ h => absurd h hvote.ne, fun h => (by cases h)⟩
  | revoke hown =>
      rw [hmode] at hown
      cases hown
  | answer =>
      have hc := hc hrole'
      refine ⟨hc.round, hc.mine, hc.promised, hc.chunk, fun i hi => ?_⟩
      have hrule := hc.cells i hi
      exact ⟨hrule.promised, hrule.voted, hrule.used, hrule.driven, hrule.led⟩

/-! ## What members in campaign mode send -/

/-- The proposals on record are at ballots of this node. -/
def Signed (n : Node V) : Prop :=
  ∀ cell, ballotNode (n.lead cell).ballot = n.id ∨ ballotRound (n.lead cell).ballot = 0

/-- A transition of a node in campaign mode, on its way. -/
structure Campaigns (P : Params) (σ : St V) : Prop where
  mode : σ.node.ownership = false
  id : σ.node.id < 2 ^ 16
  opened : Opened P σ.node
  commands : σ.node.role ≠ .follower → Commands P σ.node
  signed : Signed σ.node
  genuine : ∀ e ∈ σ.effects.messages, e.Genuine

omit [DecidableEq V] in
/-- What a small step may send is genuine. -/
theorem Sendable.genuine {σ : St V} {e : Envelope V} (h : Sendable P I σ e)
    (hsigned : Signed σ.node) : e.Genuine := by
  obtain ⟨sender, recipient, message⟩ := e
  obtain ⟨hsender, hback⟩ := h
  dsimp only at hsender
  subst hsender
  cases message with
  | accept ballot slot value =>
      obtain ⟨hother, cell, -, hballot, -⟩ := hback
      refine ⟨?_, hother⟩
      rw [← hballot]
      exact hsigned cell
  | prepare => exact hback.elim
  | _ => trivial

theorem Micro.signed {σ σ' : St V} (h : Micro P I σ σ') (hc : Campaigns P σ) :
    Signed σ'.node := by
  have hid : σ'.node.id = σ.node.id := congrArg Static.id h.static
  have hsame : σ'.node.lead = σ.node.lead → Signed σ'.node := by
    intro heq cell
    rw [heq, hid]
    exact hc.signed cell
  cases h with
  | learn hl => exact hsame hl.lead
  | @drive slot ballot value hballot hsource =>
      intro cell
      by_cases hcell : cell = cellOf slot P.W
      · subst hcell
        have hrole : σ.node.role ≠ .follower := by
          rcases hsource with ⟨hdrives, -⟩ | ⟨hleader, -⟩
          · rw [hdrives.role]
            simp
          · rw [hleader]
            simp
        refine Or.inl ?_
        simp only [voteForProposal, St.addWrite, Function.update_self]
        rw [hballot]
        exact (hc.commands hrole).mine
      · simpa [voteForProposal, St.addWrite, hcell] using hc.signed cell
  | own hown =>
      rw [hc.mode] at hown
      cases hown
  | @acknowledge sender member ballot slot decidedThrough lead _ _ _ _ _ hlead =>
      intro cell
      by_cases hcell : cell = cellOf slot P.W
      · subst hcell
        simpa [hlead] using hc.signed (cellOf slot P.W)
      · simpa [hcell] using hc.signed cell
  | report =>
      refine hsame ?_
      unfold recordReport
      dsimp only
      split_ifs <;> rfl
  | _ => exact hsame rfl

/-- A small step goes on with such a transition. -/
theorem Micro.campaigns {σ σ' : St V} (h : Micro P I σ σ') (hgenuine : I.Genuine)
    (hc : Campaigns P σ) : Campaigns P σ' := by
  have hstatic := h.static
  have hmode : σ'.node.ownership = σ.node.ownership := congrArg Static.ownership hstatic
  have hid : σ'.node.id = σ.node.id := congrArg Static.id hstatic
  refine ⟨hmode.trans hc.mode, by rw [hid]; exact hc.id, (Run.single h).opened hc.opened,
    h.commands hgenuine hc.mode hc.opened hc.commands, h.signed hc, fun e he => ?_⟩
  cases h with
  | learn hl =>
      cases hl with
      | send hs =>
          rcases List.mem_append.mp he with he | he
          · exact hc.genuine e he
          · exact (hs e he).genuine hc.signed
      | _ => exact hc.genuine e he
  | nextChunk =>
      rcases List.mem_append.mp he with he | he
      · exact hc.genuine e he
      · obtain ⟨peer, -, rfl⟩ := List.mem_map.mp he
        show (if σ.node.ownership then PrepareScope.bounded else .global) = .global
        rw [hc.mode]
        rfl
  | _ => exact hc.genuine e he

omit [DecidableEq V] in
theorem Final.campaigns {n₀ : Node V} {σ σ' : St V} (h : Final P I n₀ σ σ')
    (hmode : n₀.ownership = false) (hc : Campaigns P σ) : Campaigns P σ' := by
  have hstatic := h.static
  have hmode' : σ'.node.ownership = σ.node.ownership := congrArg Static.ownership hstatic
  have hid : σ'.node.id = σ.node.id := congrArg Static.id hstatic
  refine ⟨hmode'.trans hc.mode, by rw [hid]; exact hc.id, h.opened hc.opened,
    h.commands hmode hc.id hc.commands, ?_, fun e he => ?_⟩
  · cases h with
    | answer => exact hc.signed
    | _ => exact fun cell => Or.inr (show ballotRound 0 = 0 by decide)
  · cases h with
    | revoke hown =>
        rw [hmode] at hown
        cases hown
    | campaign =>
        rcases List.mem_append.mp he with he | he
        · exact hc.genuine e he
        · obtain ⟨peer, -, rfl⟩ := List.mem_map.mp he
          rfl
    | answer =>
        rcases List.mem_append.mp he with he | he
        · rcases List.mem_append.mp he with he | he
          · exact hc.genuine e he
          · obtain ⟨cell, -, rfl⟩ := List.mem_map.mp he
            trivial
        · cases List.mem_singleton.mp he
          trivial

omit [DecidableEq V] in
/-- The host's own operations keep authority and records. -/
theorem Hosted.campaigns {n : Node V} {σ : St V} (h : Hosted n σ) (ho : Opened P σ.node)
    (hpromised : σ.node.ledger.promised = n.ledger.promised)
    (hused : σ.node.ledger.used = n.ledger.used) (hchunk : σ.node.recoverBase = n.recoverBase ∧
      σ.node.recoverLast = n.recoverLast ∧ σ.node.recoveryReady = n.recoveryReady)
    (hchoice : σ.node.recovered = n.recovered ∧ σ.node.noop = n.noop)
    (hnext : σ.node.nextSlot = n.nextSlot) (hc : Campaigns P (St.start n)) : Campaigns P σ := by
  obtain ⟨hbase, hlast, hready⟩ := hchunk
  obtain ⟨hrec, hnoop⟩ := hchoice
  refine ⟨h.modes.2.trans hc.mode, by rw [h.id]; exact hc.id, ho, fun hrole => ?_, fun cell => ?_,
    fun e he => ?_⟩
  · have hsame : σ.node.role = n.role := h.role.resolve_right hrole
    rw [hsame] at hrole
    have hcommands := hc.commands hrole
    refine ⟨?_, ?_, ?_, ?_, fun i hi => ?_⟩
    · rw [h.ballot]
      exact hcommands.round
    · rw [h.ballot, h.id]
      exact hcommands.mine
    · rw [hpromised, h.ballot]
      exact hcommands.promised
    · rw [hsame, hbase, hlast]
      exact hcommands.chunk
    · have hrule := hcommands.cells i hi
      constructor <;> rw [h.cells, h.ballot]
      · exact hrule.promised
      · exact hrule.voted
      · rw [hused]
        exact hrule.used
      · unfold Selects
        rw [hsame, hbase, hlast, hready, hrec, hnoop]
        exact hrule.driven
      · rw [hsame, hnext]
        exact hrule.led
  · rw [h.lead, h.id]
    exact hc.signed cell
  · rw [h.messages] at he
    cases he

omit [DecidableEq V] in
/-- An operation hears its envelope only. -/
theorem operation_genuine {n : Node V} {op : Operation V}
    (hgenuine : ∀ e, op = .step e → e.Genuine) : (op.input n).Genuine := by
  intro e he
  cases op with
  | step e' =>
      cases he
      exact hgenuine _ rfl
  | call c => cases c <;> cases he
  | learnChosen =>
      cases he
      trivial
  | _ => cases he

/-- An operation of a node in campaign mode. -/
theorem operate_campaigns {n : Node V} (hc : Campaigns P (St.start n)) {op : Operation V}
    (hgenuine : ∀ e, op = .step e → e.Genuine) :
    Campaigns P (operate P n op) ∧ Campaigns P (St.start (operate P n op).node) := by
  have hdone : Campaigns P (operate P n op) := by
    rcases operate_cases hc.opened op with ⟨τ, hrun, hlast⟩ | ⟨anchor, rfl⟩ | ⟨through, rfl⟩ |
      ⟨enabled, rfl⟩
    · have hinput : (op.input n).Genuine := operation_genuine hgenuine
      have hτ : Campaigns P τ := hrun.preserves (fun hm hc => hm.campaigns hinput hc) hc
      rcases hlast with heq | hfinal
      · exact Eq.mpr (congrArg (Campaigns P) heq) hτ
      · exact hfinal.campaigns hc.mode hτ
    · have hhost := nodeInstallChosenTrim_hosted n anchor
      have ho := operate_opened hc.opened (.installTrim anchor)
      refine hhost.campaigns ho ?_ ?_ ?_ ?_ ?_ hc <;> unfold nodeInstallChosenTrim <;> dsimp only <;>
        split_ifs <;> simp [St.addWrite, St.withLedger]
    · have hhost := nodeAdvanceMemoryFloor_hosted n through
      have ho := operate_opened hc.opened (.advanceFloor through)
      refine hhost.campaigns ho ?_ ?_ ?_ ?_ ?_ hc <;> unfold nodeAdvanceMemoryFloor <;>
        split_ifs <;> simp [St.start]
    · have hhost := nodeSetCampaignEnabled_hosted n enabled
      have ho := operate_opened hc.opened (.setCampaignEnabled enabled)
      exact hhost.campaigns ho rfl rfl ⟨rfl, rfl, rfl⟩ ⟨rfl, rfl⟩ rfl hc
  exact ⟨hdone, hdone.mode, hdone.id, hdone.opened, hdone.commands, hdone.signed,
    fun e he => absurd he List.not_mem_nil⟩

end Steps

/-! ## Proposals -/

section Proposals

variable [DecidableEq V]

/-- The error is neither of the two that tell a proposer that it was overtaken. -/
def Unrefused (e : Error) : Prop :=
  e ≠ .notLeader ∧ e ≠ .conflictingValue

/-- A proposal at the ballot of a leader or a candidate is not refused, unless the slot holds another
value at this ballot. -/
theorem sendAccept_unrefused {σ : St V} {slot : Nat} {value : V} (hc : Commands P σ.node)
    (hfree : (σ.node.ledger.cellAt P slot).slot = slot →
      (σ.node.ledger.cellAt P slot).state = .voted →
        (σ.node.ledger.cellAt P slot).voteBallot = σ.node.ballot →
          (σ.node.ledger.cellAt P slot).value = value) :
    Unrefused (sendAccept P σ slot σ.node.ballot value).2 := by
  by_cases hclaims : (claimLive P σ.node slot).2 = none
  · have hresult : (sendAccept P σ slot σ.node.ballot value).2 = .windowOverrun := by
      unfold sendAccept
      rw [show claimLive P σ.node slot = ((claimLive P σ.node slot).1, none) from
        Prod.ext rfl hclaims]
    rw [hresult]
    exact ⟨by simp, by simp⟩
  have hok : (sendAccept P σ slot σ.node.ballot value).2 = .none := by
    cases hdecided : ledgerChosenAt P σ.node.ledger slot with
    | some v => rw [sendAccept_decided hclaims hdecided]
    | none =>
        have hpromised : governing P σ.node.ledger slot ≤ σ.node.ballot := by
          have hcell := (hc.cells (cellOf slot P.W) (cellOf_lt P slot)).promised
          unfold governing
          split_ifs
          · exact max_le hc.promised.le hcell
          · exact hc.promised.le
        obtain ⟨τ, heq, -⟩ := sendAccept_cast
          (⟨hclaims, hdecided, hpromised, fun _ => hfree⟩ : Castable P σ.node slot _ value)
        rw [heq]
  rw [hok]
  exact ⟨by simp, by simp⟩

/-- A leader's next proposal is not refused. -/
theorem proposeNext_unrefused {σ : St V} (hc : Campaigns P σ) (hrole : σ.node.role = .leader)
    (hroom : σ.node.nextSlot ≠ maxSlot) (value : V) : Unrefused (proposeNext P σ value).2.2 := by
  have hcommands : Commands P σ.node := hc.commands (by rw [hrole]; simp)
  have hsucc : slotSucc σ.node.nextSlot = σ.node.nextSlot + 1 := if_neg hroom
  have hadvanced : Commands P { σ.node with nextSlot := σ.node.nextSlot + 1 } := by
    refine ⟨hcommands.round, hcommands.mine, hcommands.promised, hcommands.chunk, fun i hi => ?_⟩
    have hrule := hcommands.cells i hi
    exact ⟨hrule.promised, hrule.voted, hrule.used, hrule.driven, fun hleader hvote =>
      (hrule.led hleader hvote).trans (Nat.lt_succ_self _)⟩
  unfold proposeNext
  dsimp only
  rw [hsucc]
  refine @sendAccept_unrefused V P _
    { σ with node := { σ.node with nextSlot := σ.node.nextSlot + 1 } } σ.node.nextSlot value
    hadvanced fun hslot _ hvote => ?_
  -- the next slot is above every vote of this term
  have hled := (hcommands.cells (cellOf σ.node.nextSlot P.W) (cellOf_lt P _)).led hrole hvote
  simp only [Ledger.cellAt] at hslot
  omega

/-- A value that the gate admits is not refused. -/
theorem nodePropose_unrefused {n : Node V} (hc : Campaigns P (St.start n))
    (hgate : proposalGate n = .none) (value : V) : Unrefused (nodePropose P n value).2.2 := by
  have hmode : n.ownership = false := hc.mode
  have hrole : n.role = .leader := by
    rcases (proposalGate_none hgate).2 with hown | ⟨-, hrole⟩
    · rw [hmode] at hown
      cases hown
    · exact hrole
  unfold nodePropose
  rw [hgate]
  dsimp only
  rw [if_neg (by rw [hmode]; simp : ¬ n.ownership = true)]
  split_ifs with hmax hfull
  · exact ⟨by simp, by simp⟩
  · exact ⟨by simp, by simp⟩
  · exact proposeNext_unrefused hc hrole hmax value

/-- A batch of a leader is not refused. -/
theorem proposeAll_unrefused {values : List V} :
    ∀ {σ : St V}, Campaigns P σ → Leading I values.length σ → I.Genuine →
      (∀ v ∈ values, v ∈ I.values) → Unrefused (proposeAll (proposeNext P) σ values).2.2 := by
  induction values with
  | nil => exact fun _ _ _ _ => ⟨by simp [proposeAll], by simp [proposeAll]⟩
  | cons value rest ih =>
      intro σ hc hleading hgenuine hvalues
      have hfirst := proposeNext_unrefused hc hleading.role (hleading.room 0 (by simp)) value
      obtain ⟨hrun, hnext⟩ := proposeNext_run (P := P) rest.length (hvalues value (by simp)) hleading
      have hc' : Campaigns P (proposeNext P σ value).1 :=
        hrun.preserves (fun hm hc => hm.campaigns hgenuine hc) hc
      rw [proposeAll]
      rcases hp : proposeNext P σ value with ⟨τ, slot, e⟩
      rw [hp] at hfirst hnext hc'
      cases e with
      | none =>
          have hrest := ih hc' hnext hgenuine fun v hv => hvalues v (by simp [hv])
          dsimp only at hrest ⊢
          rcases hall : proposeAll (proposeNext P) τ rest with ⟨ρ, slots, e⟩
          rw [hall] at hrest
          cases e <;> exact hrest
      | _ => exact hfirst

/-- A batch that the gate admits is not refused. -/
theorem nodeProposeBatch_unrefused {n : Node V} (hc : Campaigns P (St.start n))
    (hgate : proposalGate n = .none) (values : List V) (capacity : Nat) :
    Unrefused (nodeProposeBatch P n values capacity).2.2 := by
  have hmode : n.ownership = false := hc.mode
  have hrole : n.role = .leader := by
    rcases (proposalGate_none hgate).2 with hown | ⟨-, hrole⟩
    · rw [hmode] at hown
      cases hown
    · exact hrole
  unfold nodeProposeBatch
  rw [hgate]
  dsimp only
  rw [if_neg (by rw [hmode]; simp : ¬ n.ownership = true)]
  split_ifs with hempty hlarge hbuffer hexhausted hfull
  · exact ⟨by simp, by simp⟩
  · exact ⟨by simp, by simp⟩
  · exact ⟨by simp, by simp⟩
  · exact ⟨by simp, by simp⟩
  · exact ⟨by simp, by simp⟩
  · refine proposeAll_unrefused (I := { values := values }) hc
      ⟨hrole, hmode, hc.opened.term hrole, fun k hk => ?_⟩ (fun e he => by cases he) fun v hv => hv
    show n.nextSlot + k ≠ maxSlot
    omega

/-! ## The drive of a chunk -/

/-- Nothing that `resolve_chunk` proposes is refused. -/
theorem resolveCalls_unrefused {noop : V} {stop : Nat} (hgenuine : I.Genuine) :
    ∀ {fuel : Nat} {σ : St V} {slot : Nat}, slot + fuel = stop → Campaigns P σ →
      (0 < fuel → Driving P σ.node noop slot stop) → ∀ call ∈ resolveCalls P noop fuel σ slot,
        Unrefused (sendAccept P call.1 call.2.1 call.1.node.ballot call.2.2).2 := by
  intro fuel
  induction fuel with
  | zero => exact fun _ _ _ call hcall => absurd hcall List.not_mem_nil
  | succ fuel ih =>
      intro σ slot hstop hc hdriving call hcall
      have hd := hdriving (Nat.succ_pos fuel)
      have hwindow : slot ≤ σ.node.memoryFloor + P.W := by
        have := hd.window
        omega
      have hdrives : Drives σ.node slot := hd.drives le_rfl (by omega)
      -- the calls after `slot` was handled in `τ`
      have hrest : ∀ {τ : St V}, Run P I σ τ → τ.node.fixed = σ.node.fixed →
          call ∈ resolveCalls P noop fuel τ (slot + 1) →
            Unrefused (sendAccept P call.1 call.2.1 call.1.node.ballot call.2.2).2 :=
        fun hrun hfixed hcall => ih (by omega)
          (hrun.preserves (fun hm hc => hm.campaigns hgenuine hc) hc)
          (fun _ => (hd.congr hfixed).next) call hcall
      unfold resolveCalls at hcall
      by_cases hmax : slot = maxSlot
      · rw [if_pos hmax] at hcall
        cases hcall
      rw [if_neg hmax] at hcall
      dsimp only at hcall
      cases hresident : ledgerChosenAt P σ.node.ledger slot with
      | some value =>
          rw [hresident] at hcall
          have hrun : LearnRun P I σ _ := broadcastCommit_run hresident
          exact hrest hrun.run hrun.fixed hcall
      | none =>
          rw [hresident] at hcall
          dsimp only at hcall
          by_cases hchosen : (σ.node.recovered (slot - σ.node.recoverBase)).slot = slot ∧
              (σ.node.recovered (slot - σ.node.recoverBase)).state = .chosen
          · rw [if_pos hchosen] at hcall
            have hrun : LearnRun P I σ _ := recordCommit_run
              (.recovered hdrives hchosen.1 hchosen.2 rfl) (Or.inr hwindow)
            rcases hcommit : recordCommit P σ slot
              (σ.node.recovered (slot - σ.node.recoverBase)).value with ⟨τ, e⟩
            rw [hcommit] at hrun hcall
            cases e with
            | none =>
                dsimp only at hcall
                cases hdecided : ledgerChosenAt P τ.node.ledger slot with
                | none =>
                    rw [hdecided] at hcall
                    exact hrest hrun.run hrun.fixed hcall
                | some decided =>
                    rw [hdecided] at hcall
                    have hsend : LearnRun P I _ _ := broadcastCommit_run hdecided
                    exact hrest (hrun.trans hsend).run (hrun.trans hsend).fixed hcall
            | _ => cases hcall
          · rw [if_neg hchosen] at hcall
            have hselects := hd.selects hchosen
            rcases List.mem_cons.mp hcall with rfl | hcall
            · -- a vote of this term in the chunk is for the value of the chunk's choice
              refine sendAccept_unrefused (hc.commands (by rw [hd.role]; simp))
                fun hslot hstate hvote => ?_
              obtain ⟨-, hchunk⟩ := ((hc.commands (by rw [hd.role]; simp)).cells (cellOf slot P.W)
                (cellOf_lt P _)).driven hd.role hvote
              simp only [Ledger.cellAt] at hslot
              rw [hslot] at hchunk
              rcases hchunk with hlow | ⟨-, -, hheld⟩
              · exact absurd hd.base (Nat.not_le.mpr hlow)
              · exact (hheld hstate).unique hselects
            · have hsend := sendAccept_run (P := P)
                (.drive hdrives hselects hmax : Proposal I _ _ _)
              rcases haccept : sendAccept P σ slot σ.node.ballot
                (if (σ.node.recovered (slot - σ.node.recoverBase)).slot = slot ∧
                    (σ.node.recovered (slot - σ.node.recoverBase)).state = .voted then
                  (σ.node.recovered (slot - σ.node.recoverBase)).value else noop) with ⟨τ, e⟩
              rw [haccept] at hsend hcall
              cases e with
              | none => exact hrest hsend.run hsend.fixed hcall
              | _ => cases hcall

/-- Nothing that `resolve_chunk` proposes from a frozen state is refused. -/
theorem driveCalls_unrefused {σ : St V} {noop : V} (hc : Campaigns P σ)
    (hrole : σ.node.role = .preparing) (hfrozen : σ.node.recoveryReady = true)
    (hnoop : σ.node.noop = some noop) : ∀ call ∈ driveCalls P σ noop,
      Unrefused (sendAccept P call.1 call.2.1 call.1.node.ballot call.2.2).2 := by
  intro call hcall
  unfold driveCalls at hcall
  dsimp only at hcall
  split_ifs at hcall
  · cases hcall
  · exact resolveCalls_unrefused (I := {}) (fun e he => by cases he) rfl hc
      (driving_of_frozen hrole hfrozen hnoop rfl) call hcall

end Proposals

/-! ## Every reachable state -/

section Reachability

variable [DecidableEq V] [Inhabited V]

omit [Inhabited V] in
theorem nodeBeginRecovery_modes {n n' : Node V} {anchor : TrimAnchor}
    (h : nodeBeginRecovery P n anchor = .ok n') : n'.id = n.id ∧ n'.ownership = n.ownership := by
  unfold nodeBeginRecovery at h
  split at h
  · cases h
    unfold nodeResumeAt
    dsimp only
    split_ifs <;> exact ⟨rfl, rfl⟩
  · cases h

mutual

/-- The nodes of a cluster whose members all run in campaign mode.  A node is opened, installs state
images, serves its host and steps on envelopes of members; their order is arbitrary, and an envelope
may arrive at any time, any number of times, or never. -/
inductive Campaigning (P : Params) : Node V → Prop
  | opened {n : Node V} (h : Opens P n) (hid : n.id < 2 ^ 16) (hmode : n.ownership = false) :
      Campaigning P n
  | recovered {n n' : Node V} {anchor : TrimAnchor} (hn : Campaigning P n)
      (hwords : n.ledger.Words) (hanchor : anchor.chosenTrimSlot ≤ maxSlot)
      (h : nodeBeginRecovery P n anchor = .ok n') : Campaigning P n'
  | operated {n : Node V} {op : Operation V} (hn : Campaigning P n)
      (hheard : ∀ e, op = .step e → Sent P e) : Campaigning P (operate P n op).node

/-- The envelopes of such members: what a transition sends, and the decisions that hosts serve. -/
inductive Sent (P : Params) : Envelope V → Prop
  | transition {n : Node V} {op : Operation V} {e : Envelope V} (hn : Campaigning P n)
      (hheard : ∀ e, op = .step e → Sent P e) (h : e ∈ (operate P n op).effects.messages) : Sent P e
  | served {sender recipient slot : Nat} {value : V} :
      Sent P ⟨sender, recipient, .commit slot value⟩

end

omit [DecidableEq V] [Inhabited V] in
/-- A follower that drives nothing. -/
theorem Campaigns.idle {n : Node V} (ho : Opened P n) (hid : n.id < 2 ^ 16)
    (hmode : n.ownership = false) (hidle : n.role = .follower ∧ n.lead = fun _ => {}) :
    Campaigns P (St.start n) := by
  refine ⟨hmode, hid, ho, fun h => absurd hidle.1 h, fun cell => Or.inr ?_,
    fun e he => absurd he List.not_mem_nil⟩
  show ballotRound (n.lead cell).ballot = 0
  rw [hidle.2]
  show ballotRound 0 = 0
  decide

mutual

/-- Every such node has its authority. -/
theorem Campaigning.campaigns {n : Node V} :
    Campaigning P n → Reachable P n ∧ Campaigns P (St.start n)
  | .opened h hid hmode =>
      ⟨h.reachable, .idle h.reachable.fit.opened hid hmode h.idle⟩
  | .recovered hn hwords hanchor h => by
      obtain ⟨hreach, hc⟩ := hn.campaigns
      have hreach' : Reachable P n := .recover hreach hwords hanchor h
      have hstatic := nodeBeginRecovery_modes h
      exact ⟨hreach', .idle hreach'.fit.opened (by rw [hstatic.1]; exact hc.id)
        (hstatic.2.trans hc.mode) (nodeBeginRecovery_idle h)⟩
  | .operated hn hheard => by
      obtain ⟨hreach, hc⟩ := hn.campaigns
      exact ⟨hreach.operate _, (operate_campaigns hc fun e he => (hheard e he).genuine).2⟩

/-- Every such envelope is genuine. -/
theorem Sent.genuine {e : Envelope V} : Sent P e → e.Genuine
  | .transition hn hheard h => by
      obtain ⟨-, hc⟩ := hn.campaigns
      exact (operate_campaigns hc fun e he => (hheard e he).genuine).1.genuine _ h
  | .served => trivial

end

/-- What holds of every node that starts, and is kept by every state image and every operation, holds
of every node of the cluster. -/
theorem Campaigning.invariant {motive : Node V → Prop}
    (hopened : ∀ {n}, Opens P n → motive n)
    (hrecovered : ∀ {n n' anchor}, motive n → nodeBeginRecovery P n anchor = .ok n' → motive n')
    (hoperated : ∀ {n op}, Campaigning P n → (∀ e, op = .step e → Sent P e) → motive n →
      motive (operate P n op).node) {n : Node V} : Campaigning P n → motive n
  | .opened h _ _ => hopened h
  | .recovered hn _ _ h => hrecovered (hn.invariant hopened hrecovered hoperated) h
  | .operated hn hheard => hoperated hn hheard (hn.invariant hopened hrecovered hoperated)

/-! ## No authority is lost unseen -/

omit [Inhabited V] in
/-- A small step leaves the ballot as it is. -/
theorem Micro.ballot {σ σ' : St V} (h : Micro P I σ σ') : σ'.node.ballot = σ.node.ballot := by
  cases h with
  | learn hl => exact congrArg Fixed.ballot hl.fixed
  | report =>
      dsimp only
      unfold recordReport
      dsimp only
      split_ifs <;> rfl
  | _ => rfl

omit [Inhabited V] in
/-- A message leaves the ballot of the node as it is. -/
theorem operate_step_ballot {n : Node V} (ho : Opened P n) (e : Envelope V) :
    (operate P n (.step e)).node.ballot = n.ballot := by
  obtain ⟨τ, hrun, hlast⟩ := nodeStep_completes (P := P) (I := e.input) ho rfl (Or.inl rfl)
  have hτ : τ.node.ballot = n.ballot :=
    hrun.preserves (motive := fun τ => τ.node.ballot = n.ballot) (fun hm h => hm.ballot.trans h) rfl
  refine Eq.trans ?_ hτ
  rcases hlast with heq | hfinal
  · exact congrArg (fun σ : St V => σ.node.ballot) heq
  · have hends : ∀ {σ : St V}, Final P e.input n τ σ → σ.node.ballot = τ.node.ballot := by
      intro σ hfinal
      cases hfinal with
      | campaign _ hnoop => cases hnoop
      | revoke _ hnoop => cases hnoop
      | answer => rfl
    exact hends hfinal

/-- A candidate and a leader hold their ballot: every promise and every vote is at most at it, and a
leader has no vote of its term at or above the next slot.  So none of their proposals is refused, and
a message that brings a promise above the ballot makes the node a follower. -/
theorem leader_authority {n : Node V} (hn : Campaigning P n) :
    (n.role ≠ .follower → n.ledger.promised = n.ballot ∧
      (∀ i < P.W, (n.ledger.cells i).promisedAt ≤ n.ballot ∧
        (n.ledger.cells i).voteBallot ≤ n.ballot) ∧
      (n.role = .leader → ∀ i < P.W, n.nextSlot ≤ (n.ledger.cells i).slot →
        (n.ledger.cells i).voteBallot ≠ n.ballot)) ∧
    (proposalGate n = .none → ∀ value values capacity,
      Unrefused (nodePropose P n value).2.2 ∧
        Unrefused (nodeProposeBatch P n values capacity).2.2) ∧
    ∀ op, (∀ e, op = .step e → Sent P e) →
      (∀ σ τ noop, resolvingState P n op = some σ → frozenState σ = some (τ, noop) →
        ∀ call ∈ driveCalls P τ noop,
          Unrefused (sendAccept P call.1 call.2.1 call.1.node.ballot call.2.2).2) ∧
      (∀ e, op = .step e → (operate P n op).node.ballot = n.ballot ∧
        (n.ballot < (operate P n op).node.ledger.promised ∨
          (∃ i < P.W, n.ballot < ((operate P n op).node.ledger.cells i).promisedAt) →
            (operate P n op).node.role = .follower)) := by
  obtain ⟨-, hc⟩ := hn.campaigns
  refine ⟨fun hrole => ?_, fun hgate value values capacity =>
    ⟨nodePropose_unrefused hc hgate value, nodeProposeBatch_unrefused hc hgate values capacity⟩,
    fun op hheard => ⟨fun σ τ noop hσ hτ => ?_, fun e he => ?_⟩⟩
  · have hcommands := hc.commands hrole
    refine ⟨hcommands.promised, fun i hi => ?_, fun hleader i hi hnext hvote => ?_⟩
    · exact ⟨(hcommands.cells i hi).promised, (hcommands.cells i hi).voted⟩
    · exact absurd ((hcommands.cells i hi).led hleader hvote) (Nat.not_lt.mpr hnext)
  · obtain ⟨hrun, hrole⟩ := resolvingState_run hσ
    have hinput : (op.input n).Genuine := operation_genuine fun e he => (hheard e he).genuine
    obtain ⟨hrun', hrole', hfrozen, hnoop⟩ := frozenState_run (P := P) (I := op.input n) hrole hτ
    have hcτ : Campaigns P τ :=
      (hrun.trans hrun').preserves (fun hm hc => hm.campaigns hinput hc) hc
    exact driveCalls_unrefused hcτ hrole' hfrozen hnoop
  · subst he
    have hballot : (operate P n (.step e)).node.ballot = n.ballot :=
      operate_step_ballot hc.opened e
    refine ⟨hballot, fun hraised => ?_⟩
    by_contra hrole
    have hcommands := (operate_campaigns hc fun e he => (hheard e he).genuine).1.commands hrole
    rcases hraised with hglobal | ⟨i, hi, hlocal⟩
    · rw [hcommands.promised, hballot] at hglobal
      exact absurd hglobal (lt_irrefl _)
    · have hle := (hcommands.cells i hi).promised
      rw [hballot] at hle
      exact absurd hlocal (Nat.not_lt.mpr hle)

end Reachability

/-- The second member of the trio, just initialized. -/
def trioSecond : Node Nat :=
  { initialNode 2 1 trio NodeOptions.zero with ownNext := 2 }

theorem trio_campaigning :
    Campaigning trioParams (trioNode (V := Nat) {}) ∧ Campaigning trioParams trioSecond :=
  ⟨.opened (.init ⟨[1, 2, 3], 0, 0, by decide, by decide⟩ (trioNode_init {})) (by decide) rfl,
    .opened (.init ⟨[1, 2, 3], 0, 0, by decide, by decide⟩
      (show nodeInit 2 trio NodeOptions.zero = .ok trioSecond from rfl)) (by decide) rfl⟩

/-- The trio's first member wins a term with messages that members sent. -/
theorem trioTerm_campaigning :
    Campaigning trioParams (operateAll trioParams (trioNode {}) trioTerm) := by
  obtain ⟨h₁, h₂⟩ := trio_campaigning
  have hcall : ∀ (c : Call Nat) (e : Envelope Nat), Operation.call c = .step e →
      Sent trioParams e := fun c e he => by cases he
  have hstep : ∀ {e : Envelope Nat}, Sent trioParams e → ∀ e', Operation.step e = .step e' →
      Sent trioParams e' := fun h e' he => by cases he; exact h
  have hprepare : ∀ e, e ∈ (operate trioParams (trioNode {}) (.call (.campaign 0))).effects.messages →
      Sent trioParams e := fun e he => .transition h₁ (hcall _) he
  have hself : Sent trioParams ⟨1, 1, .prepare (ballotMake 1 0 1) 1 1 .global⟩ :=
    hprepare _ (by decide +kernel)
  have hpeer : Sent trioParams ⟨1, 2, .prepare (ballotMake 1 0 1) 1 1 .global⟩ :=
    hprepare _ (by decide +kernel)
  have hcandidate := h₁.operated (hcall (.campaign 0))
  have hown : Sent trioParams ⟨1, 1, .promiseRange (ballotMake 1 0 1) {} 0 1 1 0 false⟩ :=
    .transition hcandidate (hstep hself) (by decide +kernel)
  have hother : Sent trioParams ⟨2, 1, .promiseRange (ballotMake 1 0 1) {} 0 1 1 0 false⟩ :=
    .transition h₂ (hstep hpeer) (by decide +kernel)
  exact ((hcandidate.operated (hstep hself)).operated (hstep hown)).operated (hstep hother)

/-- The new leader of the trio commands. -/
theorem leader_authority_trio :
    proposalGate (operateAll trioParams (trioNode {}) trioTerm) = .none ∧
      (operateAll trioParams (trioNode {}) trioTerm).ledger.promised =
        (operateAll trioParams (trioNode {}) trioTerm).ballot ∧
      Unrefused (nodePropose trioParams (operateAll trioParams (trioNode {}) trioTerm) 5).2.2 := by
  have hrole : (operateAll trioParams (trioNode {}) trioTerm).role ≠ .follower := by decide +kernel
  have hgate : proposalGate (operateAll trioParams (trioNode {}) trioTerm) = .none := by
    decide +kernel
  obtain ⟨hheld, hproposals, -⟩ := leader_authority trioTerm_campaigning
  exact ⟨hgate, (hheld hrole).1, (hproposals hgate 5 [] 0).1⟩

end PaxosOdin
