import PaxosOdin.Lifetime.CatchUp
import PaxosOdin.Transition.Sending

/-!
# Proposal admission in campaign mode

A leader admits client values into the slots from `next_slot` on.  The admission test looks at the
frontiers only: it trusts that `next_slot` is ahead of the memory floor and that no cell of the
requested slots holds a decision.  A leader that a newer one has overtaken keeps neither.

Main results:

- Theorem `proposeAll_cast`: a batch whose proposals are all castable is voted for as a whole.
- Theorem `proposeAll_uncast`: any other batch fails half-way, or succeeds without a vote.
- Theorem `proposal_admission`: admission is exact when `next_slot` is ahead of the floor and every
  requested slot of the window is castable.
- Theorem `proposal_lost`: a value that is admitted into a decided slot is lost.
-/

namespace PaxosOdin

variable {V : Type} {P : Params}

/-! ## Castable proposals -/

section Requests

variable [DecidableEq V]

omit [DecidableEq V] in
/-- A vote in another cell does not matter. -/
theorem Cast.castable_iff {σ σ' : St V} {slot ballot s b : Nat} {value v : V}
    (h : Cast P σ σ' slot ballot value) (hne : cellOf s P.W ≠ cellOf slot P.W) :
    Castable P σ'.node s b v ↔ Castable P σ.node s b v := by
  have hfloor := memoryFloor_of_fixed h.fixed
  have hcell := h.other _ hne
  have hlead := h.otherLead _ hne
  constructor
  · intro hs
    exact hs.congr hfloor.symm h.promised.symm hcell.symm hlead.symm
  · intro hs
    exact hs.congr hfloor h.promised hcell hlead

/-! ## One proposal -/

/-- The state in which `node_propose` calls `send_accept`. -/
def St.advance (σ : St V) : St V :=
  { σ with node := { σ.node with nextSlot := slotSucc σ.node.nextSlot } }

theorem proposeNext_eq (σ : St V) (value : V) :
    proposeNext P σ value =
      ((sendAccept P σ.advance σ.node.nextSlot σ.node.ballot value).1, σ.node.nextSlot,
        (sendAccept P σ.advance σ.node.nextSlot σ.node.ballot value).2) :=
  rfl

omit [DecidableEq V] in
theorem advance_castable {σ : St V} {slot ballot : Nat} {value : V} :
    Castable P σ.advance.node slot ballot value ↔ Castable P σ.node slot ballot value := by
  constructor
  · intro h
    exact h.congr rfl rfl rfl rfl
  · intro h
    exact h.congr rfl rfl rfl rfl

/-- What every proposal of a leader does: it votes in the next slot, or finds it decided, or is
refused.  In each case `next_slot` advances. -/
theorem proposeNext_cases (σ : St V) (value : V) :
    (∃ σ', Castable P σ.node σ.node.nextSlot σ.node.ballot value ∧
        proposeNext P σ value = (σ', σ.node.nextSlot, .none) ∧
        Cast P σ.advance σ' σ.node.nextSlot σ.node.ballot value) ∨
      (¬ Castable P σ.node σ.node.nextSlot σ.node.ballot value ∧
        proposeNext P σ value = (σ.advance, σ.node.nextSlot, .none)) ∨
      (¬ Castable P σ.node σ.node.nextSlot σ.node.ballot value ∧
        (proposeNext P σ value).2.2 ≠ .none ∧
        (proposeNext P σ value).1.node.fixed = σ.advance.node.fixed ∧
        (proposeNext P σ value).1.effects = σ.effects) := by
  rw [proposeNext_eq]
  by_cases hcast : Castable P σ.node σ.node.nextSlot σ.node.ballot value
  · obtain ⟨σ', heq, h⟩ := sendAccept_cast (advance_castable.mpr hcast)
    exact Or.inl ⟨σ', hcast, by rw [heq], h⟩
  · have hcast' := fun h => hcast (advance_castable.mp h)
    by_cases hdecided : (claimLive P σ.advance.node σ.node.nextSlot).2 = none ∨
        ledgerChosenAt P σ.advance.node.ledger σ.node.nextSlot = none
    · exact Or.inr (Or.inr ⟨hcast, sendAccept_refused hcast' hdecided⟩)
    · rw [not_or] at hdecided
      obtain ⟨v, hv⟩ := Option.ne_none_iff_exists'.mp hdecided.2
      have heq : sendAccept P σ.advance σ.node.nextSlot σ.node.ballot value =
          (σ.advance, .none) := sendAccept_decided hdecided.1 hv
      exact Or.inr (Or.inl ⟨hcast, by rw [heq]⟩)

/-! ## A batch -/

/-- The slots of the batch lie below the last slot of all. -/
def Below (n : Node V) (count : Nat) : Prop :=
  ∀ k < count, n.nextSlot + k ≠ maxSlot

/-- What a leader's proposals do to `next_slot` and to the records of votes, whatever they find: a
value is voted for in its own slot, if at all. -/
structure MovesOn (values : List V) (σ : St V) (r : St V × List Nat × Error) : Prop where
  le : σ.node.nextSlot ≤ r.1.node.nextSlot
  lt : r.2.2 ≠ .none → σ.node.nextSlot < r.1.node.nextSlot
  votes : ∀ b s v, .vote b s v ∈ r.1.effects.writes →
    .vote b s v ∈ σ.effects.writes ∨ ∃ i, s = σ.node.nextSlot + i ∧ values[i]? = some v

omit [DecidableEq V] in
theorem slotSucc_of_ne {slot : Nat} (h : slot ≠ maxSlot) : slotSucc slot = slot + 1 :=
  if_neg h

omit [DecidableEq V] in
/-- The votes a cast proposal records. -/
theorem Cast.vote_mem {σ σ' : St V} {slot ballot b s : Nat} {value v : V}
    (h : Cast P σ σ' slot ballot value) (hw : .vote b s v ∈ σ'.effects.writes) :
    .vote b s v ∈ σ.effects.writes ∨ (s = slot ∧ v = value) := by
  obtain ⟨rest, hwrites, hrest⟩ := h.written
  rw [hwrites] at hw
  rcases List.mem_append.mp hw with hold | hnew
  · exact Or.inl hold
  · rcases List.mem_cons.mp hnew with heq | hmem
    · cases heq
      exact Or.inr ⟨rfl, rfl⟩
    · cases hrest _ hmem

/-- One proposal moves `next_slot` by one and records no other vote. -/
theorem proposeNext_moves (σ : St V) (value : V) :
    (proposeNext P σ value).1.node.nextSlot = slotSucc σ.node.nextSlot ∧
      ∀ b s v, .vote b s v ∈ (proposeNext P σ value).1.effects.writes →
        .vote b s v ∈ σ.effects.writes ∨ (s = σ.node.nextSlot ∧ v = value) := by
  rcases proposeNext_cases (P := P) σ value with ⟨σ', -, heq, hcast⟩ | ⟨-, heq⟩ | ⟨-, -, hfixed, heff⟩
  · rw [heq]
    refine ⟨congrArg Fixed.nextSlot hcast.fixed, fun b s v hw => ?_⟩
    exact hcast.vote_mem hw
  · rw [heq]
    exact ⟨rfl, fun b s v hw => Or.inl hw⟩
  · refine ⟨congrArg Fixed.nextSlot hfixed, fun b s v hw => ?_⟩
    rw [heff] at hw
    exact Or.inl hw

/-- A batch moves on whatever it finds. -/
theorem proposeAll_moves {values : List V} {σ : St V} (hbelow : Below σ.node values.length) :
    MovesOn values σ (proposeAll (proposeNext P) σ values) := by
  induction values generalizing σ with
  | nil => exact ⟨le_rfl, fun h => absurd rfl h, fun b s v hw => Or.inl hw⟩
  | cons value values ih =>
      obtain ⟨hnext, hvotes⟩ := proposeNext_moves (P := P) σ value
      have hfirst : σ.node.nextSlot ≠ maxSlot := hbelow 0 (Nat.succ_pos _)
      rw [slotSucc_of_ne hfirst] at hnext
      rw [proposeAll]
      rcases hstep : proposeNext P σ value with ⟨τ, slot, e⟩
      rw [hstep] at hnext hvotes
      dsimp only at hnext hvotes
      have hstop : ∀ e, MovesOn (value :: values) σ (τ, ([] : List Nat), e) := by
        intro e
        refine ⟨by dsimp only; omega, fun _ => by dsimp only; omega, fun b s v hw => ?_⟩
        rcases hvotes b s v hw with hold | ⟨rfl, rfl⟩
        · exact Or.inl hold
        · exact Or.inr ⟨0, rfl, rfl⟩
      cases e with
      | none =>
          have hrest := ih (σ := τ) (by
            intro k hk
            have := hbelow (k + 1) (Nat.succ_lt_succ hk)
            omega)
          dsimp only
          rcases hall : proposeAll (proposeNext P) τ values with ⟨ρ, slots, e⟩
          rw [hall] at hrest
          obtain ⟨hle, hlt, hmem⟩ := hrest
          dsimp only at hle hlt hmem
          have hwhole : ∀ slots' e', MovesOn (value :: values) σ (ρ, (slots' : List Nat), e') := by
            intro slots' e'
            refine ⟨by dsimp only; omega, fun _ => by dsimp only; omega, fun b s v hw => ?_⟩
            rcases hmem b s v hw with hold | ⟨i, rfl, hi⟩
            · rcases hvotes b s v hold with hold | ⟨rfl, rfl⟩
              · exact Or.inl hold
              · exact Or.inr ⟨0, rfl, rfl⟩
            · exact Or.inr ⟨i + 1, by omega, hi⟩
          cases e <;> exact hwhole _ _
      | _ => exact hstop _

/-- The value is voted for in `slot` at the leader's ballot: in the ledger, in the records and in
the Accepts to every other member. -/
structure Voted (P : Params) (n : Node V) (σ : St V) (slot : Nat) (value : V) : Prop where
  held : (σ.node.ledger.cellAt P slot).slot = slot
  votedAt : (σ.node.ledger.cellAt P slot).voteBallot = n.ballot
  votedFor : (σ.node.ledger.cellAt P slot).value = value
  used : (σ.node.ledger.cellAt P slot).state ≠ .empty
  written : .vote n.ballot slot value ∈ σ.effects.writes
  sent : ∀ peer ∈ n.membership.members, peer ≠ n.id →
    ⟨n.id, peer, .accept n.ballot slot value⟩ ∈ σ.effects.messages

omit [DecidableEq V] in
/-- A cast proposal is voted for. -/
theorem Cast.voted {σ σ' : St V} {slot : Nat} {value : V}
    (h : Cast P σ σ' slot σ.node.ballot value) : Voted P σ.node σ' slot value := by
  obtain ⟨rest, hwrites, -⟩ := h.written
  refine ⟨h.held, h.votedAt, h.votedFor, h.used, ?_, fun peer hpeer hne => ?_⟩
  · rw [hwrites]
    simp
  · rw [h.sent]
    refine List.mem_append_right _ (List.mem_map.mpr ⟨peer, ?_, rfl⟩)
    exact List.mem_filter.mpr ⟨hpeer, decide_eq_true hne⟩

omit [DecidableEq V] in
/-- A later proposal keeps the votes in other cells. -/
theorem Cast.keeps_voted {n : Node V} {σ σ' : St V} {slot ballot s : Nat} {value v : V}
    (h : Cast P σ σ' slot ballot value) (hne : cellOf s P.W ≠ cellOf slot P.W)
    (hv : Voted P n σ s v) : Voted P n σ' s v := by
  have hcell : σ'.node.ledger.cellAt P s = σ.node.ledger.cellAt P s := h.other _ hne
  obtain ⟨rest, hwrites, -⟩ := h.written
  refine ⟨?_, ?_, ?_, ?_, ?_, fun peer hpeer hpeer' => ?_⟩
  · rw [hcell]
    exact hv.held
  · rw [hcell]
    exact hv.votedAt
  · rw [hcell]
    exact hv.votedFor
  · rw [hcell]
    exact hv.used
  · rw [hwrites]
    exact List.mem_append_left _ hv.written
  · rw [h.sent]
    exact List.mem_append_left _ (hv.sent peer hpeer hpeer')

/-- A batch that is voted for as a whole, from the slot where it started. -/
structure CastAll (P : Params) (n : Node V) (σ σ' : St V) (values : List V) : Prop where
  next : σ'.node.nextSlot = σ.node.nextSlot + values.length
  voted : ∀ i v, values[i]? = some v → Voted P n σ' (σ.node.nextSlot + i) v
  kept : ∀ s v, σ.node.memoryFloor < s → s < σ.node.nextSlot → Voted P n σ s v → Voted P n σ' s v

/-- A batch whose proposals are all castable is voted for as a whole. -/
theorem proposeAll_cast {n : Node V} {values : List V} {σ : St V}
    (hbelow : Below σ.node values.length) (hahead : σ.node.memoryFloor < σ.node.nextSlot)
    (hwindow : σ.node.nextSlot + values.length ≤ σ.node.memoryFloor + P.W + 1)
    (hid : σ.node.id = n.id) (hballot : σ.node.ballot = n.ballot)
    (hmembers : σ.node.membership = n.membership)
    (hcastable : ∀ i v, values[i]? = some v →
      Castable P σ.node (σ.node.nextSlot + i) σ.node.ballot v) :
    ∃ σ', proposeAll (proposeNext P) σ values =
        (σ', List.range' σ.node.nextSlot values.length, .none) ∧ CastAll P n σ σ' values := by
  induction values generalizing σ with
  | nil =>
      refine ⟨σ, rfl, rfl, fun i v h => ?_, fun s v _ _ h => h⟩
      cases h
  | cons value values ih =>
      have hlen : (value :: values).length = values.length + 1 := rfl
      have hfirst : σ.node.nextSlot ≠ maxSlot := hbelow 0 (Nat.succ_pos _)
      rcases proposeNext_cases (P := P) σ value with ⟨τ, -, heq, hcast⟩ | ⟨hnot, -⟩ | ⟨hnot, -⟩
      · have hnext : τ.node.nextSlot = σ.node.nextSlot + 1 := by
          rw [← slotSucc_of_ne hfirst]
          exact congrArg Fixed.nextSlot hcast.fixed
        have hfloor : τ.node.memoryFloor = σ.node.memoryFloor :=
          congrArg Fixed.memoryFloor hcast.fixed
        have hballot' : τ.node.ballot = σ.node.ballot := congrArg Fixed.ballot hcast.fixed
        have hid' : τ.node.id = σ.node.id := congrArg Fixed.id hcast.fixed
        have hmembers' : τ.node.membership = σ.node.membership :=
          congrArg Fixed.membership hcast.fixed
        -- the slots of a window have cells of their own
        have hapart : ∀ s, σ.node.memoryFloor < s → s ≤ σ.node.memoryFloor + P.W →
            s ≠ σ.node.nextSlot → cellOf s P.W ≠ cellOf σ.node.nextSlot P.W := by
          intro s hlow hhigh hne hcell
          exact hne (eq_of_cellOf_eq P hlow hhigh hahead (by omega) hcell)
        have hrest : ∀ i v, values[i]? = some v →
            Castable P τ.node (τ.node.nextSlot + i) τ.node.ballot v := by
          intro i v hv
          have hi : i < values.length := (List.getElem?_eq_some_iff.mp hv).1
          have hc := hcastable (i + 1) v hv
          rw [hballot', hnext, show σ.node.nextSlot + 1 + i = σ.node.nextSlot + (i + 1) by omega]
          refine (hcast.castable_iff ?_).mpr (advance_castable.mpr hc)
          exact hapart _ (by omega) (by omega) (by omega)
        obtain ⟨σ', hall, hcasts⟩ := ih (σ := τ)
          (by
            intro k hk
            have := hbelow (k + 1) (Nat.succ_lt_succ hk)
            omega)
          (by omega) (by omega) (hid'.trans hid) (hballot'.trans hballot)
          (hmembers'.trans hmembers) hrest
        have hfirstVoted : Voted P n σ' σ.node.nextSlot value := by
          refine hcasts.kept _ _ (by omega) (by omega) ?_
          have hv := hcast.voted
          refine ⟨hv.held, hv.votedAt.trans hballot, hv.votedFor, hv.used, ?_, ?_⟩
          · rw [← hballot]
            exact hv.written
          · rw [← hballot, ← hid, ← hmembers]
            exact hv.sent
        refine ⟨σ', ?_, ?_, fun i v hv => ?_, fun s v hlow hhigh hv => ?_⟩
        · rw [proposeAll, heq]
          dsimp only
          rw [hall, hnext]
          rfl
        · have := hcasts.next
          omega
        · cases i with
          | zero =>
              cases hv
              exact hfirstVoted
          | succ i =>
              have hi := hcasts.voted i v hv
              rw [hnext, show σ.node.nextSlot + 1 + i = σ.node.nextSlot + (i + 1) by omega] at hi
              exact hi
        · refine hcasts.kept s v (by omega) (by omega) ?_
          refine hcast.keeps_voted (hapart s hlow (by omega) (by omega)) ?_
          exact ⟨hv.held, hv.votedAt, hv.votedFor, hv.used, hv.written, hv.sent⟩
      · exact absurd (hcastable 0 value rfl) hnot
      · exact absurd (hcastable 0 value rfl) hnot

/-- Any other batch fails with `next_slot` moved, or succeeds without a vote for one of its values. -/
theorem proposeAll_uncast {values : List V} {σ : St V} (hbelow : Below σ.node values.length)
    (hahead : σ.node.memoryFloor < σ.node.nextSlot)
    (hwindow : σ.node.nextSlot + values.length ≤ σ.node.memoryFloor + P.W + 1)
    (hfresh : ∀ b s v, .vote b s v ∈ σ.effects.writes → s < σ.node.nextSlot)
    {i : Nat} {v : V} (hv : values[i]? = some v)
    (hnot : ¬ Castable P σ.node (σ.node.nextSlot + i) σ.node.ballot v) :
    ((proposeAll (proposeNext P) σ values).2.2 ≠ .none ∧
        σ.node.nextSlot < (proposeAll (proposeNext P) σ values).1.node.nextSlot) ∨
      ∃ j w, values[j]? = some w ∧ ∀ b,
        .vote b (σ.node.nextSlot + j) w ∉
          (proposeAll (proposeNext P) σ values).1.effects.writes := by
  induction values generalizing σ i with
  | nil => cases hv
  | cons value values ih =>
      have hlen : (value :: values).length = values.length + 1 := rfl
      have hmoves := proposeAll_moves (P := P) hbelow
      have hfirst : σ.node.nextSlot ≠ maxSlot := hbelow 0 (Nat.succ_pos _)
      obtain ⟨hnext, hvotes⟩ := proposeNext_moves (P := P) σ value
      rw [slotSucc_of_ne hfirst] at hnext
      by_cases hfailed : (proposeAll (proposeNext P) σ (value :: values)).2.2 = .none
      · right
        rw [proposeAll] at hfailed ⊢
        rcases hstep : proposeNext P σ value with ⟨τ, slot, e⟩
        rw [hstep] at hfailed hnext hvotes
        dsimp only at hnext hvotes
        cases e with
        | none =>
            dsimp only at hfailed ⊢
            have hbelow' : Below τ.node values.length := by
              intro k hk
              have := hbelow (k + 1) (Nat.succ_lt_succ hk)
              omega
            have hrest := proposeAll_moves (P := P) hbelow'
            rcases hall : proposeAll (proposeNext P) τ values with ⟨ρ, slots, e⟩
            rw [hall] at hfailed hrest
            cases e with
            | none =>
                dsimp only at hfailed ⊢
                rcases proposeNext_cases (P := P) σ value with
                  ⟨τ', hcast, heq, hc⟩ | ⟨-, heq⟩ | ⟨-, he, -⟩
                · -- the first value is voted for, so the fault lies further on
                  rw [hstep] at heq
                  cases heq
                  cases i with
                  | zero =>
                      cases hv
                      exact absurd hcast hnot
                  | succ i =>
                      have hi : i < values.length :=
                        Nat.lt_of_succ_lt_succ (List.getElem?_eq_some_iff.mp hv).1
                      have hfloor : τ.node.memoryFloor = σ.node.memoryFloor :=
                        congrArg Fixed.memoryFloor hc.fixed
                      have hballot : τ.node.ballot = σ.node.ballot :=
                        congrArg Fixed.ballot hc.fixed
                      have hapart : cellOf (σ.node.nextSlot + (i + 1)) P.W ≠
                          cellOf σ.node.nextSlot P.W := by
                        intro hcell
                        have := eq_of_cellOf_eq P
                          (show σ.node.memoryFloor < σ.node.nextSlot + (i + 1) by omega)
                          (by omega) hahead (by omega) hcell
                        omega
                      have hnot' : ¬ Castable P τ.node (τ.node.nextSlot + i) τ.node.ballot v := by
                        rw [hballot, hnext,
                          show σ.node.nextSlot + 1 + i = σ.node.nextSlot + (i + 1) by omega]
                        intro h
                        exact hnot (advance_castable.mp ((hc.castable_iff hapart).mp h))
                      have hfresh' : ∀ b s v, .vote b s v ∈ τ.effects.writes →
                          s < τ.node.nextSlot := by
                        intro b s v hw
                        rcases hvotes b s v hw with hold | ⟨rfl, -⟩
                        · have := hfresh b s v hold
                          omega
                        · omega
                      rcases ih hbelow' (by omega) (by omega) hfresh' hv hnot' with
                        ⟨hbad, -⟩ | ⟨j, w, hj, hmissing⟩
                      · rw [hall] at hbad
                        exact absurd rfl hbad
                      · refine ⟨j + 1, w, hj, fun b => ?_⟩
                        rw [hall, hnext] at hmissing
                        rw [show σ.node.nextSlot + (j + 1) = σ.node.nextSlot + 1 + j by omega]
                        exact hmissing b
                · -- the first value's slot was decided: it has no vote, now or later
                  rw [hstep] at heq
                  cases heq
                  refine ⟨0, value, rfl, fun b hw => ?_⟩
                  rcases hrest.votes b _ _ hw with hold | ⟨i, hi, -⟩
                  · have := hfresh b _ _ hold
                    omega
                  · omega
                · rw [hstep] at he
                  exact absurd rfl he
            | _ => cases hfailed
        | _ => cases hfailed
      · exact Or.inl ⟨hfailed, hmoves.lt hfailed⟩

/-! ## Requests -/

/-- A leader past its gate and below slot exhaustion is asked for one value. -/
def ProposeAsks (n : Node V) : Prop :=
  proposalGate n = .none ∧ n.nextSlot ≠ maxSlot

/-- A leader past its gate and below slot exhaustion is asked for a batch that is well formed. -/
def BatchAsks (P : Params) (n : Node V) (count capacity : Nat) : Prop :=
  proposalGate n = .none ∧ count ≠ 0 ∧ count ≤ P.C ∧ count ≤ capacity ∧
    count ≤ maxSlot - n.nextSlot

/-- What a request for `values` owes its caller, when the operation returns `slots` and `e` and
leaves `σ`.  `subtracted` is what the admission test takes off `next_slot` before the floor. -/
structure Admission (P : Params) (n : Node V) (values : List V) (asks : Prop) (subtracted : Nat)
    (σ : St V) (slots : List Nat) (e : Error) : Prop where
  done : e = .none → slots = List.range' n.nextSlot values.length ∧
    σ.node.nextSlot = n.nextSlot + values.length ∧
      ∀ i v, values[i]? = some v → Voted P n σ (n.nextSlot + i) v
  refused : e ≠ .none → σ.node.ledger = n.ledger ∧ σ.node.nextSlot = n.nextSlot ∧
    σ.node.lead = n.lead ∧ σ.effects = {}
  full : asks → (e = .windowFull ↔ n.memoryFloor + P.W + 1 < n.nextSlot + values.length)
  unwrapped : asks → n.memoryFloor + subtracted ≤ n.nextSlot

/-- The slots of a request are the leader's to fill: they are ahead of the floor, and those of the
window are castable. -/
structure Clear (P : Params) (n : Node V) (values : List V) : Prop where
  ahead : n.memoryFloor < n.nextSlot
  castable : n.nextSlot + values.length ≤ n.memoryFloor + P.W + 1 →
    ∀ i v, values[i]? = some v → Castable P n (n.nextSlot + i) n.ballot v

omit [DecidableEq V] in
/-- A refused request that changed nothing. -/
theorem Admission.unchanged {n : Node V} {values : List V} {asks : Prop} {subtracted : Nat}
    {slots : List Nat} {e : Error} (he : e ≠ .none) (hasks : ¬ asks) :
    Admission P n values asks subtracted (St.start n) slots e :=
  ⟨fun h => absurd h he, fun _ => ⟨rfl, rfl, rfl, rfl⟩, fun h => absurd h hasks,
    fun h => absurd h hasks⟩

omit [DecidableEq V] in
/-- A request that does not fit the window. -/
theorem Admission.overfull {n : Node V} {values : List V} {asks : Prop} {subtracted : Nat}
    {slots : List Nat} (hfull : n.memoryFloor + P.W + 1 < n.nextSlot + values.length)
    (hle : n.memoryFloor + subtracted ≤ n.nextSlot) :
    Admission P n values asks subtracted (St.start n) slots .windowFull :=
  ⟨fun h => (by cases h), fun _ => ⟨rfl, rfl, rfl, rfl⟩, fun _ => ⟨fun _ => hfull, fun _ => rfl⟩,
    fun _ => hle⟩

/-- A single value is admitted exactly when its slot is the leader's to fill. -/
theorem nodePropose_admission {n : Node V} (hmode : n.ownership = false) (value : V) :
    Admission P n [value] (ProposeAsks n) 0 (nodePropose P n value).1
        [(nodePropose P n value).2.1] (nodePropose P n value).2.2 ↔
      (ProposeAsks n → Clear P n [value]) := by
  unfold nodePropose
  cases hgate : proposalGate n with
  | none =>
      dsimp only
      rw [if_neg (by simp [hmode])]
      by_cases hmax : n.nextSlot = maxSlot
      · rw [if_pos hmax]
        have hasks : ¬ ProposeAsks n := fun h => h.2 hmax
        exact iff_of_true (.unchanged (by simp) hasks) fun h => absurd h hasks
      rw [if_neg hmax]
      have hasks : ProposeAsks n := ⟨hgate, hmax⟩
      have hlen : [value].length = 1 := rfl
      by_cases hfull : slotSub n.nextSlot n.memoryFloor > P.W
      · rw [if_pos hfull]
        -- the test may have wrapped
        by_cases hle : n.memoryFloor ≤ n.nextSlot
        · rw [slotSub_of_le hle] at hfull
          refine iff_of_true (.overfull (by omega) (by omega)) fun _ => ⟨by omega, fun h => ?_⟩
          omega
        · refine iff_of_false (fun h => hle (h.unwrapped hasks)) fun h => ?_
          have := (h hasks).ahead
          omega
      · rw [if_neg hfull]
        rcases proposeNext_cases (P := P) (St.start n) value with
          ⟨σ', hcastable, heq, hcast⟩ | ⟨hnot, heq⟩ | ⟨hnot, he, hfixed, -⟩
        · obtain ⟨hlow, hhigh⟩ : n.memoryFloor < n.nextSlot ∧
              n.nextSlot ≤ n.memoryFloor + P.W := by
            have hclaims := hcastable.claims
            rw [Ne, claimLive_none_iff, not_or, not_or] at hclaims
            exact ⟨Nat.not_le.mp hclaims.1, Nat.not_lt.mp hclaims.2.1⟩
          rw [heq]
          refine iff_of_true ⟨fun _ => ⟨rfl, ?_, fun i v hv => ?_⟩, fun h => absurd rfl h,
            fun _ => ⟨fun h => (by cases h), fun h => by omega⟩, fun _ => by omega⟩
            fun _ => ⟨hlow, fun _ i v hv => ?_⟩
          · rw [show σ'.node.nextSlot = slotSucc n.nextSlot from congrArg Fixed.nextSlot hcast.fixed,
              slotSucc_of_ne hmax]
            rfl
          · cases i with
            | zero =>
                cases hv
                have hvoted := hcast.voted
                exact ⟨hvoted.held, hvoted.votedAt, hvoted.votedFor, hvoted.used, hvoted.written,
                  hvoted.sent⟩
            | succ i => cases hv
          · cases i with
            | zero =>
                cases hv
                exact hcastable
            | succ i => cases hv
        · rw [heq]
          refine iff_of_false (fun h => ?_) fun h => ?_
          · have hvoted := ((h.done rfl).2.2 0 value rfl).written
            exact absurd hvoted List.not_mem_nil
          · refine hnot ((h hasks).castable ?_ 0 value rfl)
            have hahead := (h hasks).ahead
            rw [slotSub_of_le (by omega)] at hfull
            omega
        · refine iff_of_false (fun h => ?_) fun h => ?_
          · have hsame := (h.refused he).2.1
            have hnext : (proposeNext P (St.start n) value).1.node.nextSlot = slotSucc n.nextSlot :=
              congrArg Fixed.nextSlot hfixed
            rw [slotSucc_of_ne hmax] at hnext
            omega
          · refine hnot ((h hasks).castable ?_ 0 value rfl)
            have hahead := (h hasks).ahead
            rw [slotSub_of_le (by omega)] at hfull
            omega
  | _ =>
      have hasks : ¬ ProposeAsks n := by
        intro h
        have hopen := h.1
        rw [hgate] at hopen
        cases hopen
      exact iff_of_true (.unchanged (by simp) hasks) fun h => absurd h hasks

/-- A batch is admitted exactly when its slots are the leader's to fill. -/
theorem nodeProposeBatch_admission {n : Node V} (hmode : n.ownership = false) (values : List V)
    (capacity : Nat) :
    Admission P n values (BatchAsks P n values.length capacity) 1
        (nodeProposeBatch P n values capacity).1 (nodeProposeBatch P n values capacity).2.1
        (nodeProposeBatch P n values capacity).2.2 ↔
      (BatchAsks P n values.length capacity → Clear P n values) := by
  by_cases hasks : BatchAsks P n values.length capacity
  · obtain ⟨hgate, hempty, hlarge, hbuffer, hroom⟩ := hasks
    have hasks : BatchAsks P n values.length capacity := ⟨hgate, hempty, hlarge, hbuffer, hroom⟩
    unfold nodeProposeBatch
    rw [hgate]
    dsimp only
    rw [if_neg hempty, if_neg (by omega), if_neg (by omega), if_neg (by simp [hmode]),
      if_neg (by omega)]
    by_cases hahead : n.memoryFloor < n.nextSlot
    · rw [slotSub_of_le (show 1 ≤ n.nextSlot by omega), slotSub_of_le (by omega)]
      by_cases hfull : n.memoryFloor + P.W + 1 < n.nextSlot + values.length
      · rw [if_pos (by omega)]
        refine iff_of_true (.overfull hfull (by omega)) fun _ => ⟨hahead, fun h => ?_⟩
        omega
      · rw [if_neg (by omega)]
        have hwindow : n.nextSlot + values.length ≤ n.memoryFloor + P.W + 1 := by omega
        have hbelow : Below n values.length := by
          intro k hk
          omega
        by_cases hclear : ∀ i v, values[i]? = some v →
            Castable P n (n.nextSlot + i) n.ballot v
        · obtain ⟨σ', heq, hcasts⟩ := proposeAll_cast (P := P) (σ := St.start n) (n := n)
            hbelow hahead hwindow rfl rfl rfl hclear
          rw [heq]
          exact iff_of_true ⟨fun _ => ⟨rfl, hcasts.next, hcasts.voted⟩, fun h => absurd rfl h,
            fun _ => ⟨fun h => (by cases h), fun h => absurd h hfull⟩, fun _ => by omega⟩
            fun _ => ⟨hahead, fun _ => hclear⟩
        · refine iff_of_false (fun h => ?_) fun h => hclear ((h hasks).castable hwindow)
          push Not at hclear
          obtain ⟨i, v, hv, hnot⟩ := hclear
          by_cases he : (proposeAll (proposeNext P) (St.start n) values).2.2 = .none
          · rcases proposeAll_uncast (P := P) (σ := St.start n) hbelow hahead hwindow
              (fun b s v hw => absurd hw List.not_mem_nil) hv hnot with ⟨hbad, -⟩ | ⟨j, w, hj, hnone⟩
            · exact hbad he
            · exact hnone _ ((h.done he).2.2 j w hj).written
          · have hlt := (proposeAll_moves (P := P) (σ := St.start n) hbelow).lt he
            have hsame := (h.refused he).2.1
            have hlt' : n.nextSlot <
                (proposeAll (proposeNext P) (St.start n) values).1.node.nextSlot := hlt
            omega
    · refine iff_of_false (fun h => ?_) fun h => hahead (h hasks).ahead
      have := h.unwrapped hasks
      omega
  · refine iff_of_true ?_ fun h => absurd h hasks
    unfold nodeProposeBatch
    cases hgate : proposalGate n with
    | none =>
        dsimp only
        rw [if_neg (show ¬ n.ownership = true by simp [hmode])]
        split_ifs with hempty hlarge hbuffer hroom
        · exact .unchanged (by simp) hasks
        · exact .unchanged (by simp) hasks
        · exact .unchanged (by simp) hasks
        · exact .unchanged (by simp) hasks
        · exact absurd ⟨hgate, hempty, by omega, by omega, by omega⟩ hasks
        · exact absurd ⟨hgate, hempty, by omega, by omega, by omega⟩ hasks
    | _ => exact .unchanged (by simp) hasks

/-- Admission is exact, for a value and for a batch, when `next_slot` is ahead of the memory floor
and every requested slot of the window is castable. -/
theorem proposal_admission {n : Node V} (hmode : n.ownership = false) :
    (∀ value, Admission P n [value] (ProposeAsks n) 0 (nodePropose P n value).1
        [(nodePropose P n value).2.1] (nodePropose P n value).2.2 ↔
      (ProposeAsks n → Clear P n [value])) ∧
    ∀ values capacity, Admission P n values (BatchAsks P n values.length capacity) 1
        (nodeProposeBatch P n values capacity).1 (nodeProposeBatch P n values capacity).2.1
        (nodeProposeBatch P n values capacity).2.2 ↔
      (BatchAsks P n values.length capacity → Clear P n values) :=
  ⟨nodePropose_admission hmode, nodeProposeBatch_admission hmode⟩

end Requests

/-- The trio's first member wins a term: its own promise and that of member 2 are a quorum. -/
def trioTerm : List (Operation Nat) :=
  [.call (.campaign 0), .step ⟨1, 1, .prepare (ballotMake 1 0 1) 1 1 .global⟩,
    .step ⟨1, 1, .promiseRange (ballotMake 1 0 1) {} 0 1 1 0 false⟩,
    .step ⟨2, 1, .promiseRange (ballotMake 1 0 1) {} 0 1 1 0 false⟩]

/-- With a window of four slots the new leader admits the batch `[5, 6]` into its first two. -/
theorem proposal_admission_batch :
    let n := operateAll quadParams (trioNode {})
      [.call (.campaign 0), .step ⟨1, 1, .prepare (ballotMake 1 0 1) 1 4 .global⟩,
        .step ⟨1, 1, .promiseRange (ballotMake 1 0 1) {} 0 1 4 0 false⟩,
        .step ⟨2, 1, .promiseRange (ballotMake 1 0 1) {} 0 1 4 0 false⟩]
    n.role = .leader ∧ (nodeProposeBatch quadParams n [5, 6] 2).2 = ([1, 2], .none) ∧
      Admission quadParams n [5, 6] (BatchAsks quadParams n 2 2) 1
        (nodeProposeBatch quadParams n [5, 6] 2).1 (nodeProposeBatch quadParams n [5, 6] 2).2.1
        (nodeProposeBatch quadParams n [5, 6] 2).2.2 := by
  intro n
  have hmode : n.ownership = false := by decide +kernel
  refine ⟨by decide +kernel, by decide +kernel, ?_⟩
  apply ((proposal_admission hmode).2 [5, 6] 2).mpr
  intro _
  refine ⟨by decide +kernel, fun _ i v hv => ?_⟩
  rcases i with _ | _ | i
  · cases hv
    exact ⟨by decide +kernel, by decide +kernel, by decide +kernel, by decide +kernel⟩
  · cases hv
    exact ⟨by decide +kernel, by decide +kernel, by decide +kernel, by decide +kernel⟩
  · cases hv

/-- A leader that heard of a decision in its next slot reports success for a value that nobody
votes for. -/
theorem proposal_lost :
    ¬ ∀ n : Node Nat, Reachable trioParams n → n.ownership = false → ∀ value,
      (nodePropose trioParams n value).2.2 = .none →
        .vote n.ballot n.nextSlot value ∈ (nodePropose trioParams n value).1.effects.writes := by
  intro h
  have hreach : Reachable trioParams (operateAll trioParams (trioNode (V := Nat) {})
      (trioTerm ++ [.step ⟨3, 1, .commit 1 9⟩])) :=
    (trioNode_reachable {}).all _
  exact absurd (h _ hreach (by decide +kernel) 5 (by decide +kernel)) (by decide +kernel)

end PaxosOdin
