import PaxosOdin.Transition.Owning
import PaxosOdin.Transition.Sending

/-!
# The probe for own slots

`own_slot_probe` predicts where a suggestion goes, and `propose_owned` sends it there.  The two loops
agree: what the probe finds is what `send_accept` votes for, and a suggestion changes no slot that a
later probe looks at.

Main definitions:

- Definition `Suggestible`: a slot that a suggestion can take.
- Definition `ownSlotProbeWords`: the probe on 64-bit words, without a bound on its rounds.
- Definition `Unled`: no suggestible slot from `own_next` on was suggested in.

Main results:

- Theorem `ownSlotProbe_suggestible`: the probe finds a suggestible slot.
- Theorem `ownSlotProbe_le`: it finds the first one.
- Theorem `ownSlotProbeWords_eq`: it ends within `W + 1` rounds, and no word wraps.
- Theorem `proposeOwnedLoop_suggestible`: a suggestion takes the slot that the probe finds.
- Theorem `proposeAll_owned`: a batch is placed exactly when its slots are available.
-/

namespace PaxosOdin

variable {V : Type} {P : Params}

/-! ## Suggestible slots -/

/-- A slot that a suggestion can take: it is live and has a cell, it is not decided, and no promise
above round zero governs it. -/
structure Suggestible (P : Params) (n : Node V) (slot : Nat) : Prop where
  live : n.memoryFloor < slot
  window : slot ≤ n.memoryFloor + P.W
  claims : (claimLive P n slot).2 ≠ none
  undecided : ledgerChosenAt P n.ledger slot = none
  promised : governing P n.ledger slot ≤ ownershipBallot n.id

/-- A slot that its own cell holds is suggestible when it is open and promised to nobody else. -/
theorem Suggestible.held {n : Node V} {slot : Nat} (hlive : n.memoryFloor < slot)
    (hwindow : slot ≤ n.memoryFloor + P.W) (hheld : (n.ledger.cellAt P slot).slot = slot)
    (hopen : (n.ledger.cellAt P slot).state ≠ .chosen)
    (hpromised : ledgerPromiseFor n.ledger (cellOf slot P.W) ≤ ownershipBallot n.id) :
    Suggestible P n slot := by
  refine ⟨hlive, hwindow, ?_, ?_, ?_⟩
  · rw [Ne, claimLive_none_iff]
    rintro (hlow | hbeyond | ⟨-, hother, -⟩)
    · omega
    · omega
    · exact hother hheld
  · unfold ledgerChosenAt
    simp only [Ledger.cellAt] at hheld hopen
    simp [hheld, hopen]
  · unfold governing
    rw [if_pos hheld]
    exact hpromised

/-- A slot whose cell is free is suggestible when nobody else holds a promise for every decree. -/
theorem Suggestible.free {n : Node V} {slot : Nat} (hlive : n.memoryFloor < slot)
    (hwindow : slot ≤ n.memoryFloor + P.W) (hother : (n.ledger.cellAt P slot).slot ≠ slot)
    (hfree : (n.ledger.cellAt P slot).slot = 0 ∨
      ((n.ledger.cellAt P slot).slot ≤ n.memoryFloor ∧ (n.ledger.cellAt P slot).state = .chosen))
    (hpromised : n.ledger.promised ≤ ownershipBallot n.id) : Suggestible P n slot := by
  refine ⟨hlive, hwindow, ?_, ?_, ?_⟩
  · rw [Ne, claimLive_none_iff]
    rintro (hlow | hbeyond | ⟨-, -, hzero, hopen⟩)
    · omega
    · omega
    · exact hfree.elim hzero hopen
  · unfold ledgerChosenAt
    simp only [Ledger.cellAt] at hother
    simp [hother]
  · unfold governing
    rw [if_neg hother]
    exact hpromised

/-- The loop of the probe returns a suggestible slot. -/
theorem ownSlotProbeLoop_suggestible {n : Node V} (hself : n.selfIndex < n.membership.members.length)
    (hsmall : n.membership.members.length ≤ maxSlot) {fuel : Nat} :
    ∀ {start slot : Nat}, n.memoryFloor < start → start ≤ maxSlot →
      ownSlotProbeLoop P n fuel start = .ok slot → Suggestible P n slot := by
  induction fuel with
  | zero =>
      intro start slot _ _ h
      cases h
  | succ fuel ih =>
      intro start slot hlive hroom h
      have hskip : start ≠ maxSlot →
          ownSlotProbeLoop P n fuel (ownSlotFrom n (start + 1)) = .ok slot → Suggestible P n slot := by
        intro hmax hrest
        obtain ⟨haligned, hle⟩ := ownSlotFrom_spec (n := n) (start + 1) hself hsmall (by omega)
        exact ih (by omega) haligned.1 hrest
      simp only [ownSlotProbeLoop] at h
      split_ifs at h with hmax hfull hheld hopen hfree hquiet
      · cases h
        exact .held hlive (by omega) hheld hopen.1 hopen.2
      · exact hskip hmax h
      · cases h
        exact .free hlive (by omega) hheld hfree hquiet
      · exact hskip hmax h

/-- The probe finds a suggestible slot. -/
theorem ownSlotProbe_suggestible {n : Node V} (ho : Opened P n) (hv : n.votingMember = true)
    {start slot : Nat} (hstart : start ≤ maxSlot) (h : ownSlotProbe P n start = .ok slot) :
    Suggestible P n slot := by
  have hself := ho.selfIndex_lt hv
  unfold ownSlotProbe at h
  split_ifs at h with hmax hlow
  · have hfloor := ho.floor.trans ho.last
    obtain ⟨haligned, hle⟩ := ownSlotFrom_spec (n := n) (n.memoryFloor + 1) hself ho.small (by omega)
    exact ownSlotProbeLoop_suggestible hself ho.small (by omega) haligned.1 h
  · exact ownSlotProbeLoop_suggestible hself ho.small (Nat.lt_of_not_le hlow) hstart h

/-! ## The first slot that fits -/

/-- No own slot lies between `start` and the one that `own_slot_from` returns. -/
theorem ownSlotFrom_le {n : Node V} {start slot : Nat} (hown : OwnAligned n slot)
    (hmax : slot ≠ maxSlot) (hself : n.selfIndex < n.membership.members.length)
    (hle : start ≤ slot) : ownSlotFrom n start ≤ slot := by
  obtain ⟨-, heq | ⟨hpos, hmod⟩⟩ := hown
  · exact absurd heq hmax
  have hslot := Nat.div_add_mod (slot - 1) n.membership.members.length
  rw [hmod, Nat.mul_comm] at hslot
  unfold ownSlotFrom
  dsimp only
  by_cases hmine : start ≤ n.selfIndex + 1
  · rw [if_pos hmine]
    omega
  rw [if_neg hmine]
  have hstart := Nat.div_add_mod (start - (n.selfIndex + 1)) n.membership.members.length
  have hlt := Nat.mod_lt (start - (n.selfIndex + 1)) (Nat.zero_lt_of_lt hself)
  rw [Nat.mul_comm] at hstart
  generalize (slot - 1) / n.membership.members.length = k at hslot
  generalize (start - (n.selfIndex + 1)) / n.membership.members.length = q at hstart
  generalize (start - (n.selfIndex + 1)) % n.membership.members.length = r at hstart hlt ⊢
  by_cases hzero : r = 0
  · rw [if_pos hzero]
    exact hle
  · rw [if_neg hzero]
    have hq : q < k := by
      by_contra hge
      have := Nat.mul_le_mul_right n.membership.members.length (Nat.le_of_not_lt hge)
      omega
    have hnext := Nat.mul_le_mul_right n.membership.members.length (Nat.succ_le_of_lt hq)
    rw [Nat.succ_mul] at hnext
    refine (slotAdd_le_add _ _).trans ?_
    omega

/-- The probe stops at a suggestible slot. -/
theorem Suggestible.stops {n : Node V} {slot : Nat} (h : Suggestible P n slot)
    (hmax : slot ≠ maxSlot) (fuel : Nat) : ownSlotProbeLoop P n (fuel + 1) slot = .ok slot := by
  have hwindow := h.window
  have hlive := h.live
  have hpromised := h.promised
  have hclaims := h.claims
  have hundecided := h.undecided
  rw [Ne, claimLive_none_iff, not_or, not_or] at hclaims
  unfold governing at hpromised
  unfold ledgerChosenAt at hundecided
  unfold ownSlotProbeLoop
  rw [if_neg hmax, if_neg (by omega)]
  rw [if_neg (by omega)] at hundecided
  dsimp only at hundecided ⊢
  by_cases hheld : (n.ledger.cells (cellOf slot P.W)).slot = slot
  · rw [if_pos hheld]
    rw [if_pos hheld] at hpromised
    have hopen : (n.ledger.cells (cellOf slot P.W)).state ≠ .chosen := by
      intro hchosen
      rw [if_neg (by simp [hheld, hchosen])] at hundecided
      cases hundecided
    rw [if_pos ⟨hopen, hpromised⟩]
  · rw [if_neg hheld]
    rw [if_neg hheld] at hpromised
    have hfree : (n.ledger.cells (cellOf slot P.W)).slot = 0 ∨
        ((n.ledger.cells (cellOf slot P.W)).slot ≤ n.memoryFloor ∧
          (n.ledger.cells (cellOf slot P.W)).state = .chosen) := by
      by_contra hstuck
      rw [not_or] at hstuck
      exact hclaims.2.2 ⟨hwindow, hheld, hstuck.1, hstuck.2⟩
    rw [if_pos hfree, if_pos hpromised]

/-- The loop of the probe finds no later slot than the first one that fits. -/
theorem ownSlotProbeLoop_le {n : Node V} {slot : Nat} (h : Suggestible P n slot)
    (hown : OwnAligned n slot) (hmax : slot ≠ maxSlot)
    (hself : n.selfIndex < n.membership.members.length) {fuel : Nat} :
    ∀ {start found : Nat}, start ≤ slot → ownSlotProbeLoop P n fuel start = .ok found →
      found ≤ slot := by
  induction fuel with
  | zero =>
      intro start found _ hfound
      cases hfound
  | succ fuel ih =>
      intro start found hle hfound
      by_cases heq : start = slot
      · subst heq
        rw [h.stops hmax] at hfound
        cases hfound
        exact le_rfl
      · have hskip : ownSlotProbeLoop P n fuel (ownSlotFrom n (start + 1)) = .ok found →
            found ≤ slot :=
          ih (ownSlotFrom_le hown hmax hself (by omega))
        simp only [ownSlotProbeLoop] at hfound
        split_ifs at hfound
        · cases hfound
          exact hle
        · exact hskip hfound
        · cases hfound
          exact hle
        · exact hskip hfound

/-- The probe finds no later slot than the first one that fits. -/
theorem ownSlotProbe_le {n : Node V} {slot start found : Nat} (h : Suggestible P n slot)
    (hown : OwnAligned n slot) (hmax : slot ≠ maxSlot)
    (hself : n.selfIndex < n.membership.members.length) (hle : start ≤ slot)
    (hfound : ownSlotProbe P n start = .ok found) : found ≤ slot := by
  have hlive := h.live
  unfold ownSlotProbe at hfound
  split_ifs at hfound
  · exact ownSlotProbeLoop_le h hown hmax hself (ownSlotFrom_le hown hmax hself (by omega)) hfound
  · exact ownSlotProbeLoop_le h hown hmax hself hle hfound

/-! ## The probe on words -/

/-- `own_slot_from`, with every addition and subtraction as it is on 64-bit words. -/
def ownSlotFromWords (n : Node V) (start : Nat) : Nat :=
  let count := n.membership.members.length
  let mine := slotSucc n.selfIndex
  if start ≤ mine then mine
  else
    let offset := slotSub start mine % count
    if offset = 0 then start else slotAdd start (slotSub count offset)

theorem ownSlotFromWords_eq {n : Node V} (hself : n.selfIndex < n.membership.members.length)
    (hsmall : n.membership.members.length ≤ maxSlot) (start : Nat) :
    ownSlotFromWords n start = ownSlotFrom n start := by
  have hmine : slotSucc n.selfIndex = n.selfIndex + 1 := if_neg (by omega)
  have hoffset := Nat.mod_lt (start - (n.selfIndex + 1)) (Nat.zero_lt_of_lt hself)
  unfold ownSlotFromWords ownSlotFrom
  dsimp only
  rw [hmine]
  by_cases hle : start ≤ n.selfIndex + 1
  · rw [if_pos hle, if_pos hle]
  · rw [if_neg hle, if_neg hle, slotSub_of_le (Nat.le_of_not_le hle), slotSub_of_le hoffset.le]

/-- The loop of `own_slot_probe` on words.  Nothing is returned when the rounds run out. -/
def probeWords (P : Params) (n : Node V) : Nat → Nat → Option (Except Error Nat)
  | 0, _ => none
  | rounds + 1, slot =>
      if slot = maxSlot then some (.error .globalSlotExhausted)
      else if slotSub slot n.memoryFloor > P.W then some (.error .windowFull)
      else
        let cell := cellOf slot P.W
        let c := n.ledger.cells cell
        let mine := ownershipBallot n.id
        if c.slot = slot then
          if c.state ≠ .chosen ∧ ledgerPromiseFor n.ledger cell ≤ mine then some (.ok slot)
          else probeWords P n rounds (ownSlotFromWords n (slotSucc slot))
        else if c.slot = 0 ∨ (c.slot ≤ n.memoryFloor ∧ c.state = .chosen) then
          if n.ledger.promised ≤ mine then some (.ok slot)
          else probeWords P n rounds (ownSlotFromWords n (slotSucc slot))
        else some (.error .windowFull)

/-- `own_slot_probe` on words. -/
def ownSlotProbeWords (P : Params) (n : Node V) (rounds start : Nat) : Option (Except Error Nat) :=
  if n.memoryFloor = maxSlot then some (.error .globalSlotExhausted)
  else
    probeWords P n rounds
      (if start ≤ n.memoryFloor then ownSlotFromWords n (slotSucc n.memoryFloor) else start)

/-- One round for each slot left in the window, and one to leave it, are enough. -/
theorem probeWords_eq {n : Node V} (hself : n.selfIndex < n.membership.members.length)
    (hsmall : n.membership.members.length ≤ maxSlot) {rounds : Nat} :
    ∀ {fuel slot : Nat}, n.memoryFloor < slot → slot ≤ maxSlot →
      n.memoryFloor + P.W + 1 < slot + rounds → n.memoryFloor + P.W + 1 < slot + fuel →
        0 < rounds → 0 < fuel →
        probeWords P n rounds slot = some (ownSlotProbeLoop P n fuel slot) := by
  induction rounds with
  | zero =>
      intro fuel slot _ _ _ _ hpos
      exact absurd hpos (lt_irrefl 0)
  | succ rounds ih =>
      intro fuel slot hlive hroom hrounds hfuel _ hpos
      obtain ⟨fuel, rfl⟩ := Nat.exists_eq_succ_of_ne_zero hpos.ne'
      unfold probeWords ownSlotProbeLoop
      by_cases hmax : slot = maxSlot
      · rw [if_pos hmax, if_pos hmax]
      rw [if_neg hmax, if_neg hmax, slotSub_of_le hlive.le]
      by_cases hfull : slot - n.memoryFloor > P.W
      · rw [if_pos hfull, if_pos hfull]
      rw [if_neg hfull, if_neg hfull]
      -- a round moves on to a later slot, which is still a word
      have hnext : ownSlotFromWords n (slotSucc slot) = ownSlotFrom n (slot + 1) := by
        rw [show slotSucc slot = slot + 1 from if_neg hmax, ownSlotFromWords_eq hself hsmall]
      obtain ⟨haligned, hle⟩ := ownSlotFrom_spec (n := n) (slot + 1) hself hsmall (by omega)
      have hrest : probeWords P n rounds (ownSlotFromWords n (slotSucc slot)) =
          some (ownSlotProbeLoop P n fuel (ownSlotFrom n (slot + 1))) := by
        rw [hnext]
        exact ih (by omega) haligned.1 (by omega) (by omega) (by omega) (by omega)
      dsimp only
      rw [hrest]
      split_ifs <;> rfl

/-- The probe ends within `W + 1` rounds, and none of its additions and subtractions wraps. -/
theorem ownSlotProbeWords_eq {n : Node V} (ho : Opened P n) (hv : n.votingMember = true)
    {rounds start : Nat} (hrounds : P.W < rounds) (hstart : start ≤ maxSlot) :
    ownSlotProbeWords P n rounds start = some (ownSlotProbe P n start) := by
  have hself := ho.selfIndex_lt hv
  have hfloor := ho.floor.trans ho.last
  unfold ownSlotProbeWords ownSlotProbe
  by_cases hmax : n.memoryFloor = maxSlot
  · rw [if_pos hmax, if_pos hmax]
  rw [if_neg hmax, if_neg hmax]
  dsimp only
  by_cases hlow : start ≤ n.memoryFloor
  · rw [if_pos hlow, if_pos hlow, show slotSucc n.memoryFloor = n.memoryFloor + 1 from if_neg hmax,
      ownSlotFromWords_eq hself ho.small]
    obtain ⟨haligned, hle⟩ := ownSlotFrom_spec (n := n) (n.memoryFloor + 1) hself ho.small (by omega)
    exact probeWords_eq hself ho.small (by omega) haligned.1 (by omega) (by omega) (by omega)
      (by omega)
  · rw [if_neg hlow, if_neg hlow]
    exact probeWords_eq hself ho.small (by omega) hstart (by omega) (by omega) (by omega) (by omega)

/-! ## What a suggestion leaves to later probes -/

/-- `n'` is `n` as far as a probe beyond `slot` can tell. -/
structure SameBeyond (P : Params) (n n' : Node V) (slot : Nat) : Prop where
  id : n'.id = n.id
  floor : n'.memoryFloor = n.memoryFloor
  membership : n'.membership = n.membership
  place : n'.selfIndex = n.selfIndex
  promised : n'.ledger.promised = n.ledger.promised
  cell : ∀ s, slot < s → s ≤ n.memoryFloor + P.W → n'.ledger.cellAt P s = n.ledger.cellAt P s
  lead : ∀ s, slot < s → s ≤ n.memoryFloor + P.W →
    n'.lead (cellOf s P.W) = n.lead (cellOf s P.W)

namespace SameBeyond

variable {n n' : Node V} {slot : Nat}

theorem ownSlotFrom (h : SameBeyond P n n' slot) (start : Nat) :
    PaxosOdin.ownSlotFrom n' start = PaxosOdin.ownSlotFrom n start := by
  unfold PaxosOdin.ownSlotFrom
  rw [h.membership, h.place]

/-- The loop of the probe finds the same beyond `slot`. -/
theorem probeLoop (h : SameBeyond P n n' slot) (hself : n.selfIndex < n.membership.members.length)
    (hsmall : n.membership.members.length ≤ maxSlot) {fuel : Nat} :
    ∀ {start : Nat}, slot < start → start ≤ maxSlot →
      ownSlotProbeLoop P n' fuel start = ownSlotProbeLoop P n fuel start := by
  induction fuel with
  | zero =>
      intro start _ _
      rfl
  | succ fuel ih =>
      intro start hbeyond hroom
      unfold ownSlotProbeLoop
      by_cases hmax : start = maxSlot
      · rw [if_pos hmax, if_pos hmax]
      rw [if_neg hmax, if_neg hmax, h.floor]
      by_cases hfull : start - n.memoryFloor > P.W
      · rw [if_pos hfull, if_pos hfull]
      rw [if_neg hfull, if_neg hfull]
      obtain ⟨haligned, hle⟩ := ownSlotFrom_spec (n := n) (start + 1) hself hsmall (by omega)
      have hcell : n'.ledger.cells (cellOf start P.W) = n.ledger.cells (cellOf start P.W) :=
        h.cell start hbeyond (by omega)
      have hrest : ownSlotProbeLoop P n' fuel (PaxosOdin.ownSlotFrom n (start + 1)) =
          ownSlotProbeLoop P n fuel (PaxosOdin.ownSlotFrom n (start + 1)) :=
        ih (by omega) haligned.1
      dsimp only
      unfold ledgerPromiseFor
      rw [hcell, h.id, h.promised, h.ownSlotFrom, hrest]

/-- A probe beyond `slot` finds the same. -/
theorem probe (h : SameBeyond P n n' slot) (hself : n.selfIndex < n.membership.members.length)
    (hsmall : n.membership.members.length ≤ maxSlot) (hlive : n.memoryFloor < slot) {start : Nat}
    (hbeyond : slot < start) (hroom : start ≤ maxSlot) :
    ownSlotProbe P n' start = ownSlotProbe P n start := by
  unfold ownSlotProbe
  rw [h.floor]
  by_cases hmax : n.memoryFloor = maxSlot
  · rw [if_pos hmax, if_pos hmax]
  · rw [if_neg hmax, if_neg hmax]
    dsimp only
    rw [if_neg (by omega), if_neg (by omega)]
    exact h.probeLoop hself hsmall hbeyond hroom

/-- Suggestions beyond `slot` are available in both or in neither. -/
theorem available (h : SameBeyond P n n' slot) (ho : Opened P n) (hv : n.votingMember = true)
    (hlive : n.memoryFloor < slot) (wanted : Nat) {cursor : Nat} (hbeyond : slot < cursor)
    (haligned : OwnAligned n cursor) :
    ownSlotsAvailable P n' wanted cursor = ownSlotsAvailable P n wanted cursor := by
  have hself := ho.selfIndex_lt hv
  induction wanted generalizing cursor with
  | zero => rfl
  | succ wanted ih =>
      unfold ownSlotsAvailable
      rw [h.probe hself ho.small hlive hbeyond haligned.1]
      cases hprobe : ownSlotProbe P n cursor with
      | error e => rfl
      | ok found =>
          obtain ⟨hfound, hle, hmax⟩ := ownSlotProbe_spec ho hv haligned hprobe
          have hroom := hfound.1
          obtain ⟨hnext, hlt⟩ := ownSlotFrom_spec (n := n) (found + 1) hself ho.small (by omega)
          dsimp only
          rw [h.ownSlotFrom]
          exact ih (by omega) hnext

/-- A slot beyond `slot` is suggestible in both or in neither. -/
theorem suggestible (h : SameBeyond P n n' slot) {s : Nat} (hbeyond : slot < s) (hs : Suggestible P n' s) :
    Suggestible P n s := by
  have hwindow := hs.window
  rw [h.floor] at hwindow
  have hcell : n'.ledger.cells (cellOf s P.W) = n.ledger.cells (cellOf s P.W) :=
    h.cell s hbeyond hwindow
  refine ⟨?_, hwindow, ?_, ?_, ?_⟩
  · rw [← h.floor]
    exact hs.live
  · have hclaims := hs.claims
    rw [Ne, claimLive_none_iff] at hclaims ⊢
    unfold Stuck at hclaims ⊢
    simp only [Ledger.cellAt] at hclaims ⊢
    rw [h.floor, hcell] at hclaims
    exact hclaims
  · have hundecided := hs.undecided
    unfold ledgerChosenAt at hundecided ⊢
    rw [hcell] at hundecided
    exact hundecided
  · have hpromised := hs.promised
    unfold governing at hpromised ⊢
    simp only [Ledger.cellAt] at hpromised ⊢
    rw [hcell, h.promised, h.id] at hpromised
    exact hpromised

end SameBeyond

/-! ## Suggestions -/

/-- No slot from `own_next` on that a suggestion could take holds one of this node's suggestions. -/
def Unled (P : Params) (n : Node V) : Prop :=
  ∀ slot, n.ownNext ≤ slot → Suggestible P n slot → (n.lead (cellOf slot P.W)).slot = slot →
    (n.ledger.cellAt P slot).slot = slot → (n.ledger.cellAt P slot).voteBallot ≠ ownershipBallot n.id

/-- A suggestible slot takes any value. -/
theorem Suggestible.castable {n : Node V} {slot : Nat} (h : Suggestible P n slot) (hunled : Unled P n)
    (hnext : n.ownNext ≤ slot) (value : V) :
    Castable P n slot (ownershipBallot n.id) value := by
  refine ⟨h.claims, h.undecided, h.promised, fun hlead hheld _ hballot => ?_⟩
  exact absurd hballot (hunled slot hnext h hlead hheld)

theorem ownSlotProbe_error (n : Node V) (start : Nat) : ownSlotProbe P n start ≠ .error .none := by
  have hloop : ∀ fuel slot, ownSlotProbeLoop P n fuel slot ≠ .error .none := by
    intro fuel
    induction fuel with
    | zero => simp [ownSlotProbeLoop]
    | succ fuel ih =>
        intro slot
        unfold ownSlotProbeLoop
        dsimp only
        split_ifs <;> simp [ih]
  unfold ownSlotProbe
  split_ifs
  · simp
  · exact hloop _ _
  · exact hloop _ _

section Suggestions

variable [DecidableEq V]

/-- The state of the owner after a suggestion was cast in `slot`. -/
def St.suggested (τ : St V) (slot : Nat) : St V :=
  { τ with node :=
    { τ.node with
      ownNext := ownSlotFrom τ.node (slot + 1)
      highestSeen := max τ.node.highestSeen slot } }

/-- A suggestion takes the slot that the probe finds, in the first round of its loop. -/
theorem proposeOwnedLoop_suggestible {σ : St V} {slot : Nat} (hunled : Unled P σ.node)
    (hfit : Suggestible P σ.node slot) (hnext : σ.node.ownNext ≤ slot) (value : V) (fuel : Nat)
    (hprobe : ownSlotProbe P σ.node σ.node.ownNext = .ok slot) :
    ∃ τ, Cast P (σ.bump slot) τ slot (ownershipBallot σ.node.id) value ∧
      sendAccept P (σ.bump slot) slot (ownershipBallot σ.node.id) value = (τ, .none) ∧
      proposeOwnedLoop P value (fuel + 1) σ = (τ.suggested slot, slot, .none) := by
  have hcastable : Castable P (σ.bump slot).node slot (ownershipBallot σ.node.id) value :=
    (hfit.castable hunled hnext value).congr rfl rfl rfl rfl
  obtain ⟨τ, hsend, hcast⟩ := sendAccept_cast hcastable
  refine ⟨τ, hcast, hsend, ?_⟩
  simp only [proposeOwnedLoop, nextUsableOwnSlot, hprobe]
  have hsend' : sendAccept P { σ with node := { σ.node with ownNext := slot } } slot
      (ownershipBallot σ.node.id) value = (τ, .none) := hsend
  rw [hsend']
  rfl

omit [DecidableEq V] in
/-- What a cast suggestion leaves to later probes. -/
theorem Cast.sameBeyond {σ τ : St V} {slot ballot : Nat} {value : V}
    (h : Cast P (σ.bump slot) τ slot ballot value) (hlive : σ.node.memoryFloor < slot) :
    SameBeyond P σ.node (τ.suggested slot).node slot := by
  have hfixed := h.fixed
  simp only [Node.fixed, Fixed.mk.injEq] at hfixed
  have hapart : ∀ s, slot < s → s ≤ σ.node.memoryFloor + P.W → cellOf s P.W ≠ cellOf slot P.W := by
    intro s hlow hhigh hcell
    have := eq_of_cellOf_eq P (show σ.node.memoryFloor < s by omega) hhigh hlive (by omega) hcell
    omega
  constructor
  · exact congrArg Fixed.id h.fixed
  · exact congrArg Fixed.memoryFloor h.fixed
  · exact congrArg Fixed.membership h.fixed
  · exact congrArg Fixed.selfIndex h.fixed
  · exact h.promised
  · intro s hlow hhigh
    exact h.other _ (hapart s hlow hhigh)
  · intro s hlow hhigh
    exact h.otherLead _ (hapart s hlow hhigh)

/-- What a batch of suggestions places. -/
structure Placed (P : Params) (n : Node V) (slots : List Nat) : Prop where
  increasing : slots.Pairwise (· < ·)
  owned : ∀ s ∈ slots, OwnAligned n s ∧ s ≠ maxSlot
  suggestible : ∀ s ∈ slots, n.ownNext ≤ s ∧ Suggestible P n s

/-- The state of an owner that suggests. -/
structure Owner (P : Params) (n : Node V) : Prop where
  opened : Opened P n
  voter : n.votingMember = true
  mode : n.ownership = true
  unled : Unled P n

/-- A suggestion leaves an owner that can suggest again. -/
theorem Owner.suggested {σ τ : St V} {slot : Nat} {value : V} (h : Owner P σ.node)
    (hprobe : ownSlotProbe P σ.node σ.node.ownNext = .ok slot)
    (hcast : Cast P (σ.bump slot) τ slot (ownershipBallot σ.node.id) value)
    (hstep : proposeOwned P σ value = (τ.suggested slot, slot, .none)) :
    Owner P (τ.suggested slot).node ∧ slot < (τ.suggested slot).node.ownNext := by
  have hroom := (h.opened.aligned h.voter h.mode).1
  obtain ⟨haligned, -, hmax⟩ :=
    ownSlotProbe_spec h.opened h.voter (h.opened.aligned h.voter h.mode) hprobe
  have hfit := ownSlotProbe_suggestible h.opened h.voter hroom hprobe
  have hsame := hcast.sameBeyond hfit.live
  have hself := h.opened.selfIndex_lt h.voter
  have hword := haligned.1
  have hbeyond : slot < (τ.suggested slot).node.ownNext := by
    obtain ⟨-, hle⟩ := ownSlotFrom_spec (n := σ.node) (slot + 1) hself h.opened.small (by omega)
    have heq : (τ.suggested slot).node.ownNext = ownSlotFrom σ.node (slot + 1) :=
      hsame.ownSlotFrom (slot + 1)
    omega
  have hrun : Run P { values := [value] } σ (τ.suggested slot) := by
    have := @proposeOwned_run V P { values := [value] } _ σ value
      ⟨h.opened, h.voter, h.mode, Or.inl (List.mem_singleton_self _)⟩
    rw [hstep] at this
    exact this
  refine ⟨⟨hrun.opened h.opened, ?_, ?_, ?_⟩, hbeyond⟩
  · exact (congrArg Static.votingMember hrun.static).trans h.voter
  · exact (congrArg Static.ownership hrun.static).trans h.mode
  · intro s hnext hs hlead hheld
    have hlater : slot < s := by omega
    have hwindow := hs.window
    rw [hsame.floor] at hwindow
    rw [hsame.lead s hlater hwindow] at hlead
    rw [hsame.cell s hlater hwindow] at hheld ⊢
    rw [hsame.id]
    obtain ⟨-, hle, -⟩ :=
      ownSlotProbe_spec h.opened h.voter (h.opened.aligned h.voter h.mode) hprobe
    exact h.unled s (by omega) (hsame.suggestible hlater hs) hlead hheld

/-- Whatever came of earlier suggestions, an owner can go on. -/
theorem proposeAll_owner {values : List V} {σ : St V} (h : Owner P σ.node) :
    Owner P (proposeAll (proposeOwned P) σ values).1.node := by
  induction values generalizing σ with
  | nil => exact h
  | cons value values ih =>
      have haligned := h.opened.aligned h.voter h.mode
      rw [proposeAll]
      cases hprobe : ownSlotProbe P σ.node σ.node.ownNext with
      | error e =>
          have hstop : proposeOwned P σ value = (σ, 0, e) := by
            simp [proposeOwned, proposeOwnedLoop, nextUsableOwnSlot, hprobe]
          rw [hstop]
          cases e <;> first | exact absurd hprobe (ownSlotProbe_error _ _) | exact h
      | ok slot =>
          obtain ⟨-, hle, -⟩ := ownSlotProbe_spec h.opened h.voter haligned hprobe
          have hfit := ownSlotProbe_suggestible h.opened h.voter haligned.1 hprobe
          obtain ⟨τ, hcast, -, hstep⟩ := proposeOwnedLoop_suggestible h.unled hfit hle value P.W hprobe
          have hstep : proposeOwned P σ value = (τ.suggested slot, slot, .none) := hstep
          have hrest := ih (h.suggested hprobe hcast hstep).1
          rw [hstep]
          dsimp only
          rcases hall : proposeAll (proposeOwned P) (τ.suggested slot) values with ⟨ρ, slots, e⟩
          rw [hall] at hrest
          cases e <;> exact hrest

/-- The first suggestion of a batch takes no later slot than the first one that fits. -/
theorem proposeAll_owned_le {values : List V} {σ σ' : St V} {slots : List Nat} {slot : Nat}
    (h : Owner P σ.node) (hfit : Suggestible P σ.node slot) (hown : OwnAligned σ.node slot)
    (hmax : slot ≠ maxSlot) (hnext : σ.node.ownNext ≤ slot) (hne : values ≠ [])
    (hall : proposeAll (proposeOwned P) σ values = (σ', slots, .none)) :
    ∃ first ∈ slots, first ≤ slot := by
  cases values with
  | nil => exact absurd rfl hne
  | cons value values =>
      have haligned := h.opened.aligned h.voter h.mode
      rw [proposeAll] at hall
      cases hprobe : ownSlotProbe P σ.node σ.node.ownNext with
      | error e =>
          have hstop : proposeOwned P σ value = (σ, 0, e) := by
            simp [proposeOwned, proposeOwnedLoop, nextUsableOwnSlot, hprobe]
          rw [hstop] at hall
          cases e <;> first | exact absurd hprobe (ownSlotProbe_error _ _) | cases hall
      | ok first =>
          obtain ⟨-, hle, -⟩ := ownSlotProbe_spec h.opened h.voter haligned hprobe
          have hfirst := ownSlotProbe_suggestible h.opened h.voter haligned.1 hprobe
          obtain ⟨τ, -, -, hstep⟩ :=
            proposeOwnedLoop_suggestible h.unled hfirst hle value P.W hprobe
          have hstep : proposeOwned P σ value = (τ.suggested first, first, .none) := hstep
          rw [hstep] at hall
          dsimp only at hall
          rcases hrest : proposeAll (proposeOwned P) (τ.suggested first) values with ⟨ρ, rest, e⟩
          rw [hrest] at hall
          cases e <;> cases hall
          exact ⟨first, List.mem_cons_self, ownSlotProbe_le hfit hown hmax
            (h.opened.selfIndex_lt h.voter) hnext hprobe⟩

/-- A batch of suggestions is placed exactly when its slots are available. -/
theorem proposeAll_owned {values : List V} {σ : St V} (h : Owner P σ.node) :
    (ownSlotsAvailable P σ.node values.length σ.node.ownNext = .none →
      ∃ σ' slots, proposeAll (proposeOwned P) σ values = (σ', slots, .none) ∧
        slots.length = values.length ∧ Placed P σ.node slots) ∧
    (ownSlotsAvailable P σ.node values.length σ.node.ownNext ≠ .none →
      (proposeAll (proposeOwned P) σ values).2.2 ≠ .none) := by
  induction values generalizing σ with
  | nil =>
      refine ⟨fun _ => ⟨σ, [], rfl, rfl, List.Pairwise.nil, ?_, ?_⟩, fun h => absurd rfl h⟩
      · intro s hs
        cases hs
      · intro s hs
        cases hs
  | cons value values ih =>
      have haligned := h.opened.aligned h.voter h.mode
      have hself := h.opened.selfIndex_lt h.voter
      rw [List.length_cons, ownSlotsAvailable, proposeAll]
      cases hprobe : ownSlotProbe P σ.node σ.node.ownNext with
      | error e =>
          have hne : e ≠ .none := by
            rintro rfl
            exact ownSlotProbe_error _ _ hprobe
          have hstop : proposeOwned P σ value = (σ, 0, e) := by
            simp [proposeOwned, proposeOwnedLoop, nextUsableOwnSlot, hprobe]
          rw [hstop]
          refine ⟨fun hnone => absurd hnone hne, fun _ => ?_⟩
          cases e <;> first | exact absurd rfl hne | simp
      | ok slot =>
          obtain ⟨hown, hle, hmax⟩ := ownSlotProbe_spec h.opened h.voter haligned hprobe
          have hfit := ownSlotProbe_suggestible h.opened h.voter haligned.1 hprobe
          obtain ⟨τ, hcast, -, hstep⟩ :=
            proposeOwnedLoop_suggestible h.unled hfit hle value P.W hprobe
          have hstep : proposeOwned P σ value = (τ.suggested slot, slot, .none) := hstep
          obtain ⟨howner, hnext⟩ := h.suggested hprobe hcast hstep
          have hsame := hcast.sameBeyond hfit.live
          have hword := hown.1
          obtain ⟨hcursor, hlater⟩ :=
            ownSlotFrom_spec (n := σ.node) (slot + 1) hself h.opened.small (by omega)
          have hrest := ih (σ := τ.suggested slot) howner
          -- the probes of the remaining suggestions do not see this one
          have havailable : ownSlotsAvailable P (τ.suggested slot).node values.length
              (τ.suggested slot).node.ownNext =
                ownSlotsAvailable P σ.node values.length (ownSlotFrom σ.node (slot + 1)) := by
            rw [show (τ.suggested slot).node.ownNext = ownSlotFrom σ.node (slot + 1) from
              hsame.ownSlotFrom (slot + 1)]
            exact hsame.available h.opened h.voter hfit.live _ (by omega) hcursor
          rw [havailable] at hrest
          rw [hstep]
          dsimp only
          refine ⟨fun hnone => ?_, fun hsome => ?_⟩
          · obtain ⟨σ', slots, hall, hlength, hplaced⟩ := hrest.1 hnone
            rw [hall]
            refine ⟨σ', slot :: slots, rfl, by simp [hlength], ?_, ?_, ?_⟩
            · refine List.Pairwise.cons (fun s hs => ?_) hplaced.increasing
              have := (hplaced.suggestible s hs).1
              omega
            · intro s hs
              rcases List.mem_cons.mp hs with rfl | hs
              · exact ⟨hown, hmax⟩
              · obtain ⟨ha, hne⟩ := hplaced.owned s hs
                refine ⟨?_, hne⟩
                unfold OwnAligned at ha ⊢
                rw [hsame.membership, hsame.place] at ha
                exact ha
            · intro s hs
              rcases List.mem_cons.mp hs with rfl | hs
              · exact ⟨hle, hfit⟩
              · obtain ⟨hge, hu⟩ := hplaced.suggestible s hs
                exact ⟨by omega, hsame.suggestible (by omega) hu⟩
          · have hfailed := hrest.2 hsome
            rcases hall : proposeAll (proposeOwned P) (τ.suggested slot) values with ⟨σ', slots, e⟩
            rw [hall] at hfailed
            cases e <;> first | exact absurd rfl hfailed | simp

/-! ## The loops on words -/

omit [DecidableEq V] in
/-- `own_slots_available` on words. -/
def ownSlotsAvailableWords (P : Params) (n : Node V) (rounds : Nat) : Nat → Nat → Option Error
  | 0, _ => some .none
  | wanted + 1, cursor =>
      match ownSlotProbeWords P n rounds cursor with
      | none => none
      | some (.error e) => some e
      | some (.ok slot) =>
          ownSlotsAvailableWords P n rounds wanted (ownSlotFromWords n (slotSucc slot))

/-- The loop of `propose_owned` on words.  Nothing is returned when the rounds run out. -/
def proposeOwnedWords (P : Params) (value : V) (rounds : Nat) :
    Nat → St V → Option (St V × Nat × Error)
  | 0, _ => none
  | fuel + 1, σ =>
      match ownSlotProbeWords P σ.node rounds σ.node.ownNext with
      | none => none
      | some (.error e) => some (σ, 0, e)
      | some (.ok slot) =>
          match sendAccept P (σ.bump slot) slot (ownershipBallot σ.node.id) value with
          | (τ, .notLeader) =>
              proposeOwnedWords P value rounds fuel (τ.bump (ownSlotFromWords τ.node (slotSucc slot)))
          | (τ, .none) =>
              some ({ τ with node :=
                { τ.node with
                  ownNext := ownSlotFromWords τ.node (slotSucc slot)
                  highestSeen := max τ.node.highestSeen slot } }, slot, .none)
          | (τ, e) => some (τ, slot, e)

omit [DecidableEq V] in
/-- The probes of a batch end, and no word wraps in them. -/
theorem ownSlotsAvailableWords_eq {n : Node V} (ho : Opened P n) (hv : n.votingMember = true)
    {rounds : Nat} (hrounds : P.W < rounds) (wanted : Nat) {cursor : Nat}
    (haligned : OwnAligned n cursor) :
    ownSlotsAvailableWords P n rounds wanted cursor =
      some (ownSlotsAvailable P n wanted cursor) := by
  have hself := ho.selfIndex_lt hv
  induction wanted generalizing cursor with
  | zero => rfl
  | succ wanted ih =>
      unfold ownSlotsAvailableWords ownSlotsAvailable
      rw [ownSlotProbeWords_eq ho hv hrounds haligned.1]
      cases hprobe : ownSlotProbe P n cursor with
      | error e => rfl
      | ok slot =>
          obtain ⟨hown, -, hmax⟩ := ownSlotProbe_spec ho hv haligned hprobe
          have hroom := hown.1
          obtain ⟨hnext, -⟩ := ownSlotFrom_spec (n := n) (slot + 1) hself ho.small (by omega)
          dsimp only
          rw [show slotSucc slot = slot + 1 from if_neg hmax, ownSlotFromWords_eq hself ho.small]
          exact ih hnext

/-- A suggestion ends in its first round, and no word wraps in it. -/
theorem proposeOwnedWords_eq {σ : St V} (h : Owner P σ.node) {rounds : Nat} (hrounds : P.W < rounds)
    (value : V) (fuel : Nat) :
    proposeOwnedWords P value rounds (fuel + 1) σ = some (proposeOwned P σ value) := by
  have haligned := h.opened.aligned h.voter h.mode
  have hself := h.opened.selfIndex_lt h.voter
  unfold proposeOwnedWords
  rw [ownSlotProbeWords_eq h.opened h.voter hrounds haligned.1]
  cases hprobe : ownSlotProbe P σ.node σ.node.ownNext with
  | error e => simp [proposeOwned, proposeOwnedLoop, nextUsableOwnSlot, hprobe]
  | ok slot =>
      obtain ⟨hown, hle, hmax⟩ := ownSlotProbe_spec h.opened h.voter haligned hprobe
      have hfit := ownSlotProbe_suggestible h.opened h.voter haligned.1 hprobe
      obtain ⟨τ, hcast, hsend, hstep⟩ := proposeOwnedLoop_suggestible h.unled hfit hle value P.W hprobe
      have hstep : proposeOwned P σ value = (τ.suggested slot, slot, .none) := hstep
      have hmembers : τ.node.membership = σ.node.membership := congrArg Fixed.membership hcast.fixed
      have hplace : τ.node.selfIndex = σ.node.selfIndex := congrArg Fixed.selfIndex hcast.fixed
      dsimp only
      rw [hsend, hstep, show slotSucc slot = slot + 1 from if_neg hmax]
      dsimp only
      rw [ownSlotFromWords_eq (by rw [hmembers, hplace]; exact hself)
        (by rw [hmembers]; exact h.opened.small)]
      rfl

end Suggestions

end PaxosOdin
