import Mathlib.Data.Finset.Card
import Mathlib.Logic.Function.Basic
import Mathlib.Tactic.Ring

/-!
# Slots, ballots and capacities

Slots (one-based positions in the decree log, zero meaning none), ballots and
node identities are unsigned machine words in the source.  They are natural
numbers here: every subtraction or increment that the source leaves unguarded is
written with its wrap at `2 ^ 64`, and a guarded one is the plain operation.

Main results:

- Theorem `ballotMake_round`: the packed round is recovered exactly.
- Theorem `ballotMake_node`: the packed proposer is recovered exactly.
- Theorem `cellOf_eq_mod`: the window mask is a remainder.
-/

namespace PaxosOdin

/-- The compile-time capacities `$MAX_MEMBERS`, `$WINDOW_SLOTS` and
`$CHUNK_SLOTS`, with the assertions `node_init` and `membership_init` make
about them. -/
structure Params where
  M : Nat
  W : Nat
  C : Nat
  members_pos : 0 < M
  members_le : M ≤ 65535
  window_pow : ∃ k, W = 2 ^ k
  chunk_pos : 0 < C
  chunk_le : C ≤ W

/-- The window is never empty, since it is a power of two. -/
theorem Params.window_pos (P : Params) : 0 < P.W := by
  obtain ⟨k, hk⟩ := P.window_pow
  rw [hk]
  exact Nat.two_pow_pos k

/-! ## Slots -/

/-- `max(Slot)`. -/
def maxSlot : Nat := 2 ^ 64 - 1

/-- `a - b` on 64-bit words, which wraps. -/
def slotSub (a b : Nat) : Nat :=
  if b ≤ a then a - b else a + 2 ^ 64 - b

/-- `slot + 1` on 64-bit words, which wraps. -/
def slotSucc (slot : Nat) : Nat :=
  if slot = maxSlot then 0 else slot + 1

/-- Adds without wrapping past the last slot. -/
def slotAdd (slot offset : Nat) : Nat :=
  slot + min offset (maxSlot - slot)

/-- The window index of a slot: one mask, since the window is a power of two. -/
def cellOf (slot window : Nat) : Nat :=
  slotSub slot 1 &&& (window - 1)

theorem slotSub_of_le {a b : Nat} (h : b ≤ a) : slotSub a b = a - b := by
  simp [slotSub, h]

theorem slotAdd_le_add (slot offset : Nat) : slotAdd slot offset ≤ slot + offset := by
  unfold slotAdd
  omega

theorem slotAdd_le_maxSlot {slot : Nat} (offset : Nat) (h : slot ≤ maxSlot) :
    slotAdd slot offset ≤ maxSlot := by
  unfold slotAdd
  omega

theorem le_slotAdd (slot offset : Nat) : slot ≤ slotAdd slot offset := by
  unfold slotAdd
  omega

/-- The window mask is a remainder. -/
theorem cellOf_eq_mod (P : Params) {slot : Nat} (hslot : 0 < slot) :
    cellOf slot P.W = (slot - 1) % P.W := by
  obtain ⟨k, hk⟩ := P.window_pow
  rw [cellOf, slotSub_of_le hslot, hk]
  exact Nat.and_two_pow_sub_one_eq_mod (slot - 1) k

/-- A window index is below the window size. -/
theorem cellOf_lt (P : Params) (slot : Nat) : cellOf slot P.W < P.W := by
  have hpos := P.window_pos
  have hle : cellOf slot P.W ≤ P.W - 1 := Nat.and_le_right
  omega

/-- Within one window distinct slots have distinct cells. -/
theorem eq_of_cellOf_eq (P : Params) {floor s t : Nat} (hs : floor < s) (hs' : s ≤ floor + P.W)
    (ht : floor < t) (ht' : t ≤ floor + P.W) (h : cellOf s P.W = cellOf t P.W) : s = t := by
  rw [cellOf_eq_mod P (by omega), cellOf_eq_mod P (by omega)] at h
  rcases Nat.lt_trichotomy s t with hlt | heq | hgt
  · have hdvd : P.W ∣ (t - 1) - (s - 1) :=
      Nat.dvd_of_mod_eq_zero (Nat.sub_mod_eq_zero_of_mod_eq h.symm)
    have := Nat.le_of_dvd (by omega) hdvd
    omega
  · exact heq
  · have hdvd : P.W ∣ (s - 1) - (t - 1) :=
      Nat.dvd_of_mod_eq_zero (Nat.sub_mod_eq_zero_of_mod_eq h)
    have := Nat.le_of_dvd (by omega) hdvd
    omega

/-! ## Ballots -/

/-- `MAX_ROUND`: rounds have 40 bits. -/
def maxRound : Nat := 2 ^ 40 - 1

/-- Packs round (40 bits), priority (8 bits) and proposer (16 bits). -/
def ballotMake (round priority node : Nat) : Nat :=
  round * 2 ^ 24 + priority * 2 ^ 16 + node

/-- The campaign counter of a ballot. -/
def ballotRound (b : Nat) : Nat :=
  b / 2 ^ 24

/-- The proposer of a ballot. -/
def ballotNode (b : Nat) : Nat :=
  b % 2 ^ 16

/-- The packed round is recovered exactly. -/
theorem ballotMake_round {round priority node : Nat}
    (hp : priority < 2 ^ 8) (hn : node < 2 ^ 16) :
    ballotRound (ballotMake round priority node) = round := by
  unfold ballotRound ballotMake
  omega

/-- The packed proposer is recovered exactly. -/
theorem ballotMake_node {round priority node : Nat}
    (hn : node < 2 ^ 16) : ballotNode (ballotMake round priority node) = node := by
  unfold ballotNode ballotMake
  omega

/-- Rounds order ballots. -/
theorem ballotRound_mono {a b : Nat} (h : a ≤ b) : ballotRound a ≤ ballotRound b :=
  Nat.div_le_div_right h

/-- The ballot an owner proposes with: round zero, which no campaign ever uses. -/
def ownershipBallot (owner : Nat) : Nat :=
  ballotMake 0 0 owner

@[simp]
theorem ownershipBallot_eq (owner : Nat) : ownershipBallot owner = owner := by
  simp [ownershipBallot, ballotMake]

/-- A 32-bit tick counter that stops at its greatest value. -/
def saturatingIncrement (ticks : Nat) : Nat :=
  if ticks < 2 ^ 32 - 1 then ticks + 1 else ticks

end PaxosOdin
