import Mathlib.Data.List.Sort
import Mathlib.Data.Nat.Count
import Mathlib.Order.Bounds.Basic
import PaxosOdin.Core.Ledger

/-!
# Bit sets over words

A set of indices below `N` kept as one 64-bit word for each 64 of them.  The
last word is only partly used when `N` is not a multiple of 64.  The rest of the
development reads the bitmaps of a ledger as finite sets of cell indices; this
module proves that the words and those sets agree.

Main results:

- Theorem `BitSet.isLeast_of_next`: the walk over the words finds the least set bit.
- Theorem `BitSet.refines_run`: after any edits the words show the edited set in
  every query and in the scan.
- Theorems `BitSet.Shown.scan_eq` and `BitSet.Shown.next_eq`: the scans of the
  model over finite sets are the scans over the words.
-/

namespace PaxosOdin

/-! ## One word -/

section Word

variable {w : Nat} {x : BitVec w}

/-- Trailing zeros count up to the lowest set bit. -/
theorem isLeast_ctz (hx : x ≠ 0#w) : IsLeast {b | x.getLsbD b = true} x.ctz.toNat := by
  constructor
  · exact BitVec.getLsbD_true_ctz_of_ne_zero hx
  · intro b hb
    by_contra hlt
    have hclear : x.getLsbD b = false := BitVec.getLsbD_false_of_lt_ctz (by omega)
    simp [hclear] at hb

/-- Leading zeros count down to the highest set bit. -/
theorem isGreatest_clz (hx : x ≠ 0#w) :
    IsGreatest {b | x.getLsbD b = true} (w - 1 - x.clz.toNat) := by
  have hw : 0 < w := by
    rcases Nat.eq_zero_or_pos w with hzero | hpos
    · subst hzero
      exact absurd (BitVec.eq_nil x) hx
    · exact hpos
  constructor
  · exact BitVec.getLsbD_true_clz_of_ne_zero hw hx
  · intro b hb
    have hlow : 2 ^ b ≤ x.toNat := Nat.ge_two_pow_of_testBit hb
    have hhigh : x.toNat < 2 ^ (w - x.clz.toNat) := BitVec.toNat_lt_two_pow_sub_clz
    have hlt : b < w - x.clz.toNat :=
      (Nat.pow_lt_pow_iff_right (by decide)).1 (hlow.trans_lt hhigh)
    omega

theorem clz_toNat_lt (hx : x ≠ 0#w) : x.clz.toNat < w := by
  have hlt : x.clz < BitVec.ofNat w w := by simpa using BitVec.clz_lt_iff_ne_zero.2 hx
  rw [BitVec.lt_def, BitVec.toNat_ofNat, Nat.mod_eq_of_lt Nat.lt_two_pow_self] at hlt
  exact hlt

/-- Shifting the full word up clears the bits before `k`. -/
theorem getLsbD_and_allOnes_shiftLeft (k b : Nat) :
    (x &&& (BitVec.allOnes w <<< k)).getLsbD b = true ↔ k ≤ b ∧ x.getLsbD b = true := by
  simp only [BitVec.getLsbD_and, BitVec.getLsbD_shiftLeft, BitVec.getLsbD_allOnes,
    Bool.and_eq_true, Bool.not_eq_true', decide_eq_true_eq, decide_eq_false_iff_not, not_lt]
  constructor
  · rintro ⟨hbit, ⟨-, hk⟩, -⟩
    exact ⟨hk, hbit⟩
  · rintro ⟨hk, hbit⟩
    have hb : b < w := BitVec.lt_of_getLsbD hbit
    exact ⟨hbit, ⟨hb, hk⟩, by omega⟩

theorem cpopNatRec_eq_count (n : Nat) :
    x.cpopNatRec n 0 = Nat.count (fun b => x.getLsbD b = true) n := by
  induction n with
  | zero => simp
  | succ n ih =>
      rw [BitVec.cpopNatRec_succ, BitVec.cpopNatRec_eq, ih, Nat.count_succ]
      cases x.getLsbD n <;> simp

/-- The population count counts the set bits. -/
theorem toNat_cpop_eq_count : x.cpop.toNat = Nat.count (fun b => x.getLsbD b = true) w := by
  rw [BitVec.toNat_cpop, cpopNatRec_eq_count]

end Word

/-! ## The source's bit set -/

/-- One word of the set. -/
abbrev Word := BitVec 64

/-- A bounded set of small integers, one word for each 64 members. -/
structure BitSet (N : Nat) where
  words : Vector Word ((N + 63) / 64)

namespace BitSet

variable {N : Nat}

/-- The empty set, which is also what `bit_set_reset` leaves. -/
def empty : BitSet N where
  words := Vector.replicate _ 0

/-- The word at one position. -/
def word (bs : BitSet N) (w : Nat) : Word :=
  bs.words[w]?.getD 0

/-- Replaces the word at one position. -/
def setWord (bs : BitSet N) (w : Nat) (x : Word) : BitSet N where
  words := bs.words.setIfInBounds w x

/-- Whether an index is a member. -/
def contains (bs : BitSet N) (index : Fin N) : Bool :=
  (bs.word (index / 64)).getLsbD (index % 64)

/-- Inserts an index.  Returns true when it was not present before. -/
def insert (bs : BitSet N) (index : Fin N) : BitSet N × Bool :=
  let w := (index : Nat) / 64
  let b := (index : Nat) % 64
  if (bs.word w).getLsbD b then (bs, false)
  else (bs.setWord w (bs.word w ||| BitVec.twoPow 64 b), true)

/-- Removes an index. -/
def remove (bs : BitSet N) (index : Fin N) : BitSet N :=
  let w := (index : Nat) / 64
  let b := (index : Nat) % 64
  bs.setWord w (bs.word w &&& ~~~ BitVec.twoPow 64 b)

/-- The number of members. -/
def count (bs : BitSet N) : Nat :=
  bs.words.toList.foldl (fun total w => total + w.cpop.toNat) 0

/-- The loop of `bit_set_next`: the lowest bit of `mask`, else of a later word. -/
def nextFrom (bs : BitSet N) (w : Nat) (mask : Word) : Option Nat :=
  if mask ≠ 0 then
    let index := w * 64 + mask.ctz.toNat
    if index < N then some index else none
  else if w + 1 ≥ (N + 63) / 64 then none
  else bs.nextFrom (w + 1) (bs.word (w + 1))
termination_by (N + 63) / 64 - w

/-- The smallest member at or after `start`, if any. -/
def next (bs : BitSet N) (start : Nat) : Option Nat :=
  if start ≥ N then none
  else bs.nextFrom (start / 64)
    (bs.word (start / 64) &&& (BitVec.allOnes 64 <<< (start % 64)))

/-- The loop of `bit_set_last` over the words below position `w`. -/
def lastBelow (bs : BitSet N) : Nat → Option Nat
  | 0 => none
  | w + 1 =>
      let mask := bs.word w
      if mask ≠ 0 then some (w * 64 + 64 - 1 - mask.clz.toNat) else bs.lastBelow w

/-- The largest member, if any. -/
def last (bs : BitSet N) : Option Nat :=
  bs.lastBelow ((N + 63) / 64)

/-! ## Raw bits -/

/-- The bit that stands for an index. -/
def bit (bs : BitSet N) (i : Nat) : Bool :=
  (bs.word (i / 64)).getLsbD (i % 64)

/-- `bit_set_contains` reads the bit of its index. -/
theorem contains_eq_bit (bs : BitSet N) (index : Fin N) : bs.contains index = bs.bit index :=
  rfl

/-- Every word of the empty set is zero. -/
@[simp] theorem word_empty (w : Nat) : (empty : BitSet N).word w = 0 := by
  unfold word empty
  simp only [Vector.getElem?_replicate]
  split <;> rfl

/-- Every bit of the empty set is clear. -/
@[simp] theorem bit_empty (i : Nat) : (empty : BitSet N).bit i = false := by
  simp [bit]

/-- Writing one word leaves the others alone. -/
theorem word_setWord (bs : BitSet N) {w : Nat} (hw : w < (N + 63) / 64) (x : Word) (v : Nat) :
    (bs.setWord w x).word v = if v = w then x else bs.word v := by
  unfold word setWord
  rw [Vector.getElem?_setIfInBounds]
  by_cases h : v = w
  · subst h
    simp [hw]
  · simp [h, Ne.symm h]

/-- The word of an index is one of the words of the set. -/
theorem word_lt (index : Fin N) : (index : Nat) / 64 < (N + 63) / 64 := by
  have hindex := index.isLt
  omega

/-- Writing a word that differs in one bit changes that index only. -/
theorem bit_setWord (bs : BitSet N) (index : Fin N) {x : Word} {value : Bool}
    (hx : ∀ b, b < 64 →
      x.getLsbD b = if b = index % 64 then value else (bs.word (index / 64)).getLsbD b)
    (i : Nat) :
    (bs.setWord (index / 64) x).bit i = if i = index then value else bs.bit i := by
  unfold bit
  rw [word_setWord bs (word_lt index)]
  by_cases hword : i / 64 = index / 64
  · rw [if_pos hword, hx _ (Nat.mod_lt _ (by decide)), hword]
    have hsame : i % 64 = index % 64 ↔ i = (index : Nat) := by omega
    simp only [hsame]
  · rw [if_neg hword, if_neg (by rintro rfl; exact hword rfl)]

/-- `bit_set_insert` sets the bit of its index and no other. -/
theorem bit_insert (bs : BitSet N) (index : Fin N) (i : Nat) :
    (bs.insert index).1.bit i = if i = index then true else bs.bit i := by
  unfold insert
  by_cases hpresent : (bs.word (index / 64)).getLsbD (index % 64) = true
  · simp only [hpresent, if_true]
    by_cases hi : i = index
    · subst hi
      simp only [if_true]
      exact hpresent
    · rw [if_neg hi]
  · simp only [hpresent]
    apply bit_setWord
    intro b hb
    rw [BitVec.getLsbD_or, BitVec.getLsbD_twoPow]
    by_cases h : b = index % 64
    · simp [h, Nat.mod_lt]
    · simp [h, Ne.symm h]

/-- `bit_set_remove` clears the bit of its index and no other. -/
theorem bit_remove (bs : BitSet N) (index : Fin N) (i : Nat) :
    (bs.remove index).bit i = if i = index then false else bs.bit i := by
  apply bit_setWord
  intro b hb
  rw [BitVec.getLsbD_and, BitVec.getLsbD_not, BitVec.getLsbD_twoPow]
  by_cases h : b = index % 64
  · simp [h, Nat.mod_lt]
  · simp [h, Ne.symm h, hb]

/-! ## The walks -/

/-- The members of one word of the set, as bits of that word. -/
theorem getLsbD_word (bs : BitSet N) (w : Nat) {b : Nat} (hb : b < 64) :
    (bs.word w).getLsbD b = bs.bit (w * 64 + b) := by
  unfold bit
  have hword : (w * 64 + b) / 64 = w := by omega
  have hbit : (w * 64 + b) % 64 = b := by omega
  rw [hword, hbit]

/-- The bits of the part of the set that a walk still has to read: those of `mask`
at position `w`, and those of the words after it. -/
def Remaining (bs : BitSet N) (w : Nat) (mask : Word) (i : Nat) : Prop :=
  (i / 64 = w ∧ mask.getLsbD (i % 64) = true) ∨ (w < i / 64 ∧ bs.bit i = true)

/-- A mask with nothing in it leaves the next word. -/
theorem remaining_zero (bs : BitSet N) (w i : Nat) :
    bs.Remaining w 0 i ↔ bs.Remaining (w + 1) (bs.word (w + 1)) i := by
  unfold Remaining bit
  constructor
  · rintro (⟨-, hmask⟩ | ⟨hlater, hbit⟩)
    · simp at hmask
    · by_cases hnext : i / 64 = w + 1
      · left
        rw [hnext] at hbit
        exact ⟨hnext, hbit⟩
      · right
        exact ⟨by omega, hbit⟩
  · rintro (⟨hnext, hmask⟩ | ⟨hlater, hbit⟩)
    · right
      rw [hnext]
      exact ⟨by omega, hmask⟩
    · right
      exact ⟨by omega, hbit⟩

/-- The lowest bit of the mask comes before everything else that is left. -/
theorem isLeast_remaining (bs : BitSet N) (w : Nat) {mask : Word} (hmask : mask ≠ 0) :
    IsLeast {i | bs.Remaining w mask i} (w * 64 + mask.ctz.toNat) := by
  obtain ⟨hset, hleast⟩ := isLeast_ctz hmask
  have hlow : mask.ctz.toNat < 64 := BitVec.lt_of_getLsbD hset
  constructor
  · left
    have hword : (w * 64 + mask.ctz.toNat) / 64 = w := by omega
    have hbit : (w * 64 + mask.ctz.toNat) % 64 = mask.ctz.toNat := by omega
    rw [hbit]
    exact ⟨hword, hset⟩
  · rintro i (⟨hword, hbit⟩ | ⟨hlater, -⟩)
    · have hge : mask.ctz.toNat ≤ i % 64 := hleast hbit
      omega
    · omega

/-- What the walk returns is the least remaining bit, and it is in range. -/
theorem isLeast_of_nextFrom (bs : BitSet N) (w : Nat) (mask : Word) {i : Nat}
    (h : bs.nextFrom w mask = some i) : IsLeast {j | bs.Remaining w mask j} i ∧ i < N := by
  induction w, mask using nextFrom.induct bs with
  | case1 w mask hmask index hindex =>
      rw [nextFrom, if_pos hmask, if_pos hindex] at h
      cases h
      exact ⟨bs.isLeast_remaining w hmask, hindex⟩
  | case2 w mask hmask index hindex =>
      rw [nextFrom, if_pos hmask, if_neg hindex] at h
      cases h
  | case3 w mask hmask hlast =>
      rw [nextFrom, if_neg hmask, if_pos hlast] at h
      cases h
  | case4 w mask hmask hlast ih =>
      rw [nextFrom, if_neg hmask, if_neg hlast] at h
      have hzero : mask = 0 := not_not.1 hmask
      simp only [hzero, remaining_zero]
      exact ih h

/-- When the walk returns nothing, no index in range remains. -/
theorem no_remaining_of_nextFrom (bs : BitSet N) (w : Nat) (mask : Word)
    (h : bs.nextFrom w mask = none) {i : Nat} (hi : i < N) : ¬bs.Remaining w mask i := by
  induction w, mask using nextFrom.induct bs with
  | case1 w mask hmask index hindex =>
      rw [nextFrom, if_pos hmask, if_pos hindex] at h
      cases h
  | case2 w mask hmask index hindex =>
      intro hremaining
      have hge : index ≤ i := (bs.isLeast_remaining w hmask).2 hremaining
      omega
  | case3 w mask hmask hlast =>
      have hzero : mask = 0 := not_not.1 hmask
      rw [hzero]
      rintro (⟨-, hbit⟩ | ⟨hlater, -⟩)
      · simp at hbit
      · omega
  | case4 w mask hmask hlast ih =>
      rw [nextFrom, if_neg hmask, if_neg hlast] at h
      have hzero : mask = 0 := not_not.1 hmask
      rw [hzero, remaining_zero]
      exact ih h

/-- The mask of the first word hides exactly the indices before `start`. -/
theorem remaining_start (bs : BitSet N) (start i : Nat) :
    bs.Remaining (start / 64) (bs.word (start / 64) &&& (BitVec.allOnes 64 <<< (start % 64))) i ↔
      start ≤ i ∧ bs.bit i = true := by
  unfold Remaining
  rw [getLsbD_and_allOnes_shiftLeft]
  constructor
  · rintro (⟨hword, hlow, hbit⟩ | ⟨hlater, hbit⟩)
    · rw [← hword] at hbit
      exact ⟨by omega, hbit⟩
    · exact ⟨by omega, hbit⟩
  · rintro ⟨hstart, hbit⟩
    by_cases hword : i / 64 = start / 64
    · left
      unfold bit at hbit
      rw [hword] at hbit
      exact ⟨hword, by omega, hbit⟩
    · right
      exact ⟨by omega, hbit⟩

/-- `bit_set_next` finds the first bit from `start` on. -/
theorem isLeast_of_next (bs : BitSet N) {start i : Nat} (h : bs.next start = some i) :
    IsLeast {j | start ≤ j ∧ bs.bit j = true} i ∧ i < N := by
  unfold next at h
  split at h
  · cases h
  · have hleast := bs.isLeast_of_nextFrom _ _ h
    simp only [remaining_start] at hleast
    exact hleast

/-- Where `bit_set_next` finds nothing, no bit is set from `start` on. -/
theorem bit_of_next_eq_none (bs : BitSet N) {start i : Nat} (h : bs.next start = none)
    (hi : i < N) (hstart : start ≤ i) : bs.bit i = false := by
  unfold next at h
  split at h
  · omega
  · have hnone := bs.no_remaining_of_nextFrom _ _ h hi
    rw [remaining_start] at hnone
    simpa [hstart] using hnone

/-- The walk down returns the greatest bit below position `w`. -/
theorem isGreatest_of_lastBelow (bs : BitSet N) (w : Nat) {i : Nat}
    (h : bs.lastBelow w = some i) : IsGreatest {j | j / 64 < w ∧ bs.bit j = true} i := by
  induction w with
  | zero => cases h
  | succ w ih =>
      unfold lastBelow at h
      by_cases hmask : bs.word w ≠ 0
      · rw [if_pos hmask] at h
        cases h
        obtain ⟨hset, hgreatest⟩ := isGreatest_clz hmask
        have hhigh : 64 - 1 - (bs.word w).clz.toNat < 64 := by omega
        have hindex : w * 64 + 64 - 1 - (bs.word w).clz.toNat
            = w * 64 + (64 - 1 - (bs.word w).clz.toNat) := by
          have hclz := clz_toNat_lt hmask
          omega
        rw [hindex]
        constructor
        · refine ⟨by omega, ?_⟩
          rw [← bs.getLsbD_word w hhigh]
          exact hset
        · rintro j ⟨hword, hbit⟩
          by_cases hsame : j / 64 = w
          · have hj : j = w * 64 + j % 64 := by omega
            rw [hj, ← bs.getLsbD_word w (by omega)] at hbit
            have hle : j % 64 ≤ 64 - 1 - (bs.word w).clz.toNat := hgreatest hbit
            omega
          · omega
      · rw [if_neg hmask] at h
        obtain ⟨⟨hword, hbit⟩, hgreatest⟩ := ih h
        refine ⟨⟨by omega, hbit⟩, ?_⟩
        rintro j ⟨hjword, hjbit⟩
        apply hgreatest
        refine ⟨?_, hjbit⟩
        by_contra hsame
        have hj : j = w * 64 + j % 64 := by omega
        rw [hj, ← bs.getLsbD_word w (by omega), not_not.1 hmask] at hjbit
        simp at hjbit

/-- Where no word below `w` has a bit, no index below has one. -/
theorem bit_of_lastBelow_eq_none (bs : BitSet N) (w : Nat) (h : bs.lastBelow w = none)
    {i : Nat} (hi : i / 64 < w) : bs.bit i = false := by
  induction w with
  | zero => omega
  | succ w ih =>
      unfold lastBelow at h
      by_cases hmask : bs.word w ≠ 0
      · rw [if_pos hmask] at h
        cases h
      · rw [if_neg hmask] at h
        by_cases hsame : i / 64 = w
        · unfold bit
          rw [hsame, not_not.1 hmask]
          simp
        · exact ih h (by omega)

/-! ## Counting -/

/-- The array is the list of its words in order. -/
theorem toList_words (bs : BitSet N) :
    bs.words.toList = (List.range ((N + 63) / 64)).map bs.word := by
  apply List.ext_getElem
  · simp
  · intro w hleft hright
    have hw : w < (N + 63) / 64 := by simpa using hleft
    simp [word, hw]

/-- The population counts of the first `n` words count the bits below `64 * n`. -/
theorem foldl_cpop (bs : BitSet N) (n : Nat) :
    ((List.range n).map bs.word).foldl (fun total w => total + w.cpop.toNat) 0
      = Nat.count (fun i => bs.bit i = true) (n * 64) := by
  induction n with
  | zero => simp
  | succ n ih =>
      rw [List.range_succ, List.map_append, List.foldl_append, ih, Nat.succ_mul, Nat.count_add]
      simp only [List.map_cons, List.map_nil, List.foldl_cons, List.foldl_nil]
      have hword : Nat.count (fun b => (bs.word n).getLsbD b = true) 64
          = Nat.count (fun b => bs.bit (n * 64 + b) = true) 64 := by
        rw [Nat.count_eq_card_filter_range, Nat.count_eq_card_filter_range]
        congr 1
        apply Finset.filter_congr
        intro b hb
        rw [bs.getLsbD_word n (Finset.mem_range.1 hb)]
      rw [toNat_cpop_eq_count, hword]

/-- `bit_set_count` counts the bits of all words. -/
theorem count_eq (bs : BitSet N) :
    bs.count = Nat.count (fun i => bs.bit i = true) ((N + 63) / 64 * 64) := by
  unfold count
  rw [toList_words, foldl_cpop]

/-! ## The scan -/

/-- The loop `for i, ok := bit_set_next(bs, start); ok; i, ok = bit_set_next(bs, i + 1)`,
as the members it visits. -/
def scanFrom (bs : BitSet N) (start : Nat) : List Nat :=
  match h : bs.next start with
  | none => []
  | some i => i :: bs.scanFrom (i + 1)
termination_by N - start
decreasing_by
  have hnext := bs.isLeast_of_next h
  have hstart : start ≤ i := hnext.1.1.1
  omega

/-- A scan ends where `bit_set_next` finds nothing. -/
theorem scanFrom_of_none (bs : BitSet N) {start : Nat} (h : bs.next start = none) :
    bs.scanFrom start = [] := by
  rw [scanFrom]
  split
  · rfl
  · simp_all

/-- A scan goes on behind the bit that `bit_set_next` found. -/
theorem scanFrom_of_some (bs : BitSet N) {start i : Nat} (h : bs.next start = some i) :
    bs.scanFrom start = i :: bs.scanFrom (i + 1) := by
  rw [scanFrom]
  split
  · simp_all
  · simp_all

/-! ## Refinement -/

/-- The words show a set of indices below `N`: its bits are set and no others. -/
structure Shown (bs : BitSet N) (s : Finset Nat) : Prop where
  bit : ∀ i, bs.bit i = true ↔ i ∈ s
  bounded : ∀ i ∈ s, i < N

namespace Shown

variable {bs : BitSet N} {s : Finset Nat}

/-- The empty bit set shows the empty set. -/
theorem empty : Shown (empty : BitSet N) ∅ where
  bit := by simp
  bounded := by simp

/-- Inserting into the bit set inserts into the set it shows. -/
theorem insert (h : Shown bs s) (index : Fin N) :
    Shown (bs.insert index).1 (Insert.insert (index : Nat) s) where
  bit := by
    intro i
    rw [bit_insert, Finset.mem_insert, ← h.bit i]
    by_cases hi : i = index <;> simp [hi]
  bounded := by
    intro i hi
    rcases Finset.mem_insert.1 hi with rfl | hmem
    · exact index.isLt
    · exact h.bounded i hmem

/-- Removing from the bit set removes from the set it shows. -/
theorem remove (h : Shown bs s) (index : Fin N) :
    Shown (bs.remove index) (s.erase index) where
  bit := by
    intro i
    rw [bit_remove, Finset.mem_erase, ← h.bit i]
    by_cases hi : i = index <;> simp [hi]
  bounded := by
    intro i hi
    exact h.bounded i (Finset.mem_of_mem_erase hi)

/-- `bit_set_insert` tells whether the index is new. -/
theorem insert_new (h : Shown bs s) (index : Fin N) :
    (bs.insert index).2 = true ↔ (index : Nat) ∉ s := by
  rw [← h.bit, ← contains_eq_bit]
  unfold BitSet.insert contains
  dsimp only
  split <;> simp_all

theorem count_eq (h : Shown bs s) : bs.count = s.card := by
  rw [BitSet.count_eq, Nat.count_eq_card_filter_range]
  congr 1
  ext i
  rw [Finset.mem_filter, Finset.mem_range, h.bit]
  constructor
  · rintro ⟨-, hmem⟩
    exact hmem
  · intro hmem
    have hlt := h.bounded i hmem
    exact ⟨by omega, hmem⟩

theorem isLeast_of_next (h : Shown bs s) {start i : Nat} (hnext : bs.next start = some i) :
    IsLeast {j | start ≤ j ∧ j ∈ s} i := by
  have hleast := (bs.isLeast_of_next hnext).1
  simp only [h.bit] at hleast
  exact hleast

/-- Where `bit_set_next` finds nothing, every member lies below `start`. -/
theorem lt_of_next_eq_none (h : Shown bs s) {start : Nat} (hnext : bs.next start = none) :
    ∀ j ∈ s, j < start := by
  intro j hj
  by_contra hle
  have hclear := bs.bit_of_next_eq_none hnext (h.bounded j hj) (not_lt.1 hle)
  rw [← h.bit, hclear] at hj
  cases hj

/-- `bit_set_next` finds the least member from `start` on, and only that one. -/
theorem next_eq_some (h : Shown bs s) (start i : Nat) :
    bs.next start = some i ↔ IsLeast {j | start ≤ j ∧ j ∈ s} i := by
  constructor
  · exact h.isLeast_of_next
  · intro hleast
    rcases hnext : bs.next start with _ | found
    · have hlt := h.lt_of_next_eq_none hnext i hleast.1.2
      have hge : start ≤ i := hleast.1.1
      omega
    · rw [(h.isLeast_of_next hnext).unique hleast]

/-- `bit_set_next` finds nothing where no member is left, and only there. -/
theorem next_eq_none (h : Shown bs s) (start : Nat) :
    bs.next start = none ↔ ∀ j ∈ s, j < start := by
  constructor
  · exact h.lt_of_next_eq_none
  · intro hall
    rcases hnext : bs.next start with _ | found
    · rfl
    · obtain ⟨⟨hge, hmem⟩, -⟩ := h.isLeast_of_next hnext
      have hlt := hall found hmem
      omega

/-- `bit_set_last` finds the greatest member. -/
theorem isGreatest_of_last (h : Shown bs s) {i : Nat} (hlast : bs.last = some i) :
    IsGreatest (s : Set Nat) i := by
  obtain ⟨⟨-, hbit⟩, hgreatest⟩ := bs.isGreatest_of_lastBelow _ hlast
  constructor
  · exact (h.bit i).1 hbit
  · intro j hj
    have hlt := h.bounded j hj
    apply hgreatest
    exact ⟨by omega, (h.bit j).2 hj⟩

/-- `bit_set_last` finds nothing in the empty set only. -/
theorem eq_empty_of_last (h : Shown bs s) (hlast : bs.last = none) : s = ∅ := by
  apply Finset.eq_empty_of_forall_notMem
  intro i hi
  have hlt := h.bounded i hi
  have hclear := bs.bit_of_lastBelow_eq_none _ hlast (i := i) (by omega)
  rw [← h.bit, hclear] at hi
  cases hi

/-- `bit_set_last` finds the greatest member, and only that one. -/
theorem last_eq_some (h : Shown bs s) (i : Nat) :
    bs.last = some i ↔ IsGreatest (s : Set Nat) i := by
  constructor
  · exact h.isGreatest_of_last
  · intro hgreatest
    rcases hlast : bs.last with _ | found
    · have hmem := hgreatest.1
      simp [h.eq_empty_of_last hlast] at hmem
    · rw [(h.isGreatest_of_last hlast).unique hgreatest]

/-- `bit_set_last` finds nothing where there is no member, and only there. -/
theorem last_eq_none (h : Shown bs s) : bs.last = none ↔ s = ∅ := by
  constructor
  · exact h.eq_empty_of_last
  · rintro rfl
    rcases hlast : bs.last with _ | found
    · rfl
    · have hmem := (h.isGreatest_of_last hlast).1
      simp at hmem

/-- A scan meets the members from `start` on. -/
theorem mem_scanFrom (h : Shown bs s) (start i : Nat) :
    i ∈ bs.scanFrom start ↔ start ≤ i ∧ i ∈ s := by
  induction start using scanFrom.induct bs with
  | case1 start hnext =>
      rw [bs.scanFrom_of_none hnext]
      constructor
      · intro hmem
        cases hmem
      · rintro ⟨hstart, hmem⟩
        have hlt := h.lt_of_next_eq_none hnext i hmem
        omega
  | case2 start found hnext ih =>
      obtain ⟨⟨hstart, hfound⟩, hleast⟩ := h.isLeast_of_next hnext
      rw [bs.scanFrom_of_some hnext, List.mem_cons, ih]
      constructor
      · rintro (rfl | ⟨hlater, hmem⟩)
        · exact ⟨hstart, hfound⟩
        · exact ⟨by omega, hmem⟩
      · rintro ⟨hge, hmem⟩
        have hfirst : found ≤ i := hleast ⟨hge, hmem⟩
        rcases hfirst.eq_or_lt with rfl | hlater
        · exact .inl rfl
        · exact .inr ⟨hlater, hmem⟩

/-- A scan meets them in increasing order. -/
theorem pairwise_scanFrom (h : Shown bs s) (start : Nat) :
    (bs.scanFrom start).Pairwise (· < ·) := by
  induction start using scanFrom.induct bs with
  | case1 start hnext =>
      rw [bs.scanFrom_of_none hnext]
      exact .nil
  | case2 start found hnext ih =>
      rw [bs.scanFrom_of_some hnext, List.pairwise_cons]
      refine ⟨?_, ih⟩
      intro i hi
      exact ((h.mem_scanFrom (found + 1) i).1 hi).1

/-- The scan from any index is the scan of the model from that index on: both
increase and have the same members. -/
theorem scanFrom_eq (h : Shown bs s) (start : Nat) :
    bs.scanFrom start = (bitSetScan s N).filter (start ≤ ·) := by
  apply (h.pairwise_scanFrom start).eq_of_mem_iff
  · exact (List.pairwise_lt_range.filter _).filter _
  · intro i
    rw [h.mem_scanFrom, bitSetScan, List.mem_filter, List.mem_filter, List.mem_range]
    simp only [decide_eq_true_eq]
    constructor
    · rintro ⟨hstart, hmem⟩
      exact ⟨⟨h.bounded i hmem, hmem⟩, hstart⟩
    · rintro ⟨⟨-, hmem⟩, hstart⟩
      exact ⟨hstart, hmem⟩

/-- The scan of the words is the scan of the model over the set they show. -/
theorem scan_eq (h : Shown bs s) : bs.scanFrom 0 = bitSetScan s N := by
  rw [h.scanFrom_eq]
  simp

/-- One step of the scan is the step of the model over the set they show. -/
theorem next_eq (h : Shown bs s) (start : Nat) : bs.next start = bitSetNext s N start := by
  unfold bitSetNext
  rw [← List.head?_filter, ← h.scanFrom_eq]
  rcases hnext : bs.next start with _ | i
  · rw [bs.scanFrom_of_none hnext]
    rfl
  · rw [bs.scanFrom_of_some hnext]
    rfl

end Shown

/-- What the set promises its users about the finite set it stands for: every query
answers about that set, and the scan visits it once in increasing order. -/
structure Refines (bs : BitSet N) (s : Finset Nat) : Prop where
  bounded : ∀ i ∈ s, i < N
  insert_new : ∀ index : Fin N, (bs.insert index).2 = true ↔ (index : Nat) ∉ s
  contains : ∀ index : Fin N, bs.contains index = true ↔ (index : Nat) ∈ s
  count : bs.count = s.card
  next_some : ∀ start i, bs.next start = some i ↔ IsLeast {j | start ≤ j ∧ j ∈ s} i
  next_none : ∀ start, bs.next start = none ↔ ∀ j ∈ s, j < start
  last_some : ∀ i, bs.last = some i ↔ IsGreatest (s : Set Nat) i
  last_none : bs.last = none ↔ s = ∅
  scan_increasing : (bs.scanFrom 0).Pairwise (· < ·)
  mem_scan : ∀ i, i ∈ bs.scanFrom 0 ↔ i ∈ s

/-- A bit set that shows a set answers every query as the set would. -/
theorem Shown.refines {bs : BitSet N} {s : Finset Nat} (h : Shown bs s) : Refines bs s where
  bounded := h.bounded
  insert_new := h.insert_new
  contains := by
    intro index
    rw [contains_eq_bit, h.bit]
  count := h.count_eq
  next_some := h.next_eq_some
  next_none := h.next_eq_none
  last_some := h.last_eq_some
  last_none := h.last_eq_none
  scan_increasing := h.pairwise_scanFrom 0
  mem_scan := by
    intro i
    rw [h.mem_scanFrom]
    simp

/-- The edits of a set, all in range. -/
inductive Edit (N : Nat) where
  | insert (index : Fin N)
  | remove (index : Fin N)
  | reset

/-- One edit of the words. -/
def edit (bs : BitSet N) : Edit N → BitSet N
  | .insert index => (bs.insert index).1
  | .remove index => bs.remove index
  | .reset => empty

/-- The same edit of a finite set. -/
def Edit.apply (s : Finset Nat) : Edit N → Finset Nat
  | .insert index => Insert.insert (index : Nat) s
  | .remove index => s.erase index
  | .reset => ∅

/-- An edit of the bit set is the edit of the set it shows. -/
theorem Shown.edit {bs : BitSet N} {s : Finset Nat} (h : Shown bs s) (e : Edit N) :
    Shown (bs.edit e) (e.apply s) := by
  cases e with
  | insert index => exact h.insert index
  | remove index => exact h.remove index
  | reset => exact .empty

/-- So is a run of edits. -/
theorem Shown.run {bs : BitSet N} {s : Finset Nat} (h : Shown bs s) (edits : List (Edit N)) :
    Shown (edits.foldl BitSet.edit bs) (edits.foldl Edit.apply s) := by
  induction edits generalizing bs s with
  | nil => exact h
  | cons e edits ih =>
      apply ih
      exact h.edit e

/-- After any sequence of edits from the zero value, whatever the size, the words
refine the edited finite set. -/
theorem refines_run (edits : List (Edit N)) :
    Refines (edits.foldl edit empty) (edits.foldl Edit.apply ∅) := by
  apply Shown.refines
  apply Shown.run
  exact .empty

end BitSet

end PaxosOdin
