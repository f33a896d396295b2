import Mathlib.Data.List.Sort

/-!
# Round robin over a sorted list

A scan that starts at a position, visits the members of a sorted list from there on,
wraps around once, and stops where it began.  A caller that handles at most `quota`
members a turn and goes on where it stopped handles all of them in as many turns as
the quota goes into their number.

Main results:

- Theorem `ring_succ`: going past a member moves it to the end of the ring.
- Theorem `remaining_eq_cons`: the next member of a round.
- Theorem `exists_turn_mem`: every member has its turn.
-/

namespace RoundRobin

/-! ## The ring -/

/-- The members of `l` in the order a full round from `start` meets them. -/
def ring (l : List Nat) (start : Nat) : List Nat :=
  l.filter (start ≤ ·) ++ l.filter (· < start)

/-- The members that a round begun at `start` has still to visit from `cursor` on. -/
def remaining (l : List Nat) (start cursor : Nat) (wrapped : Bool) : List Nat :=
  if wrapped then l.filter fun c => cursor ≤ c ∧ c < start
  else l.filter (cursor ≤ ·) ++ l.filter (· < start)

section Ring

variable {l : List Nat} {start cursor c : Nat}

/-- Before the first step the whole ring is left. -/
theorem remaining_start : remaining l start start false = ring l start :=
  rfl

/-- Only members of the list are left. -/
theorem mem_of_mem_remaining {wrapped : Bool} (h : c ∈ remaining l start cursor wrapped) :
    c ∈ l := by
  cases wrapped with
  | true => exact (List.mem_filter.mp h).1
  | false =>
      rcases List.mem_append.mp h with h | h
      · exact (List.mem_filter.mp h).1
      · exact (List.mem_filter.mp h).1

/-- The part from `start` on. -/
theorem filter_ge_append {a b : List Nat} (ha : ∀ x ∈ a, x < start) (hb : ∀ x ∈ b, start ≤ x) :
    (a ++ b).filter (start ≤ ·) = b := by
  rw [List.filter_append, List.filter_eq_nil_iff.mpr, List.filter_eq_self.mpr, List.nil_append]
  · simpa using hb
  · simpa using ha

/-- The part below `start`. -/
theorem filter_lt_append {a b : List Nat} (ha : ∀ x ∈ a, x < start) (hb : ∀ x ∈ b, start ≤ x) :
    (a ++ b).filter (· < start) = a := by
  rw [List.filter_append, List.filter_eq_self.mpr, List.filter_eq_nil_iff.mpr, List.append_nil]
  · simpa using hb
  · simpa using ha

/-- Any cut of the list at `start` shows the ring. -/
theorem ring_append {a b : List Nat} (ha : ∀ x ∈ a, x < start) (hb : ∀ x ∈ b, start ≤ x) :
    ring (a ++ b) start = b ++ a := by
  rw [ring, filter_ge_append ha hb, filter_lt_append ha hb]

/-- A sorted list is cut at every position. -/
theorem exists_cut (hl : l.Pairwise (· < ·)) (start : Nat) :
    ∃ a b, l = a ++ b ∧ (∀ x ∈ a, x < start) ∧ ∀ x ∈ b, start ≤ x := by
  induction l with
  | nil => exact ⟨[], [], by simp⟩
  | cons x l ih =>
      rw [List.pairwise_cons] at hl
      by_cases hx : x < start
      · obtain ⟨a, b, rfl, ha, hb⟩ := ih hl.2
        exact ⟨x :: a, b, rfl, by simpa [hx] using ha, hb⟩
      · refine ⟨[], x :: l, rfl, by simp, ?_⟩
        intro y hy
        rcases List.mem_cons.mp hy with rfl | hy
        · omega
        · have := hl.1 y hy
          omega

/-- A ring is the list in another order. -/
theorem ring_perm (l : List Nat) (start : Nat) : (ring l start).Perm l := by
  have h := List.filter_append_perm (fun c => decide (start ≤ c)) l
  simpa [ring, ← decide_not] using h

/-- The ring has the members of the list. -/
theorem mem_ring : c ∈ ring l start ↔ c ∈ l :=
  (ring_perm l start).mem_iff

/-- Below every member the ring is the list. -/
theorem ring_of_le (h : ∀ x ∈ l, start ≤ x) : ring l start = l := by
  simpa using ring_append (a := []) (by simp) h

/-- Above every member the ring is the list. -/
theorem ring_of_lt (h : ∀ x ∈ l, x < start) : ring l start = l := by
  simpa using ring_append (b := []) h (by simp)

/-- Going past a member moves it to the end of the ring. -/
theorem ring_succ (hl : l.Pairwise (· < ·)) {u : List Nat} (h : ring l start = c :: u) :
    ring l (c + 1) = u ++ [c] := by
  obtain ⟨a, b, rfl, ha, hb⟩ := exists_cut hl start
  rw [ring_append ha hb] at h
  obtain ⟨hsa, hsb, hab⟩ := List.pairwise_append.mp hl
  cases b with
  | nil =>
      -- nothing from `start` on: the round has wrapped to the first member
      simp only [List.nil_append] at h
      subst h
      rw [List.pairwise_cons] at hsa
      rw [List.append_nil]
      exact ring_append (a := [c]) (b := u) (by simp) fun x hx => hsa.1 x hx
  | cons d b =>
      obtain ⟨rfl, rfl⟩ := List.cons.inj h
      rw [List.pairwise_cons] at hsb
      have hcut : ring ((a ++ [d]) ++ b) (d + 1) = b ++ (a ++ [d]) := by
        apply ring_append
        · intro x hx
          rcases List.mem_append.mp hx with hx | hx
          · have := ha x hx
            have := hb d (by simp)
            omega
          · simp only [List.mem_singleton] at hx
            omega
        · intro x hx
          exact hsb.1 x hx
      simpa using hcut

/-! ## A round -/

/-- The first member at or after `cursor` is the next one of the round, as long as the round
has not come back to its start. -/
theorem remaining_eq_cons {wrapped : Bool} (hl : l.Pairwise (· < ·))
    (h : l.find? (cursor ≤ ·) = some c) (hstop : wrapped = true → c < start) :
    remaining l start cursor wrapped = c :: remaining l start (c + 1) wrapped := by
  obtain ⟨a, b, rfl, ha, hb⟩ := exists_cut hl cursor
  obtain ⟨-, hsb, hab⟩ := List.pairwise_append.mp hl
  have hskip : a.find? (cursor ≤ ·) = none := by
    simpa using ha
  rw [List.find?_append, hskip, Option.none_or] at h
  cases b with
  | nil => cases h
  | cons d b =>
      rw [List.find?_cons_of_pos (by simpa using hb d (by simp))] at h
      cases h
      rw [List.pairwise_cons] at hsb
      have hc : ∀ x ∈ a ++ [c], x < c + 1 := by
        intro x hx
        rcases List.mem_append.mp hx with hx | hx
        · have := hab x hx c (by simp)
          omega
        · simp only [List.mem_singleton] at hx
          omega
      have hge : (a ++ c :: b).filter (c + 1 ≤ ·) = b := by
        have := filter_ge_append hc fun x hx => Nat.succ_le_of_lt (hsb.1 x hx)
        simpa using this
      cases wrapped with
      | false =>
          simp only [remaining, Bool.false_eq_true, if_false]
          rw [hge, filter_ge_append ha hb, List.cons_append]
      | true =>
          have hstart : c < start := hstop rfl
          have hsplit : ∀ k, (a ++ c :: b).filter (fun c => decide (k ≤ c ∧ c < start)) =
              ((a ++ c :: b).filter (k ≤ ·)).filter (· < start) := by
            intro k
            simp [List.filter_filter, Bool.and_comm]
          simp only [remaining, if_true]
          rw [hsplit, hsplit, hge, filter_ge_append ha hb, List.filter_cons_of_pos (by simpa)]

/-- Where nothing is left at or after `cursor`, a round goes on from the beginning. -/
theorem remaining_wrap (h : l.find? (cursor ≤ ·) = none) :
    remaining l start cursor false = remaining l start 0 true := by
  have hnone : l.filter (cursor ≤ ·) = [] := by
    simpa [List.filter_eq_nil_iff] using h
  simp [remaining, hnone]

/-- After the wrap a round ends where nothing is left at or after `cursor`. -/
theorem remaining_end (h : l.find? (cursor ≤ ·) = none) : remaining l start cursor true = [] := by
  simp only [List.find?_eq_none, decide_eq_true_eq] at h
  simp only [remaining, if_true, List.filter_eq_nil_iff, decide_eq_true_eq, not_and]
  intro x hx hle
  exact absurd hle (h x hx)

/-- After the wrap a round ends when it is back at its start. -/
theorem remaining_back (hl : l.Pairwise (· < ·)) (h : l.find? (cursor ≤ ·) = some c)
    (hback : start ≤ c) : remaining l start cursor true = [] := by
  simp only [remaining, if_true, List.filter_eq_nil_iff, decide_eq_true_eq, not_and, not_lt]
  intro x hx hle
  obtain ⟨-, a, b, rfl, ha⟩ := List.find?_eq_some_iff_append.mp h
  rcases List.mem_append.mp hx with hx | hx
  · have := ha x hx
    simp only [Bool.not_eq_eq_eq_not, Bool.not_true, decide_eq_false_iff_not] at this
    exact absurd hle this
  · rcases List.mem_cons.mp hx with rfl | hx
    · exact hback
    · have := (List.pairwise_cons.mp (List.pairwise_append.mp hl).2.1).1 x hx
      omega

end Ring

/-! ## Turns -/

section Turns

variable {α : Type*} {l : List α} {quota : Nat} {x : α}

/-- What is waiting after a turn: the members handled go to the end. -/
def turn (quota : Nat) (l : List α) : List α :=
  l.drop quota ++ l.take quota

/-- While the quota has not gone around once, the turns walk down the list. -/
theorem iterate_turn {j : Nat} (h : j * quota ≤ l.length) :
    (turn quota)^[j] l = l.drop (j * quota) ++ l.take (j * quota) := by
  induction j with
  | zero => simp
  | succ j ih =>
      rw [Nat.succ_mul] at h ⊢
      have hroom : quota ≤ (l.drop (j * quota)).length := by
        rw [List.length_drop]
        omega
      rw [Function.iterate_succ_apply', ih (by omega), turn,
        List.drop_append_of_le_length hroom, List.take_append_of_le_length hroom,
        List.drop_drop, List.append_assoc, List.take_add]

/-- Every member is handled in one of the first `turns` turns, if the quota goes that often
into their number. -/
theorem exists_turn_mem (hx : x ∈ l) {turns : Nat} (hquota : 0 < quota)
    (hturns : l.length ≤ turns * quota) : ∃ j < turns, x ∈ ((turn quota)^[j] l).take quota := by
  obtain ⟨i, hi, rfl⟩ := List.mem_iff_getElem.mp hx
  have hdiv : i / quota * quota ≤ i := Nat.div_mul_le_self i quota
  have hmod : i - i / quota * quota < quota := by
    have := Nat.mod_lt i hquota
    have := Nat.div_add_mod' i quota
    omega
  have hturn : i / quota < turns := (Nat.div_lt_iff_lt_mul hquota).mpr (by omega)
  refine ⟨i / quota, hturn, ?_⟩
  rw [iterate_turn (by omega), List.mem_take_iff_getElem]
  refine ⟨i - i / quota * quota, ?_, ?_⟩
  · simp only [List.length_append, List.length_drop, List.length_take]
    omega
  · rw [List.getElem_append_left (by rw [List.length_drop]; omega), List.getElem_drop]
    congr 1
    omega

end Turns

end RoundRobin
