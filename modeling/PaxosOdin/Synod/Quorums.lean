import Mathlib.Data.Finset.Card
import Mathlib.Data.List.Induction
import Mathlib.Tactic.Ring

/-!
# Quorums that are counted

Read and write quorums are sets of acceptors of two given sizes.  That any two of them meet is a
matter of counting.

Main results:

- Theorem `forall_meet_iff_card_lt`: two sizes make meeting quorums if and only if they add up to
  more than all members.
-/

namespace Synod

variable {α : Type*}

/-- Any two sets of `members` large enough to add up to more than all of them meet. -/
theorem exists_mem_of_card {members q r : Finset α} [DecidableEq α] (hq : q ⊆ members)
    (hr : r ⊆ members) (hcard : members.card < q.card + r.card) : ∃ a ∈ q, a ∈ r := by
  have hunion : (q ∪ r).card ≤ members.card := Finset.card_le_card (Finset.union_subset hq hr)
  have hsum := Finset.card_union_add_card_inter q r
  have hpos : 0 < (q ∩ r).card := by omega
  obtain ⟨a, ha⟩ := Finset.card_pos.mp hpos
  exact ⟨a, (Finset.mem_inter.mp ha).1, (Finset.mem_inter.mp ha).2⟩

/-- The sets of two sizes always meet exactly when the sizes add up to more than all members. -/
theorem forall_meet_iff_card_lt [DecidableEq α] {members : Finset α} {read write : Nat}
    (hread : read ≤ members.card) :
    (∀ q ⊆ members, ∀ r ⊆ members, q.card = read → r.card = write → ∃ a ∈ q, a ∈ r) ↔
      members.card < read + write := by
  constructor
  · intro hmeet
    by_contra hsmall
    rw [not_lt] at hsmall
    obtain ⟨q, hq, hqcard⟩ := Finset.exists_subset_card_eq hread
    have hrest : write ≤ (members \ q).card := by
      rw [Finset.card_sdiff_of_subset hq]
      omega
    obtain ⟨r, hr, hrcard⟩ := Finset.exists_subset_card_eq hrest
    obtain ⟨a, haq, har⟩ := hmeet q hq r (hr.trans Finset.sdiff_subset) hqcard hrcard
    exact (Finset.mem_sdiff.1 (hr har)).2 haq
  · intro hlarge q hq r hr hqcard hrcard
    exact exists_mem_of_card hq hr (by omega)

end Synod
