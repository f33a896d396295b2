import Mathlib.Data.List.Perm.Basic
import PaxosOdin.Core.Consensus
import PaxosOdin.Synod.Quorums

/-!
# What a membership promises

`membership_init` admits a list of identities with two quorum sizes exactly when
they name a set of members whose quorums of those sizes always meet.  The order of
the list does not matter, so that all members agree on the position of each
identity and on the owner of each slot.

Main results:

- Theorem `membershipInit_ok_iff`: when a membership is admitted, and which one it is.
- Theorem `membershipInit_perm`: the order of the identities does not matter.
- Theorem `membershipIndexOf_eq_findIdx`: both searches find what a linear search finds.
- Theorem `membership_sound`: all of this, with the owners of the slots.
-/

namespace PaxosOdin

variable {V : Type} {P : Params}

/-! ## Validation -/

/-- The quorum size that an override selects for `count` members. -/
def quorumSize (override : Int) (count : Nat) : Int :=
  quorumOr override ((count : Int) / 2 + 1)

/-- The lists that are admitted: members that are named once and not zero, and quorums whose sizes
fit and which always meet. -/
structure Admissible (P : Params) (nodeIds : List Nat) (read write : Int) : Prop where
  nonempty : nodeIds ≠ []
  fits : nodeIds.length ≤ P.M
  nonzero : ∀ id ∈ nodeIds, id ≠ 0
  distinct : nodeIds.Nodup
  readSize : 1 ≤ quorumSize read nodeIds.length ∧ quorumSize read nodeIds.length ≤ nodeIds.length
  writeSize : 1 ≤ quorumSize write nodeIds.length ∧ quorumSize write nodeIds.length ≤ nodeIds.length
  meet : ∀ q ⊆ nodeIds.toFinset, ∀ r ⊆ nodeIds.toFinset,
    (q.card : Int) = quorumSize read nodeIds.length →
    (r.card : Int) = quorumSize write nodeIds.length → ∃ id ∈ q, id ∈ r

/-- Sorted identities are distinct exactly when no two neighbours are equal. -/
theorem hasAdjacentDuplicate_eq_false_iff {l : List Nat} (hsorted : l.Pairwise (· ≤ ·)) :
    hasAdjacentDuplicate l = false ↔ l.Nodup := by
  constructor
  · intro hnone
    exact (pairwise_lt_of_noAdjacentDuplicate hsorted hnone).imp Nat.ne_of_lt
  · intro hnodup
    induction l with
    | nil => rfl
    | cons a rest ih =>
        cases rest with
        | nil => rfl
        | cons b rest =>
            have hne : a ≠ b := by
              rintro rfl
              simp at hnodup
            simp only [hasAdjacentDuplicate, Bool.or_eq_false_iff, beq_eq_false_iff_ne]
            exact ⟨hne, ih (List.pairwise_cons.1 hsorted).2 (List.nodup_cons.1 hnodup).2⟩

theorem hasAdjacentDuplicate_insertionSort (l : List Nat) :
    hasAdjacentDuplicate (l.insertionSort (· ≤ ·)) = false ↔ l.Nodup := by
  rw [hasAdjacentDuplicate_eq_false_iff (List.pairwise_insertionSort _ _)]
  exact (List.perm_insertionSort _ l).nodup_iff

/-- Quorums of sizes that fit meet exactly when they add up to more than all members. -/
theorem forall_quorums_meet_iff {members : List Nat} (hdistinct : members.Nodup) {read write : Int}
    (hread : 1 ≤ read ∧ read ≤ members.length) (hwrite : 1 ≤ write ∧ write ≤ members.length) :
    (∀ q ⊆ members.toFinset, ∀ r ⊆ members.toFinset,
      (q.card : Int) = read → (r.card : Int) = write → ∃ id ∈ q, id ∈ r) ↔
      (members.length : Int) < read + write := by
  have hcard : members.toFinset.card = members.length := List.toFinset_card_of_nodup hdistinct
  obtain ⟨readSize, rfl⟩ := Int.eq_ofNat_of_zero_le (by omega : 0 ≤ read)
  obtain ⟨writeSize, rfl⟩ := Int.eq_ofNat_of_zero_le (by omega : 0 ≤ write)
  have hmeet := @Synod.forall_meet_iff_card_lt _ _ members.toFinset readSize writeSize (by omega)
  simp only [Nat.cast_inj]
  rw [hmeet, hcard]
  omega

/-- The checks of `membership_init`, in their order. -/
theorem admissible_iff {nodeIds : List Nat} {read write : Int} :
    Admissible P nodeIds read write ↔
      nodeIds.length ≠ 0 ∧ nodeIds.length ≤ P.M ∧ 0 ∉ nodeIds ∧
      hasAdjacentDuplicate (nodeIds.insertionSort (· ≤ ·)) = false ∧
      (1 ≤ quorumSize read nodeIds.length ∧ quorumSize read nodeIds.length ≤ nodeIds.length) ∧
      (1 ≤ quorumSize write nodeIds.length ∧ quorumSize write nodeIds.length ≤ nodeIds.length) ∧
      (nodeIds.length : Int) < quorumSize read nodeIds.length + quorumSize write nodeIds.length := by
  rw [hasAdjacentDuplicate_insertionSort]
  constructor
  · intro h
    refine ⟨?_, h.fits, ?_, h.distinct, h.readSize, h.writeSize, ?_⟩
    · simpa using h.nonempty
    · intro hzero
      exact h.nonzero 0 hzero rfl
    · exact (forall_quorums_meet_iff h.distinct h.readSize h.writeSize).1 h.meet
  · rintro ⟨hnonempty, hfits, hzero, hdistinct, hread, hwrite, hsum⟩
    constructor
    · simpa using hnonempty
    · exact hfits
    · rintro id hid rfl
      exact hzero hid
    · exact hdistinct
    · exact hread
    · exact hwrite
    · exact (forall_quorums_meet_iff hdistinct hread hwrite).2 hsum

theorem membershipInit_ok_iff {nodeIds : List Nat} {read write : Int} {m : Membership} :
    membershipInit P nodeIds read write = .ok m ↔
      Admissible P nodeIds read write ∧
        m = ⟨nodeIds.insertionSort (· ≤ ·), (quorumSize read nodeIds.length).toNat,
          (quorumSize write nodeIds.length).toNat⟩ := by
  rw [admissible_iff]
  unfold membershipInit quorumSize
  dsimp only
  generalize quorumOr read ((nodeIds.length : Int) / 2 + 1) = readSize
  generalize quorumOr write ((nodeIds.length : Int) / 2 + 1) = writeSize
  constructor
  · intro h
    split_ifs at h with hempty hfits hzero hduplicate hread hwrite hsum
    cases h
    refine ⟨⟨hempty, by omega, hzero, by simpa using hduplicate, by omega, by omega, by omega⟩, rfl⟩
  · rintro ⟨⟨hempty, hfits, hzero, hduplicate, hread, hwrite, hsum⟩, rfl⟩
    rw [if_neg hempty, if_neg (by omega), if_neg hzero, if_neg (by simp [hduplicate]),
      if_neg (by omega), if_neg (by omega), if_neg (by omega)]

/-- The order in which the identities are listed does not matter. -/
theorem membershipInit_perm {nodeIds nodeIds' : List Nat} (h : nodeIds'.Perm nodeIds)
    (read write : Int) :
    membershipInit P nodeIds' read write = membershipInit P nodeIds read write := by
  have hsorted : nodeIds'.insertionSort (· ≤ ·) = nodeIds.insertionSort (· ≤ ·) := by
    apply List.Perm.eq_of_pairwise' (List.pairwise_insertionSort _ _)
      (List.pairwise_insertionSort _ _)
    exact (List.perm_insertionSort _ _).trans (h.trans (List.perm_insertionSort _ _).symm)
  unfold membershipInit
  simp only [h.length_eq, h.mem_iff, hsorted]

/-- The procedure on the caller's membership, which it replaces only when it succeeds. -/
def membershipInstall (P : Params) (m : Membership) (nodeIds : List Nat) (read write : Int) :
    Membership × Error :=
  match membershipInit P nodeIds read write with
  | .ok validated => (validated, .none)
  | .error e => (m, e)

/-- What it returns when it fails is an error. -/
theorem membershipInit_error {nodeIds : List Nat} {read write : Int} {e : Error}
    (h : membershipInit P nodeIds read write = .error e) : e ≠ .none := by
  unfold membershipInit at h
  dsimp only at h
  split_ifs at h <;> cases h <;> decide

/-! ## Lookup -/

/-- On sorted identities both searches return the position that a linear search finds. -/
theorem membershipIndexOf_eq_findIdx {m : Membership} (hsorted : m.members.Pairwise (· < ·))
    (id : Nat) : membershipIndexOf m id = m.members.findIdx? (· == id) := by
  ext i
  rw [membershipIndexOf_eq_some_of_sorted hsorted, findIdx_eq_some hsorted]

/-! ## Owners -/

/-- Exactly one member owns a slot: the one whose position is the slot's place in the rotation. -/
theorem ownerOf_unique {n : Node V} (hsorted : n.membership.members.Pairwise (· < ·))
    (hnonempty : n.membership.members ≠ []) (slot : Nat) :
    ∃! i, i < n.membership.members.length ∧ membershipGet n.membership i = ownerOf n slot := by
  have hpos : 0 < n.membership.members.length := List.length_pos_iff.2 hnonempty
  exists slotSub slot 1 % n.membership.members.length
  constructor
  · exact ⟨Nat.mod_lt _ hpos, rfl⟩
  · rintro i ⟨hi, hget⟩
    have hmod := Nat.mod_lt (slotSub slot 1) hpos
    have hnodup : n.membership.members.Nodup := hsorted.imp Nat.ne_of_lt
    unfold ownerOf membershipGet at hget
    rw [List.getD_eq_getElem?_getD, List.getD_eq_getElem?_getD, List.getElem?_eq_getElem hi,
      List.getElem?_eq_getElem hmod] at hget
    exact (hnodup.getElem_inj_iff).1 hget

/-- What a host may rely on when it lists the members: `membership_init` admits exactly the sound
memberships and leaves the caller's own alone when it fails; every order of the same identities gives
the same membership, so that all members agree on the one owner of each slot; and a lookup returns the
position that a linear search finds. -/
theorem membership_sound (P : Params) (nodeIds : List Nat) (read write : Int) :
    (∀ m, (membershipInstall P m nodeIds read write).2 = .none ↔
        Admissible P nodeIds read write) ∧
      (∀ m, (membershipInstall P m nodeIds read write).2 ≠ .none →
        (membershipInstall P m nodeIds read write).1 = m) ∧
      (∀ nodeIds', nodeIds'.Perm nodeIds →
        membershipInit P nodeIds' read write = membershipInit P nodeIds read write) ∧
      ∀ m, membershipInit P nodeIds read write = .ok m →
        (m.members.Perm nodeIds ∧ (m.readQuorumSize : Int) = quorumSize read nodeIds.length ∧
          (m.writeQuorumSize : Int) = quorumSize write nodeIds.length) ∧
        (∀ id, membershipIndexOf m id = m.members.findIdx? (· == id)) ∧
        ∀ (n n' : Node V), n.membership = m → n'.membership = m → ∀ slot,
          ownerOf n slot = ownerOf n' slot ∧
            ∃! i, i < m.members.length ∧ membershipGet m i = ownerOf n slot := by
  refine ⟨?_, ?_, ?_, ?_⟩
  · intro m
    unfold membershipInstall
    constructor
    · intro hnone
      cases hinit : membershipInit P nodeIds read write with
      | ok validated => exact (membershipInit_ok_iff.1 hinit).1
      | error e =>
          rw [hinit] at hnone
          exact absurd hnone (membershipInit_error hinit)
    · intro hadmissible
      rw [membershipInit_ok_iff.2 ⟨hadmissible, rfl⟩]
  · intro m hfailed
    unfold membershipInstall at hfailed ⊢
    cases hinit : membershipInit P nodeIds read write with
    | ok validated =>
        rw [hinit] at hfailed
        exact absurd rfl hfailed
    | error e => rfl
  · intro nodeIds' hperm
    exact membershipInit_perm hperm read write
  · intro m hm
    obtain ⟨hadmissible, rfl⟩ := membershipInit_ok_iff.1 hm
    have hperm := List.perm_insertionSort (· ≤ ·) nodeIds
    have hsorted : (nodeIds.insertionSort (· ≤ ·)).Pairwise (· < ·) := by
      apply pairwise_lt_of_noAdjacentDuplicate (List.pairwise_insertionSort _ _)
      exact (hasAdjacentDuplicate_insertionSort nodeIds).2 hadmissible.distinct
    refine ⟨⟨hperm, ?_, ?_⟩, membershipIndexOf_eq_findIdx hsorted, ?_⟩
    · have hpos := hadmissible.readSize.1
      dsimp only
      omega
    · have hpos := hadmissible.writeSize.1
      dsimp only
      omega
    · intro n n' hn hn' slot
      constructor
      · unfold ownerOf
        rw [hn, hn']
      · have hunique := ownerOf_unique (n := n) (by rw [hn]; exact hsorted) (by
          rw [hn]
          intro hnil
          apply hadmissible.nonempty
          rw [← List.length_eq_zero_iff, ← hperm.length_eq]
          exact List.length_eq_zero_iff.2 hnil) slot
        rw [hn] at hunique
        exact hunique

end PaxosOdin
