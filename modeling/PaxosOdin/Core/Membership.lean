import Mathlib.Data.List.Sort
import PaxosOdin.Core.Messages

/-!
# Membership

The voting membership of one configuration with its quorum sizes.

Main results:

- Theorem `membershipInit_valid`: a membership that `membership_init` admits is
  sorted, free of duplicates and has intersecting quorums.
- Theorem `membershipIndexOf_eq_some`: on a valid membership both lookups, the
  linear one and the binary search, return the position of an identity.
-/

namespace PaxosOdin

/-- The members in increasing order of identity, with the quorum sizes. -/
structure Membership where
  members : List Nat
  readQuorumSize : Nat
  writeQuorumSize : Nat
deriving DecidableEq, Repr

/-- Memberships up to this size use a linear scan. -/
def linearLookupLimit : Nat := 8

/-- Adjacent equal entries of the sorted identities. -/
def hasAdjacentDuplicate : List Nat → Bool
  | a :: b :: rest => a == b || hasAdjacentDuplicate (b :: rest)
  | _ => false

/-- A quorum override, or the majority when it is zero. -/
def quorumOr (override majority : Int) : Int :=
  if override ≠ 0 then override else majority

/-- Validates a membership.  Zero overrides select majorities. -/
def membershipInit (P : Params) (nodeIds : List Nat) (readQuorumOverride writeQuorumOverride : Int) :
    Except Error Membership :=
  if nodeIds.length = 0 then .error .emptyMembership
  else if nodeIds.length > P.M then .error .tooManyMembers
  else if 0 ∈ nodeIds then .error .invalidNodeId
  else
    let sorted := nodeIds.insertionSort (· ≤ ·)
    let total : Int := nodeIds.length
    let read := quorumOr readQuorumOverride (total / 2 + 1)
    let write := quorumOr writeQuorumOverride (total / 2 + 1)
    if hasAdjacentDuplicate sorted then .error .duplicateNodeId
    else if read ≤ 0 ∨ read > total then .error .invalidReadQuorum
    else if write ≤ 0 ∨ write > total then .error .invalidWriteQuorum
    else if read + write ≤ total then .error .nonIntersectingQuorums
    else .ok ⟨sorted, read.toNat, write.toNat⟩

/-- The search of `membership_index_of` above `linearLookupLimit` members; `fuel`
bounds the halvings of `[low, high)`. -/
def binaryLookup (members : List Nat) (id : Nat) : Nat → Nat → Nat → Option Nat
  | 0, _, _ => none
  | fuel + 1, low, high =>
      if low < high then
        let mid := (low + high) / 2
        if members.getD mid 0 = id then some mid
        else if members.getD mid 0 < id then binaryLookup members id fuel (mid + 1) high
        else binaryLookup members id fuel low mid
      else none

/-- The stable index of `id`, if it is a member. -/
def membershipIndexOf (m : Membership) (id : Nat) : Option Nat :=
  if m.members.length ≤ linearLookupLimit then m.members.findIdx? (· == id)
  else binaryLookup m.members id m.members.length 0 m.members.length

/-- Whether `id` is a member. -/
def membershipContains (m : Membership) (id : Nat) : Bool :=
  (membershipIndexOf m id).isSome

/-- The member at a stable index. -/
def membershipGet (m : Membership) (index : Nat) : Nat :=
  m.members.getD index 0

/-- What `membership_init` establishes: identities that are non-zero 16-bit words
in strictly increasing order, and quorums that intersect. -/
structure Membership.Valid (m : Membership) : Prop where
  sorted : m.members.Pairwise (· < ·)
  nonempty : m.members ≠ []
  ids_pos : ∀ id ∈ m.members, 0 < id
  ids_lt : ∀ id ∈ m.members, id < 2 ^ 16
  read_pos : 0 < m.readQuorumSize
  write_pos : 0 < m.writeQuorumSize
  intersect : m.members.length < m.readQuorumSize + m.writeQuorumSize

/-! ## Validation -/

/-- A sorted list without adjacent duplicates is strictly increasing. -/
theorem pairwise_lt_of_noAdjacentDuplicate {l : List Nat} (hsorted : l.Pairwise (· ≤ ·))
    (hnodup : hasAdjacentDuplicate l = false) : l.Pairwise (· < ·) := by
  induction l with
  | nil => exact List.Pairwise.nil
  | cons a rest ih =>
      rw [List.pairwise_cons] at hsorted
      cases rest with
      | nil => exact List.pairwise_singleton _ _
      | cons b rest =>
          simp only [hasAdjacentDuplicate, Bool.or_eq_false_iff, beq_eq_false_iff_ne] at hnodup
          have htail := ih hsorted.2 hnodup.2
          have hab : a < b := by
            have := hsorted.1 b (by simp)
            omega
          refine List.pairwise_cons.mpr ⟨fun x hx => ?_, htail⟩
          rcases List.mem_cons.mp hx with rfl | hx
          · exact hab
          · exact hab.trans ((List.pairwise_cons.mp htail).1 x hx)

/-- A membership that `membership_init` admits is valid. -/
theorem membershipInit_valid {P : Params} {nodeIds : List Nat} {read write : Int} {m : Membership}
    (h16 : ∀ id ∈ nodeIds, id < 2 ^ 16) (h : membershipInit P nodeIds read write = .ok m) :
    m.Valid := by
  unfold membershipInit at h
  simp only at h
  split_ifs at h with hempty _ hzero hdup hr hw hrw
  have hmem : ∀ id, id ∈ nodeIds.insertionSort (· ≤ ·) ↔ id ∈ nodeIds :=
    fun id => (List.perm_insertionSort _ nodeIds).mem_iff
  have hlen : (nodeIds.insertionSort (· ≤ ·)).length = nodeIds.length :=
    List.length_insertionSort _ _
  cases h
  exact
    { sorted := pairwise_lt_of_noAdjacentDuplicate (List.pairwise_insertionSort _ _)
        (by simpa using hdup)
      nonempty := fun hnil => hempty (by rw [← hlen]; exact congrArg List.length hnil)
      ids_pos := fun id hid => Nat.pos_of_ne_zero fun hid0 => hzero (hid0 ▸ (hmem id).mp hid)
      ids_lt := fun id hid => h16 id ((hmem id).mp hid)
      read_pos := by dsimp only; omega
      write_pos := by dsimp only; omega
      intersect := by dsimp only; omega }

/-! ## Lookup -/

/-- Members at distinct positions are distinct. -/
theorem Membership.Valid.nodup {m : Membership} (hm : m.Valid) : m.members.Nodup :=
  hm.sorted.imp (fun h => Nat.ne_of_lt h)

/-- A position that the binary search returns holds the identity. -/
theorem binaryLookup_sound {members : List Nat} {id i : Nat} :
    ∀ {fuel low high : Nat}, high ≤ members.length →
      binaryLookup members id fuel low high = some i → members[i]? = some id := by
  intro fuel
  induction fuel with
  | zero => intro low high _ h; cases h
  | succ fuel ih =>
      intro low high hhigh h
      simp only [binaryLookup] at h
      split_ifs at h with hlt heq hless
      · cases h
        have hmid : (low + high) / 2 < members.length := by omega
        rw [List.getElem?_eq_getElem hmid, ← heq]
        simp [List.getD_eq_getElem?_getD, List.getElem?_eq_getElem hmid]
      · exact ih hhigh h
      · exact ih (by omega) h

/-- The binary search finds an identity that lies in its range. -/
theorem binaryLookup_complete {members : List Nat} {id i : Nat}
    (hsorted : members.Pairwise (· < ·)) (hi : members[i]? = some id) :
    ∀ {fuel low high : Nat}, high - low ≤ fuel → low ≤ i → i < high →
      high ≤ members.length → binaryLookup members id fuel low high = some i := by
  have hilt : i < members.length := by
    by_contra hge
    rw [List.getElem?_eq_none (by omega)] at hi
    cases hi
  have hival : members[i] = id := by
    rw [List.getElem?_eq_getElem hilt] at hi
    exact Option.some.inj hi
  intro fuel
  induction fuel with
  | zero => intro low high hf hlo hhi _; omega
  | succ fuel ih =>
      intro low high hf hlo hhi hlen
      have hmid : (low + high) / 2 < members.length := by omega
      have hget : members.getD ((low + high) / 2) 0 = members[(low + high) / 2] := by
        simp [List.getD_eq_getElem?_getD, List.getElem?_eq_getElem hmid]
      simp only [binaryLookup, if_pos (show low < high by omega), hget]
      have hord := List.pairwise_iff_getElem.mp hsorted
      rcases Nat.lt_trichotomy ((low + high) / 2) i with hlt | heq | hgt
      · have := hord _ _ hmid hilt hlt
        rw [if_neg (by omega), if_pos (by omega)]
        exact ih (by omega) (by omega) hhi hlen
      · subst heq
        rw [if_pos hival]
      · have := hord _ _ hilt hmid hgt
        rw [if_neg (by omega), if_neg (by omega)]
        exact ih (by omega) hlo hgt (by omega)

/-- On sorted identities a linear search returns the position of an identity. -/
theorem findIdx_eq_some {members : List Nat} (hsorted : members.Pairwise (· < ·)) {id i : Nat} :
    members.findIdx? (· == id) = some i ↔ members[i]? = some id := by
  rw [List.findIdx?_eq_some_iff_getElem]
  constructor
  · rintro ⟨hi, heq, _⟩
    rw [List.getElem?_eq_getElem hi]
    simpa using heq
  · intro hi
    have hilt : i < members.length := by
      by_contra hge
      rw [List.getElem?_eq_none (by omega)] at hi
      cases hi
    rw [List.getElem?_eq_getElem hilt] at hi
    have hival := Option.some.inj hi
    refine ⟨hilt, by simpa using hival, fun j hj => ?_⟩
    have := List.pairwise_iff_getElem.mp hsorted j i (by omega) hilt hj
    have hne : members[j] ≠ id := by omega
    simpa using hne

/-- On sorted identities either lookup returns the position of an identity. -/
theorem membershipIndexOf_eq_some_of_sorted {m : Membership} (hsorted : m.members.Pairwise (· < ·))
    {id i : Nat} : membershipIndexOf m id = some i ↔ m.members[i]? = some id := by
  unfold membershipIndexOf
  split_ifs with hlen
  · exact findIdx_eq_some hsorted
  · constructor
    · exact binaryLookup_sound le_rfl
    · intro hi
      refine binaryLookup_complete hsorted hi (by omega) (Nat.zero_le _) ?_ le_rfl
      by_contra hge
      rw [List.getElem?_eq_none (by omega)] at hi
      cases hi

/-- On a valid membership a lookup returns the position of an identity. -/
theorem membershipIndexOf_eq_some {m : Membership} (hm : m.Valid) {id i : Nat} :
    membershipIndexOf m id = some i ↔ m.members[i]? = some id :=
  membershipIndexOf_eq_some_of_sorted hm.sorted

/-- A lookup succeeds exactly on the members. -/
theorem membershipContains_iff {m : Membership} (hm : m.Valid) {id : Nat} :
    membershipContains m id = true ↔ id ∈ m.members := by
  unfold membershipContains
  rw [Option.isSome_iff_exists, List.mem_iff_getElem?]
  exact exists_congr fun i => membershipIndexOf_eq_some hm

end PaxosOdin
