import Mathlib.Data.Finset.Card
import Mathlib.Tactic.Ring

/-!
# Append-only files of frames

A file that is written one frame after another and cut at an arbitrary byte by a crash, any
number of times.  Beside the file stands a register of the frames ever written to it: where
each of them ends, and whether it is still in the file and a sync has come after it.  Nothing
here depends on how a frame is encoded.

Main results:

- Theorem `Positioned.take`: a cut leaves the frames that stand after it, and a torn one.
- Theorem `Retains.standing`: what stands is everything written, less frames no sync covered.
-/

namespace Framing

variable {α β : Type*}

/-! ## Frames -/

section Frames

variable (encode : α → List β)

/-- The bytes of a sequence of frames. -/
def framed (xs : List α) : List β :=
  xs.flatMap encode

/-- No values take no bytes. -/
@[simp]
theorem framed_nil : framed encode [] = [] :=
  rfl

/-- The frame of a value comes before the frames of the values after it. -/
@[simp]
theorem framed_cons (x : α) (xs : List α) : framed encode (x :: xs) = encode x ++ framed encode xs :=
  rfl

/-- Frames are laid one behind the other. -/
@[simp]
theorem framed_append (xs ys : List α) :
    framed encode (xs ++ ys) = framed encode xs ++ framed encode ys :=
  List.flatMap_append

/-- Nothing, or a proper prefix of the frame of an admissible value. -/
def Torn (admissible : α → Prop) (torn : List β) : Prop :=
  torn = [] ∨ ∃ x k, admissible x ∧ k < (encode x).length ∧ torn = (encode x).take k

variable {encode}

/-- A cut of a torn frame is torn. -/
theorem Torn.take {admissible : α → Prop} {torn : List β} (h : Torn encode admissible torn)
    (n : Nat) : Torn encode admissible (torn.take n) := by
  rcases h with rfl | ⟨x, k, hx, hk, rfl⟩
  · exact Or.inl List.take_nil
  · refine Or.inr ⟨x, min n k, hx, by omega, ?_⟩
    rw [List.take_take]

end Frames

/-! ## The register of the frames ever written -/

/-- What has become of a frame: it is in the file and no sync has covered it, a completed sync
came after it, or a crash cut it before one did. -/
inductive Fate where
  | written
  | covered
  | lost
deriving DecidableEq

/-- A value whose frame was written, with the length that the file then had behind it. -/
structure Appended (α : Type*) where
  value : α
  stop : Nat
  fate : Fate
deriving DecidableEq

/-- The register of values written one after another from `offset` on. -/
def appendedAt (encode : α → List β) : Nat → List α → List (Appended α)
  | _, [] => []
  | offset, x :: xs =>
      ⟨x, offset + (encode x).length, .written⟩ :: appendedAt encode (offset + (encode x).length) xs

/-- The entry after a completed sync. -/
def Appended.cover (e : Appended α) : Appended α :=
  if e.fate = .written then { e with fate := .covered } else e

/-- The entry after a crash that leaves `length` bytes. -/
def Appended.cut (length : Nat) (e : Appended α) : Appended α :=
  if e.fate = .written ∧ length < e.stop then { e with fate := .lost } else e

/-- The values that no crash has cut. -/
def standing (es : List (Appended α)) : List α :=
  (es.filter fun e => e.fate ≠ .lost).map Appended.value

/-- Every value written, with whether a completed sync covered it. -/
def marks (es : List (Appended α)) : List (α × Bool) :=
  es.map fun e => (e.value, decide (e.fate = .covered))

/-- Nothing was appended, so nothing stands. -/
@[simp]
theorem standing_nil : standing ([] : List (Appended α)) = [] :=
  rfl

/-- A lost value does not stand. -/
theorem standing_cons_lost {e : Appended α} {es : List (Appended α)} (h : e.fate = .lost) :
    standing (e :: es) = standing es := by
  simp [standing, h]

/-- A value that was not lost stands. -/
theorem standing_cons {e : Appended α} {es : List (Appended α)} (h : e.fate ≠ .lost) :
    standing (e :: es) = e.value :: standing es := by
  simp [standing, h]

/-- What stands of two histories, one after the other. -/
@[simp]
theorem standing_append (es es' : List (Appended α)) :
    standing (es ++ es') = standing es ++ standing es' := by
  simp [standing]

/-- Nothing stands where all is lost. -/
theorem standing_eq_nil {es : List (Appended α)} (h : ∀ e ∈ es, e.fate = .lost) : standing es = [] := by
  simpa [standing] using h

/-- Values stand from the moment they are appended. -/
@[simp]
theorem standing_appendedAt (encode : α → List β) (offset : Nat) (xs : List α) :
    standing (appendedAt encode offset xs) = xs := by
  induction xs generalizing offset with
  | nil => rfl
  | cons x xs ih =>
      unfold appendedAt
      rw [standing_cons (by simp), ih]

/-- What is written is not covered yet. -/
theorem fate_of_mem_appendedAt {encode : α → List β} {offset : Nat} {xs : List α} {e : Appended α}
    (h : e ∈ appendedAt encode offset xs) : e.fate = .written := by
  induction xs generalizing offset with
  | nil => simp [appendedAt] at h
  | cons x xs ih =>
      rcases List.mem_cons.mp h with rfl | h
      · rfl
      · exact ih h

/-- A sync changes no value. -/
@[simp]
theorem Appended.cover_value (e : Appended α) : e.cover.value = e.value := by
  unfold Appended.cover
  split_ifs <;> rfl

/-- A sync moves no frame. -/
@[simp]
theorem Appended.cover_stop (e : Appended α) : e.cover.stop = e.stop := by
  unfold Appended.cover
  split_ifs <;> rfl

/-- A sync loses nothing and finds nothing again. -/
@[simp]
theorem Appended.cover_lost (e : Appended α) : e.cover.fate = .lost ↔ e.fate = .lost := by
  unfold Appended.cover
  split_ifs with h <;> simp [h]

/-- A sync only concerns the values that wait for one. -/
theorem Appended.cover_of_ne {e : Appended α} (h : e.fate ≠ .written) : e.cover = e :=
  if_neg h

/-- A crash leaves an entry alone, unless it loses its frame. -/
theorem Appended.cut_eq {length : Nat} {e : Appended α} (h : (e.cut length).fate ≠ .lost) :
    e.cut length = e := by
  unfold Appended.cut at h ⊢
  split_ifs at h ⊢ with hcut
  · exact absurd rfl h
  · rfl

/-- A crash only cuts the values that wait for a sync. -/
theorem Appended.cut_of_ne {length : Nat} {e : Appended α} (h : e.fate ≠ .written) :
    e.cut length = e :=
  if_neg fun hcut => h hcut.1

/-- A crash brings nothing back. -/
theorem standing_cut_subset (length : Nat) (es : List (Appended α)) :
    standing (es.map (Appended.cut length)) ⊆ standing es := by
  intro x hx
  simp only [standing, List.mem_map, List.mem_filter, decide_eq_true_eq] at hx ⊢
  obtain ⟨_, ⟨⟨e, he, rfl⟩, hfate⟩, rfl⟩ := hx
  have hsame := Appended.cut_eq hfate
  rw [hsame] at hfate ⊢
  exact ⟨e, ⟨he, hfate⟩, rfl⟩

/-- A sync neither adds values nor loses any. -/
@[simp]
theorem standing_cover (es : List (Appended α)) : standing (es.map Appended.cover) = standing es := by
  induction es with
  | nil => rfl
  | cons e es ih =>
      rw [List.map_cons]
      by_cases h : e.fate = .lost
      · rw [standing_cons_lost (e.cover_lost.mpr h), standing_cons_lost h, ih]
      · rw [standing_cons (mt e.cover_lost.mp h), standing_cons h, ih, e.cover_value]

/-! ## Where the standing frames lie -/

/-- The standing frames lie one after another from `offset` on. -/
def Positioned (encode : α → List β) : Nat → List (Appended α) → Prop
  | _, [] => True
  | offset, e :: es =>
      if e.fate = .lost then Positioned encode offset es
      else e.stop = offset + (encode e.value).length ∧ Positioned encode e.stop es

variable {encode : α → List β} {offset : Nat} {e : Appended α} {es es' : List (Appended α)}

/-- Values that were just appended have their frames one behind the other. -/
theorem positioned_appendedAt (encode : α → List β) (offset : Nat) (xs : List α) :
    Positioned encode offset (appendedAt encode offset xs) := by
  induction xs generalizing offset with
  | nil => trivial
  | cons x xs ih => exact ⟨rfl, ih _⟩

/-- Lost values take no place. -/
theorem positioned_of_lost (h : ∀ e ∈ es, e.fate = .lost) : Positioned encode offset es := by
  induction es with
  | nil => trivial
  | cons e es ih =>
      unfold Positioned
      rw [if_pos (h e List.mem_cons_self)]
      exact ih fun x hx => h x (List.mem_cons_of_mem _ hx)

/-- Two histories in place, the second where the first ends. -/
theorem Positioned.append (h : Positioned encode offset es)
    (h' : Positioned encode (offset + (framed encode (standing es)).length) es') :
    Positioned encode offset (es ++ es') := by
  induction es generalizing offset with
  | nil => simpa using h'
  | cons e es ih =>
      rw [List.cons_append]
      unfold Positioned at h ⊢
      by_cases hlost : e.fate = .lost
      · rw [if_pos hlost] at h ⊢
        rw [standing_cons_lost hlost] at h'
        exact ih h h'
      · rw [if_neg hlost] at h ⊢
        rw [standing_cons hlost, framed_cons, List.length_append, ← Nat.add_assoc, ← h.1] at h'
        exact ⟨h.1, ih h.2 h'⟩

/-- A sync moves no frame. -/
theorem Positioned.cover (h : Positioned encode offset es) :
    Positioned encode offset (es.map Appended.cover) := by
  induction es generalizing offset with
  | nil => trivial
  | cons e es ih =>
      rw [List.map_cons]
      unfold Positioned at h ⊢
      by_cases hlost : e.fate = .lost
      · rw [if_pos hlost] at h
        rw [if_pos (e.cover_lost.mpr hlost)]
        exact ih h
      · rw [if_neg hlost] at h
        rw [if_neg (mt e.cover_lost.mp hlost), e.cover_stop, e.cover_value]
        exact ⟨h.1, ih h.2⟩

/-- A standing frame lies between the offset and the last of them. -/
theorem Positioned.stop_mem (h : Positioned encode offset es) (he : e ∈ es) (hfate : e.fate ≠ .lost) :
    offset + (encode e.value).length ≤ e.stop ∧
      e.stop ≤ offset + (framed encode (standing es)).length := by
  induction es generalizing offset with
  | nil => cases he
  | cons x es ih =>
      unfold Positioned at h
      by_cases hlost : x.fate = .lost
      · rw [if_pos hlost] at h
        rw [standing_cons_lost hlost]
        rcases List.mem_cons.mp he with rfl | he
        · exact absurd hlost hfate
        · exact ih h he
      · rw [if_neg hlost] at h
        rw [standing_cons hlost, framed_cons, List.length_append]
        rcases List.mem_cons.mp he with rfl | he
        · omega
        · have hrest := ih h.2 he
          omega

/-- A cut before the offset takes every frame, once a sync covered none of them. -/
theorem Positioned.cut_all (h : Positioned encode offset es) {length : Nat} (hlength : length < offset)
    (hheld : ∀ e ∈ es, e.fate = .covered → e.stop ≤ length) :
    ∀ e ∈ es.map (Appended.cut length), e.fate = .lost := by
  intro e he
  obtain ⟨x, hx, rfl⟩ := List.mem_map.mp he
  by_cases hlost : x.fate = .lost
  · simp [Appended.cut, hlost]
  · have hstop := (h.stop_mem hx hlost).1
    cases hfate : x.fate with
    | lost => exact absurd hfate hlost
    | covered =>
        have hle := hheld x hx hfate
        omega
    | written =>
        have hcut : length < x.stop := by omega
        simp [Appended.cut, hfate, hcut]

/-- A cut leaves the frames that stand after it, and a torn one. -/
theorem Positioned.take {admissible : α → Prop} {torn : List β} (h : Positioned encode offset es)
    (hadmissible : ∀ x ∈ standing es, admissible x) (htorn : Torn encode admissible torn) {n : Nat}
    (hheld : ∀ e ∈ es, e.fate = .covered → e.stop ≤ offset + n) :
    Positioned encode offset (es.map (Appended.cut (offset + n))) ∧
      ∃ torn', Torn encode admissible torn' ∧
        (framed encode (standing es) ++ torn).take n =
          framed encode (standing (es.map (Appended.cut (offset + n)))) ++ torn' := by
  induction es generalizing offset n with
  | nil => exact ⟨trivial, torn.take n, htorn.take n, rfl⟩
  | cons e es ih =>
      have hheld' : ∀ x ∈ es, x.fate = .covered → x.stop ≤ offset + n :=
        fun x hx => hheld x (List.mem_cons_of_mem _ hx)
      by_cases hlost : e.fate = .lost
      · have hcut : e.cut (offset + n) = e := Appended.cut_of_ne (by simp [hlost])
        unfold Positioned at h
        rw [if_pos hlost] at h
        rw [standing_cons_lost hlost] at hadmissible ⊢
        rw [List.map_cons, hcut, standing_cons_lost hlost]
        unfold Positioned
        rw [if_pos hlost]
        exact ih h hadmissible hheld'
      · have hplaced := h
        unfold Positioned at h
        rw [if_neg hlost] at h
        obtain ⟨hstop, hrest⟩ := h
        rw [standing_cons hlost] at hadmissible
        by_cases hkept : e.stop ≤ offset + n
        · -- the frame lies within the cut
          have hcut : e.cut (offset + n) = e := if_neg (by simp [hkept])
          have hsum : e.stop + (n - (encode e.value).length) = offset + n := by omega
          obtain ⟨hplaced', torn', htorn', htake⟩ :=
            ih (n := n - (encode e.value).length) hrest
              (fun x hx => hadmissible x (List.mem_cons_of_mem _ hx)) (by rwa [hsum])
          rw [hsum] at hplaced' htake
          rw [List.map_cons, hcut]
          constructor
          · unfold Positioned
            rw [if_neg hlost]
            exact ⟨hstop, hplaced'⟩
          · refine ⟨torn', htorn', ?_⟩
            rw [standing_cons hlost, standing_cons hlost, framed_cons, framed_cons,
              List.append_assoc, List.take_append, List.take_of_length_le (by omega), htake,
              List.append_assoc]
        · -- the cut falls into the frame, and takes all the later ones
          have hwritten : e.fate = .written := by
            cases hfate : e.fate with
            | written => rfl
            | covered => exact absurd (hheld e List.mem_cons_self hfate) hkept
            | lost => exact absurd hfate hlost
          have hall : ∀ x ∈ (e :: es).map (Appended.cut (offset + n)), x.fate = .lost := by
            intro x hx
            rcases List.mem_cons.mp hx with rfl | hx
            · simp [Appended.cut, hwritten, Nat.lt_of_not_le hkept]
            · exact hrest.cut_all (Nat.lt_of_not_le hkept) hheld' x hx
          refine ⟨positioned_of_lost hall, (encode e.value).take n, ?_, ?_⟩
          · exact Or.inr ⟨e.value, n, hadmissible _ List.mem_cons_self, by omega, rfl⟩
          · rw [standing_eq_nil hall, standing_cons hlost, framed_cons, List.append_assoc,
              List.take_append_of_le_length (by omega), framed_nil, List.nil_append]

/-! ## What a sequence of crashes leaves of a sequence of values -/

/-- The second list is the first one without some of its unmarked values. -/
inductive Retains : List (α × Bool) → List α → Prop
  | nil : Retains [] []
  | keep {x : α} {b : Bool} {xs : List (α × Bool)} {ys : List α} :
      Retains xs ys → Retains ((x, b) :: xs) (x :: ys)
  | drop {x : α} {xs : List (α × Bool)} {ys : List α} :
      Retains xs ys → Retains ((x, false) :: xs) ys

/-- What stands is everything written, less frames that no sync covered. -/
theorem Retains.standing (es : List (Appended α)) : Retains (marks es) (Framing.standing es) := by
  induction es with
  | nil => exact .nil
  | cons e es ih =>
      by_cases hlost : e.fate = .lost
      · rw [standing_cons_lost hlost]
        have hmark : decide (e.fate = .covered) = false := by simp [hlost]
        unfold marks
        rw [List.map_cons, hmark]
        exact ih.drop
      · rw [standing_cons hlost]
        exact ih.keep

end Framing
