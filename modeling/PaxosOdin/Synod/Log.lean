import Mathlib.Data.Finset.Card
import Mathlib.Data.List.Induction
import Mathlib.Tactic.Ring

/-!
# Logs of acceptors

An acceptor of a multi-decree synod is known to the others only through its log: the
promises it made, for every decree or for one, the votes it cast, and the decisions it
learned.  A log is only ever extended, and a rule says which entry may follow which
prefix.  Nothing here depends on a particular implementation.

Main results:

- Theorem `Ruled.concat_iff`: a rule is checked one entry at a time.
- Theorem `Lawful.not_voted_of_closed`: no vote is added at a ballot that is closed.
- Theorem `Lawful.value_unique`: at one ballot a decree carries one value.
-/

namespace Synod

/-- One entry of an acceptor's log over ballots `β`, decrees `σ` and values `ν`. -/
inductive Entry (β σ ν : Type*) where
  | promise (ballot : β)
  | promiseAt (ballot : β) (slot : σ)
  | vote (ballot : β) (slot : σ) (value : ν)
  | decided (slot : σ)

variable {α β σ ν : Type*}

/-! ## Rules -/

/-- Every entry of the log obeys `R` given the entries before it. -/
def Ruled (R : List α → α → Prop) (log : List α) : Prop :=
  ∀ before e after, log = before ++ e :: after → R before e

/-- An empty log breaks no rule. -/
theorem Ruled.nil (R : List α → α → Prop) : Ruled R [] := by
  intro before e after h
  simp at h

/-- A rule is checked one entry at a time. -/
theorem Ruled.concat_iff {R : List α → α → Prop} {log : List α} {e : α} :
    Ruled R (log ++ [e]) ↔ Ruled R log ∧ R log e := by
  constructor
  · intro h
    refine ⟨fun before x after hlog => h before x (after ++ [e]) (by simp [hlog]), ?_⟩
    exact h log e [] rfl
  · rintro ⟨hlog, he⟩ before x after h
    rcases List.eq_nil_or_concat after with rfl | ⟨init, last, rfl⟩
    · obtain ⟨rfl, hx⟩ := List.append_inj' h rfl
      obtain rfl : e = x := by simpa using hx
      exact he
    · rw [List.concat_eq_append, ← List.cons_append, ← List.append_assoc] at h
      exact hlog before x init (List.append_inj' h rfl).1

/-- One more entry that obeys the rule. -/
theorem Ruled.concat {R : List α → α → Prop} {log : List α} {e : α} (h : Ruled R log)
    (he : R log e) : Ruled R (log ++ [e]) :=
  Ruled.concat_iff.mpr ⟨h, he⟩

/-- A prefix of a ruled log is ruled. -/
theorem Ruled.of_append {R : List α → α → Prop} {log more : List α}
    (h : Ruled R (log ++ more)) : Ruled R log := by
  intro before e after hlog
  exact h before e (after ++ more) (by simp [hlog])

/-- What the rule says about an entry that was added later. -/
theorem Ruled.of_mem {R : List α → α → Prop} {log more : List α} (h : Ruled R (log ++ more))
    {e : α} (he : e ∈ more) : ∃ between, R (log ++ between) e := by
  obtain ⟨s, t, rfl⟩ := List.append_of_mem he
  exact ⟨s, h (log ++ s) e t (by simp)⟩

/-! ## Promises and votes -/

/-- The log promises `ballot` for `slot`. -/
def Promised (log : List (Entry β σ ν)) (slot : σ) (ballot : β) : Prop :=
  .promise ballot ∈ log ∨ .promiseAt ballot slot ∈ log

/-- The log records a vote for `slot`. -/
def Voted (log : List (Entry β σ ν)) (slot : σ) (ballot : β) (value : ν) : Prop :=
  .vote ballot slot value ∈ log

/-- A promise stays in a log that grows. -/
theorem Promised.append {log : List (Entry β σ ν)} {slot : σ} {ballot : β}
    (h : Promised log slot ballot) (more : List (Entry β σ ν)) :
    Promised (log ++ more) slot ballot :=
  h.imp (List.mem_append_left _) (List.mem_append_left _)

/-- A vote stays in a log that grows. -/
theorem Voted.append {log : List (Entry β σ ν)} {slot : σ} {ballot : β} {value : ν}
    (h : Voted log slot ballot value) (more : List (Entry β σ ν)) :
    Voted (log ++ more) slot ballot value :=
  List.mem_append_left _ h

section Order

variable [LinearOrder β]

/-- A promise above `ballot` closes it for `slot`. -/
def Closed (log : List (Entry β σ ν)) (slot : σ) (ballot : β) : Prop :=
  ∃ p, ballot < p ∧ Promised log slot p

/-- What is closed stays closed in a log that grows. -/
theorem Closed.append {log : List (Entry β σ ν)} {slot : σ} {ballot : β}
    (h : Closed log slot ballot) (more : List (Entry β σ ν)) :
    Closed (log ++ more) slot ballot := by
  obtain ⟨p, hp, h⟩ := h
  exact ⟨p, hp, h.append more⟩

/-- The acceptor law: a vote is cast at a ballot that no earlier promise closed, its
ballot does not undercut an earlier vote for the decree, and at an equal ballot the
value is the same. -/
def VoteLaw (before : List (Entry β σ ν)) : Entry β σ ν → Prop
  | .vote ballot slot value =>
      (∀ p, Promised before slot p → p ≤ ballot) ∧
      ∀ c w, Voted before slot c w → c < ballot ∨ (c = ballot ∧ w = value)
  | _ => True

/-- A log whose votes all obey the acceptor law. -/
def Lawful (log : List (Entry β σ ν)) : Prop :=
  Ruled VoteLaw log

/-- No vote is added at a ballot that is closed. -/
theorem Lawful.not_voted_of_closed {log more : List (Entry β σ ν)} (h : Lawful (log ++ more))
    {slot : σ} {ballot : β} {value : ν} (hclosed : Closed log slot ballot)
    (hvote : Voted (log ++ more) slot ballot value) : Voted log slot ballot value := by
  rcases List.mem_append.mp hvote with hold | hnew
  · exact hold
  · obtain ⟨between, hlaw⟩ := Ruled.of_mem h hnew
    obtain ⟨p, hp, hprom⟩ := hclosed
    exact absurd (hlaw.1 p (hprom.append between)) (not_le.mpr hp)

/-- Two votes for one decree at one ballot of a lawful log carry one value. -/
theorem Lawful.value_unique {log : List (Entry β σ ν)} (h : Lawful log) {slot : σ} {ballot : β}
    {v w : ν} (hv : Voted log slot ballot v) (hw : Voted log slot ballot w) : v = w := by
  induction log using List.reverseRecOn with
  | nil => cases hv
  | append_singleton log e ih =>
      obtain ⟨hlog, he⟩ := Ruled.concat_iff.mp h
      rcases List.mem_append.mp hv with hv₁ | hv₁ <;> rcases List.mem_append.mp hw with hw₁ | hw₁
      · exact ih hlog hv₁ hw₁
      · obtain rfl := List.mem_singleton.mp hw₁
        rcases he.2 _ _ hv₁ with hlt | ⟨-, heq⟩
        · exact absurd hlt (lt_irrefl _)
        · exact heq
      · obtain rfl := List.mem_singleton.mp hv₁
        rcases he.2 _ _ hw₁ with hlt | ⟨-, heq⟩
        · exact absurd hlt (lt_irrefl _)
        · exact heq.symm
      · have h₁ := List.mem_singleton.mp hv₁
        have h₂ := List.mem_singleton.mp hw₁
        exact (Entry.vote.inj (h₁.trans h₂.symm)).2.2

end Order

end Synod
