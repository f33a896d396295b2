import PaxosOdin.Synod.Log
import PaxosOdin.Synod.Quorums

/-!
# Agreement of a single decree

The safety argument of the synod for one decree, over arbitrary acceptors, ballots and values.
What the acceptors did is read from their logs: the votes they cast, and the ballots that their
promises closed.  A value is safe at a ballot when for every lower ballot some read quorum shows
that no other value was or will be chosen there.  A ballot is dead when a read quorum closed it
without a vote: whatever is voted for at it is never chosen.

Main definitions:

- Definition `Board`: what the acceptors did for one decree.
- Definition `SafeAt`: no other value was or will be chosen at a lower ballot.
- Definition `Dead`: no value was or will be chosen at the ballot.

Main results:

- Theorem `Board.ofLogs_extends`: logs that obey the acceptor law respect what is closed.
- Theorem `SafeAt.mono`: safety survives every step that respects what is closed.
- Theorem `SafeAt.of_reports`: the value a candidate selects from a read quorum is safe.
- Theorem `chosen_unique`: if all votes are safe or at dead ballots, at most one value is chosen.
-/

namespace Synod

variable {α β σ ν : Type*} [LinearOrder β]

/-! ## Quorums and boards -/

/-- The read and the write quorums of a decree: any two of them intersect. -/
structure QuorumSystem (α : Type*) where
  read : Set (Finset α)
  write : Set (Finset α)
  meet : ∀ q ∈ read, ∀ r ∈ write, ∃ a ∈ q, a ∈ r

/-- The quorums that are counted by size. -/
def QuorumSystem.ofSizes [DecidableEq α] (members : Finset α) (read write : Nat)
    (h : members.card < read + write) : QuorumSystem α where
  read := { q | q ⊆ members ∧ read ≤ q.card }
  write := { r | r ⊆ members ∧ write ≤ r.card }
  meet := fun q hq r hr => exists_mem_of_card hq.1 hr.1 (by have := hq.2; have := hr.2; omega)

/-- What the acceptors did for one decree. -/
structure Board (α β ν : Type*) where
  voted : α → β → ν → Prop
  closed : α → β → Prop

/-- The board of a decree that the logs of the acceptors show. -/
def Board.ofLogs (logs : α → List (Entry β σ ν)) (slot : σ) : Board α β ν where
  voted := fun a ballot value => Voted (logs a) slot ballot value
  closed := fun a ballot => Closed (logs a) slot ballot

/-- The steps that respect what is closed: votes and closed ballots are only added, and no vote at a
closed ballot. -/
structure Board.Extends (B B' : Board α β ν) : Prop where
  voted : ∀ a k w, B.voted a k w → B'.voted a k w
  closed : ∀ a k, B.closed a k → B'.closed a k
  respects : ∀ a k w, B.closed a k → B'.voted a k w → B.voted a k w

/-- Logs that grow and obey the acceptor law respect what is closed. -/
theorem Board.ofLogs_extends {logs logs' : α → List (Entry β σ ν)}
    (hgrow : ∀ a, ∃ more, logs' a = logs a ++ more) (hlawful : ∀ a, Lawful (logs' a)) (slot : σ) :
    (Board.ofLogs logs slot).Extends (Board.ofLogs logs' slot) := by
  constructor
  · intro a k w hvote
    obtain ⟨more, hmore⟩ := hgrow a
    show Voted (logs' a) slot k w
    rw [hmore]
    exact Voted.append hvote more
  · intro a k hclosed
    obtain ⟨more, hmore⟩ := hgrow a
    show Closed (logs' a) slot k
    rw [hmore]
    exact Closed.append hclosed more
  · intro a k w hclosed hvote
    obtain ⟨more, hmore⟩ := hgrow a
    have hlaw := hlawful a
    have hvote' : Voted (logs' a) slot k w := hvote
    rw [hmore] at hlaw hvote'
    exact hlaw.not_voted_of_closed hclosed hvote'

/-! ## Safe values -/

/-- `value` is safe at `ballot`: at every lower ballot, each member of some read quorum voted for
`value` or has not voted and never will. -/
def SafeAt (Q : QuorumSystem α) (B : Board α β ν) (ballot : β) (value : ν) : Prop :=
  ∀ k < ballot, ∃ q ∈ Q.read, ∀ a ∈ q,
    B.voted a k value ∨ (B.closed a k ∧ ∀ w, ¬ B.voted a k w)

/-- No member of some read quorum has voted below `ballot`, or ever will. -/
def Silent (Q : QuorumSystem α) (B : Board α β ν) (ballot : β) : Prop :=
  ∃ q ∈ Q.read, ∀ a ∈ q, ∀ k < ballot, B.closed a k ∧ ∀ w, ¬ B.voted a k w

/-- Some read quorum closed the ballot without a vote. -/
def Dead (Q : QuorumSystem α) (B : Board α β ν) (ballot : β) : Prop :=
  ∃ q ∈ Q.read, ∀ a ∈ q, B.closed a ballot ∧ ∀ w, ¬ B.voted a ballot w

variable {Q : QuorumSystem α} {B B' : Board α β ν}

/-- Safety survives every step that respects what is closed. -/
theorem SafeAt.mono {ballot : β} {value : ν} (h : SafeAt Q B ballot value)
    (hext : B.Extends B') : SafeAt Q B' ballot value := by
  intro k hk
  obtain ⟨q, hq, hall⟩ := h k hk
  refine ⟨q, hq, fun a ha => ?_⟩
  rcases hall a ha with hvote | ⟨hclosed, hnone⟩
  · exact Or.inl (hext.voted a k value hvote)
  · exact Or.inr ⟨hext.closed a k hclosed, fun w hw => hnone w (hext.respects a k w hclosed hw)⟩

/-- So does silence. -/
theorem Silent.mono {ballot : β} (h : Silent Q B ballot) (hext : B.Extends B') :
    Silent Q B' ballot := by
  obtain ⟨q, hq, hall⟩ := h
  refine ⟨q, hq, fun a ha k hk => ?_⟩
  obtain ⟨hclosed, hnone⟩ := hall a ha k hk
  exact ⟨hext.closed a k hclosed, fun w hw => hnone w (hext.respects a k w hclosed hw)⟩

omit [LinearOrder β] in
/-- And a dead ballot stays dead. -/
theorem Dead.mono {ballot : β} (h : Dead Q B ballot) (hext : B.Extends B') : Dead Q B' ballot := by
  obtain ⟨q, hq, hall⟩ := h
  refine ⟨q, hq, fun a ha => ?_⟩
  obtain ⟨hclosed, hnone⟩ := hall a ha
  exact ⟨hext.closed a ballot hclosed,
    fun w hw => hnone w (hext.respects a ballot w hclosed hw)⟩

/-- Where a read quorum is silent, every value is safe. -/
theorem SafeAt.of_silent {ballot : β} (h : Silent Q B ballot) (value : ν) :
    SafeAt Q B ballot value := by
  obtain ⟨q, hq, hall⟩ := h
  exact fun k hk => ⟨q, hq, fun a ha => Or.inr (hall a ha k hk)⟩

/-- The value of the greatest vote that a read quorum reports is safe: `top` is at least every vote
a member of the quorum cast below `ballot`, its value was safe where it was voted, and one ballot
carries one value. -/
theorem SafeAt.of_reports {ballot top : β} {value : ν} {q : Finset α} (hq : q ∈ Q.read)
    (hclosed : ∀ a ∈ q, ∀ k < ballot, B.closed a k)
    (htop : ∀ a ∈ q, ∀ k < ballot, ∀ w, B.voted a k w → k ≤ top)
    (hsafe : SafeAt Q B top value)
    (hunique : ∀ a w, B.voted a top w → w = value) : SafeAt Q B ballot value := by
  classical
  intro k hk
  rcases lt_trichotomy k top with hlt | rfl | hgt
  · exact hsafe k hlt
  · refine ⟨q, hq, fun a ha => ?_⟩
    by_cases hvote : B.voted a k value
    · exact Or.inl hvote
    · refine Or.inr ⟨hclosed a ha k hk, fun w hw => hvote ?_⟩
      rw [← hunique a w hw]
      exact hw
  · refine ⟨q, hq, fun a ha => Or.inr ⟨hclosed a ha k hk, fun w hw => ?_⟩⟩
    exact absurd (htop a ha k hk w hw) (not_le.mpr hgt)

/-! ## Chosen values -/

/-- A write quorum voted for `value` at `ballot`. -/
def ChosenAt (Q : QuorumSystem α) (B : Board α β ν) (ballot : β) (value : ν) : Prop :=
  ∃ r ∈ Q.write, ∀ a ∈ r, B.voted a ballot value

omit [LinearOrder β] in
/-- What was chosen stays chosen. -/
theorem ChosenAt.mono {ballot : β} {value : ν} (h : ChosenAt Q B ballot value)
    (hext : B.Extends B') : ChosenAt Q B' ballot value := by
  obtain ⟨r, hr, hall⟩ := h
  exact ⟨r, hr, fun a ha => hext.voted a ballot value (hall a ha)⟩

omit [LinearOrder β] in
/-- Nothing is chosen at a dead ballot. -/
theorem Dead.not_chosen {ballot : β} {value : ν} (h : Dead Q B ballot) :
    ¬ ChosenAt Q B ballot value := by
  rintro ⟨r, hr, hall⟩
  obtain ⟨q, hq, hnone⟩ := h
  obtain ⟨a, haq, har⟩ := Q.meet q hq r hr
  exact (hnone a haq).2 value (hall a har)

/-- A vote that is safe agrees with every choice at a lower ballot. -/
theorem SafeAt.eq_of_chosen {low high : β} {v w : ν} (hsafe : SafeAt Q B high w)
    (hchosen : ChosenAt Q B low v) (hlt : low < high)
    (hunique : ∀ a a' x y, B.voted a low x → B.voted a' low y → x = y) : v = w := by
  obtain ⟨r, hr, hall⟩ := hchosen
  obtain ⟨q, hq, hread⟩ := hsafe low hlt
  obtain ⟨a, haq, har⟩ := Q.meet q hq r hr
  rcases hread a haq with hvote | ⟨-, hnone⟩
  · exact hunique a a v w (hall a har) hvote
  · exact absurd (hall a har) (hnone v)

/-- If all votes are safe or at dead ballots, and unique at their ballot, at most one value is
chosen. -/
theorem chosen_unique (hwrite : ∀ r ∈ Q.write, r.Nonempty)
    (hsafe : ∀ a k w, B.voted a k w → SafeAt Q B k w ∨ Dead Q B k)
    (hunique : ∀ k a a' x y, B.voted a k x → B.voted a' k y → x = y)
    {k k' : β} {v w : ν} (hv : ChosenAt Q B k v) (hw : ChosenAt Q B k' w) : v = w := by
  have hvoter : ∀ {b : β} {x : ν}, ChosenAt Q B b x → ∃ a, B.voted a b x ∧ SafeAt Q B b x := by
    rintro b x hx
    obtain ⟨r, hr, hall⟩ := hx
    obtain ⟨a, ha⟩ := hwrite r hr
    exact ⟨a, hall a ha, (hsafe a b x (hall a ha)).resolve_right fun hdead =>
      hdead.not_chosen ⟨r, hr, hall⟩⟩
  obtain ⟨a, ha, hsafe⟩ := hvoter hv
  obtain ⟨a', ha', hsafe'⟩ := hvoter hw
  rcases lt_trichotomy k k' with hlt | rfl | hgt
  · exact hsafe'.eq_of_chosen hv hlt (hunique k)
  · exact hunique k a a' v w ha ha'
  · exact (hsafe.eq_of_chosen hw hgt (hunique k')).symm

end Synod
