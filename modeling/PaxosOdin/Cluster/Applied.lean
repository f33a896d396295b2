import PaxosOdin.Cluster.Acceptors

/-!
# The applied log across crashes

A host applies what its node releases, and a node restarted after a crash releases again what the
host had not consumed.  So a slot may be applied twice, but never before all smaller ones, and never
again after it was consumed.

Main definitions:

- Definition `Gapless`: every entry of a log follows entries of all smaller slots.
- Definition `Applies`: what the applied log of a host and its running node have in common.

Main results:

- Theorem `Change.applies`: every change of a host keeps its applied log gapless.
- Theorem `applied_gapless`: in every run the applied log has no gap, holds every consumed slot, and
  never grows by one of them again.
-/

namespace PaxosOdin

variable {V : Type}

/-- Every entry of the log follows entries of all smaller slots. -/
def Gapless (log : List (Committed V)) : Prop :=
  ∀ before entry after, log = before ++ entry :: after →
    ∀ u, 0 < u → u < entry.slot → ∃ e ∈ before, e.slot = u

theorem Gapless.nil : Gapless ([] : List (Committed V)) := by
  intro before entry after heq
  simp at heq

/-- The log grows by an entry whose smaller slots it holds. -/
theorem Gapless.concat {log : List (Committed V)} (h : Gapless log) {last : Committed V}
    (hlast : ∀ u, 0 < u → u < last.slot → ∃ e ∈ log, e.slot = u) : Gapless (log ++ [last]) := by
  intro before entry after heq
  induction after using List.reverseRecOn with
  | nil =>
      obtain ⟨rfl, hentry⟩ := List.append_inj' heq rfl
      obtain rfl := List.singleton_inj.mp hentry
      exact hlast
  | append_singleton after x _ =>
      rw [← List.cons_append, ← List.append_assoc] at heq
      exact h before entry after (List.append_inj' heq rfl).1

/-- The slots of a host: what it consumed, what it applied and what its node has released follow
each other. -/
structure Applies (h : Host V) : Prop where
  gapless : Gapless h.applied
  consumed : ∀ u, 0 < u → u ≤ h.consumed → ∃ e ∈ h.applied, e.slot = u
  behind : ∀ n, h.node = some n → h.consumed + h.released.length ≤ n.deliveredThrough
  released : ∀ n, h.node = some n → h.released.map (·.slot) =
    List.range' (n.deliveredThrough - h.released.length + 1) h.released.length
  reached : ∀ n, h.node = some n → ∀ u, 0 < u → u + h.released.length ≤ n.deliveredThrough →
    ∃ e ∈ h.applied, e.slot = u

section Changes

variable [DecidableEq V] [Inhabited V] {d : Deployment} {id : Nat} {h h' : Host V}
  {net es : List (Envelope V)} {asked : Option (Operation V)} {ok : Cluster V → Action V → Prop}
  {c c' : Cluster V}

omit [DecidableEq V] in
theorem initialHost_applies (d : Deployment) (id : Nat) : Applies (initialHost d id : Host V) := by
  have hfresh : ∀ n, (initialHost d id : Host V).node = some n → n.deliveredThrough = 0 := by
    intro n hn
    simp only [initialHost] at hn
    unfold nodeInit at hn
    split at hn
    · cases hn
    · cases hn
      rfl
  refine ⟨.nil, fun u hu hle => ?_, fun n hn => Nat.zero_le _, fun n hn => rfl,
    fun n hn u hu hle => ?_⟩
  · have hzero : u ≤ 0 := hle
    omega
  · have hzero : u + 0 ≤ n.deliveredThrough := hle
    rw [hfresh n hn] at hzero
    omega

/-- A restarted member resumes after what its host has consumed. -/
theorem Recorded.resumes (hr : Recorded d id h) {options : NodeOptions}
    (hrestart : h.restarted d id options = some h') :
    ∃ n, h'.node = some n ∧ n.deliveredThrough = h.consumed ∧ h'.consumed = h.consumed ∧
      h'.released = [] ∧ h'.applied = h.applied := by
  unfold Host.restarted at hrestart
  split at hrestart
  swap
  · cases hrestart
  next l hreplay =>
  split at hrestart
  swap
  · cases hrestart
  next n hn =>
  cases hrestart
  have hrestored :
      Restored d.params id d.membership (d.optionsFor options) h.consumed h.journal n :=
    ⟨hr.durable, d.valid, d.valid.small, l, hreplay, hn⟩
  obtain ⟨l', hfold, hfields⟩ := hrestored.folded
  exact ⟨n, rfl, hfields.deliveredThrough, rfl, rfl, rfl⟩

omit [DecidableEq V] [Inhabited V] in
/-- A transition releases what follows the applied log. -/
theorem Applies.operated {n : Node V} {σ : St V} (ha : Applies h) (hnode : h.node = some n)
    (hreleased : h.released = [])
    (hd : Delivering (fun _ _ => True) n.deliveredThrough σ) : Applies (h.after σ) := by
  have hlen := congrArg List.length hd.slots
  rw [List.length_map, List.length_range'] at hlen
  have hmono := hd.le
  have hbehind := ha.behind n hnode
  have hback : σ.node.deliveredThrough - σ.effects.committed.length = n.deliveredThrough := by omega
  rw [hreleased, List.length_nil] at hbehind
  refine ⟨ha.gapless, ha.consumed, fun n' hn' => ?_, fun n' hn' => ?_, fun n' hn' u hu hle => ?_⟩
  · cases hn'
    show h.consumed + σ.effects.committed.length ≤ σ.node.deliveredThrough
    omega
  · cases hn'
    show σ.effects.committed.map (·.slot) = List.range'
      (σ.node.deliveredThrough - σ.effects.committed.length + 1) σ.effects.committed.length
    rw [hback, hlen]
    exact hd.slots
  · cases hn'
    have hle' : u + σ.effects.committed.length ≤ σ.node.deliveredThrough := hle
    refine ha.reached n hnode u hu ?_
    rw [hreleased, List.length_nil]
    omega

omit [DecidableEq V] [Inhabited V] in
/-- The first released entry is the next slot of the applied log. -/
theorem Applies.applied {entry : Committed V} {rest : List (Committed V)} (ha : Applies h)
    (hdown : h.node = none → h.released = []) (hreleased : h.released = entry :: rest) :
    Applies { h with released := rest, applied := h.applied ++ [entry] } ∧
      h.consumed < entry.slot := by
  obtain ⟨n, hnode⟩ : ∃ n, h.node = some n := by
    rcases hcase : h.node with _ | n
    · exact absurd hreleased (by simp [hdown hcase])
    · exact ⟨n, rfl⟩
  have hbehind := ha.behind n hnode
  have hslots := ha.released n hnode
  rw [hreleased, List.length_cons] at hbehind hslots
  rw [List.map_cons, List.range'_succ, List.cons.injEq] at hslots
  obtain ⟨hslot, hrest⟩ := hslots
  have hgrow : ∀ u, (∃ e ∈ h.applied, e.slot = u) → ∃ e ∈ h.applied ++ [entry], e.slot = u :=
    fun u ⟨e, he, heq⟩ => ⟨e, List.mem_append_left _ he, heq⟩
  have hsmaller : ∀ u, 0 < u → u < entry.slot → ∃ e ∈ h.applied, e.slot = u := by
    intro u hu hlt
    refine ha.reached n hnode u hu ?_
    rw [hreleased, List.length_cons]
    omega
  refine ⟨⟨ha.gapless.concat hsmaller, fun u hu hle => hgrow u (ha.consumed u hu hle),
    fun n' hn' => ?_, fun n' hn' => ?_, fun n' hn' u hu hle => ?_⟩, by omega⟩
  · obtain rfl : n = n' := Option.some.inj (hnode.symm.trans hn')
    show h.consumed + rest.length ≤ n.deliveredThrough
    omega
  · obtain rfl : n = n' := Option.some.inj (hnode.symm.trans hn')
    show rest.map (·.slot) = List.range' (n.deliveredThrough - rest.length + 1) rest.length
    rw [hrest]
    congr 1
    omega
  · obtain rfl : n = n' := Option.some.inj (hnode.symm.trans hn')
    have hle' : u + rest.length ≤ n.deliveredThrough := hle
    rcases Nat.lt_or_ge u entry.slot with hlt | hge
    · exact hgrow u (hsmaller u hu hlt)
    · exact ⟨entry, by simp, by omega⟩

/-- Every change keeps the applied log gapless, and applies nothing that the host consumed. -/
theorem Change.applies (hr : Recorded d id h) (hnet : ∀ e ∈ net, e.Authentic d.ownership)
    (ha : Applies h) (hc : Change d net id h asked h' es) :
    Applies h' ∧ h.consumed ≤ h'.consumed ∧
      ∃ more, h'.applied = h.applied ++ more ∧ ∀ e ∈ more, h.consumed < e.slot := by
  have hnothing : ∃ more, h.applied = h.applied ++ more ∧ ∀ e ∈ more, h.consumed < e.slot :=
    ⟨[], (List.append_nil _).symm, fun e he => absurd he List.not_mem_nil⟩
  cases hc with
  | @operated n op hnode hpending hreleased hserves =>
      obtain ⟨-, hdone⟩ := hr.begins hnet hnode hpending hserves
      exact ⟨ha.operated hnode hreleased
        (hdone.delivering (Remembered.delivering fun _ _ _ => trivial)), le_rfl, hnothing⟩
  | @adjusted n op hnode hop =>
      have hdelivered : (operate d.params n op).node.deliveredThrough = n.deliveredThrough := by
        rcases hop with ⟨through, -, rfl⟩ | ⟨enabled, rfl⟩
        · simp only [operate, nodeAdvanceMemoryFloor]
          split_ifs <;> rfl
        · rfl
      refine ⟨⟨ha.gapless, ha.consumed, fun n' hn' => ?_, fun n' hn' => ?_, fun n' hn' u hu hle =>
        ?_⟩, le_rfl, hnothing⟩
      · cases hn'
        rw [hdelivered]
        exact ha.behind n hnode
      · cases hn'
        rw [hdelivered]
        exact ha.released n hnode
      · cases hn'
        rw [hdelivered] at hle
        exact ha.reached n hnode u hu hle
  | persisted =>
      exact ⟨⟨ha.gapless, ha.consumed, ha.behind, ha.released, ha.reached⟩, le_rfl, hnothing⟩
  | sent =>
      exact ⟨⟨ha.gapless, ha.consumed, ha.behind, ha.released, ha.reached⟩, le_rfl, hnothing⟩
  | hastened => exact ⟨ha, le_rfl, hnothing⟩
  | @applied entry rest _ hreleased =>
      obtain ⟨hnew, hlt⟩ := ha.applied (fun hdown => (hr.down hdown).2.2) hreleased
      refine ⟨hnew, le_rfl, [entry], rfl, fun e he => ?_⟩
      obtain rfl := List.mem_singleton.mp he
      exact hlt
  | @consumed n through hnode hle hback =>
      refine ⟨⟨ha.gapless, fun u hu hu' => ?_, fun n' hn' => ?_, ha.released, ha.reached⟩, hle,
        hnothing⟩
      · have hu'' : u ≤ through := hu'
        exact ha.reached n hnode u hu (by omega)
      · obtain rfl : n = n' := Option.some.inj (hnode.symm.trans hn')
        exact hback
  | served => exact ⟨ha, le_rfl, hnothing⟩
  | crashed =>
      exact ⟨⟨ha.gapless, ha.consumed, fun n hn => (by cases hn), fun n hn => (by cases hn),
        fun n hn => (by cases hn)⟩, le_rfl, hnothing⟩
  | restarted _ hrestart =>
      obtain ⟨n, hnode, hdelivered, hconsumed, hreleased, happlied⟩ := hr.resumes hrestart
      have hsame : ∀ n', h'.node = some n' → n'.deliveredThrough = h.consumed := by
        intro n' hn'
        obtain rfl : n = n' := Option.some.inj (hnode.symm.trans hn')
        exact hdelivered
      refine ⟨⟨happlied ▸ ha.gapless, fun u hu hle => ?_, fun n' hn' => ?_, fun n' hn' => ?_,
        fun n' hn' u hu hle => ?_⟩, hconsumed.ge, ?_⟩
      · rw [happlied]
        exact ha.consumed u hu (hconsumed ▸ hle)
      · rw [hreleased, hconsumed, hsame n' hn', List.length_nil, Nat.add_zero]
      · rw [hreleased]
        rfl
      · rw [hreleased, hsame n' hn', List.length_nil, Nat.add_zero] at hle
        rw [happlied]
        exact ha.consumed u hu hle
      · rw [happlied]
        exact hnothing

/-! ## The runs -/

theorem Cluster.Reaches.applies (h : Cluster.Reaches d ok c) (id : Nat) : Applies (c.hosts id) := by
  refine h.invariant (motive := fun c => ∀ id, Applies (c.hosts id)) (initialHost_applies d)
    (fun {c c' a} hc ha _ hstep other => ?_) id
  obtain ⟨hr, hnet⟩ := hc.recorded
  obtain ⟨id, h', es, hchange, hhosts, -⟩ := Cluster.step_change hstep
  rw [hhosts]
  by_cases hother : other = id
  · subst hother
    rw [Function.update_self]
    exact (hchange.applies (hr other) hnet (ha other)).1
  · rw [Function.update_of_ne hother]
    exact ha other

/-- The applied log of a host never has a gap and holds every slot that the host has consumed; and
however the run goes on, it never grows by such a slot again. -/
theorem applied_gapless (h : Cluster.Reaches d ok c) (id : Nat) :
    Gapless (c.hosts id).applied ∧
      (∀ u, 0 < u → u ≤ (c.hosts id).consumed → ∃ e ∈ (c.hosts id).applied, e.slot = u) ∧
        ∀ c', Cluster.Follows d c c' →
          ∃ more, (c'.hosts id).applied = (c.hosts id).applied ++ more ∧
            ∀ e ∈ more, (c.hosts id).consumed < e.slot := by
  have ha := h.applies id
  refine ⟨ha.gapless, ha.consumed, fun c' hf => ?_⟩
  suffices hlater : (c.hosts id).consumed ≤ (c'.hosts id).consumed ∧
      ∃ more, (c'.hosts id).applied = (c.hosts id).applied ++ more ∧
        ∀ e ∈ more, (c.hosts id).consumed < e.slot from hlater.2
  induction hf with
  | refl =>
      exact ⟨le_rfl, [], (List.append_nil _).symm, fun e he => absurd he List.not_mem_nil⟩
  | @tail c₁ c₂ hf₁ hstep ih =>
      obtain ⟨hle, more, hmore, hlate⟩ := ih
      obtain ⟨a, hstep⟩ := hstep
      have h₁ := h.follows hf₁
      obtain ⟨hr, hnet⟩ := h₁.recorded
      obtain ⟨other, h', es, hchange, hhosts, -⟩ := Cluster.step_change hstep
      rw [hhosts]
      by_cases hid : id = other
      · subst hid
        rw [Function.update_self]
        obtain ⟨-, hgrows, next, hnext, hnew⟩ := hchange.applies (hr id) hnet (h₁.applies id)
        refine ⟨hle.trans hgrows, more ++ next, by rw [hnext, hmore, List.append_assoc],
          fun e he => ?_⟩
        rcases List.mem_append.mp he with he | he
        · exact hlate e he
        · exact hle.trans_lt (hnew e he)
      · rw [Function.update_of_ne hid]
        exact ⟨hle, more, hmore, hlate⟩

end Changes

/-- Member 2 applies slot 1, crashes before it is consumed, and applies it once more when the Commit
is delivered a second time. -/
theorem applied_gapless_again :
    ∃ c : Cluster Nat, Cluster.Reaches trioDeployment (fun _ _ => True) c ∧
      (c.hosts 2).applied = [⟨1, 5, false⟩, ⟨1, 5, false⟩] ∧ Gapless (c.hosts 2).applied := by
  have hrun : ((Cluster.initial trioDeployment).run trioDeployment (trioElection ++
      [.call 1 (.propose 5), .persist 1, .send 1, .deliver 5, .persist 2, .send 2, .deliver 6,
        .persist 1, .send 1, .deliver 7, .persist 2, .apply 2, .crash 2, .restart 2 .zero,
        .deliver 7, .apply 2])).map (fun c => (c.hosts 2).applied) =
      some [⟨1, 5, false⟩, ⟨1, 5, false⟩] := by decide +kernel
  obtain ⟨c, hc, happlied⟩ := Option.map_eq_some_iff.mp hrun
  have hreaches := Cluster.Reaches.of_run .initial hc
  exact ⟨c, hreaches, happlied, (applied_gapless hreaches 2).1⟩

end PaxosOdin
