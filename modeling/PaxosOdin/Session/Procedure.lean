import Mathlib.Data.List.Infix

/-!
# Procedures that may raise

A procedure works on a state and returns a value or raises; or the process exits and nothing is left
to observe.  Its law is a triple: from every state that meets the precondition it ends, and what it
leaves meets the postcondition, whether it returned or raised.

Main definitions:

- Definition `Procedure`: with `raise`, `closing`, `ensuring` and `forEach`.
- Definition `Procedure.Triple`: what a procedure guarantees.
- Definitions `Procedure.Ends` and `Procedure.Returns`: postconditions by outcome.
- Definition `Procedure.Maintains`: an invariant that a procedure maintains whenever it ends.

Main results:

- Theorems `Triple.bind`, `Triple.closing` and `Triple.forEach`: the rules of the combinators.
- Theorems `Maintains.bind`, `Maintains.closing` and `Maintains.forEach`: the same for invariants.
-/

namespace PaxosOdin

/-- A procedure on a state `σ` that returns an `α` or raises an `ε`; `none` when the process exits. -/
def Procedure (σ ε α : Type) : Type :=
  σ → Option (σ × Except ε α)

namespace Procedure

variable {σ τ ε α β : Type}

protected def pure (a : α) : Procedure σ ε α :=
  fun s => some (s, .ok a)

protected def bind (m : Procedure σ ε α) (f : α → Procedure σ ε β) : Procedure σ ε β :=
  fun s =>
    match m s with
    | none => none
    | some (s, .error e) => some (s, .error e)
    | some (s, .ok a) => f a s

instance : Monad (Procedure σ ε) where
  pure := Procedure.pure
  bind := Procedure.bind

/-- `raise`. -/
def raise (e : ε) : Procedure σ ε α :=
  fun s => some (s, .error e)

/-- Reads the state. -/
def read (f : σ → α) : Procedure σ ε α :=
  fun s => some (s, .ok (f s))

/-- Writes the state. -/
def modify (f : σ → σ) : Procedure σ ε Unit :=
  fun s => some (f s, .ok ())

/-- A `with` block: `leave` runs after the body and is told whether the body raised.  What it raises
itself replaces the outcome of the body. -/
def closing (m : Procedure σ ε α) (leave : Bool → Procedure σ ε Unit) : Procedure σ ε α :=
  fun s =>
    match m s with
    | none => none
    | some (s, .ok a) => Procedure.bind (leave false) (fun _ => Procedure.pure a) s
    | some (s, .error e) => Procedure.bind (leave true) (fun _ => raise e) s

/-- `try` with `finally`. -/
def ensuring (m : Procedure σ ε α) (cleanup : Procedure σ ε Unit) : Procedure σ ε α :=
  m.closing fun _ => cleanup

/-- `for` over a list. -/
def forEach (f : α → Procedure σ ε Unit) : List α → Procedure σ ε Unit
  | [] => pure ()
  | a :: rest => do
      f a
      forEach f rest

/-- A procedure on a part of the state. -/
def within (get : σ → τ) (set : σ → τ → σ) (m : Procedure τ ε α) : Procedure σ ε α :=
  fun s => (m (get s)).map fun r => (set s r.1, r.2)

/-- What follows a procedure that returned. -/
theorem bind_of_ok {m : Procedure σ ε α} {f : α → Procedure σ ε β} {s s' : σ} {a : α}
    (h : m s = some (s', .ok a)) : (m >>= f) s = f a s' := by
  show Procedure.bind m f s = _
  unfold Procedure.bind
  rw [h]

/-- Nothing follows a procedure that raised. -/
theorem bind_of_error {m : Procedure σ ε α} {f : α → Procedure σ ε β} {s s' : σ} {e : ε}
    (h : m s = some (s', .error e)) : (m >>= f) s = some (s', .error e) := by
  show Procedure.bind m f s = _
  unfold Procedure.bind
  rw [h]

/-- A procedure that returns did so in both its parts. -/
theorem bind_returns {m : Procedure σ ε α} {f : α → Procedure σ ε β} {s s' : σ} {b : β}
    (h : (m >>= f) s = some (s', .ok b)) :
    ∃ s₁ a, m s = some (s₁, .ok a) ∧ f a s₁ = some (s', .ok b) := by
  change Procedure.bind m f s = _ at h
  unfold Procedure.bind at h
  split at h
  · cases h
  · cases h
  · next s₁ a hm => exact ⟨s₁, a, hm, h⟩

/-- Running on a part of the state leaves the rest alone. -/
theorem within_of_run {get : σ → τ} {set : σ → τ → σ} {m : Procedure τ ε α} {s : σ} {t : τ}
    {r : Except ε α} (h : m (get s) = some (t, r)) : m.within get set s = some (set s t, r) := by
  unfold within
  rw [h]
  rfl

/-- From every state that meets `P` the procedure ends, in a state and with an outcome that meet
`Q`. -/
def Triple (P : σ → Prop) (m : Procedure σ ε α) (Q : σ → Except ε α → Prop) : Prop :=
  ∀ s, P s → ∃ s' r, m s = some (s', r) ∧ Q s' r

/-- The postcondition that is `go` for the value returned, and `stop` when the procedure raised. -/
def Ends (stop : σ → Prop) (go : α → σ → Prop) (s : σ) : Except ε α → Prop
  | .ok a => go a s
  | .error _ => stop s

/-- The postcondition of a procedure that does not raise. -/
def Returns (go : α → σ → Prop) : σ → Except ε α → Prop :=
  Ends (fun _ => False) go

namespace Triple

variable {P P' : σ → Prop} {Q Q' : σ → Except ε α → Prop}

/-- The rule of consequence. -/
theorem mono {m : Procedure σ ε α} (h : Triple P m Q) (hpre : ∀ s, P' s → P s)
    (hpost : ∀ s r, Q s r → Q' s r) : Triple P' m Q' := by
  intro s hs
  obtain ⟨s', r, hrun, hq⟩ := h s (hpre s hs)
  exact ⟨s', r, hrun, hpost s' r hq⟩

/-- A postcondition may be weakened. -/
theorem post {m : Procedure σ ε α} (h : Triple P m Q) (hpost : ∀ s r, Q s r → Q' s r) :
    Triple P m Q' :=
  h.mono (fun _ hs => hs) hpost

/-- A precondition may be strengthened. -/
theorem pre {m : Procedure σ ε α} (h : Triple P m Q) (hpre : ∀ s, P' s → P s) : Triple P' m Q :=
  h.mono hpre fun _ _ hq => hq

protected theorem pure {a : α} (h : ∀ s, P s → Q s (.ok a)) :
    Triple P (pure a : Procedure σ ε α) Q :=
  fun s hs => ⟨s, .ok a, rfl, h s hs⟩

protected theorem raise {e : ε} (h : ∀ s, P s → Q s (.error e)) :
    Triple P (raise e : Procedure σ ε α) Q :=
  fun s hs => ⟨s, .error e, rfl, h s hs⟩

protected theorem read {f : σ → α} (h : ∀ s, P s → Q s (.ok (f s))) :
    Triple P (read f : Procedure σ ε α) Q :=
  fun s hs => ⟨s, .ok (f s), rfl, h s hs⟩

protected theorem modify {f : σ → σ} {Q : σ → Except ε Unit → Prop}
    (h : ∀ s, P s → Q (f s) (.ok ())) : Triple P (modify f) Q :=
  fun s hs => ⟨f s, .ok (), rfl, h s hs⟩

/-- A procedure after another one; what the first raises is raised. -/
protected theorem bind {m : Procedure σ ε α} {f : α → Procedure σ ε β} {stop : σ → Prop}
    {go : α → σ → Prop} {R : σ → Except ε β → Prop} (hm : Triple P m (Ends stop go))
    (hgo : ∀ a, Triple (go a) (f a) R) (hstop : ∀ s e, stop s → R s (.error e)) :
    Triple P (m >>= f) R := by
  intro s hs
  obtain ⟨s', r, hrun, hends⟩ := hm s hs
  show ∃ s' r, Procedure.bind m f s = some (s', r) ∧ R s' r
  unfold Procedure.bind
  rw [hrun]
  cases r with
  | ok a => exact hgo a s' hends
  | error e => exact ⟨s', .error e, rfl, hstop s' e hends⟩

/-- Weaker postconditions for both outcomes. -/
theorem weaken {m : Procedure σ ε α} {stop stop' : σ → Prop} {go go' : α → σ → Prop}
    (h : Triple P m (Ends stop go)) (hgo : ∀ a s, go a s → go' a s) (hstop : ∀ s, stop s → stop' s) :
    Triple P m (Ends stop' go') := by
  refine h.post fun s r hends => ?_
  cases r with
  | ok a => exact hgo a s hends
  | error e => exact hstop s hends

/-- A procedure that never raises ends well, whatever is asked when it raises. -/
theorem ends {m : Procedure σ ε α} {stop : σ → Prop} {go : α → σ → Prop}
    (h : Triple P m (Returns go)) : Triple P m (Ends stop go) :=
  h.weaken (fun _ _ hs => hs) fun _ hs => hs.elim

/-- A procedure after one that does not raise. -/
protected theorem next {m : Procedure σ ε α} {f : α → Procedure σ ε β} {go : α → σ → Prop}
    {R : σ → Except ε β → Prop} (hm : Triple P m (Returns go)) (hgo : ∀ a, Triple (go a) (f a) R) :
    Triple P (m >>= f) R :=
  .bind hm hgo fun _ _ h => h.elim

/-- A `with` block. -/
protected theorem closing {m : Procedure σ ε α} {leave : Bool → Procedure σ ε Unit}
    {stop stop' : σ → Prop} {go go' : α → σ → Prop} (hm : Triple P m (Ends stop go))
    (hgo : ∀ a, Triple (go a) (leave false) (Ends stop' fun _ => go' a))
    (hstop : Triple stop (leave true) (Ends stop' fun _ => stop')) :
    Triple P (m.closing leave) (Ends stop' go') := by
  intro s hs
  obtain ⟨s', r, hrun, hends⟩ := hm s hs
  unfold Procedure.closing
  rw [hrun]
  cases r with
  | ok a =>
      obtain ⟨s'', r', hrun', hends'⟩ := hgo a s' hends
      refine ⟨s'', r'.map fun _ => a, ?_, ?_⟩
      · cases r' <;> simp [Procedure.bind, hrun', Procedure.pure, Except.map]
      · cases r' <;> exact hends'
  | error e =>
      obtain ⟨s'', r', hrun', hends'⟩ := hstop s' hends
      cases r' with
      | ok _ => exact ⟨s'', .error e, by simp [Procedure.bind, hrun', Procedure.raise], hends'⟩
      | error e' => exact ⟨s'', .error e', by simp [Procedure.bind, hrun'], hends'⟩

/-- A loop whose body keeps `I`, or raises in `stop`. -/
protected theorem forEach {f : α → Procedure σ ε Unit} {I stop : σ → Prop} {as : List α}
    (h : ∀ a ∈ as, Triple I (f a) (Ends stop fun _ => I)) :
    Triple I (forEach f as) (Ends stop fun _ => I) := by
  induction as with
  | nil => exact .pure fun s hs => hs
  | cons a rest ih =>
      exact .bind (h a (by simp)) (fun _ => ih fun b hb => h b (by simp [hb])) fun s e hstop => hstop

/-- A procedure on a part of the state. -/
protected theorem within {get : σ → τ} {set : σ → τ → σ} {m : Procedure τ ε α}
    {R : τ → Prop} {T : τ → Except ε α → Prop} (hm : Triple R m T) (hpre : ∀ s, P s → R (get s))
    (hpost : ∀ s t r, P s → T t r → Q (set s t) r) : Triple P (m.within get set) Q := by
  intro s hs
  obtain ⟨t, r, hrun, ht⟩ := hm (get s) (hpre s hs)
  exact ⟨set s t, r, by simp [Procedure.within, hrun], hpost s t r hs ht⟩

/-- What a triple says of a run that is known. -/
theorem of_run {m : Procedure σ ε α} (h : Triple P m Q) {s s' : σ} {r : Except ε α} (hs : P s)
    (hrun : m s = some (s', r)) : Q s' r := by
  obtain ⟨s'', r', hrun', hq⟩ := h s hs
  rw [hrun] at hrun'
  cases hrun'
  exact hq

end Triple

/-- Whenever the procedure ends, with a value or by raising, it maintains `R`. -/
def Maintains (R : σ → Prop) (m : Procedure σ ε α) : Prop :=
  ∀ s s' r, m s = some (s', r) → R s → R s'

namespace Maintains

variable {R : σ → Prop}

protected theorem pure (a : α) : Maintains R (pure a : Procedure σ ε α) := by
  intro s s' r hrun hs
  cases hrun
  exact hs

protected theorem raise (e : ε) : Maintains R (raise e : Procedure σ ε α) := by
  intro s s' r hrun hs
  cases hrun
  exact hs

protected theorem read (f : σ → α) : Maintains R (read f : Procedure σ ε α) := by
  intro s s' r hrun hs
  cases hrun
  exact hs

protected theorem modify {f : σ → σ} (h : ∀ s, R s → R (f s)) :
    Maintains R (modify f : Procedure σ ε Unit) := by
  intro s s' r hrun hs
  cases hrun
  exact h s hs

protected theorem bind {m : Procedure σ ε α} {f : α → Procedure σ ε β} (hm : Maintains R m)
    (hf : ∀ a, Maintains R (f a)) : Maintains R (m >>= f) := by
  intro s s' r hrun hs
  change Procedure.bind m f s = some (s', r) at hrun
  unfold Procedure.bind at hrun
  split at hrun
  · cases hrun
  · next hm' =>
      cases hrun
      exact hm _ _ _ hm' hs
  · next a hm' => exact hf a _ _ _ hrun (hm _ _ _ hm' hs)

protected theorem closing {m : Procedure σ ε α} {leave : Bool → Procedure σ ε Unit}
    (hm : Maintains R m) (hleave : ∀ raised, Maintains R (leave raised)) :
    Maintains R (m.closing leave) := by
  intro s s' r hrun hs
  unfold Procedure.closing at hrun
  split at hrun
  · cases hrun
  · next a hm' =>
      exact Maintains.bind (hleave false) (fun _ => .pure a) _ _ _ hrun (hm _ _ _ hm' hs)
  · next e hm' =>
      exact Maintains.bind (hleave true) (fun _ => .raise e) _ _ _ hrun (hm _ _ _ hm' hs)

protected theorem ensuring {m : Procedure σ ε α} {cleanup : Procedure σ ε Unit}
    (hm : Maintains R m) (hcleanup : Maintains R cleanup) : Maintains R (m.ensuring cleanup) :=
  .closing hm fun _ => hcleanup

protected theorem forEach {f : α → Procedure σ ε Unit} (h : ∀ a, Maintains R (f a)) (as : List α) :
    Maintains R (forEach f as) := by
  induction as with
  | nil => exact .pure ()
  | cons a rest ih => exact .bind (h a) fun _ => ih

/-- A procedure on a part of the state. -/
protected theorem within {get : σ → τ} {set : σ → τ → σ} {m : Procedure τ ε α} {T : τ → Prop}
    (hm : Maintains T m) (hget : ∀ s, R s → T (get s)) (hset : ∀ s t, R s → T t → R (set s t)) :
    Maintains R (m.within get set) := by
  intro s s' r hrun hs
  unfold Procedure.within at hrun
  obtain ⟨⟨t, r'⟩, ht, heq⟩ := Option.map_eq_some_iff.mp hrun
  cases heq
  exact hset s t hs (hm _ _ _ ht (hget s hs))

end Maintains

end Procedure

end PaxosOdin
