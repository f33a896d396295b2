import PaxosOdin.Session.Faultless
import PaxosOdin.Wire.RoundTrip

/-!
# Frames that are refused

A frame that the codec or the bridge refuses raises inside the loop that received it.  `Session.poll`
raises it to its caller, and the next call goes on with the next frame.  `AsyncSession` has nobody to
raise it to: its receiver task ends, and no later frame is read.

Main definitions:

- Definition `Receiver.poll`: the loop of `Session.poll`, and `Receiver.polls`, its repetition.
- Definition `AsyncReceiver.step`: what the tasks of an `AsyncSession` do, one transition at a time.
- Definition `accepted`: the envelope of a frame that neither the codec nor the bridge refuses.

Main results:

- Theorem `Receiver.polls_isolated`: repeated polls step the accepted frames, as if no other had
  arrived.
- Theorem `AsyncReceiver.run_isolated_iff`: the tasks do so exactly when no frame is refused.
-/

namespace PaxosOdin.Session

open Bridge

variable {c : Wire.Codec} {p : Profile}

/-! ## Session -/

/-- What the loops of a participant raise. -/
inductive Failure where
  | wire (e : Wire.Raised)
  | node (e : Raised)

/-- A participant, and the envelopes that it handed to its node so far. -/
structure Receiver where
  process : Process
  stepped : List Wire.Envelope := []

/-- What one turn of the loop meets: whether the tick interval has passed, what the transport hands
out, and whether the time is over. -/
structure Turn where
  due : Bool := false
  frame : Option (List UInt8) := none
  ended : Bool := false

namespace Receiver

/-- `_maybe_tick`. -/
def maybeTick (p : Profile) (due : Bool) (r : Receiver) : Option (Receiver × Except Failure Unit) :=
  if due then
    match perform p {} .tick r.process with
    | none => none
    | some (s, .ok _) => some ({ r with process := s }, .ok ())
    | some (s, .error e) => some ({ r with process := s }, .error (.node e))
  else some (r, .ok ())

/-- A frame is decoded, its envelope stepped and the batch discharged. -/
def take (c : Wire.Codec) (p : Profile) (frame : List UInt8) (r : Receiver) :
    Option (Receiver × Except Failure Unit) :=
  match Wire.decode c frame with
  | .error e => some (r, .error (.wire e))
  | .ok envelope =>
      match perform p {} (.receive (Wire.encodeEnvelope envelope)) r.process with
      | none => none
      | some (s, .ok _) => some ({ process := s, stepped := r.stepped ++ [envelope] }, .ok ())
      | some (s, .error e) => some ({ r with process := s }, .error (.node e))

/-- The loop of `poll`, over the turns that its clock and its transport will give it; it leaves the
turns that it did not come to. -/
def poll (c : Wire.Codec) (p : Profile) :
    List Turn → Nat → Receiver → Option (Receiver × List Turn × Except Failure Nat)
  | [], processed, r => some (r, [], .ok processed)
  | t :: rest, processed, r =>
      match r.maybeTick p t.due with
      | none => none
      | some (r, .error e) => some (r, { t with due := false } :: rest, .error e)
      | some (r, .ok _) =>
          match t.frame with
          | none =>
              if t.ended then some (r, rest, .ok processed) else poll c p rest processed r
          | some frame =>
              match r.take c p frame with
              | none => none
              | some (r, .error e) => some (r, rest, .error e)
              | some (r, .ok _) =>
                  if t.ended then some (r, rest, .ok (processed + 1))
                  else poll c p rest (processed + 1) r

/-- Repeated calls of `poll`, whatever each of them returns or raises. -/
def polls (c : Wire.Codec) (p : Profile) : Nat → List Turn → Receiver → Option (Receiver × List Turn)
  | 0, turns, r => some (r, turns)
  | n + 1, turns, r =>
      match r.poll c p turns 0 with
      | none => none
      | some (r, rest, _) => polls c p n rest r

end Receiver

/-! ## AsyncSession -/

/-- What happens at an `AsyncSession`: its transport has a frame for the receiver, the ticker wakes
up, or the application calls. -/
inductive Happening where
  | frame (bytes : List UInt8)
  | tick
  | campaign
  | append (value : List UInt8)

/-- A participant and its two tasks. -/
structure AsyncReceiver extends Receiver where
  receiving : Bool := true
  ticking : Bool := true

namespace AsyncReceiver

/-- `_run`: what it raises goes to the task or the caller that awaits it.  It is atomic here: an
`append` that is cancelled while it waits is not modelled, whose shielded discharge goes on after
the lock is released. -/
def drive (p : Profile) (op : Operation) (r : AsyncReceiver) :
    Option (AsyncReceiver × Except Failure Unit) :=
  match Session.drive p op r.process with
  | none => none
  | some (s, .ok _) => some ({ r with process := s }, .ok ())
  | some (s, .error e) => some ({ r with process := s }, .error (.node e))

/-- One transition under the lock.  An exception ends the task that raised it; a frame that no task
waits for stays in the transport. -/
def step (c : Wire.Codec) (p : Profile) (r : AsyncReceiver) : Happening → Option AsyncReceiver
  | .frame bytes =>
      if r.receiving then
        match Wire.decode c bytes with
        | .error _ => some { r with receiving := false }
        | .ok envelope =>
            match r.drive p (.receive (Wire.encodeEnvelope envelope)) with
            | none => none
            | some (r, .ok _) => some { r with stepped := r.stepped ++ [envelope] }
            | some (r, .error _) => some { r with receiving := false }
      else some r
  | .tick =>
      if r.ticking then
        match r.drive p .tick with
        | none => none
        | some (r, .ok _) => some r
        | some (r, .error _) => some { r with ticking := false }
      else some r
  | .campaign => (r.drive p .campaign).map Prod.fst
  | .append value => (r.drive p (.propose value)).map Prod.fst

/-- A run of the tasks. -/
def run (c : Wire.Codec) (p : Profile) (r : AsyncReceiver) : List Happening → Option AsyncReceiver
  | [] => some r
  | x :: rest =>
      match r.step c p x with
      | none => none
      | some r => run c p r rest

end AsyncReceiver

/-! ## What is accepted -/

/-- The envelope of a frame that neither the codec nor the bridge refuses. -/
def accepted (c : Wire.Codec) (p : Profile) (frame : List UInt8) : Option Wire.Envelope :=
  match Wire.decode c frame with
  | .error _ => none
  | .ok envelope =>
      match envelopeFromC p.maxValue (Wire.encodeEnvelope envelope) with
      | .error _ => none
      | .ok _ => some envelope

/-- The turn without its frame, when the frame is refused. -/
def Turn.cleaned (c : Wire.Codec) (p : Profile) (t : Turn) : Turn :=
  { t with frame := t.frame.filter fun frame => (accepted c p frame).isSome }

/-- The envelopes that the accepted frames of the turns carry, in the order of their arrival. -/
def envelopes (c : Wire.Codec) (p : Profile) (turns : List Turn) : List Wire.Envelope :=
  (turns.filterMap (·.frame)).filterMap (accepted c p)

/-- A frame that is refused. -/
def Happening.Refused (c : Wire.Codec) (p : Profile) : Happening → Prop
  | .frame bytes => accepted c p bytes = none
  | _ => False

instance (c : Wire.Codec) (p : Profile) : (x : Happening) → Decidable (x.Refused c p)
  | .frame bytes => inferInstanceAs (Decidable (accepted c p bytes = none))
  | .tick => .isFalse nofun
  | .campaign => .isFalse nofun
  | .append _ => .isFalse nofun

/-- The envelope that a happening brings. -/
def Happening.envelope (c : Wire.Codec) (p : Profile) : Happening → Option Wire.Envelope
  | .frame bytes => accepted c p bytes
  | _ => none

theorem accepted_some {frame : List UInt8} {e : Wire.Envelope} (h : accepted c p frame = some e) :
    Wire.decode c frame = .ok e ∧ (Operation.receive (Wire.encodeEnvelope e)).Accepted p := by
  unfold accepted at h
  split at h
  · cases h
  · next envelope hdecode =>
      split at h
      · cases h
      · next m hbridge =>
          cases h
          exact ⟨hdecode, m, hbridge⟩

theorem accepted_none {frame : List UInt8} (h : accepted c p frame = none) :
    (∃ e, Wire.decode c frame = .error e) ∨
      ∃ e, Wire.decode c frame = .ok e ∧
        ¬ (Operation.receive (Wire.encodeEnvelope e)).Accepted p := by
  unfold accepted at h
  split at h
  · next e hdecode => exact Or.inl ⟨e, hdecode⟩
  · next envelope hdecode =>
      refine Or.inr ⟨envelope, hdecode, ?_⟩
      rintro ⟨m, hbridge⟩
      rw [hbridge] at h
      cases h

/-! ## Polling -/

namespace Receiver

variable {r : Receiver}

theorem maybeTick_runs (hr : Ready p r.process) (hwindow : 2 * p.params.W + 1 < 2 ^ 32)
    (due : Bool) :
    ∃ r', r.maybeTick p due = some (r', .ok ()) ∧ Ready p r'.process ∧ r'.stepped = r.stepped := by
  unfold maybeTick
  split_ifs
  · have htick : Operation.tick.Accepted p := trivial
    obtain ⟨s', b, hrun, -, hready⟩ := hr.perform hwindow htick
    rw [hrun]
    exact ⟨_, rfl, hready, rfl⟩
  · exact ⟨r, rfl, hr, rfl⟩

theorem take_accepted (hr : Ready p r.process) (hwindow : 2 * p.params.W + 1 < 2 ^ 32)
    {frame : List UInt8} {e : Wire.Envelope} (h : accepted c p frame = some e) :
    ∃ r', r.take c p frame = some (r', .ok ()) ∧ Ready p r'.process ∧
      r'.stepped = r.stepped ++ [e] := by
  obtain ⟨hdecode, hop⟩ := accepted_some h
  obtain ⟨s', b, hrun, -, hready⟩ := hr.perform hwindow hop
  refine ⟨⟨s', r.stepped ++ [e]⟩, ?_, hready, rfl⟩
  simp only [take, hdecode, hrun]

theorem take_refused (hr : Ready p r.process) {frame : List UInt8} (h : accepted c p frame = none) :
    ∃ e, r.take c p frame = some (r, .error e) := by
  rcases accepted_none h with ⟨e, hdecode⟩ | ⟨e, hdecode, hop⟩
  · exact ⟨.wire e, by simp only [take, hdecode]⟩
  · obtain ⟨e', hrun, -⟩ := hr.refused hop
    exact ⟨.node e', by simp only [take, hdecode, hrun]⟩

/-- How many frames a poll has counted does not matter to what it does. -/
theorem poll_processed (turns : List Turn) (k k' : Nat) (r : Receiver) :
    (r.poll c p turns k).map (fun x => (x.1, x.2.1)) =
      (r.poll c p turns k').map fun x => (x.1, x.2.1) := by
  induction turns generalizing r k k' with
  | nil => rfl
  | cons t rest ih =>
      unfold poll
      cases r.maybeTick p t.due with
      | none => rfl
      | some x =>
          obtain ⟨r₁, result⟩ := x
          cases result with
          | error e => rfl
          | ok _ =>
              dsimp only
              cases t.frame with
              | none =>
                  dsimp only
                  split_ifs
                  · rfl
                  · exact ih k k' r₁
              | some frame =>
                  dsimp only
                  cases r₁.take c p frame with
                  | none => rfl
                  | some y =>
                      obtain ⟨r₂, result⟩ := y
                      cases result with
                      | error e => rfl
                      | ok _ =>
                          dsimp only
                          split_ifs
                          · rfl
                          · exact ih (k + 1) (k' + 1) r₂

theorem polls_succ (n : Nat) (turns : List Turn) (r : Receiver) :
    r.polls c p (n + 1) turns =
      ((r.poll c p turns 0).map fun x => (x.1, x.2.1)).bind fun x => x.1.polls c p n x.2 := by
  rw [polls]
  cases r.poll c p turns 0 with
  | none => rfl
  | some x => rfl

/-- The rest of the turns is left to the next poll, or taken by the same one. -/
def Passes (c : Wire.Codec) (p : Profile) (r : Receiver) (t : Turn) (r' : Receiver) : Prop :=
  ∀ rest n, r.polls c p (n + 1) (t :: rest) = r'.polls c p n rest ∨
    r.polls c p (n + 1) (t :: rest) = r'.polls c p (n + 1) rest

/-- A turn that ends or goes on. -/
theorem passes_of_poll {t : Turn} {r' : Receiver}
    (h : ∀ rest, (∃ result, r.poll c p (t :: rest) 0 = some (r', rest, result)) ∨
      ∃ k, r.poll c p (t :: rest) 0 = r'.poll c p rest k) : r.Passes c p t r' := by
  intro rest n
  rcases h rest with ⟨result, hpoll⟩ | ⟨k, hpoll⟩
  · left
    rw [polls_succ, hpoll]
    rfl
  · right
    rw [polls_succ, polls_succ, hpoll, poll_processed rest k 0]

/-- One turn: the tick, and the frame when it is accepted. -/
theorem turn_passes (hr : Ready p r.process) (hwindow : 2 * p.params.W + 1 < 2 ^ 32) (t : Turn) :
    ∃ r', Ready p r'.process ∧ r'.stepped = r.stepped ++ envelopes c p [t] ∧
      r.Passes c p t r' ∧ r.Passes c p (t.cleaned c p) r' := by
  obtain ⟨r₁, htick, hready₁, hstepped₁⟩ := maybeTick_runs hr hwindow t.due
  have hquiet : ∀ t' : Turn, t'.due = t.due → t'.frame = none → r.Passes c p t' r₁ := by
    intro t' hdue hframe
    apply passes_of_poll
    intro rest
    simp only [poll, hdue, htick, hframe]
    split_ifs
    · exact Or.inl ⟨_, rfl⟩
    · exact Or.inr ⟨0, rfl⟩
  cases hframe : t.frame with
  | none =>
      refine ⟨r₁, hready₁, ?_, hquiet t rfl hframe, hquiet _ rfl ?_⟩
      · rw [hstepped₁]
        simp [envelopes, hframe]
      · simp [Turn.cleaned, hframe]
  | some frame =>
      cases haccepted : accepted c p frame with
      | none =>
          obtain ⟨e, htake⟩ := take_refused hready₁ haccepted
          refine ⟨r₁, hready₁, ?_, ?_, hquiet _ rfl ?_⟩
          · rw [hstepped₁]
            simp [envelopes, hframe, haccepted]
          · apply passes_of_poll
            intro rest
            simp only [poll, htick, hframe, htake]
            exact Or.inl ⟨_, rfl⟩
          · simp [Turn.cleaned, hframe, haccepted]
      | some envelope =>
          obtain ⟨r₂, htake, hready₂, hstepped₂⟩ := take_accepted hready₁ hwindow haccepted
          have hsame : t.cleaned c p = t := by
            obtain ⟨due, frame', ended⟩ := t
            cases hframe
            simp [Turn.cleaned, Option.filter, haccepted]
          have hpasses : r.Passes c p t r₂ := by
            apply passes_of_poll
            intro rest
            simp only [poll, htick, hframe, htake]
            split_ifs
            · exact Or.inl ⟨_, rfl⟩
            · exact Or.inr ⟨1, rfl⟩
          refine ⟨r₂, hready₂, ?_, hpasses, hsame.symm ▸ hpasses⟩
          rw [hstepped₂, hstepped₁]
          simp [envelopes, hframe, haccepted]

/-- Repeated polls step the accepted frames, each once and in the order of their arrival, and leave
what they would leave if no other frame had arrived. -/
def Isolated (c : Wire.Codec) (p : Profile) (r : Receiver) (turns : List Turn) (n : Nat) : Prop :=
  ∃ r', r.polls c p n turns = some (r', []) ∧
    r.polls c p n (turns.map (·.cleaned c p)) = some (r', []) ∧
    r'.stepped = r.stepped ++ envelopes c p turns

/-- As many polls as turns drain them all. -/
theorem polls_isolated (hr : Ready p r.process) (hwindow : 2 * p.params.W + 1 < 2 ^ 32)
    (turns : List Turn) {n : Nat} (hn : turns.length ≤ n) : r.Isolated c p turns n := by
  suffices hdrain : ∃ r', r'.stepped = r.stepped ++ envelopes c p turns ∧
      ∀ n, turns.length ≤ n → r.polls c p n turns = some (r', []) ∧
        r.polls c p n (turns.map (·.cleaned c p)) = some (r', []) by
    obtain ⟨r', hstepped, hall⟩ := hdrain
    exact ⟨r', (hall n hn).1, (hall n hn).2, hstepped⟩
  clear hn
  induction turns generalizing r with
  | nil =>
      refine ⟨r, by simp [envelopes], fun n _ => ?_⟩
      have hnone : ∀ m, r.polls c p m [] = some (r, []) := by
        intro m
        induction m with
        | zero => rfl
        | succ m ih =>
            rw [polls_succ]
            exact ih
      exact ⟨hnone n, hnone n⟩
  | cons t rest ih =>
      obtain ⟨r₁, hready, hstepped, hpasses, hcleaned⟩ := turn_passes (c := c) hr hwindow t
      obtain ⟨r', hstepped', hall⟩ := ih hready
      refine ⟨r', ?_, fun n hn => ?_⟩
      · rw [hstepped', hstepped, List.append_assoc]
        congr 1
        cases hframe : t.frame <;> simp [envelopes, hframe, List.filterMap_cons]
        split <;> rfl
      obtain ⟨m, rfl⟩ : ∃ m, n = m + 1 := Nat.exists_eq_succ_of_ne_zero (by
        rw [List.length_cons] at hn
        omega)
      have hm : rest.length ≤ m := by
        rw [List.length_cons] at hn
        omega
      rw [List.map_cons]
      constructor
      · rcases hpasses rest m with hrest | hrest
        · rw [hrest]
          exact (hall m hm).1
        · rw [hrest]
          exact (hall (m + 1) (by omega)).1
      · rcases hcleaned (rest.map (·.cleaned c p)) m with hrest | hrest
        · rw [hrest]
          exact (hall m hm).2
        · rw [hrest]
          exact (hall (m + 1) (by omega)).2

end Receiver

/-! ## The tasks of an `AsyncSession` -/

namespace AsyncReceiver

variable {r : AsyncReceiver}

/-- A transition of a ready participant: an accepted one leaves it ready, and another one raises and
changes nothing. -/
theorem drive_cases (hr : Ready p r.process) (hwindow : 2 * p.params.W + 1 < 2 ^ 32)
    (op : Operation) :
    (op.Accepted p ∧ ∃ s', r.drive p op = some ({ r with process := s' }, .ok ()) ∧ Ready p s') ∨
      (¬ op.Accepted p ∧ ∃ e, r.drive p op = some (r, .error e)) := by
  unfold drive
  by_cases hop : op.Accepted p
  · obtain ⟨s', b, -, hrun, hready⟩ := hr.perform hwindow hop
    rw [hrun]
    exact Or.inl ⟨hop, s', rfl, hready⟩
  · obtain ⟨e, -, hrun⟩ := hr.refused hop
    rw [hrun]
    exact Or.inr ⟨hop, _, rfl⟩

/-- A happening that is no frame leaves the receiver as it is. -/
theorem drive_runs (hr : Ready p r.process) (hwindow : 2 * p.params.W + 1 < 2 ^ 32)
    (op : Operation) :
    ∃ s', (r.drive p op).map Prod.fst = some { r with process := s' } ∧ Ready p s' := by
  rcases drive_cases hr hwindow op with ⟨-, s', hrun, hready⟩ | ⟨-, e, hrun⟩
  · exact ⟨s', by rw [hrun]; rfl, hready⟩
  · exact ⟨r.process, by rw [hrun]; rfl, hr⟩

/-- One happening: a refused frame ends the receiver, and nothing else does. -/
theorem step_runs (hr : Ready p r.process) (hwindow : 2 * p.params.W + 1 < 2 ^ 32) (x : Happening) :
    ∃ r', r.step c p x = some r' ∧ Ready p r'.process ∧
      (r'.receiving = true ↔ r.receiving = true ∧ ¬ x.Refused c p) ∧
      (r.receiving = true → r'.stepped = r.stepped ++ (x.envelope c p).toList) := by
  have hother : ∀ s', ¬ x.Refused c p → x.envelope c p = none → Ready p s' →
      r.step c p x = some { r with process := s' } →
      ∃ r', r.step c p x = some r' ∧ Ready p r'.process ∧
        (r'.receiving = true ↔ r.receiving = true ∧ ¬ x.Refused c p) ∧
        (r.receiving = true → r'.stepped = r.stepped ++ (x.envelope c p).toList) := by
    intro s' hx hnone hready hrun
    refine ⟨_, hrun, hready, ⟨fun h => ⟨h, hx⟩, fun h => h.1⟩, fun _ => ?_⟩
    rw [hnone]
    simp
  cases x with
  | frame bytes =>
      by_cases hreceiving : r.receiving = true
      swap
      · refine ⟨r, by simp [step, hreceiving], hr, ?_, fun h => absurd h hreceiving⟩
        exact ⟨fun h => absurd h hreceiving, fun h => h.1⟩
      cases haccepted : accepted c p bytes with
      | none =>
          refine ⟨{ r with receiving := false }, ?_, hr, ?_, fun _ => ?_⟩
          · simp only [step, hreceiving, if_true]
            rcases accepted_none haccepted with ⟨e, hdecode⟩ | ⟨e, hdecode, hop⟩
            · simp only [hdecode]
            · simp only [hdecode]
              rcases drive_cases hr hwindow (.receive (Wire.encodeEnvelope e)) with
                ⟨h, -⟩ | ⟨-, e', hrun⟩
              · exact absurd h hop
              · simp only [hrun]
          · simp [Happening.Refused, haccepted]
          · simp [Happening.envelope, haccepted]
      | some e =>
          obtain ⟨hdecode, hop⟩ := accepted_some haccepted
          rcases drive_cases hr hwindow (.receive (Wire.encodeEnvelope e)) with
            ⟨-, s', hrun, hready⟩ | ⟨h, -⟩
          · refine ⟨{ r with process := s', stepped := r.stepped ++ [e] }, ?_, hready, ?_, fun _ => ?_⟩
            · simp only [step, hreceiving, if_true, hdecode, hrun]
            · simp [Happening.Refused, haccepted, hreceiving]
            · simp [Happening.envelope, haccepted]
          · exact absurd hop h
  | tick =>
      by_cases hticking : r.ticking = true
      · rcases drive_cases hr hwindow .tick with ⟨-, s', hrun, hready⟩ | ⟨h, -⟩
        · exact hother s' not_false rfl hready (by simp only [step, hticking, if_true, hrun])
        · exact absurd trivial h
      · refine hother r.process not_false rfl hr ?_
        unfold step
        rw [if_neg hticking]
  | campaign =>
      obtain ⟨s', hrun, hready⟩ := drive_runs hr hwindow .campaign
      exact hother s' not_false rfl hready hrun
  | append value =>
      obtain ⟨s', hrun, hready⟩ := drive_runs hr hwindow (.propose value)
      exact hother s' not_false rfl hready hrun

/-- The receiver is alive at the end of a run exactly when no frame was refused; until then it steps
every frame. -/
theorem run_runs (hr : Ready p r.process) (hwindow : 2 * p.params.W + 1 < 2 ^ 32)
    (events : List Happening) :
    ∃ r', r.run c p events = some r' ∧
      (r'.receiving = true ↔ r.receiving = true ∧ ∀ x ∈ events, ¬ x.Refused c p) ∧
      (r'.receiving = true → r'.stepped = r.stepped ++ events.filterMap (·.envelope c p)) := by
  induction events generalizing r with
  | nil => exact ⟨r, rfl, by simp, fun _ => by simp⟩
  | cons x rest ih =>
      obtain ⟨r₁, hstep, hready, halive, hstepped⟩ := step_runs (c := c) hr hwindow x
      obtain ⟨r', hrun, halive', hstepped'⟩ := ih hready
      refine ⟨r', ?_, ?_, fun h => ?_⟩
      · simp only [run, hstep, hrun]
      · rw [halive', halive, List.forall_mem_cons, and_assoc]
      · have hboth := halive.mp (halive'.mp h).1
        rw [hstepped' h, hstepped hboth.1, List.append_assoc]
        cases hx : x.envelope c p <;> simp [hx]

/-- The receiver steps the accepted frames, each once and in the order of their arrival; it ends as if
no other frame had arrived, and goes on receiving. -/
def Isolated (c : Wire.Codec) (p : Profile) (r : AsyncReceiver) (events : List Happening) : Prop :=
  ∃ r', r.run c p events = some r' ∧
    r.run c p (events.filter fun x => ¬ x.Refused c p) = some r' ∧
    r'.stepped = r.stepped ++ events.filterMap (·.envelope c p) ∧ r'.receiving = true

/-- The tasks isolate the frames that are refused exactly when there are none. -/
theorem run_isolated_iff (hr : Ready p r.process) (hwindow : 2 * p.params.W + 1 < 2 ^ 32)
    (hreceiving : r.receiving = true) (events : List Happening) :
    r.Isolated c p events ↔ ∀ x ∈ events, ¬ x.Refused c p := by
  obtain ⟨r', hrun, halive, hstepped⟩ := run_runs (c := c) hr hwindow events
  constructor
  · rintro ⟨r'', hrun', -, -, halive'⟩
    rw [hrun] at hrun'
    cases hrun'
    exact (halive.mp halive').2
  · intro hnone
    have hend := halive.mpr ⟨hreceiving, hnone⟩
    refine ⟨r', hrun, ?_, hstepped hend, hend⟩
    rw [List.filter_eq_self.mpr fun x hx => decide_eq_true (hnone x hx)]
    exact hrun

end AsyncReceiver

/-! ## Both sessions -/

/-- From every ready participant, repeated polls of a `Session` isolate the frames that are refused,
whatever arrives; the tasks of an `AsyncSession` do so exactly when no frame is refused. -/
theorem malformed_isolated_iff (c : Wire.Codec) (hwindow : 2 * p.params.W + 1 < 2 ^ 32) {s : Process}
    (hr : Process.Reaches p Faultless Process.start s) (hopen : s.handle.isOpen = true) :
    (∀ turns n, turns.length ≤ n → Receiver.Isolated c p ⟨s, []⟩ turns n) ∧
      ∀ events, AsyncReceiver.Isolated c p { process := s } events ↔
        ∀ x ∈ events, ¬ x.Refused c p := by
  have hready := Ready.of_reaches hwindow hr hopen
  constructor
  · intro turns n hn
    exact Receiver.polls_isolated hready hwindow turns hn
  · intro events
    exact AsyncReceiver.run_isolated_iff hready hwindow rfl events

/-- A heartbeat of member 2. -/
def heartbeatFrame : List UInt8 :=
  match Wire.encode Wire.libraryCodec ⟨1, 2, 1, .heartbeat 65538 0⟩ with
  | .ok frame => frame
  | .error _ => []

theorem heartbeatFrame_accepted :
    (accepted Wire.libraryCodec bridgeProfile heartbeatFrame).isSome = true := by
  decide +kernel

/-- Member 1, opened on empty storage. -/
theorem opened_reaches :
    ∃ s, Process.Reaches bridgeProfile Faultless Process.start s ∧ s.handle.isOpen = true := by
  have hopen : (Process.start.step bridgeProfile (.reopen 0 0 memberConfig 0)).map
      (·.handle.isOpen) = some true := by decide +kernel
  obtain ⟨s, hstep, hs⟩ := Option.map_eq_some_iff.mp hopen
  have hr : Process.Reaches bridgeProfile Faultless Process.start Process.start := .refl
  have hfaultless : Faultless Process.start (.reopen 0 0 memberConfig 0) := trivial
  exact ⟨s, hr.step hfaultless hstep, hs⟩

/-- The heartbeat behind an empty frame is stepped by the second poll of a `Session`. -/
theorem malformed_isolated_opened :
    ∃ s, Process.Reaches bridgeProfile Faultless Process.start s ∧
      Receiver.Isolated Wire.libraryCodec bridgeProfile ⟨s, []⟩
        [{ frame := some [] }, { frame := some heartbeatFrame }] 2 := by
  obtain ⟨s, hr, hopen⟩ := opened_reaches
  exact ⟨s, hr, (malformed_isolated_iff Wire.libraryCodec (by decide) hr hopen).1 _ 2 le_rfl⟩

/-- An empty frame ends the receiver of an `AsyncSession`, which never reads the heartbeat behind
it. -/
theorem malformed_isolated_deaf :
    ¬ ∀ (c : Wire.Codec) (p : Profile) (s : Process), 2 * p.params.W + 1 < 2 ^ 32 →
      Process.Reaches p Faultless Process.start s → s.handle.isOpen = true →
      ∀ events, AsyncReceiver.Isolated c p { process := s } events := by
  intro h
  obtain ⟨s, hr, hopen⟩ := opened_reaches
  obtain ⟨r', hrun, -, hstepped, -⟩ := h Wire.libraryCodec bridgeProfile s (by decide) hr hopen
    [.frame [], .frame heartbeatFrame]
  have hdeaf : AsyncReceiver.run Wire.libraryCodec bridgeProfile { process := s }
      [.frame [], .frame heartbeatFrame] = some { process := s, receiving := false } := rfl
  rw [hdeaf] at hrun
  cases hrun
  obtain ⟨e, he⟩ := Option.isSome_iff_exists.mp heartbeatFrame_accepted
  have hempty : accepted Wire.libraryCodec bridgeProfile [] = none := rfl
  simp [Happening.envelope, he, hempty] at hstepped

end PaxosOdin.Session
