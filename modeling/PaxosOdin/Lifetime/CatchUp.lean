import PaxosOdin.Lifetime.Bitmaps
import PaxosOdin.Lifetime.Fidelity
import PaxosOdin.Replicated.Log

/-!
# Catch-up and reads

A node serves what it has released from two places: its own cells above the memory floor, and its
host's history at or below it.  A decision that was released from its cell stays in it until the
floor passes the slot.  A decision that was released through `pass_through` has no cell, so above
the floor neither place serves it, unless a late Commit has recorded it again.

Main results:

- Theorem `Micro.holding`: what was released from a cell stays there while its slot is live.
- Theorem `Reachable.history`: every reachable node has a history of released entries.
- Theorem `serves_released_iff`: a node serves all it has released exactly when the slots above the
  floor that were released through `pass_through` are back in their cells.
- Theorem `serves_released_fails`: a node that serves such a slot from neither place.
-/

namespace PaxosOdin

variable {V : Type} {P : Params} {I : Input V}

/-! ## Entries that came from a cell -/

/-- Every entry of earlier batches and of this one that came from a cell is still there while its
slot is live. -/
def Holding (P : Params) (entries : List (Committed V)) (σ : St V) : Prop :=
  ∀ c ∈ entries ++ σ.effects.committed, c.passThrough = false → σ.node.memoryFloor < c.slot →
    HoldsDecision P σ.node c.slot c.value

/-- A small step releases an entry from a cell only when the cell holds it. -/
theorem Learn.released {σ σ' : St V} (h : Learn P I σ σ') {c : Committed V}
    (hc : c ∈ σ'.effects.committed) (hcell : c.passThrough = false) :
    c ∈ σ.effects.committed ∨ HoldsDecision P σ.node c.slot c.value := by
  cases h with
  | pass =>
      rcases List.mem_append.mp hc with hc | hc
      · obtain ⟨d, hd, rfl⟩ := List.mem_map.mp hc
        split_ifs at hcell ⊢ with hpass
        · exact absurd (hcell.symm.trans hpass) (by decide)
        · exact Or.inl hd
      · cases List.mem_singleton.mp hc
        cases hcell
  | deliver _ hheld hchosen =>
      rcases List.mem_append.mp hc with hc | hc
      · exact Or.inl hc
      · cases List.mem_singleton.mp hc
        exact Or.inr ⟨hheld, hchosen, rfl⟩
  | _ => exact Or.inl hc

section Steps

variable [DecidableEq V]

theorem Micro.released {σ σ' : St V} (h : Micro P I σ σ') {c : Committed V}
    (hc : c ∈ σ'.effects.committed) (hcell : c.passThrough = false) :
    c ∈ σ.effects.committed ∨ HoldsDecision P σ.node c.slot c.value := by
  cases h with
  | learn h => exact h.released hc hcell
  | _ => exact Or.inl hc

/-- What was released from a cell stays there while its slot is live. -/
theorem Micro.holding {entries : List (Committed V)} {σ σ' : St V} (hm : Micro P I σ σ')
    (h : Holding P entries σ) : Holding P entries σ' := by
  intro c hc hcell hlive
  rw [memoryFloor_of_static hm.static] at hlive
  refine hm.keeps_decision hlive ?_
  rcases List.mem_append.mp hc with hc | hc
  · exact h c (List.mem_append_left _ hc) hcell hlive
  · rcases hm.released hc hcell with hold | hheld
    · exact h c (List.mem_append_right _ hold) hcell hlive
    · exact hheld

theorem Completes.holding {entries : List (Committed V)} {n₀ : Node V} {σ σ' : St V}
    (hc : Completes P I n₀ σ σ') (h : Holding P entries σ) : Holding P entries σ' := by
  obtain ⟨τ, hrun, hlast⟩ := hc
  have hτ : Holding P entries τ := hrun.preserves (motive := Holding P entries)
    (fun hm hh => hm.holding hh) h
  rcases hlast with rfl | hfinal
  · exact hτ
  · cases hfinal <;> exact hτ

/-- An operation keeps every released entry of a live slot in its cell. -/
theorem operate_holding {entries : List (Committed V)} {n : Node V} (ho : Opened P n)
    (h : Holding P entries (St.start n)) (op : Operation V) :
    Holding P entries (operate P n op) := by
  have hquiet : ∀ n' : Node V, n.memoryFloor ≤ n'.memoryFloor →
      n'.ledger.cells = n.ledger.cells → Holding P entries (St.start n') := by
    intro n' hfloor hcells c hc hcell hlive
    have hheld := h c hc hcell (Nat.lt_of_le_of_lt hfloor hlive)
    unfold HoldsDecision Ledger.cellAt at hheld ⊢
    rw [show (St.start n').node = n' from rfl, hcells]
    exact hheld
  rcases operate_cases ho op with hc | ⟨anchor, rfl⟩ | ⟨through, rfl⟩ | ⟨enabled, rfl⟩
  · exact hc.holding h
  · obtain ⟨-, hcells, hcommitted⟩ := nodeInstallChosenTrim_quiet n anchor
    have hfloor : n.memoryFloor ≤ (nodeInstallChosenTrim n anchor).1.node.memoryFloor := by
      rcases nodeInstallChosenTrim_floor n anchor with heq | ⟨-, heq⟩
      · exact heq.ge
      · exact heq ▸ le_max_left _ _
    have hstart := hquiet _ hfloor hcells
    intro c hc
    simp only [operate, hcommitted] at hc
    exact hstart c hc
  · simp only [operate, nodeAdvanceMemoryFloor]
    split_ifs
    · exact h
    · exact hquiet _ (le_max_left _ _) rfl
  · exact hquiet _ le_rfl rfl

end Steps

/-! ## The history of a node -/

section Histories

variable [DecidableEq V] [Inhabited V]

/-- A reachable node with the entries it has released since it was opened, or since a moment when
its host had consumed everything. -/
inductive History (P : Params) : Node V → List (Committed V) → Prop
  | opened {n : Node V} (hn : Reachable P n) (hconsumed : n.deliveredThrough = n.memoryFloor) :
      History P n []
  | next {n : Node V} {entries : List (Committed V)} (h : History P n entries)
      (op : Operation V) :
      History P (operate P n op).node (entries ++ (operate P n op).effects.committed)

/-- The entries of a history from slot `origin` on. -/
structure Served (P : Params) (origin : Nat) (entries : List (Committed V)) (n : Node V) : Prop where
  reachable : Reachable P n
  floor : origin ≤ n.memoryFloor
  le : origin ≤ n.deliveredThrough
  slots : entries.map (·.slot) = List.range' (origin + 1) (n.deliveredThrough - origin)
  holding : Holding P entries (St.start n)

/-- Every node is opened with all of its log consumed. -/
theorem Reachable.history {n : Node V} (h : Reachable P n) : ∃ entries, History P n entries := by
  have hresume : ∀ (n : Node V) (base : Nat),
      (nodeResumeAt P n base).deliveredThrough = (nodeResumeAt P n base).memoryFloor := by
    intro n base
    unfold nodeResumeAt
    dsimp only
    split_ifs <;> rfl
  have hinit : ∀ {id : Nat} {membership : Membership} {options : NodeOptions} {n : Node V},
      nodeInit id membership options = .ok n → n.deliveredThrough = n.memoryFloor := by
    intro id membership options n h
    unfold nodeInit at h
    split at h
    · cases h
    · cases h
      rfl
  have hall := h
  induction h with
  | init _ h => exact ⟨[], .opened hall (hinit h)⟩
  | learner _ h =>
      refine ⟨[], .opened hall ?_⟩
      unfold nodeInitLearner at h
      split_ifs at h
      split at h
      · cases h
      · next n₀ hn₀ =>
          have heq := hinit hn₀
          cases h
          exact heq
  | restore _ _ _ _ h =>
      refine ⟨[], .opened hall ?_⟩
      unfold nodeRestore at h
      split at h
      · cases h
      · cases h
        exact hresume _ _
  | restoreLearner _ _ _ h =>
      refine ⟨[], .opened hall ?_⟩
      unfold nodeRestoreLearner at h
      split at h
      · cases h
      · cases h
        exact hresume _ _
  | continueAt _ _ h =>
      refine ⟨[], .opened hall ?_⟩
      unfold nodeContinueAt at h
      split_ifs at h
      split at h
      · cases h
      · cases h
        exact hresume _ _
  | recover _ _ _ h =>
      refine ⟨[], .opened hall ?_⟩
      unfold nodeBeginRecovery at h
      split at h
      · cases h
        exact hresume _ _
      · cases h
  | operate hn op ih =>
      obtain ⟨entries, hentries⟩ := ih hn
      exact ⟨_, hentries.next op⟩

omit [Inhabited V] in
/-- The floor never goes back. -/
theorem operate_floor {n : Node V} (ho : Opened P n) (op : Operation V) :
    n.memoryFloor ≤ (operate P n op).node.memoryFloor := by
  rcases operate_cases ho op with hc | ⟨anchor, rfl⟩ | ⟨through, rfl⟩ | ⟨enabled, rfl⟩
  · exact (memoryFloor_of_static hc.static).ge
  · rcases nodeInstallChosenTrim_floor n anchor with heq | ⟨-, heq⟩
    · exact heq.ge
    · exact heq ▸ le_max_left _ _
  · simp only [operate, nodeAdvanceMemoryFloor]
    split_ifs
    · exact le_rfl
    · exact le_max_left _ _
  · exact le_rfl

/-- What a history says of its node. -/
theorem History.served {n : Node V} {entries : List (Committed V)} (h : History P n entries) :
    ∃ origin, Served P origin entries n := by
  induction h with
  | @opened n hn hconsumed =>
      refine ⟨n.memoryFloor, hn, le_rfl, hconsumed.ge, ?_, fun c hc => ?_⟩
      · simp [hconsumed]
      · simp [St.start] at hc
  | @next n entries _ op ih =>
      obtain ⟨origin, hreach, hfloor, hle, hslots, hholding⟩ := ih
      have ho := hreach.fit.opened
      have hremembered : Remembered Anything n := fun _ _ _ => trivial
      have hdelivering := operate_delivering ho hremembered op
      have hmono := hdelivering.le
      refine ⟨origin, hreach.operate op, hfloor.trans (operate_floor ho op), hle.trans hmono, ?_, ?_⟩
      · have hsum : (operate P n op).node.deliveredThrough - origin =
            (n.deliveredThrough - origin) +
              ((operate P n op).node.deliveredThrough - n.deliveredThrough) := by
          omega
        have hnext : origin + 1 + (n.deliveredThrough - origin) = n.deliveredThrough + 1 := by
          omega
        rw [List.map_append, hslots, hdelivering.slots, hsum, ← List.range'_append_1, hnext]
      · intro c hc
        simp only [St.start, List.append_nil] at hc
        exact operate_holding ho hholding op c hc

/-- A history goes on with a sequence of operations. -/
theorem History.all {n : Node V} {entries : List (Committed V)} (h : History P n entries)
    (ops : List (Operation V)) :
    History P (operateAll P n ops) (entries ++ released P n ops) := by
  induction ops generalizing n entries with
  | nil => simpa [operateAll, released, batches] using h
  | cons op ops ih =>
      have hrest := ih (h.next op)
      rw [List.append_assoc] at hrest
      exact hrest

end Histories

/-! ## What a node serves -/

/-- What an entry tells the application. -/
def Committed.decision (c : Committed V) : Nat × V :=
  (c.slot, c.value)

/-- A catch-up request of `peer` is answered for `slot`: a Commit carries what the node released
there, or the host is asked for a range that covers it. -/
inductive Answers (n : Node V) (e : Effects V) (entries : List (Committed V)) (peer slot : Nat) :
    Prop
  | commit (c : Committed V) (hc : c ∈ entries) (hslot : c.slot = slot)
      (hsent : ⟨n.id, peer, .commit slot c.value⟩ ∈ e.messages)
  | host (r : ServeRangeRequest) (hr : r ∈ e.requests) (hpeer : r.peer = peer)
      (hfirst : r.first ≤ slot) (hlast : slot < r.first + r.count)

/-- A node that has released `entries` serves them: every catch-up request is answered for each
slot of its range that was released, and every read above the floor returns what was released. -/
structure ServesReleased (P : Params) (entries : List (Committed V)) (n : Node V) : Prop where
  learn : ∀ peer fromSlot count, fromSlot ≠ 0 → count ≠ 0 → count ≤ P.C →
    ∀ slot, fromSlot ≤ slot → slot < fromSlot + count → slot ≤ n.deliveredThrough →
      Answers n (onLearn P (St.start n) peer fromSlot count).1.effects entries peer slot
  read : ∀ fromSlot capacity, n.memoryFloor < fromSlot → fromSlot ≤ n.deliveredThrough →
    n.deliveredThrough - fromSlot + 1 ≤ capacity →
      nodeReadDecided P n fromSlot capacity =
        .ok ((entries.filter fun c => decide (fromSlot ≤ c.slot)).map (·.decision))

/-- Each entry that was released through `pass_through`, above the floor, is back in its cell. -/
def PassedBack (P : Params) (entries : List (Committed V)) (n : Node V) : Prop :=
  ∀ c ∈ entries, c.passThrough = true → n.memoryFloor < c.slot →
    ledgerChosenAt P n.ledger c.slot = some c.value

theorem ledgerChosenAt_of_holds {n : Node V} {slot : Nat} {value : V} (h0 : slot ≠ 0)
    (h : HoldsDecision P n slot value) : ledgerChosenAt P n.ledger slot = some value := by
  obtain ⟨hslot, hstate, hvalue⟩ := h
  unfold ledgerChosenAt
  dsimp only
  rw [if_neg h0, if_neg (by rw [not_or, not_not, not_not]; exact ⟨hslot, hstate⟩)]
  exact congrArg some hvalue

/-- A read of slots that are all held. -/
theorem readDecidedLoop_held {n : Node V} {entries : List (Committed V)}
    (h : ∀ c ∈ entries, ledgerChosenAt P n.ledger c.slot = some c.value) :
    readDecidedLoop P n (entries.map (·.slot)) = some (entries.map (·.decision)) := by
  induction entries with
  | nil => rfl
  | cons c entries ih =>
      have hrest := ih fun d hd => h d (List.mem_cons_of_mem _ hd)
      simp only [List.map_cons, readDecidedLoop, h c List.mem_cons_self, hrest]
      rfl

/-- What a read returns is held. -/
theorem readDecidedLoop_some {n : Node V} {slots : List Nat} {out : List (Nat × V)}
    (h : readDecidedLoop P n slots = some out) {slot : Nat} {value : V}
    (hmem : (slot, value) ∈ out) : ledgerChosenAt P n.ledger slot = some value := by
  induction slots generalizing out with
  | nil =>
      cases h
      exact absurd hmem List.not_mem_nil
  | cons s slots ih =>
      rw [readDecidedLoop] at h
      split at h
      · next v rest hv hrest =>
          cases h
          rcases List.mem_cons.mp hmem with heq | hmem
          · cases heq
            exact hv
          · exact ih hrest hmem
      · cases h

/-- The upper part of an interval of slots. -/
theorem filter_range'_ge {origin count start : Nat} (hstart : origin < start)
    (hle : start ≤ origin + count + 1) :
    (List.range' (origin + 1) count).filter (fun s => decide (start ≤ s)) =
      (List.range (origin + count + 1 - start)).map (start + ·) := by
  have hsplit : List.range' (origin + 1) count =
      List.range' (origin + 1) (start - (origin + 1)) ++
        List.range' start (origin + count + 1 - start) := by
    have happend := @List.range'_append_1 (origin + 1) (start - (origin + 1))
      (origin + count + 1 - start)
    rw [show origin + 1 + (start - (origin + 1)) = start by omega,
      show start - (origin + 1) + (origin + count + 1 - start) = count by omega] at happend
    exact happend.symm
  rw [hsplit, List.filter_append, List.filter_eq_nil_iff.mpr, List.filter_eq_self.mpr,
    List.nil_append, List.range'_eq_map_range]
  · intro s hs
    rw [List.mem_range'_1] at hs
    exact decide_eq_true hs.1
  · intro s hs
    rw [List.mem_range'_1] at hs
    simp only [decide_eq_true_eq]
    omega

section Serving

variable [DecidableEq V] [Inhabited V]

namespace Served

variable {origin : Nat} {entries : List (Committed V)} {n : Node V}

theorem entry (h : Served P origin entries n) {slot : Nat} (hlow : n.memoryFloor < slot)
    (hhigh : slot ≤ n.deliveredThrough) : ∃ c ∈ entries, c.slot = slot := by
  have hmem : slot ∈ entries.map (·.slot) := by
    rw [h.slots, List.mem_range'_1]
    have := h.floor
    omega
  obtain ⟨c, hc, hslot⟩ := List.mem_map.mp hmem
  exact ⟨c, hc, hslot⟩

theorem slot_bounds (h : Served P origin entries n) {c : Committed V} (hc : c ∈ entries) :
    origin < c.slot ∧ c.slot ≤ n.deliveredThrough := by
  have hmem : c.slot ∈ entries.map (·.slot) := List.mem_map_of_mem hc
  rw [h.slots, List.mem_range'_1] at hmem
  have := h.le
  omega

/-- Every released entry above the floor is in its cell, when the passed ones are back. -/
theorem held (h : Served P origin entries n) (hback : PassedBack P entries n) {c : Committed V}
    (hc : c ∈ entries) (hlive : n.memoryFloor < c.slot) :
    ledgerChosenAt P n.ledger c.slot = some c.value := by
  cases hpass : c.passThrough with
  | true => exact hback c hc hpass hlive
  | false =>
      refine ledgerChosenAt_of_holds (by omega) (h.holding c ?_ hpass hlive)
      exact List.mem_append_left _ hc

/-- The entries a read from `start` covers. -/
theorem suffix (h : Served P origin entries n) {start : Nat} (hlow : n.memoryFloor < start)
    (hhigh : start ≤ n.deliveredThrough) :
    (entries.filter fun c => decide (start ≤ c.slot)).map (·.slot) =
      (List.range (n.deliveredThrough - start + 1)).map (start + ·) := by
  have hfloor := h.floor
  have hle := h.le
  have hmap : (entries.map (·.slot)).filter (fun s => decide (start ≤ s)) =
      (entries.filter fun c => decide (start ≤ c.slot)).map (·.slot) := List.filter_map
  rw [← hmap, h.slots, filter_range'_ge (by omega) (by omega)]
  congr 2
  omega

/-- A read of the decided suffix that a node can serve. -/
theorem read (h : Served P origin entries n) (hback : PassedBack P entries n)
    {fromSlot capacity : Nat} (hlow : n.memoryFloor < fromSlot)
    (hhigh : fromSlot ≤ n.deliveredThrough)
    (hcapacity : n.deliveredThrough - fromSlot + 1 ≤ capacity) :
    nodeReadDecided P n fromSlot capacity =
      .ok ((entries.filter fun c => decide (fromSlot ≤ c.slot)).map (·.decision)) := by
  have hloop : readDecidedLoop P n
      ((List.range (n.deliveredThrough - fromSlot + 1)).map (fromSlot + ·)) =
        some ((entries.filter fun c => decide (fromSlot ≤ c.slot)).map (·.decision)) := by
    rw [← h.suffix hlow hhigh]
    refine readDecidedLoop_held fun c hc => ?_
    obtain ⟨hc, hge⟩ := List.mem_filter.mp hc
    have hge := of_decide_eq_true hge
    exact h.held hback hc (by omega)
  unfold nodeReadDecided
  rw [if_neg (by omega), if_neg (by omega), if_neg (by omega)]
  dsimp only
  rw [if_neg (by omega), hloop]

/-- A catch-up request is answered for every slot of its range that was released. -/
theorem learn (h : Served P origin entries n) (hback : PassedBack P entries n)
    {peer fromSlot count slot : Nat} (hfrom : fromSlot ≠ 0) (hcount : count ≠ 0)
    (hchunk : count ≤ P.C) (hlow : fromSlot ≤ slot) (hhigh : slot < fromSlot + count)
    (hreleased : slot ≤ n.deliveredThrough) :
    Answers n (onLearn P (St.start n) peer fromSlot count).1.effects entries peer slot := by
  have hlast := h.reachable.fit.opened.last
  have hlimit : slot ≤ slotAdd fromSlot (count - 1) := by
    unfold slotAdd
    omega
  unfold onLearn
  rw [if_neg (by omega)]
  dsimp only
  by_cases hold : slot ≤ n.memoryFloor
  · -- The host has consumed the slot: it serves the request.
    have hfloor : fromSlot ≤ n.memoryFloor := hlow.trans hold
    rw [if_pos (show fromSlot ≤ (St.start n).node.memoryFloor from hfloor)]
    refine .host ⟨peer, fromSlot, min (slotAdd fromSlot (count - 1)) n.memoryFloor - fromSlot + 1⟩
      ?_ rfl hlow ?_
    · simp [St.addMessages, St.addRequest, St.start]
    · show slot < fromSlot + (min (slotAdd fromSlot (count - 1)) n.memoryFloor - fromSlot + 1)
      omega
  · -- The slot is live: its cell holds the decision, and the scan finds the cell.
    obtain ⟨c, hc, rfl⟩ := h.entry (by omega) hreleased
    obtain ⟨hslot, hstate, hvalue⟩ := ledgerChosenAt_eq_some (h.held hback hc (by omega))
    refine .commit c hc rfl ?_
    have hcell : cellOf c.slot P.W ∈ bitSetScan n.ledger.chosen P.W := by
      refine List.mem_filter.mpr ⟨List.mem_range.mpr (cellOf_lt P _), ?_⟩
      exact decide_eq_true ((h.reachable.bits.chosen _).mpr hstate)
    have hscan : cellOf c.slot P.W ∈ (bitSetScan n.ledger.chosen P.W).filter fun cell =>
        decide (fromSlot ≤ (n.ledger.cells cell).slot ∧
          (n.ledger.cells cell).slot ≤ slotAdd fromSlot (count - 1)) := by
      refine List.mem_filter.mpr ⟨hcell, decide_eq_true ?_⟩
      rw [hslot]
      exact ⟨hlow, hlimit⟩
    have hmessage : (⟨n.id, peer, .commit c.slot c.value⟩ : Envelope V) ∈
        ((bitSetScan n.ledger.chosen P.W).filter fun cell =>
          decide (fromSlot ≤ (n.ledger.cells cell).slot ∧
            (n.ledger.cells cell).slot ≤ slotAdd fromSlot (count - 1))).map fun cell =>
          (⟨n.id, peer, .commit (n.ledger.cells cell).slot (n.ledger.cells cell).value⟩ :
            Envelope V) := by
      refine List.mem_map.mpr ⟨_, hscan, ?_⟩
      rw [hslot, hvalue]
    split_ifs <;> exact List.mem_append_right _ hmessage

end Served

/-- In every reachable state, a node serves all it has released exactly when each entry that was
released through `pass_through`, and lies above the memory floor, is back in its cell. -/
theorem serves_released_iff {n : Node V} {entries : List (Committed V)} (h : History P n entries) :
    ServesReleased P entries n ↔ PassedBack P entries n := by
  obtain ⟨origin, hserved⟩ := h.served
  constructor
  · intro hserves c hc _ hlive
    obtain ⟨-, hle⟩ := hserved.slot_bounds hc
    have hread := hserves.read c.slot _ hlive hle le_rfl
    have hmem : c.decision ∈
        (entries.filter fun d => decide (c.slot ≤ d.slot)).map (·.decision) :=
      List.mem_map_of_mem (List.mem_filter.mpr ⟨hc, decide_eq_true le_rfl⟩)
    unfold nodeReadDecided at hread
    rw [if_neg (by omega), if_neg (by omega), if_neg (by omega)] at hread
    dsimp only at hread
    rw [if_neg (by omega)] at hread
    split at hread
    · next out hout =>
        cases hread
        exact readDecidedLoop_some hout hmem
    · cases hread
  · intro hback
    constructor
    · intro peer fromSlot count hfrom hcount hchunk slot hlow hhigh hreleased
      exact hserved.learn hback hfrom hcount hchunk hlow hhigh hreleased
    · intro fromSlot capacity hlow hhigh hcapacity
      exact hserved.read hback hlow hhigh hcapacity

end Serving

/-- The trio's first member, once it is opened. -/
theorem trioNode_reachable (options : NodeOptions) :
    Reachable trioParams (trioNode (V := Nat) options) :=
  .init ⟨[1, 2, 3], 0, 0, by decide, by decide⟩ (trioNode_init options)

/-- Slots 1 and 2 are released from their cells, and slot 3 through `pass_through`.  Once the host
has consumed slot 1 a late Commit puts slot 3 back into a cell, and the node serves all three. -/
theorem serves_released_window :
    let ops : List (Operation Nat) :=
      [.step ⟨2, 1, .commit 1 5⟩, .step ⟨2, 1, .commit 2 6⟩, .step ⟨2, 1, .commit 3 7⟩,
        .advanceFloor 1, .step ⟨2, 1, .commit 3 7⟩]
    released trioParams (trioNode {}) ops = [⟨1, 5, false⟩, ⟨2, 6, false⟩, ⟨3, 7, true⟩] ∧
      ServesReleased trioParams (released trioParams (trioNode {}) ops)
        (operateAll trioParams (trioNode {}) ops) := by
  intro ops
  have hstart : History trioParams (trioNode (V := Nat) {}) [] :=
    .opened (trioNode_reachable {}) rfl
  refine ⟨by decide +kernel, (serves_released_iff (hstart.all ops)).mpr ?_⟩
  unfold PassedBack
  decide +kernel

/-- Slot 3 is released through `pass_through` while the host has consumed nothing: a catch-up
request for it gets neither a Commit nor a range. -/
theorem serves_released_fails :
    ¬ ∀ (n : Node Nat) (entries : List (Committed Nat)), History trioParams n entries →
      ServesReleased trioParams entries n := by
  intro h
  have hstart : History trioParams (trioNode (V := Nat) {}) [] :=
    .opened (trioNode_reachable {}) rfl
  have hback := (h _ _ (hstart.all [.step ⟨2, 1, .commit 1 5⟩, .step ⟨2, 1, .commit 2 6⟩,
    .step ⟨2, 1, .commit 3 7⟩])).learn 2 3 1 (by decide) (by decide) (by decide) 3 le_rfl
      (by decide) (by decide +kernel)
  rcases hback with ⟨c, -, -, hsent⟩ | ⟨r, hr, -, -, -⟩
  · revert hsent
    have hnone : (onLearn trioParams (St.start (operateAll trioParams (trioNode {})
        [.step ⟨2, 1, .commit 1 5⟩, .step ⟨2, 1, .commit 2 6⟩, .step ⟨2, 1, .commit 3 7⟩])) 2 3
          1).1.effects.messages = ([] : List (Envelope Nat)) := by
      decide +kernel
    rw [hnone]
    exact List.not_mem_nil
  · revert hr
    have hnone : (onLearn trioParams (St.start (operateAll trioParams (trioNode (V := Nat) {})
        [.step ⟨2, 1, .commit 1 5⟩, .step ⟨2, 1, .commit 2 6⟩, .step ⟨2, 1, .commit 3 7⟩])) 2 3
          1).1.effects.requests = [] := by
      decide +kernel
    rw [hnone]
    exact List.not_mem_nil

end PaxosOdin
