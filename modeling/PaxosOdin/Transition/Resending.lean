import PaxosOdin.Scan.RoundRobin
import PaxosOdin.Transition.Growth

/-!
# Retransmission is a round robin

One call of `resend_to` visits the used cells of the window from the peer's cursor on, wraps
around once, and stops at a chunk of messages.  The cells that still concern the peer wait in
the order of that ring; a call serves the first chunk of them and sends them to the end.

Main definitions:

- Definition `Outstanding`: what makes a cell concern a peer.
- Definition `waiting`: the cells that concern a peer, in the order of its cursor.

Main results:

- Theorem `resendLoop_visits`: what one pass of the loop sends and where it stops.
- Theorem `waiting_resendTo`: one call is one turn.
- Theorem `resends_bounded_fair`: the bound of one call and the fairness of many.
-/

namespace PaxosOdin

open RoundRobin

variable {V : Type} {P : Params}

/-! ## The next cell -/

/-- A scan meets the cells in increasing order. -/
theorem bitSetScan_sorted (bits : Finset Nat) (size : Nat) :
    (bitSetScan bits size).Pairwise (· < ·) :=
  List.pairwise_lt_range.filter _

section Next

variable {l : Ledger V} {start cursor cell k : Nat} {wrapped w : Bool}

/-- The cell that is found is the next one of the round. -/
theorem remaining_of_resendNext_some
    (h : resendNext P l start cursor wrapped = (some cell, k, w)) :
    remaining (bitSetScan l.used P.W) start cursor wrapped =
      cell :: remaining (bitSetScan l.used P.W) start (cell + 1) w := by
  have hsorted := bitSetScan_sorted l.used P.W
  unfold resendNext at h
  cases hnext : bitSetNext l.used P.W cursor with
  | some c =>
      simp only [hnext] at h
      split_ifs at h with hback
      · cases h
      · cases h
        apply remaining_eq_cons hsorted hnext
        intro hw
        exact Nat.lt_of_not_le fun hle => hback ⟨hw, hle⟩
  | none =>
      cases wrapped with
      | true => simp [hnext] at h
      | false =>
          cases hzero : bitSetNext l.used P.W 0 with
          | none => simp [hnext, hzero] at h
          | some c =>
              simp only [hnext, hzero, Bool.false_eq_true, if_false, true_and] at h
              split_ifs at h with hback
              · cases h
              · cases h
                rw [remaining_wrap hnext]
                apply remaining_eq_cons hsorted hzero
                intro _
                exact Nat.lt_of_not_le hback

/-- When none is found the round is over, and the cursor stands where it stood on the ring. -/
theorem remaining_of_resendNext_none
    (h : resendNext P l start cursor wrapped = (none, k, w)) :
    remaining (bitSetScan l.used P.W) start cursor wrapped = [] ∧
      ring (bitSetScan l.used P.W) k = ring (bitSetScan l.used P.W) cursor := by
  have hsorted := bitSetScan_sorted l.used P.W
  unfold resendNext at h
  cases hnext : bitSetNext l.used P.W cursor with
  | some c =>
      simp only [hnext] at h
      split_ifs at h with hback
      · cases h
        obtain ⟨rfl, hle⟩ := hback
        exact ⟨remaining_back hsorted hnext hle, rfl⟩
      · cases h
  | none =>
      cases wrapped with
      | true =>
          simp only [hnext, if_true] at h
          cases h
          exact ⟨remaining_end hnext, rfl⟩
      | false =>
          -- the scan wraps: all used cells lie before the cursor
          have hbefore : ring (bitSetScan l.used P.W) cursor = bitSetScan l.used P.W := by
            apply ring_of_lt
            intro x hx
            have := List.find?_eq_none.mp hnext x hx
            simpa using this
          have hbegin : ring (bitSetScan l.used P.W) 0 = bitSetScan l.used P.W := by
            apply ring_of_le
            simp
          rw [remaining_wrap hnext, hbefore]
          cases hzero : bitSetNext l.used P.W 0 with
          | none =>
              simp only [hnext, hzero, Bool.false_eq_true, if_false] at h
              cases h
              exact ⟨remaining_end hzero, hbegin⟩
          | some c =>
              simp only [hnext, hzero, Bool.false_eq_true, if_false, true_and] at h
              split_ifs at h with hback
              · cases h
                exact ⟨remaining_back hsorted hzero hback, hbegin⟩
              · cases h

/-- A round never leaves the cursor past the window, unless it has not begun. -/
theorem resendNext_cursor_le (h : resendNext P l start cursor wrapped = (none, k, w))
    (hcursor : cursor ≤ P.W ∨ wrapped = false) : k ≤ P.W := by
  unfold resendNext at h
  cases hnext : bitSetNext l.used P.W cursor with
  | some c =>
      have hc : c ∈ bitSetScan l.used P.W := List.mem_of_find?_eq_some hnext
      have hle := List.find?_some hnext
      simp only [bitSetScan, List.mem_filter, List.mem_range, decide_eq_true_eq] at hc hle
      simp only [hnext] at h
      split_ifs at h
      · cases h
        omega
      · cases h
  | none =>
      cases wrapped with
      | true =>
          simp only [hnext, if_true] at h
          cases h
          simpa using hcursor
      | false =>
          cases hzero : bitSetNext l.used P.W 0 with
          | none =>
              simp only [hnext, hzero, Bool.false_eq_true, if_false] at h
              cases h
              exact Nat.zero_le _
          | some c =>
              simp only [hnext, hzero, Bool.false_eq_true, if_false, true_and] at h
              split_ifs at h
              · cases h
                exact Nat.zero_le _
              · cases h

end Next

/-! ## What concerns a peer -/

section Concern

/-- A cell above what the peer acknowledged that is decided, or whose vote is the one of the
proposal this node drives there. -/
def Outstanding (n : Node V) (acknowledged cell : Nat) : Prop :=
  acknowledged < (n.ledger.cells cell).slot ∧
    ((n.ledger.cells cell).state = .chosen ∨
      (n.ledger.cells cell).state = .voted ∧ (n.lead cell).slot = (n.ledger.cells cell).slot ∧
        (n.ledger.cells cell).voteBallot = (n.lead cell).ballot)

instance (n : Node V) (acknowledged : Nat) : DecidablePred (Outstanding n acknowledged) :=
  fun _ => inferInstanceAs (Decidable (_ ∧ _))

/-- What a cell has to say: its decision, or its vote as a proposal. -/
def retransmission (n : Node V) (cell : Nat) : Message V :=
  if (n.ledger.cells cell).state = .chosen then
    .commit (n.ledger.cells cell).slot (n.ledger.cells cell).value
  else
    .accept (n.ledger.cells cell).voteBallot (n.ledger.cells cell).slot (n.ledger.cells cell).value

/-- A cell that is outstanding is sent again. -/
theorem resendMessage_of_outstanding {n : Node V} {acknowledged cell : Nat}
    (h : Outstanding n acknowledged cell) :
    resendMessage n acknowledged cell = some (retransmission n cell) := by
  obtain ⟨hslot, hstate⟩ := h
  unfold resendMessage
  dsimp only
  rw [if_neg (by omega)]
  rcases hstate with hstate | ⟨hstate, hlead, hballot⟩
  · simp [retransmission, hstate]
  · simp [retransmission, hstate, hlead, hballot]

/-- Any other cell is passed over. -/
theorem resendMessage_of_not_outstanding {n : Node V} {acknowledged cell : Nat}
    (h : ¬Outstanding n acknowledged cell) : resendMessage n acknowledged cell = none := by
  unfold resendMessage
  dsimp only
  by_cases hslot : (n.ledger.cells cell).slot ≤ acknowledged
  · rw [if_pos hslot]
  · rw [if_neg hslot]
    cases hstate : (n.ledger.cells cell).state with
    | empty => rfl
    | chosen => exact absurd ⟨by omega, .inl hstate⟩ h
    | voted =>
        rw [if_pos]
        by_contra hcurrent
        rw [not_or, not_not, not_not] at hcurrent
        exact h ⟨by omega, .inr ⟨hstate, hcurrent⟩⟩

end Concern

/-! ## One pass of the loop -/

/-- A pass that has `sent` messages behind it goes through the cells of `seen`, sends those that
concern the peer, and stops before the cells of `left` only because the chunk is full. -/
structure Visits (P : Params) (n : Node V) (acknowledged cursor sent : Nat)
    (result : List (Message V) × Nat) (seen left : List Nat) : Prop where
  messages : result.1 = (seen.filter (Outstanding n acknowledged ·)).map (retransmission n)
  stops : ∀ u, ring (bitSetScan n.ledger.used P.W) cursor = seen ++ u →
    ring (bitSetScan n.ledger.used P.W) result.2 = u ++ seen
  inWindow : result.2 ≤ P.W
  bounded : (seen.filter (Outstanding n acknowledged ·)).length + sent ≤ P.C
  full : left = [] ∨ (seen.filter (Outstanding n acknowledged ·)).length + sent = P.C

section Loop

variable {n : Node V} {acknowledged cursor sent cell : Nat} {result : List (Message V) × Nat}
  {seen left : List Nat}

/-- A walk that ends before the next cell. -/
theorem Visits.nothing (hsent : sent ≤ P.C) (hring : ring (bitSetScan n.ledger.used P.W) result.2 =
      ring (bitSetScan n.ledger.used P.W) cursor)
    (hmessages : result.1 = []) (hwindow : result.2 ≤ P.W) :
    Visits P n acknowledged cursor sent result [] [] where
  messages := hmessages
  stops u hu := by rw [hring, hu, List.nil_append, List.append_nil]
  inWindow := hwindow
  bounded := by simpa using hsent
  full := .inl rfl

/-- Passing over one more cell moves it to the end of the ring. -/
theorem stops_cons
    (h : ∀ u, ring (bitSetScan n.ledger.used P.W) (cell + 1) = seen ++ u →
      ring (bitSetScan n.ledger.used P.W) result.2 = u ++ seen) (u : List Nat)
    (hu : ring (bitSetScan n.ledger.used P.W) cursor = (cell :: seen) ++ u) :
    ring (bitSetScan n.ledger.used P.W) result.2 = u ++ (cell :: seen) := by
  rw [List.cons_append] at hu
  have hpast := ring_succ (bitSetScan_sorted _ _) hu
  rw [List.append_assoc] at hpast
  rw [h (u ++ [cell]) hpast, List.append_assoc, List.singleton_append]

/-- A walk passes over a cell that is not outstanding. -/
theorem Visits.skip (hcell : ¬Outstanding n acknowledged cell)
    (h : Visits P n acknowledged (cell + 1) sent result seen left) :
    Visits P n acknowledged cursor sent result (cell :: seen) left where
  messages := by rw [List.filter_cons_of_neg (by simpa using hcell), h.messages]
  stops := stops_cons h.stops
  inWindow := h.inWindow
  bounded := by
    rw [List.filter_cons_of_neg (by simpa using hcell)]
    exact h.bounded
  full := by
    rw [List.filter_cons_of_neg (by simpa using hcell)]
    exact h.full

/-- A walk sends a cell that is. -/
theorem Visits.send (hcell : Outstanding n acknowledged cell)
    (h : Visits P n acknowledged (cell + 1) (sent + 1) result seen left) :
    Visits P n acknowledged cursor sent (retransmission n cell :: result.1, result.2)
      (cell :: seen) left where
  messages := by rw [List.filter_cons_of_pos (by simpa using hcell), List.map_cons, h.messages]
  stops := stops_cons h.stops
  inWindow := h.inWindow
  bounded := by
    rw [List.filter_cons_of_pos (by simpa using hcell), List.length_cons]
    have := h.bounded
    omega
  full := by
    rw [List.filter_cons_of_pos (by simpa using hcell), List.length_cons]
    apply h.full.imp_right
    intro hfull
    omega

/-- The last message of a chunk ends the pass. -/
theorem Visits.last (hcell : Outstanding n acknowledged cell) (hwindow : cell < P.W)
    (hsent : sent + 1 = P.C) (left : List Nat) :
    Visits P n acknowledged cursor sent ([retransmission n cell], cell + 1) [cell] left where
  messages := by simp [hcell]
  stops := stops_cons fun u hu => by simpa using hu
  inWindow := hwindow
  bounded := by simp [hcell, hsent, Nat.add_comm]
  full := .inr (by simp [hcell, hsent, Nat.add_comm])

/-- The loop sends what concerns the peer along the round, up to a chunk. -/
theorem resendLoop_visits (n : Node V) (acknowledged start fuel : Nat) {cursor sent : Nat}
    {wrapped : Bool}
    (hfuel : (remaining (bitSetScan n.ledger.used P.W) start cursor wrapped).length ≤ fuel)
    (hcursor : cursor ≤ P.W ∨ wrapped = false ∧ 0 < fuel) (hsent : sent < P.C) :
    ∃ seen left,
      remaining (bitSetScan n.ledger.used P.W) start cursor wrapped = seen ++ left ∧
      Visits P n acknowledged cursor sent
        (resendLoop P n acknowledged start fuel cursor wrapped sent) seen left := by
  induction fuel generalizing cursor wrapped sent with
  | zero =>
      rw [Nat.le_zero, List.length_eq_zero_iff] at hfuel
      have hwindow : cursor ≤ P.W := hcursor.resolve_right fun h => Nat.lt_irrefl 0 h.2
      exact ⟨[], [], hfuel, Visits.nothing hsent.le rfl rfl hwindow⟩
  | succ fuel ih =>
      unfold resendLoop
      rcases hnext : resendNext P n.ledger start cursor wrapped with ⟨_ | cell, k, w⟩
      · obtain ⟨hend, hring⟩ := remaining_of_resendNext_none hnext
        exact ⟨[], [], hend,
          Visits.nothing hsent.le hring rfl (resendNext_cursor_le hnext (hcursor.imp_right And.left))⟩
      · have hcons := remaining_of_resendNext_some hnext
        have hcell : cell < P.W := by
          have hmem : cell ∈ bitSetScan n.ledger.used P.W :=
            mem_of_mem_remaining (hcons ▸ List.mem_cons_self)
          simpa using (List.mem_filter.mp hmem).1
        have hfuel' :
            (remaining (bitSetScan n.ledger.used P.W) start (cell + 1) w).length ≤ fuel := by
          rw [hcons, List.length_cons] at hfuel
          omega
        rw [hcons]
        dsimp only
        by_cases hout : Outstanding n acknowledged cell
        · rw [resendMessage_of_outstanding hout]
          dsimp only
          by_cases hlast : sent + 1 = P.C
          · rw [if_pos hlast]
            exact ⟨[cell], _, rfl, Visits.last hout hcell hlast _⟩
          · rw [if_neg hlast]
            obtain ⟨seen, left, heq, hvisits⟩ := ih hfuel' (.inl hcell)
              (show sent + 1 < P.C by omega)
            exact ⟨cell :: seen, left, congrArg (cell :: ·) heq, hvisits.send hout⟩
        · rw [resendMessage_of_not_outstanding hout]
          obtain ⟨seen, left, heq, hvisits⟩ := ih hfuel' (.inl hcell) hsent
          exact ⟨cell :: seen, left, congrArg (cell :: ·) heq, hvisits.skip hout⟩

end Loop

/-! ## One call is one turn -/

/-- The cells that concern the peer with index `i`, in the order its cursor meets them. -/
def waiting (P : Params) (n : Node V) (i : Nat) : List Nat :=
  (ring (bitSetScan n.ledger.used P.W) (n.resendCursor i)).filter
    (Outstanding n (n.peerDecidedThrough i) ·)

/-- The used cells that concern a peer that acknowledged `acknowledged`. -/
def eligible (P : Params) (n : Node V) (acknowledged : Nat) : Finset Nat :=
  (Finset.range P.W).filter fun cell => cell ∈ n.ledger.used ∧ Outstanding n acknowledged cell

section Turn

variable {σ : St V} {peer i : Nat}

/-- The cells that wait are the eligible ones. -/
theorem mem_waiting {n : Node V} {cell : Nat} :
    cell ∈ waiting P n i ↔ cell ∈ eligible P n (n.peerDecidedThrough i) := by
  simp [waiting, eligible, mem_ring, bitSetScan, and_assoc]

/-- No cell waits twice. -/
theorem waiting_nodup (n : Node V) : (waiting P n i).Nodup :=
  ((ring_perm _ _).nodup_iff.mpr (bitSetScan_nodup _ _)).filter _

/-- There are as many of them. -/
theorem length_waiting (n : Node V) :
    (waiting P n i).length = (eligible P n (n.peerDecidedThrough i)).card := by
  have heq : (waiting P n i).toFinset = eligible P n (n.peerDecidedThrough i) := by
    ext cell
    rw [List.mem_toFinset, mem_waiting]
  rw [← heq, List.toFinset_card_of_nodup (waiting_nodup n)]

/-- A whole call of the loop walks along the ring of the peer's cursor. -/
theorem exists_visits (n : Node V) (i : Nat) :
    ∃ seen left, ring (bitSetScan n.ledger.used P.W) (n.resendCursor i) = seen ++ left ∧
      Visits P n (n.peerDecidedThrough i) (n.resendCursor i) 0
        (resendLoop P n (n.peerDecidedThrough i) (n.resendCursor i) P.W (n.resendCursor i) false 0)
        seen left := by
  rw [← remaining_start]
  apply resendLoop_visits
  · rw [remaining_start, (ring_perm _ _).length_eq]
    exact (List.length_filter_le _ _).trans (List.length_range).le
  · exact .inr ⟨rfl, P.window_pos⟩
  · exact P.chunk_pos

/-- The cells a pass serves are the first chunk of those waiting. -/
theorem Visits.turn {n : Node V} {seen left : List Nat} {result : List (Message V) × Nat}
    (hring : ring (bitSetScan n.ledger.used P.W) (n.resendCursor i) = seen ++ left)
    (h : Visits P n (n.peerDecidedThrough i) (n.resendCursor i) 0 result seen left) :
    (waiting P n i).take P.C = seen.filter (Outstanding n (n.peerDecidedThrough i) ·) ∧
      (waiting P n i).drop P.C = left.filter (Outstanding n (n.peerDecidedThrough i) ·) := by
  have hbounded := h.bounded
  rw [waiting, hring, List.filter_append]
  rcases h.full with rfl | hfull
  · rw [List.filter_nil, List.append_nil]
    exact ⟨List.take_of_length_le (by omega), List.drop_eq_nil_of_le (by omega)⟩
  · rw [Nat.add_zero] at hfull
    rw [← hfull]
    exact ⟨List.take_left, List.drop_left⟩

/-- Resending moves the cursor of the peer and nothing else. -/
theorem resendTo_node (hindex : membershipIndexOf σ.node.membership peer = some i) :
    (resendTo P σ peer).node =
      { σ.node with
        resendCursor := Function.update σ.node.resendCursor i
          ((resendLoop P σ.node (σ.node.peerDecidedThrough i) (σ.node.resendCursor i) P.W
            (σ.node.resendCursor i) false 0).2 % P.W) } := by
  unfold resendTo
  simp only [hindex]
  split_ifs <;> rfl

/-- One call sends at most one catch-up request and then the first chunk of what is waiting. -/
theorem resendTo_messages (hindex : membershipIndexOf σ.node.membership peer = some i) :
    ∃ learns : List (Envelope V), learns.length ≤ 1 ∧
      (∀ e ∈ learns, ∃ slot count, e = ⟨σ.node.id, peer, .learn slot count⟩) ∧
      (resendTo P σ peer).effects.messages = σ.effects.messages ++ learns ++
        ((waiting P σ.node i).take P.C).map fun cell =>
          ⟨σ.node.id, peer, retransmission σ.node cell⟩ := by
  obtain ⟨seen, left, hring, hvisits⟩ := exists_visits (P := P) σ.node i
  rw [(hvisits.turn hring).1]
  unfold resendTo
  simp only [hindex]
  split_ifs with hahead
  · refine ⟨[⟨σ.node.id, peer, .learn (slotSucc σ.node.deliveredThrough) P.C⟩], by simp, ?_, ?_⟩
    · intro e he
      exact ⟨_, _, List.mem_singleton.mp he⟩
    · simp only [requestLearn, sendTo, St.addMessages]
      rw [hvisits.messages, List.map_map]
      rfl
  · refine ⟨[], by simp, by simp, ?_⟩
    simp only [St.addMessages]
    rw [hvisits.messages, List.map_map, List.append_nil]
    rfl

/-- One call is one turn of the cells that wait. -/
theorem waiting_resendTo (hindex : membershipIndexOf σ.node.membership peer = some i) :
    waiting P (resendTo P σ peer).node i = turn P.C (waiting P σ.node i) := by
  obtain ⟨seen, left, hring, hvisits⟩ := exists_visits (P := P) σ.node i
  obtain ⟨htake, hdrop⟩ := hvisits.turn hring
  rw [turn, htake, hdrop, ← List.filter_append, ← hvisits.stops left hring, resendTo_node hindex]
  have hmod : ∀ k, k ≤ P.W → ring (bitSetScan σ.node.ledger.used P.W) (k % P.W) =
      ring (bitSetScan σ.node.ledger.used P.W) k := by
    intro k hk
    rcases hk.lt_or_eq with hlt | rfl
    · rw [Nat.mod_eq_of_lt hlt]
    · -- a cursor at the end of the window stands at its beginning
      rw [Nat.mod_self, ring_of_le (by simp), ring_of_lt]
      intro x hx
      simpa using (List.mem_filter.mp hx).1
  simp only [waiting, Function.update_self]
  rw [hmod _ hvisits.inWindow]
  rfl

end Turn

/-! ## Many calls -/

/-- Calls for one peer between which ledger, lead table and recorded prefix stand still. -/
structure Consecutive (P : Params) (peer i calls : Nat) (σ : Nat → St V) : Prop where
  index : ∀ j < calls, membershipIndexOf (σ j).node.membership peer = some i
  ledger : ∀ j < calls, (σ j).node.ledger = (σ 0).node.ledger
  lead : ∀ j < calls, (σ j).node.lead = (σ 0).node.lead
  acknowledged : ∀ j < calls, (σ j).node.peerDecidedThrough i = (σ 0).node.peerDecidedThrough i
  cursor : ∀ j, j + 1 < calls →
    (σ (j + 1)).node.resendCursor i = (resendTo P (σ j) peer).node.resendCursor i

section Calls

variable {peer i calls : Nat} {σ : Nat → St V}

/-- What waits depends on ledger, lead table, prefix and cursor only. -/
theorem waiting_congr {n m : Node V} (hledger : n.ledger = m.ledger) (hlead : n.lead = m.lead)
    (hacknowledged : n.peerDecidedThrough i = m.peerDecidedThrough i)
    (hcursor : n.resendCursor i = m.resendCursor i) : waiting P n i = waiting P m i := by
  unfold waiting
  rw [hledger, hcursor]
  apply List.filter_congr
  intro cell _
  rw [decide_eq_decide]
  simp only [Outstanding, hledger, hlead, hacknowledged]

/-- What is sent again depends on the ledger only. -/
theorem retransmission_congr {n m : Node V} (hledger : n.ledger = m.ledger) :
    retransmission n = retransmission m := by
  funext cell
  simp only [retransmission, hledger]

/-- Every call is the next turn. -/
theorem Consecutive.waiting_eq (h : Consecutive P peer i calls σ) {j : Nat} (hj : j < calls) :
    waiting P (σ j).node i = (turn P.C)^[j] (waiting P (σ 0).node i) := by
  induction j with
  | zero => rfl
  | succ j ih =>
      have hj' : j < calls := Nat.lt_of_succ_lt hj
      rw [Function.iterate_succ_apply', ← ih hj', ← waiting_resendTo (h.index j hj')]
      apply waiting_congr
      · rw [h.ledger _ hj, resendTo_node (h.index j hj')]
        exact (h.ledger j hj').symm
      · rw [h.lead _ hj, resendTo_node (h.index j hj')]
        exact (h.lead j hj').symm
      · rw [h.acknowledged _ hj, resendTo_node (h.index j hj')]
        exact (h.acknowledged j hj').symm
      · exact h.cursor j hj

/-- The calls that as many chunks as the eligible cells fill take serve all of them. -/
theorem Consecutive.serves
    (h : Consecutive P peer i
      (((eligible P (σ 0).node ((σ 0).node.peerDecidedThrough i)).card + P.C - 1) / P.C) σ)
    {cell : Nat} (hcell : cell ∈ eligible P (σ 0).node ((σ 0).node.peerDecidedThrough i)) :
    ∃ j < ((eligible P (σ 0).node ((σ 0).node.peerDecidedThrough i)).card + P.C - 1) / P.C,
      ∃ sent, (resendTo P (σ j) peer).effects.messages = (σ j).effects.messages ++ sent ∧
        ⟨(σ j).node.id, peer, retransmission (σ 0).node cell⟩ ∈ sent := by
  have hturns : (waiting P (σ 0).node i).length ≤
      ((eligible P (σ 0).node ((σ 0).node.peerDecidedThrough i)).card + P.C - 1) / P.C *
        P.C := by
    rw [length_waiting]
    have := P.chunk_pos
    have hmod := Nat.mod_lt
      ((eligible P (σ 0).node ((σ 0).node.peerDecidedThrough i)).card + P.C - 1) this
    have hdiv := Nat.div_add_mod'
      ((eligible P (σ 0).node ((σ 0).node.peerDecidedThrough i)).card + P.C - 1) P.C
    omega
  obtain ⟨j, hj, hserved⟩ := exists_turn_mem (mem_waiting.mpr hcell) P.chunk_pos hturns
  obtain ⟨learns, -, -, hmessages⟩ := resendTo_messages (P := P) (h.index j hj)
  rw [List.append_assoc] at hmessages
  refine ⟨j, hj, _, hmessages, List.mem_append_right _ ?_⟩
  rw [h.waiting_eq hj, retransmission_congr (h.ledger j hj)]
  exact List.mem_map_of_mem hserved

/-- Retransmission is bounded and fair. One call sends at most one catch-up request and at most
one chunk of messages, each about another eligible cell and saying what that cell holds; and the
calls that as many chunks as the eligible cells fill take serve all of them. -/
theorem resends_bounded_fair (P : Params) :
    (∀ (σ : St V) (peer : Nat), ∃ (learns : List (Envelope V)) (cells : List Nat),
      (resendTo P σ peer).effects.messages = σ.effects.messages ++ learns ++
        cells.map (fun cell => ⟨σ.node.id, peer, retransmission σ.node cell⟩) ∧
      learns.length ≤ 1 ∧
      (∀ e ∈ learns, ∃ slot count, e = ⟨σ.node.id, peer, .learn slot count⟩) ∧
      cells.length ≤ P.C ∧ cells.Nodup ∧
      ∀ cell ∈ cells, ∃ i, membershipIndexOf σ.node.membership peer = some i ∧
        cell ∈ eligible P σ.node (σ.node.peerDecidedThrough i)) ∧
    ∀ (peer i : Nat) (σ : Nat → St V),
      Consecutive P peer i
        (((eligible P (σ 0).node ((σ 0).node.peerDecidedThrough i)).card + P.C - 1) / P.C) σ →
      ∀ cell ∈ eligible P (σ 0).node ((σ 0).node.peerDecidedThrough i),
        ∃ j < ((eligible P (σ 0).node ((σ 0).node.peerDecidedThrough i)).card + P.C - 1) / P.C,
          ∃ sent, (resendTo P (σ j) peer).effects.messages = (σ j).effects.messages ++ sent ∧
            ⟨(σ j).node.id, peer, retransmission (σ 0).node cell⟩ ∈ sent := by
  constructor
  · intro σ peer
    cases hindex : membershipIndexOf σ.node.membership peer with
    | none =>
        refine ⟨[], [], ?_, by simp, by simp, Nat.zero_le _, List.nodup_nil, by simp⟩
        simp [resendTo, hindex]
    | some i =>
        obtain ⟨learns, hone, hlearn, hmessages⟩ := resendTo_messages (P := P) hindex
        refine ⟨learns, (waiting P σ.node i).take P.C, hmessages, hone, hlearn, ?_, ?_, ?_⟩
        · exact List.length_take_le _ _
        · exact (waiting_nodup σ.node).take
        · intro cell hcell
          exact ⟨i, rfl, mem_waiting.mp (List.mem_of_mem_take hcell)⟩
  · intro peer i σ h cell hcell
    exact h.serves hcell

end Calls

end PaxosOdin
