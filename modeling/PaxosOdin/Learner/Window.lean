import Mathlib.Data.List.TakeWhile
import Mathlib.Order.Bounds.Basic
import PaxosOdin.Core.Messages

/-!
# The bounded learner

A non-voting learner that takes certified decisions in any order, releases the contiguous prefix, and
keeps each decision until the one a capacity later takes its cell.

Main definitions:

- Definition `learnerLearnChosen`: records one certified decision.
- Definitions `learnerReadChosen` and `learnerChosenAt`: what is still readable.
- Definition `Laid`: how the cells follow from the decisions that were fed.

Main results:

- Theorem `Laid.learn`: one decision.
- Theorem `Laid.unique`: the decisions determine the learner.
- Theorem `learner_order_independent`: the order of the decisions is immaterial.
-/

namespace PaxosOdin

variable {V : Type}

/-! ## The learner -/

/-- `Learn_Result`. -/
inductive LearnResult where
  | buffered
  | advanced
  | duplicate
deriving DecidableEq, Repr

/-- One slot-tagged window cell; slot zero represents an empty cell. -/
structure LearnerCell (V : Type) where
  slot : Nat := 0
  value : V
deriving DecidableEq

/-- `Learner`; the ring is a function of the cell index. -/
structure Learner (V : Type) where
  configurationId : Nat
  learned : Nat → LearnerCell V
  releasedThrough : Nat

def learnerInit [Inhabited V] (configurationId : Nat) : Except Error (Learner V) :=
  if configurationId = 0 then .error .invalidConfigurationId
  else
    .ok { configurationId := configurationId
          learned := fun _ => { value := default }
          releasedThrough := 0 }

def learnerCellIndex (slot capacity : Nat) : Nat :=
  slotSub slot 1 % capacity

/-- The loop that advances the contiguous prefix.  Each round releases the slot of another cell, so
one round for each cell reaches the loop's exit. -/
def advancePrefix (capacity : Nat) : Nat → Learner V → Learner V
  | 0, l => l
  | fuel + 1, l =>
      if l.releasedThrough < maxSlot then
        let next := l.releasedThrough + 1
        if (l.learned (learnerCellIndex next capacity)).slot ≠ next then l
        else advancePrefix capacity fuel { l with releasedThrough := next }
      else l

/-- Records one host-certified chosen value for this configuration. -/
def learnerLearnChosen [DecidableEq V] (capacity : Nat) (l : Learner V) (configurationId slot : Nat)
    (value : V) : Learner V × LearnResult × Error :=
  if configurationId ≠ l.configurationId then (l, .buffered, .configurationMismatch)
  else if slot = 0 then (l, .buffered, .invalidSlot)
  else
    let idx := learnerCellIndex slot capacity
    let cell := l.learned idx
    if slot ≤ l.releasedThrough then
      (l, .duplicate,
        if cell.slot = slot ∧ cell.value ≠ value then .conflictingChosenValue else .none)
    else if slot - l.releasedThrough > capacity then (l, .buffered, .windowFull)
    else if cell.slot = slot then
      (l, .duplicate, if cell.value ≠ value then .conflictingChosenValue else .none)
    else
      let stored := { l with learned := Function.update l.learned idx ⟨slot, value⟩ }
      let advanced := advancePrefix capacity capacity stored
      (advanced,
        if advanced.releasedThrough > l.releasedThrough then .advanced else .buffered, .none)

/-- Copies the contiguous chosen suffix from `fromSlot` on into a buffer of `room` entries. -/
def learnerReadChosen (capacity : Nat) (l : Learner V) (fromSlot room : Nat) :
    List (Nat × V) × Error :=
  if fromSlot = 0 then ([], .invalidSlot)
  else if fromSlot > l.releasedThrough then ([], .none)
  else if l.releasedThrough - fromSlot ≥ capacity then ([], .trimmed)
  else
    let count := l.releasedThrough - fromSlot + 1
    if room < count then ([], .readBufferTooSmall)
    else
      let output := (List.range' fromSlot count).mapM fun slot =>
        let cell := l.learned (learnerCellIndex slot capacity)
        if cell.slot ≠ slot then none else some (slot, cell.value)
      match output with
      | some output => (output, .none)
      | none => ([], .trimmed)

/-- Returns a released chosen value still resident in the window. -/
def learnerChosenAt (capacity : Nat) (l : Learner V) (slot : Nat) : Option V :=
  if slot = 0 ∨ slot > l.releasedThrough then none
  else
    let cell := l.learned (learnerCellIndex slot capacity)
    if cell.slot ≠ slot then none else some cell.value

/-! ## Runs -/

/-- A certified decision. -/
structure CertifiedDecision (V : Type) where
  slot : Nat
  value : V
  word : slot ≤ maxSlot

section Runs

variable [DecidableEq V]

/-- One decision of the learner's configuration is fed. -/
def Learner.learn (capacity : Nat) (l : Learner V) (d : CertifiedDecision V) : Learner V × LearnResult × Error :=
  learnerLearnChosen capacity l l.configurationId d.slot d.value

/-- Decisions are fed in order. -/
def Learner.learnAll (capacity : Nat) (l : Learner V) (ds : List (CertifiedDecision V)) : Learner V :=
  ds.foldl (fun l d => (l.learn capacity d).1) l

/-- No call is refused because the window is full. -/
def Learner.Fits (capacity : Nat) (l : Learner V) : List (CertifiedDecision V) → Prop
  | [] => True
  | d :: ds => (l.learn capacity d).2.2 ≠ .windowFull ∧ Learner.Fits capacity (l.learn capacity d).1 ds

end Runs

/-- No slot is decided twice. -/
def Consistent (ds : List (CertifiedDecision V)) : Prop :=
  ∀ d ∈ ds, ∀ e ∈ ds, d.slot = e.slot → d.value = e.value

/-- The lengths of the contiguous prefixes of what was fed. -/
def Prefixes (ds : List (CertifiedDecision V)) : Set Nat :=
  { n | ∀ slot, 1 ≤ slot → slot ≤ n → ∃ d ∈ ds, d.slot = slot }

/-! ## How the cells follow from the decisions -/

/-- A cell holds the greatest decision that was fed for it, or nothing. -/
def CellLaid [Inhabited V] (capacity : Nat) (ds : List (CertifiedDecision V)) (i : Nat) (cell : LearnerCell V) :
    Prop :=
  (cell = { value := default } ∧ ∀ e ∈ ds, 0 < e.slot → learnerCellIndex e.slot capacity ≠ i) ∨
    ∃ d ∈ ds, 0 < d.slot ∧ learnerCellIndex d.slot capacity = i ∧ cell = ⟨d.slot, d.value⟩ ∧
      ∀ e ∈ ds, 0 < e.slot → learnerCellIndex e.slot capacity = i → e.slot ≤ d.slot

/-- The learner after the decisions `ds`. -/
structure Laid [Inhabited V] (capacity : Nat) (ds : List (CertifiedDecision V)) (l : Learner V) : Prop where
  released : IsGreatest (Prefixes ds) l.releasedThrough
  cells : ∀ i, CellLaid capacity ds i (l.learned i)
  ahead : ∀ e ∈ ds, e.slot ≤ l.releasedThrough + capacity

variable {capacity : Nat} {ds : List (CertifiedDecision V)} {l : Learner V}

theorem learnerCellIndex_eq {slot : Nat} (hpos : 0 < slot) :
    learnerCellIndex slot capacity = (slot - 1) % capacity := by
  unfold learnerCellIndex
  rw [slotSub_of_le hpos]

/-- Two slots of one cell are a multiple of the capacity apart. -/
theorem learnerCellIndex_apart {s t : Nat} (hs : 0 < s) (hlt : s < t)
    (h : learnerCellIndex s capacity = learnerCellIndex t capacity) : s + capacity ≤ t := by
  rw [learnerCellIndex_eq hs, learnerCellIndex_eq (by omega)] at h
  have hdvd : capacity ∣ (t - 1) - (s - 1) :=
    Nat.dvd_of_mod_eq_zero (Nat.sub_mod_eq_zero_of_mod_eq h.symm)
  have hle := Nat.le_of_dvd (by omega) hdvd
  omega

theorem learnerCellIndex_add {s : Nat} (hs : 0 < s) :
    learnerCellIndex (s + capacity) capacity = learnerCellIndex s capacity := by
  rw [learnerCellIndex_eq hs, learnerCellIndex_eq (by omega)]
  have hsum : s + capacity - 1 = s - 1 + capacity := by omega
  rw [hsum, Nat.add_mod_right]

/-! ### Advancing -/

/-- What the loop does to the released prefix. -/
structure Advances (capacity : Nat) (l l' : Learner V) : Prop where
  learned : l'.learned = l.learned
  configurationId : l'.configurationId = l.configurationId
  le : l.releasedThrough ≤ l'.releasedThrough
  passed : ∀ slot, l.releasedThrough < slot → slot ≤ l'.releasedThrough →
    (l.learned (learnerCellIndex slot capacity)).slot = slot

/-- The loop stops where a cell does not hold the next slot, unless its rounds run out. -/
theorem advancePrefix_advances (fuel : Nat) (l : Learner V) :
    Advances capacity l (advancePrefix capacity fuel l) ∧
      ((advancePrefix capacity fuel l).releasedThrough = l.releasedThrough + fuel ∨
        ((advancePrefix capacity fuel l).releasedThrough < maxSlot →
          (l.learned (learnerCellIndex ((advancePrefix capacity fuel l).releasedThrough + 1)
            capacity)).slot ≠ (advancePrefix capacity fuel l).releasedThrough + 1)) := by
  have hstay : Advances capacity l l := ⟨rfl, rfl, le_rfl, fun slot hlt hle => by omega⟩
  induction fuel generalizing l with
  | zero => exact ⟨hstay, Or.inl rfl⟩
  | succ fuel ih =>
      unfold advancePrefix
      by_cases hmore : l.releasedThrough < maxSlot
      · rw [if_pos hmore]
        dsimp only
        by_cases hnext : (l.learned (learnerCellIndex (l.releasedThrough + 1) capacity)).slot ≠
            l.releasedThrough + 1
        · rw [if_pos hnext]
          exact ⟨hstay, Or.inr fun _ => hnext⟩
        · rw [if_neg hnext]
          rw [not_not] at hnext
          obtain ⟨⟨hlearned, hid, hle, hpassed⟩, hexit⟩ :=
            ih { l with releasedThrough := l.releasedThrough + 1 }
              ⟨rfl, rfl, le_rfl, fun slot hlt hle => by omega⟩
          dsimp only at hlearned hid hle hpassed hexit
          refine ⟨⟨hlearned, hid, by omega, fun slot hlt hslot => ?_⟩, hexit.imp_left (by omega)⟩
          rcases Nat.lt_or_ge (l.releasedThrough + 1) slot with hlater | hfirst
          · exact hpassed slot hlater hslot
          · obtain rfl : slot = l.releasedThrough + 1 := by omega
            exact hnext
      · rw [if_neg hmore]
        exact ⟨hstay, Or.inr fun h => absurd h hmore⟩

/-- One round for each cell is enough. -/
theorem advancePrefix_exit (hpos : 0 < capacity)
    (hmore : (advancePrefix capacity capacity l).releasedThrough < maxSlot) :
    (l.learned (learnerCellIndex ((advancePrefix capacity capacity l).releasedThrough + 1)
      capacity)).slot ≠ (advancePrefix capacity capacity l).releasedThrough + 1 := by
  obtain ⟨hadv, hfuel | hexit⟩ := @advancePrefix_advances _ capacity capacity l
  · have hfirst := hadv.passed (l.releasedThrough + 1) (by omega) (by omega)
    have hindex := @learnerCellIndex_add capacity (l.releasedThrough + 1) (by omega)
    have hsum : l.releasedThrough + capacity + 1 = l.releasedThrough + 1 + capacity := by omega
    rw [hfuel, hsum, hindex, hfirst]
    omega
  · exact hexit hmore

section Feeding

variable [Inhabited V]

/-- What was fed is fed again, or the slot is none. -/
theorem Laid.again (h : Laid capacity ds l) {d : CertifiedDecision V}
    (hd : d.slot = 0 ∨ ∃ e ∈ ds, e.slot = d.slot) : Laid capacity (ds ++ [d]) l := by
  have hslots : ∀ e ∈ ds ++ [d], 0 < e.slot → ∃ e' ∈ ds, e'.slot = e.slot := by
    intro e he hpos
    rcases List.mem_append.mp he with he | he
    · exact ⟨e, he, rfl⟩
    · obtain rfl := List.mem_singleton.mp he
      exact hd.resolve_left (by omega)
  have hprefixes : Prefixes (ds ++ [d]) = Prefixes ds := by
    ext n
    constructor
    · intro hn slot hpos hle
      obtain ⟨e, he, rfl⟩ := hn slot hpos hle
      exact hslots e he hpos
    · intro hn slot hpos hle
      obtain ⟨e, he, hslot⟩ := hn slot hpos hle
      exact ⟨e, List.mem_append_left _ he, hslot⟩
  refine ⟨hprefixes ▸ h.released, fun i => ?_, fun e he => ?_⟩
  · rcases h.cells i with ⟨hcell, hnone⟩ | ⟨d', hd', hpos, hindex, hcell, hgreatest⟩
    · refine Or.inl ⟨hcell, fun e he hpos => ?_⟩
      obtain ⟨e', he', hslot⟩ := hslots e he hpos
      rw [← hslot]
      exact hnone e' he' (by omega)
    · refine Or.inr ⟨d', List.mem_append_left _ hd', hpos, hindex, hcell, fun e he hpos hi => ?_⟩
      obtain ⟨e', he', hslot⟩ := hslots e he hpos
      rw [← hslot]
      exact hgreatest e' he' (by omega) (hslot ▸ hi)
  · rcases Nat.eq_zero_or_pos e.slot with hzero | hpos
    · omega
    · obtain ⟨e', he', hslot⟩ := hslots e he hpos
      rw [← hslot]
      exact h.ahead e' he'

/-- A decision that was fed and lies in the window is in its cell. -/
theorem Laid.resident (h : Laid capacity ds l) {e : CertifiedDecision V} (he : e ∈ ds)
    (habove : l.releasedThrough < e.slot) :
    (l.learned (learnerCellIndex e.slot capacity)).slot = e.slot := by
  rcases h.cells (learnerCellIndex e.slot capacity) with
    ⟨-, hnone⟩ | ⟨d, hd, hpos, hindex, hcell, hgreatest⟩
  · exact absurd rfl (hnone e he (by omega))
  · have hle := hgreatest e he (by omega) rfl
    have hbound := h.ahead d hd
    rw [hcell]
    rcases Nat.lt_or_eq_of_le hle with hlt | heq
    · have hfar := learnerCellIndex_apart (by omega) hlt hindex.symm
      omega
    · exact heq.symm

variable [DecidableEq V]

omit [DecidableEq V] in
/-- A new decision in the window is stored, and the prefix advances. -/
theorem Laid.store (hpos : 0 < capacity) (h : Laid capacity ds l) {d : CertifiedDecision V}
    (habove : l.releasedThrough < d.slot) (hwindow : d.slot ≤ l.releasedThrough + capacity) :
    Laid capacity (ds ++ [d])
      (advancePrefix capacity capacity
        { l with
          learned :=
            Function.update l.learned (learnerCellIndex d.slot capacity) ⟨d.slot, d.value⟩ }) := by
  generalize hstored : ({ l with
    learned := Function.update l.learned (learnerCellIndex d.slot capacity) ⟨d.slot, d.value⟩ } :
      Learner V) = stored
  have hreleased : stored.releasedThrough = l.releasedThrough := by rw [← hstored]
  have hahead : ∀ e ∈ ds ++ [d], e.slot ≤ l.releasedThrough + capacity := by
    intro e he
    rcases List.mem_append.mp he with he | he
    · exact h.ahead e he
    · rw [List.mem_singleton.mp he]
      exact hwindow
  have hcells : ∀ i, CellLaid capacity (ds ++ [d]) i (stored.learned i) := by
    intro i
    rw [← hstored]
    dsimp only
    by_cases hi : i = learnerCellIndex d.slot capacity
    · subst hi
      rw [Function.update_self]
      refine Or.inr ⟨d, by simp, by omega, rfl, rfl, fun e he _ hindex => ?_⟩
      rcases Nat.lt_or_ge d.slot e.slot with hlt | hge
      · have hfar := learnerCellIndex_apart (by omega) hlt hindex.symm
        have hbound := hahead e he
        omega
      · exact hge
    · rw [Function.update_of_ne hi]
      have hother : ∀ e ∈ ds ++ [d], learnerCellIndex e.slot capacity = i → e ∈ ds := by
        intro e he hindex
        rcases List.mem_append.mp he with he | he
        · exact he
        · rw [List.mem_singleton.mp he] at hindex
          exact absurd hindex.symm hi
      rcases h.cells i with ⟨hcell, hnone⟩ | ⟨d', hd', hpos', hindex, hcell, hgreatest⟩
      · exact Or.inl ⟨hcell, fun e he hpos hindex => hnone e (hother e he hindex) hpos hindex⟩
      · exact Or.inr ⟨d', List.mem_append_left _ hd', hpos', hindex, hcell,
          fun e he hpos hindex => hgreatest e (hother e he hindex) hpos hindex⟩
  obtain ⟨⟨hlearned, -, hle, hpassed⟩, -⟩ :=
    @advancePrefix_advances _ capacity capacity stored
  refine ⟨⟨fun slot hslot hle' => ?_, fun n hn => ?_⟩, fun i => by rw [hlearned]; exact hcells i,
    fun e he => (hahead e he).trans (by omega)⟩
  · rcases Nat.lt_or_ge l.releasedThrough slot with hlater | hbefore
    · have hcell := hpassed slot (by omega) hle'
      rcases hcells (learnerCellIndex slot capacity) with ⟨hempty, -⟩ | ⟨e, he, -, -, hfull, -⟩
      · rw [hempty] at hcell
        simp only at hcell
        omega
      · rw [hfull] at hcell
        exact ⟨e, he, hcell⟩
    · obtain ⟨e, he, heq⟩ := h.released.1 slot hslot hbefore
      exact ⟨e, List.mem_append_left _ he, heq⟩
  · by_contra hgt
    rw [not_le] at hgt
    obtain ⟨e, he, heq⟩ := hn ((advancePrefix capacity capacity stored).releasedThrough + 1)
      (by omega) hgt
    have hword := e.word
    refine advancePrefix_exit hpos (l := stored) (by omega) ?_
    rw [← heq]
    rcases hcells (learnerCellIndex e.slot capacity) with
      ⟨-, hnone⟩ | ⟨d', hd', -, hindex, hfull, hgreatest⟩
    · exact absurd rfl (hnone e he (by omega))
    · have hle' := hgreatest e he (by omega) rfl
      have hbound := hahead d' hd'
      rw [hfull]
      rcases Nat.lt_or_eq_of_le hle' with hlt | heq'
      · have hfar := learnerCellIndex_apart (by omega) hlt hindex.symm
        omega
      · exact heq'.symm

/-- One decision that is not refused. -/
theorem Laid.learn (hpos : 0 < capacity) (h : Laid capacity ds l) {d : CertifiedDecision V}
    (hfits : (l.learn capacity d).2.2 ≠ .windowFull) :
    Laid capacity (ds ++ [d]) (l.learn capacity d).1 := by
  unfold Learner.learn learnerLearnChosen at hfits ⊢
  dsimp only at hfits ⊢
  rw [if_neg (not_not.mpr rfl)] at hfits ⊢
  by_cases hzero : d.slot = 0
  · rw [if_pos hzero]
    exact h.again (Or.inl hzero)
  rw [if_neg hzero] at hfits ⊢
  by_cases hreleased : d.slot ≤ l.releasedThrough
  · rw [if_pos hreleased]
    exact h.again (Or.inr (h.released.1 d.slot (by omega) hreleased))
  rw [if_neg hreleased] at hfits ⊢
  by_cases hfull : d.slot - l.releasedThrough > capacity
  · rw [if_pos hfull] at hfits
    exact absurd rfl hfits
  rw [if_neg hfull]
  by_cases hcell : (l.learned (learnerCellIndex d.slot capacity)).slot = d.slot
  · rw [if_pos hcell]
    refine h.again (Or.inr ?_)
    rcases h.cells (learnerCellIndex d.slot capacity) with ⟨hempty, -⟩ | ⟨e, he, -, -, hheld, -⟩
    · rw [hempty] at hcell
      exact absurd hcell.symm hzero
    · rw [hheld] at hcell
      exact ⟨e, he, hcell⟩
  · rw [if_neg hcell]
    exact h.store hpos (by omega) (by omega)

/-- Decisions that are not refused, in order. -/
theorem Laid.learnAll (hpos : 0 < capacity) (h : Laid capacity ds l) {es : List (CertifiedDecision V)}
    (hfits : l.Fits capacity es) : Laid capacity (ds ++ es) (l.learnAll capacity es) := by
  induction es generalizing ds l with
  | nil =>
      rw [List.append_nil]
      exact h
  | cons e es ih =>
      have hnext := ih (h.learn hpos hfits.1) hfits.2
      rw [List.append_assoc] at hnext
      exact hnext

omit [DecidableEq V] in
theorem Laid.init {id : Nat} (hinit : learnerInit id = .ok l) : Laid capacity [] l := by
  unfold learnerInit at hinit
  split_ifs at hinit
  cases hinit
  refine ⟨⟨fun slot hpos hle => ?_, fun n hn => ?_⟩, fun i => Or.inl ⟨rfl, nofun⟩, nofun⟩
  · have hzero : slot ≤ 0 := hle
    omega
  · by_contra hgt
    obtain ⟨e, he, -⟩ := hn 1 le_rfl (not_le.mp hgt)
    cases he

omit [DecidableEq V] in
/-- The decisions determine the released prefix and every cell. -/
theorem Laid.unique {ds' : List (CertifiedDecision V)} {l' : Learner V} (h : Laid capacity ds l)
    (h' : Laid capacity ds' l') (hsame : ∀ d, d ∈ ds ↔ d ∈ ds') (hconsistent : Consistent ds)
    (hid : l.configurationId = l'.configurationId) : l = l' := by
  have hprefixes : Prefixes ds = Prefixes ds' := by
    ext n
    constructor
    · intro hn slot hpos hle
      obtain ⟨e, he, hslot⟩ := hn slot hpos hle
      exact ⟨e, (hsame e).mp he, hslot⟩
    · intro hn slot hpos hle
      obtain ⟨e, he, hslot⟩ := hn slot hpos hle
      exact ⟨e, (hsame e).mpr he, hslot⟩
  have hreleased : l.releasedThrough = l'.releasedThrough :=
    h.released.unique (hprefixes ▸ h'.released)
  have hcells : l.learned = l'.learned := by
    funext i
    rcases h.cells i with ⟨hcell, hnone⟩ | ⟨d, hd, hpos, hindex, hcell, hgreatest⟩ <;>
      rcases h'.cells i with ⟨hcell', hnone'⟩ | ⟨d', hd', hpos', hindex', hcell', hgreatest'⟩
    · rw [hcell, hcell']
    · exact absurd hindex' (hnone d' ((hsame d').mpr hd') hpos')
    · exact absurd hindex (hnone' d ((hsame d).mp hd) hpos)
    · have hle := hgreatest d' ((hsame d').mpr hd') hpos' hindex'
      have hge := hgreatest' d ((hsame d).mp hd) hpos hindex
      have hslot : d.slot = d'.slot := le_antisymm hge hle
      rw [hcell, hcell', hslot, hconsistent d hd d' ((hsame d').mpr hd') hslot]
  cases l
  cases l'
  simp only at hid hreleased hcells
  rw [hid, hreleased, hcells]

end Feeding

/-! ## What is readable -/

section Reading

variable [Inhabited V]

/-- A released slot is readable until the slot a capacity later is fed. -/
theorem Laid.chosenAt (hpos : 0 < capacity) (h : Laid capacity ds l) (hconsistent : Consistent ds)
    (slot : Nat) (value : V) :
    learnerChosenAt capacity l slot = some value ↔
      0 < slot ∧ slot ≤ l.releasedThrough ∧ (∃ d ∈ ds, d.slot = slot ∧ d.value = value) ∧
        ∀ d ∈ ds, d.slot ≠ slot + capacity := by
  unfold learnerChosenAt
  constructor
  · intro hchosen
    dsimp only at hchosen
    split_ifs at hchosen with hout hcell
    rw [not_or, not_lt] at hout
    rw [not_not] at hcell
    have hslot := Nat.pos_of_ne_zero hout.1
    rcases h.cells (learnerCellIndex slot capacity) with
      ⟨hempty, -⟩ | ⟨d, hd, -, hindex, hheld, hgreatest⟩
    · rw [hempty] at hcell
      exact absurd hcell.symm hout.1
    rw [hheld] at hcell hchosen
    refine ⟨hslot, hout.2, ⟨d, hd, hcell, Option.some.inj hchosen⟩, fun e he heq => ?_⟩
    have hle := hgreatest e he (by omega) (by rw [heq]; exact learnerCellIndex_add hslot)
    have hheldSlot : d.slot = slot := hcell
    omega
  · rintro ⟨hslot, hle, ⟨d, hd, rfl, rfl⟩, hevicted⟩
    rw [if_neg (by omega)]
    dsimp only
    have hcell : l.learned (learnerCellIndex d.slot capacity) = ⟨d.slot, d.value⟩ := by
      rcases h.cells (learnerCellIndex d.slot capacity) with
        ⟨-, hnone⟩ | ⟨e, he, -, hindex, hheld, hgreatest⟩
      · exact absurd rfl (hnone d hd hslot)
      have hge := hgreatest d hd hslot rfl
      rcases Nat.lt_or_eq_of_le hge with hlt | heq
      · have hfar := learnerCellIndex_apart hslot hlt hindex.symm
        have hne := hevicted e he
        -- the cell was retaken twice, so the slot a capacity later was released in between
        have hbound := h.ahead e he
        have hfar' := learnerCellIndex_apart (s := d.slot + capacity)
          (t := e.slot) (by omega) (by omega) (by rw [learnerCellIndex_add hslot, hindex])
        obtain ⟨e', he', heq'⟩ := h.released.1 (d.slot + capacity) (by omega) (by omega)
        exact absurd heq' (hevicted e' he')
      · rw [hheld, ← heq, hconsistent e he d hd heq.symm]
    rw [hcell, if_neg (not_not.mpr rfl)]

theorem mapM_congr {α β : Type} {f g : α → Option β} {as : List α} (h : ∀ a ∈ as, f a = g a) :
    as.mapM f = as.mapM g := by
  induction as with
  | nil => rfl
  | cons a as ih =>
      rw [List.mapM_cons, List.mapM_cons, h a (by simp), ih fun b hb => h b (by simp [hb])]

theorem mapM_none {α β : Type} {f : α → Option β} {as : List α} {a : α} (ha : a ∈ as)
    (h : f a = none) : as.mapM f = none := by
  induction as with
  | nil => cases ha
  | cons b as ih =>
      rw [List.mapM_cons]
      rcases List.mem_cons.mp ha with rfl | ha
      · rw [h]
        rfl
      · rw [ih ha]
        cases f b <;> rfl

/-- A read returns the released slots from `slot` on when each of them is readable, and fails
otherwise. -/
theorem Laid.readChosen (hpos : 0 < capacity) (h : Laid capacity ds l) (hconsistent : Consistent ds)
    {slot room : Nat} (hslot : 0 < slot) (hle : slot ≤ l.releasedThrough)
    (hroom : l.releasedThrough - slot + 1 ≤ room) :
    learnerReadChosen capacity l slot room =
      ((List.range' slot (l.releasedThrough - slot + 1)).mapM fun s =>
        (learnerChosenAt capacity l s).map fun v => (s, v)).elim ([], .trimmed)
          fun output => (output, .none) := by
  unfold learnerReadChosen
  rw [if_neg (by omega), if_neg (by omega)]
  by_cases hlong : l.releasedThrough - slot ≥ capacity
  · rw [if_pos hlong]
    have hgone : learnerChosenAt capacity l slot = none := by
      rw [Option.eq_none_iff_forall_ne_some]
      intro v hv
      obtain ⟨-, -, -, hevicted⟩ := (h.chosenAt hpos hconsistent slot v).mp hv
      obtain ⟨d, hd, heq⟩ := h.released.1 (slot + capacity) (by omega) (by omega)
      exact hevicted d hd heq
    rw [mapM_none (a := slot) (by rw [List.mem_range'_1]; omega) (by rw [hgone]; rfl)]
    rfl
  · rw [if_neg hlong]
    dsimp only
    rw [if_neg (by omega)]
    have hsame : (List.range' slot (l.releasedThrough - slot + 1)).mapM (fun s =>
          if (l.learned (learnerCellIndex s capacity)).slot ≠ s then none
          else some (s, (l.learned (learnerCellIndex s capacity)).value)) =
        (List.range' slot (l.releasedThrough - slot + 1)).mapM fun s =>
          (learnerChosenAt capacity l s).map fun v => (s, v) := by
      refine mapM_congr fun s hs => ?_
      rw [List.mem_range'_1] at hs
      have hout : ¬(s = 0 ∨ s > l.releasedThrough) := by omega
      unfold learnerChosenAt
      rw [if_neg hout]
      dsimp only
      split_ifs <;> rfl
    rw [hsame]
    cases (List.range' slot (l.releasedThrough - slot + 1)).mapM fun s =>
      (learnerChosenAt capacity l s).map fun v => (s, v) <;> rfl

end Reading

/-! ## The order of the decisions -/

section Order

variable [DecidableEq V]

/-- A refused call changes nothing, and no call moves the released prefix back. -/
theorem learnerLearnChosen_refused (l : Learner V) (configurationId slot : Nat) (value : V) :
    l.releasedThrough ≤ (learnerLearnChosen capacity l configurationId slot value).1.releasedThrough ∧
      ((learnerLearnChosen capacity l configurationId slot value).2.2 ≠ .none →
        (learnerLearnChosen capacity l configurationId slot value).1 = l) := by
  have hadvances := (@advancePrefix_advances _ capacity capacity
    { l with learned := Function.update l.learned (learnerCellIndex slot capacity) ⟨slot, value⟩ }).1
  unfold learnerLearnChosen
  dsimp only
  split_ifs <;> refine ⟨?_, fun herror => ?_⟩ <;> first
    | exact le_rfl
    | rfl
    | exact absurd rfl herror
    | exact hadvances.le

theorem Learner.learn_configurationId (l : Learner V) (d : CertifiedDecision V) :
    (l.learn capacity d).1.configurationId = l.configurationId := by
  have hadvances := (@advancePrefix_advances _ capacity capacity
    { l with
      learned := Function.update l.learned (learnerCellIndex d.slot capacity) ⟨d.slot, d.value⟩ }).1
  unfold Learner.learn learnerLearnChosen
  dsimp only
  split_ifs <;> first
    | rfl
    | exact hadvances.configurationId

theorem Learner.learnAll_configurationId (l : Learner V) (ds : List (CertifiedDecision V)) :
    (l.learnAll capacity ds).configurationId = l.configurationId := by
  induction ds generalizing l with
  | nil => rfl
  | cons d ds ih => exact (ih (l.learn capacity d).1).trans (l.learn_configurationId d)

/-- What a learner shows after the decisions `ds`: the released prefix is the contiguous prefix that
was fed, a released slot is readable with its own value until the slot a capacity later is fed, and a
read returns the readable suffix. -/
structure ReadsBack (capacity : Nat) (ds : List (CertifiedDecision V)) (l : Learner V) : Prop where
  released : IsGreatest (Prefixes ds) l.releasedThrough
  readable : ∀ slot value, learnerChosenAt capacity l slot = some value ↔
    0 < slot ∧ slot ≤ l.releasedThrough ∧ (∃ d ∈ ds, d.slot = slot ∧ d.value = value) ∧
      ∀ d ∈ ds, d.slot ≠ slot + capacity
  read : ∀ slot room, 0 < slot → slot ≤ l.releasedThrough → l.releasedThrough - slot + 1 ≤ room →
    learnerReadChosen capacity l slot room =
      ((List.range' slot (l.releasedThrough - slot + 1)).mapM fun s =>
        (learnerChosenAt capacity l s).map fun v => (s, v)).elim ([], .trimmed)
          fun output => (output, .none)

/-- Any two orders of the same decisions end in the same learner; at every moment it shows what was
fed; and a call that reports an error changes nothing. -/
theorem learner_order_independent [Inhabited V] {id : Nat} (hpos : 0 < capacity)
    (hinit : learnerInit id = .ok l) :
    (∀ ds ds', ds.Perm ds' → Consistent ds → l.Fits capacity ds → l.Fits capacity ds' →
        l.learnAll capacity ds = l.learnAll capacity ds') ∧
      (∀ ds, Consistent ds → l.Fits capacity ds → ReadsBack capacity ds (l.learnAll capacity ds)) ∧
      ∀ (l : Learner V) configurationId slot value,
        l.releasedThrough ≤
            (learnerLearnChosen capacity l configurationId slot value).1.releasedThrough ∧
          ((learnerLearnChosen capacity l configurationId slot value).2.2 ≠ .none →
            (learnerLearnChosen capacity l configurationId slot value).1 = l) := by
  have hlaid : ∀ ds, l.Fits capacity ds → Laid capacity ds (l.learnAll capacity ds) :=
    fun ds hfits => (Laid.init hinit).learnAll hpos hfits
  refine ⟨fun ds ds' hperm hconsistent hfits hfits' => ?_, fun ds hconsistent hfits => ?_,
    learnerLearnChosen_refused⟩
  · refine (hlaid ds hfits).unique (hlaid ds' hfits') (fun d => hperm.mem_iff) hconsistent ?_
    rw [Learner.learnAll_configurationId, Learner.learnAll_configurationId]
  · have h := hlaid ds hfits
    exact ⟨h.released, h.chosenAt hpos hconsistent, fun slot room => h.readChosen hpos hconsistent⟩

end Order

/-- A decision for one of the first slots. -/
def decided (slot value : Nat) (h : slot ≤ maxSlot) : CertifiedDecision Nat :=
  ⟨slot, value, h⟩

/-- The second slot before the first, and in order. -/
theorem learner_two_orders :
    ∃ l : Learner Nat, learnerInit 7 = .ok l ∧
      l.learnAll 4 [decided 2 22 (by decide), decided 1 11 (by decide)] =
        l.learnAll 4 [decided 1 11 (by decide), decided 2 22 (by decide)] := by
  refine ⟨_, rfl, (@learner_order_independent Nat 4 _ _ _ 7 (by decide) rfl).1 _ _
    (List.Perm.swap _ _ _) ?_ ?_ ?_⟩
  · unfold Consistent
    decide
  · exact ⟨by decide, by decide, trivial⟩
  · exact ⟨by decide, by decide, trivial⟩

end PaxosOdin
