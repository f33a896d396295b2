import PaxosOdin.Acceptor.Fold
import PaxosOdin.Transition.Incarnation

/-!
# What an acceptor remembers

The records of a member, from its first incarnation on, are the log by which the others
know it.  Every record obeys a rule given the records before it, and the ledger of the
running node holds, for every live slot, at least what the log says about it.

Main results:

- Theorem `Remembers.open`: opening a free cell forgets nothing about a live slot.
- Theorem `Remembers.vote`: a vote that fits the log is remembered.
- Theorem `Remembers.vote_fits`: a vote that the code casts obeys the acceptor law.
-/

namespace PaxosOdin

variable {V : Type} {P : Params}

/-! ## The log of a member -/

/-- The log of a member, as the synod sees it. -/
abbrev Log (V : Type) := List (Synod.Entry Nat Nat V)

/-- The entry of a record; a trim is none of the synod's concern. -/
def Write.entry? : Write V → Option (Synod.Entry Nat Nat V)
  | .promise ballot => some (.promise ballot)
  | .promiseAt ballot slot => some (.promiseAt ballot slot)
  | .vote ballot slot value => some (.vote ballot slot value)
  | .chosen slot _ => some (.decided slot)
  | .trim _ => none

/-- The entries of a list of records. -/
def entries (records : List (Write V)) : Log V :=
  records.filterMap Write.entry?

/-- The slot an entry is about; zero for a promise for every decree. -/
def entrySlot : Synod.Entry Nat Nat V → Nat
  | .promise _ => 0
  | .promiseAt _ slot => slot
  | .vote _ slot _ => slot
  | .decided slot => slot

/-- The history of two journals, one after the other. -/
@[simp]
theorem entries_append (xs ys : List (Write V)) : entries (xs ++ ys) = entries xs ++ entries ys :=
  List.filterMap_append

/-- Rebinding a passed value changes no entry. -/
@[simp]
theorem entries_rebind (ws : List (Write V)) (slots : List Nat) (value : V) :
    entries (ws.map (Write.rebind slots value)) = entries ws := by
  unfold entries
  rw [List.filterMap_map]
  congr 1
  funext w
  cases w <;> rfl

/-- Every entry of the history comes from a record. -/
theorem mem_entries {ws : List (Write V)} {e : Synod.Entry Nat Nat V} :
    e ∈ entries ws ↔ ∃ w ∈ ws, w.entry? = some e :=
  List.mem_filterMap

/-- A promise of the history is a record. -/
@[simp]
theorem promise_mem_entries {ws : List (Write V)} {ballot : Nat} :
    .promise ballot ∈ entries ws ↔ .promise ballot ∈ ws := by
  rw [mem_entries]
  constructor
  · rintro ⟨w, hw, h⟩
    cases w <;> cases h
    exact hw
  · exact fun h => ⟨_, h, rfl⟩

/-- So is a promise for one slot. -/
@[simp]
theorem promiseAt_mem_entries {ws : List (Write V)} {ballot slot : Nat} :
    .promiseAt ballot slot ∈ entries ws ↔ .promiseAt ballot slot ∈ ws := by
  rw [mem_entries]
  constructor
  · rintro ⟨w, hw, h⟩
    cases w <;> cases h
    exact hw
  · exact fun h => ⟨_, h, rfl⟩

/-- So is a vote. -/
@[simp]
theorem vote_mem_entries {ws : List (Write V)} {ballot slot : Nat} {value : V} :
    .vote ballot slot value ∈ entries ws ↔ .vote ballot slot value ∈ ws := by
  rw [mem_entries]
  constructor
  · rintro ⟨w, hw, h⟩
    cases w <;> cases h
    exact hw
  · exact fun h => ⟨_, h, rfl⟩

/-- A decision of the history is a record with some value. -/
@[simp]
theorem decided_mem_entries {ws : List (Write V)} {slot : Nat} :
    .decided slot ∈ entries ws ↔ ∃ value, .chosen slot value ∈ ws := by
  rw [mem_entries]
  constructor
  · rintro ⟨w, hw, h⟩
    cases w <;> cases h
    exact ⟨_, hw⟩
  · rintro ⟨value, h⟩
    exact ⟨_, h, rfl⟩

/-- The rule of a log whose host has consumed the prefix `through`: the acceptor law, the
order in which cells are reused, and the window that every record but a decision stays in. -/
structure Rule (P : Params) (through : Nat) (before : Log V) (e : Synod.Entry Nat Nat V) : Prop where
  law : Synod.VoteLaw before e
  order : ∀ u, 0 < u → u + P.W ≤ entrySlot e → .decided u ∈ before
  live : (∀ b, e ≠ .promise b) → 0 < entrySlot e ∧
    (entrySlot e ≤ through + P.W ∨
      (e = .decided (entrySlot e) ∧ ∀ u, 0 < u → u < entrySlot e → .decided u ∈ before))

/-- What a host may do, it may do after it has consumed more. -/
theorem Rule.mono {through through' : Nat} {before : Log V} {e : Synod.Entry Nat Nat V}
    (h : Rule P through before e) (hle : through ≤ through') : Rule P through' before e :=
  ⟨h.law, h.order, fun hp => ⟨(h.live hp).1, (h.live hp).2.imp (fun hw => by omega) id⟩⟩

/-- A log in which every entry obeys the rule. -/
def Obeys (P : Params) (through : Nat) (log : Log V) : Prop :=
  Synod.Ruled (Rule P through) log

/-- The same of a whole log. -/
theorem Obeys.mono {through through' : Nat} {log : Log V} (h : Obeys P through log)
    (hle : through ≤ through') : Obeys P through' log :=
  fun before e after heq => (h before e after heq).mono hle

/-- A log that obeys is the history of an acceptor. -/
theorem Obeys.lawful {through : Nat} {log : Log V} (h : Obeys P through log) :
    Synod.Lawful log :=
  fun before e after heq => (h before e after heq).law

/-- A vote or a bounded promise stays in the window. -/
theorem Obeys.window {through : Nat} {log : Log V} (h : Obeys P through log)
    {e : Synod.Entry Nat Nat V} (he : e ∈ log) (hp : ∀ b, e ≠ .promise b)
    (hd : ∀ s, e ≠ .decided s) : 0 < entrySlot e ∧ entrySlot e ≤ through + P.W := by
  obtain ⟨before, after, rfl⟩ := List.append_of_mem he
  obtain ⟨hpos, hwin | ⟨heq, -⟩⟩ := (h before e after rfl).live hp
  · exact ⟨hpos, hwin⟩
  · exact absurd heq (hd _)

/-! ## The memory of a ledger -/

/-- What the ledger of a node with this memory floor and delivered prefix holds of the log. -/
structure Remembers (P : Params) (l : Ledger V) (floor delivered : Nat) (log : Log V) : Prop where
  promised : ∀ b, .promise b ∈ log → b ≤ l.promised
  held : ∀ s b, floor < s → (.promiseAt b s ∈ log ∨ ∃ v, .vote b s v ∈ log) →
    ((l.cellAt P s).slot = s ∧ b ≤ (l.cellAt P s).promisedAt) ∨ s < (l.cellAt P s).slot
  voted : ∀ s b v, floor < s → .vote b s v ∈ log → (l.cellAt P s).slot = s →
    (l.cellAt P s).state ≠ .empty ∧ ((l.cellAt P s).state = .voted →
      b < (l.cellAt P s).voteBallot ∨ (b = (l.cellAt P s).voteBallot ∧ v = (l.cellAt P s).value))
  cellVoted : ∀ i, (l.cells i).state = .voted →
    .vote (l.cells i).voteBallot (l.cells i).slot (l.cells i).value ∈ log
  cellChosen : ∀ i, (l.cells i).state = .chosen → .decided (l.cells i).slot ∈ log
  tagged : ∀ i, (l.cells i).slot ≠ 0 → cellOf (l.cells i).slot P.W = i
  free : ∀ i, (l.cells i).slot = 0 → (l.cells i).state = .empty
  bits : Bits l
  decided : ∀ u, 0 < u → u ≤ delivered → .decided u ∈ log

section Updates

variable {l : Ledger V} {floor delivered : Nat} {log : Log V}

/-- A used cell lies in the window array. -/
theorem Remembers.cell_lt (h : Remembers P l floor delivered log) {i : Nat}
    (hi : (l.cells i).state ≠ .empty) : i < P.W := by
  have h0 : (l.cells i).slot ≠ 0 := fun h0 => hi (h.free i h0)
  rw [← h.tagged i h0]
  exact cellOf_lt P _

/-- No record of a live slot is forgotten when its free cell is opened: there is none. -/
theorem Remembers.unrecorded (h : Remembers P l floor delivered log) {s slot b : Nat}
    (hlive : floor < s) (hcell : cellOf s P.W = cellOf slot P.W)
    (hfree : (l.cellAt P slot).slot = 0 ∨
      ((l.cellAt P slot).slot ≤ floor ∧ (l.cellAt P slot).state = .chosen)) :
    ¬ (.promiseAt b s ∈ log ∨ ∃ v, .vote b s v ∈ log) := by
  intro hrec
  have hheld := h.held s b hlive hrec
  simp only [Ledger.cellAt, hcell] at hheld hfree
  rcases hheld with ⟨hs, -⟩ | hs <;> rcases hfree with h0 | ⟨hle, -⟩ <;> omega

/-- A cell that is free, or that was released, may be opened. -/
theorem Remembers.open (h : Remembers P l floor delivered log) {slot : Nat}
    (hfree : (l.cellAt P slot).slot = 0 ∨
      ((l.cellAt P slot).slot ≤ floor ∧ (l.cellAt P slot).state = .chosen)) :
    Remembers P (ledgerOpen l (cellOf slot P.W) slot) floor delivered log := by
  refine ⟨h.promised, fun s b hs hrec => ?_, fun s b v hs hv => ?_, fun i => ?_, fun i => ?_,
    fun i => ?_, fun i => ?_, h.bits.open _ _, h.decided⟩
  · by_cases hcell : cellOf s P.W = cellOf slot P.W
    · exact absurd hrec (h.unrecorded hs hcell hfree)
    · simpa [Ledger.cellAt, ledgerOpen_cells, hcell] using h.held s b hs hrec
  · by_cases hcell : cellOf s P.W = cellOf slot P.W
    · exact absurd (Or.inr ⟨v, hv⟩) (h.unrecorded hs hcell hfree)
    · simpa [Ledger.cellAt, ledgerOpen_cells, hcell] using h.voted s b v hs hv
  · rw [ledgerOpen_cells]
    split_ifs with hi
    · exact fun hv => (by cases hv)
    · exact h.cellVoted i
  · rw [ledgerOpen_cells]
    split_ifs with hi
    · exact fun hv => (by cases hv)
    · exact h.cellChosen i
  · rw [ledgerOpen_cells]
    split_ifs with hi
    · exact fun _ => hi.symm
    · exact h.tagged i
  · rw [ledgerOpen_cells]
    split_ifs with hi
    · exact fun _ => rfl
    · exact h.free i

/-- A promise that is not lower than the last one. -/
theorem Remembers.promise (h : Remembers P l floor delivered log) {ballot : Nat}
    (hle : l.promised ≤ ballot) :
    Remembers P { l with promised := ballot } floor delivered (log ++ [.promise ballot]) := by
  refine ⟨fun b hb => ?_, fun s b hs hrec => h.held s b hs ?_, fun s b v hs hv => h.voted s b v hs ?_,
    fun i hi => ?_, fun i hi => ?_, h.tagged, h.free, ⟨h.bits.used, h.bits.chosen⟩,
    fun u hu hle => List.mem_append_left _ (h.decided u hu hle)⟩
  · rcases List.mem_append.mp hb with hb | hb
    · exact (h.promised b hb).trans hle
    · cases List.mem_singleton.mp hb
      exact le_rfl
  · simpa using hrec
  · simpa using hv
  · exact List.mem_append_left _ (h.cellVoted i hi)
  · exact List.mem_append_left _ (h.cellChosen i hi)

/-- A promise for one slot that is not lower than the last one there. -/
theorem Remembers.promiseAt (h : Remembers P l floor delivered log) {ballot slot : Nat}
    (hheld : (l.cellAt P slot).slot = slot) (hle : (l.cellAt P slot).promisedAt ≤ ballot) :
    Remembers P (ledgerSetPromiseAt l (cellOf slot P.W) ballot) floor delivered
      (log ++ [.promiseAt ballot slot]) := by
  refine ⟨fun b hb => h.promised b (by simpa using hb), fun s b hs hrec => ?_, fun s b v hs hv => ?_,
    fun i => ?_, fun i => ?_, fun i => ?_, fun i => ?_, h.bits.setPromiseAt _ _,
    fun u hu hle => List.mem_append_left _ (h.decided u hu hle)⟩
  · simp only [Ledger.cellAt, ledgerSetPromiseAt_cells]
    have hrec' : (.promiseAt b s ∈ log ∨ ∃ v, .vote b s v ∈ log) ∨ (b = ballot ∧ s = slot) := by
      rcases hrec with hrec | ⟨v, hrec⟩
      · rcases List.mem_append.mp hrec with hrec | hrec
        · exact Or.inl (Or.inl hrec)
        · cases List.mem_singleton.mp hrec
          exact Or.inr ⟨rfl, rfl⟩
      · rcases List.mem_append.mp hrec with hrec | hrec
        · exact Or.inl (Or.inr ⟨v, hrec⟩)
        · cases List.mem_singleton.mp hrec
    simp only [Ledger.cellAt] at hheld hle
    rcases hrec' with hold | ⟨rfl, rfl⟩
    · have hh := h.held s b hs hold
      simp only [Ledger.cellAt] at hh
      by_cases hcell : cellOf s P.W = cellOf slot P.W
      · rw [if_pos hcell]
        rw [hcell] at hh ⊢
        exact hh.imp (fun ⟨hs', hb⟩ => ⟨hs', hb.trans hle⟩) id
      · rw [if_neg hcell]
        exact hh
    · rw [if_pos rfl]
      exact Or.inl ⟨hheld, le_rfl⟩
  · simp only [Ledger.cellAt, ledgerSetPromiseAt_cells]
    exact h.voted s b v hs (by simpa using hv)
  all_goals simp only [ledgerSetPromiseAt_cells]
  · exact fun hi => List.mem_append_left _ (h.cellVoted i hi)
  · exact fun hi => List.mem_append_left _ (h.cellChosen i hi)
  · exact h.tagged i
  · exact h.free i

/-- A vote in the cell that holds its slot. -/
theorem Remembers.vote (h : Remembers P l floor delivered log) {promised ballot slot : Nat}
    {value : V} (hlive : floor < slot) (hheld : (l.cellAt P slot).slot = slot)
    (hopen : (l.cellAt P slot).state ≠ .chosen)
    (hle : (l.cellAt P slot).promisedAt ≤ promised) (hballot : ballot ≤ promised)
    (hfits : ∀ c w, .vote c slot w ∈ log → c < ballot ∨ (c = ballot ∧ w = value)) :
    Remembers P
      (ledgerRecordVote (ledgerSetPromiseAt l (cellOf slot P.W) promised) (cellOf slot P.W) ballot
        value) floor delivered (log ++ [.vote ballot slot value]) := by
  refine ⟨fun b hb => h.promised b (by simpa using hb), fun s b hs hrec => ?_, fun s b v hs hv => ?_,
    fun i => ?_, fun i => ?_, fun i => ?_, fun i => ?_,
    (h.bits.setPromiseAt _ _).recordVote (by simpa [ledgerSetPromiseAt_cells] using hopen),
    fun u hu hle => List.mem_append_left _ (h.decided u hu hle)⟩
  · simp only [Ledger.cellAt, ledgerVote_cells]
    have hrec' : (.promiseAt b s ∈ log ∨ ∃ v, .vote b s v ∈ log) ∨ (b = ballot ∧ s = slot) := by
      rcases hrec with hrec | ⟨v, hrec⟩
      · rcases List.mem_append.mp hrec with hrec | hrec
        · exact Or.inl (Or.inl hrec)
        · cases List.mem_singleton.mp hrec
      · rcases List.mem_append.mp hrec with hrec | hrec
        · exact Or.inl (Or.inr ⟨v, hrec⟩)
        · cases List.mem_singleton.mp hrec
          exact Or.inr ⟨rfl, rfl⟩
    simp only [Ledger.cellAt] at hheld hle
    rcases hrec' with hold | ⟨rfl, rfl⟩
    · have hh := h.held s b hs hold
      simp only [Ledger.cellAt] at hh
      by_cases hcell : cellOf s P.W = cellOf slot P.W
      · rw [if_pos hcell]
        rw [hcell] at hh ⊢
        exact hh.imp (fun ⟨hs', hb⟩ => ⟨hs', hb.trans hle⟩) id
      · rw [if_neg hcell]
        exact hh
    · rw [if_pos rfl]
      exact Or.inl ⟨hheld, hballot⟩
  · simp only [Ledger.cellAt, ledgerVote_cells]
    simp only [Ledger.cellAt] at hheld
    by_cases hcell : cellOf s P.W = cellOf slot P.W
    · rw [if_pos hcell]
      intro hs'
      have hslot : s = slot := hs'.symm.trans (hcell ▸ hheld)
      subst hslot
      refine ⟨fun he => (by cases he), fun _ => ?_⟩
      rcases List.mem_append.mp hv with hv | hv
      · exact hfits b v hv
      · cases List.mem_singleton.mp hv
        exact Or.inr ⟨rfl, rfl⟩
    · rw [if_neg hcell]
      rcases List.mem_append.mp hv with hv | hv
      · exact h.voted s b v hs hv
      · cases List.mem_singleton.mp hv
        exact absurd rfl hcell
  all_goals simp only [ledgerVote_cells]; split_ifs with hi
  · intro _
    rw [hi]
    simp only [Ledger.cellAt] at hheld
    simp [hheld]
  · exact fun hv => List.mem_append_left _ (h.cellVoted i hv)
  · exact fun hv => (by cases hv)
  · exact fun hv => List.mem_append_left _ (h.cellChosen i hv)
  · exact h.tagged i
  · exact h.tagged i
  · intro h0
    simp only [Ledger.cellAt] at hheld
    rw [hi, hheld] at h0
    omega
  · exact h.free i

/-- A decision in the cell that holds its slot. -/
theorem Remembers.choose (h : Remembers P l floor delivered log) {slot : Nat} {value : V}
    (hlive : floor < slot) (hheld : (l.cellAt P slot).slot = slot) :
    Remembers P (ledgerRecordChosen l (cellOf slot P.W) value) floor delivered
      (log ++ [.decided slot]) := by
  refine ⟨fun b hb => h.promised b (by simpa using hb), fun s b hs hrec => ?_, fun s b v hs hv => ?_,
    fun i => ?_, fun i => ?_, fun i => ?_, fun i => ?_, h.bits.recordChosen _ _,
    fun u hu hle => List.mem_append_left _ (h.decided u hu hle)⟩
  · simp only [Ledger.cellAt, ledgerRecordChosen_cells]
    exact h.held s b hs (by simpa using hrec)
  · simp only [Ledger.cellAt, ledgerRecordChosen_cells]
    have hh := h.voted s b v hs (by simpa using hv)
    by_cases hcell : cellOf s P.W = cellOf slot P.W
    · exact fun hs' => by simp [hcell]
    · simpa [Ledger.cellAt, hcell] using hh
  all_goals simp only [ledgerRecordChosen_cells]
  · split_ifs with hi
    · exact fun hv => (by cases hv)
    · exact fun hv => List.mem_append_left _ (h.cellVoted i hv)
  · split_ifs with hi
    · intro _
      simp only [Ledger.cellAt] at hheld
      simp [hi, hheld]
    · exact fun hv => List.mem_append_left _ (h.cellChosen i hv)
  · exact h.tagged i
  · split_ifs with hi
    · intro h0
      simp only [Ledger.cellAt] at hheld
      rw [hi, hheld] at h0
      omega
    · exact h.free i

/-- A decision that needs no cell. -/
theorem Remembers.pass (h : Remembers P l floor delivered log) :
    Remembers P l floor (delivered + 1) (log ++ [.decided (delivered + 1)]) := by
  refine ⟨fun b hb => h.promised b (by simpa using hb), fun s b hs hrec => h.held s b hs
    (by simpa using hrec), fun s b v hs hv => h.voted s b v hs (by simpa using hv),
    fun i hi => List.mem_append_left _ (h.cellVoted i hi),
    fun i hi => List.mem_append_left _ (h.cellChosen i hi), h.tagged, h.free, h.bits,
    fun u hu hle => ?_⟩
  rcases Nat.lt_or_eq_of_le hle with hlt | rfl
  · exact List.mem_append_left _ (h.decided u hu (Nat.le_of_lt_succ hlt))
  · simp

/-- A decision released from its cell. -/
theorem Remembers.deliver (h : Remembers P l floor delivered log)
    (hheld : (l.cellAt P (delivered + 1)).slot = delivered + 1)
    (hchosen : (l.cellAt P (delivered + 1)).state = .chosen) :
    Remembers P l floor (delivered + 1) log := by
  refine { h with decided := fun u hu hle => ?_ }
  rcases Nat.lt_or_eq_of_le hle with hlt | rfl
  · exact h.decided u hu (Nat.le_of_lt_succ hlt)
  · have := h.cellChosen _ hchosen
    rw [Ledger.cellAt] at hheld
    rwa [hheld] at this

/-- A vote that the checks of the code admit obeys the acceptor law. -/
theorem Remembers.vote_fits (h : Remembers P l floor delivered log) {ballot slot : Nat} (value : V)
    (hlive : floor < slot) (hheld : (l.cellAt P slot).slot = slot)
    (hopen : (l.cellAt P slot).state ≠ .chosen) (hglobal : l.promised ≤ ballot)
    (hlocal : (l.cellAt P slot).promisedAt ≤ ballot)
    (hsame : (l.cellAt P slot).state = .voted → (l.cellAt P slot).voteBallot = ballot →
      .vote ballot slot (l.cellAt P slot).value ∈ log → (l.cellAt P slot).value = value) :
    Synod.VoteLaw log (.vote ballot slot value) := by
  have hheld' : ∀ b, (.promiseAt b slot ∈ log ∨ ∃ v, .vote b slot v ∈ log) → b ≤ ballot := by
    intro b hb
    rcases h.held slot b hlive hb with ⟨-, hle⟩ | hlt
    · exact hle.trans hlocal
    · omega
  refine ⟨fun p hp => ?_, fun c w hw => ?_⟩
  · rcases hp with hp | hp
    · exact (h.promised p hp).trans hglobal
    · exact hheld' p (Or.inl hp)
  · obtain ⟨hne, hlast⟩ := h.voted slot c w hlive hw hheld
    have hstate : (l.cellAt P slot).state = .voted := by
      cases hs : (l.cellAt P slot).state with
      | empty => exact absurd hs hne
      | voted => rfl
      | chosen => exact absurd hs hopen
    have hmem := h.cellVoted _ hstate
    rw [Ledger.cellAt] at hheld
    rw [hheld] at hmem
    have hvb := hheld' _ (Or.inr ⟨_, hmem⟩)
    rcases hlast hstate with hlt | ⟨rfl, rfl⟩
    · exact Or.inl (Nat.lt_of_lt_of_le hlt hvb)
    · rcases Nat.lt_or_eq_of_le hvb with hlt | heq
      · exact Or.inl hlt
      · exact Or.inr ⟨heq, hsame hstate heq (heq ▸ hmem)⟩

end Updates

end PaxosOdin
