import PaxosOdin.Storage.Pack

/-!
# Records of packed words

A record is a row of unsigned big-endian words of given widths, as `struct.Struct` packs them.  A word
that does not fit its width is refused; what was packed is read back, whatever follows it.

Main definitions:

- Definition `Layout.Fits`: the words that a layout can pack.
- Definitions `Layout.pack` and `Layout.unpack`: the two directions.

Main results:

- Theorem `Layout.unpack_pack`: the words are read back.
- Theorem `Layout.unpack_fits`: whatever is read can be packed.
-/

namespace PaxosOdin

theorem unpackUInt_foldl_lt (bytes : List UInt8) {acc bound : Nat} (h : acc < bound) :
    bytes.foldl (fun n b => n * 256 + b.toNat) acc < bound * 256 ^ bytes.length := by
  induction bytes generalizing acc bound with
  | nil => simpa using h
  | cons b bytes ih =>
      have hb : b.toNat < 256 := b.toNat_lt
      have hstep : acc * 256 + b.toNat < bound * 256 := by omega
      have hrest := ih hstep
      rw [List.foldl_cons, List.length_cons, pow_succ, Nat.mul_comm (256 ^ bytes.length),
        ← Nat.mul_assoc]
      exact hrest

/-- A word is below the power of its width. -/
theorem unpackUInt_lt {bytes : List UInt8} {width : Nat} (h : bytes.length ≤ width) :
    unpackUInt bytes < 256 ^ width := by
  have hlt := unpackUInt_foldl_lt bytes Nat.zero_lt_one
  rw [Nat.one_mul] at hlt
  exact Nat.lt_of_lt_of_le hlt (Nat.pow_le_pow_right (by decide) h)

/-- The widths of the words of a record, in bytes. -/
abbrev Layout := List Nat

namespace Layout

/-- Every word fits its width, and no word is missing. -/
def Fits : Layout → List Nat → Prop
  | [], [] => True
  | width :: widths, n :: ns => n < 256 ^ width ∧ Fits widths ns
  | _, _ => False

instance decidableFits : (widths : Layout) → (ns : List Nat) → Decidable (Fits widths ns)
  | [], [] => .isTrue trivial
  | width :: widths, n :: ns =>
      have := decidableFits widths ns
      inferInstanceAs (Decidable (n < 256 ^ width ∧ Fits widths ns))
  | [], _ :: _ => .isFalse id
  | _ :: _, [] => .isFalse id

/-- The packed words. -/
def pack : Layout → List Nat → List UInt8
  | width :: widths, n :: ns => packUInt width n ++ pack widths ns
  | _, _ => []

/-- The words at the start of some bytes. -/
def unpack : Layout → List UInt8 → List Nat
  | [], _ => []
  | width :: widths, bytes => unpackUInt (bytes.take width) :: unpack widths (bytes.drop width)

theorem pack_length {widths : Layout} {ns : List Nat} (h : Fits widths ns) :
    (pack widths ns).length = widths.sum := by
  induction widths generalizing ns with
  | nil =>
      cases ns with
      | nil => rfl
      | cons n ns => exact h.elim
  | cons width widths ih =>
      cases ns with
      | nil => exact h.elim
      | cons n ns => simp [pack, ih h.2]

/-- Packed words are read back, whatever follows them. -/
theorem unpack_pack {widths : Layout} {ns : List Nat} (h : Fits widths ns) (rest : List UInt8) :
    unpack widths (pack widths ns ++ rest) = ns := by
  induction widths generalizing ns with
  | nil =>
      cases ns with
      | nil => rfl
      | cons n ns => exact h.elim
  | cons width widths ih =>
      cases ns with
      | nil => exact h.elim
      | cons n ns =>
          simp only [pack, unpack, List.append_assoc]
          rw [List.take_left' (packUInt_length width n), List.drop_left' (packUInt_length width n),
            unpackUInt_packUInt h.1, ih h.2]

/-- Whatever is read can be packed. -/
theorem unpack_fits (widths : Layout) (bytes : List UInt8) : Fits widths (unpack widths bytes) := by
  induction widths generalizing bytes with
  | nil => trivial
  | cons width widths ih =>
      constructor
      · apply unpackUInt_lt
        rw [List.length_take]
        exact min_le_left _ _
      · exact ih (bytes.drop width)

end Layout

end PaxosOdin
