import Mathlib.Data.Finset.Card
import Mathlib.Data.Nat.Bitwise
import Mathlib.Tactic.Ring

/-!
# Packed words and checksums

The big-endian words of `struct.pack` and the checksum of `zlib.crc32`, as the storage
adapters use them.

Main results:

- Theorem `unpackUInt_packUInt`: a packed word is read back.
- Theorem `crc32_lt`: a checksum is a 32-bit word.
-/

namespace PaxosOdin

/-- One unsigned big-endian word of `width` bytes. -/
def packUInt : Nat → Nat → List UInt8
  | 0, _ => []
  | width + 1, n => UInt8.ofNat (n / 256 ^ width) :: packUInt width n

/-- The value of a big-endian word. -/
def unpackUInt (bytes : List UInt8) : Nat :=
  bytes.foldl (fun n b => n * 256 + b.toNat) 0

/-- A packed integer takes its width. -/
@[simp]
theorem packUInt_length (width n : Nat) : (packUInt width n).length = width := by
  induction width with
  | zero => rfl
  | succ width ih => simp [packUInt, ih]

/-- Reading the bytes back one by one gives the integer, cut to its width. -/
theorem unpackUInt_foldl (width n acc : Nat) :
    (packUInt width n).foldl (fun n b => n * 256 + b.toNat) acc =
      acc * 256 ^ width + n % 256 ^ width := by
  induction width generalizing acc with
  | zero => simp [packUInt, Nat.mod_one]
  | succ width ih =>
      simp only [packUInt, List.foldl_cons, ih, UInt8.toNat_ofNat']
      have hmod : n % 256 ^ (width + 1) =
          256 ^ width * (n / 256 ^ width % 256) + n % 256 ^ width := by
        rw [pow_succ, Nat.mod_mul, Nat.add_comm]
      have hpow : 256 ^ (width + 1) = 256 ^ width * 256 := pow_succ _ _
      rw [hmod, hpow, show (2 : Nat) ^ 8 = 256 from rfl]
      ring

/-- A packed word is read back. -/
theorem unpackUInt_packUInt {width n : Nat} (h : n < 256 ^ width) :
    unpackUInt (packUInt width n) = n := by
  unfold unpackUInt
  rw [unpackUInt_foldl, Nat.mod_eq_of_lt h, Nat.zero_mul, Nat.zero_add]

/-- One bit of the checksum, with the reflected polynomial. -/
def crcBit (crc : Nat) : Nat :=
  if crc % 2 = 1 then (crc / 2) ^^^ 0xEDB88320 else crc / 2

/-- One byte of the checksum. -/
def crcByte (crc : Nat) (b : UInt8) : Nat :=
  crcBit (crcBit (crcBit (crcBit (crcBit (crcBit (crcBit (crcBit (crc ^^^ b.toNat))))))))

/-- `zlib.crc32`. -/
def crc32 (bytes : List UInt8) : Nat :=
  (bytes.foldl crcByte 0xFFFFFFFF) ^^^ 0xFFFFFFFF

/-- One bit of the checksum keeps it within 32 bits. -/
theorem crcBit_lt {crc : Nat} (h : crc < 2 ^ 32) : crcBit crc < 2 ^ 32 := by
  unfold crcBit
  split_ifs
  · exact Nat.xor_lt_two_pow (by omega) (by decide)
  · omega

/-- So does one byte. -/
theorem crcByte_lt {crc : Nat} (h : crc < 2 ^ 32) (b : UInt8) : crcByte crc b < 2 ^ 32 := by
  unfold crcByte
  have hb : b.toNat < 2 ^ 32 := lt_trans b.toNat_lt (by decide)
  exact crcBit_lt (crcBit_lt (crcBit_lt (crcBit_lt (crcBit_lt (crcBit_lt (crcBit_lt (crcBit_lt
    (Nat.xor_lt_two_pow h hb))))))))

/-- A checksum is a 32-bit word. -/
theorem crc32_lt (bytes : List UInt8) : crc32 bytes < 2 ^ 32 := by
  have hfold : ∀ (bytes : List UInt8) {crc : Nat}, crc < 2 ^ 32 →
      bytes.foldl crcByte crc < 2 ^ 32 := by
    intro bytes
    induction bytes with
    | nil => exact fun h => h
    | cons b bytes ih => exact fun h => ih (crcByte_lt h b)
  exact Nat.xor_lt_two_pow (hfold bytes (by decide)) (by decide)

/-- The checksum of the check string of the standard. -/
example : crc32 [0x31, 0x32, 0x33, 0x34, 0x35, 0x36, 0x37, 0x38, 0x39] = 0xCBF43926 := by
  decide +kernel

end PaxosOdin
