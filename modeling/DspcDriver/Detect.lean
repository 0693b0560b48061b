import DspcDriver.Crc
import DspcDriver.Lib.Period
import Mathlib.Tactic.NormNum.Prime

/-!
# What `crc32.c` detects

`crc32_two_bits_iff`: two strings that differ in two bits have the same check exactly if the distance
of the bits is a multiple of `2^32 - 1`, the period of the generator, so in no string of less than
512 MiB.

`crc32_residue_iff`: a string that ends with four bytes has the check `residue` exactly if these are the
check of the bytes before them, most significant byte first: the test of a receiver that runs over
string and check alike.
-/

namespace Dspc

open Lib

/-! ## Two bits -/

/-- The primes of `2^32 - 1`. -/
theorem prime_dvd_iff {q : Nat} (hq : q.Prime) (h : q ∣ 2 ^ 32 - 1) :
    q = 3 ∨ q = 5 ∨ q = 17 ∨ q = 257 ∨ q = 65537 := by
  have hp : Nat.Prime 3 ∧ Nat.Prime 5 ∧ Nat.Prime 17 ∧ Nat.Prime 257 ∧ Nat.Prime 65537 := by
    norm_num
  obtain ⟨h3, h5, h17, h257, h65537⟩ := hp
  rw [show 2 ^ 32 - 1 = 3 * (5 * (17 * (257 * 65537))) from rfl] at h
  simpa only [hq.dvd_mul, Nat.prime_dvd_prime_iff_eq hq h3, Nat.prime_dvd_prime_iff_eq hq h5,
    Nat.prime_dvd_prime_iff_eq hq h17, Nat.prime_dvd_prime_iff_eq hq h257,
    Nat.prime_dvd_prime_iff_eq hq h65537] using h

/-- `x` has the full period modulo the generator. -/
theorem minimalPeriod_generator : Function.minimalPeriod (Crc.shift generator) 1 = 2 ^ 32 - 1 := by
  have hpow : ∀ n < 2 ^ 32, (Crc.shift generator)^[n] 1 = Crc.xpow generator 32 n :=
    fun n hn => (Crc.xpow_eq hn).symm
  refine Crc.minimalPeriod_eq (by decide) ?_ fun q hq hd => ?_
  · rw [hpow _ (by decide)]
    decide +kernel
  · obtain rfl | rfl | rfl | rfl | rfl := prime_dvd_iff hq hd <;> rw [hpow _ (by decide)] <;>
      decide +kernel

/-- **Two wrong bits**: strings of one length that differ in the bits `i` and `j`, and in no other, have
the same check exactly if `2^32 - 1` divides the distance of the two. -/
theorem crc32_two_bits_iff {xs ys : List Byte} (hlen : xs.length = ys.length)
    (h32 : xs.length < 2 ^ 32) {i j : Nat} (hij : i < j)
    (hdiff : ∀ k, (messageBits xs)[k]? ≠ (messageBits ys)[k]? ↔ k = i ∨ k = j) :
    ∃ a b, crc32_getCrc xs (BitVec.ofNat 32 xs.length) = some a ∧
      crc32_getCrc ys (BitVec.ofNat 32 ys.length) = some b ∧ (a = b ↔ 2 ^ 32 - 1 ∣ j - i) := by
  have hx := getCrc_eq xs [] h32
  have hy := getCrc_eq ys [] (hlen ▸ h32)
  rw [List.append_nil] at hx hy
  refine ⟨_, _, hx, hy, ?_⟩
  have hbits : (messageBits xs).length = (messageBits ys).length := by
    rw [length_messageBits, length_messageBits, hlen]
  have h := Crc.feeds_eq_iff_two (by decide) (by decide) (0xFFFFFFFF : Word) hbits hij hdiff
    (g := generator)
  rw [minimalPeriod_generator] at h
  rw [referenceCrc, referenceCrc, Crc.crc, Crc.crc, BitVec.not_inj, h]

/-- The first and the last bit of two bytes. -/
theorem crc32_two_bits_iff_short :
    ∃ a b, crc32_getCrc [0x00, 0x00] (BitVec.ofNat 32 2) = some a ∧
      crc32_getCrc [0x80, 0x01] (BitVec.ofNat 32 2) = some b ∧ (a = b ↔ 2 ^ 32 - 1 ∣ 15 - 0) := by
  refine @crc32_two_bits_iff [0x00, 0x00] [0x80, 0x01] rfl (by decide) 0 15 (by decide) fun k => ?_
  have hin : ∀ k < 16, (messageBits [0x00, 0x00])[k]? ≠ (messageBits [0x80, 0x01])[k]? ↔
      k = 0 ∨ k = 15 := by decide
  by_cases h : k < 16
  · exact hin k h
  · rw [List.getElem?_eq_none (by rw [length_messageBits]; exact Nat.le_of_not_lt h),
      List.getElem?_eq_none (by rw [length_messageBits]; exact Nat.le_of_not_lt h)]
    simp only [ne_eq, not_true_eq_false, false_iff]
    omega

/-! ## The check behind its string -/

/-- The check of a string with its own check behind it. -/
def residue : Word := ~~~(Crc.shift generator)^[32] 0xFFFFFFFF

/-- Bytes are in the order of transmission with the most significant first. -/
theorem messageBits_wordBytes (v : Word) : messageBits (wordBytes v) = Crc.msbBits v := by
  simp [messageBits, wordBytes, Crc.msbBits, List.range_succ, BitVec.getMsbD_eq_getLsbD]

/-- The four bytes of a word, behind a string: the word is added to the register. -/
theorem referenceCrc_append (msg : List Byte) (v : Word) :
    referenceCrc (msg ++ wordBytes v) = ~~~(Crc.shift generator)^[32] (~~~referenceCrc msg ^^^ v) := by
  have happ : messageBits (msg ++ wordBytes v) = messageBits msg ++ Crc.msbBits v := by
    rw [← messageBits_wordBytes, messageBits, messageBits, messageBits, List.flatMap_append]
  have hload : (Crc.load (Crc.msbBits v) : Word) = v := by
    rw [Crc.load_msbBits (Nat.le_refl 32)]
    simp
  rw [referenceCrc, Crc.crc, happ, Crc.feeds_append, Crc.feeds_eq_load _ (by simp), hload,
    Crc.length_msbBits, referenceCrc, Crc.crc, BitVec.not_not]

/-- **The test of a receiver**: a string and a word behind it have the check `residue` exactly if the word
is the check of the string. -/
theorem crc32_residue_iff (msg rest : List Byte) (v : Word) (h : msg.length + 4 < 2 ^ 32) :
    crc32_getCrc (msg ++ wordBytes v ++ rest) (BitVec.ofNat 32 (msg.length + 4)) = some residue ↔
      crc32_getCrc (msg ++ wordBytes v ++ rest) (BitVec.ofNat 32 msg.length) = some v := by
  have hlong := getCrc_eq (msg ++ wordBytes v) rest (by simpa using h)
  have hshort := getCrc_eq msg (wordBytes v ++ rest) (by omega)
  rw [List.length_append, length_wordBytes] at hlong
  rw [← List.append_assoc] at hshort
  rw [hlong, hshort, Option.some.injEq, Option.some.injEq, referenceCrc_append, residue,
    BitVec.not_inj, (Crc.shifts_injective (by decide) 32).eq_iff]
  -- the two parts of the difference cancel where the word is the check
  have hself : ~~~referenceCrc msg ^^^ referenceCrc msg = BitVec.allOnes 32 := by
    ext i hi
    rw [BitVec.getElem_allOnes, BitVec.getElem_xor, BitVec.getElem_not]
    cases (referenceCrc msg)[i] <;> rfl
  rw [show BitVec.allOnes 32 = 0xFFFFFFFF from rfl] at hself
  rw [← hself, BitVec.xor_right_inj, eq_comm]

/-- The string `"123456789"` again. -/
theorem crc32_residue_iff_digits :
    crc32_getCrc ([0x31, 0x32, 0x33, 0x34, 0x35, 0x36, 0x37, 0x38, 0x39] ++ wordBytes 0xFC891918 ++ [])
          (BitVec.ofNat 32 (9 + 4)) = some residue ↔
      crc32_getCrc ([0x31, 0x32, 0x33, 0x34, 0x35, 0x36, 0x37, 0x38, 0x39] ++ wordBytes 0xFC891918 ++ [])
          (BitVec.ofNat 32 9) = some 0xFC891918 :=
  crc32_residue_iff [0x31, 0x32, 0x33, 0x34, 0x35, 0x36, 0x37, 0x38, 0x39] [] 0xFC891918 (by decide)

example : residue = 0x38FB2284 := by decide +kernel

end Dspc
