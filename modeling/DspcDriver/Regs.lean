import Mathlib.Data.BitVec

/-!
# Machine words and the constants of the headers

`uint32_t` is `Word`, `uint8_t` is `Byte`. The constants keep the names of `DPURegs.h`,
`bootLoader.h`, `bootLoader.c` and `LinkLayer.h`.
-/

namespace Dspc

abbrev Word := BitVec 32
abbrev Byte := BitVec 8

/-! ## `DPURegs.h` -/

def MAGIC_ADDR : Word := 0x0087FFFC
def BLOCK_TRANSFER_SIZE : Word := 0x100

def LL2_START : Word := 0x00800000
def MSMC_START : Word := 0x0C000000
def DDR_START : Word := 0x80000000

def PCIE_BASE_ADDRESS : Word := 0x21800000
def OB_SIZE : Nat := 0x30
def EP_IRQ_CLR : Nat := 0x68
def EP_IRQ_STATUS : Nat := 0x6C

def OB_OFFSET_INDEX (n : Nat) : Nat := 0x200 + 8 * n
def OB_OFFSET_HI (n : Nat) : Nat := 0x204 + 8 * n
def IB_BAR (n : Nat) : Nat := 0x300 + 0x10 * n
def IB_START_LO (n : Nat) : Nat := 0x304 + 0x10 * n
def IB_START_HI (n : Nat) : Nat := 0x308 + 0x10 * n
def IB_OFFSET (n : Nat) : Nat := 0x30C + 0x10 * n

def LEGACY_A_IRQ_STATUS_RAW : Nat := 0x180
def LEGACY_B_IRQ_STATUS_RAW : Nat := 0x190
def LEGACY_A_IRQ_ENABLE_SET : Nat := 0x188
def LEGACY_B_IRQ_ENABLE_SET : Nat := 0x198

def WTBUFLENGTH : Word := 2 * 4 * 1024
def RDBUFLENGTH : Word := 4 * 1024 * 1024 - 4 * 4 * 1024

/-! ## `bootLoader.h`, `bootLoader.c` -/

def DSP_INIT_READY : Word := 0x00000001
def DSP_GETCODE_RESET : Word := 0x00000001
def DSP_GETCODE_FINISH : Word := 0x00000010

def PC_PUSHCODE_RESET : Word := 0x00000001
def PC_PUSHCODE_FINISH : Word := 0x00000010

def REG_LEN : Word := 2 * 1024 * 4

def OB_MASK_ONE : Word := 0xFFF00000
def OB_MASK_TWO : Word := 0xFFE00000
def OB_MASK_FOUR : Word := 0xFFC00000
def OB_MASK_EIGHT : Word := 0xFF800000

def DMA_TRANSFER_SIZE : Word := 0x400000

/-! ## `LinkLayer.h` -/

def DSP_RD_RESET : Word := 0x000055aa
def DSP_RD_FINISH : Word := 0x550000aa
def PC_WT_RESET : Word := 0x0000aa55
def PC_WT_FINISH : Word := 0xaa000055

def PC_RD_RESET : Word := 0x000077bb
def PC_RD_FINISH : Word := 0x770000bb
def DSP_WT_RESET : Word := 0x0000bb77
def DSP_WT_FINISH : Word := 0xbb000077

/-- `LINKLAYER_IO_TYPE`. An `enum` parameter takes every `int` that a caller passes, so it is a
word, and the enumerators are constants. -/
abbrev LINKLAYER_IO_TYPE := Word

def LINKLAYER_IO_WRITE_RESET : LINKLAYER_IO_TYPE := 1
def LINKLAYER_IO_WRITE_QRESET : LINKLAYER_IO_TYPE := 2
def LINKLAYER_IO_WRITE_FIN : LINKLAYER_IO_TYPE := 3
def LINKLAYER_IO_WRITE_QFIN : LINKLAYER_IO_TYPE := 4
def LINKLAYER_IO_READ_RESET : LINKLAYER_IO_TYPE := 5
def LINKLAYER_IO_READ_QRESET : LINKLAYER_IO_TYPE := 6
def LINKLAYER_IO_READ_FIN : LINKLAYER_IO_TYPE := 7
def LINKLAYER_IO_READ_QFIN : LINKLAYER_IO_TYPE := 8

/-! ## Words as numbers -/

theorem toNat_low24 (w : Word) : (w &&& 0x00FFFFFF).toNat = w.toNat % 2 ^ 24 := by
  rw [BitVec.toNat_and, show (0x00FFFFFF : Word).toNat = 2 ^ 24 - 1 from rfl,
    Nat.and_two_pow_sub_one_eq_mod]

/-- Masking with ones above bit `k` clears the low `k` bits. -/
theorem toNat_and_ones_shl {k : Nat} {mask : Word} (hm : mask = BitVec.allOnes 32 <<< k) (w : Word) :
    (w &&& mask).toNat = w.toNat - w.toNat % 2 ^ k := by
  have hw : w &&& mask = (w >>> k) <<< k := by
    subst hm
    ext i hi
    simp only [BitVec.getElem_and, BitVec.getElem_shiftLeft, BitVec.getElem_allOnes]
    by_cases h : i < k
    · simp [h]
    · simp [h, show k + (i - k) = i by omega, BitVec.getLsbD_eq_getElem hi]
  have h1 := Nat.div_add_mod w.toNat (2 ^ k)
  have h2 := w.isLt
  rw [Nat.mul_comm] at h1
  rw [hw, BitVec.toNat_shiftLeft, BitVec.toNat_ushiftRight, Nat.shiftLeft_eq,
    Nat.shiftRight_eq_div_pow, Nat.mod_eq_of_lt (by omega)]
  omega

end Dspc
