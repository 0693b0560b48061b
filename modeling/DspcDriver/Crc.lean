import DspcDriver.Lib.Crc
import DspcDriver.Common

/-!
# `crc32.c`

The check of a byte string, once over a whole buffer (`crc32_getCrc`) and once byte by byte
(`crc32_initCrc`, `crc32_updataCrc`, `crc32_finalCrc`). Both take the step of `crc32Table`, and
`crc32Table_eq` is what the table has to be for that: entry `i` is the byte `i` at the top of the
register, divided over eight places.

* `crc32_reference`: both are the bitwise check with the generator `0x04C11DB7`, and equal.
* `crc32_detects_burst`: strings that differ only within 32 consecutive bits have different checks.
-/

namespace Dspc

open Lib

/-! ## `crc32_table.h` -/

set_option maxRecDepth 2000 in
def crc32Table : Vector Word 256 :=
  ⟨#[
    0x00000000, 0x04c11db7, 0x09823b6e, 0x0d4326d9, 0x130476dc, 0x17c56b6b, 0x1a864db2, 0x1e475005,
    0x2608edb8, 0x22c9f00f, 0x2f8ad6d6, 0x2b4bcb61, 0x350c9b64, 0x31cd86d3, 0x3c8ea00a, 0x384fbdbd,
    0x4c11db70, 0x48d0c6c7, 0x4593e01e, 0x4152fda9, 0x5f15adac, 0x5bd4b01b, 0x569796c2, 0x52568b75,
    0x6a1936c8, 0x6ed82b7f, 0x639b0da6, 0x675a1011, 0x791d4014, 0x7ddc5da3, 0x709f7b7a, 0x745e66cd,
    0x9823b6e0, 0x9ce2ab57, 0x91a18d8e, 0x95609039, 0x8b27c03c, 0x8fe6dd8b, 0x82a5fb52, 0x8664e6e5,
    0xbe2b5b58, 0xbaea46ef, 0xb7a96036, 0xb3687d81, 0xad2f2d84, 0xa9ee3033, 0xa4ad16ea, 0xa06c0b5d,
    0xd4326d90, 0xd0f37027, 0xddb056fe, 0xd9714b49, 0xc7361b4c, 0xc3f706fb, 0xceb42022, 0xca753d95,
    0xf23a8028, 0xf6fb9d9f, 0xfbb8bb46, 0xff79a6f1, 0xe13ef6f4, 0xe5ffeb43, 0xe8bccd9a, 0xec7dd02d,
    0x34867077, 0x30476dc0, 0x3d044b19, 0x39c556ae, 0x278206ab, 0x23431b1c, 0x2e003dc5, 0x2ac12072,
    0x128e9dcf, 0x164f8078, 0x1b0ca6a1, 0x1fcdbb16, 0x018aeb13, 0x054bf6a4, 0x0808d07d, 0x0cc9cdca,
    0x7897ab07, 0x7c56b6b0, 0x71159069, 0x75d48dde, 0x6b93dddb, 0x6f52c06c, 0x6211e6b5, 0x66d0fb02,
    0x5e9f46bf, 0x5a5e5b08, 0x571d7dd1, 0x53dc6066, 0x4d9b3063, 0x495a2dd4, 0x44190b0d, 0x40d816ba,
    0xaca5c697, 0xa864db20, 0xa527fdf9, 0xa1e6e04e, 0xbfa1b04b, 0xbb60adfc, 0xb6238b25, 0xb2e29692,
    0x8aad2b2f, 0x8e6c3698, 0x832f1041, 0x87ee0df6, 0x99a95df3, 0x9d684044, 0x902b669d, 0x94ea7b2a,
    0xe0b41de7, 0xe4750050, 0xe9362689, 0xedf73b3e, 0xf3b06b3b, 0xf771768c, 0xfa325055, 0xfef34de2,
    0xc6bcf05f, 0xc27dede8, 0xcf3ecb31, 0xcbffd686, 0xd5b88683, 0xd1799b34, 0xdc3abded, 0xd8fba05a,
    0x690ce0ee, 0x6dcdfd59, 0x608edb80, 0x644fc637, 0x7a089632, 0x7ec98b85, 0x738aad5c, 0x774bb0eb,
    0x4f040d56, 0x4bc510e1, 0x46863638, 0x42472b8f, 0x5c007b8a, 0x58c1663d, 0x558240e4, 0x51435d53,
    0x251d3b9e, 0x21dc2629, 0x2c9f00f0, 0x285e1d47, 0x36194d42, 0x32d850f5, 0x3f9b762c, 0x3b5a6b9b,
    0x0315d626, 0x07d4cb91, 0x0a97ed48, 0x0e56f0ff, 0x1011a0fa, 0x14d0bd4d, 0x19939b94, 0x1d528623,
    0xf12f560e, 0xf5ee4bb9, 0xf8ad6d60, 0xfc6c70d7, 0xe22b20d2, 0xe6ea3d65, 0xeba91bbc, 0xef68060b,
    0xd727bbb6, 0xd3e6a601, 0xdea580d8, 0xda649d6f, 0xc423cd6a, 0xc0e2d0dd, 0xcda1f604, 0xc960ebb3,
    0xbd3e8d7e, 0xb9ff90c9, 0xb4bcb610, 0xb07daba7, 0xae3afba2, 0xaafbe615, 0xa7b8c0cc, 0xa379dd7b,
    0x9b3660c6, 0x9ff77d71, 0x92b45ba8, 0x9675461f, 0x8832161a, 0x8cf30bad, 0x81b02d74, 0x857130c3,
    0x5d8a9099, 0x594b8d2e, 0x5408abf7, 0x50c9b640, 0x4e8ee645, 0x4a4ffbf2, 0x470cdd2b, 0x43cdc09c,
    0x7b827d21, 0x7f436096, 0x7200464f, 0x76c15bf8, 0x68860bfd, 0x6c47164a, 0x61043093, 0x65c52d24,
    0x119b4be9, 0x155a565e, 0x18197087, 0x1cd86d30, 0x029f3d35, 0x065e2082, 0x0b1d065b, 0x0fdc1bec,
    0x3793a651, 0x3352bbe6, 0x3e119d3f, 0x3ad08088, 0x2497d08d, 0x2056cd3a, 0x2d15ebe3, 0x29d4f654,
    0xc5a92679, 0xc1683bce, 0xcc2b1d17, 0xc8ea00a0, 0xd6ad50a5, 0xd26c4d12, 0xdf2f6bcb, 0xdbee767c,
    0xe3a1cbc1, 0xe760d676, 0xea23f0af, 0xeee2ed18, 0xf0a5bd1d, 0xf464a0aa, 0xf9278673, 0xfde69bc4,
    0x89b8fd09, 0x8d79e0be, 0x803ac667, 0x84fbdbd0, 0x9abc8bd5, 0x9e7d9662, 0x933eb0bb, 0x97ffad0c,
    0xafb010b1, 0xab710d06, 0xa6322bdf, 0xa2f33668, 0xbcb4666d, 0xb8757bda, 0xb5365d03, 0xb1f740b4], rfl⟩

/-! ## `crc32.c` -/

/-- The loop of `crc32_getCrc`; `none` if it reads past the end of `pSrc`. Each pass increments
`offset`, so `srcLength` passes reach its end. -/
def getCrcLoop (pSrc : List Byte) (srcLength : Word) : Nat → Word → Word → Option Word
  | 0, offset, crcState => if offset < srcLength then none else some crcState
  | fuel + 1, offset, crcState =>
    if offset < srcLength then
      match pSrc[offset.toNat]? with
      | none => none
      | some c =>
        let byte : Byte := ((crcState >>> 24) ^^^ c.setWidth 32).setWidth 8
        getCrcLoop pSrc srcLength fuel (offset + 1) (crc32Table[byte.toNat] ^^^ (crcState <<< 8))
    else some crcState

/-- `crc32_getCrc`: the value of `*pCrcVal`. -/
def crc32_getCrc (pSrc : List Byte) (srcLength : Word) : Option Word :=
  (getCrcLoop pSrc srcLength srcLength.toNat 0 0xFFFFFFFF).map (~~~ ·)

def crc32_initCrc : Word := 0xffffffff

def crc32_updataCrc (crcVal : Word) (charVal : Byte) : Word :=
  let byte : Byte := ((crcVal >>> 24) ^^^ charVal.setWidth 32).setWidth 8
  (crcVal <<< 8) ^^^ crc32Table[byte.toNat]

def crc32_finalCrc (crcVal : Word) : Word := ~~~crcVal

/-! ## The table -/

/-- The generator of the table, without its leading term. -/
def generator : Word := 0x04C11DB7

/-- The bits of a message in the order of transmission. -/
def messageBits (msg : List Byte) : List Bool := msg.flatMap Crc.msbBits

/-- The table, listed: comparing the lists passes over the table once. -/
theorem toList_crc32Table : crc32Table.toList =
    (List.range 256).map fun i => (Crc.shift generator)^[8] (BitVec.ofNat 32 i <<< (32 - 8)) := by
  decide +kernel

/-- **The table**: every entry is its index, divided bit by bit. -/
theorem crc32Table_eq (byte : Byte) :
    crc32Table[byte.toNat] = (Crc.shift generator)^[8] (Crc.load (Crc.msbBits byte)) := by
  have hlen : byte.toNat < crc32Table.toList.length := by
    rw [Vector.length_toList]
    exact byte.isLt
  rw [← Vector.getElem_toList hlen, List.getElem_of_eq toList_crc32Table hlen, List.getElem_map,
    List.getElem_range, Crc.load_msbBits (by decide), BitVec.ofNat_toNat]

/-- One byte is its eight bits. -/
theorem updataCrc_eq (crcVal : Word) (c : Byte) :
    crc32_updataCrc crcVal c = Crc.feeds generator crcVal (Crc.msbBits c) := by
  have hbyte : ((crcVal >>> 24) ^^^ c.setWidth 32).setWidth 8 =
      (crcVal >>> (32 - 8)).setWidth 8 ^^^ c := by
    simp [BitVec.setWidth_xor]
  rw [Crc.feeds_symbol (by decide), crc32_updataCrc]
  simp only [crc32Table_eq, hbyte]
  rw [BitVec.xor_comm]

theorem foldl_updataCrc (crcVal : Word) (msg : List Byte) :
    msg.foldl crc32_updataCrc crcVal = Crc.feeds generator crcVal (messageBits msg) := by
  induction msg generalizing crcVal with
  | nil => rfl
  | cons c msg ih =>
    have hbits : messageBits (c :: msg) = Crc.msbBits c ++ messageBits msg := rfl
    rw [List.foldl_cons, ih, updataCrc_eq, hbits, Crc.feeds_append]

/-! ## Both paths -/

/-- The loop from `offset` on takes the steps of the other path for the bytes that are left. -/
theorem getCrcLoop_eq {pSrc : List Byte} {srcLength offset : Word} {fuel : Nat} (crcState : Word)
    (hf : offset.toNat + fuel = srcLength.toNat) (hs : srcLength.toNat ≤ pSrc.length) :
    getCrcLoop pSrc srcLength fuel offset crcState =
      some (((pSrc.take srcLength.toNat).drop offset.toNat).foldl crc32_updataCrc crcState) := by
  induction fuel generalizing offset crcState with
  | zero =>
    have hnil : (pSrc.take srcLength.toNat).drop offset.toNat = [] :=
      List.drop_eq_nil_of_le (by rw [List.length_take]; omega)
    rw [getCrcLoop, if_neg (by rw [BitVec.lt_def]; omega), hnil]
    rfl
  | succ fuel ih =>
    have hlt : offset.toNat < srcLength.toNat := by omega
    have hget : offset.toNat < pSrc.length := by omega
    have hnext : (offset + 1).toNat = offset.toNat + 1 := toNat_succ_of_lt hlt
    have hcons : (pSrc.take srcLength.toNat).drop offset.toNat =
        pSrc[offset.toNat] :: (pSrc.take srcLength.toNat).drop (offset.toNat + 1) := by
      rw [List.drop_eq_getElem_cons (by rw [List.length_take]; omega), List.getElem_take]
    rw [getCrcLoop, if_pos (BitVec.lt_def.mpr hlt), List.getElem?_eq_getElem hget]
    simp only
    rw [ih _ (by omega), hnext, hcons, List.foldl_cons, BitVec.xor_comm]
    rfl

/-- The bitwise check of `crc32.c`: most significant bit first, from all ones, complemented. -/
def referenceCrc (msg : List Byte) : Word := Crc.crc generator 0xFFFFFFFF (messageBits msg)

theorem getCrc_eq (msg rest : List Byte) (h : msg.length < 2 ^ 32) :
    crc32_getCrc (msg ++ rest) (BitVec.ofNat 32 msg.length) = some (referenceCrc msg) := by
  have hlen : (BitVec.ofNat 32 msg.length).toNat = msg.length := by
    rw [BitVec.toNat_ofNat, Nat.mod_eq_of_lt h]
  have hloop : getCrcLoop (msg ++ rest) (BitVec.ofNat 32 msg.length) msg.length 0 0xFFFFFFFF =
      some ((((msg ++ rest).take (BitVec.ofNat 32 msg.length).toNat).drop (0 : Word).toNat).foldl
        crc32_updataCrc 0xFFFFFFFF) :=
    getCrcLoop_eq _ (by rw [hlen]; exact Nat.zero_add _) (by rw [hlen, List.length_append]; omega)
  rw [hlen, List.take_left, show (0 : Word).toNat = 0 from rfl, List.drop_zero,
    foldl_updataCrc] at hloop
  rw [crc32_getCrc, hlen, hloop]
  rfl

/-- **Both paths compute the reference check**, whatever memory follows the string. -/
theorem crc32_reference (msg rest : List Byte) (h : msg.length < 2 ^ 32) :
    crc32_getCrc (msg ++ rest) (BitVec.ofNat 32 msg.length) = some (referenceCrc msg) ∧
      crc32_finalCrc (msg.foldl crc32_updataCrc crc32_initCrc) = referenceCrc msg := by
  refine ⟨getCrc_eq msg rest h, ?_⟩
  rw [foldl_updataCrc]
  rfl

/-- The string `"123456789"` that check values are given for. -/
theorem crc32_reference_digits :
    crc32_getCrc ([0x31, 0x32, 0x33, 0x34, 0x35, 0x36, 0x37, 0x38, 0x39] ++ []) (BitVec.ofNat 32 9) =
        some (referenceCrc [0x31, 0x32, 0x33, 0x34, 0x35, 0x36, 0x37, 0x38, 0x39]) ∧
      crc32_finalCrc ([0x31, 0x32, 0x33, 0x34, 0x35, 0x36, 0x37, 0x38, 0x39].foldl crc32_updataCrc
        crc32_initCrc) = referenceCrc [0x31, 0x32, 0x33, 0x34, 0x35, 0x36, 0x37, 0x38, 0x39] :=
  crc32_reference [0x31, 0x32, 0x33, 0x34, 0x35, 0x36, 0x37, 0x38, 0x39] [] (by decide)

example : referenceCrc [0x31, 0x32, 0x33, 0x34, 0x35, 0x36, 0x37, 0x38, 0x39] = 0xFC891918 := by
  decide +kernel

/-! ## Bursts -/

theorem length_messageBits (msg : List Byte) : (messageBits msg).length = 8 * msg.length := by
  induction msg with
  | nil => rfl
  | cons c msg ih =>
    have hbits : messageBits (c :: msg) = Crc.msbBits c ++ messageBits msg := rfl
    rw [hbits, List.length_append, Crc.length_msbBits, ih, List.length_cons]
    omega

theorem messageBits_injective {xs ys : List Byte} (hl : xs.length = ys.length)
    (h : messageBits xs = messageBits ys) : xs = ys := by
  induction xs generalizing ys with
  | nil => exact (List.length_eq_zero_iff.mp hl.symm).symm
  | cons x xs ih =>
    obtain ⟨y, ys, rfl⟩ := List.exists_cons_of_length_eq_add_one hl.symm
    have happ : Crc.msbBits x ++ messageBits xs = Crc.msbBits y ++ messageBits ys := h
    obtain ⟨hx, hxs⟩ := List.append_inj happ (by simp)
    have hload := congrArg (Crc.load (w := 8)) hx
    rw [Crc.load_msbBits (Nat.le_refl 8), Crc.load_msbBits (Nat.le_refl 8)] at hload
    simp only [BitVec.setWidth_eq, Nat.sub_self, BitVec.shiftLeft_zero] at hload
    rw [hload, ih (by simpa using hl) hxs]

/-- **Every burst of up to 32 bits is detected**: strings of one length that differ, and whose bits
differ only in the 32 places from `s` on, have different checks. -/
theorem crc32_detects_burst {xs ys : List Byte} (hlen : xs.length = ys.length)
    (h32 : xs.length < 2 ^ 32) (hne : xs ≠ ys) (s : Nat)
    (hburst : ∀ i, (messageBits xs)[i]? ≠ (messageBits ys)[i]? → s ≤ i ∧ i < s + 32) :
    ∃ a b, crc32_getCrc xs (BitVec.ofNat 32 xs.length) = some a ∧
      crc32_getCrc ys (BitVec.ofNat 32 ys.length) = some b ∧ a ≠ b := by
  have hx := getCrc_eq xs [] h32
  have hy := getCrc_eq ys [] (hlen ▸ h32)
  rw [List.append_nil] at hx hy
  refine ⟨_, _, hx, hy, fun h => ?_⟩
  have hbits : (messageBits xs).length = (messageBits ys).length := by
    rw [length_messageBits, length_messageBits, hlen]
  exact Crc.feeds_ne_of_burst (by decide) (by decide) _ hbits
    (fun he => hne (messageBits_injective hlen he)) hburst (BitVec.not_inj.mp h)

/-- A burst of 16 bits that starts in the middle of a byte. -/
theorem crc32_detects_burst_unaligned :
    ∃ a b, crc32_getCrc [0x00, 0x00, 0x00] (BitVec.ofNat 32 3) = some a ∧
      crc32_getCrc [0x0F, 0xFF, 0xF0] (BitVec.ofNat 32 3) = some b ∧ a ≠ b := by
  refine @crc32_detects_burst [0x00, 0x00, 0x00] [0x0F, 0xFF, 0xF0] rfl (by decide) (by decide) 4
    fun i hi => ?_
  have hin : ∀ i < 24, (messageBits [0x00, 0x00, 0x00])[i]? ≠ (messageBits [0x0F, 0xFF, 0xF0])[i]? →
      4 ≤ i ∧ i < 4 + 32 := by decide
  by_cases h : i < 24
  · exact hin i h hi
  · refine absurd ?_ hi
    rw [List.getElem?_eq_none (by rw [length_messageBits]; exact Nat.le_of_not_lt h),
      List.getElem?_eq_none (by rw [length_messageBits]; exact Nat.le_of_not_lt h)]

end Dspc
