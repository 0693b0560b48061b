import DspcDriver.Lib.Stores
import DspcDriver.Regs

/-!
# The shared zone

`bootLoader` derives the register table and the image zone from the DMA buffer, and `dspMemoryMap`
shows the DSP a window of the host's memory. Both round the physical address of the buffer down, the
first to 1 MiB, the second to the window size.

* `outbound_dspMemoryMap`: the window that `dspMemoryMap` sets up, for every size that it takes.
* `agree_iff`: host and DSP mean the same bytes, inside the buffer, exactly if the physical address is
  a multiple of the 4 MiB window.
-/

namespace Dspc

open Lib

/-! ## `dspMemoryMap` -/

/-- `obSize` and `baseMask` for a window of `size` bytes; `none` where `retValue` becomes -1. -/
def obWindow (size : Word) : Option (Word × Word) :=
  if size ≤ 0x100000 then some (0x0, OB_MASK_ONE)
  else if size ≤ 0x200000 then some (0x1, OB_MASK_TWO)
  else if size ≤ 0x400000 then some (0x2, OB_MASK_FOUR)
  else if size ≤ 0x800000 then some (0x3, OB_MASK_EIGHT)
  else none

/-- `dspMemoryMap`: the value returned and the writes to the application registers, by byte
offset. -/
def dspMemoryMap (pcAddr size : Word) : Int × List (Nat × Word) :=
  match obWindow size with
  | some (obSize, baseMask) =>
    let pageBase := pcAddr &&& baseMask
    (0, [(OB_SIZE, obSize), (OB_OFFSET_INDEX 0, pageBase ||| 0x1), (OB_OFFSET_HI 0, 0x0)])
  | none => (-1, [])

/-- The physical address that the DSP reaches at offset `o` of outbound window 0: the offset
registers above the window size, then `o`. -/
def outbound (reg : Nat → Word) (o : Nat) : Nat :=
  (reg (OB_OFFSET_HI 0)).toNat * 2 ^ 32 +
    (reg (OB_OFFSET_INDEX 0)).toNat / 2 ^ (20 + (reg OB_SIZE).toNat) * 2 ^ (20 + (reg OB_SIZE).toNat) + o

/-- Which window `size` gets, by the four bounds. -/
theorem obWindow_cases (size : Word) :
    (size.toNat ≤ 2 ^ 20 ∧ obWindow size = some (0x0, OB_MASK_ONE)) ∨
    (2 ^ 20 < size.toNat ∧ size.toNat ≤ 2 ^ 21 ∧ obWindow size = some (0x1, OB_MASK_TWO)) ∨
    (2 ^ 21 < size.toNat ∧ size.toNat ≤ 2 ^ 22 ∧ obWindow size = some (0x2, OB_MASK_FOUR)) ∨
    (2 ^ 22 < size.toNat ∧ size.toNat ≤ 2 ^ 23 ∧ obWindow size = some (0x3, OB_MASK_EIGHT)) ∨
    (2 ^ 23 < size.toNat ∧ obWindow size = none) := by
  have hle (n : Word) : size ≤ n ↔ size.toNat ≤ n.toNat := BitVec.le_def
  simp only [obWindow, hle, show (0x100000 : Word).toNat = 2 ^ 20 from rfl,
    show (0x200000 : Word).toNat = 2 ^ 21 from rfl, show (0x400000 : Word).toNat = 2 ^ 22 from rfl,
    show (0x800000 : Word).toNat = 2 ^ 23 from rfl]
  split
  · exact .inl ⟨‹_›, rfl⟩
  · split
    · exact .inr (.inl ⟨by omega, ‹_›, rfl⟩)
    · split
      · exact .inr (.inr (.inl ⟨by omega, ‹_›, rfl⟩))
      · split
        · exact .inr (.inr (.inr (.inl ⟨by omega, ‹_›, rfl⟩)))
        · exact .inr (.inr (.inr (.inr ⟨by omega, rfl⟩)))

/-- The mask and the size code of a window belong together, and the window has the size asked
for. -/
theorem obWindow_some {size obSize baseMask : Word} (h : obWindow size = some (obSize, baseMask)) :
    baseMask = BitVec.allOnes 32 <<< (20 + obSize.toNat) ∧ size.toNat ≤ 2 ^ (20 + obSize.toNat) ∧
      obSize.toNat ≤ 3 := by
  obtain ⟨hs, e⟩ | ⟨-, hs, e⟩ | ⟨-, hs, e⟩ | ⟨-, hs, e⟩ | ⟨-, e⟩ := obWindow_cases size <;>
    rw [e] at h <;> cases h <;> exact ⟨by decide, hs, by decide⟩

/-- The enable bit is below every window size. -/
theorem or_one_div (n : Nat) {k : Nat} (hk : 0 < k) : (n ||| 1) / 2 ^ k = n / 2 ^ k := by
  have h1 : 1 >>> k = 0 := by
    rw [Nat.shiftRight_eq_div_pow]
    exact Nat.div_eq_of_lt (Nat.one_lt_two_pow (by omega))
  rw [← Nat.shiftRight_eq_div_pow, Nat.shiftRight_or_distrib, h1, Nat.or_zero,
    Nat.shiftRight_eq_div_pow]

/-- The registers that `dspMemoryMap` leaves. -/
theorem run_dspMemoryMap {size obSize baseMask : Word} (h : obWindow size = some (obSize, baseMask))
    (pcAddr : Word) (reg : Nat → Word) :
    Stores.run (dspMemoryMap pcAddr size).2 reg OB_SIZE = obSize ∧
      Stores.run (dspMemoryMap pcAddr size).2 reg (OB_OFFSET_INDEX 0) = pcAddr &&& baseMask ||| 0x1 ∧
      Stores.run (dspMemoryMap pcAddr size).2 reg (OB_OFFSET_HI 0) = 0x0 := by
  rw [dspMemoryMap, h]
  exact ⟨rfl, rfl, rfl⟩

/-- **The outbound window** starts at the address, rounded down to the window size. -/
theorem outbound_dspMemoryMap {pcAddr size obSize baseMask : Word}
    (h : obWindow size = some (obSize, baseMask)) (reg : Nat → Word) (o : Nat) :
    outbound (Stores.run (dspMemoryMap pcAddr size).2 reg) o =
      pcAddr.toNat - pcAddr.toNat % 2 ^ (20 + obSize.toNat) + o := by
  obtain ⟨hm, -, -⟩ := obWindow_some h
  obtain ⟨hsz, hidx, hhi⟩ := run_dspMemoryMap h pcAddr reg
  have hdvd := Nat.dvd_sub_mod (n := 2 ^ (20 + obSize.toNat)) pcAddr.toNat
  unfold outbound
  rw [hhi, hidx, hsz, BitVec.toNat_or, show (0x1 : Word).toNat = 1 from rfl, or_one_div _ (by omega),
    toNat_and_ones_shl hm, Nat.div_mul_cancel hdvd, show (0 : Word).toNat = 0 from rfl, Nat.zero_mul,
    Nat.zero_add]

/-! ## The zone of `bootLoader` -/

/-- The addresses that `bootLoader` computes from the buffer, on a 32-bit kernel. -/
structure Zone where
  alignPhyAddr : Word
  pRegisterTable : Word
  pPutDSPImgZone : Word

/-- The zone of the buffer at virtual address `DMAVirAddr` and DMA address `DMAPhyAddr`. -/
def zone (DMAVirAddr DMAPhyAddr : Word) : Zone :=
  let alignPhyAddr := DMAPhyAddr &&& 0xfff00000
  let memOffset := alignPhyAddr - DMAPhyAddr
  let addrMap2DSPPCIE := DMAVirAddr + memOffset
  { alignPhyAddr := alignPhyAddr
    pRegisterTable := addrMap2DSPPCIE
    pPutDSPImgZone := addrMap2DSPPCIE + REG_LEN }

/-- The physical address of the host's virtual address `x`, where `v` is mapped to `p`. -/
def hostPhys (v p : Word) (x : Nat) : Int := p.toNat + ((x : Int) - v.toNat)

/-- Host and DSP agree on the zone of the buffer at `v`, `p`, and it lies in the buffer; `reg` are the
application registers before `dspMemoryMap`. -/
structure Agree (v p : Word) (reg : Nat → Word) : Prop where
  table : v.toNat ≤ (zone v p).pRegisterTable.toNat ∧
    (zone v p).pRegisterTable.toNat + REG_LEN.toNat ≤ v.toNat + DMA_TRANSFER_SIZE.toNat
  image : ∀ len, len ≤ DMA_TRANSFER_SIZE.toNat - REG_LEN.toNat →
    v.toNat ≤ (zone v p).pPutDSPImgZone.toNat ∧
      (zone v p).pPutDSPImgZone.toNat + len ≤ v.toNat + DMA_TRANSFER_SIZE.toNat
  window : ∀ o < DMA_TRANSFER_SIZE.toNat,
    (outbound (Stores.run (dspMemoryMap (zone v p).alignPhyAddr DMA_TRANSFER_SIZE).2 reg) o : Int) =
      hostPhys v p ((zone v p).pRegisterTable.toNat + o)

theorem toNat_alignPhyAddr (v p : Word) :
    (zone v p).alignPhyAddr.toNat = p.toNat - p.toNat % 2 ^ 20 :=
  toNat_and_ones_shl (k := 20) (by decide) p

/-- The table is as far below the buffer as the physical address is rounded down. -/
theorem toNat_pRegisterTable (v p : Word) :
    (zone v p).pRegisterTable.toNat = (v.toNat + (2 ^ 32 - p.toNat % 2 ^ 20)) % 2 ^ 32 := by
  have ha := toNat_alignPhyAddr v p
  have hp := p.isLt
  show (v + ((zone v p).alignPhyAddr - p)).toNat = _
  rw [BitVec.toNat_add, BitVec.toNat_sub, ha]
  omega

/-- A table inside the buffer is at its start. -/
theorem table_in_buffer {v p : Word}
    (hlo : v.toNat ≤ (zone v p).pRegisterTable.toNat)
    (hhi : (zone v p).pRegisterTable.toNat + REG_LEN.toNat ≤ v.toNat + DMA_TRANSFER_SIZE.toNat) :
    p.toNat % 2 ^ 20 = 0 := by
  rw [toNat_pRegisterTable] at hlo hhi
  rw [show DMA_TRANSFER_SIZE.toNat = 0x400000 from rfl] at hhi
  omega

theorem table_eq {v p : Word} (h : p.toNat % 2 ^ 20 = 0) : (zone v p).pRegisterTable = v := by
  have hv := v.isLt
  apply BitVec.eq_of_toNat_eq
  rw [toNat_pRegisterTable, h]
  omega

/-- **When host and DSP agree on the shared zone**: exactly if the buffer's DMA address is a multiple
of the window size. -/
theorem agree_iff (v p : Word) (reg : Nat → Word)
    (hv : v.toNat + DMA_TRANSFER_SIZE.toNat ≤ 2 ^ 32) :
    Agree v p reg ↔ p.toNat % DMA_TRANSFER_SIZE.toNat = 0 := by
  have hsize : DMA_TRANSFER_SIZE.toNat = 2 ^ 22 := rfl
  have hreg : REG_LEN.toNat = 0x2000 := rfl
  have hob : obWindow DMA_TRANSFER_SIZE = some (0x2, OB_MASK_FOUR) := rfl
  have hwin : ∀ o, outbound (Stores.run (dspMemoryMap (zone v p).alignPhyAddr DMA_TRANSFER_SIZE).2 reg)
      o = (zone v p).alignPhyAddr.toNat - (zone v p).alignPhyAddr.toNat % 2 ^ 22 + o :=
    outbound_dspMemoryMap hob reg
  have halign := toNat_alignPhyAddr v p
  have hlt := v.isLt
  rw [hsize] at hv ⊢
  constructor
  · rintro ⟨htab, -, hw⟩
    have h20 := table_in_buffer htab.1 htab.2
    have h0 := hw 0 (by decide)
    rw [hwin, halign, h20, table_eq h20, hostPhys] at h0
    omega
  · intro h
    have h20 : p.toNat % 2 ^ 20 = 0 := by omega
    have htab := table_eq (v := v) h20
    have himg : (zone v p).pPutDSPImgZone = v + REG_LEN := congrArg (· + REG_LEN) htab
    refine ⟨?_, fun len hlen => ?_, fun o _ => ?_⟩
    · rw [htab, hsize, hreg]
      omega
    · rw [hsize, hreg] at hlen
      rw [hsize, himg, BitVec.toNat_add, hreg]
      omega
    · rw [hwin, halign, h20, htab, hostPhys]
      omega

theorem agree_iff_low : Agree 0xC1400000 0x01400000 (fun _ => 0) ↔
    (0x01400000 : Word).toNat % DMA_TRANSFER_SIZE.toNat = 0 :=
  agree_iff 0xC1400000 0x01400000 _ (by decide)

/-- A buffer on a page boundary that is not a multiple of 4 MiB. -/
theorem not_agree_page : ¬ Agree 0xC1234000 0x01234000 fun _ => 0 := by
  rintro ⟨⟨h, -⟩, -, -⟩
  exact absurd h (by decide)

end Dspc
