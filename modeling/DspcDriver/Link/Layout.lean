import DspcDriver.File.Mmap

/-!
# The shared zone in memory

The DMA buffer begins with the register table; behind it `LinkLayer_Open` puts the out buffer, and
the in buffer behind that. `TableField.offset` is the offset of a member of `LinkLayerRegisterTable`
by the members before it.

Three parties use the zone, each with addresses of its own (`Channel`): the kernel stores and polls
through the pointer in the handle, a process fills and reads the buffers through the pages that
`DPU_mmap` has mapped for it, and the DSP comes through the outbound window. `channel_shared`: where
the buffer's physical address is a multiple of 4 MiB, an offset is the same byte for all three, and
the table and the buffers fill the DMA buffer without overlap.
-/

namespace Dspc

open Lib

/-! ## `LinkLayerRegisterTable` -/

/-- The members of `LinkLayerRegisterTable`. -/
inductive TableField where
  | DPUBootStatus | SetMultiCoreBootStatus | MultiCoreBootStatus | writeStatus | readStatus
  | getPicNumers | failPicNumers | dpmOverStatus | dpmStartStatus | dpmAllOverStatus
  | pushCodeStatus | reserved0
  | DPUBootControl | writeControl | readControl | PC_urlNumsReg | modelType | dpmOverControl
  | dpmStartControl | pushCodeControl | reserved1
  deriving DecidableEq

namespace TableField

/-- The members in order, with their lengths in words. -/
def members : List (TableField × Nat) :=
  [(DPUBootStatus, 1), (SetMultiCoreBootStatus, 1), (MultiCoreBootStatus, 1), (writeStatus, 1),
    (readStatus, 1), (getPicNumers, 1), (failPicNumers, 1), (dpmOverStatus, 1), (dpmStartStatus, 1),
    (dpmAllOverStatus, 1), (pushCodeStatus, 1), (reserved0, 0x1000 / 4 - 11),
    (DPUBootControl, 1), (writeControl, 1), (readControl, 1), (PC_urlNumsReg, 1), (modelType, 1),
    (dpmOverControl, 1), (dpmStartControl, 1), (pushCodeControl, 1), (reserved1, 0x1000 / 4 - 8)]

/-- The words of the members before `f`. -/
def wordsBefore (f : TableField) : List (TableField × Nat) → Nat
  | [] => 0
  | (g, n) :: fs => if g = f then 0 else n + wordsBefore f fs

/-- The byte offset of a member. -/
def offset (f : TableField) : Nat := 4 * wordsBefore f members

/-- `sizeof(LinkLayerRegisterTable)` is the sum of the members. -/
theorem sum_members : 4 * (members.map Prod.snd).sum = tableSize.toNat := by decide

theorem mem_members (f : TableField) : f ∈ members.map Prod.fst := by
  cases f <;> decide

theorem offset_lt (f : TableField) : f.offset < tableSize.toNat := by
  cases f <;> decide

theorem offset_inj {f g : TableField} (h : f.offset = g.offset) : f = g := by
  have hnd : ((members.map Prod.fst).map offset).Nodup := by decide
  exact List.inj_on_of_nodup_map hnd (mem_members f) (mem_members g) h

end TableField

/-! ## The three ways to the zone -/

/-- The physical address of each offset of the zone, for the kernel, a process and the DSP, and the
offsets of the two buffers. -/
structure Channel where
  kernel : Nat → Nat
  user : Nat → Nat
  dsp : Nat → Nat
  outBuffer : Nat
  inBuffer : Nat

/-- The zone of the handle `h`; `reg` are the application registers of the DSP. -/
def channel (virt_to_phys : Word → Word) (h : LinkLayerHandler) (reg : Nat → Word) : Channel where
  kernel o := (virt_to_phys (h.pRegisterTable + BitVec.ofNat 32 o)).toNat
  user o := ((virt_to_phys h.pRegisterTable >>> PAGE_SHIFT).toNat + o / 2 ^ PAGE_SHIFT) *
    2 ^ PAGE_SHIFT + o % 2 ^ PAGE_SHIFT
  dsp o := outbound reg o
  outBuffer := (h.pOutBuffer - h.pRegisterTable).toNat
  inBuffer := (h.pInBuffer - h.pRegisterTable).toNat

/-- The process reaches its offset `o` by the page that `DPU_mmap` has mapped there. -/
theorem channel_user {virt_to_phys : Word → Word} {h : LinkLayerHandler} {reg : Nat → Word}
    {vm_start vm_end o : Nat} {stateCode : Int} (hs : 0 ≤ stateCode)
    (hlt : o < vm_end - vm_start) (h32 : vm_end - vm_start < 2 ^ 32) :
    MapsPage (DPU_mmap virt_to_phys h vm_start vm_end stateCode) stateCode vm_start
        (o / 2 ^ PAGE_SHIFT) ((channel virt_to_phys h reg).user o / 2 ^ PAGE_SHIFT) ∧
      (channel virt_to_phys h reg).user o % 2 ^ PAGE_SHIFT = o % 2 ^ PAGE_SHIFT := by
  have hshift : (2 : Nat) ^ PAGE_SHIFT = 4096 := rfl
  rw [mapsPage_iff]
  simp only [channel, BitVec.toNat_ushiftRight, Nat.shiftRight_eq_div_pow, hshift]
  omega

/-- The three mean the same byte by every offset of the DMA buffer, which is at `base`, and the
buffers are behind the table. -/
structure Channel.Shared (c : Channel) (base : Nat) : Prop where
  kernel : ∀ o < DMA_TRANSFER_SIZE.toNat, c.kernel o = base + o
  user : ∀ o < DMA_TRANSFER_SIZE.toNat, c.user o = base + o
  dsp : ∀ o < DMA_TRANSFER_SIZE.toNat, c.dsp o = base + o
  outBuffer : c.outBuffer = tableSize.toNat
  inBuffer : c.inBuffer = tableSize.toNat + WTBUFLENGTH.toNat
  fills : c.inBuffer + RDBUFLENGTH.toNat = DMA_TRANSFER_SIZE.toNat

/-- **The zone that an open gives is shared**, where the buffer is at a multiple of the window. -/
theorem channel_shared {virt_to_phys : Word → Word} {chips : Chips} {minor : Nat}
    {kmalloc : Option Word} {f : PrivateData} {v p : Word} {reg : Nat → Word}
    (hv : ∀ d, virt_to_phys (v + d) = p + d) (hp : p.toNat % DMA_TRANSFER_SIZE.toNat = 0)
    (hz : chips.gpRegisterTable minor = (zone v p).pRegisterTable)
    (hopen : (DPU_open chips minor kmalloc).out = .ok (0, some f)) :
    (channel virt_to_phys f.handle
      (Stores.run (dspMemoryMap (zone v p).alignPhyAddr DMA_TRANSFER_SIZE).2 reg)).Shared p.toNat := by
  obtain ⟨-, -, u, hu, hf, -⟩ := open_ok hopen
  have hsize : DMA_TRANSFER_SIZE.toNat = 2 ^ 22 := rfl
  have hshift : (2 : Nat) ^ PAGE_SHIFT = 4096 := rfl
  have h20 : p.toNat % 2 ^ 20 = 0 := by rw [hsize] at hp; omega
  have htab : f.handle.pRegisterTable = v := by
    rw [hf, table_of_handle hu, hz, table_eq h20]
  have hout : f.handle.pOutBuffer = f.handle.pRegisterTable + tableSize := by rw [hf]; rfl
  have hin : f.handle.pInBuffer = f.handle.pRegisterTable + tableSize + WTBUFLENGTH := by
    rw [hf]; rfl
  have hphys : virt_to_phys v = p := by simpa using hv 0
  have hlt := p.isLt
  refine ⟨fun o ho => ?_, fun o ho => ?_, fun o ho => ?_, ?_, ?_, ?_⟩
  · rw [hsize] at ho hp
    simp only [channel, htab, hv, BitVec.toNat_add, BitVec.toNat_ofNat]
    omega
  · rw [hsize] at ho hp
    simp only [channel, htab, hphys, BitVec.toNat_ushiftRight, Nat.shiftRight_eq_div_pow, hshift]
    omega
  · have hob : obWindow DMA_TRANSFER_SIZE = some (0x2, OB_MASK_FOUR) := rfl
    have hwin : (channel virt_to_phys f.handle (Stores.run
        (dspMemoryMap (zone v p).alignPhyAddr DMA_TRANSFER_SIZE).2 reg)).dsp o = _ :=
      outbound_dspMemoryMap hob reg o
    rw [hwin, toNat_alignPhyAddr, h20, Nat.sub_zero,
      show (2 : Nat) ^ (20 + (0x2 : Word).toNat) = DMA_TRANSFER_SIZE.toNat from rfl, hp,
      Nat.sub_zero]
  · simp only [channel, hout]
    rw [show f.handle.pRegisterTable + tableSize - f.handle.pRegisterTable = tableSize by grind]
  · simp only [channel, hin]
    rw [show f.handle.pRegisterTable + tableSize + WTBUFLENGTH - f.handle.pRegisterTable =
      tableSize + WTBUFLENGTH by grind]
    rfl
  · simp only [channel, hin]
    rw [show f.handle.pRegisterTable + tableSize + WTBUFLENGTH - f.handle.pRegisterTable =
      tableSize + WTBUFLENGTH by grind]
    rfl

end Dspc
