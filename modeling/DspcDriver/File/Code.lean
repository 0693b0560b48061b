import DspcDriver.Entry.Code
import DspcDriver.Lib.Scan
import DspcDriver.Link.Code
import DspcDriver.Polls

/-!
# `entry.c` and `LinkLayer.c`: the device file

What the driver does for a process that has opened a device file. `Chips` is what loading the module
has left in the tables with one entry a chip. The events of an operation are its uses of these tables,
its calls of the kernel, its accesses to registers, and its polls and stores in the register table of
its handle.

`DPU_open` takes the chip from the minor number of the node, `DPU_ioctl` from its name, which `sscanf`
reads with the format `chipUnit%d` (`nodeChip`). An index past the end of a table stops an operation
where it is used, and so does a null pointer. `DPU_fops` sets no `release`, so `DPU_close` is not
called.

Pointers are words, as on a 32-bit kernel.
-/

namespace Dspc

open Lib

/-! ## State -/

/-- `ProcessorUnitDev_t`, without the pointers that no operation on a file uses. -/
structure ProcessorUnitDev where
  pPciBarReg : PcieBarReg
  devMinor : Nat

/-- The tables of the module. `init_module` stores the chip's own index as its `devMinor`; `chipsAt` are the
tables at each moment of a load. -/
structure Chips where
  g_pProcessorUnitDev : Nat → Option ProcessorUnitDev
  g_pPcieBarReg : Nat → Option PcieBarReg
  gpRegisterTable : Nat → Word
  devMinor_eq : ∀ i u, g_pProcessorUnitDev i = some u → u.devMinor = i

structure LinkLayerHandler where
  pRegisterTable : Word
  pOutBuffer : Word
  pInBuffer : Word
  outBufferLength : Word
  inBufferLength : Word
  pWriteConfirmReg : Word
  pReadConfirmReg : Word
  deriving DecidableEq

/-- `private_data` of an open file: the block from `kmalloc` and what it holds. -/
structure PrivateData where
  pHandle : Word
  handle : LinkLayerHandler
  deriving DecidableEq

inductive Semaphore where
  | writeSemaphore | readSemaphore | gDspDpmOverSemaphore
  deriving DecidableEq

/-- The tables of pointers that the operations on a file use. -/
inductive FileTable where
  | g_pProcessorUnitDev | g_pPcieBarReg | gpRegisterTable
  deriving DecidableEq

inductive FileEvent where
  /-- The entry of a chip is used. -/
  | entry (table : FileTable) (chipIndex : Nat)
  | down (sem : Semaphore) (chipIndex : Nat)
  | up (sem : Semaphore) (chipIndex : Nat)
  | kmalloc (p : Word)
  | kfree (p : Word)
  | ioread (regVirt reg : Nat)
  | iowrite (regVirt reg : Nat) (value : Word)
  /-- The `n`-th read of a status register of the table. -/
  | poll (pRegisterTable : Word) (reg : StatusReg) (n : Nat)
  /-- `LinkLayer_ChangeBufferStatus` on the table. -/
  | changeBufferStatus (pRegisterTable : Word) (ioType : LINKLAYER_IO_TYPE)
  /-- `copy_to_user` of a status word. -/
  | copyToUser (stateCode : Int)
  /-- `remap_pfn_range` of `length` bytes from the page `pfn` on. -/
  | remap (vm_start : Nat) (pfn length : Word)
  deriving DecidableEq

abbrev FileM := Trace FileEvent BootStop

/-- The chip whose entry or semaphore an event uses. -/
def FileEvent.chip : FileEvent → Option Nat
  | .entry _ chipIndex => some chipIndex
  | .down _ chipIndex => some chipIndex
  | .up _ chipIndex => some chipIndex
  | _ => none

/-- An access to the entry of a chip, which a table of four entries has or has not. -/
def useEntry (e : FileEvent) (chipIndex : Nat) : FileM Unit := do
  Trace.emit e
  if chipIndex < 4 then pure () else Trace.stop .overrun

def derefPtr {α : Type} : Option α → FileM α
  | some a => pure a
  | none => Trace.stop .nullPointer

/-! ## Opening and closing -/

/-- `sizeof(LinkLayerRegisterTable)`. -/
def tableSize : Word := 0x2000

section

variable (chips : Chips)

/-- What the assignments of `LinkLayer_Open` leave in the handle. -/
def Chips.handle (pProcessorUnitDev : ProcessorUnitDev) : LinkLayerHandler :=
  let chipIndex := pProcessorUnitDev.devMinor
  let regVirt := BitVec.ofNat 32 (pProcessorUnitDev.pPciBarReg.regVirt.getD 0)
  let pOutBuffer := chips.gpRegisterTable chipIndex + tableSize
  { pRegisterTable := chips.gpRegisterTable chipIndex
    outBufferLength := WTBUFLENGTH
    inBufferLength := RDBUFLENGTH
    pOutBuffer := pOutBuffer
    pInBuffer := pOutBuffer + WTBUFLENGTH
    pReadConfirmReg := regVirt + BitVec.ofNat 32 LEGACY_A_IRQ_STATUS_RAW
    pWriteConfirmReg := regVirt + BitVec.ofNat 32 LEGACY_B_IRQ_STATUS_RAW }

/-- The return value, and the handle that `pLinkLayerHandle` points to after the call. -/
def LinkLayer_Open (pProcessorUnitDev : ProcessorUnitDev) : FileM (Int × LinkLayerHandler) := do
  let chipIndex := pProcessorUnitDev.devMinor
  useEntry (.entry .gpRegisterTable chipIndex) chipIndex
  pure (0, chips.handle pProcessorUnitDev)

/-- The return value and `private_data` if it is set; `kmalloc` is what the call of it gives. -/
def DPU_open (minor : Nat) (kmalloc : Option Word) : FileM (Int × Option PrivateData) := do
  let chipIndex := minor
  useEntry (.entry .g_pProcessorUnitDev chipIndex) chipIndex
  match kmalloc with
  | none => pure (-1, none)
  | some pHandle => do
    Trace.emit (.kmalloc pHandle)
    let pProcessorUnitDev ← derefPtr (chips.g_pProcessorUnitDev chipIndex)
    let (retLinkValue, handle) ← LinkLayer_Open chips pProcessorUnitDev
    pure (retLinkValue, some { pHandle, handle })

/-- The four words of the handle that the loop of `LinkLayer_Close` takes for pointers to handles. -/
def LinkLayerHandler.words (h : LinkLayerHandler) : List Word :=
  [h.pRegisterTable, h.pOutBuffer, h.pInBuffer, h.outBufferLength]

def LinkLayer_Close (ppHandle : LinkLayerHandler) : FileM Unit :=
  Trace.emitAll ((ppHandle.words.filter (· ≠ 0)).map .kfree)

def DPU_close (private_data : PrivateData) : FileM Unit := LinkLayer_Close private_data.handle

/-! ## `ioctl` -/

/-- `_IOC(dir, 'x', nr, size)`; the numbers of the driver have nine bits. -/
def IOC (dir nr size : Word) : Word := dir <<< 30 ||| size <<< 16 ||| 0x78 <<< 8 ||| nr

def IOW (nr size : Word) : Word := IOC 1 nr size
def IOWR (nr size : Word) : Word := IOC 3 nr size

def DPU_IO_CMD_WAITBUFFERREADY : Word := IOWR 0x103 12
def DPU_IO_CMD_CHANGEBUFFERSTATUS : Word := IOW 0x105 4
def DPU_IO_CMD_INTERRUPT : Word := IOWR 0x106 12
def DPU_IO_CMD_WAITDPM : Word := IOWR 0x107 12
def DPU_IO_CMD_WRITE_TIMEOUT : Word := IOWR 0x108 4
def DPU_IO_CMD_READ_TIMEOUT : Word := IOWR 0x109 4
def DPU_IO_CMD_WAITDPMSTART : Word := IOWR 0x110 12
def DPU_IO_CMD_CHANGEREG : Word := IOW 0x111 4
def DPU_IO_CMD_CHANGOVERREG : Word := IOWR 0x112 4

/-- The characters as the kernel's `isspace` and `isdigit` have them. -/
def kernelAlphabet : Alphabet Byte where
  isSpace c := (9 ≤ c.toNat ∧ c.toNat ≤ 13) ∨ c.toNat = 32 ∨ c.toNat = 0xA0
  digit c := if 48 ≤ c.toNat ∧ c.toNat ≤ 57 then some (c.toNat - 48) else none
  minus := 45
  minus_not_space := by decide
  minus_not_digit := by decide
  digit_not_space := by
    intro c hc
    split at hc
    · rename_i h
      simp only [decide_eq_false_iff_not]
      omega
    · cases hc

/-- `"chipUnit"`. -/
def devNameStr : List Byte := [0x63, 0x68, 0x69, 0x70, 0x55, 0x6E, 0x69, 0x74]

/-- `chipIndex` after `sscanf`: the low eight bits of the number, or the initial 0. -/
def nodeChip (name : List Byte) : Byte :=
  match kernelAlphabet.scanf devNameStr name with
  | some n => BitVec.ofInt 8 n
  | none => 0

/-- What `arg` points to, whether the page of `*pBufStatus` can be written, and the values of the
successive reads of the status registers. -/
structure IoctlArg where
  waitType : LINKLAYER_IO_TYPE
  pendTime : Word
  writable : Bool
  flag : LINKLAYER_IO_TYPE
  reads : StatusReg → Nat → Word

/-- The reads of a call of `LinkLayer_WaitBufferReady`. -/
def waitPolls (pLinkLayer : LinkLayerHandler) (arg : IoctlArg) : List FileEvent :=
  match bufferStatus arg.waitType with
  | (some r, readyValue) =>
    (polls arg.pendTime fun n => arg.reads r n == readyValue).map (.poll pLinkLayer.pRegisterTable r)
  | (none, _) => []

/-- The uses of the register table of a handle, if there are any. -/
def useTable (pLinkLayer : LinkLayerHandler) (used : Bool) : FileM Unit :=
  if used ∧ pLinkLayer.pRegisterTable = 0 then Trace.stop .nullPointer else pure ()

/-- The call of `LinkLayer_WaitBufferReady`; the first read uses the table. -/
def waitBufferReady (pLinkLayer : LinkLayerHandler) (arg : IoctlArg) : FileM Int := do
  useTable pLinkLayer (!(waitPolls pLinkLayer arg).isEmpty)
  Trace.emitAll (waitPolls pLinkLayer arg)
  derefPtr (LinkLayer_WaitBufferReady arg.reads arg.waitType arg.pendTime)

/-- The call of `LinkLayer_ChangeBufferStatus`, which uses the table for four types. -/
def changeBufferStatus (pLinkLayer : LinkLayerHandler) (flag : LINKLAYER_IO_TYPE) : FileM Unit := do
  useTable pLinkLayer (flag == LINKLAYER_IO_WRITE_RESET || flag == LINKLAYER_IO_WRITE_FIN ||
    flag == LINKLAYER_IO_READ_RESET || flag == LINKLAYER_IO_READ_FIN)
  Trace.emit (.changeBufferStatus pLinkLayer.pRegisterTable flag)

/-- `DPU_ioctl` on the file of the node `name`. -/
def DPU_ioctl (name : List Byte) (pLinkLayer : LinkLayerHandler) (cmd : Word) (arg : IoctlArg) :
    FileM Int :=
  let chipIndex := (nodeChip name).toNat
  if cmd = DPU_IO_CMD_WAITBUFFERREADY then do
    let stateCode ← waitBufferReady pLinkLayer arg
    -- the result of `copy_to_user` is not tested
    if arg.writable then Trace.emit (.copyToUser stateCode)
    pure 0
  else if cmd = DPU_IO_CMD_CHANGEBUFFERSTATUS then do
    changeBufferStatus pLinkLayer arg.flag
    pure 0
  else if cmd = DPU_IO_CMD_INTERRUPT then do
    useEntry (.entry .g_pPcieBarReg chipIndex) chipIndex
    let bar ← derefPtr (chips.g_pPcieBarReg chipIndex)
    let pDspMappedRegVirt ← derefPtr bar.regVirt
    Trace.emit (.iowrite pDspMappedRegVirt LEGACY_A_IRQ_STATUS_RAW 1)
    pure 0
  else if cmd = DPU_IO_CMD_WAITDPM then do
    useEntry (.down .gDspDpmOverSemaphore chipIndex) chipIndex
    pure 0
  else if cmd = DPU_IO_CMD_WAITDPMSTART then do
    -- `stateCode` is only printed
    let _stateCode ← waitBufferReady pLinkLayer arg
    pure 0
  else if cmd = DPU_IO_CMD_WRITE_TIMEOUT then do
    useEntry (.down .writeSemaphore chipIndex) chipIndex
    pure 0
  else if cmd = DPU_IO_CMD_READ_TIMEOUT then do
    useEntry (.down .readSemaphore chipIndex) chipIndex
    pure 0
  else if cmd = DPU_IO_CMD_CHANGEREG then do
    changeBufferStatus pLinkLayer arg.flag
    pure 0
  else if cmd = DPU_IO_CMD_CHANGOVERREG then do
    changeBufferStatus pLinkLayer arg.flag
    pure 0
  else pure 0

/-! ## `mmap` -/

def PAGE_SHIFT : Nat := 12

/-- `DPU_mmap` of the vma from `vm_start` to `vm_end`; `stateCode` is the result of
`remap_pfn_range`. A negative one is printed, and 0 is returned. The chip that the node's name has is
only printed too. -/
def DPU_mmap (virt_to_phys : Word → Word) (pLinkLayer : LinkLayerHandler) (vm_start vm_end : Nat)
    (stateCode : Int) : FileM Int := do
  let phyAddrFrameNO := virt_to_phys pLinkLayer.pRegisterTable >>> PAGE_SHIFT
  let rangeLength_vma := BitVec.ofNat 32 (vm_end - vm_start)
  Trace.emit (.remap vm_start phyAddrFrameNO rangeLength_vma)
  pure (if stateCode < 0 then 0 else stateCode)

/-! ## The interrupt -/

/-- `ISR_handler` for an `arg` that many bytes behind `g_pPcieDev`. The status is only printed, and the
call of `LinkLayer_CheckStatus` is under `#if 0`. -/
def ISR_handler (arg : Nat) : FileM Unit := do
  let chipIndex := arg / 4
  useEntry (.entry .g_pPcieBarReg chipIndex) chipIndex
  let bar ← derefPtr (chips.g_pPcieBarReg chipIndex)
  let regVirt ← derefPtr bar.regVirt
  Trace.emit (.ioread regVirt EP_IRQ_STATUS)
  Trace.emit (.iowrite regVirt EP_IRQ_CLR 1)

/-! ## `DPU_fops` -/

/-- The members of `struct file_operations` that open and close a file; a member that is not set is
not called. -/
structure FileOperations where
  openFile : Nat → Option Word → FileM (Int × Option PrivateData)
  release : Option (PrivateData → FileM Unit)

/-- `DPU_fops` has `open`, `unlocked_ioctl` and `mmap`. -/
def DPU_fops : FileOperations where
  openFile := DPU_open chips
  release := none

/-- What closing a file runs. -/
def FileOperations.close (fops : FileOperations) (private_data : PrivateData) : FileM Unit :=
  match fops.release with
  | some release => release private_data
  | none => pure ()

end

/-! ## An `open` -/

theorem useEntry_of_lt {e : FileEvent} {chipIndex : Nat} (h : chipIndex < 4) :
    useEntry e chipIndex = Trace.emit e := by
  rw [useEntry, if_pos h]
  rfl

theorem useEntry_of_ge {e : FileEvent} {chipIndex : Nat} (h : ¬ chipIndex < 4) :
    useEntry e chipIndex = ⟨[e], .error .overrun⟩ := by
  rw [useEntry, if_neg h]
  rfl

theorem linkLayerOpen_eq {chips : Chips} {i : Nat} {u : ProcessorUnitDev} (hi : i < 4)
    (hu : chips.g_pProcessorUnitDev i = some u) :
    LinkLayer_Open chips u = ⟨[.entry .gpRegisterTable i], .ok (0, chips.handle u)⟩ := by
  rw [LinkLayer_Open, chips.devMinor_eq i u hu, useEntry_of_lt hi]
  rfl

/-- An open of an initialised chip. -/
theorem open_eq {chips : Chips} {minor : Nat} {u : ProcessorUnitDev} (hm : minor < 4)
    (hu : chips.g_pProcessorUnitDev minor = some u) (p : Word) :
    DPU_open chips minor (some p) =
      ⟨[.entry .g_pProcessorUnitDev minor, .kmalloc p, .entry .gpRegisterTable minor],
        .ok (0, some ⟨p, chips.handle u⟩)⟩ := by
  simp only [DPU_open, useEntry_of_lt hm, hu, derefPtr, pure_bind, linkLayerOpen_eq hm hu]
  rfl

/-- What an open can do: run past the table, fail to get a block, find no chip, or open the file. -/
theorem open_cases (chips : Chips) (minor : Nat) (kmalloc : Option Word) :
    DPU_open chips minor kmalloc = ⟨[.entry .g_pProcessorUnitDev minor], .error .overrun⟩ ∨
    (kmalloc = none ∧
      DPU_open chips minor kmalloc = ⟨[.entry .g_pProcessorUnitDev minor], .ok (-1, none)⟩) ∨
    (∃ p, kmalloc = some p ∧ DPU_open chips minor kmalloc =
      ⟨[.entry .g_pProcessorUnitDev minor, .kmalloc p], .error .nullPointer⟩) ∨
    ∃ p u, minor < 4 ∧ kmalloc = some p ∧ chips.g_pProcessorUnitDev minor = some u ∧
      DPU_open chips minor kmalloc =
        ⟨[.entry .g_pProcessorUnitDev minor, .kmalloc p, .entry .gpRegisterTable minor],
          .ok (0, some ⟨p, chips.handle u⟩)⟩ := by
  by_cases hm : minor < 4
  · cases kmalloc with
    | none =>
      refine .inr (.inl ⟨rfl, ?_⟩)
      simp only [DPU_open, useEntry_of_lt hm]
      rfl
    | some p =>
      cases hu : chips.g_pProcessorUnitDev minor with
      | none =>
        refine .inr (.inr (.inl ⟨p, rfl, ?_⟩))
        simp only [DPU_open, useEntry_of_lt hm, hu]
        rfl
      | some u => exact .inr (.inr (.inr ⟨p, u, hm, rfl, rfl, open_eq hm hu p⟩))
  · left
    simp only [DPU_open, useEntry_of_ge hm]
    rfl

/-- An open that sets `private_data` is one of an initialised chip. -/
theorem open_ok {chips : Chips} {minor : Nat} {kmalloc : Option Word} {r : Int} {f : PrivateData}
    (h : (DPU_open chips minor kmalloc).out = .ok (r, some f)) :
    minor < 4 ∧ kmalloc = some f.pHandle ∧
      ∃ u, chips.g_pProcessorUnitDev minor = some u ∧ f.handle = chips.handle u ∧ r = 0 := by
  obtain he | ⟨-, he⟩ | ⟨p, -, he⟩ | ⟨p, u, hm, rfl, hu, he⟩ := open_cases chips minor kmalloc
  · rw [he] at h
    cases h
  · rw [he] at h
    cases h
  · rw [he] at h
    cases h
  · rw [he] at h
    cases h
    exact ⟨hm, rfl, u, hu, rfl, rfl⟩

theorem table_of_handle {chips : Chips} {i : Nat} {u : ProcessorUnitDev}
    (hu : chips.g_pProcessorUnitDev i = some u) :
    (chips.handle u).pRegisterTable = chips.gpRegisterTable i := by
  show chips.gpRegisterTable u.devMinor = _
  rw [chips.devMinor_eq i u hu]

/-! ## The events of an `ioctl` -/

/-- The semaphore that a command waits on. -/
def waitSemaphore (cmd : Word) : Option Semaphore :=
  if cmd = DPU_IO_CMD_WAITDPM then some .gDspDpmOverSemaphore
  else if cmd = DPU_IO_CMD_WRITE_TIMEOUT then some .writeSemaphore
  else if cmd = DPU_IO_CMD_READ_TIMEOUT then some .readSemaphore
  else none

section

variable {chips : Chips} {name : List Byte} {pLinkLayer : LinkLayerHandler} {cmd : Word}
  {arg : IoctlArg} {P : FileEvent → Prop}

theorem all_useEntry {e : FileEvent} {chipIndex : Nat} (h : P e) :
    Trace.All P (useEntry e chipIndex) :=
  .bind (.emit h) fun _ _ => .ite (fun _ => .pure _) fun _ => .stop _

theorem all_derefPtr {α : Type} (p : Option α) : Trace.All P (derefPtr p) := by
  cases p with
  | none => exact .stop _
  | some a => exact .pure a

theorem all_useTable (used : Bool) : Trace.All P (useTable pLinkLayer used) :=
  .ite (fun _ => .stop _) fun _ => .pure ()

theorem all_changeBufferStatus {flag : LINKLAYER_IO_TYPE}
    (h : P (.changeBufferStatus pLinkLayer.pRegisterTable flag)) :
    Trace.All P (changeBufferStatus pLinkLayer flag) :=
  .bind (all_useTable _) fun _ _ => .emit h

theorem all_waitBufferReady (hpoll : ∀ r n, P (.poll pLinkLayer.pRegisterTable r n)) :
    Trace.All P (waitBufferReady pLinkLayer arg) := by
  refine .bind (all_useTable _) fun _ _ => .bind (fun e he => ?_) fun _ _ => all_derefPtr _
  change e ∈ waitPolls pLinkLayer arg at he
  unfold waitPolls at he
  split at he
  · obtain ⟨n, -, rfl⟩ := List.mem_map.mp he
    exact hpoll _ n
  · cases he

/-- What an `ioctl` can do: polls and stores in the table of its handle, a status word for the process,
the interrupt of the chip of its node's name, and a wait on one of the chip's semaphores. -/
theorem all_ioctl (hpoll : ∀ r n, P (.poll pLinkLayer.pRegisterTable r n))
    (hcopy : ∀ stateCode, P (.copyToUser stateCode))
    (hchange : ∀ ioType, P (.changeBufferStatus pLinkLayer.pRegisterTable ioType))
    (hentry : P (.entry .g_pPcieBarReg (nodeChip name).toNat))
    (hirq : ∀ regVirt, P (.iowrite regVirt LEGACY_A_IRQ_STATUS_RAW 1))
    (hdown : ∀ sem, waitSemaphore cmd = some sem → P (.down sem (nodeChip name).toNat)) :
    Trace.All P (DPU_ioctl chips name pLinkLayer cmd arg) := by
  refine .ite (fun _ => .bind (all_waitBufferReady hpoll) fun stateCode _ => ?_) fun _ => ?_
  · exact .ite (fun _ => .bind (.emit (hcopy stateCode)) fun _ _ => .pure _) fun _ => .pure _
  refine .ite (fun _ => .bind (all_changeBufferStatus (hchange _)) fun _ _ => .pure _) fun _ => ?_
  refine .ite (fun _ => .bind (all_useEntry hentry) fun _ _ => .bind (all_derefPtr _) fun _ _ =>
    .bind (all_derefPtr _) fun regVirt _ => .bind (.emit (hirq regVirt)) fun _ _ => .pure _)
    fun _ => ?_
  unfold waitSemaphore at hdown
  refine .ite (fun hc => .bind (all_useEntry (hdown _ (if_pos hc))) fun _ _ => .pure _) fun hc => ?_
  rw [if_neg hc] at hdown
  refine .ite (fun _ => .bind (all_waitBufferReady hpoll) fun _ _ => .pure _) fun _ => ?_
  refine .ite (fun hc => .bind (all_useEntry (hdown _ (if_pos hc))) fun _ _ => .pure _) fun hc => ?_
  rw [if_neg hc] at hdown
  refine .ite (fun hc => .bind (all_useEntry (hdown _ (if_pos hc))) fun _ _ => .pure _) fun _ => ?_
  refine .ite (fun _ => .bind (all_changeBufferStatus (hchange _)) fun _ _ => .pure _) fun _ => ?_
  exact .ite (fun _ => .bind (all_changeBufferStatus (hchange _)) fun _ _ => .pure _) fun _ => .pure _

theorem ioctl_interrupt : DPU_ioctl chips name pLinkLayer DPU_IO_CMD_INTERRUPT arg = (do
    useEntry (.entry .g_pPcieBarReg (nodeChip name).toNat) (nodeChip name).toNat
    let bar ← derefPtr (chips.g_pPcieBarReg (nodeChip name).toNat)
    let pDspMappedRegVirt ← derefPtr bar.regVirt
    Trace.emit (.iowrite pDspMappedRegVirt LEGACY_A_IRQ_STATUS_RAW 1)
    pure 0) := rfl

theorem waitSemaphore_eq_some {sem : Semaphore} : waitSemaphore cmd = some sem ↔
    (cmd = DPU_IO_CMD_WAITDPM ∧ sem = .gDspDpmOverSemaphore) ∨
      (cmd = DPU_IO_CMD_WRITE_TIMEOUT ∧ sem = .writeSemaphore) ∨
      (cmd = DPU_IO_CMD_READ_TIMEOUT ∧ sem = .readSemaphore) := by
  constructor
  · grind [waitSemaphore]
  · rintro (⟨rfl, rfl⟩ | ⟨rfl, rfl⟩ | ⟨rfl, rfl⟩)
    all_goals rfl

/-- A command that waits on a semaphore does only that. -/
theorem ioctl_wait {sem : Semaphore} (h : waitSemaphore cmd = some sem) :
    DPU_ioctl chips name pLinkLayer cmd arg = (do
      useEntry (.down sem (nodeChip name).toNat) (nodeChip name).toNat
      pure 0) := by
  obtain ⟨rfl, rfl⟩ | ⟨rfl, rfl⟩ | ⟨rfl, rfl⟩ := waitSemaphore_eq_some.mp h
  all_goals rfl

end

end Dspc
