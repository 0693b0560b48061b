import DspcDriver.Boot.Code
import DspcDriver.Lib.Ledger

/-!
# `pcie.c` and `entry.c`: loading the module

A load is decided by the outcomes of the kernel calls it makes (`InitEnv`). Its events are what the
calls acquire and release, the stores into the tables with one entry a chip, the `iowrite32`s and the
events of the boots.

A kernel call that gives a resource is `kcall`: it acquires the resource or does nothing, and its
result is used only where the source tests it. The results of `cdev_add`, `pci_enable_device`,
`request_mem_region`, `request_region` and `request_irq` are not tested anywhere. A null pointer
stops the load where it is dereferenced, and so does a store past the end of a table.
-/

namespace Dspc

open Lib

/-! ## The kernel -/

def PCI_CLASS_BRIDGE_PCI : Word := 0x0604
def IORESOURCE_MEM : Word := 0x00000200

/-- `struct pci_dev`: the class, and start, length and flags of each BAR. -/
structure PciDev where
  devClass : Word
  start : Nat → Nat
  len : Nat → Nat
  flags : Nat → Word

inductive Resource where
  | chrdevRegion
  /-- The block for a `pcieBarReg_t`. -/
  | barReg (chipIndex : Nat)
  | cdev (chipIndex : Nat)
  | cdevAdded (chipIndex : Nat)
  /-- The `len` addresses from `start` on, reserved by `request_mem_region`. -/
  | memRegion (chipIndex bar start len : Nat)
  /-- The same by `request_region`. -/
  | ioRegion (chipIndex bar start len : Nat)
  /-- The same, mapped by `ioremap`. -/
  | mapping (chipIndex bar start len : Nat)
  | irq (chipIndex : Nat)
  /-- The block for a `ProcessorUnitDev_t`. -/
  | unitDev (chipIndex : Nat)
  | dmaBuffer (chipIndex : Nat)
  deriving DecidableEq

/-- The tables with one entry a chip, of four entries each. -/
inductive ChipTable where
  | g_pPcieDev | g_pPcieBarReg | writeSemaphore | readSemaphore | gDspDpmOverSemaphore
  | pPcieCdev | g_pProcessorUnitDev
  deriving DecidableEq

inductive InitEvent where
  | acquire (r : Resource)
  | release (r : Resource)
  | store (table : ChipTable) (chipIndex : Nat)
  /-- The stores into the unit of a chip: `devMinor`, and the pointers to the chip's own record and
  devices. -/
  | unit (chipIndex devMinor : Nat)
  | iowrite (chipIndex : Nat) (reg : Nat) (value : Word)
  | boot (chipIndex : Nat) (e : BootEvent)
  deriving DecidableEq

abbrev InitM := Trace InitEvent BootStop

/-- The outcomes of the kernel calls, by chip and BAR; `boot` is what the boot of a chip meets beside
its windows. -/
structure InitEnv where
  devices : List PciDev
  kzallocBarReg : Nat → Bool
  alloc_chrdev_region : Int
  cdev_alloc : Nat → Bool
  cdev_add : Nat → Int
  request_mem_region : Nat → Nat → Bool
  request_region : Nat → Nat → Bool
  ioremap : Nat → Nat → Option Nat
  pci_set_mwi : Nat → Int
  request_irq : Nat → Int
  kzallocUnitDev : Nat → Bool
  boot : Nat → BootEnv

/-- A kernel call that gives `r` if it succeeds. -/
def kcall (ok : Bool) (r : Resource) : InitM Unit := Trace.emitAll (if ok then [.acquire r] else [])

/-- A dereference of a pointer that is not null if `ok`. -/
def deref (ok : Bool) : InitM Unit := if ok then pure () else Trace.stop .nullPointer

def storeTable (table : ChipTable) (chipIndex : Nat) : InitM Unit :=
  if chipIndex < 4 then Trace.emit (.store table chipIndex) else Trace.stop .overrun

/-! ## `pcie.c` -/

/-- The loop of `PCI_FindPciDevices`: its stores into `pPcieDev`, and `pciDevCount` at its end. -/
def findLoop : List PciDev → Nat → List (Nat × PciDev) × Nat
  | [], pciDevCount => ([], pciDevCount)
  | dev :: devs, pciDevCount =>
    if dev.devClass >>> 8 = PCI_CLASS_BRIDGE_PCI then findLoop devs pciDevCount
    else
      let (stores, n) := findLoop devs (pciDevCount + 1)
      ((pciDevCount, dev) :: stores, n)

/-- The return value, the stores into `pPcieDev`, and `*pDevCount` if it is stored. -/
def PCI_FindPciDevices (devices : List PciDev) : Int × List (Nat × PciDev) × Option Nat :=
  let (stores, pciDevCount) := findLoop devices 0
  if pciDevCount = 0 then (-1, stores, none) else (0, stores, some pciDevCount)

/-- The result of `PCI_setMaster`, from that of `pci_set_mwi`. -/
def PCI_setMaster (pci_set_mwi : Int) : Int := if pci_set_mwi = 0 then 0 else -1

/-- The writes of `PCI_EnableDspInterrupt`. -/
def PCI_EnableDspInterrupt : List (Nat × Word) :=
  [(LEGACY_A_IRQ_ENABLE_SET, 1), (LEGACY_B_IRQ_ENABLE_SET, 1)]

section

variable (env : InitEnv) (chipIndex : Nat)

/-- The reservation of one BAR and its base, which stays 0 for a BAR that is not a memory BAR. -/
def reserveBAR (dev : PciDev) (bar : Nat) : InitM Nat :=
  if dev.flags bar &&& IORESOURCE_MEM ≠ 0 then do
    kcall (env.request_mem_region chipIndex bar)
      (.memRegion chipIndex bar (dev.start bar) (dev.len bar))
    pure (dev.start bar)
  else do
    kcall (env.request_region chipIndex bar) (.ioRegion chipIndex bar 0 (dev.len bar))
    pure 0

/-- The part of `PCI_readBAR` for one BAR: the base and the pointer of the window, which keeps its
value `virt` without a base. -/
def mapBAR (dev : PciDev) (isNull : Bool) (bar : Nat) (virt : Option Nat) :
    InitM (Nat × Option Nat) := do
  let base ← reserveBAR env chipIndex dev bar
  if 0 < base then
    kcall (env.ioremap chipIndex bar).isSome (.mapping chipIndex bar (dev.start bar) (dev.len bar))
    deref !isNull
    pure (base, env.ioremap chipIndex bar)
  else pure (base, virt)

/-- `PCI_readBAR`; the record is `none` for a null `pPcieBarReg`. -/
def PCI_readBAR (dev : PciDev) (pPcieBarReg : Option PcieBarReg) : InitM (Int × PcieBarReg) := do
  let isNull := pPcieBarReg.isNone
  let (regBase, regVirt) ← mapBAR env chipIndex dev isNull 0 (pPcieBarReg.bind (·.regVirt))
  let retValue : Int := if 0 < regBase then 0 else -1
  let (memBase, memVirt) ← mapBAR env chipIndex dev isNull 1 (pPcieBarReg.bind (·.memVirt))
  let retValue := if 0 < memBase then retValue else -2
  let (msmcBase, msmcVirt) ← mapBAR env chipIndex dev isNull 2 (pPcieBarReg.bind (·.msmcVirt))
  let retValue := if 0 < msmcBase then retValue else -3
  let (ddrBase, ddrVirt) ← mapBAR env chipIndex dev isNull 3 (pPcieBarReg.bind (·.ddrVirt))
  let retValue := if 0 < ddrBase then retValue else -4
  deref !isNull
  pure (retValue,
    { regVirt, memVirt, msmcVirt, ddrVirt, regBase, memBase, msmcBase, ddrBase
      regLen := dev.len 0, memLen := dev.len 1, msmcLen := dev.len 2, ddrLen := dev.len 3 })

/-! ## `entry.c` -/

/-- A block from `kzalloc`. -/
def PcieBarReg.zeroed : PcieBarReg where
  regVirt := none
  memVirt := none
  msmcVirt := none
  ddrVirt := none
  regBase := 0
  memBase := 0
  msmcBase := 0
  ddrBase := 0
  memLen := 0
  regLen := 0
  msmcLen := 0
  ddrLen := 0

/-- `iowrite32`s to the application registers. -/
def iowriteRegs (regVirt : Option Nat) : List (Nat × Word) → InitM Unit
  | [] => pure ()
  | (reg, value) :: l => do
    deref regVirt.isSome
    Trace.emit (.iowrite chipIndex reg value)
    iowriteRegs regVirt l

/-- What `g_pPcieBarReg` has for the chip after its `kzalloc`. -/
def pcieBarRegOf : Option PcieBarReg :=
  if env.kzallocBarReg chipIndex then some PcieBarReg.zeroed else none

/-- One pass of the first loop of `init_module`. -/
def initChip : InitM Unit := do
  kcall (env.kzallocBarReg chipIndex) (.barReg chipIndex)
  storeTable .g_pPcieBarReg chipIndex
  storeTable .writeSemaphore chipIndex
  storeTable .readSemaphore chipIndex
  storeTable .gDspDpmOverSemaphore chipIndex

/-- The second part of a pass of the second loop, behind `PCI_readBAR`. -/
def startChip (dev : PciDev) (bar : PcieBarReg) : InitM Int := do
  -- the next assignment to `retValue` overwrites this one
  let _retValue := PCI_setMaster (env.pci_set_mwi chipIndex)
  iowriteRegs chipIndex bar.regVirt (PCI_setInBound dev.start)
  iowriteRegs chipIndex bar.regVirt PCI_EnableDspInterrupt
  kcall (env.request_irq chipIndex == 0) (.irq chipIndex)
  kcall (env.kzallocUnitDev chipIndex) (.unitDev chipIndex)
  storeTable .g_pProcessorUnitDev chipIndex
  deref (env.kzallocUnitDev chipIndex)
  Trace.emit (.unit chipIndex chipIndex)
  Trace.replay (fun e => [.boot chipIndex e]) (bootLoader { env.boot chipIndex with bar })

/-- One pass of the second loop: `retValue` at its end, or the value that it returns. -/
def setupChip (dev : Option PciDev) : InitM (Except Int Int) := do
  kcall (env.cdev_alloc chipIndex) (.cdev chipIndex)
  storeTable .pPcieCdev chipIndex
  deref (env.cdev_alloc chipIndex)
  kcall (env.cdev_add chipIndex == 0) (.cdevAdded chipIndex)
  match dev with
  | none => Trace.stop .nullPointer
  | some dev =>
    let (retValue, bar) ← PCI_readBAR env chipIndex dev (pcieBarRegOf env chipIndex)
    if retValue ≠ 0 then pure (.error retValue)
    else
      -- a failed boot goes on with the next chip
      let retValue ← startChip env chipIndex dev bar
      pure (.ok retValue)

end

section

variable (env : InitEnv)

/-- The stores of `PCI_FindPciDevices`, made by `init_module` into `g_pPcieDev`. -/
def storeDevices : List (Nat × PciDev) → InitM Unit
  | [] => pure ()
  | (i, _) :: l => do
    storeTable .g_pPcieDev i
    storeDevices l

/-- The first loop. -/
def initChips : List Nat → InitM Unit
  | [] => pure ()
  | chipIndex :: l => do
    initChip env chipIndex
    initChips l

/-- The second loop; `g_pPcieDev` holds null pointers behind the devices that were found. -/
def setupChips (g_pPcieDev : List PciDev) : Int → List Nat → InitM Int
  | retValue, [] => pure retValue
  | _, chipIndex :: l => do
    match ← setupChip env chipIndex g_pPcieDev[chipIndex]? with
    | .error retValue => pure retValue
    | .ok retValue => setupChips g_pPcieDev retValue l

/-- The call of `alloc_chrdev_region`. -/
def allocChrdevRegion : InitM Int := do
  kcall (env.alloc_chrdev_region == 0) .chrdevRegion
  pure env.alloc_chrdev_region

/-- `init_module`. -/
def init_module : InitM Int := do
  let (retValue, stores, pDevCount) := PCI_FindPciDevices env.devices
  storeDevices stores
  if retValue ≠ 0 then pure retValue
  else
    let pciDevCount := pDevCount.getD 0
    initChips env (List.range pciDevCount)
    let retValue ← allocChrdevRegion env
    if retValue ≠ 0 then pure retValue
    else
      -- `chipIndex < 1`: only the first chip is set up
      setupChips env (stores.map (·.2)) retValue (List.range 1)

/-- `cleanup_module`: everything in it is under `#if 0`. -/
def cleanup_module : InitM Unit := pure ()

end

end Dspc
