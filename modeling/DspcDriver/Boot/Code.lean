import DspcDriver.Pcie
import DspcDriver.Zone

/-!
# `bootLoader.c`: `bootLoader`

A boot is decided by what the code does not control (`BootEnv`): the mapped windows, the result of
`dma_alloc_coherent`, the images, and the value of every read of a polled register. Its events are
its stores in program order, with the results of the upload and of each poll.

A null pointer stops the boot where it is dereferenced: `pRegisterTable` after a failed
`dma_alloc_coherent`, which leaves both of its addresses 0, and a window that was not mapped. The
registers that `debug_printf` reads are left out.
-/

namespace Dspc

open Lib

/-- The waits of a boot; the acknowledgements of an image by the core that it is for. -/
inductive Wait where
  | initReady
  | codeReset (coreIndex : Nat)
  | codeFinish (coreIndex : Nat)
  | multiCore
  deriving DecidableEq

inductive BootEvent where
  /-- `dma_alloc_coherent` gave a buffer. -/
  | dmaAlloc
  /-- The store into the entry of the chip in `gpRegisterTable`. -/
  | gpRegisterTable (pRegisterTable : Word)
  /-- `iowrite32` to the application register at a byte offset. -/
  | iowrite (reg : Nat) (value : Word)
  | store (s : Store)
  | uploaded (retValue : Int)
  | polled (wait : Wait) (retPollVal : Int)
  | pushCodeControl (value : Word)
  | memcpy (dst : Word) (src : List Byte) (length : Nat)
  deriving DecidableEq

inductive BootStop where
  | nullPointer
  | overrun
  deriving DecidableEq

abbrev BootM := Trace BootEvent BootStop

/-- What a boot meets. `dma` has the virtual and the DMA address of the buffer; `reads w n` is the
value of the `n`-th read of the register that the wait `w` polls. -/
structure BootEnv where
  bar : PcieBarReg
  dma : Option (Word × Word)
  reads : Wait → Nat → Word
  thirdBLCode_U0 : List Byte
  app4Core0 : List Byte
  DPUCore1 : List Byte
  DPUCore2 : List Byte

/-- The pointer of a window. -/
def PcieBarReg.virt (r : PcieBarReg) : Window → Option Nat
  | .mem => r.memVirt
  | .msmc => r.msmcVirt
  | .ddr => r.ddrVirt

/-- The result of a poll. -/
def BootEnv.retPollVal (env : BootEnv) : Wait → Int
  | .initReady => pollValue (env.reads .initReady) DSP_INIT_READY 0xffffffff
  | .codeReset i => pollValue (env.reads (.codeReset i)) DSP_GETCODE_RESET 0xffffffff
  | .codeFinish i => pollValue (env.reads (.codeFinish i)) DSP_GETCODE_FINISH 0xffffffff
  | .multiCore =>
    let setWhichCoreRun := 0x07
    pollCompareValue (fun _ => setWhichCoreRun) (env.reads .multiCore) 0xffffffff

section

variable (env : BootEnv)

def poll (w : Wait) : BootM Int := do
  Trace.emit (.polled w (env.retPollVal w))
  pure (env.retPollVal w)

def dmaAlloc : BootM (Word × Word) :=
  match env.dma with
  | some (DMAVirAddr, DMAPhyAddr) => do
    Trace.emit .dmaAlloc
    pure (DMAVirAddr, DMAPhyAddr)
  | none => pure (0, 0)

/-- The first access to the register table. -/
def derefRegisterTable : BootM Unit :=
  if env.dma.isNone then Trace.stop .nullPointer else pure ()

def iowriteAll : List (Nat × Word) → BootM Unit
  | [] => pure ()
  | (reg, value) :: l =>
    if env.bar.regVirt.isNone then Trace.stop .nullPointer
    else do
      Trace.emit (.iowrite reg value)
      iowriteAll l

def storeAll : List Store → BootM Unit
  | [] => pure ()
  | s :: l =>
    if (env.bar.virt s.1.window).isNone then Trace.stop .nullPointer
    else do
      Trace.emit (.store s)
      storeAll l

/-- The call of `uploadProgram`. -/
def upload : BootM Int := do
  storeAll env (uploadProgram env.thirdBLCode_U0 0).events
  match (uploadProgram env.thirdBLCode_U0 0).out with
  | .ok (retValue, _) => do
    Trace.emit (.uploaded retValue)
    pure retValue
  | .error _ => Trace.stop .overrun

variable (pPutDSPImgZone : Word)

/-- One pass of the loop over the cores, and whether it returns. The result of its first wait is
overwritten by that of the second. -/
def pushCore (coreIndex : Nat) (pHexCodeArray : List Byte) : BootM (Except Int Int) := do
  Trace.emit (.pushCodeControl PC_PUSHCODE_RESET)
  let _ ← poll env (.codeReset coreIndex)
  Trace.emit (.memcpy pPutDSPImgZone pHexCodeArray pHexCodeArray.length)
  Trace.emit (.pushCodeControl PC_PUSHCODE_FINISH)
  let retPollVal ← poll env (.codeFinish coreIndex)
  if retPollVal = 0 then
    Trace.emit (.pushCodeControl PC_PUSHCODE_RESET)
    pure (.ok retPollVal)
  else pure (.error (-2))

/-- The loop over the cores. -/
def pushCores : Int → List (Nat × List Byte) → BootM (Except Int Int)
  | retPollVal, [] => pure (.ok retPollVal)
  | _, (coreIndex, pHexCodeArray) :: l => do
    match ← pushCore env pPutDSPImgZone coreIndex pHexCodeArray with
    | .ok retPollVal => pushCores retPollVal l
    | .error retValue => pure (.error retValue)

/-- The end of `bootLoader`, behind the loop over the cores. -/
def waitCores : Except Int Int → BootM Int
  | .error retValue => pure retValue
  | .ok retPollVal => do
    if retPollVal = 0 then
      let retPollVal ← poll env .multiCore
      if retPollVal = 0 then pure 0 else pure (-4)
    else pure 0

/-- `bootLoader` from the first write of `pushCodeControl` on. -/
def pushCode : BootM Int := do
  let DPUCoreLength := (env.app4Core0.length + 3) / 4 * 4
  Trace.emit (.pushCodeControl PC_PUSHCODE_RESET)
  let retPollVal ← poll env (.codeReset 0)
  if retPollVal = 0 then
    Trace.emit (.memcpy pPutDSPImgZone env.app4Core0 DPUCoreLength)
    Trace.emit (.pushCodeControl PC_PUSHCODE_FINISH)
    let retPollVal ← poll env (.codeFinish 0)
    if retPollVal = 0 then
      Trace.emit (.pushCodeControl PC_PUSHCODE_RESET)
      let r ← pushCores env pPutDSPImgZone retPollVal [(1, env.DPUCore1), (2, env.DPUCore2)]
      waitCores env r
    else pure (-2)
  else pure (-2)

end

/-- `bootLoader`. -/
def bootLoader (env : BootEnv) : BootM Int := do
  let (DMAVirAddr, DMAPhyAddr) ← dmaAlloc env
  let z := zone DMAVirAddr DMAPhyAddr
  Trace.emit (.gpRegisterTable z.pRegisterTable)
  iowriteAll env (dspMemoryMap z.alignPhyAddr DMA_TRANSFER_SIZE).2
  let retValue ← upload env
  derefRegisterTable env
  if retValue = 0 then
    let _ ← poll env .initReady
    pushCode env z.pPutDSPImgZone
  else pure (-1)

end Dspc
