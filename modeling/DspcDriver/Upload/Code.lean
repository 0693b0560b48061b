import DspcDriver.Common
import DspcDriver.Lib.Stores
import DspcDriver.Lib.Trace

/-!
# `bootLoader.c`: `writeDSPMemory` and `uploadProgram`

An upload stores 32-bit words through the three DSP windows that `PCI_readBAR` mapped. A `Loc` is a
word of a window, counted from the window's virtual base (`memVirt`, `msmcVirt`, `ddrVirt`); the
events of the code are its stores in program order.

The section loop takes the memory writer as an argument: it drops the writer's result, so it is
the same loop whether the writer stores the words (`uploadProgram`) or records its arguments
(`uploadCalls`). `secNum`, `totalSize` and `checkAddr` are computed by the source and never used,
and are left out.

Each pass of the section loop reads at least 8 bytes of the image, so a loop of `fuel` passes with
`fuel` at least the length of the image ends before the fuel does.
-/

namespace Dspc

open Lib

/-- The DSP windows: `memVirt` (BAR 1), `msmcVirt` (BAR 2), `ddrVirt` (BAR 3). -/
inductive Window where
  | mem | msmc | ddr
  deriving DecidableEq

/-- Word `index` of a window. -/
structure Loc where
  window : Window
  index : Nat
  deriving DecidableEq

/-- A 32-bit store through a window. -/
abbrev Store := Loc × Word

/-- Why an upload does not come to its end: it reads past the end of the image. -/
inductive UploadStop where
  | overrun
  | fuel
  deriving DecidableEq

abbrev UploadM (ε α : Type) := Trace ε UploadStop α

/-! ## `writeDSPMemory` -/

/-- The `switch` of `writeDSPMemory`: the window and the byte `offset` in it, or `none` where the
code returns 0. -/
def dspOffset (coreNum dspMemAddr : Word) : Option (Window × Word) :=
  if coreNum ≤ 7 then
    let dspMemAddr := dspMemAddr &&& 0x00FFFFFF
    if dspMemAddr < LL2_START then none else some (.mem, dspMemAddr - LL2_START)
  else if coreNum = 8 then
    if dspMemAddr < MSMC_START then none else some (.msmc, dspMemAddr - MSMC_START)
  else if coreNum = 9 then
    if dspMemAddr < DDR_START then none else some (.ddr, dspMemAddr - DDR_START)
  else none

/-- `writeDSPMemory`: the words go to `ptr`, `ptr + 1`, …, and the code returns `length`. -/
def writeDSPMemory (coreNum dspMemAddr : Word) (buffer : List Word) (length : Word) :
    UploadM Store Word :=
  if length = 0 then pure 0
  else match dspOffset coreNum dspMemAddr with
    | none => pure 0
    | some (window, offset) => do
      Trace.emitAll (Stores.block (fun i => ⟨window, (offset / 4).toNat + i⟩)
        (buffer.take (length / 4).toNat))
      pure length

/-! ## `uploadProgram` -/

variable {ε : Type}

/-- `byteTo32bits(pDspImg); pDspImg += 4`. -/
def readWord (pDspImg : List Byte) : UploadM ε (Word × List Byte) :=
  match byteTo32bits pDspImg with
  | some w => pure (w, pDspImg.drop 4)
  | none => Trace.stop .overrun

/-- The `j` loops: the first `n` words of `tempArray`. -/
def readWords : Nat → List Byte → UploadM ε (List Word × List Byte)
  | 0, pDspImg => pure ([], pDspImg)
  | n + 1, pDspImg => do
    let (w, pDspImg) ← readWord pDspImg
    let (ws, pDspImg) ← readWords n pDspImg
    pure (w :: ws, pDspImg)

/-- The size of a section rounded up to whole words, in 32-bit arithmetic. -/
def adjustSize (secSize : Word) : Word :=
  if secSize / 4 * 4 ≠ secSize then (secSize / 4 + 1) * 4 else secSize

/-- `newCoreNum`: the region of a section, chosen by the prefix of its start address. -/
def sectionCore (coreNum : Byte) (secStartAddr : Word) : Byte :=
  let temp := (secStartAddr &&& 0xFF000000) >>> 24
  if temp = 0x00 ∨ temp >>> 4 = 0x1 then (if coreNum < 8 then coreNum else 0)
  else if temp = 0x0C then 8
  else 9

/-- A function with the parameters of `writeDSPMemory`. -/
abbrev Writer (ε : Type) := Word → Word → List Word → Word → UploadM ε Word

/-- The `i` loop: `count` blocks of 256 bytes. -/
def blockLoop (write : Writer ε) (newCoreNum : Byte) :
    Nat → Word → List Byte → UploadM ε (Word × List Byte)
  | 0, secStartAddr, pDspImg => pure (secStartAddr, pDspImg)
  | i + 1, secStartAddr, pDspImg => do
    let (tempArray, pDspImg) ← readWords (BLOCK_TRANSFER_SIZE / 4).toNat pDspImg
    let _ ← write (newCoreNum.setWidth 32) secStartAddr tempArray BLOCK_TRANSFER_SIZE
    blockLoop write newCoreNum i (secStartAddr + BLOCK_TRANSFER_SIZE) pDspImg

/-- One pass of the section loop, for a non-zero `secSize`: the next `secSize` and the cursor. -/
def sectionPass (write : Writer ε) (coreNum : Byte) (secSize : Word) (pDspImg : List Byte) :
    UploadM ε (Word × List Byte) := do
  let secSize := adjustSize secSize
  let (secStartAddr, pDspImg) ← readWord pDspImg
  let newCoreNum := sectionCore coreNum secStartAddr
  let count := secSize / BLOCK_TRANSFER_SIZE
  let remainder := secSize - count * BLOCK_TRANSFER_SIZE
  let (secStartAddr, pDspImg) ← blockLoop write newCoreNum count.toNat secStartAddr pDspImg
  let (tempArray, pDspImg) ← readWords (remainder / 4).toNat pDspImg
  let _ ← write (newCoreNum.setWidth 32) secStartAddr tempArray remainder
  readWord pDspImg

/-- The section loop: it ends at a zero size word, with the cursor behind it. -/
def sectionLoop (write : Writer ε) (coreNum : Byte) : Nat → Word → List Byte → UploadM ε (List Byte)
  | 0, secSize, pDspImg => if secSize = 0 then pure pDspImg else Trace.stop .fuel
  | fuel + 1, secSize, pDspImg =>
    if secSize = 0 then pure pDspImg
    else do
      let (secSize, pDspImg) ← sectionPass write coreNum secSize pDspImg
      sectionLoop write coreNum fuel secSize pDspImg

/-- `uploadProgram` up to the end of the section loop: `bootEntryAddr` and the cursor. -/
def uploadSections (write : Writer ε) (pDspImgArray : List Byte) (coreNum : Byte) :
    UploadM ε (Word × List Byte) := do
  let (bootEntryAddr, pDspImg) ← readWord pDspImgArray
  let (secSize, pDspImg) ← readWord pDspImg
  let pDspImg ← sectionLoop write coreNum pDspImgArray.length secSize pDspImg
  pure (bootEntryAddr, pDspImg)

/-- `uploadProgram`: the returned value and the final `pDspImg`. -/
def uploadProgram (pDspImgArray : List Byte) (coreNum : Byte) : UploadM Store (Int × List Byte) := do
  let (bootEntryAddr, pDspImg) ← uploadSections writeDSPMemory pDspImgArray coreNum
  let retValue ← writeDSPMemory 0 MAGIC_ADDR [bootEntryAddr] 4
  pure (if retValue = 4 then 0 else -1, pDspImg)

/-! ## The calls of `writeDSPMemory` -/

/-- The arguments of a call of `writeDSPMemory`. -/
structure Call where
  coreNum : Word
  dspMemAddr : Word
  buffer : List Word
  length : Word
  deriving DecidableEq

/-- The writer that records its arguments. -/
def record : Writer Call := fun coreNum dspMemAddr buffer length => do
  Trace.emit ⟨coreNum, dspMemAddr, buffer, length⟩
  pure 0

/-- The calls of `writeDSPMemory` in the section loop. -/
def uploadCalls (pDspImgArray : List Byte) (coreNum : Byte) : UploadM Call (Word × List Byte) :=
  uploadSections record pDspImgArray coreNum

/-- What a call of `writeDSPMemory` does. -/
def Call.run (c : Call) : UploadM Store Word :=
  writeDSPMemory c.coreNum c.dspMemAddr c.buffer c.length

end Dspc
