import DspcDriver.Common

/-!
# `LinkLayer.c`: the register table and its two operations

`LinkLayer_ChangeBufferStatus` stores a level into one of the two control registers,
`LinkLayer_WaitBufferReady` polls one of the two status registers for a level. Both pick the
register and the level by `ioType`; `LinkLayer_WaitBufferReady` leaves its pointer null for every
other `ioType`.

The poll runs while the DSP stores into the table, so the call also exists step by step: `WaitCall`
is a call in its loop, `WaitCall.poll` one pass. `waitBufferReady_eq_passes` says that the passes
make up the whole call.
-/

namespace Dspc

/-- The registers of `LinkLayerRegisterTable` that the buffer transfer uses. -/
structure LinkLayerRegisterTable where
  writeStatus : Word
  readStatus : Word
  writeControl : Word
  readControl : Word
  deriving DecidableEq

/-- What `pBufferStatus` points to. -/
inductive StatusReg where
  | writeStatus | readStatus
  deriving DecidableEq

def LinkLayerRegisterTable.status (t : LinkLayerRegisterTable) : StatusReg → Word
  | .writeStatus => t.writeStatus
  | .readStatus => t.readStatus

/-- The return value and the table after the call. -/
def LinkLayer_ChangeBufferStatus (t : LinkLayerRegisterTable) (ioType : LINKLAYER_IO_TYPE) :
    Int × LinkLayerRegisterTable :=
  let t := if ioType = LINKLAYER_IO_WRITE_RESET then { t with writeControl := PC_WT_RESET } else t
  let t := if ioType = LINKLAYER_IO_WRITE_FIN then { t with writeControl := PC_WT_FINISH } else t
  let t := if ioType = LINKLAYER_IO_READ_RESET then { t with readControl := PC_RD_RESET } else t
  let t := if ioType = LINKLAYER_IO_READ_FIN then { t with readControl := PC_RD_FINISH } else t
  (0, t)

/-- `pBufferStatus` and `readyValue`; a null `pBufferStatus` is `none`. -/
def bufferStatus (ioType : LINKLAYER_IO_TYPE) : Option StatusReg × Word :=
  let p := (none, 0)
  let p := if ioType = LINKLAYER_IO_WRITE_QRESET then (some .writeStatus, DSP_RD_RESET) else p
  let p := if ioType = LINKLAYER_IO_WRITE_QFIN then (some .writeStatus, DSP_RD_FINISH) else p
  let p := if ioType = LINKLAYER_IO_READ_QRESET then (some .readStatus, DSP_WT_RESET) else p
  let p := if ioType = LINKLAYER_IO_READ_QFIN then (some .readStatus, DSP_WT_FINISH) else p
  p

/-- The return value; `reads r n` is the value of the `n`-th read of the register `r`, and `none`
is a read through the null pointer. -/
def LinkLayer_WaitBufferReady (reads : StatusReg → Nat → Word) (ioType : LINKLAYER_IO_TYPE)
    (pendtime : Word) : Option Int :=
  match bufferStatus ioType with
  | (some r, readyValue) => some (pollEqualValue (reads r) readyValue pendtime)
  -- the loop body is what dereferences the pointer
  | (none, readyValue) =>
    if 0 < pendtime then none else some (pollEqualValue (fun _ => 0) readyValue pendtime)

/-! ## The operations on each `ioType` -/

section IoTypes

variable (t : LinkLayerRegisterTable)

theorem bufferStatus_writeQReset :
    bufferStatus LINKLAYER_IO_WRITE_QRESET = (some .writeStatus, DSP_RD_RESET) := rfl

theorem bufferStatus_writeQFin :
    bufferStatus LINKLAYER_IO_WRITE_QFIN = (some .writeStatus, DSP_RD_FINISH) := rfl

theorem bufferStatus_readQReset :
    bufferStatus LINKLAYER_IO_READ_QRESET = (some .readStatus, DSP_WT_RESET) := rfl

theorem bufferStatus_readQFin :
    bufferStatus LINKLAYER_IO_READ_QFIN = (some .readStatus, DSP_WT_FINISH) := rfl

/-- No call stores into a status register. -/
theorem changeBufferStatus_status (ioType : LINKLAYER_IO_TYPE) (r : StatusReg) :
    (LinkLayer_ChangeBufferStatus t ioType).2.status r = t.status r := by
  unfold LinkLayer_ChangeBufferStatus
  cases r <;> simp only [LinkLayerRegisterTable.status] <;> split_ifs <;> rfl

/-- The calls of the read direction leave `writeControl`. -/
theorem changeBufferStatus_writeControl {ioType : LINKLAYER_IO_TYPE}
    (h : ioType ≠ LINKLAYER_IO_WRITE_RESET) (h' : ioType ≠ LINKLAYER_IO_WRITE_FIN) :
    (LinkLayer_ChangeBufferStatus t ioType).2.writeControl = t.writeControl := by
  unfold LinkLayer_ChangeBufferStatus
  simp only [if_neg h, if_neg h']
  split_ifs <;> rfl

end IoTypes

/-! ## A wait, pass by pass -/

/-- A call of `LinkLayer_WaitBufferReady` in its polling loop. -/
structure WaitCall where
  ioType : LINKLAYER_IO_TYPE
  pendtime : Word
  vars : PollVars
  deriving DecidableEq

namespace WaitCall

def start (ioType : LINKLAYER_IO_TYPE) (pendtime : Word) : WaitCall := ⟨ioType, pendtime, .start⟩

def goes (c : WaitCall) : Bool := c.vars.goes c.pendtime

/-- The polled register has the value that the call waits for. -/
def hit (c : WaitCall) (t : LinkLayerRegisterTable) : Bool :=
  (bufferStatus c.ioType).1.any fun r => t.status r == (bufferStatus c.ioType).2

/-- One pass of the loop, on the table as it is then. -/
def poll (c : WaitCall) (t : LinkLayerRegisterTable) : WaitCall :=
  { c with vars := c.vars.poll (c.hit t) }

def retVal (c : WaitCall) : Int := c.vars.retVal c.pendtime

/-- The poll that ends the loop with 0 is made: what the call will return is decided. -/
def ready (c : WaitCall) : Bool := c.vars.stopPoll && c.retVal == 0

/-- The call after `k` passes; pass `i` reads the table `tables i`. -/
def passes (tables : Nat → LinkLayerRegisterTable) (c : WaitCall) : Nat → WaitCall
  | 0 => c
  | k + 1 =>
    if (passes tables c k).goes then (passes tables c k).poll (tables k) else passes tables c k

variable {c : WaitCall} {t : LinkLayerRegisterTable}

theorem retVal_eq_zero : c.retVal = 0 ↔ c.vars.loopCount.toNat < c.pendtime.toNat :=
  Dspc.retVal_eq_zero

theorem ready_iff : c.ready = true ↔ c.vars.stopPoll = true ∧ c.retVal = 0 := by
  simp [ready]

theorem not_ready_of_goes (h : c.goes = true) : c.ready = false := by
  rw [ready, (goes_iff.mp h).2, Bool.false_and]

/-- A call whose loop is over returns 0 iff it is ready. -/
theorem retVal_zero_of_done (h : c.goes = false) : c.retVal = 0 ↔ c.ready = true := by
  rw [ready_iff, iff_and_self]
  intro h0
  by_contra hs
  rw [Bool.not_eq_true] at hs
  rw [goes, goes_iff.mpr ⟨retVal_eq_zero.mp h0, hs⟩] at h
  cases h

/-- A pass that makes the call ready has seen the value in the register. -/
theorem hit_of_ready (h : c.goes = true) (hr : (c.poll t).ready = true) : c.hit t = true := by
  have hs := (ready_iff.mp hr).1
  by_contra hh
  simp only [poll, PollVars.poll, if_neg hh] at hs
  rw [(goes_iff.mp h).2] at hs
  cases hs

variable {tables : Nat → LinkLayerRegisterTable}

theorem passes_fixed (k : Nat) : (passes tables c k).ioType = c.ioType ∧
    (passes tables c k).pendtime = c.pendtime := by
  induction k with
  | zero => exact ⟨rfl, rfl⟩
  | succ k ih =>
    rw [passes]
    split
    · exact ih
    · exact ih

theorem poll_vars : (c.poll t).vars = c.vars.poll (c.hit t) := rfl

/-- After `k` passes the rest of the loop is what is left of its bound. -/
theorem passes_loop (tables : Nat → LinkLayerRegisterTable) (ioType : LINKLAYER_IO_TYPE)
    {pendtime : Word} {k : Nat} (hk : k ≤ pendtime.toNat) :
    let c := passes tables (start ioType pendtime) k
    (c.goes = true → c.vars.loopCount.toNat = k) ∧
    pollLoop pendtime (fun n => (start ioType pendtime).hit (tables n)) (pendtime.toNat - k) c.vars =
      pollExit pendtime fun n => (start ioType pendtime).hit (tables n) := by
  induction k with
  | zero => exact ⟨fun _ => rfl, rfl⟩
  | succ k ih =>
    obtain ⟨hc, hl⟩ := ih (by omega)
    have hpt : (passes tables (start ioType pendtime) k).pendtime = pendtime := (passes_fixed k).2
    rw [passes]
    split
    · rename_i hg
      have hcount := hc hg
      have hhit : ∀ t, (passes tables (start ioType pendtime) k).hit t =
          (start ioType pendtime).hit t := fun t => by unfold hit; rw [(passes_fixed k).1]
      have hgo : (passes tables (start ioType pendtime) k).vars.goes pendtime = true := by
        rw [goes, hpt] at hg; exact hg
      constructor
      · intro _
        rw [poll_vars, PollVars.poll]
        show (_ + 1 : Word).toNat = _
        rw [toNat_succ_of_lt (goes_iff.mp hgo).1, hcount]
      · rw [show pendtime.toNat - k = (pendtime.toNat - (k + 1)) + 1 by omega, pollLoop, if_pos hgo,
          hcount] at hl
        rw [poll_vars, hhit]
        exact hl
    · rename_i hg
      rw [Bool.not_eq_true] at hg
      refine ⟨fun h => absurd h (by rw [hg]; decide), ?_⟩
      rw [goes, hpt] at hg
      rw [pollLoop_stop hg] at hl ⊢
      exact hl

/-- **A call is its passes**: when they read the tables `tables`, `LinkLayer_WaitBufferReady`
returns what the call returns after them. -/
theorem waitBufferReady_eq_passes {ioType : LINKLAYER_IO_TYPE} {pendtime : Word} {r : StatusReg}
    {readyValue : Word} (h : bufferStatus ioType = (some r, readyValue)) :
    LinkLayer_WaitBufferReady (fun r n => (tables n).status r) ioType pendtime =
      some (passes tables (start ioType pendtime) pendtime.toNat).retVal := by
  have hl := (passes_loop tables ioType (Nat.le_refl pendtime.toNat)).2
  rw [Nat.sub_self, pollLoop] at hl
  have hhit : ∀ t, (start ioType pendtime).hit t = (t.status r == readyValue) := fun t => by
    simp only [hit, start, h, Option.any_some]
  simp only [hhit] at hl
  have hpt : (passes tables (start ioType pendtime) pendtime.toNat).pendtime = pendtime :=
    (passes_fixed pendtime.toNat).2
  simp only [LinkLayer_WaitBufferReady, h, pollEqualValue, ← hl, retVal, hpt]

end WaitCall

end Dspc
