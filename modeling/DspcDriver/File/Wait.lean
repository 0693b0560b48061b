import DspcDriver.File.Chip

/-!
# What a process learns from a wait

`DPU_IO_CMD_WAITBUFFERREADY` and `DPU_IO_CMD_WAITDPMSTART` poll a status register of the handle's
table. A process sees the value that the `ioctl` returns and the status word, if one is written back.

`LinkLayer_WaitBufferReady` has no branch for a type that names no register: its pointer stays null,
and a poll reads through it. Nor is the table of the handle compared with null. The return value is 0 on
every path, so the status word alone can report a time-out, and only the first of the two commands has
one (`wait_truthful_iff`).
-/

namespace Dspc

open Lib

/-- The status register that a type of wait is about, and the value that it waits for. -/
def namedStatus (waitType : LINKLAYER_IO_TYPE) : Option (StatusReg × Word) :=
  if waitType = LINKLAYER_IO_WRITE_QRESET then some (.writeStatus, DSP_RD_RESET)
  else if waitType = LINKLAYER_IO_WRITE_QFIN then some (.writeStatus, DSP_RD_FINISH)
  else if waitType = LINKLAYER_IO_READ_QRESET then some (.readStatus, DSP_WT_RESET)
  else if waitType = LINKLAYER_IO_READ_QFIN then some (.readStatus, DSP_WT_FINISH)
  else none

/-- The process sees nothing but success: the call returns 0, and so does a status word. -/
def ReportsSuccess (x : FileM Int) : Prop :=
  x.out = .ok 0 ∧ ∀ stateCode, .copyToUser stateCode ∈ x.events → stateCode = 0

/-- A wait `x` is safe and reports what its poll returned. -/
structure WaitTruthful (pLinkLayer : LinkLayerHandler) (arg : IoctlArg) (x : FileM Int) : Prop where
  polls : ∀ table r n, .poll table r n ∈ x.events →
    table = pLinkLayer.pRegisterTable ∧ ∃ v, namedStatus arg.waitType = some (r, v)
  returns : ∃ retValue, x.out = .ok retValue
  refused : namedStatus arg.waitType = none → ¬ ReportsSuccess x
  reported : ∀ r v, namedStatus arg.waitType = some (r, v) →
    (ReportsSuccess x ↔ pollEqualValue (arg.reads r) v arg.pendTime = 0)

/-- The value is seen in one of the reads before the last one allowed. -/
def IoctlArg.Seen (arg : IoctlArg) : Prop :=
  ∃ r v, namedStatus arg.waitType = some (r, v) ∧
    ∃ n, n + 1 < arg.pendTime.toNat ∧ arg.reads r n = v

variable {chips : Chips} {name : List Byte} {pLinkLayer : LinkLayerHandler} {arg : IoctlArg}
  {r : StatusReg} {v : Word}

theorem bufferStatus_named (h : namedStatus arg.waitType = some (r, v)) :
    bufferStatus arg.waitType = (some r, v) := by
  generalize arg.waitType = w at h ⊢
  unfold namedStatus at h
  split_ifs at h with hw hw hw hw
  all_goals
    cases h
    subst hw
    rfl

theorem bufferStatus_unnamed (h : namedStatus arg.waitType = none) :
    bufferStatus arg.waitType = (none, 0) := by
  unfold namedStatus at h
  unfold bufferStatus
  grind

/-- The poll sees the value iff it returns 0. -/
theorem seen_iff (h : namedStatus arg.waitType = some (r, v)) :
    arg.Seen ↔ pollEqualValue (arg.reads r) v arg.pendTime = 0 := by
  rw [pollEqualValue, retVal_zero_iff]
  constructor
  · rintro ⟨r', v', hn, n, hlt, hv⟩
    rw [h] at hn
    cases hn
    exact ⟨n, hlt, by simpa using hv⟩
  · rintro ⟨n, hlt, hv⟩
    exact ⟨r, v, h, n, hlt, by simpa using hv⟩

theorem not_seen_unnamed (h : namedStatus arg.waitType = none) : ¬ arg.Seen := by
  rintro ⟨r, v, hn, -⟩
  rw [h] at hn
  cases hn

/-! ## The call of `LinkLayer_WaitBufferReady` -/

/-- A call that has a table, or no time to look at it. -/
theorem wait_named (h : namedStatus arg.waitType = some (r, v))
    (ht : pLinkLayer.pRegisterTable ≠ 0 ∨ arg.pendTime = 0) :
    waitBufferReady pLinkLayer arg =
      ⟨(polls arg.pendTime fun n => arg.reads r n == v).map (.poll pLinkLayer.pRegisterTable r),
        .ok (pollEqualValue (arg.reads r) v arg.pendTime)⟩ := by
  have huse : useTable pLinkLayer (!(waitPolls pLinkLayer arg).isEmpty) = pure () := by
    rcases ht with ht | ht
    · exact if_neg fun hc => ht hc.2
    · have hnil : waitPolls pLinkLayer arg = [] := by
        rw [waitPolls, bufferStatus_named h, ht]
        rfl
      rw [hnil]
      exact if_neg fun hc => by cases hc.1
  rw [waitBufferReady, huse]
  simp only [waitPolls, LinkLayer_WaitBufferReady, bufferStatus_named h, derefPtr, Trace.emitAll,
    Trace.mk_ok_bind, Trace.pure_def, List.append_nil]
  rfl

/-- A call without a table stops at its first read. -/
theorem wait_null (h : namedStatus arg.waitType = some (r, v)) (h0 : pLinkLayer.pRegisterTable = 0)
    (hp : arg.pendTime ≠ 0) : waitBufferReady pLinkLayer arg = ⟨[], .error .nullPointer⟩ := by
  have hne : waitPolls pLinkLayer arg ≠ [] := by
    rw [waitPolls, bufferStatus_named h]
    exact fun hnil => polls_ne_nil hp (List.map_eq_nil_iff.mp hnil)
  rw [waitBufferReady, useTable, if_pos ⟨by simpa using hne, h0⟩]
  rfl

/-- A call that polls for no register. -/
theorem wait_unnamed (h : namedStatus arg.waitType = none) :
    waitBufferReady pLinkLayer arg =
      ⟨[], if arg.pendTime = 0 then .ok (-1) else .error .nullPointer⟩ := by
  have hnil : waitPolls pLinkLayer arg = [] := by rw [waitPolls, bufferStatus_unnamed h]
  rw [waitBufferReady, hnil, useTable, if_neg fun hc => by cases hc.1]
  simp only [LinkLayer_WaitBufferReady, bufferStatus_unnamed h, Trace.emitAll, Trace.pure_def,
    Trace.mk_ok_bind, List.nil_append]
  by_cases h0 : arg.pendTime = 0
  · rw [h0]
    rfl
  · have hpos : 0 < arg.pendTime := by
      rw [BitVec.lt_def]
      exact Nat.pos_of_ne_zero fun h => h0 (BitVec.eq_of_toNat_eq h)
    rw [if_neg h0, if_pos hpos]
    rfl

/-- The two commands: they differ in whether a status word is written back. -/
def waitCommand (pLinkLayer : LinkLayerHandler) (arg : IoctlArg) (writesBack : Bool) : FileM Int := do
  let stateCode ← waitBufferReady pLinkLayer arg
  if writesBack then Trace.emit (.copyToUser stateCode)
  pure 0

theorem ioctl_waitBufferReady :
    DPU_ioctl chips name pLinkLayer DPU_IO_CMD_WAITBUFFERREADY arg =
      waitCommand pLinkLayer arg arg.writable := rfl

theorem ioctl_waitDpmStart :
    DPU_ioctl chips name pLinkLayer DPU_IO_CMD_WAITDPMSTART arg = waitCommand pLinkLayer arg false :=
  rfl

/-- The status word of a command, if it is written back. -/
def statusWord (writesBack : Bool) (stateCode : Int) : List FileEvent :=
  if writesBack then [.copyToUser stateCode] else []

theorem mem_statusWord {writesBack : Bool} {stateCode : Int} {e : FileEvent} :
    e ∈ statusWord writesBack stateCode ↔ writesBack = true ∧ e = .copyToUser stateCode := by
  cases writesBack <;> simp [statusWord]

/-- The run of a command behind a wait that returns. -/
theorem waitCommand_eq {es : List FileEvent} {stateCode : Int} (writesBack : Bool)
    (h : waitBufferReady pLinkLayer arg = ⟨es, .ok stateCode⟩) :
    waitCommand pLinkLayer arg writesBack = ⟨es ++ statusWord writesBack stateCode, .ok 0⟩ := by
  rw [waitCommand, h]
  cases writesBack
  · rfl
  · rfl

/-! ## The outcome -/

variable {writesBack : Bool}

/-- What the process sees: success, unless a status word reports a failure. -/
theorem reportsSuccess_iff {es : List FileEvent} {stateCode : Int}
    (hes : ∀ s, .copyToUser s ∉ es) :
    ReportsSuccess ⟨es ++ statusWord writesBack stateCode, .ok 0⟩ ↔
      (writesBack = true → stateCode = 0) := by
  simp only [ReportsSuccess, List.mem_append, mem_statusWord, true_and]
  constructor
  · intro h hw
    exact h stateCode (.inr ⟨hw, rfl⟩)
  · rintro h s (hs | ⟨hw, hs⟩)
    · exact absurd hs (hes s)
    · cases hs
      exact h hw

/-- A wait that does not return is not safe. -/
theorem not_truthful_stop {es : List FileEvent} {e : BootStop}
    (h : waitBufferReady pLinkLayer arg = ⟨es, .error e⟩) :
    ¬ WaitTruthful pLinkLayer arg (waitCommand pLinkLayer arg writesBack) := by
  rintro ⟨-, ⟨retValue, hret⟩, -, -⟩
  rw [waitCommand, h] at hret
  cases hret

theorem truthful_named (h : namedStatus arg.waitType = some (r, v))
    (ht : pLinkLayer.pRegisterTable ≠ 0 ∨ arg.pendTime = 0) :
    WaitTruthful pLinkLayer arg (waitCommand pLinkLayer arg writesBack) ↔
      writesBack = true ∨ arg.Seen := by
  have hs := @reportsSuccess_iff writesBack
    ((polls arg.pendTime fun n => arg.reads r n == v).map (.poll pLinkLayer.pRegisterTable r))
    (pollEqualValue (arg.reads r) v arg.pendTime) (by simp)
  rw [waitCommand_eq writesBack (wait_named h ht), seen_iff h]
  constructor
  · intro ht
    have hr := hs.symm.trans (ht.reported r v h)
    cases writesBack with
    | true => exact .inl rfl
    | false => exact .inr (hr.mp nofun)
  · intro hw
    refine ⟨fun table r' n hp => ?_, ⟨0, rfl⟩, fun hn => ?_, fun r' v' hn => ?_⟩
    · simp only [List.mem_append, List.mem_map, mem_statusWord, FileEvent.poll.injEq] at hp
      obtain ⟨n', -, rfl, rfl, -⟩ | ⟨-, hc⟩ := hp
      · exact ⟨rfl, v, h⟩
      · cases hc
    · rw [h] at hn
      cases hn
    · rw [h] at hn
      cases hn
      rw [hs]
      rcases hw with rfl | hz
      · simp
      · simp [hz]

theorem truthful_unnamed (h : namedStatus arg.waitType = none) :
    WaitTruthful pLinkLayer arg (waitCommand pLinkLayer arg writesBack) ↔
      arg.pendTime = 0 ∧ writesBack = true := by
  have hw := @wait_unnamed pLinkLayer arg h
  by_cases h0 : arg.pendTime = 0
  · rw [if_pos h0] at hw
    have hs := @reportsSuccess_iff writesBack [] (-1) nofun
    rw [waitCommand_eq writesBack hw]
    constructor
    · intro ht
      refine ⟨h0, ?_⟩
      by_contra hf
      exact ht.refused h (hs.mpr fun hw => absurd hw hf)
    · rintro ⟨-, rfl⟩
      refine ⟨nofun, ⟨0, rfl⟩, fun _ hsucc => absurd (hs.mp hsucc rfl) (by decide), ?_⟩
      intro r v hn
      rw [h] at hn
      cases hn
  · rw [if_neg h0] at hw
    exact iff_of_false (not_truthful_stop hw) fun hc => h0 hc.1

theorem truthful_iff_waitCommand :
    WaitTruthful pLinkLayer arg (waitCommand pLinkLayer arg writesBack) ↔
      ((namedStatus arg.waitType).isSome ∧ pLinkLayer.pRegisterTable ≠ 0 ∨ arg.pendTime = 0) ∧
        (writesBack = true ∨ arg.Seen) := by
  cases h : namedStatus arg.waitType with
  | none => simp [truthful_unnamed h, not_seen_unnamed h]
  | some p =>
    have hsome : (some p).isSome ∧ pLinkLayer.pRegisterTable ≠ 0 ∨ arg.pendTime = 0 ↔
        pLinkLayer.pRegisterTable ≠ 0 ∨ arg.pendTime = 0 := or_congr_left (and_iff_right rfl)
    rw [hsome]
    by_cases ht : pLinkLayer.pRegisterTable ≠ 0 ∨ arg.pendTime = 0
    · rw [truthful_named (r := p.1) (v := p.2) h ht, and_iff_right ht]
    · refine iff_of_false ?_ fun hc => ht hc.1
      push Not at ht
      exact not_truthful_stop (wait_null (r := p.1) (v := p.2) h ht.1 ht.2)

/-- **When a wait is safe and truthful**: a wait for a buffer, if its type names a register of a table
that is there (or it does not poll at all) and the status word can be written or the value is seen; a
wait for the DPM, exactly if the table is there and the value is seen. -/
theorem wait_truthful_iff (chips : Chips) (name : List Byte) (pLinkLayer : LinkLayerHandler)
    (arg : IoctlArg) :
    (WaitTruthful pLinkLayer arg
        (DPU_ioctl chips name pLinkLayer DPU_IO_CMD_WAITBUFFERREADY arg) ↔
      ((namedStatus arg.waitType).isSome ∧ pLinkLayer.pRegisterTable ≠ 0 ∨ arg.pendTime = 0) ∧
        (arg.writable = true ∨ arg.Seen)) ∧
    (WaitTruthful pLinkLayer arg
        (DPU_ioctl chips name pLinkLayer DPU_IO_CMD_WAITDPMSTART arg) ↔
      pLinkLayer.pRegisterTable ≠ 0 ∧ arg.Seen) := by
  rw [ioctl_waitBufferReady, ioctl_waitDpmStart, truthful_iff_waitCommand, truthful_iff_waitCommand]
  refine ⟨Iff.rfl, fun h => ?_, fun h => ⟨.inl ⟨?_, h.1⟩, .inr h.2⟩⟩
  · have hseen := h.2.resolve_left nofun
    have hpos : arg.pendTime ≠ 0 := by
      rintro h0
      obtain ⟨r, v, -, n, hn, -⟩ := hseen
      rw [h0] at hn
      exact Nat.not_lt_zero _ hn
    exact ⟨(h.1.resolve_right hpos).2, hseen⟩
  · obtain ⟨-, r, v, hn, -⟩ := h
    rw [hn]
    rfl

/-- A type that names no register, with one poll; and a wait for the DPM that times out. -/
theorem reset_not_wait_truthful :
    ¬ WaitTruthful firstFile.handle ⟨LINKLAYER_IO_WRITE_RESET, 1, true, 0, fun _ _ => 0⟩
      (DPU_ioctl firstChip (devNameStr ++ [0x30]) firstFile.handle DPU_IO_CMD_WAITBUFFERREADY
        ⟨LINKLAYER_IO_WRITE_RESET, 1, true, 0, fun _ _ => 0⟩) ∧
    ¬ WaitTruthful firstFile.handle ⟨LINKLAYER_IO_WRITE_QRESET, 1, true, 0, fun _ _ => 0⟩
      (DPU_ioctl firstChip (devNameStr ++ [0x30]) firstFile.handle DPU_IO_CMD_WAITDPMSTART
        ⟨LINKLAYER_IO_WRITE_QRESET, 1, true, 0, fun _ _ => 0⟩) := by
  rw [ioctl_waitBufferReady, ioctl_waitDpmStart, truthful_unnamed rfl,
    truthful_named (r := .writeStatus) (v := DSP_RD_RESET) rfl (.inl (by decide))]
  refine ⟨fun h => absurd h.1 (by decide), ?_⟩
  rintro (h | h)
  · cases h
  · rw [seen_iff (r := .writeStatus) (v := DSP_RD_RESET) rfl] at h
    revert h
    decide

end Dspc
