import DspcDriver.Link.Layout
import DspcDriver.Link.Transfer

/-!
# Both directions of the link in one memory

One application hands buffers to the DSP, another takes buffers from it, and both transfers use the
same DMA buffer: two registers each in the one register table, the out buffer and the in buffer
behind it. The application that reads waits for the DSP's `reset` with `READ_QRESET`, changes the
status to `READ_RESET`, waits with `READ_QFIN`, reads the in buffer word by word, and changes the
status to `READ_FIN`; the DSP is the producer of that handshake.

The state has one memory, and each party uses its own addresses of it (`Channel`). What the transfers
do not use of the register table, the process and the DSP store into as they like (`DuplexStep.other`).

The lemmas on `Channel.Shared` say what each store changes: its own word, in whichever way it is read.
-/

namespace Dspc

open Lib Handshake

/-! ## The stores and reads of `LinkLayer.c` in memory -/

/-- The members that `LinkLayer_ChangeBufferStatus` stores into, with the values. -/
def changeStores (ioType : LINKLAYER_IO_TYPE) : List (TableField × Word) :=
  (if ioType = LINKLAYER_IO_WRITE_RESET then [(.writeControl, PC_WT_RESET)] else []) ++
  (if ioType = LINKLAYER_IO_WRITE_FIN then [(.writeControl, PC_WT_FINISH)] else []) ++
  (if ioType = LINKLAYER_IO_READ_RESET then [(.readControl, PC_RD_RESET)] else []) ++
  (if ioType = LINKLAYER_IO_READ_FIN then [(.readControl, PC_RD_FINISH)] else [])

section

variable (c : Channel)

/-- The registers of the transfer, as the kernel reads them. -/
def Channel.table (mem : Nat → Word) : LinkLayerRegisterTable where
  writeStatus := mem (c.kernel TableField.writeStatus.offset)
  readStatus := mem (c.kernel TableField.readStatus.offset)
  writeControl := mem (c.kernel TableField.writeControl.offset)
  readControl := mem (c.kernel TableField.readControl.offset)

/-- The memory after `LinkLayer_ChangeBufferStatus`. -/
def Channel.changeBufferStatus (mem : Nat → Word) (ioType : LINKLAYER_IO_TYPE) : Nat → Word :=
  Stores.run ((changeStores ioType).map fun s => (c.kernel s.1.offset, s.2)) mem

end

/-! ## The system -/

/-- Where the application that reads is. -/
inductive ReadPlace where
  /-- Before a call of `LinkLayer_WaitBufferReady` with `ioType`. -/
  | waiting (ioType : LINKLAYER_IO_TYPE)
  /-- In that call. -/
  | polling (call : WaitCall)
  /-- Before `READ_RESET`. -/
  | granted
  /-- It has read the words `ws` of the in buffer. -/
  | reading (ws : List Word)
  /-- Before `READ_FIN`. -/
  | took
  deriving DecidableEq

/-- What the application does when its call has returned `retVal`. -/
def afterReadWait (ioType : LINKLAYER_IO_TYPE) (retVal : Int) : ReadPlace :=
  if retVal = 0 then
    if ioType = LINKLAYER_IO_READ_QRESET then .granted else .reading []
  else .waiting ioType

/-- The codes of `readStatus`, which the DSP writes, and of `readControl`. -/
def readStatusCodes : Codes Word where
  code
    | .idle => 0
    | .reset => DSP_WT_RESET
    | .finish => DSP_WT_FINISH
  inj := by intro l l'; cases l <;> cases l' <;> decide

def readControlCodes : Codes Word where
  code
    | .idle => 0
    | .reset => PC_RD_RESET
    | .finish => PC_RD_FINISH
  inj := by intro l l'; cases l <;> cases l' <;> decide

/-- The state of both transfers: the memory by physical address, the two applications, and the DSP with
the buffers that it has read and its place with those that it writes. -/
structure DuplexState where
  mem : Nat → Word
  writer : AppPlace
  reader : ReadPlace
  taken : List (List Word)
  dspIn : Consumer Word
  delivered : List (List Word)
  dspOut : Producer

/-- The members of the table that the transfers use. -/
def transferFields : List TableField := [.writeStatus, .readStatus, .writeControl, .readControl]

section System

variable (c : Channel) (outs ins : List (List Word))

/-- The DSP that reads, with its register `writeStatus`. -/
def DuplexState.consumer (s : DuplexState) : ConsumerState Word Word :=
  ⟨s.dspIn, s.mem (c.dsp TableField.writeStatus.offset), s.delivered⟩

inductive DuplexStep : DuplexState → DuplexState → Prop
  -- the application that writes
  | reset {s : DuplexState} {n : Nat} : s.writer = .start n → n < outs.length →
      DuplexStep s { s with
        writer := .waiting n LINKLAYER_IO_WRITE_QRESET
        mem := c.changeBufferStatus s.mem LINKLAYER_IO_WRITE_RESET }
  | call {s : DuplexState} {n : Nat} {ioType : LINKLAYER_IO_TYPE} (pendtime : Word) :
      s.writer = .waiting n ioType →
      DuplexStep s { s with writer := .polling n (.start ioType pendtime) }
  | poll {s : DuplexState} {n : Nat} {call : WaitCall} : s.writer = .polling n call →
      call.goes = true → DuplexStep s { s with writer := .polling n (call.poll (c.table s.mem)) }
  | ret {s : DuplexState} {n : Nat} {call : WaitCall} : s.writer = .polling n call →
      call.goes = false → DuplexStep s { s with writer := afterWait n call.ioType call.retVal }
  | write {s : DuplexState} {n k : Nat} {w : Word} : s.writer = .fill n k →
      (msg outs n)[k]? = some w →
      DuplexStep s { s with
        writer := .fill n (k + 1)
        mem := Function.update s.mem (c.user (c.outBuffer + 4 * k)) w }
  | finish {s : DuplexState} {n : Nat} : s.writer = .fill n (msg outs n).length →
      DuplexStep s { s with
        writer := .waiting n LINKLAYER_IO_WRITE_QFIN
        mem := c.changeBufferStatus s.mem LINKLAYER_IO_WRITE_FIN }
  -- the application that reads
  | readCall {s : DuplexState} {ioType : LINKLAYER_IO_TYPE} (pendtime : Word) :
      s.reader = .waiting ioType →
      DuplexStep s { s with reader := .polling (.start ioType pendtime) }
  | readPoll {s : DuplexState} {call : WaitCall} : s.reader = .polling call → call.goes = true →
      DuplexStep s { s with reader := .polling (call.poll (c.table s.mem)) }
  | readRet {s : DuplexState} {call : WaitCall} : s.reader = .polling call → call.goes = false →
      DuplexStep s { s with reader := afterReadWait call.ioType call.retVal }
  | readReset {s : DuplexState} : s.reader = .granted →
      DuplexStep s { s with
        reader := .waiting LINKLAYER_IO_READ_QFIN
        mem := c.changeBufferStatus s.mem LINKLAYER_IO_READ_RESET }
  | read {s : DuplexState} {ws : List Word} : s.reader = .reading ws →
      ws.length < (msg ins s.taken.length).length →
      DuplexStep s { s with
        reader := .reading (ws ++ [s.mem (c.user (c.inBuffer + 4 * ws.length))]) }
  | took {s : DuplexState} {ws : List Word} : s.reader = .reading ws →
      ws.length = (msg ins s.taken.length).length →
      DuplexStep s { s with reader := .took, taken := s.taken ++ [ws] }
  | readFin {s : DuplexState} : s.reader = .took →
      DuplexStep s { s with
        reader := .waiting LINKLAYER_IO_READ_QRESET
        mem := c.changeBufferStatus s.mem LINKLAYER_IO_READ_FIN }
  -- the DSP that reads
  | dspIn {s : DuplexState} {y : ConsumerState Word Word} :
      ConsumerStep writeControlCodes writeStatusCodes outs
        (s.mem (c.dsp TableField.writeControl.offset))
        (fun k => s.mem (c.dsp (c.outBuffer + 4 * k))) (s.consumer c) y →
      DuplexStep s { s with
        dspIn := y.place
        mem := Function.update s.mem (c.dsp TableField.writeStatus.offset) y.status
        delivered := y.delivered }
  -- the DSP that writes
  | dspReset {s : DuplexState} {n : Nat} : s.dspOut = .start n →
      DuplexStep s { s with
        dspOut := .await n
        mem := Function.update s.mem (c.dsp TableField.readStatus.offset) DSP_WT_RESET }
  | dspGrant {s : DuplexState} {n : Nat} : s.dspOut = .await n → n < ins.length →
      s.mem (c.dsp TableField.readControl.offset) = PC_RD_RESET →
      DuplexStep s { s with dspOut := .fill n 0 }
  | dspWrite {s : DuplexState} {n k : Nat} {w : Word} : s.dspOut = .fill n k →
      (msg ins n)[k]? = some w →
      DuplexStep s { s with
        dspOut := .fill n (k + 1)
        mem := Function.update s.mem (c.dsp (c.inBuffer + 4 * k)) w }
  | dspSend {s : DuplexState} {n : Nat} : s.dspOut = .fill n (msg ins n).length →
      DuplexStep s { s with
        dspOut := .sent n
        mem := Function.update s.mem (c.dsp TableField.readStatus.offset) DSP_WT_FINISH }
  | dspDone {s : DuplexState} {n : Nat} : s.dspOut = .sent n →
      s.mem (c.dsp TableField.readControl.offset) = PC_RD_FINISH →
      DuplexStep s { s with dspOut := .start (n + 1) }
  -- the rest of the table
  | other {s : DuplexState} {o a : Nat} (v : Word) : o < tableSize.toNat →
      (∀ f ∈ transferFields, o ≠ f.offset) → a = c.user o ∨ a = c.dsp o →
      DuplexStep s { s with mem := Function.update s.mem a v }

/-- The transfer of `outs` to the DSP and of `ins` from it, from any contents of the memory but the four
registers. -/
def duplexSys : Sys DuplexState where
  init s := c.table s.mem = ⟨0, 0, 0, 0⟩ ∧ s.writer = .start 0 ∧
    s.reader = .waiting LINKLAYER_IO_READ_QRESET ∧ s.taken = [] ∧ s.dspIn = .waitReset ∧
    s.delivered = [] ∧ s.dspOut = .start 0
  step := DuplexStep c outs ins

end System

/-! ## What a store changes -/

section Memory

variable {c : Channel} {base : Nat} {mem : Nat → Word} {o k : Nat} {v : Word}

theorem Channel.Shared.kernel_field (hc : c.Shared base) (f : TableField) :
    c.kernel f.offset = base + f.offset :=
  hc.kernel _ (f.offset_lt.trans (by decide))

theorem Channel.Shared.dsp_field (hc : c.Shared base) (f : TableField) :
    c.dsp f.offset = base + f.offset :=
  hc.dsp _ (f.offset_lt.trans (by decide))

/-- The words of the out buffer, for the process and for the DSP. -/
theorem Channel.Shared.out (hc : c.Shared base) (hk : k < WTBUFLENGTH.toNat / 4) :
    c.user (c.outBuffer + 4 * k) = base + (0x2000 + 4 * k) ∧
      c.dsp (c.outBuffer + 4 * k) = base + (0x2000 + 4 * k) := by
  have hlen : WTBUFLENGTH.toNat = 0x2000 := rfl
  have hsize : DMA_TRANSFER_SIZE.toNat = 0x400000 := rfl
  rw [hc.outBuffer, show tableSize.toNat = 0x2000 from rfl]
  exact ⟨hc.user _ (by omega), hc.dsp _ (by omega)⟩

/-- The words of the in buffer. -/
theorem Channel.Shared.inn (hc : c.Shared base) (hk : k < RDBUFLENGTH.toNat / 4) :
    c.user (c.inBuffer + 4 * k) = base + (0x4000 + 4 * k) ∧
      c.dsp (c.inBuffer + 4 * k) = base + (0x4000 + 4 * k) := by
  have hlen : RDBUFLENGTH.toNat = 0x3FC000 := rfl
  have hsize : DMA_TRANSFER_SIZE.toNat = 0x400000 := rfl
  rw [hc.inBuffer, show tableSize.toNat + WTBUFLENGTH.toNat = 0x4000 from rfl]
  exact ⟨hc.user _ (by omega), hc.dsp _ (by omega)⟩

theorem Channel.Shared.table_eq (hc : c.Shared base) (mem : Nat → Word) :
    c.table mem = ⟨mem (base + TableField.writeStatus.offset),
      mem (base + TableField.readStatus.offset), mem (base + TableField.writeControl.offset),
      mem (base + TableField.readControl.offset)⟩ := by
  simp only [Channel.table, hc.kernel_field]

/-- A store into a member of the table. -/
theorem store_field (f g : TableField) :
    Function.update mem (base + f.offset) v (base + g.offset) =
      if g = f then v else mem (base + g.offset) := by
  by_cases h : g = f
  · rw [h, if_pos rfl, Function.update_self]
  · rw [if_neg h, Function.update_of_ne fun he => h (TableField.offset_inj (by omega))]

theorem Channel.Shared.table_writeStatus (hc : c.Shared base) :
    c.table (Function.update mem (c.dsp TableField.writeStatus.offset) v) =
      { c.table mem with writeStatus := v } := by
  simp only [hc.table_eq, hc.dsp_field, store_field, reduceCtorEq, if_true, if_false]

theorem Channel.Shared.table_readStatus (hc : c.Shared base) :
    c.table (Function.update mem (c.dsp TableField.readStatus.offset) v) =
      { c.table mem with readStatus := v } := by
  simp only [hc.table_eq, hc.dsp_field, store_field, reduceCtorEq, if_true, if_false]

theorem Channel.Shared.table_writeControl (hc : c.Shared base) :
    c.table (Function.update mem (c.kernel TableField.writeControl.offset) v) =
      { c.table mem with writeControl := v } := by
  simp only [hc.table_eq, hc.kernel_field, store_field, reduceCtorEq, if_true, if_false]

theorem Channel.Shared.table_readControl (hc : c.Shared base) :
    c.table (Function.update mem (c.kernel TableField.readControl.offset) v) =
      { c.table mem with readControl := v } := by
  simp only [hc.table_eq, hc.kernel_field, store_field, reduceCtorEq, if_true, if_false]

/-- A store elsewhere leaves the registers. -/
theorem Channel.Shared.table_update (hc : c.Shared base)
    (ho : ∀ f ∈ transferFields, o ≠ f.offset) :
    c.table (Function.update mem (base + o) v) = c.table mem := by
  have hne : ∀ f ∈ transferFields, Function.update mem (base + o) v (base + f.offset) =
      mem (base + f.offset) := fun f hf => by
    have := ho f hf
    exact Function.update_of_ne (by omega) ..
  simp only [hc.table_eq, hne .writeStatus (by decide), hne .readStatus (by decide),
    hne .writeControl (by decide), hne .readControl (by decide)]

/-- The buffers are behind the registers. -/
theorem ne_field_of_le (ho : 0x2000 ≤ o) : ∀ f ∈ transferFields, o ≠ f.offset := fun f _ => by
  have := f.offset_lt
  rw [show tableSize.toNat = 0x2000 from rfl] at this
  omega

/-- A store outside of the out buffer leaves it. -/
theorem Channel.Shared.out_update (hc : c.Shared base) (ho : o < 0x2000 ∨ 0x4000 ≤ o)
    (hk : k < WTBUFLENGTH.toNat / 4) :
    Function.update mem (base + o) v (c.dsp (c.outBuffer + 4 * k)) =
      mem (c.dsp (c.outBuffer + 4 * k)) := by
  have hlen : WTBUFLENGTH.toNat = 0x2000 := rfl
  rw [(hc.out hk).2, Function.update_of_ne]
  omega

theorem Channel.Shared.inn_update (hc : c.Shared base) (ho : o < 0x4000)
    (hk : k < RDBUFLENGTH.toNat / 4) :
    Function.update mem (base + o) v (c.dsp (c.inBuffer + 4 * k)) =
      mem (c.dsp (c.inBuffer + 4 * k)) := by
  rw [(hc.inn hk).2, Function.update_of_ne]
  omega

/-- A store of the process into the out buffer: one word of it, no register, and nothing of the in
buffer. -/
theorem Channel.Shared.out_write (hc : c.Shared base) (mem : Nat → Word) (v : Word)
    (hk : k < WTBUFLENGTH.toNat / 4) :
    (∀ (zone : Nat → Word), (∀ i < WTBUFLENGTH.toNat / 4, zone i = mem (c.dsp (c.outBuffer + 4 * i))) →
      ∀ i < WTBUFLENGTH.toNat / 4, Function.update zone k v i =
        Function.update mem (c.user (c.outBuffer + 4 * k)) v (c.dsp (c.outBuffer + 4 * i))) ∧
    c.table (Function.update mem (c.user (c.outBuffer + 4 * k)) v) = c.table mem ∧
    ∀ i < RDBUFLENGTH.toNat / 4,
      Function.update mem (c.user (c.outBuffer + 4 * k)) v (c.dsp (c.inBuffer + 4 * i)) =
        mem (c.dsp (c.inBuffer + 4 * i)) := by
  have hlen : WTBUFLENGTH.toNat = 0x2000 := rfl
  rw [(hc.out hk).1]
  refine ⟨fun zone hz i hi => ?_, hc.table_update (ne_field_of_le (by omega)),
    fun i hi => hc.inn_update (by omega) hi⟩
  by_cases h : i = k
  · rw [h, (hc.out hk).2, Function.update_self, Function.update_self]
  · rw [Function.update_of_ne h, hz i hi, (hc.out hi).2, Function.update_of_ne]
    omega

/-- A store of the DSP into the in buffer. -/
theorem Channel.Shared.inn_write (hc : c.Shared base) (mem : Nat → Word) (v : Word)
    (hk : k < RDBUFLENGTH.toNat / 4) :
    (∀ (zone : Nat → Word), (∀ i < RDBUFLENGTH.toNat / 4, zone i = mem (c.dsp (c.inBuffer + 4 * i))) →
      ∀ i < RDBUFLENGTH.toNat / 4, Function.update zone k v i =
        Function.update mem (c.dsp (c.inBuffer + 4 * k)) v (c.dsp (c.inBuffer + 4 * i))) ∧
    c.table (Function.update mem (c.dsp (c.inBuffer + 4 * k)) v) = c.table mem ∧
    ∀ i < WTBUFLENGTH.toNat / 4,
      Function.update mem (c.dsp (c.inBuffer + 4 * k)) v (c.dsp (c.outBuffer + 4 * i)) =
        mem (c.dsp (c.outBuffer + 4 * i)) := by
  rw [(hc.inn hk).2]
  refine ⟨fun zone hz i hi => ?_, hc.table_update (ne_field_of_le (by omega)),
    fun i hi => hc.out_update (.inr (by omega)) hi⟩
  by_cases h : i = k
  · rw [h, (hc.inn hk).2, Function.update_self, Function.update_self]
  · rw [Function.update_of_ne h, hz i hi, (hc.inn hi).2, Function.update_of_ne]
    omega

/-- A register of the DSP is in neither buffer. -/
theorem Channel.Shared.out_dsp_field (hc : c.Shared base) (f : TableField)
    (hk : k < WTBUFLENGTH.toNat / 4) :
    Function.update mem (c.dsp f.offset) v (c.dsp (c.outBuffer + 4 * k)) =
      mem (c.dsp (c.outBuffer + 4 * k)) := by
  rw [hc.dsp_field, hc.out_update (.inl f.offset_lt) hk]

theorem Channel.Shared.inn_dsp_field (hc : c.Shared base) (f : TableField)
    (hk : k < RDBUFLENGTH.toNat / 4) :
    Function.update mem (c.dsp f.offset) v (c.dsp (c.inBuffer + 4 * k)) =
      mem (c.dsp (c.inBuffer + 4 * k)) := by
  rw [hc.dsp_field, hc.inn_update (f.offset_lt.trans (by decide)) hk]

/-- `LinkLayer_ChangeBufferStatus` makes at most one store, into one of the two control registers. -/
theorem changeBufferStatus_cases (c : Channel) (mem : Nat → Word) (ioType : LINKLAYER_IO_TYPE) :
    c.changeBufferStatus mem ioType = mem ∨
    ∃ f v, (f = TableField.writeControl ∨ f = TableField.readControl) ∧
      c.changeBufferStatus mem ioType = Function.update mem (c.kernel f.offset) v := by
  unfold Channel.changeBufferStatus changeStores
  by_cases h1 : ioType = LINKLAYER_IO_WRITE_RESET
  · subst h1; exact .inr ⟨_, _, .inl rfl, rfl⟩
  by_cases h2 : ioType = LINKLAYER_IO_WRITE_FIN
  · subst h2; exact .inr ⟨_, _, .inl rfl, rfl⟩
  by_cases h3 : ioType = LINKLAYER_IO_READ_RESET
  · subst h3; exact .inr ⟨_, _, .inr rfl, rfl⟩
  by_cases h4 : ioType = LINKLAYER_IO_READ_FIN
  · subst h4; exact .inr ⟨_, _, .inr rfl, rfl⟩
  · rw [if_neg h1, if_neg h2, if_neg h3, if_neg h4]
    exact .inl rfl

/-- The registers after `LinkLayer_ChangeBufferStatus`, in memory and in the table. -/
theorem Channel.Shared.table_change (hc : c.Shared base) (ioType : LINKLAYER_IO_TYPE) :
    c.table (c.changeBufferStatus mem ioType) =
      (LinkLayer_ChangeBufferStatus (c.table mem) ioType).2 := by
  by_cases h1 : ioType = LINKLAYER_IO_WRITE_RESET
  · subst h1; exact hc.table_writeControl
  by_cases h2 : ioType = LINKLAYER_IO_WRITE_FIN
  · subst h2; exact hc.table_writeControl
  by_cases h3 : ioType = LINKLAYER_IO_READ_RESET
  · subst h3; exact hc.table_readControl
  by_cases h4 : ioType = LINKLAYER_IO_READ_FIN
  · subst h4; exact hc.table_readControl
  · simp only [Channel.changeBufferStatus, changeStores, LinkLayer_ChangeBufferStatus, if_neg h1,
      if_neg h2, if_neg h3, if_neg h4]
    rfl

/-- It leaves the buffers. -/
theorem Channel.Shared.out_change (hc : c.Shared base) (ioType : LINKLAYER_IO_TYPE)
    (hk : k < WTBUFLENGTH.toNat / 4) : c.changeBufferStatus mem ioType (c.dsp (c.outBuffer + 4 * k)) =
      mem (c.dsp (c.outBuffer + 4 * k)) := by
  obtain h | ⟨f, v, -, h⟩ := changeBufferStatus_cases c mem ioType
  · rw [h]
  · rw [h, hc.kernel_field, hc.out_update (.inl f.offset_lt) hk]

theorem Channel.Shared.inn_change (hc : c.Shared base) (ioType : LINKLAYER_IO_TYPE)
    (hk : k < RDBUFLENGTH.toNat / 4) : c.changeBufferStatus mem ioType (c.dsp (c.inBuffer + 4 * k)) =
      mem (c.dsp (c.inBuffer + 4 * k)) := by
  obtain h | ⟨f, v, -, h⟩ := changeBufferStatus_cases c mem ioType
  · rw [h]
  · rw [h, hc.kernel_field, hc.inn_update (f.offset_lt.trans (by decide)) hk]

end Memory

end Dspc
