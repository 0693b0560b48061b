import DspcDriver.Link.Completion

/-!
# Calls of one pass

`pollEqualValue` counts a pass before it looks at the value, so a call of `LinkLayer_WaitBufferReady` that
allows one pass returns a time-out whatever it sees. Applications that allow no more never hand over a
buffer and never take one, however often they call, and the DSP never reads one and never fills one
(`onePass_never`). They lose nothing either: with longer calls both transfers can still be brought to
their end from where they are.
-/

namespace Dspc

open Lib Handshake

namespace WaitCall

variable {call : WaitCall} {t : LinkLayerRegisterTable}

/-- A call that allows one pass at most: it has made none yet, or its result is a time-out. -/
structure OnePass (call : WaitCall) : Prop where
  pendtime : call.pendtime.toNat ≤ 1
  vars : call.vars = .start ∨ 1 ≤ call.vars.loopCount.toNat

theorem OnePass.start {ioType : LINKLAYER_IO_TYPE} {pendtime : Word} (h : pendtime.toNat ≤ 1) :
    (WaitCall.start ioType pendtime).OnePass :=
  ⟨h, .inl rfl⟩

theorem OnePass.poll (h : call.OnePass) (hg : call.goes = true) : (call.poll t).OnePass := by
  refine ⟨h.pendtime, .inr ?_⟩
  show 1 ≤ (call.vars.loopCount + 1).toNat
  rw [toNat_succ_of_lt (goes_iff.mp hg).1]
  omega

theorem OnePass.retVal_ne_zero (h : call.OnePass) (hg : call.goes = false) : call.retVal ≠ 0 := by
  rw [ne_eq, retVal_eq_zero]
  obtain ⟨hpend, hv | hv⟩ := h
  · intro hlt
    have hgoes : call.goes = true := goes_iff.mpr ⟨hlt, by rw [hv]; rfl⟩
    rw [hg] at hgoes
    cases hgoes
  · omega

end WaitCall

/-- The application that writes has not been granted its first buffer. -/
inductive AppPlace.OnePass : AppPlace → Prop
  | start : OnePass (.start 0)
  | waiting : OnePass (.waiting 0 LINKLAYER_IO_WRITE_QRESET)
  | polling {call : WaitCall} : call.ioType = LINKLAYER_IO_WRITE_QRESET → call.OnePass →
      OnePass (.polling 0 call)

/-- The application that reads has not been offered its first buffer. -/
inductive ReadPlace.OnePass : ReadPlace → Prop
  | waiting : OnePass (.waiting LINKLAYER_IO_READ_QRESET)
  | polling {call : WaitCall} : call.ioType = LINKLAYER_IO_READ_QRESET → call.OnePass →
      OnePass (.polling call)

/-- Both transfers, where every call allows one pass at most. -/
def onePassSys (c : Channel) (outs ins : List (List Word)) : Sys DuplexState where
  init := (duplexSys c outs ins).init
  step s t := DuplexStep c outs ins s t ∧
    (∀ n call, t.writer = .polling n call → call.pendtime.toNat ≤ 1) ∧
    ∀ call, t.reader = .polling call → call.pendtime.toNat ≤ 1

/-- Nothing has been handed over, and none of the four is in a buffer. -/
structure DuplexState.Untouched (s : DuplexState) : Prop where
  delivered : s.delivered = []
  taken : s.taken = []
  writer : ∀ n k, s.writer ≠ .fill n k
  reader : ∀ ws, s.reader ≠ .reading ws
  dspIn : ∀ ws, s.dspIn ≠ .reading ws
  dspOut : ∀ n k, s.dspOut ≠ .fill n k

section OnePass

variable {c : Channel} {base : Nat} {outs ins : List (List Word)} {s t : DuplexState}

theorem duplex_of_onePass (h : (onePassSys c outs ins).Reach s) : (duplexSys c outs ins).Reach s := by
  induction h with
  | start h => exact .start h
  | next _ hst ih => exact ih.next hst.1

/-- **No step of these systems ends a wait.** -/
theorem onePass_step (hst : (onePassSys c outs ins).step s t)
    (hi : s.writer.OnePass ∧ s.reader.OnePass ∧ s.taken = []) :
    t.writer.OnePass ∧ t.reader.OnePass ∧ t.taken = [] := by
  obtain ⟨hw, hr, ht⟩ := hi
  obtain ⟨hst, hwriter, hreader⟩ := hst
  cases hst with
  | reset h =>
    rw [h] at hw
    cases hw
    exact ⟨.waiting, hr, ht⟩
  | call pendtime h =>
    rw [h] at hw
    cases hw
    exact ⟨.polling rfl (.start (hwriter _ _ rfl)), hr, ht⟩
  | poll h hg =>
    rw [h] at hw
    cases hw with
    | polling hio hcall => exact ⟨.polling hio (hcall.poll hg), hr, ht⟩
  | ret h hg =>
    rw [h] at hw
    cases hw with
    | polling hio hcall =>
      rw [afterWait, if_neg (hcall.retVal_ne_zero hg), hio]
      exact ⟨.waiting, hr, ht⟩
  | write h | finish h =>
    rw [h] at hw
    cases hw
  | readCall pendtime h =>
    rw [h] at hr
    cases hr
    exact ⟨hw, .polling rfl (.start (hreader _ rfl)), ht⟩
  | readPoll h hg =>
    rw [h] at hr
    cases hr with
    | polling hio hcall => exact ⟨hw, .polling hio (hcall.poll hg), ht⟩
  | readRet h hg =>
    rw [h] at hr
    cases hr with
    | polling hio hcall =>
      rw [afterReadWait, if_neg (hcall.retVal_ne_zero hg), hio]
      exact ⟨hw, .waiting, ht⟩
  | readReset h | read h | took h | readFin h =>
    rw [h] at hr
    cases hr
  | dspIn | dspReset | dspGrant | dspWrite | dspSend | dspDone | other => exact ⟨hw, hr, ht⟩

theorem onePass (h : (onePassSys c outs ins).Reach s) :
    s.writer.OnePass ∧ s.reader.OnePass ∧ s.taken = [] :=
  h.inv (fun _ h => by
    obtain ⟨-, hw, hr, ht, -⟩ := h
    rw [hw, hr]
    exact ⟨.start, .waiting, ht⟩) fun _ _ hi hst => onePass_step hst hi

theorem AppPlace.OnePass.acked {place : AppPlace} (h : place.OnePass) : place.Acked 0 := by
  cases h with
  | start => rfl
  | waiting => exact ⟨rfl, rfl⟩
  | polling hio => exact ⟨rfl, hio⟩

/-- The application that writes does not write into the buffer. -/
theorem AppPlace.OnePass.not_fill {place : AppPlace} (h : place.OnePass) (n k : Nat) :
    place ≠ .fill n k := by
  rintro rfl
  cases h

theorem ReadPlace.OnePass.not_reading {place : ReadPlace} (h : place.OnePass) (ws : List Word) :
    place ≠ .reading ws := by
  rintro rfl
  cases h

/-- It has not seen more than the DSP's `reset`. -/
theorem ReadPlace.OnePass.asks {place : ReadPlace} (h : place.OnePass) : place.Asks := by
  cases h with
  | waiting => rfl
  | polling hio => exact hio

theorem untouched_of_shared (hc : c.Shared base)
    (houts : ∀ m ∈ outs, m.length ≤ WTBUFLENGTH.toNat / 4)
    (hins : ∀ m ∈ ins, m.length ≤ RDBUFLENGTH.toNat / 4) (h : (onePassSys c outs ins).Reach s) :
    s.Untouched := by
  have hreach := duplex_of_onePass h
  obtain ⟨hw, hr, ht⟩ := onePass h
  exact {
    delivered := (exact_of_shared hc houts hins hreach).acked 0 hw.acked
    taken := ht
    writer := hw.not_fill
    reader := hr.not_reading
    dspIn := not_reading_of_acked hc houts hins hreach hw.acked
    dspOut := not_fill_of_asks hc houts hins hreach hr.asks }

end OnePass

/-- **Calls of one pass hand nothing over**, over every interleaving with a DSP that answers as it should,
on either side; and from each of these states longer calls bring both transfers to their end. The DMA
buffer is at a multiple of its length, the file is open, and the messages fit into the buffers of the
handle. -/
theorem onePass_never {virt_to_phys : Word → Word} {chips : Chips} {minor : Nat}
    {kmalloc : Option Word} {f : PrivateData} {v p : Word} {reg : Nat → Word}
    {outs ins : List (List Word)} {s : DuplexState} (hv : ∀ d, virt_to_phys (v + d) = p + d)
    (hp : p.toNat % DMA_TRANSFER_SIZE.toNat = 0)
    (hz : chips.gpRegisterTable minor = (zone v p).pRegisterTable)
    (hopen : (DPU_open chips minor kmalloc).out = .ok (0, some f))
    (houts : ∀ m ∈ outs, 4 * m.length ≤ f.handle.outBufferLength.toNat)
    (hins : ∀ m ∈ ins, 4 * m.length ≤ f.handle.inBufferLength.toNat)
    (h : (onePassSys (channel virt_to_phys f.handle
      (Stores.run (dspMemoryMap (zone v p).alignPhyAddr DMA_TRANSFER_SIZE).2 reg)) outs ins).Reach s) :
    s.Untouched ∧
    ∃ n t, (duplexSys (channel virt_to_phys f.handle
        (Stores.run (dspMemoryMap (zone v p).alignPhyAddr DMA_TRANSFER_SIZE).2 reg)) outs ins).Steps
          s n t ∧ t.delivered = outs ∧ t.taken = ins := by
  obtain ⟨hfo, hfi⟩ := fits_of_open hopen houts hins
  obtain ⟨n, t, hrun, -, -, hd, ht⟩ :=
    completes_of_shared (channel_shared hv hp hz hopen) hfo hfi (duplex_of_onePass h)
  exact ⟨untouched_of_shared (channel_shared hv hp hz hopen) hfo hfi h, n, t, hrun, hd, ht⟩

/-- The levels are there in both directions, and each application has made the only pass of its call. -/
def askedOnce : DuplexState :=
  startDuplex.after firstChannel twoOuts twoIns
    [.writer 1, .dspIn, .dspIn, .dspOut, .writer 1, .reader 1, .writer 1, .reader 1]

theorem askedOnce_reach : (onePassSys firstChannel twoOuts twoIns).Reach askedOnce := by
  have h0 : (onePassSys firstChannel twoOuts twoIns).Reach startDuplex :=
    .start ⟨rfl, rfl, rfl, rfl, rfl, rfl, rfl⟩
  have h1 := h0.next ⟨.reset rfl (by decide), by rintro _ _ ⟨⟩, by rintro _ ⟨⟩⟩
  have h2 := h1.next ⟨.dspIn (.seeReset rfl rfl), by rintro _ _ ⟨⟩, by rintro _ ⟨⟩⟩
  have h3 := h2.next ⟨.dspIn (.ackReset rfl), by rintro _ _ ⟨⟩, by rintro _ ⟨⟩⟩
  have h4 := h3.next ⟨.dspReset rfl, by rintro _ _ ⟨⟩, by rintro _ ⟨⟩⟩
  have h5 := h4.next ⟨.call 1 rfl, by rintro _ _ ⟨⟩; decide, by rintro _ ⟨⟩⟩
  have h6 := h5.next ⟨.readCall 1 rfl, by rintro _ _ ⟨⟩; decide, by rintro _ ⟨⟩; decide⟩
  have h7 := h6.next ⟨.poll rfl (by decide), by rintro _ _ ⟨⟩; decide, by rintro _ ⟨⟩; decide⟩
  have h8 := h7.next ⟨.readPoll rfl (by decide), by rintro _ _ ⟨⟩; decide, by rintro _ ⟨⟩; decide⟩
  exact h8

theorem onePass_never_asked :
    (firstChannel.table askedOnce.mem).writeStatus = DSP_RD_RESET ∧
    (firstChannel.table askedOnce.mem).readStatus = DSP_WT_RESET ∧
    askedOnce.Untouched ∧
    ∃ n t, (duplexSys firstChannel twoOuts twoIns).Steps askedOnce n t ∧ t.delivered = twoOuts ∧
      t.taken = twoIns :=
  ⟨by decide +kernel, by decide +kernel,
    onePass_never (p := 0x01400000) firstChip_linear (by decide) rfl firstFile_open (by decide)
      (by decide) askedOnce_reach⟩

end Dspc
