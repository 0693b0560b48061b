import DspcDriver.Link.Code
import DspcDriver.Lib.Handshake

/-!
# The buffer transfer to the DSP

An application hands a list of buffers to the DSP through the link layer: for each buffer it changes
the status to `WRITE_RESET`, calls `LinkLayer_WaitBufferReady` with `WRITE_QRESET` until it returns
0, fills the out buffer, changes the status to `WRITE_FIN` and calls `LinkLayer_WaitBufferReady` with
`WRITE_QFIN` until it returns 0. The DSP is the consumer of the two-register handshake, with the
codes of `writeControl` and `writeStatus`. Beside them any number of callers use the read direction
of the same table, and the DSP stores what it likes into `readStatus`.

The passes of the poll are steps of their own, and each call has its own `pendtime`. A call has its
answer from the pass that decides its result on (`WaitCall.ready`), not from its return on: this is
where the handshake of the simulation takes its step (`AppAt`, `linkSys_simulates`). A pass that
sees the value and is the last one allowed does not decide the result: the call times out, the
application repeats it, and the handshake has not moved.
-/

namespace Dspc

open Lib Handshake

/-- Where the application is with buffer `n`. -/
inductive AppPlace where
  /-- Before `WRITE_RESET`. -/
  | start (n : Nat)
  /-- Before a call of `LinkLayer_WaitBufferReady` with `ioType`. -/
  | waiting (n : Nat) (ioType : LINKLAYER_IO_TYPE)
  /-- In that call. -/
  | polling (n : Nat) (call : WaitCall)
  /-- Filling the buffer; `k` words are written. -/
  | fill (n k : Nat)

/-- The codes of `writeControl` and `writeStatus`; both registers start at zero. -/
def writeControlCodes : Codes Word where
  code
    | .idle => 0
    | .reset => PC_WT_RESET
    | .finish => PC_WT_FINISH
  inj := by intro l l'; cases l <;> cases l' <;> decide

def writeStatusCodes : Codes Word where
  code
    | .idle => 0
    | .reset => DSP_RD_RESET
    | .finish => DSP_RD_FINISH
  inj := by intro l l'; cases l <;> cases l' <;> decide

/-- The state of a transfer; `readers i` is the running wait of the `i`-th caller that uses the read
direction. -/
structure LinkState (β : Type) where
  app : AppPlace
  readers : Nat → Option WaitCall
  table : LinkLayerRegisterTable
  outBuffer : Nat → β
  dsp : Consumer β
  delivered : List (List β)

variable {β : Type}

/-- The DSP with its register `writeStatus`. -/
def LinkState.consumer (s : LinkState β) : ConsumerState Word β :=
  ⟨s.dsp, s.table.writeStatus, s.delivered⟩

/-- What the application does when its call has returned `retVal`. -/
def afterWait (n : Nat) (ioType : LINKLAYER_IO_TYPE) (retVal : Int) : AppPlace :=
  if retVal = 0 then
    if ioType = LINKLAYER_IO_WRITE_QRESET then .fill n 0 else .start (n + 1)
  else .waiting n ioType

section System

variable (buffers : List (List β))

inductive LinkStep : LinkState β → LinkState β → Prop
  | reset {s : LinkState β} {n : Nat} : s.app = .start n → n < buffers.length →
      LinkStep s { s with
        app := .waiting n LINKLAYER_IO_WRITE_QRESET
        table := (LinkLayer_ChangeBufferStatus s.table LINKLAYER_IO_WRITE_RESET).2 }
  | call {s : LinkState β} {n : Nat} {ioType : LINKLAYER_IO_TYPE} (pendtime : Word) :
      s.app = .waiting n ioType →
      LinkStep s { s with app := .polling n (.start ioType pendtime) }
  | poll {s : LinkState β} {n : Nat} {c : WaitCall} : s.app = .polling n c → c.goes = true →
      LinkStep s { s with app := .polling n (c.poll s.table) }
  | ret {s : LinkState β} {n : Nat} {c : WaitCall} : s.app = .polling n c → c.goes = false →
      LinkStep s { s with app := afterWait n c.ioType c.retVal }
  | write {s : LinkState β} {n k : Nat} {w : β} : s.app = .fill n k →
      (msg buffers n)[k]? = some w →
      LinkStep s { s with
        app := .fill n (k + 1), outBuffer := Function.update s.outBuffer k w }
  | finish {s : LinkState β} {n : Nat} : s.app = .fill n (msg buffers n).length →
      LinkStep s { s with
        app := .waiting n LINKLAYER_IO_WRITE_QFIN
        table := (LinkLayer_ChangeBufferStatus s.table LINKLAYER_IO_WRITE_FIN).2 }
  -- the read direction
  | readChange {s : LinkState β} {ioType : LINKLAYER_IO_TYPE} :
      ioType = LINKLAYER_IO_READ_RESET ∨ ioType = LINKLAYER_IO_READ_FIN →
      LinkStep s { s with table := (LinkLayer_ChangeBufferStatus s.table ioType).2 }
  | readCall {s : LinkState β} {i : Nat} {ioType : LINKLAYER_IO_TYPE} (pendtime : Word) :
      ioType = LINKLAYER_IO_READ_QRESET ∨ ioType = LINKLAYER_IO_READ_QFIN → s.readers i = none →
      LinkStep s { s with
        readers := Function.update s.readers i (some (.start ioType pendtime)) }
  | readPoll {s : LinkState β} {i : Nat} {c : WaitCall} : s.readers i = some c → c.goes = true →
      LinkStep s { s with readers := Function.update s.readers i (some (c.poll s.table)) }
  | readRet {s : LinkState β} {i : Nat} {c : WaitCall} : s.readers i = some c → c.goes = false →
      LinkStep s { s with readers := Function.update s.readers i none }
  -- the DSP
  | dsp {s : LinkState β} {y : ConsumerState Word β} :
      ConsumerStep writeControlCodes writeStatusCodes buffers s.table.writeControl s.outBuffer
        s.consumer y →
      LinkStep s { s with
        dsp := y.place, table := { s.table with writeStatus := y.status }
        delivered := y.delivered }
  | dspRead {s : LinkState β} (v : Word) :
      LinkStep s { s with table := { s.table with readStatus := v } }

/-- The transfer of `buffers`, from any contents of the out buffer. -/
def linkSys : Sys (LinkState β) where
  init s := s.app = .start 0 ∧ (∀ i, s.readers i = none) ∧ s.table = ⟨0, 0, 0, 0⟩ ∧
    s.dsp = .waitReset ∧ s.delivered = []
  step := LinkStep buffers

/-- A call for the producer: it has moved on as soon as the call is ready. -/
def CallAt (n : Nat) (c : WaitCall) (p : Producer) : Prop :=
  (c.ioType = LINKLAYER_IO_WRITE_QRESET ∧ p = if c.ready then .fill n 0 else .await n) ∨
  (c.ioType = LINKLAYER_IO_WRITE_QFIN ∧ p = if c.ready then .start (n + 1) else .sent n)

/-- The place of the producer at each place of the application. -/
def AppAt : AppPlace → Producer → Prop
  | .start n, p => p = .start n
  | .waiting n ioType, p => n < buffers.length ∧ CallAt n (.start ioType 0) p
  | .polling n c, p => n < buffers.length ∧ CallAt n c p
  | .fill n k, p => p = .fill n k

/-- The transfer `s` is at the state `a` of the handshake. -/
structure LinkRel (s : LinkState β) (a : State β) : Prop where
  app : AppAt buffers s.app a.producer
  shows : Shows writeControlCodes writeStatusCodes s.table.writeControl s.outBuffer s.consumer a

end System

variable {buffers : List (List β)} {n : Nat} {c : WaitCall} {t : LinkLayerRegisterTable}
  {p : Producer} {s : LinkState β} {a : State β}

/-! ## One call -/

theorem CallAt.start_any {ioType : LINKLAYER_IO_TYPE} {pendtime : Word}
    (h : CallAt n (.start ioType pendtime) p) (pendtime' : Word) :
    CallAt n (.start ioType pendtime') p := h

/-- A pass that hits has seen the level that its call waits for. -/
theorem hit_reset {l : Level} (hio : c.ioType = LINKLAYER_IO_WRITE_QRESET)
    (hst : t.writeStatus = writeStatusCodes.code l) : c.hit t = true ↔ l = .reset := by
  rw [WaitCall.hit, hio, bufferStatus_writeQReset]
  simp only [Option.any_some, LinkLayerRegisterTable.status, hst, beq_iff_eq]
  show writeStatusCodes.code l = writeStatusCodes.code .reset ↔ _
  exact writeStatusCodes.code_eq

theorem hit_finish {l : Level} (hio : c.ioType = LINKLAYER_IO_WRITE_QFIN)
    (hst : t.writeStatus = writeStatusCodes.code l) : c.hit t = true ↔ l = .finish := by
  rw [WaitCall.hit, hio, bufferStatus_writeQFin]
  simp only [Option.any_some, LinkLayerRegisterTable.status, hst, beq_iff_eq]
  show writeStatusCodes.code l = writeStatusCodes.code .finish ↔ _
  exact writeStatusCodes.code_eq

/-- A pass: it decides the result and the handshake moves, or it does not and nothing happens. -/
theorem CallAt.poll (hn : n < buffers.length) (h : CallAt n c a.producer) (hg : c.goes = true)
    (hst : t.writeStatus = writeStatusCodes.code a.status) :
    ∃ p, CallAt n (c.poll t) p ∧
      (p = a.producer ∨ Handshake.Step buffers a { a with producer := p }) := by
  have hnr := WaitCall.not_ready_of_goes hg
  obtain ⟨hio, hp⟩ | ⟨hio, hp⟩ := h <;> rw [hnr] at hp
  · refine ⟨_, .inl ⟨hio, rfl⟩, ?_⟩
    cases hr : (c.poll t).ready with
    | true => exact .inr (.grant hp hn ((hit_reset hio hst).mp (WaitCall.hit_of_ready hg hr)))
    | false => exact .inl hp.symm
  · refine ⟨_, .inr ⟨hio, rfl⟩, ?_⟩
    cases hr : (c.poll t).ready with
    | true => exact .inr (.done hp ((hit_finish hio hst).mp (WaitCall.hit_of_ready hg hr)))
    | false => exact .inl hp.symm

/-- The return: the application goes where the handshake already is. -/
theorem CallAt.ret (hn : n < buffers.length) (h : CallAt n c p) (hg : c.goes = false) :
    AppAt buffers (afterWait n c.ioType c.retVal) p := by
  have h0 := WaitCall.retVal_zero_of_done hg
  unfold afterWait
  cases hr : c.ready with
  | true =>
    rw [if_pos (h0.mpr hr)]
    obtain ⟨hio, hp⟩ | ⟨hio, hp⟩ := h <;> rw [hr, if_pos rfl] at hp <;> rw [hio]
    · rw [if_pos rfl]; exact hp
    · rw [if_neg (by decide)]; exact hp
  | false =>
    rw [if_neg fun he => by rw [h0.mp he] at hr; cases hr]
    obtain ⟨hio, hp⟩ | ⟨hio, hp⟩ := h <;> rw [hr] at hp <;> rw [hio]
    · exact ⟨hn, .inl ⟨rfl, hp⟩⟩
    · exact ⟨hn, .inr ⟨rfl, hp⟩⟩

/-! ## The simulation -/

/-- What the steps of the read direction keep. -/
theorem LinkRel.frame {s' : LinkState β} (h : LinkRel buffers s a) (happ : s'.app = s.app)
    (hctl : s'.table.writeControl = s.table.writeControl)
    (hst : s'.table.writeStatus = s.table.writeStatus) (hout : s'.outBuffer = s.outBuffer)
    (hdsp : s'.dsp = s.dsp) (hdel : s'.delivered = s.delivered) : LinkRel buffers s' a := by
  obtain ⟨ha, hc, hz, hp, hs, hd⟩ := h
  exact ⟨happ ▸ ha, hctl ▸ hc, hout ▸ hz, hdsp.trans hp, hst.trans hs, hdel.trans hd⟩

/-- **The transfer is simulated by the handshake.** -/
theorem linkSys_simulates :
    Sys.Simulates (linkSys buffers) (Handshake.sys buffers) (LinkRel buffers) where
  start s h := by
    obtain ⟨ha, -, ht, hc, hd⟩ := h
    refine ⟨⟨.start 0, .waitReset, .idle, .idle, s.outBuffer, []⟩, ⟨rfl, rfl, rfl, rfl, rfl⟩, ?_, ?_,
      rfl, hc, ?_, hd⟩
    · rw [ha]; rfl
    · rw [ht]; rfl
    · show s.table.writeStatus = _
      rw [ht]; rfl
  step s s' a hreach hr hst := by
    have ⟨ha, hc, hz, hp, hs, hd⟩ := hr
    cases hst with
    | reset happ hn =>
      rw [happ] at ha
      exact ⟨_, .inr (.reset ha), ⟨hn, .inl ⟨rfl, rfl⟩⟩, rfl, hz, hp, hs, hd⟩
    | call pendtime happ =>
      rw [happ] at ha
      exact ⟨a, .inl rfl, ⟨ha.1, ha.2.start_any pendtime⟩, hc, hz, hp, hs, hd⟩
    | poll happ hg =>
      rw [happ] at ha
      obtain ⟨p, hp', rfl | hstep⟩ := ha.2.poll ha.1 hg hs
      · exact ⟨a, .inl rfl, ⟨ha.1, hp'⟩, hc, hz, hp, hs, hd⟩
      · exact ⟨_, .inr hstep, ⟨ha.1, hp'⟩, hc, hz, hp, hs, hd⟩
    | ret happ hg =>
      rw [happ] at ha
      exact ⟨a, .inl rfl, ha.2.ret ha.1 hg, hc, hz, hp, hs, hd⟩
    | write happ hw =>
      rw [happ] at ha
      exact ⟨_, .inr (.write ha hw), rfl, hc, by rw [hz], hp, hs, hd⟩
    | @finish n happ =>
      rw [happ] at ha
      have hpl := (inv hreach).place
      rw [ha] at hpl
      exact ⟨_, .inr (.send ha), ⟨hpl.1, .inr ⟨rfl, rfl⟩⟩, rfl, hz, hp, hs, hd⟩
    | readChange hio =>
      refine ⟨a, .inl rfl, hr.frame rfl (changeBufferStatus_writeControl s.table ?_ ?_)
        (changeBufferStatus_status s.table _ .writeStatus) rfl rfl rfl⟩ <;>
        rcases hio with rfl | rfl <;> decide
    | readCall | readPoll | readRet | dspRead =>
      exact ⟨a, .inl rfl, hr.frame rfl rfl rfl rfl rfl rfl⟩
    | dsp h =>
      obtain ⟨b, hb, hprod, hsh⟩ := h.sim hr.shows
      refine ⟨b, .inr hb, ?_, hsh⟩
      rw [hprod]
      exact ha

/-! ## What the transfer delivers -/

/-- Where the application has had the answer for every buffer before `n` and has not sent buffer
`n`. -/
def AppPlace.Acked (n : Nat) : AppPlace → Prop
  | .start m | .fill m _ => m = n
  | .waiting m ioType => m = n ∧ ioType = LINKLAYER_IO_WRITE_QRESET
  | .polling m c => m = n ∧ c.ioType = LINKLAYER_IO_WRITE_QRESET

theorem CallAt.acked (h : CallAt n c p) (hio : c.ioType = LINKLAYER_IO_WRITE_QRESET) :
    p = .start n ∨ p = .await n ∨ ∃ k, p = .fill n k := by
  obtain ⟨-, hp⟩ | ⟨hio', -⟩ := h
  · by_cases hr : c.ready = true
    · exact .inr (.inr ⟨0, by rw [hp, if_pos hr]⟩)
    · exact .inr (.inl (by rw [hp, if_neg hr]))
  · rw [hio] at hio'
    exact absurd hio' (by decide)

theorem AppPlace.Acked.producer {place : AppPlace} (h : place.Acked n) (ha : AppAt buffers place p) :
    p = .start n ∨ p = .await n ∨ ∃ k, p = .fill n k := by
  cases place with
  | start m => exact .inl (by rw [ha, h])
  | waiting m ioType =>
    obtain ⟨rfl, hio⟩ := h
    exact ha.2.acked hio
  | polling m c =>
    obtain ⟨rfl, hio⟩ := h
    exact ha.2.acked hio
  | fill m k => exact .inr (.inr ⟨k, by rw [ha, h]⟩)

/-- A call finds its value in the register, or the DSP can go on. -/
theorem LinkRel.progress {ioType : LINKLAYER_IO_TYPE} (hi : Inv buffers a)
    (hr : LinkRel buffers s a) (h : s.app = .waiting n ioType) (pendtime : Word) :
    (WaitCall.start ioType pendtime).hit s.table = true ∨
      ∃ y, ConsumerStep writeControlCodes writeStatusCodes buffers s.table.writeControl s.outBuffer
        s.consumer y := by
  have ha := hr.app
  rw [h] at ha
  obtain ⟨-, ⟨hio, hp⟩ | ⟨hio, hp⟩⟩ := ha
  · exact (hi.consumer_reset hr.shows hp).imp_left fun hst => (hit_reset hio hst).mpr rfl
  · exact (hi.consumer_finish hr.shows hp).imp_left fun hst => (hit_finish hio hst).mpr rfl

/-- **The transfer loses and duplicates nothing**, over every interleaving and for every `pendtime`
of every call: the application does not fill the out buffer while the DSP reads it; what the DSP has
read is a prefix of the buffers, and a read in progress is a prefix of the next one; an application
that has had the answers for the buffers before `n` knows that exactly these were read; and a wait is
never in vain. -/
theorem transfer_exactly_once (h : (linkSys buffers).Reach s) :
    (∀ n k, s.app = .fill n k → ∀ ws, s.dsp ≠ .reading ws) ∧
    s.delivered <+: buffers ∧
    (∀ ws, s.dsp = .reading ws →
      ∃ buffer, buffers[s.delivered.length]? = some buffer ∧ ws <+: buffer) ∧
    (∀ n, s.app.Acked n → s.delivered = buffers.take n) ∧
    (∀ n ioType, s.app = .waiting n ioType → ∀ pendtime,
      (WaitCall.start ioType pendtime).hit s.table = true ∨
        ∃ y, ConsumerStep writeControlCodes writeStatusCodes buffers s.table.writeControl
          s.outBuffer s.consumer y) := by
  obtain ⟨a, ha, hr⟩ := linkSys_simulates.reach h
  have hi := inv ha
  have hd : s.delivered = a.delivered := hr.shows.delivered
  have hp : s.dsp = a.consumer := hr.shows.place
  refine ⟨fun n k happ ws => ?_, hd ▸ hi.delivered, fun ws hws => ?_, fun n hn => ?_,
    fun n ioType happ => hr.progress hi happ⟩
  · have hpr := hr.app
    rw [happ] at hpr
    rw [hp]
    exact hi.exclusive hpr ws
  · rw [hd]
    exact hi.reading (hp ▸ hws)
  · rw [hd]
    exact hi.acked (hn.producer hr.app)

def twoBuffers : List (List Nat) := [[7, 8], [9, 10]]

/-- The first buffer is delivered and acknowledged; the second is sent, and the DSP has read one word of it.
Another caller waits for a buffer from the DSP. -/
def secondTransfer : LinkState Nat where
  app := .waiting 1 LINKLAYER_IO_WRITE_QFIN
  readers := Function.update (fun _ => none) 0 (some (.start LINKLAYER_IO_READ_QRESET 5))
  table := ⟨DSP_RD_RESET, DSP_WT_RESET, PC_WT_FINISH, 0⟩
  outBuffer := Function.update (Function.update (Function.update (Function.update (fun _ => 0)
    0 7) 1 8) 0 9) 1 10
  dsp := .reading [9]
  delivered := [[7, 8]]

theorem secondTransfer_reach : (linkSys twoBuffers).Reach secondTransfer := by
  have h0 : (linkSys twoBuffers).Reach
      ⟨.start 0, fun _ => none, ⟨0, 0, 0, 0⟩, fun _ => 0, .waitReset, []⟩ :=
    .start ⟨rfl, fun _ => rfl, rfl, rfl, rfl⟩
  have h1 := h0.next (.reset rfl (by decide))
  -- a call of one pass, which times out although it sees the level
  have h2 := h1.next (.call 1 rfl)
  have h3 := h2.next (.dsp (.seeReset rfl rfl))
  have h4 := h3.next (.dsp (.ackReset rfl))
  have h5 := h4.next (.poll rfl rfl)
  have h6 := h5.next (.ret rfl rfl)
  have h7 := h6.next (.call 2 rfl)
  have h8 := h7.next (.poll rfl rfl)
  have h9 := h8.next (.ret rfl rfl)
  have h10 := h9.next (.write rfl rfl)
  have h11 := h10.next (.write rfl rfl)
  have h12 := h11.next (.finish rfl)
  have h13 := h12.next (.dsp (.seeFinish rfl rfl))
  have h14 := h13.next (.dsp (.read rfl (by decide)))
  have h15 := h14.next (.dsp (.read rfl (by decide)))
  have h16 := h15.next (.dsp (.deliver rfl rfl))
  have h17 := h16.next (.dsp (.ackFinish rfl))
  have h18 := h17.next (.call 2 rfl)
  have h19 := h18.next (.poll rfl rfl)
  have h20 := h19.next (.ret rfl rfl)
  -- the second buffer, and the caller that reads
  have h21 := h20.next (.reset rfl (by decide))
  have h22 := h21.next (.readCall (i := 0) 5 (.inl rfl) rfl)
  have h23 := h22.next (.dspRead DSP_WT_RESET)
  have h24 := h23.next (.dsp (.seeReset rfl rfl))
  have h25 := h24.next (.dsp (.ackReset rfl))
  have h26 := h25.next (.call 2 rfl)
  have h27 := h26.next (.poll rfl rfl)
  have h28 := h27.next (.ret rfl rfl)
  have h29 := h28.next (.write rfl rfl)
  have h30 := h29.next (.write rfl rfl)
  have h31 := h30.next (.finish rfl)
  have h32 := h31.next (.dsp (.seeFinish rfl rfl))
  have h33 := h32.next (.dsp (.read rfl (by decide)))
  exact h33

theorem transfer_exactly_once_second :
    (∀ n k, secondTransfer.app = .fill n k → ∀ ws, secondTransfer.dsp ≠ .reading ws) ∧
    secondTransfer.delivered <+: twoBuffers ∧
    (∀ ws, secondTransfer.dsp = .reading ws →
      ∃ buffer, twoBuffers[secondTransfer.delivered.length]? = some buffer ∧ ws <+: buffer) ∧
    (∀ n, secondTransfer.app.Acked n → secondTransfer.delivered = twoBuffers.take n) ∧
    (∀ n ioType, secondTransfer.app = .waiting n ioType → ∀ pendtime,
      (WaitCall.start ioType pendtime).hit secondTransfer.table = true ∨
        ∃ y, ConsumerStep writeControlCodes writeStatusCodes twoBuffers
          secondTransfer.table.writeControl secondTransfer.outBuffer secondTransfer.consumer y) :=
  transfer_exactly_once secondTransfer_reach

end Dspc
