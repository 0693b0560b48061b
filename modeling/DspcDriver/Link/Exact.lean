import DspcDriver.Link.Schedule

/-!
# Both directions are exactly once

Each direction of `duplexSys` is a simulation of its own: the writing half by the transfer of
`Link.Transfer`, for which the reading half is the traffic beside it (`duplex_simulates_link`), and the
reading half by the handshake (`duplex_simulates_read`). What the handshake guarantees then holds of
both halves of one state (`DuplexState.Exact`).
-/

namespace Dspc

open Lib Handshake

/-! ## The direction to the DSP -/

section Out

variable {c : Channel} {base : Nat} {outs ins : List (List Word)} {s s' : DuplexState}
  {a : LinkState Word}

/-- The writing half of `s` is the transfer `a`, with the words that fit into the out buffer. -/
structure OutRel (c : Channel) (s : DuplexState) (a : LinkState Word) : Prop where
  app : a.app = s.writer
  table : a.table = c.table s.mem
  buffer : ∀ k < WTBUFLENGTH.toNat / 4, a.outBuffer k = s.mem (c.dsp (c.outBuffer + 4 * k))
  dsp : a.dsp = s.dspIn
  delivered : a.delivered = s.delivered

/-- What a store outside of the transfer keeps. -/
theorem OutRel.frame (h : OutRel c s a) (hw : s'.writer = s.writer)
    (ht : c.table s'.mem = c.table s.mem)
    (hb : ∀ k < WTBUFLENGTH.toNat / 4,
      s'.mem (c.dsp (c.outBuffer + 4 * k)) = s.mem (c.dsp (c.outBuffer + 4 * k)))
    (hd : s'.dspIn = s.dspIn) (hdel : s'.delivered = s.delivered) : OutRel c s' a where
  app := h.app.trans hw.symm
  table := h.table.trans ht.symm
  buffer k hk := (h.buffer k hk).trans (hb k hk).symm
  dsp := h.dsp.trans hd.symm
  delivered := h.delivered.trans hdel.symm

/-- **The writing half is the transfer of `Link.Transfer`**; the reading half is traffic beside it. -/
theorem duplex_simulates_link (hc : c.Shared base)
    (houts : ∀ m ∈ outs, m.length ≤ WTBUFLENGTH.toNat / 4)
    (hins : ∀ m ∈ ins, m.length ≤ RDBUFLENGTH.toNat / 4) :
    Sys.Simulates (duplexSys c outs ins) (linkSys outs) (OutRel c) where
  start s h := by
    obtain ⟨ht, hw, -, -, hd, hdel, -⟩ := h
    exact ⟨⟨s.writer, fun _ => none, c.table s.mem, fun k => s.mem (c.dsp (c.outBuffer + 4 * k)),
      s.dspIn, s.delivered⟩, ⟨hw, fun _ => rfl, ht, hd, hdel⟩, rfl, rfl, fun _ _ => rfl, rfl, rfl⟩
  step s s' a _ hr hst := by
    have ⟨happ, htab, hbuf, hdsp, hdel⟩ := hr
    cases hst with
    | reset hw hn =>
      exact ⟨_, .inr (.reset (happ.trans hw) hn), rfl, by rw [hc.table_change, htab],
        fun k hk => (hbuf k hk).trans (hc.out_change _ hk).symm, hdsp, hdel⟩
    | call pendtime hw =>
      exact ⟨_, .inr (.call pendtime (happ.trans hw)), rfl, htab, hbuf, hdsp, hdel⟩
    | poll hw hg =>
      exact ⟨_, .inr (.poll (happ.trans hw) hg), by rw [htab], htab, hbuf, hdsp, hdel⟩
    | ret hw hg => exact ⟨_, .inr (.ret (happ.trans hw) hg), rfl, htab, hbuf, hdsp, hdel⟩
    | @write n i w hw hm =>
      have hi : i < WTBUFLENGTH.toNat / 4 :=
        (List.getElem?_eq_some_iff.mp hm).1.trans_le (msg_length_le houts n)
      obtain ⟨hz, ht, -⟩ := hc.out_write s.mem w hi
      exact ⟨_, .inr (.write (happ.trans hw) hm), rfl, by rw [ht, htab], hz _ hbuf, hdsp, hdel⟩
    | finish hw =>
      exact ⟨_, .inr (.finish (happ.trans hw)), rfl, by rw [hc.table_change, htab],
        fun k hk => (hbuf k hk).trans (hc.out_change _ hk).symm, hdsp, hdel⟩
    | readCall | readPoll | readRet | read | took | dspGrant | dspDone =>
      exact ⟨a, .inl rfl, hr.frame rfl rfl (fun _ _ => rfl) rfl rfl⟩
    | readReset =>
      exact ⟨_, .inr (.readChange (.inl rfl)), happ, by rw [hc.table_change, htab],
        fun k hk => (hbuf k hk).trans (hc.out_change _ hk).symm, hdsp, hdel⟩
    | readFin =>
      exact ⟨_, .inr (.readChange (.inr rfl)), happ, by rw [hc.table_change, htab],
        fun k hk => (hbuf k hk).trans (hc.out_change _ hk).symm, hdsp, hdel⟩
    | @dspIn y h =>
      have hcons : a.consumer = s.consumer c := by
        rw [LinkState.consumer, hdsp, htab, hdel, hc.table_eq, DuplexState.consumer, hc.dsp_field]
      have hctl : a.table.writeControl = s.mem (c.dsp TableField.writeControl.offset) := by
        rw [htab, hc.table_eq, hc.dsp_field]
      have hstep : LinkStep outs a _ := .dsp (y := y) (by
        rw [hctl, hcons]
        exact h.congr_zone fun k hk => (hbuf k (hk.trans_le (msg_length_le houts _))).symm)
      exact ⟨_, .inr hstep, happ, by rw [hc.table_writeStatus, htab],
        fun k hk => (hbuf k hk).trans (hc.out_dsp_field _ hk).symm, rfl, rfl⟩
    | dspReset =>
      exact ⟨_, .inr (.dspRead DSP_WT_RESET), happ, by rw [hc.table_readStatus, htab],
        fun k hk => (hbuf k hk).trans (hc.out_dsp_field _ hk).symm, hdsp, hdel⟩
    | dspSend =>
      exact ⟨_, .inr (.dspRead DSP_WT_FINISH), happ, by rw [hc.table_readStatus, htab],
        fun k hk => (hbuf k hk).trans (hc.out_dsp_field _ hk).symm, hdsp, hdel⟩
    | @dspWrite n i w hp hm =>
      have hi : i < RDBUFLENGTH.toNat / 4 :=
        (List.getElem?_eq_some_iff.mp hm).1.trans_le (msg_length_le hins n)
      obtain ⟨-, ht, hb⟩ := hc.inn_write s.mem w hi
      exact ⟨a, .inl rfl, hr.frame rfl ht hb rfl rfl⟩
    | @other o b v ho hf hb =>
      have hb' : b = base + o := hb.elim (·.trans (hc.user _ (ho.trans (by decide))))
        (·.trans (hc.dsp _ (ho.trans (by decide))))
      subst hb'
      exact ⟨a, .inl rfl, hr.frame rfl (hc.table_update hf)
        (fun k hk => hc.out_update (.inl ho) hk) rfl rfl⟩

end Out

/-! ## The direction from the DSP -/

section In

variable {c : Channel} {base : Nat} {outs ins : List (List Word)} {s s' : DuplexState}
  {a : State Word} {call : WaitCall} {t : LinkLayerRegisterTable} {p : Consumer Word}

/-- A call for the consumer: it has moved on as soon as the call is ready. -/
def ReadCallAt (call : WaitCall) (p : Consumer Word) : Prop :=
  (call.ioType = LINKLAYER_IO_READ_QRESET ∧ p = if call.ready then .ackReset else .waitReset) ∨
  (call.ioType = LINKLAYER_IO_READ_QFIN ∧ p = if call.ready then .reading [] else .waitFinish)

/-- The place of the consumer at each place of the application. -/
def ReadAt : ReadPlace → Consumer Word → Prop
  | .waiting ioType, p => ReadCallAt (.start ioType 0) p
  | .polling call, p => ReadCallAt call p
  | .granted, p => p = .ackReset
  | .reading ws, p => p = .reading ws
  | .took, p => p = .ackFinish

/-- The reading half of `s` is at the state `a` of the handshake, with the words that fit into the in
buffer. -/
structure InRel (c : Channel) (s : DuplexState) (a : State Word) : Prop where
  producer : a.producer = s.dspOut
  reader : ReadAt s.reader a.consumer
  control : (c.table s.mem).readStatus = readStatusCodes.code a.control
  status : (c.table s.mem).readControl = readControlCodes.code a.status
  zone : ∀ k < RDBUFLENGTH.toNat / 4, a.zone k = s.mem (c.dsp (c.inBuffer + 4 * k))
  delivered : a.delivered = s.taken

/-- A pass that hits has seen the level that its call waits for. -/
theorem hit_readReset {l : Level} (hio : call.ioType = LINKLAYER_IO_READ_QRESET)
    (hst : t.readStatus = readStatusCodes.code l) : call.hit t = true ↔ l = .reset := by
  rw [WaitCall.hit, hio, bufferStatus_readQReset]
  simp only [Option.any_some, LinkLayerRegisterTable.status, hst, beq_iff_eq]
  show readStatusCodes.code l = readStatusCodes.code .reset ↔ _
  exact readStatusCodes.code_eq

theorem hit_readFinish {l : Level} (hio : call.ioType = LINKLAYER_IO_READ_QFIN)
    (hst : t.readStatus = readStatusCodes.code l) : call.hit t = true ↔ l = .finish := by
  rw [WaitCall.hit, hio, bufferStatus_readQFin]
  simp only [Option.any_some, LinkLayerRegisterTable.status, hst, beq_iff_eq]
  show readStatusCodes.code l = readStatusCodes.code .finish ↔ _
  exact readStatusCodes.code_eq

/-- A pass: it decides the result and the handshake moves, or it does not and nothing happens. -/
theorem ReadCallAt.poll (h : ReadCallAt call a.consumer) (hg : call.goes = true)
    (hst : t.readStatus = readStatusCodes.code a.control) :
    ∃ p, ReadCallAt (call.poll t) p ∧
      (p = a.consumer ∨ Handshake.Step ins a { a with consumer := p }) := by
  have hnr := WaitCall.not_ready_of_goes hg
  obtain ⟨hio, hp⟩ | ⟨hio, hp⟩ := h <;> rw [hnr] at hp
  · refine ⟨_, .inl ⟨hio, rfl⟩, ?_⟩
    cases hr : (call.poll t).ready with
    | true => exact .inr (.seeReset hp ((hit_readReset hio hst).mp (WaitCall.hit_of_ready hg hr)))
    | false => exact .inl hp.symm
  · refine ⟨_, .inr ⟨hio, rfl⟩, ?_⟩
    cases hr : (call.poll t).ready with
    | true => exact .inr (.seeFinish hp ((hit_readFinish hio hst).mp (WaitCall.hit_of_ready hg hr)))
    | false => exact .inl hp.symm

/-- The return: the application goes where the handshake already is. -/
theorem ReadCallAt.ret (h : ReadCallAt call p) (hg : call.goes = false) :
    ReadAt (afterReadWait call.ioType call.retVal) p := by
  have h0 := WaitCall.retVal_zero_of_done hg
  unfold afterReadWait
  cases hr : call.ready with
  | true =>
    rw [if_pos (h0.mpr hr)]
    obtain ⟨hio, hp⟩ | ⟨hio, hp⟩ := h <;> rw [hr, if_pos rfl] at hp <;> rw [hio]
    · rw [if_pos rfl]; exact hp
    · rw [if_neg (by decide)]; exact hp
  | false =>
    rw [if_neg fun he => by rw [h0.mp he] at hr; cases hr]
    obtain ⟨hio, hp⟩ | ⟨hio, hp⟩ := h <;> rw [hr] at hp <;> rw [hio]
    · exact .inl ⟨rfl, hp⟩
    · exact .inr ⟨rfl, hp⟩

/-- What the steps of the writing half keep. -/
theorem InRel.frame (h : InRel c s a) (hr : s'.reader = s.reader) (hd : s'.dspOut = s.dspOut)
    (ht : s'.taken = s.taken) (hs : (c.table s'.mem).readStatus = (c.table s.mem).readStatus)
    (hc : (c.table s'.mem).readControl = (c.table s.mem).readControl)
    (hz : ∀ k < RDBUFLENGTH.toNat / 4,
      s'.mem (c.dsp (c.inBuffer + 4 * k)) = s.mem (c.dsp (c.inBuffer + 4 * k))) : InRel c s' a where
  producer := h.producer.trans hd.symm
  reader := hr ▸ h.reader
  control := hs.trans h.control
  status := hc.trans h.status
  zone k hk := (h.zone k hk).trans (hz k hk).symm
  delivered := h.delivered.trans ht.symm

/-- A change of the status in the write direction. -/
theorem InRel.change (hc : c.Shared base) (h : InRel c s a) {ioType : LINKLAYER_IO_TYPE}
    (hio : ioType = LINKLAYER_IO_WRITE_RESET ∨ ioType = LINKLAYER_IO_WRITE_FIN) (app : AppPlace) :
    InRel c { s with writer := app, mem := c.changeBufferStatus s.mem ioType } a := by
  refine h.frame rfl rfl rfl ?_ ?_ fun k hk => hc.inn_change _ hk
  · rw [hc.table_change]
    rcases hio with rfl | rfl <;> rfl
  · rw [hc.table_change]
    rcases hio with rfl | rfl <;> rfl

/-- **The reading half is the handshake of the DSP with the application.** -/
theorem duplex_simulates_read (hc : c.Shared base)
    (houts : ∀ m ∈ outs, m.length ≤ WTBUFLENGTH.toNat / 4)
    (hins : ∀ m ∈ ins, m.length ≤ RDBUFLENGTH.toNat / 4) :
    Sys.Simulates (duplexSys c outs ins) (Handshake.sys ins) (InRel c) where
  start s h := by
    obtain ⟨ht, -, hr, htk, -, -, hd⟩ := h
    refine ⟨⟨.start 0, .waitReset, .idle, .idle, fun k => s.mem (c.dsp (c.inBuffer + 4 * k)), []⟩,
      ⟨rfl, rfl, rfl, rfl, rfl⟩, hd.symm, ?_, ?_, ?_, fun _ _ => rfl, htk.symm⟩
    · rw [hr]; exact .inl ⟨rfl, rfl⟩
    · rw [ht]; rfl
    · rw [ht]; rfl
  step s s' a _ hr hst := by
    have ⟨hprod, hrd, hctl, hsta, hz, hdel⟩ := hr
    have hread : s.mem (c.dsp TableField.readControl.offset) = (c.table s.mem).readControl := by
      rw [hc.table_eq, hc.dsp_field]
    cases hst with
    | reset => exact ⟨a, .inl rfl, hr.change hc (.inl rfl) _⟩
    | finish => exact ⟨a, .inl rfl, hr.change hc (.inr rfl) _⟩
    | call | poll | ret => exact ⟨a, .inl rfl, hr.frame rfl rfl rfl rfl rfl fun _ _ => rfl⟩
    | @write n i w hw hm =>
      have hi : i < WTBUFLENGTH.toNat / 4 :=
        (List.getElem?_eq_some_iff.mp hm).1.trans_le (msg_length_le houts n)
      obtain ⟨-, ht, hb⟩ := hc.out_write s.mem w hi
      exact ⟨a, .inl rfl, hr.frame rfl rfl rfl (by rw [ht]) (by rw [ht]) hb⟩
    | readCall pendtime h =>
      rw [h] at hrd
      exact ⟨a, .inl rfl, hprod, hrd, hctl, hsta, hz, hdel⟩
    | readPoll h hg =>
      rw [h] at hrd
      obtain ⟨p, hp, rfl | hstep⟩ := ReadCallAt.poll hrd hg hctl
      · exact ⟨a, .inl rfl, hprod, hp, hctl, hsta, hz, hdel⟩
      · exact ⟨_, .inr hstep, hprod, hp, hctl, hsta, hz, hdel⟩
    | readRet h hg =>
      rw [h] at hrd
      exact ⟨a, .inl rfl, hprod, ReadCallAt.ret hrd hg, hctl, hsta, hz, hdel⟩
    | readReset h =>
      rw [h] at hrd
      refine ⟨_, .inr (.ackReset hrd), hprod, .inr ⟨rfl, rfl⟩, ?_, ?_,
        fun k hk => (hz k hk).trans (hc.inn_change _ hk).symm, hdel⟩
      · rw [hc.table_change]; exact hctl
      · rw [hc.table_change]; rfl
    | read h hlt =>
      rw [h] at hrd
      rw [← hdel] at hlt
      have hk := hlt.trans_le (msg_length_le hins _)
      refine ⟨_, .inr (.read hrd hlt), hprod, ?_, hctl, hsta, hz, hdel⟩
      rw [hz _ hk, (hc.inn hk).1, (hc.inn hk).2]
      rfl
    | took h hlen =>
      rw [h] at hrd
      rw [← hdel] at hlen
      exact ⟨_, .inr (.deliver hrd hlen), hprod, rfl, hctl, hsta, hz, by rw [hdel]⟩
    | readFin h =>
      rw [h] at hrd
      refine ⟨_, .inr (.ackFinish hrd), hprod, .inl ⟨rfl, rfl⟩, ?_, ?_,
        fun k hk => (hz k hk).trans (hc.inn_change _ hk).symm, hdel⟩
      · rw [hc.table_change]; exact hctl
      · rw [hc.table_change]; rfl
    | dspIn h =>
      refine ⟨a, .inl rfl, hr.frame rfl rfl rfl ?_ ?_ fun k hk => hc.inn_dsp_field _ hk⟩
      · rw [hc.table_writeStatus]
      · rw [hc.table_writeStatus]
    | dspReset h =>
      refine ⟨_, .inr (.reset (hprod.trans h)), rfl, hrd, ?_, ?_,
        fun k hk => (hz k hk).trans (hc.inn_dsp_field _ hk).symm, hdel⟩
      · rw [hc.table_readStatus]; rfl
      · rw [hc.table_readStatus]; exact hsta
    | dspGrant h hlt hst =>
      rw [hread, hsta] at hst
      exact ⟨_, .inr (.grant (hprod.trans h) hlt (readControlCodes.code_eq.mp hst)), rfl, hrd, hctl,
        hsta, hz, hdel⟩
    | @dspWrite n i w h hm =>
      have hi : i < RDBUFLENGTH.toNat / 4 :=
        (List.getElem?_eq_some_iff.mp hm).1.trans_le (msg_length_le hins n)
      obtain ⟨hzone, ht, -⟩ := hc.inn_write s.mem w hi
      exact ⟨_, .inr (.write (hprod.trans h) hm), rfl, hrd, by rw [ht]; exact hctl,
        by rw [ht]; exact hsta, hzone _ hz, hdel⟩
    | dspSend h =>
      refine ⟨_, .inr (.send (hprod.trans h)), rfl, hrd, ?_, ?_,
        fun k hk => (hz k hk).trans (hc.inn_dsp_field _ hk).symm, hdel⟩
      · rw [hc.table_readStatus]; rfl
      · rw [hc.table_readStatus]; exact hsta
    | dspDone h hst =>
      rw [hread, hsta] at hst
      exact ⟨_, .inr (.done (hprod.trans h) (readControlCodes.code_eq.mp hst)), rfl, hrd, hctl, hsta,
        hz, hdel⟩
    | @other o b v ho hf hb =>
      have hb' : b = base + o := hb.elim (·.trans (hc.user _ (ho.trans (by decide))))
        (·.trans (hc.dsp _ (ho.trans (by decide))))
      subst hb'
      have ht : c.table (Function.update s.mem (base + o) v) = c.table s.mem := hc.table_update hf
      refine ⟨a, .inl rfl, hr.frame rfl rfl rfl ?_ ?_ fun k hk =>
        hc.inn_update (ho.trans (by decide)) hk⟩
      · rw [ht]
      · rw [ht]

end In

/-! ## What both transfers deliver -/

/-- Both directions deliver what was handed over, in order and once, and neither buffer is stored into
while it is read. -/
structure DuplexState.Exact (outs ins : List (List Word)) (s : DuplexState) : Prop where
  /-- What the DSP has read; a read in progress is one of the next buffer. -/
  delivered : s.delivered <+: outs
  reading : ∀ ws, s.dspIn = .reading ws → ∃ m, outs[s.delivered.length]? = some m ∧ ws <+: m
  /-- An application that has had the answers for the buffers before `n`. -/
  acked : ∀ n, s.writer.Acked n → s.delivered = outs.take n
  outExclusive : ∀ n k, s.writer = .fill n k → ∀ ws, s.dspIn ≠ .reading ws
  /-- What the application has taken. -/
  taken : s.taken <+: ins
  taking : ∀ ws, s.reader = .reading ws → ∃ m, ins[s.taken.length]? = some m ∧ ws <+: m
  /-- A DSP that has had the answers for the buffers before `n`. -/
  dspAcked : ∀ n, s.dspOut = .start n ∨ s.dspOut = .await n ∨ (∃ k, s.dspOut = .fill n k) →
    s.taken = ins.take n
  inExclusive : ∀ n k, s.dspOut = .fill n k → ∀ ws, s.reader ≠ .reading ws

section Exact

variable {c : Channel} {base : Nat} {outs ins : List (List Word)} {s : DuplexState}

theorem exact_of_shared (hc : c.Shared base) (houts : ∀ m ∈ outs, m.length ≤ WTBUFLENGTH.toNat / 4)
    (hins : ∀ m ∈ ins, m.length ≤ RDBUFLENGTH.toNat / 4) (h : (duplexSys c outs ins).Reach s) :
    s.Exact outs ins := by
  obtain ⟨l, hl, hout⟩ := (duplex_simulates_link hc houts hins).reach h
  obtain ⟨a, ha, hlink⟩ := linkSys_simulates.reach hl
  obtain ⟨b, hb, hin⟩ := (duplex_simulates_read hc houts hins).reach h
  have hia := inv ha
  have hib := inv hb
  have hdel : s.delivered = a.delivered := hout.delivered.symm.trans hlink.shows.delivered
  have hdsp : s.dspIn = a.consumer := hout.dsp.symm.trans hlink.shows.place
  have happ : AppAt outs s.writer a.producer := hout.app ▸ hlink.app
  have hrd : ∀ ws, s.reader = .reading ws → b.consumer = .reading ws := fun ws h => by
    have := hin.reader
    rwa [h] at this
  constructor
  · exact hdel ▸ hia.delivered
  · intro ws hws
    rw [hdel]
    exact hia.reading (hdsp ▸ hws)
  · intro n hn
    rw [hdel]
    exact hia.acked (hn.producer happ)
  · intro n k hw ws
    rw [hw] at happ
    rw [hdsp]
    exact hia.exclusive happ ws
  · exact hin.delivered ▸ hib.delivered
  · intro ws hws
    rw [← hin.delivered]
    exact hib.reading (hrd ws hws)
  · intro n hn
    rw [← hin.delivered]
    exact hib.acked (hin.producer ▸ hn)
  · intro n k hp ws hws
    exact hib.exclusive (hin.producer.trans hp) ws (hrd ws hws)

/-- The DSP reads no buffer that has not been sent. -/
theorem not_reading_of_acked (hc : c.Shared base)
    (houts : ∀ m ∈ outs, m.length ≤ WTBUFLENGTH.toNat / 4)
    (hins : ∀ m ∈ ins, m.length ≤ RDBUFLENGTH.toNat / 4) (h : (duplexSys c outs ins).Reach s) {n : Nat}
    (hn : s.writer.Acked n) (ws : List Word) : s.dspIn ≠ .reading ws := by
  obtain ⟨l, hl, hout⟩ := (duplex_simulates_link hc houts hins).reach h
  obtain ⟨a, ha, hlink⟩ := linkSys_simulates.reach hl
  have hdsp : l.dsp = a.consumer := hlink.shows.place
  rw [← hout.dsp, hdsp]
  exact (inv ha).not_reading (hn.producer (hout.app ▸ hlink.app)) ws

/-- Before it has answered the DSP's `reset`. -/
def ReadPlace.Asks : ReadPlace → Prop
  | .waiting ioType => ioType = LINKLAYER_IO_READ_QRESET
  | .polling call => call.ioType = LINKLAYER_IO_READ_QRESET
  | .granted => True
  | _ => False

theorem ReadCallAt.asks {call : WaitCall} {p : Consumer Word} (h : ReadCallAt call p)
    (hio : call.ioType = LINKLAYER_IO_READ_QRESET) : p ≠ .waitFinish := by
  obtain ⟨-, rfl⟩ | ⟨hio', -⟩ := h
  · split <;> nofun
  · rw [hio] at hio'
    exact absurd hio' (by decide)

theorem ReadPlace.Asks.consumer {place : ReadPlace} {p : Consumer Word} (h : place.Asks)
    (ha : ReadAt place p) : p ≠ .waitFinish := by
  cases place with
  | waiting ioType => exact ReadCallAt.asks ha h
  | polling call => exact ReadCallAt.asks ha h
  | granted =>
    rw [show p = .ackReset from ha]
    nofun
  | reading | took => cases h

/-- The DSP fills no buffer whose `reset` has not been answered. -/
theorem not_fill_of_asks (hc : c.Shared base) (houts : ∀ m ∈ outs, m.length ≤ WTBUFLENGTH.toNat / 4)
    (hins : ∀ m ∈ ins, m.length ≤ RDBUFLENGTH.toNat / 4) (h : (duplexSys c outs ins).Reach s)
    (hr : s.reader.Asks) (n k : Nat) : s.dspOut ≠ .fill n k := by
  obtain ⟨b, hb, hin⟩ := (duplex_simulates_read hc houts hins).reach h
  rw [← hin.producer]
  exact (inv hb).not_fill (hr.consumer hin.reader) n k

end Exact

/-- What fits into the buffers of an open file. -/
theorem fits_of_open {chips : Chips} {minor : Nat} {kmalloc : Option Word} {f : PrivateData}
    {outs ins : List (List Word)} (hopen : (DPU_open chips minor kmalloc).out = .ok (0, some f))
    (houts : ∀ m ∈ outs, 4 * m.length ≤ f.handle.outBufferLength.toNat)
    (hins : ∀ m ∈ ins, 4 * m.length ≤ f.handle.inBufferLength.toNat) :
    (∀ m ∈ outs, m.length ≤ WTBUFLENGTH.toNat / 4) ∧
      ∀ m ∈ ins, m.length ≤ RDBUFLENGTH.toNat / 4 := by
  obtain ⟨-, -, u, -, hf, -⟩ := open_ok hopen
  refine ⟨fun m hm => ?_, fun m hm => ?_⟩
  · have := houts m hm
    rw [hf, show (chips.handle u).outBufferLength = WTBUFLENGTH from rfl] at this
    omega
  · have := hins m hm
    rw [hf, show (chips.handle u).inBufferLength = RDBUFLENGTH from rfl] at this
    omega

/-- **Both directions of an open file are exactly once**, over every interleaving of the two
applications and the DSP, in the one memory that they share: the DMA buffer is at a multiple of its
length, the file is open, and the messages fit into the buffers of the handle. -/
theorem duplex_exactly_once {virt_to_phys : Word → Word} {chips : Chips} {minor : Nat}
    {kmalloc : Option Word} {f : PrivateData} {v p : Word} {reg : Nat → Word}
    {outs ins : List (List Word)} {s : DuplexState} (hv : ∀ d, virt_to_phys (v + d) = p + d)
    (hp : p.toNat % DMA_TRANSFER_SIZE.toNat = 0)
    (hz : chips.gpRegisterTable minor = (zone v p).pRegisterTable)
    (hopen : (DPU_open chips minor kmalloc).out = .ok (0, some f))
    (houts : ∀ m ∈ outs, 4 * m.length ≤ f.handle.outBufferLength.toNat)
    (hins : ∀ m ∈ ins, 4 * m.length ≤ f.handle.inBufferLength.toNat)
    (h : (duplexSys (channel virt_to_phys f.handle
      (Stores.run (dspMemoryMap (zone v p).alignPhyAddr DMA_TRANSFER_SIZE).2 reg)) outs ins).Reach s) :
    s.Exact outs ins := by
  obtain ⟨hfo, hfi⟩ := fits_of_open hopen houts hins
  exact exact_of_shared (channel_shared hv hp hz hopen) hfo hfi h

/-- The zone of the first chip's file. -/
def firstChannel : Channel :=
  channel (· - 0xC0000000) firstFile.handle
    (Stores.run (dspMemoryMap (zone 0xC1400000 0x01400000).alignPhyAddr DMA_TRANSFER_SIZE).2 fun _ => 0)

def startDuplex : DuplexState where
  mem _ := 0
  writer := .start 0
  reader := .waiting LINKLAYER_IO_READ_QRESET
  taken := []
  dspIn := .waitReset
  delivered := []
  dspOut := .start 0

theorem startDuplex_reach {c : Channel} {outs ins : List (List Word)} :
    (duplexSys c outs ins).Reach startDuplex :=
  .start ⟨rfl, rfl, rfl, rfl, rfl, rfl, rfl⟩

def twoOuts : List (List Word) := [[7, 8], [9, 10]]

def twoIns : List (List Word) := [[11, 12], [13, 14]]

/-- A move of each party, with calls of two passes. -/
def turn : List DuplexMove := [.writer 2, .reader 2, .dspIn, .dspOut]

/-- Up to the middle of the second buffer each way. At the end the application that reads is the faster
one; one of its calls has timed out. -/
def secondMoves : List DuplexMove := (List.replicate 22 turn).flatten ++ List.replicate 5 (.reader 2)

/-- The DSP reads the second out buffer, and the application the second in buffer. -/
def secondDuplex : DuplexState := startDuplex.after firstChannel twoOuts twoIns secondMoves

theorem secondDuplex_reach : (duplexSys firstChannel twoOuts twoIns).Reach secondDuplex :=
  after_reach startDuplex_reach secondMoves

theorem duplex_exactly_once_second :
    secondDuplex.delivered = [[7, 8]] ∧ secondDuplex.dspIn = .reading [9] ∧
    secondDuplex.taken = [[11, 12]] ∧ secondDuplex.reader = .reading [13] ∧
    secondDuplex.Exact twoOuts twoIns :=
  ⟨by decide +kernel, by decide +kernel, by decide +kernel, by decide +kernel,
    duplex_exactly_once (p := 0x01400000) firstChip_linear (by decide) rfl firstFile_open (by decide)
      (by decide) secondDuplex_reach⟩

end Dspc
