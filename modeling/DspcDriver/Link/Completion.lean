import DspcDriver.Link.Exact

/-!
# Both transfers can be finished

Nothing that the two applications and the DSP have done, in whatever order, and no call that has timed
out, keeps a transfer from its end: from every reachable state a run leads to the one in which all
buffers of both directions are handed over and acknowledged (`duplex_completes`). A call of two passes is
long enough for that (`WaitCall.exists_ready`).

The rank of a direction is that of its handshake (`Handshake.rank`), where a party has moved on as soon
as its call is ready. A direction that is not at its end has a run that raises its rank.
-/

namespace Dspc

open Lib Handshake

/-! ## A call that finds its value -/

namespace WaitCall

variable {call : WaitCall} {t : LinkLayerRegisterTable}

theorem hit_congr {call' : WaitCall} (h : call.ioType = call'.ioType) : call.hit t = call'.hit t := by
  rw [hit, hit, h]

/-- Two passes are enough. -/
theorem ready_of_two {ioType : LINKLAYER_IO_TYPE} (h : (start ioType 2).hit t = true) :
    ((start ioType 2).poll t).ready = true := by
  rw [poll, h]
  rfl

theorem done_of_hit (h : call.hit t = true) : (call.poll t).goes = false := by
  rw [poll, h]
  simp [goes, PollVars.goes, PollVars.poll]

theorem done_of_ready (h : call.ready = true) : call.goes = false := by
  cases hg : call.goes with
  | false => rfl
  | true => rw [not_ready_of_goes hg] at h; cases h

theorem retVal_ne_zero (hg : call.goes = false) (hr : call.ready = false) : call.retVal ≠ 0 := by
  rw [ne_eq, retVal_zero_of_done hg, hr]
  decide

/-- Where the value is in the register, a call can be brought to its end, or a new one. `wait` is before
a call with `ioType`, and `put` in it. -/
theorem exists_ready {σ : Type} (S : Sys σ) (put : WaitCall → σ) (wait : σ)
    {ioType : LINKLAYER_IO_TYPE} (hhit : (start ioType 0).hit t = true)
    (hcall : ∀ pendtime, S.step wait (put (start ioType pendtime)))
    (hpoll : ∀ call : WaitCall, call.ioType = ioType → call.goes = true →
      S.step (put call) (put (call.poll t)))
    (hret : ∀ call : WaitCall, call.ioType = ioType → call.goes = false → call.ready = false →
      S.step (put call) wait) :
    (∃ n call, S.Steps wait n (put call) ∧ call.ioType = ioType ∧ call.ready = true) ∧
    ∀ call : WaitCall, call.ioType = ioType →
      ∃ n call', S.Steps (put call) n (put call') ∧ call'.ioType = ioType ∧ call'.ready = true := by
  have hnew : S.Steps wait 2 (put ((start ioType 2).poll t)) :=
    .next (.one (hcall 2)) (hpoll _ rfl rfl)
  have hready : ((start ioType 2).poll t).ready = true := ready_of_two hhit
  refine ⟨⟨_, _, hnew, rfl, hready⟩, ?_⟩
  have hdone : ∀ call : WaitCall, call.ioType = ioType → call.goes = false →
      ∃ n call', S.Steps (put call) n (put call') ∧ call'.ioType = ioType ∧ call'.ready = true := by
    intro call hio hg
    cases hr : call.ready with
    | true => exact ⟨0, call, .start, hio, hr⟩
    | false => exact ⟨_, _, (Sys.Steps.one (hret call hio hg hr)).append hnew, rfl, hready⟩
  intro call hio
  cases hg : call.goes with
  | false => exact hdone call hio hg
  | true =>
    have hh : call.hit t = true := (hit_congr hio).trans hhit
    obtain ⟨n, call', hrun, h⟩ := hdone (call.poll t) hio (done_of_hit hh)
    exact ⟨_, call', (Sys.Steps.one (hpoll call hio hg)).append hrun, h⟩

end WaitCall

/-! ## The direction to the DSP -/

/-- The producer at a place of the application; a call that is ready has moved on. -/
def AppPlace.producer : AppPlace → Producer
  | .start n => .start n
  | .waiting n ioType => if ioType = LINKLAYER_IO_WRITE_QRESET then .await n else .sent n
  | .polling n call =>
    if call.ioType = LINKLAYER_IO_WRITE_QRESET then
      if call.ready then .fill n 0 else .await n
    else if call.ready then .start (n + 1) else .sent n
  | .fill n k => .fill n k

theorem AppAt.producer_eq {buffers : List (List Word)} {place : AppPlace} {p : Producer}
    (h : AppAt buffers place p) : p = place.producer := by
  cases place with
  | start n | fill n k => exact h
  | waiting n ioType =>
    obtain ⟨-, ⟨hio, rfl⟩ | ⟨hio, rfl⟩⟩ := h
    · have hio : ioType = LINKLAYER_IO_WRITE_QRESET := hio
      rw [hio]
      rfl
    · have hio : ioType = LINKLAYER_IO_WRITE_QFIN := hio
      rw [hio]
      rfl
  | polling n call =>
    obtain ⟨-, ⟨hio, hp⟩ | ⟨hio, hp⟩⟩ := h
    · rw [AppPlace.producer, if_pos hio, hp]
    · rw [AppPlace.producer, if_neg (by rw [hio]; decide), hp]

/-- The rank of the direction to the DSP. -/
def DuplexState.outRank (outs : List (List Word)) (s : DuplexState) : Nat :=
  rank outs s.writer.producer s.delivered s.dspIn

section Out

variable {c : Channel} {base : Nat} {outs ins : List (List Word)} {s t : DuplexState} {n : Nat}

/-- A step of the application alone. -/
theorem outRank_lt (hd : t.delivered = s.delivered) (hc : t.dspIn = s.dspIn)
    (hp : s.writer.producer.steps outs < t.writer.producer.steps outs) :
    s.outRank outs < t.outRank outs := by
  rw [DuplexState.outRank, DuplexState.outRank, rank, rank, hd, hc]
  omega

/-- A wait that finds its value can be ended. -/
theorem wait_raises {ioType : LINKLAYER_IO_TYPE} (hn : n < outs.length)
    (hhit : (WaitCall.start ioType 0).hit (c.table s.mem) = true)
    (hio : ioType = LINKLAYER_IO_WRITE_QRESET ∨ ioType = LINKLAYER_IO_WRITE_QFIN)
    (hw : s.writer = .waiting n ioType ∨
      ∃ call, s.writer = .polling n call ∧ call.ioType = ioType ∧ call.ready = false) :
    ∃ m t, (duplexSys c outs ins).Steps s m t ∧ s.outRank outs < t.outRank outs := by
  obtain ⟨hwait, hput⟩ := WaitCall.exists_ready (duplexSys c outs ins)
    (fun call => { s with writer := .polling n call }) { s with writer := .waiting n ioType } hhit
    (fun pendtime => .call pendtime rfl) (fun call _ hg => .poll rfl hg)
    (fun call hc hg hr => by
      have h : (duplexSys c outs ins).step { s with writer := .polling n call } _ := .ret rfl hg
      rw [afterWait, if_neg (WaitCall.retVal_ne_zero hg hr), hc] at h
      exact h)
  -- the rank behind a call that is ready
  have hup : ∀ call : WaitCall, call.ioType = ioType → call.ready = true →
      (AppPlace.waiting n ioType).producer.steps outs <
        (AppPlace.polling n call).producer.steps outs := by
    intro call hc hr
    rcases hio with rfl | rfl
    · simp only [AppPlace.producer, hc, hr, if_true, Producer.steps]
      omega
    · have := sends_take_succ hn
      simp only [AppPlace.producer, hc, hr, if_true, Producer.steps,
        if_neg (show LINKLAYER_IO_WRITE_QFIN ≠ LINKLAYER_IO_WRITE_QRESET by decide)]
      omega
  rcases hw with hw | ⟨call, hw, hc, hr⟩
  · obtain ⟨m, call, hrun, hc, hr⟩ := hwait
    have hs : { s with writer := .waiting n ioType } = s := by rw [← hw]
    rw [hs] at hrun
    exact ⟨m, _, hrun, outRank_lt rfl rfl (by rw [hw]; exact hup call hc hr)⟩
  · obtain ⟨m, call', hrun, hc', hr'⟩ := hput call hc
    have hs : { s with writer := .polling n call } = s := by rw [← hw]
    rw [hs] at hrun
    have hsame : (AppPlace.polling n call).producer = (AppPlace.waiting n ioType).producer := by
      simp only [AppPlace.producer, hc, hr, if_false, Bool.false_eq_true]
    exact ⟨m, _, hrun, outRank_lt rfl rfl (by rw [hw, hsame]; exact hup call' hc' hr')⟩

/-- A step of the DSP raises the rank. -/
theorem dsp_raises (hc : c.Shared base) (houts : ∀ m ∈ outs, m.length ≤ WTBUFLENGTH.toNat / 4)
    {l : LinkState Word} (hl : OutRel c s l) {y : ConsumerState Word Word}
    (h : ConsumerStep writeControlCodes writeStatusCodes outs l.table.writeControl l.outBuffer
      l.consumer y) : ∃ m t, (duplexSys c outs ins).Steps s m t ∧ s.outRank outs < t.outRank outs := by
  obtain ⟨-, htab, hbuf, hdsp, hdel⟩ := hl
  have hcons : l.consumer = s.consumer c := by
    rw [LinkState.consumer, hdsp, htab, hdel, hc.table_eq, DuplexState.consumer, hc.dsp_field]
  have hctl : l.table.writeControl = s.mem (c.dsp TableField.writeControl.offset) := by
    rw [htab, hc.table_eq, hc.dsp_field]
  rw [hcons, hctl] at h
  have hzone : ConsumerStep writeControlCodes writeStatusCodes outs
      (s.mem (c.dsp TableField.writeControl.offset))
      (fun k => s.mem (c.dsp (c.outBuffer + 4 * k))) (s.consumer c) y :=
    h.congr_zone fun k hk => hbuf k (hk.trans_le (msg_length_le houts _))
  have hcount : rounds y.delivered + y.place.steps = rounds s.delivered + s.dspIn.steps + 1 := h.count
  refine ⟨1, _, .one (.dspIn hzone), ?_⟩
  simp only [DuplexState.outRank, rank, hcount]
  omega

/-- The application is not in a call that only has to return. -/
def AppPlace.Settled (place : AppPlace) : Prop := ∀ n call, place = .polling n call → call.ready = false

/-- A state that is not at the end of this direction has a run that raises its rank. -/
theorem settled_raises (hc : c.Shared base) (houts : ∀ m ∈ outs, m.length ≤ WTBUFLENGTH.toNat / 4)
    (hins : ∀ m ∈ ins, m.length ≤ RDBUFLENGTH.toNat / 4) (h : (duplexSys c outs ins).Reach s)
    (hset : s.writer.Settled) : ∃ m t, (duplexSys c outs ins).Steps s m t ∧
      (t.writer = .start outs.length ∨ s.outRank outs < t.outRank outs) := by
  obtain ⟨l, hl, hout⟩ := (duplex_simulates_link hc houts hins).reach h
  obtain ⟨a, ha, hlink⟩ := linkSys_simulates.reach hl
  have hi := inv ha
  have hpl := hi.place
  have happ : AppAt outs s.writer a.producer := hout.app ▸ hlink.app
  have htab := hout.table
  -- where the answer is not there, the DSP goes on
  have hwait : ∀ n ioType, n < outs.length →
      (ioType = LINKLAYER_IO_WRITE_QRESET ∧ a.producer = .await n) ∨
        (ioType = LINKLAYER_IO_WRITE_QFIN ∧ a.producer = .sent n) →
      (s.writer = .waiting n ioType ∨
        ∃ call, s.writer = .polling n call ∧ call.ioType = ioType ∧ call.ready = false) →
      ∃ m t, (duplexSys c outs ins).Steps s m t ∧ s.outRank outs < t.outRank outs := by
    rintro n ioType hn (⟨rfl, hp⟩ | ⟨rfl, hp⟩) hw
    · rcases hi.consumer_reset hlink.shows hp with hst | ⟨y, hy⟩
      · exact wait_raises hn ((hit_reset rfl (htab ▸ hst)).mpr rfl) (.inl rfl) hw
      · exact dsp_raises hc houts hout hy
    · rcases hi.consumer_finish hlink.shows hp with hst | ⟨y, hy⟩
      · exact wait_raises hn ((hit_finish rfl (htab ▸ hst)).mpr rfl) (.inr rfl) hw
      · exact dsp_raises hc houts hout hy
  cases hw : s.writer with
  | start n =>
    rw [hw] at happ
    rw [show a.producer = .start n from happ] at hpl
    have hle := hi.delivered.length_le
    rw [hpl.1] at hle
    rcases Nat.lt_or_eq_of_le hle with hn | rfl
    · refine ⟨1, _, .one (.reset hw hn), .inr (outRank_lt rfl rfl ?_)⟩
      rw [hw]
      exact Nat.lt_succ_self _
    · exact ⟨0, s, .start, .inl hw⟩
  | waiting n ioType =>
    rw [hw] at happ
    obtain ⟨hn, hcall⟩ := happ
    obtain ⟨m, t, hrun, hlt⟩ := hwait n ioType hn hcall (.inl hw)
    exact ⟨m, t, hrun, .inr hlt⟩
  | polling n call =>
    have hr := hset n call hw
    rw [hw] at happ
    obtain ⟨hn, hcall⟩ := happ
    rw [CallAt, hr] at hcall
    obtain ⟨m, t, hrun, hlt⟩ := hwait n call.ioType hn hcall (.inr ⟨call, hw, rfl, hr⟩)
    exact ⟨m, t, hrun, .inr hlt⟩
  | fill n k =>
    rw [hw] at happ
    rw [show a.producer = .fill n k from happ] at hpl
    obtain ⟨-, -, -, -, -, hf⟩ := hpl
    have hup : s.writer.producer.steps outs = sends (outs.take n) + 2 + k := by rw [hw]; rfl
    rcases Nat.lt_or_eq_of_le hf.le with hk | rfl
    · refine ⟨1, _, .one (.write hw (List.getElem?_eq_getElem hk)), .inr (outRank_lt rfl rfl ?_)⟩
      rw [hup]
      exact Nat.lt_succ_self _
    · refine ⟨1, _, .one (.finish hw), .inr (outRank_lt rfl rfl ?_)⟩
      rw [hup]
      show _ < sends (outs.take n) + 3 + (msg outs n).length
      omega

/-- A call that is ready can return, and the rank is the same. -/
theorem exists_settled (hc : c.Shared base) (houts : ∀ m ∈ outs, m.length ≤ WTBUFLENGTH.toNat / 4)
    (hins : ∀ m ∈ ins, m.length ≤ RDBUFLENGTH.toNat / 4) (h : (duplexSys c outs ins).Reach s) :
    ∃ m t, (duplexSys c outs ins).Steps s m t ∧ t.writer.Settled ∧
      t.outRank outs = s.outRank outs := by
  by_cases hset : s.writer.Settled
  · exact ⟨0, s, .start, hset, rfl⟩
  · simp only [AppPlace.Settled, not_forall, Bool.not_eq_false] at hset
    obtain ⟨n, call, hw, hr⟩ := hset
    obtain ⟨l, hl, hout⟩ := (duplex_simulates_link hc houts hins).reach h
    obtain ⟨a, -, hlink⟩ := linkSys_simulates.reach hl
    have happ : AppAt outs s.writer a.producer := hout.app ▸ hlink.app
    rw [hw] at happ
    have hg := WaitCall.done_of_ready hr
    have hret : afterWait n call.ioType call.retVal =
        if call.ioType = LINKLAYER_IO_WRITE_QRESET then .fill n 0 else .start (n + 1) := by
      rw [afterWait, if_pos ((WaitCall.retVal_zero_of_done hg).mpr hr)]
    refine ⟨1, _, .one (.ret hw hg), ?_, ?_⟩
    · rintro n' call' h'
      rw [hret] at h'
      split at h' <;> cases h'
    · have hsame : (afterWait n call.ioType call.retVal).producer = s.writer.producer := by
        rw [hret, hw]
        obtain ⟨hio, -⟩ | ⟨hio, -⟩ := happ.2
        · simp only [AppPlace.producer, hio, hr, if_true]
        · simp only [AppPlace.producer, hio, hr, if_true,
            if_neg (show LINKLAYER_IO_WRITE_QFIN ≠ LINKLAYER_IO_WRITE_QRESET by decide)]
      simp only [DuplexState.outRank, hsame]

/-- **The direction to the DSP can be brought to its end.** -/
theorem out_completes (hc : c.Shared base) (houts : ∀ m ∈ outs, m.length ≤ WTBUFLENGTH.toNat / 4)
    (hins : ∀ m ∈ ins, m.length ≤ RDBUFLENGTH.toNat / 4) (h : (duplexSys c outs ins).Reach s) :
    ∃ m t, (duplexSys c outs ins).Steps s m t ∧ t.writer = .start outs.length := by
  refine Sys.exists_good (f := DuplexState.outRank outs) (N := sends outs + 1 + (rounds outs + 3))
    (fun s hs => ?_) (fun s hs => ?_) h
  · obtain ⟨l, hl, hout⟩ := (duplex_simulates_link hc houts hins).reach hs
    obtain ⟨a, ha, hlink⟩ := linkSys_simulates.reach hl
    have happ : AppAt outs s.writer a.producer := hout.app ▸ hlink.app
    have hdel : s.delivered = a.delivered := hout.delivered.symm.trans hlink.shows.delivered
    have hdsp : s.dspIn = a.consumer := hout.dsp.symm.trans hlink.shows.place
    rw [DuplexState.outRank, ← happ.producer_eq, hdel, hdsp]
    exact (inv ha).rank_le
  · obtain ⟨m, t, hrun, hset, hrank⟩ := exists_settled hc houts hins hs
    obtain ⟨m', u, hrun', hu⟩ := settled_raises hc houts hins (hrun.reach hs) hset
    rw [hrank] at hu
    exact ⟨m + m', u, hrun.append hrun', hu⟩

end Out

/-! ## The direction from the DSP -/

/-- The consumer at a place of the application. -/
def ReadPlace.consumer : ReadPlace → Consumer Word
  | .waiting ioType => if ioType = LINKLAYER_IO_READ_QRESET then .waitReset else .waitFinish
  | .polling call =>
    if call.ioType = LINKLAYER_IO_READ_QRESET then
      if call.ready then .ackReset else .waitReset
    else if call.ready then .reading [] else .waitFinish
  | .granted => .ackReset
  | .reading ws => .reading ws
  | .took => .ackFinish

theorem ReadAt.consumer_eq {place : ReadPlace} {p : Consumer Word} (h : ReadAt place p) :
    p = place.consumer := by
  cases place with
  | waiting ioType =>
    obtain ⟨hio, rfl⟩ | ⟨hio, rfl⟩ := h
    · have hio : ioType = LINKLAYER_IO_READ_QRESET := hio
      rw [hio]
      rfl
    · have hio : ioType = LINKLAYER_IO_READ_QFIN := hio
      rw [hio]
      rfl
  | polling call =>
    obtain ⟨hio, hp⟩ | ⟨hio, hp⟩ := h
    · rw [ReadPlace.consumer, if_pos hio, hp]
    · rw [ReadPlace.consumer, if_neg (by rw [hio]; decide), hp]
  | granted | reading ws | took => exact h

/-- The rank of the direction from the DSP. -/
def DuplexState.inRank (ins : List (List Word)) (s : DuplexState) : Nat :=
  rank ins s.dspOut s.taken s.reader.consumer

/-- The application is not in a call that only has to return. -/
def ReadPlace.Settled (place : ReadPlace) : Prop := ∀ call, place = .polling call → call.ready = false

section In

variable {c : Channel} {base : Nat} {outs ins : List (List Word)} {s t : DuplexState} {n : Nat}

/-- A step of the application between two buffers. -/
theorem inRank_lt (hd : t.taken = s.taken) (hp : t.dspOut = s.dspOut)
    (hc : s.reader.consumer.steps < t.reader.consumer.steps) : s.inRank ins < t.inRank ins := by
  rw [DuplexState.inRank, DuplexState.inRank, rank, rank, hd, hp]
  omega

/-- A step of the DSP. -/
theorem inRank_lt_of_dsp (hd : t.taken = s.taken) (hc : t.reader = s.reader)
    (hp : s.dspOut.steps ins < t.dspOut.steps ins) : s.inRank ins < t.inRank ins := by
  rw [DuplexState.inRank, DuplexState.inRank, rank, rank, hd, hc]
  omega

/-- A wait that finds its value can be ended. -/
theorem readWait_raises {ioType : LINKLAYER_IO_TYPE}
    (hhit : (WaitCall.start ioType 0).hit (c.table s.mem) = true)
    (hio : ioType = LINKLAYER_IO_READ_QRESET ∨ ioType = LINKLAYER_IO_READ_QFIN)
    (hw : s.reader = .waiting ioType ∨
      ∃ call, s.reader = .polling call ∧ call.ioType = ioType ∧ call.ready = false) :
    ∃ m t, (duplexSys c outs ins).Steps s m t ∧ s.inRank ins < t.inRank ins := by
  obtain ⟨hwait, hput⟩ := WaitCall.exists_ready (duplexSys c outs ins)
    (fun call => { s with reader := .polling call }) { s with reader := .waiting ioType } hhit
    (fun pendtime => .readCall pendtime rfl) (fun call _ hg => .readPoll rfl hg)
    (fun call hc hg hr => by
      have h : (duplexSys c outs ins).step { s with reader := .polling call } _ := .readRet rfl hg
      rw [afterReadWait, if_neg (WaitCall.retVal_ne_zero hg hr), hc] at h
      exact h)
  -- the rank behind a call that is ready
  have hup : ∀ call : WaitCall, call.ioType = ioType → call.ready = true →
      (ReadPlace.waiting ioType).consumer.steps < (ReadPlace.polling call).consumer.steps := by
    intro call hc hr
    rcases hio with rfl | rfl
    · simp only [ReadPlace.consumer, hc, hr, if_true]
      decide
    · simp only [ReadPlace.consumer, hc, hr, if_true,
        if_neg (show LINKLAYER_IO_READ_QFIN ≠ LINKLAYER_IO_READ_QRESET by decide)]
      decide
  rcases hw with hw | ⟨call, hw, hc, hr⟩
  · obtain ⟨m, call, hrun, hc, hr⟩ := hwait
    have hs : { s with reader := .waiting ioType } = s := by rw [← hw]
    rw [hs] at hrun
    exact ⟨m, _, hrun, inRank_lt rfl rfl (by rw [hw]; exact hup call hc hr)⟩
  · obtain ⟨m, call', hrun, hc', hr'⟩ := hput call hc
    have hs : { s with reader := .polling call } = s := by rw [← hw]
    rw [hs] at hrun
    have hsame : (ReadPlace.polling call).consumer = (ReadPlace.waiting ioType).consumer := by
      simp only [ReadPlace.consumer, hc, hr, if_false, Bool.false_eq_true]
    exact ⟨m, _, hrun, inRank_lt rfl rfl (by rw [hw, hsame]; exact hup call' hc' hr')⟩

/-- The DSP is through with its buffers. -/
def DuplexState.InDone (ins : List (List Word)) (s : DuplexState) : Prop :=
  s.dspOut = .start ins.length ∨ s.dspOut = .await ins.length

/-- A state that is not at the end of this direction has a run that raises its rank. -/
theorem settled_inRaises (hc : c.Shared base)
    (houts : ∀ m ∈ outs, m.length ≤ WTBUFLENGTH.toNat / 4)
    (hins : ∀ m ∈ ins, m.length ≤ RDBUFLENGTH.toNat / 4) (h : (duplexSys c outs ins).Reach s)
    (hset : s.reader.Settled) : ∃ m t, (duplexSys c outs ins).Steps s m t ∧
      (t.InDone ins ∨ s.inRank ins < t.inRank ins) := by
  obtain ⟨b, hb, hin⟩ := (duplex_simulates_read hc houts hins).reach h
  have hi := inv hb
  have hpl := hi.place
  have hprod := hin.producer
  have hrd := hin.reader
  have hread : s.mem (c.dsp TableField.readControl.offset) = readControlCodes.code b.status := by
    rw [← hin.status, hc.table_eq, hc.dsp_field]
  have hlen : b.delivered.length ≤ ins.length := hi.delivered.length_le
  -- the steps of the DSP
  have hstart : ∀ n, b.producer = .start n → ∃ m t, (duplexSys c outs ins).Steps s m t ∧
      (t.InDone ins ∨ s.inRank ins < t.inRank ins) := by
    intro n hp
    have hd := hprod.symm.trans hp
    refine ⟨1, _, .one (.dspReset hd), .inr (inRank_lt_of_dsp rfl rfl ?_)⟩
    rw [hd]
    exact Nat.lt_succ_self _
  have hgrant : ∀ n, b.producer = .await n → b.status = .reset →
      ∃ m t, (duplexSys c outs ins).Steps s m t ∧ (t.InDone ins ∨ s.inRank ins < t.inRank ins) := by
    intro n hp hst
    have hd := hprod.symm.trans hp
    rw [hp] at hpl
    rw [hpl.1] at hlen
    rcases Nat.lt_or_eq_of_le hlen with hn | rfl
    · refine ⟨1, _, .one (.dspGrant hd hn (by rw [hread, hst]; rfl)),
        .inr (inRank_lt_of_dsp rfl rfl ?_)⟩
      rw [hd]
      exact Nat.lt_succ_self _
    · exact ⟨0, s, .start, .inl (.inr hd)⟩
  have hfill : ∀ n k, b.producer = .fill n k → ∃ m t, (duplexSys c outs ins).Steps s m t ∧
      (t.InDone ins ∨ s.inRank ins < t.inRank ins) := by
    intro n k hp
    have hd := hprod.symm.trans hp
    rw [hp] at hpl
    obtain ⟨-, -, -, -, -, hf⟩ := hpl
    rcases Nat.lt_or_eq_of_le hf.le with hk | rfl
    · refine ⟨1, _, .one (.dspWrite hd (List.getElem?_eq_getElem hk)),
        .inr (inRank_lt_of_dsp rfl rfl ?_)⟩
      rw [hd]
      exact Nat.lt_succ_self _
    · refine ⟨1, _, .one (.dspSend hd), .inr (inRank_lt_of_dsp rfl rfl ?_)⟩
      rw [hd]
      show sends (ins.take n) + 2 + _ < sends (ins.take n) + 3 + (msg ins n).length
      omega
  have hdone : ∀ n, b.producer = .sent n → b.status = .finish →
      ∃ m t, (duplexSys c outs ins).Steps s m t ∧ (t.InDone ins ∨ s.inRank ins < t.inRank ins) := by
    intro n hp hst
    have hd := hprod.symm.trans hp
    rw [hp] at hpl
    refine ⟨1, _, .one (.dspDone hd (by rw [hread, hst]; rfl)), .inr (inRank_lt_of_dsp rfl rfl ?_)⟩
    have := sends_take_succ hpl.1
    rw [hd]
    show sends (ins.take n) + 3 + (msg ins n).length < sends (ins.take (n + 1))
    omega
  -- a wait: its value is there, or the DSP goes on
  have hwait : ∀ ioType,
      (ioType = LINKLAYER_IO_READ_QRESET ∧ b.consumer = .waitReset) ∨
        (ioType = LINKLAYER_IO_READ_QFIN ∧ b.consumer = .waitFinish) →
      (s.reader = .waiting ioType ∨
        ∃ call, s.reader = .polling call ∧ call.ioType = ioType ∧ call.ready = false) →
      ∃ m t, (duplexSys c outs ins).Steps s m t ∧ (t.InDone ins ∨ s.inRank ins < t.inRank ins) := by
    rintro ioType (⟨rfl, hp⟩ | ⟨rfl, hp⟩) hw
    · rcases hi.offer_reset hp with hctl | ⟨n, hs⟩ | ⟨n, hs, hst⟩
      · have hraise : ∃ m t, (duplexSys c outs ins).Steps s m t ∧ s.inRank ins < t.inRank ins :=
          readWait_raises ((hit_readReset rfl hin.control).mpr hctl) (.inl rfl) hw
        obtain ⟨m, t, hrun, hlt⟩ := hraise
        exact ⟨m, t, hrun, .inr hlt⟩
      · exact hstart n hs
      · exact hdone n hs hst
    · rcases hi.offer_finish hp with hctl | ⟨n, hs, hst⟩ | ⟨n, k, hs⟩
      · have hraise : ∃ m t, (duplexSys c outs ins).Steps s m t ∧ s.inRank ins < t.inRank ins :=
          readWait_raises ((hit_readFinish rfl hin.control).mpr hctl) (.inr rfl) hw
        obtain ⟨m, t, hrun, hlt⟩ := hraise
        exact ⟨m, t, hrun, .inr hlt⟩
      · exact hgrant n hs hst
      · exact hfill n k hs
  cases hw : s.reader with
  | waiting ioType =>
    rw [hw] at hrd
    exact hwait ioType hrd (.inl hw)
  | polling call =>
    have hr := hset call hw
    rw [hw, ReadAt, ReadCallAt, hr] at hrd
    exact hwait call.ioType hrd (.inr ⟨call, hw, rfl, hr⟩)
  | granted =>
    refine ⟨1, _, .one (.readReset hw), .inr (inRank_lt rfl rfl ?_)⟩
    rw [hw]
    exact Nat.lt_succ_self _
  | reading ws =>
    rw [hw] at hrd
    obtain ⟨-, -, -, -, -, hpre⟩ := hpl.of_reading hrd
    have hlen := hpre.length_le
    rw [hin.delivered] at hlen
    rcases Nat.lt_or_eq_of_le hlen with hk | hk
    · refine ⟨1, _, .one (.read hw hk), .inr (inRank_lt rfl rfl ?_)⟩
      rw [hw]
      simp [ReadPlace.consumer, Consumer.steps]
    · refine ⟨1, _, .one (.took hw hk), .inr ?_⟩
      simp only [DuplexState.inRank, rank, hw, ReadPlace.consumer, Consumer.steps, rounds_append,
        rounds_cons, rounds_nil]
      omega
  | took =>
    refine ⟨1, _, .one (.readFin hw), .inr (inRank_lt rfl rfl ?_)⟩
    rw [hw]
    exact Nat.lt_succ_self _

/-- A call that is ready can return, and the rank is the same. -/
theorem exists_readSettled (hc : c.Shared base)
    (houts : ∀ m ∈ outs, m.length ≤ WTBUFLENGTH.toNat / 4)
    (hins : ∀ m ∈ ins, m.length ≤ RDBUFLENGTH.toNat / 4) (h : (duplexSys c outs ins).Reach s) :
    ∃ m t, (duplexSys c outs ins).Steps s m t ∧ t.reader.Settled ∧ t.inRank ins = s.inRank ins := by
  by_cases hset : s.reader.Settled
  · exact ⟨0, s, .start, hset, rfl⟩
  · simp only [ReadPlace.Settled, not_forall, Bool.not_eq_false] at hset
    obtain ⟨call, hw, hr⟩ := hset
    obtain ⟨b, -, hin⟩ := (duplex_simulates_read hc houts hins).reach h
    have hrd := hin.reader
    rw [hw] at hrd
    have hg := WaitCall.done_of_ready hr
    have hret : afterReadWait call.ioType call.retVal =
        if call.ioType = LINKLAYER_IO_READ_QRESET then .granted else .reading [] := by
      rw [afterReadWait, if_pos ((WaitCall.retVal_zero_of_done hg).mpr hr)]
    refine ⟨1, _, .one (.readRet hw hg), ?_, ?_⟩
    · rintro call' h'
      rw [hret] at h'
      split at h' <;> cases h'
    · have hsame : (afterReadWait call.ioType call.retVal).consumer = s.reader.consumer := by
        rw [hret, hw]
        obtain ⟨hio, -⟩ | ⟨hio, -⟩ := hrd
        · simp only [ReadPlace.consumer, hio, hr, if_true]
        · simp only [ReadPlace.consumer, hio, hr, if_true,
            if_neg (show LINKLAYER_IO_READ_QFIN ≠ LINKLAYER_IO_READ_QRESET by decide)]
      simp only [DuplexState.inRank, hsame]

/-- **The direction from the DSP can be brought to its end.** -/
theorem in_completes (hc : c.Shared base) (houts : ∀ m ∈ outs, m.length ≤ WTBUFLENGTH.toNat / 4)
    (hins : ∀ m ∈ ins, m.length ≤ RDBUFLENGTH.toNat / 4) (h : (duplexSys c outs ins).Reach s) :
    ∃ m t, (duplexSys c outs ins).Steps s m t ∧ t.InDone ins := by
  refine Sys.exists_good (f := DuplexState.inRank ins) (N := sends ins + 1 + (rounds ins + 3))
    (fun s hs => ?_) (fun s hs => ?_) h
  · obtain ⟨b, hb, hin⟩ := (duplex_simulates_read hc houts hins).reach hs
    rw [DuplexState.inRank, ← hin.producer, ← hin.delivered, ← hin.reader.consumer_eq]
    exact (inv hb).rank_le
  · obtain ⟨m, t, hrun, hset, hrank⟩ := exists_readSettled hc houts hins hs
    obtain ⟨m', u, hrun', hu⟩ := settled_inRaises hc houts hins (hrun.reach hs) hset
    rw [hrank] at hu
    exact ⟨m + m', u, hrun.append hrun', hu⟩

end In

/-! ## Both -/

section Both

variable {c : Channel} {base : Nat} {outs ins : List (List Word)} {s t : DuplexState} {n : Nat}

/-- Behind its last buffer the application does nothing more. -/
theorem writer_stays (h : (duplexSys c outs ins).Steps s n t) (hw : s.writer = .start outs.length) :
    t.writer = .start outs.length := by
  induction h with
  | start => exact hw
  | next _ hst ih =>
    cases hst with
    | reset h hn =>
      rw [ih] at h
      cases h
      exact absurd hn (Nat.lt_irrefl _)
    | call _ h | poll h | ret h | write h | finish h => rw [ih] at h; cases h
    | _ => exact ih

theorem completes_of_shared (hc : c.Shared base)
    (houts : ∀ m ∈ outs, m.length ≤ WTBUFLENGTH.toNat / 4)
    (hins : ∀ m ∈ ins, m.length ≤ RDBUFLENGTH.toNat / 4) (h : (duplexSys c outs ins).Reach s) :
    ∃ n t, (duplexSys c outs ins).Steps s n t ∧ t.writer = .start outs.length ∧ t.InDone ins ∧
      t.delivered = outs ∧ t.taken = ins := by
  obtain ⟨m, t, hrun, hw⟩ := out_completes hc houts hins h
  obtain ⟨k, u, hrun', hd⟩ := in_completes hc houts hins (hrun.reach h)
  have hw' := writer_stays hrun' hw
  have hexact := exact_of_shared hc houts hins (hrun'.reach (hrun.reach h))
  refine ⟨m + k, u, hrun.append hrun', hw', hd, ?_, ?_⟩
  · have hall := hexact.acked outs.length (hw' ▸ rfl)
    rwa [List.take_length] at hall
  · have hall := hexact.dspAcked ins.length (hd.imp_right .inl)
    rwa [List.take_length] at hall

end Both

/-- **No transfer is ever stuck.** From every state that the two applications and the DSP reach, over
every interleaving and whatever calls have timed out, a run leads to one in which both directions are
through: each buffer is delivered, and each party has had the answer for its last one. The DMA buffer is at
a multiple of its length, the file is open, and the messages fit into the buffers of the handle. -/
theorem duplex_completes {virt_to_phys : Word → Word} {chips : Chips} {minor : Nat}
    {kmalloc : Option Word} {f : PrivateData} {v p : Word} {reg : Nat → Word}
    {outs ins : List (List Word)} {s : DuplexState} (hv : ∀ d, virt_to_phys (v + d) = p + d)
    (hp : p.toNat % DMA_TRANSFER_SIZE.toNat = 0)
    (hz : chips.gpRegisterTable minor = (zone v p).pRegisterTable)
    (hopen : (DPU_open chips minor kmalloc).out = .ok (0, some f))
    (houts : ∀ m ∈ outs, 4 * m.length ≤ f.handle.outBufferLength.toNat)
    (hins : ∀ m ∈ ins, 4 * m.length ≤ f.handle.inBufferLength.toNat)
    (h : (duplexSys (channel virt_to_phys f.handle
      (Stores.run (dspMemoryMap (zone v p).alignPhyAddr DMA_TRANSFER_SIZE).2 reg)) outs ins).Reach s) :
    ∃ n t, (duplexSys (channel virt_to_phys f.handle
        (Stores.run (dspMemoryMap (zone v p).alignPhyAddr DMA_TRANSFER_SIZE).2 reg)) outs ins).Steps
          s n t ∧
      t.writer = .start outs.length ∧ t.InDone ins ∧ t.delivered = outs ∧ t.taken = ins := by
  obtain ⟨hfo, hfi⟩ := fits_of_open hopen houts hins
  exact completes_of_shared (channel_shared hv hp hz hopen) hfo hfi h

theorem duplex_completes_second :
    ∃ n t, (duplexSys firstChannel twoOuts twoIns).Steps secondDuplex n t ∧
      t.writer = .start 2 ∧ t.InDone twoIns ∧ t.delivered = twoOuts ∧ t.taken = twoIns :=
  duplex_completes (p := 0x01400000) firstChip_linear (by decide) rfl firstFile_open (by decide)
    (by decide) secondDuplex_reach

end Dspc
