import DspcDriver.Link.Completion
import Mathlib.Algebra.BigOperators.Group.Finset.Piecewise
import Mathlib.Algebra.Order.BigOperators.Group.Finset

/-!
# Several processes on one chip

A chip's file can be opened any number of times, and every handle of a chip has the same register table
and the same buffers (`handle_of_open`). So several processes can hand buffers to the DSP at once, each
by the calls of `Link.Transfer`; nothing in `LinkLayer.c` keeps them apart, and a level in a register
does not say whom it answers.

`writersSys` is the system of these processes and the DSP, in which a process may begin a transfer
when `may` allows it. What has begun is kept in order (`begun`), with the process of each buffer, and
the DSP reads as many words as the next of these buffers has.

* `turns_exact`: where a process begins a transfer only while no other is in one, every buffer arrives
  once, whole and in the order of its process. The transfer is then one of `linkSys`, whose list grows
  with each transfer that begins (`turns_step`).
* `writers_safe_iff`: where a process may begin at any time, as the driver lets it, a buffer can be
  filled while the DSP reads, and two processes can take one answer for theirs, unless at most one
  process has anything to hand over.
-/

namespace Dspc

open Lib Handshake

/-- All open files of a chip have the same handle. -/
theorem handle_of_open {chips : Chips} {minor : Nat} {kmalloc kmalloc' : Option Word} {r r' : Int}
    {f f' : PrivateData} (h : (DPU_open chips minor kmalloc).out = .ok (r, some f))
    (h' : (DPU_open chips minor kmalloc').out = .ok (r', some f')) : f.handle = f'.handle := by
  obtain ⟨-, -, u, hu, hf, -⟩ := open_ok h
  obtain ⟨-, -, u', hu', hf', -⟩ := open_ok h'
  rw [hu] at hu'
  cases hu'
  rw [hf, hf']

/-! ## The system -/

namespace AppPlace

/-- Between two transfers. -/
def Idle : AppPlace → Prop
  | .start _ => True
  | .waiting _ _ | .polling _ _ | .fill _ _ => False

/-- The number of buffers for which an application has had both answers. -/
def number : AppPlace → Nat
  | .start n | .waiting n _ | .polling n _ | .fill n _ => n

/-- The number of buffers whose transfer an application has begun. -/
def started : AppPlace → Nat
  | .start n => n
  | .waiting n _ | .polling n _ | .fill n _ => n + 1

/-- The same place with buffer `m`. -/
def renumber (m : Nat) : AppPlace → AppPlace
  | .start _ => .start m
  | .waiting _ ioType => .waiting m ioType
  | .polling _ c => .polling m c
  | .fill _ k => .fill m k

end AppPlace

/-- The processes, the table and the out buffer, and the DSP. -/
structure WritersState (ι : Type) where
  apps : ι → AppPlace
  table : LinkLayerRegisterTable
  outBuffer : Nat → Word
  dsp : Consumer Word
  delivered : List (List Word)
  begun : List (ι × List Word)

namespace WritersState

variable {ι : Type}

def consumer (s : WritersState ι) : ConsumerState Word Word := ⟨s.dsp, s.table.writeStatus, s.delivered⟩

/-- The buffers whose transfers have begun. -/
def buffers (s : WritersState ι) : List (List Word) := s.begun.map Prod.snd

/-- No process but `i` is in a transfer. -/
def Alone (s : WritersState ι) (i : ι) : Prop := ∀ j, j ≠ i → (s.apps j).Idle

end WritersState

/-- Any process at any time. -/
def Anyone {ι : Type} (_ : WritersState ι) (_ : ι) : Prop := True

section System

variable {ι : Type} [DecidableEq ι] (may : WritersState ι → ι → Prop) (lists : ι → List (List Word))

inductive WritersStep : WritersState ι → WritersState ι → Prop
  | reset {s : WritersState ι} {i : ι} {n : Nat} {b : List Word} : s.apps i = .start n →
      (lists i)[n]? = some b → may s i →
      WritersStep s { s with
        apps := Function.update s.apps i (.waiting n LINKLAYER_IO_WRITE_QRESET)
        table := (LinkLayer_ChangeBufferStatus s.table LINKLAYER_IO_WRITE_RESET).2
        begun := s.begun ++ [(i, b)] }
  | call {s : WritersState ι} {i : ι} {n : Nat} {ioType : LINKLAYER_IO_TYPE} (pendtime : Word) :
      s.apps i = .waiting n ioType →
      WritersStep s { s with apps := Function.update s.apps i (.polling n (.start ioType pendtime)) }
  | poll {s : WritersState ι} {i : ι} {n : Nat} {c : WaitCall} : s.apps i = .polling n c →
      c.goes = true →
      WritersStep s { s with apps := Function.update s.apps i (.polling n (c.poll s.table)) }
  | ret {s : WritersState ι} {i : ι} {n : Nat} {c : WaitCall} : s.apps i = .polling n c →
      c.goes = false →
      WritersStep s { s with apps := Function.update s.apps i (afterWait n c.ioType c.retVal) }
  | write {s : WritersState ι} {i : ι} {n k : Nat} {w : Word} : s.apps i = .fill n k →
      (msg (lists i) n)[k]? = some w →
      WritersStep s { s with
        apps := Function.update s.apps i (.fill n (k + 1))
        outBuffer := Function.update s.outBuffer k w }
  | finish {s : WritersState ι} {i : ι} {n : Nat} : s.apps i = .fill n (msg (lists i) n).length →
      WritersStep s { s with
        apps := Function.update s.apps i (.waiting n LINKLAYER_IO_WRITE_QFIN)
        table := (LinkLayer_ChangeBufferStatus s.table LINKLAYER_IO_WRITE_FIN).2 }
  | dsp {s : WritersState ι} {y : ConsumerState Word Word} :
      ConsumerStep writeControlCodes writeStatusCodes s.buffers s.table.writeControl s.outBuffer
        s.consumer y →
      WritersStep s { s with
        dsp := y.place, table := { s.table with writeStatus := y.status }
        delivered := y.delivered }
  -- the read direction; its waits change nothing
  | readChange {s : WritersState ι} {ioType : LINKLAYER_IO_TYPE} :
      ioType = LINKLAYER_IO_READ_RESET ∨ ioType = LINKLAYER_IO_READ_FIN →
      WritersStep s { s with table := (LinkLayer_ChangeBufferStatus s.table ioType).2 }
  | dspRead {s : WritersState ι} (v : Word) :
      WritersStep s { s with table := { s.table with readStatus := v } }

/-- Process `i` hands over the buffers `lists i`. -/
def writersSys : Sys (WritersState ι) where
  init s := (∀ i, s.apps i = .start 0) ∧ s.table = ⟨0, 0, 0, 0⟩ ∧ s.dsp = .waitReset ∧
    s.delivered = [] ∧ s.begun = []
  step := WritersStep may lists

/-- The buffers of process `i` that the DSP has read. -/
def WritersState.arrived (s : WritersState ι) (i : ι) : List (List Word) :=
  ((s.begun.take s.delivered.length).filter (·.1 = i)).map Prod.snd

/-- No buffer is filled while the DSP reads. -/
def WritersState.Exclusive (s : WritersState ι) : Prop :=
  ∀ i n k, s.apps i = .fill n k → ∀ ws, s.dsp ≠ .reading ws

/-- No more buffers are answered for than the DSP has read. -/
def WritersState.OwnAnswers [Fintype ι] (s : WritersState ι) : Prop :=
  ∑ i, (s.apps i).number ≤ s.delivered.length

/-- Every buffer arrives once, whole and in the order of its process. -/
structure WritersState.Exact (s : WritersState ι) : Prop where
  delivered : s.delivered <+: s.buffers
  reading : ∀ ws, s.dsp = .reading ws → ∃ m, s.buffers[s.delivered.length]? = some m ∧ ws <+: m
  arrived : ∀ i, s.arrived i <+: lists i
  /-- A process that has had the answers for the buffers before `n`, and has not sent buffer `n`. -/
  acked : ∀ i n, (s.apps i).Acked n → s.arrived i = (lists i).take n
  counted : ∀ i, (s.apps i).number ≤ (s.arrived i).length
  exclusive : s.Exclusive

end System

/-! ## More buffers behind those of a transfer -/

section Append

variable {bufs : List (List Word)} {l : LinkState Word}

/-- The transfer of a list is the beginning of that of a longer list. -/
theorem linkSys_append (h : (linkSys bufs).Reach l) (more : List (List Word)) :
    (linkSys (bufs ++ more)).Reach l := by
  induction h with
  | start h => exact .start h
  | @next l l' hl hst ih =>
    refine ih.next ?_
    obtain ⟨a, ha, hr⟩ := linkSys_simulates.reach hl
    have hpl := (inv ha).place
    cases hst with
    | reset h1 h2 => exact .reset h1 (by rw [List.length_append]; omega)
    | call pendtime h1 => exact .call pendtime h1
    | poll h1 h2 => exact .poll h1 h2
    | ret h1 h2 => exact .ret h1 h2
    | write h1 h2 =>
      have happ := hr.app
      rw [h1] at happ
      rw [happ] at hpl
      exact .write h1 (by rwa [msg_append hpl.1])
    | finish h1 =>
      have happ := hr.app
      rw [h1] at happ
      rw [happ] at hpl
      exact .finish (by rwa [msg_append hpl.1])
    | readChange h1 => exact .readChange h1
    | readCall pendtime h1 h2 => exact .readCall pendtime h1 h2
    | readPoll h1 h2 => exact .readPoll h1 h2
    | readRet h1 h2 => exact .readRet h1 h2
    | dsp h1 =>
      refine .dsp (h1.append (fun ws hws => ?_) more)
      have hws : l.dsp = .reading ws := hws
      have hd : l.delivered = a.delivered := hr.shows.delivered
      have hp : l.dsp = a.consumer := hr.shows.place
      show l.delivered.length < bufs.length
      rw [hd]
      exact (hpl.of_reading (hp ▸ hws)).2.1
    | dspRead v => exact .dspRead v

end Append

/-! ## Taking turns -/

section Turns

variable {ι : Type} [DecidableEq ι] {lists : ι → List (List Word)} {s s' : WritersState ι}
  {l l' : LinkState Word} {i : ι}

/-- Process by process, a state in which one process at most is in a transfer is one of the transfer of
all buffers that have begun: between two transfers, or at the last of these buffers. -/
structure TurnRel (lists : ι → List (List Word)) (s : WritersState ι) (l : LinkState Word) : Prop where
  table : l.table = s.table
  outBuffer : l.outBuffer = s.outBuffer
  dsp : l.dsp = s.dsp
  delivered : l.delivered = s.delivered
  idle : (∀ i, (s.apps i).Idle) → l.app = .start s.begun.length
  busy : ∀ i, ¬ (s.apps i).Idle → s.Alone i ∧ ∃ before b, s.begun = before ++ [(i, b)] ∧
    (lists i)[(s.apps i).number]? = some b ∧ l.app = (s.apps i).renumber before.length
  own : ∀ i, (s.begun.filter (·.1 = i)).map Prod.snd = (lists i).take (s.apps i).started
  le : ∀ i, (s.apps i).started ≤ (lists i).length

@[simp] theorem AppPlace.number_renumber (m : Nat) (place : AppPlace) :
    (place.renumber m).number = m := by
  cases place <;> rfl

theorem AppPlace.started_of_busy {place : AppPlace} (h : ¬ place.Idle) :
    place.started = place.number + 1 := by
  cases place with
  | start n => exact absurd trivial h
  | waiting | polling | fill => rfl

/-- Where an application goes after a wait, with its own number of the buffer or another: on with the
same buffer, or to the next. -/
theorem AppPlace.renumber_afterWait (n m : Nat) (ioType : LINKLAYER_IO_TYPE) (retVal : Int) :
    afterWait m ioType retVal = (afterWait n ioType retVal).renumber m ∧
        ¬ (afterWait n ioType retVal).Idle ∧ (afterWait n ioType retVal).number = n ∨
      afterWait m ioType retVal = .start (m + 1) ∧ afterWait n ioType retVal = .start (n + 1) := by
  unfold afterWait
  split_ifs
  · exact .inl ⟨rfl, id, rfl⟩
  · exact .inr ⟨rfl, rfl⟩
  · exact .inl ⟨rfl, id, rfl⟩

/-- A step of the process that is in a transfer. -/
theorem TurnRel.move {place : AppPlace} {m : Nat} (hr : TurnRel lists s l)
    (hi : ¬ (s.apps i).Idle) (hm : l.app = (s.apps i).renumber m)
    (happs : s'.apps = Function.update s.apps i place) (hbegun : s'.begun = s.begun)
    (htable : l'.table = s'.table) (hout : l'.outBuffer = s'.outBuffer) (hdsp : l'.dsp = s'.dsp)
    (hdel : l'.delivered = s'.delivered)
    (happ : l'.app = place.renumber m ∧ ¬ place.Idle ∧ place.number = (s.apps i).number ∨
      l'.app = .start (m + 1) ∧ place = .start ((s.apps i).number + 1)) : TurnRel lists s' l' := by
  obtain ⟨halone, before, b, hb, hnum, hl⟩ := hr.busy i hi
  obtain rfl : m = before.length := by
    have := congrArg AppPlace.number (hm.symm.trans hl)
    simpa using this
  have hstarted := AppPlace.started_of_busy hi
  have hself : s'.apps i = place := by rw [happs, Function.update_self]
  have hother : ∀ j, j ≠ i → s'.apps j = s.apps j := fun j hj => by
    rw [happs, Function.update_of_ne hj]
  have hsame : ∀ j, (s'.apps j).started = (s.apps j).started := fun j => by
    by_cases hji : j = i
    · rw [hji, hself, hstarted]
      obtain ⟨-, hplace, hn⟩ | ⟨-, hplace⟩ := happ
      · rw [AppPlace.started_of_busy hplace, hn]
      · rw [hplace]; rfl
    · rw [hother j hji]
  refine ⟨htable, hout, hdsp, hdel, fun hidle => ?_, fun j hj => ?_, fun j => ?_, fun j => ?_⟩
  · obtain ⟨-, hplace, -⟩ | ⟨hl', -⟩ := happ
    · exact absurd (hself ▸ hidle i) hplace
    · rw [hl', hbegun, hb, List.length_append, List.length_singleton]
  · by_cases hji : j = i
    · subst hji
      obtain ⟨hl', -, hn⟩ | ⟨-, hplace⟩ := happ
      · refine ⟨fun k hk => by rw [hother k hk]; exact halone k hk, before, b, hbegun.trans hb, ?_, ?_⟩
        · rw [hself, hn]; exact hnum
        · rw [hself]; exact hl'
      · rw [hself, hplace] at hj
        exact absurd trivial hj
    · rw [hother j hji] at hj
      exact absurd (halone j hji) hj
  · rw [hbegun, hr.own j, hsame j]
  · rw [hsame j]; exact hr.le j

/-- A step of the DSP, or of the read direction. -/
theorem TurnRel.frame (hr : TurnRel lists s l) (happs : s'.apps = s.apps)
    (hbegun : s'.begun = s.begun) (happ : l'.app = l.app) (htable : l'.table = s'.table)
    (hout : l'.outBuffer = s'.outBuffer) (hdsp : l'.dsp = s'.dsp)
    (hdel : l'.delivered = s'.delivered) : TurnRel lists s' l' := by
  obtain ⟨-, -, -, -, hidle, hbusy, hown, hle⟩ := hr
  refine ⟨htable, hout, hdsp, hdel, ?_, ?_, ?_, ?_⟩
  · rw [happs, hbegun, happ]; exact hidle
  · intro i hi
    rw [happs] at hi
    obtain ⟨halone, h⟩ := hbusy i hi
    rw [hbegun, happ, happs]
    exact ⟨fun j hj => by rw [happs]; exact halone j hj, h⟩
  · rw [happs, hbegun]; exact hown
  · rw [happs]; exact hle

/-- A process begins its next transfer while no other is in one. -/
theorem TurnRel.begin {n : Nat} {b : List Word} (hr : TurnRel lists s l) (hi : s.apps i = .start n)
    (hb : (lists i)[n]? = some b) (hbegun : s'.begun = s.begun ++ [(i, b)])
    (happs : s'.apps = Function.update s.apps i (.waiting n LINKLAYER_IO_WRITE_QRESET))
    (halone : s.Alone i) (happ : l'.app = .waiting s.begun.length LINKLAYER_IO_WRITE_QRESET)
    (htable : l'.table = s'.table) (hout : l'.outBuffer = s'.outBuffer) (hdsp : l'.dsp = s'.dsp)
    (hdel : l'.delivered = s'.delivered) : TurnRel lists s' l' := by
  have hself : s'.apps i = .waiting n LINKLAYER_IO_WRITE_QRESET := by rw [happs, Function.update_self]
  have hother : ∀ j, j ≠ i → s'.apps j = s.apps j := fun j hj => by
    rw [happs, Function.update_of_ne hj]
  refine ⟨htable, hout, hdsp, hdel, fun hidle => ?_, fun j hj => ?_, fun j => ?_, fun j => ?_⟩
  · have h := hidle i
    rw [hself] at h
    cases h
  · by_cases hji : j = i
    · subst hji
      refine ⟨fun k hk => by rw [hother k hk]; exact halone k hk, s.begun, b, hbegun, ?_, ?_⟩
      · rw [hself]; exact hb
      · rw [hself]; exact happ
    · rw [hother j hji] at hj
      exact absurd (halone j hji) hj
  · have hown := hr.own j
    rw [hbegun, List.filter_append, List.map_append, hown]
    by_cases hji : j = i
    · subst hji
      rw [hself, hi]
      simp only [AppPlace.started, List.filter_cons, decide_true, if_true, List.filter_nil,
        List.map_cons, List.map_nil]
      rw [List.take_add_one, hb]
      rfl
    · rw [hother j hji]
      simp [Ne.symm hji]
  · by_cases hji : j = i
    · rw [hji, hself]
      exact (List.getElem?_eq_some_iff.mp hb).1
    · rw [hother j hji]; exact hr.le j

theorem TurnRel.consumer (hr : TurnRel lists s l) : l.consumer = s.consumer := by
  rw [LinkState.consumer, WritersState.consumer, hr.dsp, hr.table, hr.delivered]

/-- Where all are between two transfers but `i`, which is at `start`, all are. -/
theorem WritersState.Alone.idle (h : s.Alone i) {n : Nat} (hi : s.apps i = .start n) (j : ι) :
    (s.apps j).Idle := by
  by_cases hj : j = i
  · rw [hj, hi]; trivial
  · exact h j hj

/-- The place of the process that is in a transfer, in the transfer of all buffers. -/
theorem TurnRel.place (hr : TurnRel lists s l) (hi : ¬ (s.apps i).Idle) :
    ∃ m, l.app = (s.apps i).renumber m ∧ msg s.buffers m = msg (lists i) (s.apps i).number := by
  obtain ⟨-, before, b, hb, hnum, happ⟩ := hr.busy i hi
  refine ⟨before.length, happ, ?_⟩
  rw [WritersState.buffers, hb]
  simp [msg, hnum]

/-- **Every step is one of the transfer of all buffers.** -/
theorem turns_step (hl : (linkSys s.buffers).Reach l) (hr : TurnRel lists s l)
    (h : WritersStep WritersState.Alone lists s s') :
    ∃ l', (linkSys s'.buffers).Reach l' ∧ TurnRel lists s' l' := by
  cases h with
  | @reset i n b hi hb hmay =>
    have happ := hr.idle fun j => hmay.idle hi j
    have hlen : s.begun.length < (s.buffers ++ [b]).length := by simp [WritersState.buffers]
    have hreach := (linkSys_append hl [b]).next (.reset happ hlen)
    have hbufs : (s.begun ++ [(i, b)]).map Prod.snd = s.buffers ++ [b] := List.map_append ..
    rw [← hbufs] at hreach
    exact ⟨_, hreach, hr.begin hi hb rfl rfl hmay rfl (by rw [hr.table]) hr.outBuffer hr.dsp
      hr.delivered⟩
  | @call i n ioType pendtime hi =>
    have hbusy : ¬ (s.apps i).Idle := by rw [hi]; exact id
    obtain ⟨m, happ, -⟩ := hr.place hbusy
    rw [hi] at happ
    exact ⟨_, hl.next (.call pendtime happ), hr.move hbusy (by rw [hi]; exact happ) rfl rfl hr.table
      hr.outBuffer hr.dsp hr.delivered (.inl ⟨rfl, id, by rw [hi]; rfl⟩)⟩
  | @poll i n c hi hg =>
    have hbusy : ¬ (s.apps i).Idle := by rw [hi]; exact id
    obtain ⟨m, happ, -⟩ := hr.place hbusy
    rw [hi] at happ
    exact ⟨_, hl.next (.poll happ hg), hr.move hbusy (by rw [hi]; exact happ) rfl rfl hr.table
      hr.outBuffer hr.dsp hr.delivered (.inl ⟨by rw [hr.table]; rfl, id, by rw [hi]; rfl⟩)⟩
  | @ret i n c hi hg =>
    have hbusy : ¬ (s.apps i).Idle := by rw [hi]; exact id
    obtain ⟨m, happ, -⟩ := hr.place hbusy
    rw [hi] at happ
    exact ⟨_, hl.next (.ret happ hg), hr.move hbusy (by rw [hi]; exact happ) rfl rfl hr.table
      hr.outBuffer hr.dsp hr.delivered
      (by rw [hi]; exact AppPlace.renumber_afterWait n m c.ioType c.retVal)⟩
  | @write i n k w hi hw =>
    have hbusy : ¬ (s.apps i).Idle := by rw [hi]; exact id
    obtain ⟨m, happ, hmsg⟩ := hr.place hbusy
    rw [hi] at happ hmsg
    exact ⟨_, hl.next (.write happ (hmsg ▸ hw)), hr.move hbusy (by rw [hi]; exact happ) rfl rfl
      hr.table (by rw [hr.outBuffer]) hr.dsp hr.delivered (.inl ⟨rfl, id, by rw [hi]; rfl⟩)⟩
  | @finish i n hi =>
    have hbusy : ¬ (s.apps i).Idle := by rw [hi]; exact id
    obtain ⟨m, happ, hmsg⟩ := hr.place hbusy
    rw [hi] at happ hmsg
    have hlen : l.app = .fill m (msg s.buffers m).length := by rw [happ, hmsg]; rfl
    exact ⟨_, hl.next (.finish hlen), hr.move hbusy (by rw [hi]; exact happ) rfl rfl
      (by rw [hr.table]) hr.outBuffer hr.dsp hr.delivered (.inl ⟨rfl, id, by rw [hi]; rfl⟩)⟩
  | dsp h =>
    rw [← hr.table, ← hr.outBuffer, ← hr.consumer] at h
    exact ⟨_, hl.next (.dsp h), hr.frame rfl rfl rfl (by rw [hr.table]) hr.outBuffer rfl rfl⟩
  | readChange hio =>
    exact ⟨_, hl.next (.readChange hio), hr.frame rfl rfl rfl (by rw [hr.table]) hr.outBuffer hr.dsp
      hr.delivered⟩
  | dspRead v =>
    exact ⟨_, hl.next (.dspRead v), hr.frame rfl rfl rfl (by rw [hr.table]) hr.outBuffer hr.dsp
      hr.delivered⟩

theorem turns_reach (h : (writersSys WritersState.Alone lists).Reach s) :
    ∃ l, (linkSys s.buffers).Reach l ∧ TurnRel lists s l := by
  induction h with
  | @start s h =>
    obtain ⟨happs, htable, hdsp, hdel, hbegun⟩ := h
    refine ⟨⟨.start 0, fun _ => none, s.table, s.outBuffer, s.dsp, s.delivered⟩,
      .start ⟨rfl, fun _ => rfl, htable, hdsp, hdel⟩, rfl, rfl, rfl, rfl, ?_, ?_, ?_, ?_⟩
    · intro _
      rw [hbegun]
      rfl
    · intro i hi
      rw [happs i] at hi
      exact absurd trivial hi
    · intro i
      rw [hbegun, happs i]
      rfl
    · intro i
      rw [happs i]
      exact Nat.zero_le _
  | next _ hst ih =>
    obtain ⟨l, hl, hr⟩ := ih
    exact turns_step hl hr hst

/-! ## What arrives -/

theorem AppAt.number_le {bufs : List (List Word)} {place : AppPlace} {p : Producer}
    (h : AppAt bufs place p) : place.number ≤ p.number := by
  have hcall : ∀ {n : Nat} {c : WaitCall}, CallAt n c p → n ≤ p.number := by
    intro n c hc
    obtain ⟨-, rfl⟩ | ⟨-, rfl⟩ := hc <;> split_ifs <;> simp [Producer.number]
  cases place with
  | start n | fill n k => rw [h]; exact Nat.le_refl _
  | waiting n ioType => exact hcall h.2
  | polling n c => exact hcall h.2

/-- What has arrived of a process: its buffers before the one that it is at, and with this one where it
has been read. -/
theorem TurnRel.arrived (hr : TurnRel lists s l) (hlo : l.app.number ≤ s.delivered.length)
    (hhi : s.delivered.length ≤ s.begun.length) (i : ι) :
    s.arrived i = (lists i).take (s.apps i).number ∨
      s.delivered.length ≠ l.app.number ∧ ¬ (s.apps i).Idle ∧
        s.arrived i = (lists i).take ((s.apps i).number + 1) := by
  have hown := hr.own i
  by_cases hi : (s.apps i).Idle
  · left
    have hnum : (s.apps i).number = (s.apps i).started := by
      cases hp : s.apps i with
      | start n => rfl
      | waiting | polling | fill => rw [hp] at hi; cases hi
    rw [hnum, ← hown, WritersState.arrived]
    by_cases hall : ∀ j, (s.apps j).Idle
    · rw [hr.idle hall] at hlo
      rw [List.take_of_length_le hlo]
    · simp only [not_forall] at hall
      obtain ⟨j, hj⟩ := hall
      obtain ⟨-, before, b, hb, -, happ⟩ := hr.busy j hj
      have hji : j ≠ i := fun h => hj (h ▸ hi)
      rw [happ, AppPlace.number_renumber] at hlo
      rw [hb, List.take_append, List.take_of_length_le hlo, List.filter_append, List.filter_append]
      have hnone : ∀ k, ([(j, b)].take k).filter (·.1 = i) = [] := fun k => by
        cases k <;> simp [hji]
      rw [hnone, ← List.take_of_length_le (l := [(j, b)]) (Nat.le_refl 1), hnone]
  · obtain ⟨-, before, b, hb, hnum, happ⟩ := hr.busy i hi
    rw [happ, AppPlace.number_renumber] at hlo ⊢
    rw [AppPlace.started_of_busy hi] at hown
    by_cases hd : s.delivered.length = before.length
    · left
      rw [hb, List.filter_append, List.map_append, List.take_add_one, hnum] at hown
      rw [WritersState.arrived, hd, hb, List.take_left]
      exact (List.append_inj' hown (by simp)).1
    · right
      refine ⟨hd, hi, ?_⟩
      rw [hb, List.length_append, List.length_singleton] at hhi
      rw [WritersState.arrived, List.take_of_length_le (by rw [hb]; simp; omega), hown]

theorem AppPlace.Acked.number {place : AppPlace} {n : Nat} (h : place.Acked n) : place.number = n := by
  cases place with
  | start | fill => exact h
  | waiting | polling => exact h.1

theorem AppPlace.Acked.renumber {place : AppPlace} {n : Nat} (h : place.Acked n) (m : Nat) :
    (place.renumber m).Acked m := by
  cases place with
  | start | fill => rfl
  | waiting | polling => exact ⟨rfl, h.2⟩

theorem TurnRel.exact (hr : TurnRel lists s l) (hl : (linkSys s.buffers).Reach l) :
    s.Exact lists := by
  obtain ⟨a, ha, hlink⟩ := linkSys_simulates.reach hl
  have hi := inv ha
  have hdel : s.delivered = a.delivered := hr.delivered.symm.trans hlink.shows.delivered
  have hdsp : s.dsp = a.consumer := hr.dsp.symm.trans hlink.shows.place
  have hlo : l.app.number ≤ s.delivered.length := hdel ▸ hlink.app.number_le.trans hi.number_le
  have hhi : s.delivered.length ≤ s.begun.length := by
    have := hi.delivered.length_le
    rwa [WritersState.buffers, List.length_map, ← hdel] at this
  constructor
  · exact hdel ▸ hi.delivered
  · intro ws hws
    rw [hdel]
    exact hi.reading (hdsp ▸ hws)
  · intro i
    obtain he | ⟨-, -, he⟩ := hr.arrived hlo hhi i <;> rw [he] <;> exact List.take_prefix ..
  · intro i n hn
    obtain he | ⟨hne, hbusy, -⟩ := hr.arrived hlo hhi i
    · rw [he, hn.number]
    · -- the answer for the buffer before is the one that the handshake has had
      obtain ⟨-, before, b, hb, -, happ⟩ := hr.busy i hbusy
      have hacked : l.app.Acked before.length := happ ▸ hn.renumber _
      have hd := hi.acked (hacked.producer hlink.app)
      refine absurd ?_ hne
      rw [hdel, hd, List.length_take, hacked.number, WritersState.buffers, hb]
      simp
  · intro i
    have hle := hr.le i
    obtain he | ⟨-, hbusy, he⟩ := hr.arrived hlo hhi i
    · have hnum : (s.apps i).number ≤ (s.apps i).started := by
        cases s.apps i <;> simp [AppPlace.number, AppPlace.started]
      rw [he, List.length_take]
      omega
    · rw [AppPlace.started_of_busy hbusy] at hle
      rw [he, List.length_take]
      omega
  · intro i n k hfill ws
    have hbusy : ¬ (s.apps i).Idle := by rw [hfill]; exact id
    obtain ⟨m, happ, -⟩ := hr.place hbusy
    have hpr := hlink.app
    rw [happ, hfill] at hpr
    rw [hdsp]
    exact hi.exclusive hpr ws

/-- **Processes that take turns**: every buffer arrives once, whole and in the order of its process, over
every interleaving in which no process begins a transfer while another is in one. -/
theorem turns_exact (h : (writersSys WritersState.Alone lists).Reach s) : s.Exact lists := by
  obtain ⟨l, hl, hr⟩ := turns_reach h
  exact hr.exact hl

/-- A buffer for each of two processes. -/
def twoLists (i : Bool) : List (List Word) := if i then [[9, 10]] else [[7, 8]]

/-- The first of the two is through, and the DSP has read one word of the other's buffer. -/
def secondTurn : WritersState Bool where
  apps := Function.update (Function.update (fun _ => .start 0) false (.start 1)) true
    (.waiting 0 LINKLAYER_IO_WRITE_QFIN)
  table := ⟨DSP_RD_RESET, 0, PC_WT_FINISH, 0⟩
  outBuffer := Function.update (Function.update (Function.update (Function.update (fun _ => 0)
    0 7) 1 8) 0 9) 1 10
  dsp := .reading [9]
  delivered := [[7, 8]]
  begun := [(false, [7, 8]), (true, [9, 10])]

theorem secondTurn_reach : (writersSys WritersState.Alone twoLists).Reach secondTurn := by
  have h0 : (writersSys WritersState.Alone twoLists).Reach
      ⟨fun _ => .start 0, ⟨0, 0, 0, 0⟩, fun _ => 0, .waitReset, [], []⟩ :=
    .start ⟨fun _ => rfl, rfl, rfl, rfl, rfl⟩
  have h1 := h0.next (.reset (i := false) (n := 0) (b := [7, 8]) rfl rfl (by exact fun _ _ => trivial))
  have h2 := h1.next (.dsp (.seeReset rfl rfl))
  have h3 := h2.next (.dsp (.ackReset rfl))
  have h4 := h3.next (.call (i := false) 2 rfl)
  have h5 := h4.next (.poll (i := false) rfl rfl)
  have h6 := h5.next (.ret (i := false) rfl rfl)
  have h7 := h6.next (.write (i := false) (w := 7) rfl rfl)
  have h8 := h7.next (.write (i := false) (w := 8) rfl rfl)
  have h9 := h8.next (.finish (i := false) rfl)
  have h10 := h9.next (.dsp (.seeFinish rfl rfl))
  have h11 := h10.next (.dsp (.read rfl (by decide)))
  have h12 := h11.next (.dsp (.read rfl (by decide)))
  have h13 := h12.next (.dsp (.deliver rfl rfl))
  have h14 := h13.next (.dsp (.ackFinish rfl))
  have h15 := h14.next (.call (i := false) 2 rfl)
  have h16 := h15.next (.poll (i := false) rfl rfl)
  have h17 := h16.next (.ret (i := false) rfl rfl)
  -- the first process is idle again, and the other one begins
  have h18 := h17.next (.reset (i := true) (n := 0) (b := [9, 10]) rfl rfl
    (by rintro (_ | _) h <;> trivial))
  have h19 := h18.next (.dsp (.seeReset rfl rfl))
  have h20 := h19.next (.dsp (.ackReset rfl))
  have h21 := h20.next (.call (i := true) 2 rfl)
  have h22 := h21.next (.poll (i := true) rfl rfl)
  have h23 := h22.next (.ret (i := true) rfl rfl)
  have h24 := h23.next (.write (i := true) (w := 9) rfl rfl)
  have h25 := h24.next (.write (i := true) (w := 10) rfl rfl)
  have h26 := h25.next (.finish (i := true) rfl)
  have h27 := h26.next (.dsp (.seeFinish rfl rfl))
  have h28 := h27.next (.dsp (.read rfl (by decide)))
  simp only [Function.update_idem] at h28
  exact h28

theorem turns_exact_second : secondTurn.Exact twoLists := turns_exact secondTurn_reach

end Turns

/-! ## Any process at any time -/

/-- At most one process has anything to hand over. -/
def Solo {ι : Type} (lists : ι → List (List Word)) : Prop :=
  ∀ i j, lists i ≠ [] → lists j ≠ [] → i = j

section Anyone

variable {ι : Type} [DecidableEq ι] {lists : ι → List (List Word)} {s : WritersState ι} {i j : ι}

/-- The numbers of the entries of each process add up. -/
theorem sum_length_filter [Fintype ι] (begun : List (ι × List Word)) :
    ∑ i, ((begun.filter (·.1 = i)).map Prod.snd).length = begun.length := by
  induction begun with
  | nil => simp
  | cons x begun ih =>
    have hx : ∀ i, (((x :: begun).filter (·.1 = i)).map Prod.snd).length =
        (if x.1 = i then 1 else 0) + ((begun.filter (·.1 = i)).map Prod.snd).length := by
      intro i
      by_cases h : x.1 = i <;> simp [h, Nat.add_comm]
    simp only [hx, Finset.sum_add_distrib, ih, Finset.sum_ite_eq, Finset.mem_univ, if_true,
      List.length_cons, Nat.add_comm]

theorem WritersState.Exact.ownAnswers [Fintype ι] (h : s.Exact lists) : s.OwnAnswers := by
  calc ∑ i, (s.apps i).number
    _ ≤ ∑ i, (s.arrived i).length := Finset.sum_le_sum fun i _ => h.counted i
    _ = (s.begun.take s.delivered.length).length := sum_length_filter _
    _ ≤ s.delivered.length := List.length_take_le ..

/-- A process without buffers does nothing. -/
theorem idle_of_nil {may : WritersState ι → ι → Prop} (h : (writersSys may lists).Reach s)
    (hj : lists j = []) : (s.apps j).Idle := by
  refine h.inv (I := fun s => (s.apps j).Idle) (fun s h => by rw [h.1 j]; trivial)
    fun s t hs hst => ?_
  -- a step of another process leaves this one
  have hupd : ∀ i place, i ≠ j → (Function.update s.apps i place j).Idle := fun i place hi => by
    rw [Function.update_of_ne hi.symm]; exact hs
  cases hst with
  | @reset i n b hi hb hmay =>
    refine hupd i _ ?_
    rintro rfl
    rw [hj] at hb
    cases hb
  | @call i _ _ _ hi | @poll i _ _ hi _ | @ret i _ _ hi _ | @write i _ _ _ hi _ | @finish i _ hi =>
    refine hupd i _ ?_
    rintro rfl
    rw [hi] at hs
    cases hs
  | dsp | readChange | dspRead => exact hs

/-- Where one process has all the buffers, it is alone. -/
theorem turns_of_solo (hsolo : Solo lists) (h : (writersSys Anyone lists).Reach s) :
    (writersSys WritersState.Alone lists).Reach s := by
  induction h with
  | start h => exact .start h
  | @next s t hs hst ih =>
    refine ih.next ?_
    cases hst with
    | @reset i n b hi hb =>
      refine .reset hi hb fun j hj => idle_of_nil hs (by_contra fun hne => hj ?_)
      exact hsolo j i hne (by rintro he; rw [he] at hb; cases hb)
    | call pendtime hi => exact .call pendtime hi
    | poll hi hg => exact .poll hi hg
    | ret hi hg => exact .ret hi hg
    | write hi hw => exact .write hi hw
    | finish hi => exact .finish hi
    | dsp h => exact .dsp h
    | readChange hio => exact .readChange hio
    | dspRead v => exact .dspRead v

/-! ### Two processes in a transfer -/

section Alone

variable {may : WritersState ι → ι → Prop}

theorem afterWait_reset (n : Nat) : afterWait n LINKLAYER_IO_WRITE_QRESET 0 = .fill n 0 := rfl

theorem afterWait_finish (n : Nat) : afterWait n LINKLAYER_IO_WRITE_QFIN 0 = .start (n + 1) := rfl

/-- A wait whose value is there. -/
theorem wait_alone (i : ι) (n : Nat) (ioType : LINKLAYER_IO_TYPE)
    (hs : (writersSys may lists).Reach s) (hi : s.apps i = .waiting n ioType)
    (hhit : (WaitCall.start ioType 2).hit s.table = true) :
    (writersSys may lists).Reach
      { s with apps := Function.update s.apps i (afterWait n ioType 0) } := by
  have hready := WaitCall.ready_of_two hhit
  have hdone := WaitCall.done_of_ready hready
  have hret := (WaitCall.retVal_zero_of_done hdone).mpr hready
  have h1 := hs.next (.call 2 hi)
  have h2 := h1.next (.poll (Function.update_self ..) rfl)
  have h3 := h2.next (.ret (Function.update_self ..) hdone)
  simp only [Function.update_idem, hret] at h3
  exact h3

/-- The rest of a buffer is filled. -/
theorem fill_alone (i : ι) (n k : Nat) (hs : (writersSys may lists).Reach s)
    (hi : s.apps i = .fill n k) (hk : k ≤ (msg (lists i) n).length) :
    ∃ outBuffer, (writersSys may lists).Reach { s with
      apps := Function.update s.apps i (.fill n (msg (lists i) n).length), outBuffer := outBuffer } := by
  obtain ⟨d, hd⟩ := Nat.exists_eq_add_of_le hk
  induction d generalizing s k with
  | zero =>
    refine ⟨s.outBuffer, ?_⟩
    rw [hd, Nat.add_zero, ← hi, Function.update_eq_self]
    exact hs
  | succ d ih =>
    have hlt : k < (msg (lists i) n).length := by omega
    obtain ⟨outBuffer, h⟩ := ih (k + 1) (hs.next (.write hi (List.getElem?_eq_getElem hlt)))
      (Function.update_self ..) (by omega) (by omega)
    simp only [Function.update_idem] at h
    exact ⟨outBuffer, h⟩

/-- The rest of a buffer is read. -/
theorem read_alone {ws : List Word} (hs : (writersSys may lists).Reach s) (hd : s.dsp = .reading ws)
    (hle : ws.length ≤ (msg s.buffers s.delivered.length).length) :
    ∃ ws', (writersSys may lists).Reach
      { s with dsp := .ackFinish, delivered := s.delivered ++ [ws'] } := by
  obtain ⟨d, hlen⟩ := Nat.exists_eq_add_of_le hle
  induction d generalizing s ws with
  | zero => exact ⟨ws, hs.next (.dsp (.deliver hd hlen.symm))⟩
  | succ d ih =>
    have hlt : ws.length < (msg s.buffers s.delivered.length).length := by omega
    have hone : (ws ++ [s.outBuffer ws.length]).length = ws.length + 1 := List.length_append ..
    obtain ⟨ws', h⟩ := ih (hs.next (.dsp (.read hd hlt))) rfl (hone.trans_le hlt)
      (hlen.trans (by rw [hone]; omega))
    exact ⟨ws', h⟩

end Alone

/-- Two processes begin at the same time: both are granted by the one `reset` of the DSP, so that the
second fills while the DSP reads, and both take the one `finish`. -/
theorem exists_race (hij : i ≠ j) (hi : lists i ≠ []) (hj : lists j ≠ []) :
    (∃ s, (writersSys Anyone lists).Reach s ∧ s.apps j = .fill 0 0 ∧ s.dsp = .reading []) ∧
    ∃ s, (writersSys Anyone lists).Reach s ∧ s.apps i = .start 1 ∧ s.apps j = .start 1 ∧
      s.delivered.length = 1 := by
  obtain ⟨b, bs, hbi⟩ := List.exists_cons_of_ne_nil hi
  obtain ⟨b', bs', hbj⟩ := List.exists_cons_of_ne_nil hj
  have hji : j ≠ i := hij.symm
  have h0 : (writersSys Anyone lists).Reach
      ⟨fun _ => .start 0, ⟨0, 0, 0, 0⟩, fun _ => 0, .waitReset, [], []⟩ :=
    .start ⟨fun _ => rfl, rfl, rfl, rfl, rfl⟩
  have h1 := h0.next (.reset (i := i) (n := 0) (b := b) rfl (by rw [hbi]; rfl) trivial)
  have h2 := h1.next (.reset (i := j) (n := 0) (b := b') (by simp [hji]) (by rw [hbj]; rfl) trivial)
  -- one answer of the DSP for both
  have h3 := (h2.next (.dsp (.seeReset rfl rfl))).next (.dsp (.ackReset rfl))
  have h4 := wait_alone i 0 LINKLAYER_IO_WRITE_QRESET h3 (by simp [hij]) rfl
  have h5 := wait_alone j 0 LINKLAYER_IO_WRITE_QRESET h4 (by simp [hji]) rfl
  obtain ⟨z, h6⟩ := fill_alone i 0 0 h5 (by simp [hij, afterWait_reset]) (Nat.zero_le _)
  have h7 := h6.next (.finish (i := i) (n := 0) (by simp))
  have h8 := h7.next (.dsp (.seeFinish rfl rfl))
  refine ⟨⟨_, h8, by simp [hji, afterWait_reset], rfl⟩, ?_⟩
  obtain ⟨ws, h9⟩ := read_alone h8 rfl (Nat.zero_le _)
  have h10 := h9.next (.dsp (.ackFinish rfl))
  have h11 := wait_alone i 0 LINKLAYER_IO_WRITE_QFIN h10 (by simp) rfl
  obtain ⟨z, h12⟩ := fill_alone j 0 0 h11 (by simp [hji, afterWait_reset]) (Nat.zero_le _)
  have h13 := h12.next (.finish (i := j) (n := 0) (by simp))
  have h14 := wait_alone j 0 LINKLAYER_IO_WRITE_QFIN h13 (by simp) rfl
  exact ⟨_, h14, by simp [hij, afterWait_finish], by simp [afterWait_finish], rfl⟩

/-- **Nothing keeps the processes of a chip apart**: over every interleaving, no buffer is filled while the
DSP reads if and only if at most one process has anything to hand over, and no more buffers are answered
for than the DSP has read under the same condition. -/
theorem writers_safe_iff [Fintype ι] (lists : ι → List (List Word)) :
    ((∀ s, (writersSys Anyone lists).Reach s → s.Exclusive) ↔ Solo lists) ∧
    ((∀ s, (writersSys Anyone lists).Reach s → s.OwnAnswers) ↔ Solo lists) := by
  have hexact : Solo lists → ∀ s, (writersSys Anyone lists).Reach s → s.Exact lists :=
    fun hsolo s hs =>
      let ⟨_, hl, hr⟩ := turns_reach (turns_of_solo hsolo hs)
      hr.exact hl
  refine ⟨⟨fun h i j hi hj => ?_, fun hsolo s hs => (hexact hsolo s hs).exclusive⟩,
    ⟨fun h i j hi hj => ?_, fun hsolo s hs => (hexact hsolo s hs).ownAnswers⟩⟩
  · by_contra hij
    obtain ⟨⟨s, hs, happ, hdsp⟩, -⟩ := exists_race hij hi hj
    exact h s hs j 0 0 happ [] hdsp
  · by_contra hij
    obtain ⟨-, s, hs, hi', hj', hdel⟩ := exists_race hij hi hj
    have hsum : ∑ k ∈ {i, j}, (s.apps k).number ≤ ∑ k, (s.apps k).number :=
      Finset.sum_le_sum_of_subset (Finset.subset_univ _)
    have hle := h s hs
    have hone : (AppPlace.start 1).number = 1 := rfl
    rw [Finset.sum_pair hij, hi', hj', hone] at hsum
    rw [WritersState.OwnAnswers, hdel] at hle
    omega

end Anyone

end Dspc
