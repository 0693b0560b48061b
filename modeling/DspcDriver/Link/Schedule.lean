import DspcDriver.Link.Duplex

/-!
# The transfers, computed

Each of the four parties of a transfer has at most one next step from where it is: an application chooses
the `pendtime` of a call, and nothing else. `DuplexState.move` computes that step. `duplexStep_iff`: but
for the stores into the rest of the table, these are all the steps there are. So a run is a list of the
parties in the order in which they move (`DuplexState.after`), and every such list is a run
(`after_reach`).
-/

namespace Dspc

open Lib Handshake

/-- Who moves. An application has the `pendtime` of the call that it may begin. -/
inductive DuplexMove where
  | writer (pendtime : Word)
  | reader (pendtime : Word)
  | dspIn
  | dspOut

namespace DuplexState

section Moves

variable (c : Channel) (outs ins : List (List Word)) (s : DuplexState)

/-- The step of the application that writes. -/
def moveWriter (pendtime : Word) : Option DuplexState :=
  match s.writer with
  | .start n =>
    if n < outs.length then
      some { s with
        writer := .waiting n LINKLAYER_IO_WRITE_QRESET
        mem := c.changeBufferStatus s.mem LINKLAYER_IO_WRITE_RESET }
    else none
  | .waiting n ioType => some { s with writer := .polling n (.start ioType pendtime) }
  | .polling n call =>
    if call.goes then some { s with writer := .polling n (call.poll (c.table s.mem)) }
    else some { s with writer := afterWait n call.ioType call.retVal }
  | .fill n k =>
    match (msg outs n)[k]? with
    | some w =>
      some { s with
        writer := .fill n (k + 1)
        mem := Function.update s.mem (c.user (c.outBuffer + 4 * k)) w }
    | none =>
      if k = (msg outs n).length then
        some { s with
          writer := .waiting n LINKLAYER_IO_WRITE_QFIN
          mem := c.changeBufferStatus s.mem LINKLAYER_IO_WRITE_FIN }
      else none

/-- The step of the application that reads. -/
def moveReader (pendtime : Word) : Option DuplexState :=
  match s.reader with
  | .waiting ioType => some { s with reader := .polling (.start ioType pendtime) }
  | .polling call =>
    if call.goes then some { s with reader := .polling (call.poll (c.table s.mem)) }
    else some { s with reader := afterReadWait call.ioType call.retVal }
  | .granted =>
    some { s with
      reader := .waiting LINKLAYER_IO_READ_QFIN
      mem := c.changeBufferStatus s.mem LINKLAYER_IO_READ_RESET }
  | .reading ws =>
    if ws.length < (msg ins s.taken.length).length then
      some { s with reader := .reading (ws ++ [s.mem (c.user (c.inBuffer + 4 * ws.length))]) }
    else if ws.length = (msg ins s.taken.length).length then
      some { s with reader := .took, taken := s.taken ++ [ws] }
    else none
  | .took =>
    some { s with
      reader := .waiting LINKLAYER_IO_READ_QRESET
      mem := c.changeBufferStatus s.mem LINKLAYER_IO_READ_FIN }

/-- The step of the DSP that reads. -/
def moveDspIn : Option DuplexState :=
  ((s.consumer c).next writeControlCodes writeStatusCodes outs
      (s.mem (c.dsp TableField.writeControl.offset))
      fun k => s.mem (c.dsp (c.outBuffer + 4 * k))).map fun y =>
    { s with
      dspIn := y.place
      mem := Function.update s.mem (c.dsp TableField.writeStatus.offset) y.status
      delivered := y.delivered }

/-- The step of the DSP that writes. -/
def moveDspOut : Option DuplexState :=
  match s.dspOut with
  | .start n =>
    some { s with
      dspOut := .await n
      mem := Function.update s.mem (c.dsp TableField.readStatus.offset) DSP_WT_RESET }
  | .await n =>
    if n < ins.length ∧ s.mem (c.dsp TableField.readControl.offset) = PC_RD_RESET then
      some { s with dspOut := .fill n 0 }
    else none
  | .fill n k =>
    match (msg ins n)[k]? with
    | some w =>
      some { s with
        dspOut := .fill n (k + 1)
        mem := Function.update s.mem (c.dsp (c.inBuffer + 4 * k)) w }
    | none =>
      if k = (msg ins n).length then
        some { s with
          dspOut := .sent n
          mem := Function.update s.mem (c.dsp TableField.readStatus.offset) DSP_WT_FINISH }
      else none
  | .sent n =>
    if s.mem (c.dsp TableField.readControl.offset) = PC_RD_FINISH then
      some { s with dspOut := .start (n + 1) }
    else none

/-- The step of a party; a DSP that waits for a level that is not there has none, and neither has an
application that has handed over everything. -/
def move : DuplexMove → Option DuplexState
  | .writer pendtime => s.moveWriter c outs pendtime
  | .reader pendtime => s.moveReader c ins pendtime
  | .dspIn => s.moveDspIn c outs
  | .dspOut => s.moveDspOut c ins

/-- The state after the moves, of which those that cannot be made are passed over. -/
def after (moves : List DuplexMove) : DuplexState :=
  moves.foldl (fun s m => (s.move c outs ins m).getD s) s

end Moves

end DuplexState

section Steps

variable {c : Channel} {outs ins : List (List Word)} {s t : DuplexState}

theorem step_of_moveWriter {pendtime : Word} (h : s.moveWriter c outs pendtime = some t) :
    DuplexStep c outs ins s t := by
  unfold DuplexState.moveWriter at h
  split at h
  · rename_i hw
    split at h <;> cases h
    rename_i hn
    exact .reset hw hn
  · rename_i hw
    cases h
    exact .call pendtime hw
  · rename_i hw
    split at h <;> rename_i hg <;> cases h
    · exact .poll hw hg
    · exact .ret hw (Bool.eq_false_iff.mpr hg)
  · rename_i n k hw
    split at h
    · rename_i hm
      cases h
      exact .write hw hm
    · split at h <;> cases h
      rename_i hk
      exact .finish (hk ▸ hw)

theorem step_of_moveReader {pendtime : Word} (h : s.moveReader c ins pendtime = some t) :
    DuplexStep c outs ins s t := by
  unfold DuplexState.moveReader at h
  split at h
  · rename_i hr
    cases h
    exact .readCall pendtime hr
  · rename_i hr
    split at h <;> rename_i hg <;> cases h
    · exact .readPoll hr hg
    · exact .readRet hr (Bool.eq_false_iff.mpr hg)
  · rename_i hr
    cases h
    exact .readReset hr
  · rename_i ws hr
    split at h
    · rename_i hlt
      cases h
      exact .read hr hlt
    · split at h <;> cases h
      rename_i hlen
      exact .took hr hlen
  · rename_i hr
    cases h
    exact .readFin hr

theorem step_of_moveDspIn (h : s.moveDspIn c outs = some t) : DuplexStep c outs ins s t := by
  obtain ⟨y, hy, rfl⟩ := Option.map_eq_some_iff.mp h
  exact .dspIn (consumerStep_iff.mpr hy)

theorem step_of_moveDspOut (h : s.moveDspOut c ins = some t) : DuplexStep c outs ins s t := by
  unfold DuplexState.moveDspOut at h
  split at h
  · rename_i hp
    cases h
    exact .dspReset hp
  · rename_i hp
    split at h <;> cases h
    rename_i hn
    exact .dspGrant hp hn.1 hn.2
  · rename_i n k hp
    split at h
    · rename_i hm
      cases h
      exact .dspWrite hp hm
    · split at h <;> cases h
      rename_i hk
      exact .dspSend (hk ▸ hp)
  · rename_i hp
    split at h <;> cases h
    rename_i hctl
    exact .dspDone hp hctl

theorem step_of_move {m : DuplexMove} (h : s.move c outs ins m = some t) : DuplexStep c outs ins s t := by
  cases m with
  | writer => exact step_of_moveWriter h
  | reader => exact step_of_moveReader h
  | dspIn => exact step_of_moveDspIn h
  | dspOut => exact step_of_moveDspOut h

/-- **The steps are the moves of the four parties**, and the stores into the rest of the table. -/
theorem duplexStep_iff : DuplexStep c outs ins s t ↔
    (∃ m, s.move c outs ins m = some t) ∨
    ∃ o a v, o < tableSize.toNat ∧ (∀ f ∈ transferFields, o ≠ f.offset) ∧
      (a = c.user o ∨ a = c.dsp o) ∧ t = { s with mem := Function.update s.mem a v } := by
  constructor
  · intro h
    cases h with
    | other v ho hf ha => exact .inr ⟨_, _, v, ho, hf, ha, rfl⟩
    | call pendtime h =>
      exact .inl ⟨.writer pendtime, by simp [DuplexState.move, DuplexState.moveWriter, h]⟩
    | reset h hn => exact .inl ⟨.writer 0, by simp [DuplexState.move, DuplexState.moveWriter, h, hn]⟩
    | poll h hg | ret h hg | write h hg =>
      exact .inl ⟨.writer 0, by simp [DuplexState.move, DuplexState.moveWriter, h, hg]⟩
    | finish h => exact .inl ⟨.writer 0, by simp [DuplexState.move, DuplexState.moveWriter, h]⟩
    | readCall pendtime h =>
      exact .inl ⟨.reader pendtime, by simp [DuplexState.move, DuplexState.moveReader, h]⟩
    | readPoll h hg | readRet h hg | read h hg | took h hg =>
      exact .inl ⟨.reader 0, by simp [DuplexState.move, DuplexState.moveReader, h, hg]⟩
    | readReset h | readFin h =>
      exact .inl ⟨.reader 0, by simp [DuplexState.move, DuplexState.moveReader, h]⟩
    | dspIn h =>
      exact .inl ⟨.dspIn, by rw [DuplexState.move, DuplexState.moveDspIn, consumerStep_iff.mp h]; rfl⟩
    | dspReset h | dspSend h =>
      exact .inl ⟨.dspOut, by simp [DuplexState.move, DuplexState.moveDspOut, h]⟩
    | dspGrant h hn hctl =>
      exact .inl ⟨.dspOut, by simp [DuplexState.move, DuplexState.moveDspOut, h, hn, hctl]⟩
    | dspWrite h hm | dspDone h hm =>
      exact .inl ⟨.dspOut, by simp [DuplexState.move, DuplexState.moveDspOut, h, hm]⟩
  · rintro (⟨m, h⟩ | ⟨o, a, v, ho, hf, ha, rfl⟩)
    · exact step_of_move h
    · exact .other v ho hf ha

/-- **Every order of the parties is a run.** -/
theorem after_reach (h : (duplexSys c outs ins).Reach s) (moves : List DuplexMove) :
    (duplexSys c outs ins).Reach (s.after c outs ins moves) := by
  induction moves generalizing s with
  | nil => exact h
  | cons m moves ih =>
    rw [DuplexState.after, List.foldl_cons]
    refine ih ?_
    cases hm : s.move c outs ins m with
    | none => exact h
    | some t => exact h.next (step_of_move hm)

end Steps

end Dspc
