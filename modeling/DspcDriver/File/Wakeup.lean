import DspcDriver.File.Chip
import DspcDriver.Lib.Run

/-!
# Waiting for an interrupt

The semaphores of the chips with any number of callers, the DSPs and the interrupt handler. A caller
is the list of the events that its running `ioctl` still has to do, and does them one by one, between
the actions of the others; a `down` waits for a positive count. `init_module` has set every count to
0.

Neither an `ioctl` nor `ISR_handler` raises a semaphore, so every count stays 0 (`count_eq_zero`), and
a caller that waits is never woken: a run has no such wait exactly if none of its `ioctl`s is one of
the three commands that wait on a semaphore (`wakeable_iff`).
-/

namespace Dspc

open Lib

/-- `status sem chip`: the DSP of the chip has set its status for the direction of the semaphore. -/
structure WaitState where
  count : Semaphore → Nat → Nat
  pending : Nat → List FileEvent
  status : Semaphore → Nat → Bool
  irq : Nat → Bool

def WaitState.init : WaitState where
  count _ _ := 0
  pending _ := []
  status _ _ := false
  irq _ := false

inductive WaitAction where
  | ioctl (caller : Nat) (name : List Byte) (pLinkLayer : LinkLayerHandler) (cmd : Word)
      (arg : IoctlArg)
  /-- The next event of a caller. -/
  | run (caller : Nat)
  | dspStatus (sem : Semaphore) (chip : Nat) (set : Bool)
  | dspInterrupt (chip : Nat)
  | isr (chip : Nat)

/-- The actions of the DSPs and of the interrupt handler. -/
def WaitAction.IsExternal : WaitAction → Prop
  | .ioctl .. => False
  | .run _ => False
  | _ => True

/-- An `ioctl` with a command that waits on a semaphore. -/
def WaitAction.Waits : WaitAction → Prop
  | .ioctl _ _ _ cmd _ =>
    cmd = DPU_IO_CMD_WRITE_TIMEOUT ∨ cmd = DPU_IO_CMD_READ_TIMEOUT ∨ cmd = DPU_IO_CMD_WAITDPM
  | _ => False

/-- The counts after an event; `none` while it has to wait. -/
def FileEvent.apply (count : Semaphore → Nat → Nat) : FileEvent → Option (Semaphore → Nat → Nat)
  | .down sem chip =>
    if 0 < count sem chip then
      some (Function.update count sem (Function.update (count sem) chip (count sem chip - 1)))
    else none
  | .up sem chip =>
    some (Function.update count sem (Function.update (count sem) chip (count sem chip + 1)))
  | _ => some count

/-- The counts after the events of a handler. -/
def applyAll (count : Semaphore → Nat → Nat) (es : List FileEvent) :
    Option (Semaphore → Nat → Nat) := es.foldlM FileEvent.apply count

section

variable (chips : Chips)

/-- One action. An operation that a null pointer or the end of a table stops is no action: the kernel
has stopped. -/
inductive WaitStep : WaitState → WaitAction → WaitState → Prop
  | ioctl {s : WaitState} {caller : Nat} {name : List Byte} {pLinkLayer : LinkLayerHandler}
      {cmd : Word} {arg : IoctlArg} {retValue : Int} : s.pending caller = [] →
      (DPU_ioctl chips name pLinkLayer cmd arg).out = .ok retValue →
      WaitStep s (.ioctl caller name pLinkLayer cmd arg) { s with
        pending := Function.update s.pending caller
          (DPU_ioctl chips name pLinkLayer cmd arg).events }
  | run {s : WaitState} {caller : Nat} {e : FileEvent} {es : List FileEvent}
      {count : Semaphore → Nat → Nat} : s.pending caller = e :: es → e.apply s.count = some count →
      WaitStep s (.run caller) { s with
        count := count, pending := Function.update s.pending caller es }
  | dspStatus {s : WaitState} {sem : Semaphore} {chip : Nat} {set : Bool} :
      WaitStep s (.dspStatus sem chip set) { s with
        status := Function.update s.status sem (Function.update (s.status sem) chip set) }
  | dspInterrupt {s : WaitState} {chip : Nat} :
      WaitStep s (.dspInterrupt chip) { s with irq := Function.update s.irq chip true }
  | isr {s : WaitState} {chip : Nat} {count : Semaphore → Nat → Nat} :
      (ISR_handler chips (4 * chip)).out = .ok () →
      applyAll s.count (ISR_handler chips (4 * chip)).events = some count →
      WaitStep s (.isr chip) { s with count := count, irq := Function.update s.irq chip false }

/-- The caller waits in a `down`. -/
def WaitState.Blocked (s : WaitState) (caller : Nat) (sem : Semaphore) (chip : Nat) : Prop :=
  s.count sem chip = 0 ∧ ∃ es, s.pending caller = .down sem chip :: es

/-- The DSPs and the interrupt handler can make the semaphore positive. -/
def Wakeable (s : WaitState) (sem : Semaphore) (chip : Nat) : Prop :=
  ∃ as t, (∀ a ∈ as, a.IsExternal) ∧ Run (WaitStep chips) s as t ∧ 0 < t.count sem chip

/-- In the run of the actions `as`, no wait is unwakeable and no semaphore is raised without its
status. -/
structure WaitsWakeable (as : List WaitAction) : Prop where
  wakeable : ∀ as₁ as₂ s, as = as₁ ++ as₂ → Run (WaitStep chips) .init as₁ s →
    ∀ caller sem chip, s.Blocked caller sem chip → Wakeable chips s sem chip
  raised : ∀ as₁ chip as₂ s, as = as₁ ++ .isr chip :: as₂ → Run (WaitStep chips) .init as₁ s →
    ∀ sem i, .up sem i ∈ (ISR_handler chips (4 * chip)).events → s.status sem i = true

end

variable {chips : Chips} {s t : WaitState} {as : List WaitAction}

theorem waits_iff {caller : Nat} {name : List Byte} {pLinkLayer : LinkLayerHandler} {cmd : Word}
    {arg : IoctlArg} :
    (WaitAction.ioctl caller name pLinkLayer cmd arg).Waits ↔
      ∃ sem, waitSemaphore cmd = some sem := by
  simp only [waitSemaphore_eq_some, WaitAction.Waits]
  grind

/-! ## What is done and what is not -/

/-- No `ioctl` raises a semaphore. -/
theorem ioctl_no_up {name : List Byte} {h : LinkLayerHandler} {cmd : Word} {arg : IoctlArg} :
    Trace.All (fun e => ∀ sem i, e ≠ .up sem i) (DPU_ioctl chips name h cmd arg) :=
  all_ioctl nofun nofun nofun nofun nofun nofun

/-- An `ioctl` of any other command lowers none. -/
theorem ioctl_no_down {name : List Byte} {h : LinkLayerHandler} {cmd : Word} {arg : IoctlArg}
    (hc : waitSemaphore cmd = none) :
    Trace.All (fun e => ∀ sem i, e ≠ .down sem i) (DPU_ioctl chips name h cmd arg) :=
  all_ioctl nofun nofun nofun nofun nofun fun sem hs => by rw [hc] at hs; cases hs

/-- The interrupt handler does neither. -/
theorem isr_no_sem (arg : Nat) :
    Trace.All (fun e => ∀ sem i, e ≠ .up sem i ∧ e ≠ .down sem i) (ISR_handler chips arg) :=
  .bind (all_useEntry fun _ _ => ⟨nofun, nofun⟩) fun _ _ => .bind (all_derefPtr _) fun _ _ =>
    .bind (all_derefPtr _) fun _ _ => .bind (.emit fun _ _ => ⟨nofun, nofun⟩) fun _ _ =>
      .emit fun _ _ => ⟨nofun, nofun⟩

theorem apply_of_no_sem {count : Semaphore → Nat → Nat} {e : FileEvent}
    (hu : ∀ sem i, e ≠ .up sem i) (hd : ∀ sem i, e ≠ .down sem i) : e.apply count = some count := by
  cases e with
  | down sem i => exact absurd rfl (hd sem i)
  | up sem i => exact absurd rfl (hu sem i)
  | _ => rfl

theorem applyAll_of_no_sem {count : Semaphore → Nat → Nat} {es : List FileEvent}
    (h : ∀ e ∈ es, ∀ sem i, e ≠ .up sem i ∧ e ≠ .down sem i) : applyAll count es = some count := by
  induction es with
  | nil => rfl
  | cons e es ih =>
    have he := h e List.mem_cons_self
    rw [applyAll, List.foldlM_cons,
      apply_of_no_sem (fun sem i => (he sem i).1) fun sem i => (he sem i).2]
    exact ih fun e' he' => h e' (List.mem_cons_of_mem _ he')

/-- What holds of the events of every `ioctl` of a run holds of the events that are pending. -/
theorem pending_all {P : FileEvent → Prop} (h : Run (WaitStep chips) .init as s)
    (hP : ∀ a ∈ as, ∀ caller name pLinkLayer cmd arg, a = .ioctl caller name pLinkLayer cmd arg →
      Trace.All P (DPU_ioctl chips name pLinkLayer cmd arg)) (caller : Nat) :
    ∀ e ∈ s.pending caller, P e := by
  revert hP caller
  refine h.inv ?_ ?_
  · intro _ _
    exact nofun
  · intro as s a t _ ih hst hP caller
    have hpend := ih fun a' ha' => hP a' (List.mem_append_left _ ha')
    have hupd {c : Nat} {es : List FileEvent} (hes : ∀ e ∈ es, P e) :
        ∀ e ∈ Function.update s.pending c es caller, P e := by
      by_cases hc : caller = c
      · subst hc
        rwa [Function.update_self]
      · rw [Function.update_of_ne hc]
        exact hpend caller
    cases hst with
    | ioctl _ _ => exact hupd (hP _ (List.mem_append_right _ List.mem_cons_self) _ _ _ _ _ rfl)
    | @run c e es count he _ =>
      refine hupd fun e' he' => hpend c e' ?_
      rw [he]
      exact List.mem_cons_of_mem _ he'
    | dspStatus => exact hpend caller
    | dspInterrupt => exact hpend caller
    | isr _ _ => exact hpend caller

/-- **Every count stays 0.** -/
theorem count_eq_zero (h : Run (WaitStep chips) .init as s) (sem : Semaphore) (chip : Nat) :
    s.count sem chip = 0 := by
  revert sem chip
  refine h.inv ?_ ?_
  · intro _ _
    rfl
  · intro as s a t h ih hst sem chip
    cases hst with
    | ioctl _ _ => exact ih sem chip
    | @run c e es count he hap =>
      have hup : ∀ sem i, e ≠ .up sem i := by
        refine pending_all h (fun a ha caller name pLinkLayer cmd arg _ => ioctl_no_up) c e ?_
        rw [he]
        exact List.mem_cons_self
      -- a `down` at 0 is not passed
      have hdown : ∀ sem i, e ≠ .down sem i := by
        rintro sem i rfl
        simp [FileEvent.apply, ih sem i] at hap
      rw [apply_of_no_sem hup hdown] at hap
      cases hap
      exact ih sem chip
    | dspStatus => exact ih sem chip
    | dspInterrupt => exact ih sem chip
    | isr _ hap =>
      rw [applyAll_of_no_sem (isr_no_sem _)] at hap
      cases hap
      exact ih sem chip

/-- **A wait is never woken.** -/
theorem not_wakeable (h : Run (WaitStep chips) .init as s) (sem : Semaphore) (chip : Nat) :
    ¬ Wakeable chips s sem chip := by
  rintro ⟨as', t, -, h', hpos⟩
  rw [count_eq_zero (h.append h')] at hpos
  exact absurd hpos (Nat.lt_irrefl 0)

/-- A command that waits on a semaphore blocks its caller. -/
theorem blocked_of_waits {caller : Nat} {name : List Byte} {pLinkLayer : LinkLayerHandler}
    {cmd : Word} {arg : IoctlArg} {sem : Semaphore} (h : Run (WaitStep chips) .init as s)
    (hst : WaitStep chips s (.ioctl caller name pLinkLayer cmd arg) t)
    (hs : waitSemaphore cmd = some sem) : t.Blocked caller sem (nodeChip name).toNat := by
  refine ⟨count_eq_zero (h.next hst) _ _, ?_⟩
  cases hst with
  | ioctl _ hout =>
    rw [ioctl_wait hs] at hout ⊢
    by_cases hlt : (nodeChip name).toNat < 4
    · rw [useEntry_of_lt hlt]
      exact ⟨[], Function.update_self _ _ _⟩
    · rw [useEntry_of_ge hlt] at hout
      cases hout

/-- **When no wait of a run is unwakeable**: exactly if no caller waits on a semaphore. -/
theorem wakeable_iff (h : Run (WaitStep chips) .init as s) :
    WaitsWakeable chips as ↔ ∀ a ∈ as, ¬ a.Waits := by
  constructor
  · intro hw a ha hwait
    obtain ⟨as₁, as₂, t, t', rfl, h₁, hst, -⟩ := h.of_mem ha
    cases a with
    | ioctl caller name pLinkLayer cmd arg =>
      obtain ⟨sem, hs⟩ := waits_iff.mp hwait
      exact not_wakeable (h₁.next hst) _ _ (hw.wakeable (as₁ ++ [_]) as₂ t' (by simp)
        (h₁.next hst) caller sem _ (blocked_of_waits h₁ hst hs))
    | _ => exact hwait
  · intro hno
    refine ⟨?_, ?_⟩
    · rintro as₁ as₂ t rfl h₁ caller sem chip ⟨-, es, hp⟩
      have hd := @pending_all chips t as₁ (fun e => ∀ sem i, e ≠ .down sem i) h₁ (by
        rintro a ha c name pLinkLayer cmd arg rfl
        refine ioctl_no_down ?_
        cases hc : waitSemaphore cmd with
        | none => rfl
        | some sem => exact absurd (waits_iff.mpr ⟨sem, hc⟩) (hno _ (List.mem_append_left _ ha)))
      exact absurd rfl (hd caller (.down sem chip) (by rw [hp]; exact List.mem_cons_self) sem chip)
    · intro as₁ chip as₂ t _ _ sem i hup
      exact absurd rfl (isr_no_sem _ _ hup sem i).1

/-! ## One wait -/

/-- `DPU_IO_CMD_WRITE_TIMEOUT` on `chipUnit0`. -/
def writeTimeout : WaitAction :=
  .ioctl 0 (devNameStr ++ [0x30]) firstFile.handle DPU_IO_CMD_WRITE_TIMEOUT
    ⟨0, 0, false, 0, fun _ _ => 0⟩

theorem run_writeTimeout : ∃ s, Run (WaitStep firstChip) .init [writeTimeout] s :=
  ⟨_, .next .start (.ioctl rfl rfl)⟩

theorem wakeable_iff_writeTimeout :
    WaitsWakeable firstChip [writeTimeout] ↔ ∀ a ∈ [writeTimeout], ¬ a.Waits :=
  run_writeTimeout.elim fun _ h => wakeable_iff h

/-- The caller waits for ever. -/
theorem writeTimeout_not_wakeable : ¬ WaitsWakeable firstChip [writeTimeout] := by
  intro hw
  have hst : WaitStep firstChip .init writeTimeout _ := .ioctl rfl rfl
  exact not_wakeable (.next .start hst) _ _ (hw.wakeable [writeTimeout] [] _ rfl
    (.next .start hst) 0 _ _ (blocked_of_waits .start hst rfl))

end Dspc
