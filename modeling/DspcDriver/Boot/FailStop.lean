import DspcDriver.Boot.Code
import DspcDriver.Upload.Run

/-!
# Failing steps of a boot

A step of a boot fails when the upload or a poll does not return 0. `FailStop` is what the boot is to
do then; `failStop_iff` is when it does: two of the eight waits have a result that nothing tests,
the platform-init wait and the first wait of each pass over the cores, and the boot goes on after
them.
-/

namespace Dspc

open Lib

/-- The value that the boot is to return when the wait times out. -/
def Wait.code : Wait → Int
  | .initReady => -1
  | .codeReset _ | .codeFinish _ => -2
  | .multiCore => -4

/-- The value that the boot is to return if the event is a failed step. -/
def BootEvent.failure : BootEvent → Option Int
  | .uploaded retValue => if retValue = 0 then none else some (-1)
  | .polled wait retPollVal => if retPollVal = 0 then none else some wait.code
  | _ => none

/-- The event stores into `pushCodeControl` or the image zone. -/
def BootEvent.Pushes : BootEvent → Prop
  | .pushCodeControl _ => True
  | .memcpy _ _ _ => True
  | _ => False

/-- The boot `es` with the result `ret` is fail-stop: it returns 0 iff no step failed, and after the
first failed step it pushes nothing and returns the code of that step. -/
structure FailStop (es : List BootEvent) (ret : Int) : Prop where
  truthful : ret = 0 ↔ ∀ e ∈ es, e.failure = none
  stops : ∀ code post, Trace.firstSome BootEvent.failure es = some (code, post) →
    ret = code ∧ ∀ e ∈ post, ¬ e.Pushes

/-- What the wait polls for is there in a read before the last. -/
def BootEnv.Answered (env : BootEnv) : Wait → Prop
  | .initReady => ∃ n, n + 1 < 0xffffffff ∧ env.reads .initReady n &&& DSP_INIT_READY ≠ 0
  | .codeReset i => ∃ n, n + 1 < 0xffffffff ∧ env.reads (.codeReset i) n &&& DSP_GETCODE_RESET ≠ 0
  | .codeFinish i => ∃ n, n + 1 < 0xffffffff ∧ env.reads (.codeFinish i) n &&& DSP_GETCODE_FINISH ≠ 0
  | .multiCore => ∃ n, n + 1 < 0xffffffff ∧ env.reads .multiCore n = 0x07

theorem retPollVal_eq_zero {env : BootEnv} {w : Wait} : env.retPollVal w = 0 ↔ env.Answered w := by
  cases w with
  | initReady | codeReset | codeFinish => exact pollValue_zero_iff
  | multiCore => exact pollCompareValue_zero_iff

theorem poll_eq (env : BootEnv) (w : Wait) :
    poll env w = ⟨[.polled w (env.retPollVal w)], .ok (env.retPollVal w)⟩ := rfl

section FailStop

variable {e : BootEvent} {es es' : List BootEvent} {ret : Int}

theorem failStop_nil : FailStop [] ret ↔ ret = 0 :=
  ⟨fun h => h.truthful.mpr fun _ he => (List.not_mem_nil he).elim,
    fun h => ⟨⟨fun _ _ he => (List.not_mem_nil he).elim, fun _ => h⟩, fun _ _ he => by cases he⟩⟩

theorem failStop_append (h : ∀ e ∈ es, e.failure = none) :
    FailStop (es ++ es') ret ↔ FailStop es' ret := by
  have hmem : (∀ e ∈ es ++ es', e.failure = none) ↔ ∀ e ∈ es', e.failure = none := by
    rw [List.forall_mem_append]
    exact and_iff_right h
  constructor
  · rintro ⟨h1, h2⟩
    rw [hmem] at h1
    rw [Trace.firstSome_append h] at h2
    exact ⟨h1, h2⟩
  · rintro ⟨h1, h2⟩
    refine ⟨by rw [hmem]; exact h1, ?_⟩
    rw [Trace.firstSome_append h]
    exact h2

theorem failStop_ok (h : e.failure = none) : FailStop (e :: es) ret ↔ FailStop es ret := by
  rw [← List.singleton_append]
  exact failStop_append fun _ he => by rw [List.mem_singleton.mp he]; exact h

/-- At the first failure the result and the rest of the boot are settled. -/
theorem failStop_failure {code : Int} (h : e.failure = some code) (hc : code ≠ 0) :
    FailStop (e :: es) ret ↔ ret = code ∧ ∀ e' ∈ es, ¬ e'.Pushes := by
  have hfirst : Trace.firstSome BootEvent.failure (e :: es) = some (code, es) := by
    rw [Trace.firstSome, h]
  constructor
  · intro hf
    exact hf.stops code es hfirst
  · rintro ⟨hr, hp⟩
    refine ⟨iff_of_false (by rwa [hr]) fun hall => ?_, fun code' post hs => ?_⟩
    · rw [hall e List.mem_cons_self] at h; cases h
    · rw [hfirst] at hs
      cases hs
      exact ⟨hr, hp⟩

theorem failStop_polled {w : Wait} {r : Int} (hr : r = 0) :
    FailStop (.polled w r :: es) ret ↔ FailStop es ret :=
  failStop_ok (if_pos hr)

theorem failStop_timeout {w : Wait} {r : Int} (hr : r ≠ 0) :
    FailStop (.polled w r :: es) ret ↔ ret = w.code ∧ ∀ e' ∈ es, ¬ e'.Pushes :=
  failStop_failure (if_neg hr) (by cases w <;> simp [Wait.code])

/-- A time-out whose code is returned next. -/
theorem failStop_returned {w : Wait} {r : Int} (hr : r ≠ 0) : FailStop [.polled w r] w.code :=
  (failStop_timeout hr).mpr ⟨rfl, fun _ he => (List.not_mem_nil he).elim⟩

/-- A time-out behind which the host goes on pushing. -/
theorem not_failStop_pushes {w : Wait} {r : Int} (hr : r ≠ 0) {e : BootEvent} (he : e.Pushes) :
    ¬ FailStop (.polled w r :: e :: es) ret :=
  fun h => ((failStop_timeout hr).mp h).2 e List.mem_cons_self he

end FailStop

/-! ## Before the first push -/

theorem iowriteAll_events {env : BootEnv} {l : List (Nat × Word)} {es : List BootEvent} {r : Unit}
    (h : iowriteAll env l = ⟨es, .ok r⟩) : es = l.map fun x => .iowrite x.1 x.2 := by
  induction l generalizing es with
  | nil => cases h; rfl
  | cons x l ih =>
    unfold iowriteAll at h
    split at h
    · cases h
    · obtain ⟨es₁, _, es₂, h1, h2, rfl⟩ := Trace.bind_ok h
      cases h1
      rw [ih h2]; rfl

theorem storeAll_events {env : BootEnv} {st : List Store} {es : List BootEvent} {r : Unit}
    (h : storeAll env st = ⟨es, .ok r⟩) : es = st.map .store := by
  induction st generalizing es with
  | nil => cases h; rfl
  | cons s st ih =>
    unfold storeAll at h
    split at h
    · cases h
    · obtain ⟨es₁, _, es₂, h1, h2, rfl⟩ := Trace.bind_ok h
      cases h1
      rw [ih h2]; rfl

/-- An upload that returns to the boot has returned 0. -/
theorem upload_events {env : BootEnv} {es : List BootEvent} {r : Int}
    (h : upload env = ⟨es, .ok r⟩) :
    r = 0 ∧ es = (uploadProgram env.thirdBLCode_U0 0).events.map .store ++ [.uploaded 0] := by
  obtain ⟨es₁, _, es₂, h1, h2, rfl⟩ := Trace.bind_ok h
  rw [storeAll_events h1]
  split at h2
  · rename_i retValue p hout
    have h0 : retValue = 0 := by
      rw [uploadProgram_eq] at hout
      split at hout
      · cases hout; rfl
      · cases hout
    subst h0
    cases h2
    exact ⟨rfl, rfl⟩
  · cases h2

/-- **A boot that returns**: setup events, none of them a failure or a push, the result of the
platform-init wait, and the pushes. -/
theorem bootLoader_events {env : BootEnv} {es : List BootEvent} {ret : Int}
    (h : bootLoader env = ⟨es, .ok ret⟩) :
    ∃ setup z es', es = setup ++ .polled .initReady (env.retPollVal .initReady) :: es' ∧
      (∀ e ∈ setup, e.failure = none) ∧ pushCode env z = ⟨es', .ok ret⟩ := by
  obtain ⟨es₁, ⟨v, p⟩, _, h1, h0, rfl⟩ := Trace.bind_ok h
  obtain ⟨_, _, es₂, ht, h2, rfl⟩ := Trace.bind_ok h0
  cases ht
  obtain ⟨es₃, _, es₄, h3, h4, rfl⟩ := Trace.bind_ok h2
  obtain ⟨es₅, r, es₆, h5, h6, rfl⟩ := Trace.bind_ok h4
  obtain ⟨es₇, _, es₈, h7, h8, rfl⟩ := Trace.bind_ok h6
  obtain ⟨rfl, rfl⟩ := upload_events h5
  rw [if_pos rfl] at h8
  obtain ⟨es₉, _, es', h9, h10, rfl⟩ := Trace.bind_ok h8
  rw [poll_eq] at h9
  cases h9
  have hd : es₇ = [] := by
    unfold derefRegisterTable at h7
    split at h7 <;> cases h7
    rfl
  refine ⟨es₁ ++ .gpRegisterTable (zone v p).pRegisterTable ::
      (es₃ ++ ((uploadProgram env.thirdBLCode_U0 0).events.map .store ++ [.uploaded 0])),
    (zone v p).pPutDSPImgZone, es', by simp [hd], ?_, h10⟩
  intro e he
  rw [iowriteAll_events h3] at he
  simp only [List.mem_append, List.mem_cons, List.mem_map, List.not_mem_nil, or_false] at he
  rcases he with he | rfl | ⟨x, -, rfl⟩ | ⟨x, -, rfl⟩ | rfl
  · unfold dmaAlloc at h1
    split at h1 <;> cases h1
    · rw [List.mem_singleton.mp he]; rfl
    · cases he
  · rfl
  · rfl
  · rfl
  · rfl

/-- With every window mapped and a table of sections as the first image, the boot gets to the pushes
and returns what they return. -/
theorem bootLoader_mapped {env : BootEnv} {v p : Word} (hd : env.dma = some (v, p))
    (hreg : env.bar.regVirt.isSome) (hwin : ∀ w, (env.bar.virt w).isSome) {q : List Byte}
    (hu : (uploadProgram env.thirdBLCode_U0 0).out = .ok (0, q)) :
    (bootLoader env).out = (pushCode env (zone v p).pPutDSPImgZone).out := by
  have hio : ∀ l, iowriteAll env l = ⟨l.map fun x => .iowrite x.1 x.2, .ok ()⟩ := by
    intro l
    induction l with
    | nil => rfl
    | cons x l ih =>
      rw [iowriteAll, if_neg (by rw [Option.isNone_iff_eq_none]; exact Option.isSome_iff_ne_none.mp hreg),
        ih]
      rfl
  have hst : ∀ st, storeAll env st = ⟨st.map .store, .ok ()⟩ := by
    intro st
    induction st with
    | nil => rfl
    | cons s st ih =>
      rw [storeAll, if_neg (by rw [Option.isNone_iff_eq_none]; exact Option.isSome_iff_ne_none.mp (hwin _)),
        ih]
      rfl
  simp only [bootLoader, dmaAlloc, hd, hio, upload, hst, hu, Trace.emit, Trace.mk_ok_bind,
    derefRegisterTable, Option.isNone_some, Trace.pure_def, poll_eq, if_true, if_false,
    Bool.false_eq_true]

/-! ## The pushes -/

theorem pushCore_ok {env : BootEnv} {z : Word} {i : Nat} {image : List Byte}
    (h : env.retPollVal (.codeFinish i) = 0) :
    pushCore env z i image =
      ⟨[.pushCodeControl PC_PUSHCODE_RESET, .polled (.codeReset i) (env.retPollVal (.codeReset i)),
        .memcpy z image image.length, .pushCodeControl PC_PUSHCODE_FINISH, .polled (.codeFinish i) 0,
        .pushCodeControl PC_PUSHCODE_RESET], .ok (.ok 0)⟩ := by
  unfold pushCore
  simp only [poll_eq, h, if_true, Trace.emit, Trace.mk_ok_bind, Trace.pure_def, List.append_nil,
    List.nil_append, List.cons_append]

theorem pushCore_error {env : BootEnv} {z : Word} {i : Nat} {image : List Byte}
    (h : env.retPollVal (.codeFinish i) ≠ 0) :
    pushCore env z i image =
      ⟨[.pushCodeControl PC_PUSHCODE_RESET, .polled (.codeReset i) (env.retPollVal (.codeReset i)),
        .memcpy z image image.length, .pushCodeControl PC_PUSHCODE_FINISH,
        .polled (.codeFinish i) (env.retPollVal (.codeFinish i))], .ok (.error (-2))⟩ := by
  unfold pushCore
  simp only [poll_eq, h, if_false, Trace.emit, Trace.mk_ok_bind, Trace.pure_def, List.append_nil,
    List.nil_append, List.cons_append]

/-- What the loop over the cores needs to be fail-stop: as long as the images are acknowledged, the
next core answers the `RESET`. -/
def CoresAnswer (env : BootEnv) : List (Nat × List Byte) → Prop
  | [] => True
  | (i, _) :: l => env.retPollVal (.codeReset i) = 0 ∧
      (env.retPollVal (.codeFinish i) = 0 → CoresAnswer env l)

/-- The loop over the cores and the end of the boot, for any list of cores. -/
theorem pushCores_failStop {env : BootEnv} {z : Word} {l : List (Nat × List Byte)}
    {es : List BootEvent} {ret : Int}
    (h : (pushCores env z 0 l >>= waitCores env) = ⟨es, .ok ret⟩) :
    FailStop es ret ↔ CoresAnswer env l := by
  induction l generalizing es with
  | nil =>
    simp only [pushCores, waitCores, poll_eq, Trace.mk_ok_bind, Trace.pure_def, if_true,
      List.nil_append] at h
    by_cases hm : env.retPollVal .multiCore = 0
    · rw [if_pos hm] at h
      cases h
      exact iff_of_true ((failStop_polled hm).mpr (failStop_nil.mpr rfl)) trivial
    · rw [if_neg hm] at h
      cases h
      exact iff_of_true (failStop_returned hm) trivial
  | cons c l ih =>
    obtain ⟨i, image⟩ := c
    rw [pushCores, bind_assoc] at h
    by_cases hf : env.retPollVal (.codeFinish i) = 0
    · rw [pushCore_ok hf] at h
      obtain ⟨_, _, es', h1, h2, rfl⟩ := Trace.bind_ok h
      cases h1
      simp only [List.cons_append, List.nil_append]
      rw [failStop_ok rfl]
      by_cases hr : env.retPollVal (.codeReset i) = 0
      · rw [failStop_polled hr, failStop_ok rfl, failStop_ok rfl, failStop_polled rfl,
          failStop_ok rfl, ih h2]
        exact ⟨fun hl => ⟨hr, fun _ => hl⟩, fun hl => hl.2 hf⟩
      · -- the image is copied after the time-out
        exact iff_of_false (not_failStop_pushes hr trivial) fun hl => hr hl.1
    · rw [pushCore_error hf] at h
      obtain ⟨_, _, es', h1, h2, rfl⟩ := Trace.bind_ok h
      cases h1
      cases h2
      simp only [List.cons_append, List.nil_append]
      rw [failStop_ok rfl]
      by_cases hr : env.retPollVal (.codeReset i) = 0
      · rw [failStop_polled hr, failStop_ok rfl, failStop_ok rfl]
        exact iff_of_true (failStop_returned hf) ⟨hr, fun h => absurd h hf⟩
      · exact iff_of_false (not_failStop_pushes hr trivial) fun hl => hr hl.1

theorem pushCode_head {env : BootEnv} {z : Word} {es : List BootEvent} {ret : Int}
    (h : pushCode env z = ⟨es, .ok ret⟩) :
    ∃ tail, es = .pushCodeControl PC_PUSHCODE_RESET :: tail := by
  obtain ⟨_, _, es', h1, -, rfl⟩ := Trace.bind_ok h
  cases h1
  exact ⟨es', rfl⟩

/-- The pushes are fail-stop iff every core after core 0 answers the `RESET` for its image. -/
theorem pushCode_failStop {env : BootEnv} {z : Word} {es : List BootEvent} {ret : Int}
    (h : pushCode env z = ⟨es, .ok ret⟩) :
    FailStop es ret ↔ (env.retPollVal (.codeReset 0) = 0 → env.retPollVal (.codeFinish 0) = 0 →
      CoresAnswer env [(1, env.DPUCore1), (2, env.DPUCore2)]) := by
  unfold pushCode at h
  simp only [poll_eq, Trace.emit, Trace.mk_ok_bind] at h
  by_cases hr : env.retPollVal (.codeReset 0) = 0
  · rw [if_pos hr, Trace.mk.injEq] at h
    by_cases hf : env.retPollVal (.codeFinish 0) = 0
    · rw [if_pos hf, hf] at h
      obtain ⟨rfl, hout⟩ := h
      simp only [List.cons_append, List.nil_append]
      rw [failStop_ok rfl, failStop_polled hr, failStop_ok rfl, failStop_ok rfl, failStop_polled rfl,
        failStop_ok rfl, pushCores_failStop (Trace.ext rfl hout)]
      exact ⟨fun hl _ _ => hl, fun hl => hl hr hf⟩
    · rw [if_neg hf] at h
      obtain ⟨rfl, hout⟩ := h
      cases hout
      simp only [List.cons_append, List.nil_append, Trace.events_pure]
      rw [failStop_ok rfl, failStop_polled hr, failStop_ok rfl, failStop_ok rfl]
      exact iff_of_true (failStop_returned hf) fun _ h => absurd h hf
  · rw [if_neg hr, Trace.mk.injEq] at h
    obtain ⟨rfl, hout⟩ := h
    cases hout
    simp only [List.cons_append, List.nil_append, Trace.events_pure]
    rw [failStop_ok rfl]
    exact iff_of_true (failStop_returned hr) fun h => absurd h hr

/-- The pushes return 0 whatever the first waits of the passes over the cores return. -/
theorem pushCode_out {env : BootEnv} {z : Word} (hr : env.retPollVal (.codeReset 0) = 0)
    (hf : ∀ i, env.retPollVal (.codeFinish i) = 0) (hm : env.retPollVal .multiCore = 0) :
    (pushCode env z).out = .ok 0 := by
  simp only [pushCode, poll_eq, Trace.emit, Trace.mk_ok_bind, hr, hf, if_true, pushCores,
    pushCore_ok (hf 1), pushCore_ok (hf 2), Trace.pure_def, waitCores, hm]

/-- **When a boot is fail-stop**: the platform-init wait is answered, and so is, as long as the
images before are acknowledged, the first wait of each pass over the cores. -/
theorem failStop_iff {env : BootEnv} {es : List BootEvent} {ret : Int}
    (h : bootLoader env = ⟨es, .ok ret⟩) :
    FailStop es ret ↔ env.Answered .initReady ∧
      (env.Answered (.codeReset 0) → env.Answered (.codeFinish 0) →
        env.Answered (.codeReset 1) ∧
          (env.Answered (.codeFinish 1) → env.Answered (.codeReset 2))) := by
  obtain ⟨setup, z, es', rfl, hclean, hpush⟩ := bootLoader_events h
  rw [failStop_append hclean]
  simp only [← retPollVal_eq_zero]
  by_cases hi : env.retPollVal .initReady = 0
  · rw [failStop_polled hi, pushCode_failStop hpush]
    simp only [CoresAnswer, hi, true_and, implies_true, and_true]
  · -- the `RESET` of the first image follows the time-out
    obtain ⟨tail, rfl⟩ := pushCode_head hpush
    exact iff_of_false (not_failStop_pushes hi trivial) fun hl => hi hl.1

/-- A boot in which core 1 never answers the `RESET`, and every other wait is answered by the first
read. -/
def silentCore1 : BootEnv where
  bar := c6678Bar
  dma := some (0xC1400000, 0x01400000)
  reads w _ := if w = .codeReset 1 then 0 else if w = .multiCore then 0x07 else 0x11
  thirdBLCode_U0 := (BootTable.mk 0x00800000 []).encode
  app4Core0 := [1]
  DPUCore1 := [2]
  DPUCore2 := [3]

theorem silentCore1_run :
    bootLoader silentCore1 = ⟨(bootLoader silentCore1).events, .ok 0⟩ := by
  refine Trace.ext rfl ?_
  have hread : ∀ w, w ≠ .codeReset 1 → w ≠ .multiCore → silentCore1.reads w 0 = 0x11 :=
    fun w h1 h2 => (if_neg h1).trans (if_neg h2)
  have hfin : ∀ i, silentCore1.retPollVal (.codeFinish i) = 0 := by
    intro i
    refine retPollVal_eq_zero.mpr ⟨0, by decide, ?_⟩
    rw [hread _ (by simp) (by simp)]
    decide
  have hreset : silentCore1.retPollVal (.codeReset 0) = 0 :=
    retPollVal_eq_zero.mpr ⟨0, by decide, by decide⟩
  have hmulti : silentCore1.retPollVal .multiCore = 0 :=
    retPollVal_eq_zero.mpr ⟨0, by decide, by decide⟩
  have hu : (uploadProgram silentCore1.thirdBLCode_U0 0).out = .ok (0, []) := by decide
  rw [bootLoader_mapped rfl rfl (fun w => by cases w <;> rfl) hu]
  exact pushCode_out hreset hfin hmulti

theorem failStop_iff_silentCore1 :
    ∃ es, bootLoader silentCore1 = ⟨es, .ok 0⟩ ∧
      (FailStop es 0 ↔ silentCore1.Answered .initReady ∧
        (silentCore1.Answered (.codeReset 0) → silentCore1.Answered (.codeFinish 0) →
          silentCore1.Answered (.codeReset 1) ∧
            (silentCore1.Answered (.codeFinish 1) → silentCore1.Answered (.codeReset 2)))) :=
  ⟨_, silentCore1_run, failStop_iff silentCore1_run⟩

/-- The boot overwrites the image zone after a wait that failed, and reports success. -/
theorem silentCore1_not_failStop :
    ∃ es, bootLoader silentCore1 = ⟨es, .ok 0⟩ ∧ ¬ FailStop es 0 := by
  refine ⟨_, silentCore1_run, fun h => ?_⟩
  have hne : silentCore1.retPollVal (.codeReset 1) ≠ 0 := by
    rw [ne_eq, retPollVal_eq_zero]
    rintro ⟨n, -, hn⟩
    exact hn (by simp [silentCore1])
  obtain ⟨setup, z, es', hes, hclean, hpush⟩ := bootLoader_events silentCore1_run
  have hinit : silentCore1.retPollVal .initReady = 0 :=
    retPollVal_eq_zero.mpr ⟨0, by decide, by decide⟩
  have hreset : silentCore1.retPollVal (.codeReset 0) = 0 :=
    retPollVal_eq_zero.mpr ⟨0, by decide, by decide⟩
  have hfin : silentCore1.retPollVal (.codeFinish 0) = 0 :=
    retPollVal_eq_zero.mpr ⟨0, by decide, by decide⟩
  rw [hes, failStop_append hclean, failStop_polled hinit, pushCode_failStop hpush] at h
  exact hne (h hreset hfin).1

end Dspc
