import DspcDriver.Boot.Completion

/-!
# A push whose waits time out

`bootLoader` returns when a wait of the push has timed out, except for the wait for `RESET` in the loop
over the cores: its result is not tested, and the image is stored whether the DSP has answered or not
(`pushCode_executed`). `timedSys` is the push with such time-outs, at any wait and in any number, for
any list of images.

Until a wait that is not tested has timed out, no image is lost or torn, and of the first one nothing
is lost at all (`timed_safe`). Behind such a time-out the host may find the `FINISH` of the image before
and take it for that of its own: it can be through with only the first images read
(`through_of_append`). So that the host is through says that every image was read only where there is at
most one (`through_iff`).
-/

namespace Dspc

open Lib Handshake

/-- An operation of the host. The two waits have the core that the image is for. -/
inductive TimedOp (β : Type) where
  | control (value : Word)
  | waitReset (coreIndex : Nat)
  | write (i : Nat) (b : β)
  | waitFinish (coreIndex : Nat)

variable {β : Type}

/-- The operation of a push without time-outs. -/
def TimedOp.op : TimedOp β → PushOp β
  | .control value => .control value
  | .waitReset _ => .wait DSP_GETCODE_RESET
  | .write i b => .write i b
  | .waitFinish _ => .wait DSP_GETCODE_FINISH

/-- Whether the host returns when the operation has timed out. The wait for `RESET` in the loop over the
cores from 1 on is not tested. -/
def TimedOp.tested : TimedOp β → Bool
  | .waitReset coreIndex => coreIndex == 0
  | _ => true

/-- The stores of `memcpy` from word `k` on. -/
def copyOps (k : Nat) : List β → List (TimedOp β)
  | [] => []
  | b :: bs => .write k b :: copyOps (k + 1) bs

/-- The operations for the image of a core. -/
def timedImage (coreIndex : Nat) (image : List β) : List (TimedOp β) :=
  .control PC_PUSHCODE_RESET :: .waitReset coreIndex :: (copyOps 0 image ++
    [.control PC_PUSHCODE_FINISH, .waitFinish coreIndex, .control PC_PUSHCODE_RESET])

/-- The operations for the images of the cores from `coreIndex` on. -/
def timedFrom (coreIndex : Nat) : List (List β) → List (TimedOp β)
  | [] => []
  | image :: images => timedImage coreIndex image ++ timedFrom (coreIndex + 1) images

/-- The state of a push. `retValue` is -2 when the host has returned, and `missed` is whether a wait that
is not tested has timed out. -/
structure TimedState (β : Type) where
  host : List (TimedOp β)
  retValue : Int
  missed : Bool
  pushCodeControl : Word
  zone : Nat → β
  dsp : ConsumerState Word β

section System

variable (images : List (List β))

/-- A wait times out when its last read does not show the bit. -/
inductive TimedStep : TimedState β → TimedState β → Prop
  | control {s : TimedState β} {v : Word} {ops : List (TimedOp β)} : s.host = .control v :: ops →
      TimedStep s { s with host := ops, pushCodeControl := v }
  | wait {s : TimedState β} {op : TimedOp β} {pollVal : Word} {ops : List (TimedOp β)} :
      s.host = op :: ops → op.op = .wait pollVal → s.dsp.status &&& pollVal ≠ 0 →
      TimedStep s { s with host := ops }
  | giveUp {s : TimedState β} {op : TimedOp β} {pollVal : Word} {ops : List (TimedOp β)} :
      s.host = op :: ops → op.op = .wait pollVal → s.dsp.status &&& pollVal = 0 → op.tested = true →
      TimedStep s { s with host := [], retValue := -2 }
  | goOn {s : TimedState β} {op : TimedOp β} {pollVal : Word} {ops : List (TimedOp β)} :
      s.host = op :: ops → op.op = .wait pollVal → s.dsp.status &&& pollVal = 0 → op.tested = false →
      TimedStep s { s with host := ops, missed := true }
  | write {s : TimedState β} {i : Nat} {b : β} {ops : List (TimedOp β)} :
      s.host = .write i b :: ops →
      TimedStep s { s with host := ops, zone := Function.update s.zone i b }
  | dsp {s : TimedState β} {y : ConsumerState Word β} :
      ConsumerStep controlCodes statusCodes images s.pushCodeControl s.zone s.dsp y →
      TimedStep s { s with dsp := y }

/-- The push of `images` with time-outs. -/
def timedSys : Sys (TimedState β) where
  init s := s.host = timedFrom 0 images ∧ s.retValue = 0 ∧ s.missed = false ∧
    s.pushCodeControl = 0 ∧ s.dsp = ⟨.waitReset, 0, []⟩
  step := TimedStep images

end System

/-! ## The operations of `bootLoader` -/

/-- The operations that a host does, and what it returns, from which waits were answered. -/
def executed (answered : TimedOp β → Bool) : List (TimedOp β) → List (TimedOp β) × Int
  | [] => ([], 0)
  | op :: ops =>
    if answered op || !op.tested then (op :: (executed answered ops).1, (executed answered ops).2)
    else ([op], -2)

/-- The waits of a boot that see their bit. -/
def BootEnv.answered (env : BootEnv) : TimedOp Byte → Bool
  | .waitReset coreIndex => env.retPollVal (.codeReset coreIndex) == 0
  | .waitFinish coreIndex => env.retPollVal (.codeFinish coreIndex) == 0
  | _ => true

/-- The operations of an event of the boot; `behind` is the memory behind the source of a copy. -/
def BootEvent.timedOps (behind : List Byte) : BootEvent → List (TimedOp Byte)
  | .pushCodeControl value => [.control value]
  | .polled (.codeReset coreIndex) _ => [.waitReset coreIndex]
  | .polled (.codeFinish coreIndex) _ => [.waitFinish coreIndex]
  | .memcpy _ src length => copyOps 0 ((src ++ behind).take length)
  | _ => []

theorem executed_copyOps (env : BootEnv) (k : Nat) (bs : List Byte) (ops : List (TimedOp Byte)) :
    executed env.answered (copyOps k bs ++ ops) =
      (copyOps k bs ++ (executed env.answered ops).1, (executed env.answered ops).2) := by
  induction bs generalizing k with
  | nil => rfl
  | cons b bs ih => simp [copyOps, executed, BootEnv.answered, ih]

/-- The operations for an image, of which only the waits can end a push. -/
theorem executed_timedImage (env : BootEnv) (i : Nat) (image : List Byte) (ops : List (TimedOp Byte)) :
    executed env.answered (timedImage i image ++ ops) =
      if i = 0 ∧ env.retPollVal (.codeReset i) ≠ 0 then
        ([.control PC_PUSHCODE_RESET, .waitReset i], -2)
      else if env.retPollVal (.codeFinish i) = 0 then
        (timedImage i image ++ (executed env.answered ops).1, (executed env.answered ops).2)
      else
        (.control PC_PUSHCODE_RESET :: .waitReset i :: (copyOps 0 image ++
          [.control PC_PUSHCODE_FINISH, .waitFinish i]), -2) := by
  cases i with
  | zero =>
    by_cases hr : env.retPollVal (.codeReset 0) = 0 <;>
      by_cases hf : env.retPollVal (.codeFinish 0) = 0 <;>
      simp [timedImage, executed, executed_copyOps, BootEnv.answered, TimedOp.tested, hr, hf]
  | succ i =>
    by_cases hf : env.retPollVal (.codeFinish (i + 1)) = 0 <;>
      simp [timedImage, executed, executed_copyOps, BootEnv.answered, TimedOp.tested, hf]

/-- The arguments of the loop over the cores from `coreIndex` on. -/
def coresFrom (coreIndex : Nat) : List (List Byte) → List (Nat × List Byte)
  | [] => []
  | image :: images => (coreIndex, image) :: coresFrom (coreIndex + 1) images

/-- The loop over the cores, for any images. -/
theorem pushCores_executed (env : BootEnv) (z : Word) (behind : List Byte) {i : Nat} (hi : i ≠ 0)
    (images : List (List Byte)) :
    let r := executed env.answered (timedFrom i images)
    (pushCores env z 0 (coresFrom i images)).events.flatMap (BootEvent.timedOps behind) = r.1 ∧
    (pushCores env z 0 (coresFrom i images)).out = .ok (if r.2 = 0 then .ok 0 else .error r.2) := by
  induction images generalizing i with
  | nil => exact ⟨rfl, rfl⟩
  | cons image images ih =>
    simp only [timedFrom, executed_timedImage, hi, false_and, if_false, coresFrom, pushCores]
    by_cases hf : env.retPollVal (.codeFinish i) = 0
    · obtain ⟨hes, hout⟩ := ih (Nat.succ_ne_zero i)
      rw [pushCore_ok hf, Trace.mk_ok_bind, if_pos hf]
      refine ⟨?_, hout⟩
      simp [BootEvent.timedOps, timedImage, ← hes]
    · rw [pushCore_error hf, Trace.mk_ok_bind, if_neg hf]
      exact ⟨by simp [BootEvent.timedOps, Trace.pure_def], rfl⟩

theorem waitCores_timedOps (env : BootEnv) (behind : List Byte) (r : Except Int Int) :
    (waitCores env r).events.flatMap (BootEvent.timedOps behind) = [] := by
  cases r with
  | error r => rfl
  | ok r =>
    rw [waitCores]
    split
    · rw [poll_eq, Trace.mk_ok_bind]
      split <;> rfl
    · rfl

theorem waitCores_ok (env : BootEnv) :
    (waitCores env (.ok 0)).out = .ok (if env.retPollVal .multiCore = 0 then 0 else -4) := by
  rw [waitCores, if_pos rfl, poll_eq, Trace.mk_ok_bind]
  split <;> rfl

/-- **`bootLoader` pushes its three images this way**, whatever its waits see; when it is through it
returns what the wait for the cores gives. -/
theorem pushCode_executed (env : BootEnv) (z : Word) (behind : List Byte) :
    let r := executed env.answered
      (timedFrom 0 [(env.app4Core0 ++ behind).take ((env.app4Core0.length + 3) / 4 * 4), env.DPUCore1,
        env.DPUCore2])
    (pushCode env z).events.flatMap (BootEvent.timedOps behind) = r.1 ∧
    (pushCode env z).out =
      .ok (if r.2 ≠ 0 then r.2 else if env.retPollVal .multiCore = 0 then 0 else -4) := by
  obtain ⟨hes, hout⟩ := pushCores_executed env z behind (Nat.one_ne_zero) [env.DPUCore1, env.DPUCore2]
  rw [timedFrom, executed_timedImage]
  by_cases hr : env.retPollVal (.codeReset 0) = 0
  · by_cases hf : env.retPollVal (.codeFinish 0) = 0
    · simp only [coresFrom] at hes hout
      simp only [pushCode, poll_eq, Trace.emit, Trace.mk_ok_bind, hr, hf, if_true,
        Trace.bind_of_out hout, ne_eq, not_true_eq_false, and_false, if_false, List.flatMap_append, hes,
        waitCores_timedOps, Nat.zero_add]
      refine ⟨by simp [BootEvent.timedOps, timedImage], ?_⟩
      by_cases h0 : (executed env.answered (timedFrom 1 [env.DPUCore1, env.DPUCore2])).2 = 0
      · rw [if_pos h0, waitCores_ok, if_neg (not_not.mpr h0)]
      · rw [if_neg h0, if_pos h0]
        rfl
    · simp [pushCode, poll_eq, Trace.emit, Trace.mk_ok_bind, hr, hf, BootEvent.timedOps,
        Trace.pure_def]
  · simp [pushCode, poll_eq, Trace.emit, Trace.mk_ok_bind, hr, BootEvent.timedOps, Trace.pure_def]

/-! ## The lists of operations -/

section Ops

variable {k n : Nat} {op : TimedOp β} {ops : List (TimedOp β)}

theorem map_copyOps (k : Nat) (bs : List β) : (copyOps k bs).map TimedOp.op = copyFrom k bs := by
  induction bs generalizing k with
  | nil => rfl
  | cons b bs ih => simp [copyOps, copyFrom, ih, TimedOp.op]

theorem map_timedFrom (n : Nat) (images : List (List β)) :
    (timedFrom n images).map TimedOp.op = pushAll images := by
  induction images generalizing n with
  | nil => rfl
  | cons image images ih =>
    rw [timedFrom, List.map_append, ih, pushAll, pushAll, List.flatMap_cons]
    simp [timedImage, pushImage, finishOps, map_copyOps, TimedOp.op]

theorem timedFrom_append (n : Nat) (pre post : List (List β)) :
    timedFrom n (pre ++ post) = timedFrom n pre ++ timedFrom (n + pre.length) post := by
  induction pre generalizing n with
  | nil => rfl
  | cons image pre ih =>
    rw [List.cons_append, timedFrom, timedFrom, ih, List.append_assoc, List.length_cons,
      Nat.add_assoc, Nat.add_comm 1]

theorem waitReset_not_mem_copyOps (k : Nat) (bs : List β) : .waitReset n ∉ copyOps k bs := by
  induction bs generalizing k with
  | nil => exact List.not_mem_nil
  | cons b bs ih =>
    rw [copyOps, List.mem_cons, not_or]
    exact ⟨by rintro ⟨⟩, ih _⟩

/-- The waits for `RESET` are those for the cores that get an image. -/
theorem waitReset_mem {images : List (List β)} (h : .waitReset k ∈ timedFrom n images) :
    n ≤ k ∧ k < n + images.length := by
  induction images generalizing n with
  | nil => cases h
  | cons image images ih =>
    rw [timedFrom, List.mem_append] at h
    rcases h with h | h
    · simp only [timedImage, List.mem_cons, List.mem_append, reduceCtorEq, false_or, or_false,
        waitReset_not_mem_copyOps, TimedOp.waitReset.injEq, List.not_mem_nil] at h
      simp [h]
    · have := ih h
      rw [List.length_cons]
      omega

/-- An operation that is a wait for `RESET` in the loop over the cores. -/
theorem eq_waitReset_of_untested (h : op.tested = false) : ∃ i, op = .waitReset (i + 1) := by
  cases op with
  | waitReset i =>
    cases i with
    | zero => cases h
    | succ i => exact ⟨i, rfl⟩
  | control | write | waitFinish => cases h

/-- Two ends of one list that are as long are the same. -/
theorem suffix_eq_of_length {α : Type} {l l₁ l₂ : List α} (h₁ : l₁ <:+ l) (h₂ : l₂ <:+ l)
    (h : l₁.length = l₂.length) : l₁ = l₂ :=
  (List.suffix_of_suffix_length_le h₁ h₂ h.le).eq_of_length h

end Ops

/-! ## What a time-out cannot do -/

section Safe

variable {images : List (List β)} {s t : TimedState β}

/-- The push without time-outs at the state `s`, with the operations `host` left. -/
def TimedState.push (s : TimedState β) (host : List (PushOp β)) : PushState β :=
  ⟨host, s.pushCodeControl, s.zone, s.dsp⟩

/-- The invariant of a push with time-outs. -/
structure TimedInv (images : List (List β)) (s : TimedState β) : Prop where
  suffix : s.host <:+ timedFrom 0 images
  gone : s.retValue ≠ 0 → s.host = []
  /-- Until a wait that is not tested has timed out, this is a push without time-outs, of which a host
  that has given up takes no more steps. -/
  patient : s.missed = false → ∃ host, (pushSys images).Reach (s.push host) ∧
    (s.retValue = 0 → s.host.map TimedOp.op = host)
  /-- Behind such a time-out the first image is delivered, and it is not the last one. -/
  first : s.missed = true → ∃ image next rest ds, images = image :: next :: rest ∧
    s.dsp.delivered = image :: ds

theorem tail_suffix {op : TimedOp β} {ops l : List (TimedOp β)} (h : op :: ops <:+ l) : ops <:+ l :=
  (List.suffix_cons op ops).trans h

theorem await_of_wait {ops : List (PushOp β)} {pr : Producer}
    (h : HostAt images (.wait DSP_GETCODE_RESET :: ops) pr) : ∃ n, pr = .await n := by
  obtain ⟨p', hstep, -⟩ := h.cons
  generalize hop : (PushOp.wait DSP_GETCODE_RESET : PushOp β) = op at hstep
  cases hstep with
  | grant => exact ⟨_, rfl⟩
  | done n => exact absurd (PushOp.wait.inj hop) (by decide)
  | reset | again | send | write => cases hop

/-- Where a wait that is not tested is next, the first image is delivered. -/
theorem first_delivered {i : Nat} {ops : List (TimedOp β)} {a : State β} (hi : Inv images a)
    (hs : .waitReset (i + 1) :: ops <:+ timedFrom 0 images)
    (hh : HostAt images ((TimedOp.waitReset (i + 1) :: ops).map TimedOp.op) a.producer) :
    ∃ image next rest ds, images = image :: next :: rest ∧ a.delivered = image :: ds := by
  rw [List.map_cons, TimedOp.op] at hh
  obtain ⟨n, hp⟩ := await_of_wait hh
  rw [hp] at hh
  obtain ⟨-, h | ⟨image, himg, h⟩⟩ := hh
  · obtain ⟨hw, -⟩ := pushAll_cons h.symm
    cases hw
  have hd := hi.acked (.inr (.inl hp))
  obtain ⟨hlt, -⟩ := List.getElem?_eq_some_iff.mp himg
  cases images with
  | nil => cases hlt
  | cons first rest =>
    cases n with
    | succ n =>
      cases rest with
      | nil => exact absurd (Nat.succ_lt_succ_iff.mp hlt) (Nat.not_lt_zero n)
      | cons next rest => exact ⟨first, next, rest, _, rfl, by rw [hd, List.take_succ_cons]⟩
    | zero =>
      -- the wait for the first image is another one
      have hmap : (.waitReset (i + 1) :: ops).map TimedOp.op =
          (timedFrom 0 (first :: rest)).tail.map TimedOp.op := by
        cases himg
        rw [List.map_tail, map_timedFrom]
        exact h
      have hlen := congrArg List.length hmap
      rw [List.length_map, List.length_map] at hlen
      cases suffix_eq_of_length hs (List.tail_suffix _) hlen

theorem timedInv_init (h : (timedSys images).init s) : TimedInv images s := by
  obtain ⟨hh, hr, hm, hc, hd⟩ := h
  refine ⟨hh ▸ List.suffix_refl _, fun h => absurd hr h, fun _ => ?_, fun h => ?_⟩
  · refine ⟨pushAll images, .start ⟨rfl, hc, hd⟩, fun _ => ?_⟩
    rw [hh, map_timedFrom]
  · rw [hm] at h
    cases h

theorem TimedInv.ret_zero {op : TimedOp β} {ops : List (TimedOp β)} (hi : TimedInv images s)
    (hop : s.host = op :: ops) : s.retValue = 0 := by
  by_contra h
  rw [hi.gone h] at hop
  cases hop

/-- A step that the push without time-outs takes too. -/
theorem TimedInv.next {op : TimedOp β} {ops : List (TimedOp β)} (hi : TimedInv images s)
    (hop : s.host = op :: ops) (ht : t.host = ops) (hr : t.retValue = s.retValue)
    (hm : t.missed = s.missed) (hd : t.dsp = s.dsp)
    (hstep : ∀ host, host = op.op :: ops.map TimedOp.op →
      PushStep images (s.push host) (t.push (ops.map TimedOp.op))) : TimedInv images t := by
  have hret := hi.ret_zero hop
  refine ⟨?_, fun h => absurd (hr.trans hret) h, fun h => ?_, fun h => ?_⟩
  · have hs := hi.suffix
    rw [hop] at hs
    exact ht ▸ tail_suffix hs
  · obtain ⟨host, hreach, hh⟩ := hi.patient (hm ▸ h)
    have hh := hh hret
    rw [hop] at hh
    exact ⟨_, hreach.next (hstep host hh.symm), fun _ => by rw [ht]⟩
  · rw [hd]
    exact hi.first (hm ▸ h)

/-- **Every step keeps the invariant.** -/
theorem timedInv_step (hi : TimedInv images s) (h : TimedStep images s t) : TimedInv images t := by
  cases h with
  | control hop => exact hi.next hop rfl rfl rfl rfl fun host hh => .control (s := s.push host) hh
  | write hop => exact hi.next hop rfl rfl rfl rfl fun host hh => .write (s := s.push host) hh
  | wait hop hw hb =>
    refine hi.next hop rfl rfl rfl rfl fun host hh => ?_
    rw [hw] at hh
    exact .wait (s := s.push host) hh hb
  | giveUp =>
    refine ⟨List.nil_suffix, fun _ => rfl, fun h => ?_, hi.first⟩
    obtain ⟨host, hreach, -⟩ := hi.patient h
    exact ⟨host, hreach, fun h => absurd h (show (-2 : Int) ≠ 0 by decide)⟩
  | goOn hop hw hb hu =>
    have hs := hi.suffix
    rw [hop] at hs
    have hret := hi.ret_zero hop
    refine ⟨tail_suffix hs, fun h => absurd hret h, by rintro ⟨⟩, fun _ => ?_⟩
    · obtain ⟨i, rfl⟩ := eq_waitReset_of_untested hu
      cases hm : s.missed with
      | true => exact hi.first hm
      | false =>
        obtain ⟨host, hreach, hh⟩ := hi.patient hm
        obtain ⟨a, ha, hrel⟩ := pushSys_simulates.reach hreach
        have hrest : HostAt images host a.producer := hrel.host
        rw [← hh hret, hop] at hrest
        obtain ⟨image, next, rest, ds, himages, hd⟩ := first_delivered (inv ha) hs hrest
        exact ⟨image, next, rest, ds, himages, hrel.shows.delivered.trans hd⟩
  | dsp h =>
    refine ⟨hi.suffix, hi.gone, fun hm => ?_, fun hm => ?_⟩
    · obtain ⟨host, hreach, hh⟩ := hi.patient hm
      exact ⟨host, hreach.next (.dsp h), hh⟩
    · obtain ⟨image, next, rest, ds, himages, hd⟩ := hi.first hm
      obtain ⟨l, hl⟩ := h.delivered_prefix
      exact ⟨image, next, rest, ds ++ l, himages, by rw [← hl, hd]; rfl⟩

theorem timedInv (h : (timedSys images).Reach s) : TimedInv images s :=
  h.inv (fun _ => timedInv_init) fun _ _ => timedInv_step

/-- What is read where the images `post` are left. -/
theorem delivered_of_left {a : State β} {post : List (List β)} {host : List (PushOp β)}
    (hi : Inv images a) (h : HostAt images host a.producer) (hpost : post <:+ images)
    (he : host = pushAll post ∨ host = .control PC_PUSHCODE_RESET :: pushAll post) :
    a.delivered ++ post = images := by
  obtain ⟨n, hn, hdrop⟩ := h.acked hpost he
  rw [hi.acked (hn.imp_right .inl), ← hdrop, List.take_append_drop]

/-- Where no wait that is not tested has timed out, a host that is through has had every image read. -/
theorem all_of_patient (h : (timedSys images).Reach s) (hm : s.missed = false) (hnil : s.host = [])
    (hret : s.retValue = 0) : s.dsp.delivered = images := by
  obtain ⟨host, hreach, hh⟩ := (timedInv h).patient hm
  obtain ⟨a, ha, hrel⟩ := pushSys_simulates.reach hreach
  have hhost : HostAt images host a.producer := hrel.host
  rw [← hh hret, hnil] at hhost
  have hacked := delivered_of_left (inv ha) hhost List.nil_suffix (.inl rfl)
  rw [show s.dsp.delivered = a.delivered from hrel.shows.delivered, ← hacked, List.append_nil]

/-- Where no wait that is not tested has timed out, the DSP does not read while the host writes. -/
theorem exclusive_of_patient {i : Nat} {b : β} {ops : List (TimedOp β)}
    (h : (timedSys images).Reach s) (hm : s.missed = false) (hop : s.host = .write i b :: ops)
    (ws : List β) : s.dsp.place ≠ .reading ws := by
  obtain ⟨host, hreach, hh⟩ := (timedInv h).patient hm
  obtain ⟨a, ha, hrel⟩ := pushSys_simulates.reach hreach
  have hhost : HostAt images host a.producer := hrel.host
  rw [← hh ((timedInv h).ret_zero hop), hop] at hhost
  obtain ⟨p', hstep, -⟩ := hhost.cons
  have hp : s.dsp.place = a.consumer := hrel.shows.place
  generalize hpr : a.producer = p at hstep
  cases hstep with
  | write =>
    rw [hp]
    exact (inv ha).exclusive hpr ws

/-- **What a time-out cannot do.** In every state that host and DSP reach, whatever waits have timed
out: the first image is not torn, and it is read when the host is through. As long as no wait that is not
tested has timed out, the host does not write the zone while the DSP reads it, what is read is a first
part of the images, and when the host is through it is all of them. -/
theorem timed_safe (h : (timedSys images).Reach s) :
    s.dsp.delivered.take 1 <+: images ∧
    (s.host = [] → s.retValue = 0 → images.take 1 <+: s.dsp.delivered) ∧
    (s.missed = false →
      (∀ i b ops, s.host = .write i b :: ops → ∀ ws, s.dsp.place ≠ .reading ws) ∧
      s.dsp.delivered <+: images ∧
      (s.host = [] → s.retValue = 0 → s.dsp.delivered = images)) := by
  have hi := timedInv h
  cases hm : s.missed with
  | true =>
    obtain ⟨image, next, rest, ds, rfl, hd⟩ := hi.first hm
    refine ⟨?_, fun _ _ => ?_, by rintro ⟨⟩⟩ <;> rw [hd] <;> exact ⟨_, rfl⟩
  | false =>
    obtain ⟨host, hreach, -⟩ := hi.patient hm
    obtain ⟨a, ha, hrel⟩ := pushSys_simulates.reach hreach
    have hd : s.dsp.delivered = a.delivered := hrel.shows.delivered
    have hpre : s.dsp.delivered <+: images := hd ▸ (inv ha).delivered
    refine ⟨(List.take_prefix ..).trans hpre, fun hnil hret => ?_,
      fun _ => ⟨fun i b ops hop ws => exclusive_of_patient h hm hop ws, hpre, all_of_patient h hm⟩⟩
    rw [all_of_patient h hm hnil hret]
    exact List.take_prefix ..

/-- The first image is read; the wait for the DSP's `RESET` for the second has timed out, and the host went
through with the `FINISH` of the first. -/
def missedPush : TimedState Nat where
  host := []
  retValue := 0
  missed := true
  pushCodeControl := PC_PUSHCODE_RESET
  zone := Stores.run [(0, 7), (1, 8), (0, 9), (1, 10)] fun _ => 0
  dsp := ⟨.waitReset, DSP_GETCODE_FINISH, [[7, 8]]⟩

theorem missedPush_reach : (timedSys twoImages).Reach missedPush := by
  have h0 : (timedSys twoImages).Reach
      ⟨timedFrom 0 twoImages, 0, false, 0, fun _ => 0, .waitReset, 0, []⟩ :=
    .start ⟨rfl, rfl, rfl, rfl, rfl⟩
  have h1 := h0.next (.control rfl)
  have h2 := h1.next (.dsp (.seeReset rfl rfl))
  have h3 := h2.next (.dsp (.ackReset rfl))
  have h4 := h3.next (.wait rfl rfl (by decide))
  have h5 := h4.next (.write rfl)
  have h6 := h5.next (.write rfl)
  have h7 := h6.next (.control rfl)
  have h8 := h7.next (.dsp (.seeFinish rfl rfl))
  have h9 := h8.next (.dsp (.read rfl (by decide)))
  have h10 := h9.next (.dsp (.read rfl (by decide)))
  have h11 := h10.next (.dsp (.deliver rfl rfl))
  have h12 := h11.next (.dsp (.ackFinish rfl))
  have h13 := h12.next (.wait rfl rfl (by decide))
  -- the DSP takes no further step
  have h14 := h13.next (.control rfl)
  have h15 := h14.next (.control rfl)
  have h16 := h15.next (.goOn rfl rfl (by decide) rfl)
  have h17 := h16.next (.write rfl)
  have h18 := h17.next (.write rfl)
  have h19 := h18.next (.control rfl)
  have h20 := h19.next (.wait rfl rfl (by decide))
  have h21 := h20.next (.control rfl)
  exact h21

theorem timed_safe_missed :
    missedPush.dsp.delivered.take 1 <+: twoImages ∧
    (missedPush.host = [] → missedPush.retValue = 0 →
      twoImages.take 1 <+: missedPush.dsp.delivered) ∧
    (missedPush.missed = false →
      (∀ i b ops, missedPush.host = .write i b :: ops → ∀ ws, missedPush.dsp.place ≠ .reading ws) ∧
      missedPush.dsp.delivered <+: twoImages ∧
      (missedPush.host = [] → missedPush.retValue = 0 → missedPush.dsp.delivered = twoImages)) :=
  timed_safe missedPush_reach

end Safe

/-! ## What a time-out can do -/

section Through

variable {images : List (List β)} {p q : PushState β} {s t : TimedState β} {n : Nat}

theorem PushStep.host_tail (h : PushStep images p q) : q.host = p.host ∨ q.host = p.host.tail := by
  cases h with
  | control h | wait h | write h => exact .inr (by rw [h]; rfl)
  | dsp => exact .inl rfl

theorem PushSteps.host_suffix (h : (pushSys images).Steps p n q) : q.host <:+ p.host := by
  induction h with
  | start => exact List.suffix_refl _
  | next _ hst ih =>
    rcases PushStep.host_tail hst with h | h
    · exact h ▸ ih
    · exact h ▸ (List.tail_suffix _).trans ih

/-- A run of the host to its end takes each operation on the way. -/
theorem exists_taken {op : PushOp β} {ops : List (PushOp β)} (h : (pushSys images).Steps p n q)
    (hp : op :: ops <:+ p.host) (hq : q.host.length ≤ ops.length) :
    ∃ m u v, (pushSys images).Steps p m u ∧ u.host = op :: ops ∧ PushStep images u v ∧
      v.host = ops := by
  induction h with
  | start =>
    have := hp.length_le
    rw [List.length_cons] at this
    omega
  | @next m u v hrun hst ih =>
    by_cases hu : u.host.length ≤ ops.length
    · exact ih hu
    · rcases PushStep.host_tail hst with h | h
      · exact absurd (h ▸ hq) hu
      · rw [h, List.length_tail] at hq
        have hop : u.host = op :: ops := by
          refine suffix_eq_of_length (PushSteps.host_suffix hrun) hp ?_
          rw [List.length_cons]
          omega
        exact ⟨m, u, v, hrun, hop, hst, by rw [h, hop, List.tail_cons]⟩

/-- A run without time-outs is one of the system with time-outs. -/
theorem timed_of_push (h : (pushSys images).Steps (s.push (s.host.map TimedOp.op)) n q) :
    ∃ t, (timedSys images).Steps s n t ∧ t.push (t.host.map TimedOp.op) = q ∧
      t.host <:+ s.host ∧ t.retValue = s.retValue := by
  induction h with
  | start => exact ⟨s, .start, rfl, List.suffix_refl _, rfl⟩
  | next _ hst ih =>
    obtain ⟨t, hrun, rfl, hsuf, hret⟩ := ih
    have hcons : ∀ {op' ops'}, (t.push (t.host.map TimedOp.op)).host = op' :: ops' →
        ∃ op ops, t.host = op :: ops ∧ op.op = op' ∧ ops.map TimedOp.op = ops' ∧ ops <:+ s.host := by
      intro op' ops' h
      obtain ⟨op, ops, hop, h1, h2⟩ := List.map_eq_cons_iff.mp h
      exact ⟨op, ops, hop, h1, h2, tail_suffix (hop ▸ hsuf)⟩
    cases hst with
    | control h =>
      obtain ⟨op, ops, hop, h1, rfl, hs⟩ := hcons h
      cases op with
      | control v => cases h1; exact ⟨_, hrun.next (.control hop), rfl, hs, hret⟩
      | waitReset | write | waitFinish => cases h1
    | wait h hb =>
      obtain ⟨op, ops, hop, h1, rfl, hs⟩ := hcons h
      exact ⟨_, hrun.next (.wait hop h1 hb), rfl, hs, hret⟩
    | write h =>
      obtain ⟨op, ops, hop, h1, rfl, hs⟩ := hcons h
      cases op with
      | write i b => cases h1; exact ⟨_, hrun.next (.write hop), rfl, hs, hret⟩
      | waitReset | control | waitFinish => cases h1
    | dsp h => exact ⟨_, hrun.next (.dsp h), rfl, hsuf, hret⟩

/-- **A host that finds an old `FINISH` goes through without the DSP.** -/
theorem through_alone {l : List (TimedOp β)} (hl : .waitReset 0 ∉ l) (hs : s.host = l)
    (hst : s.dsp.status = DSP_GETCODE_FINISH) :
    ∃ n t, (timedSys images).Steps s n t ∧ t.host = [] ∧ t.retValue = s.retValue ∧
      t.dsp = s.dsp := by
  induction l generalizing s with
  | nil => exact ⟨0, s, .start, hs, rfl, rfl⟩
  | cons op ops ih =>
    rw [List.mem_cons, not_or] at hl
    obtain ⟨t, hstep, hh, hret, hdsp⟩ : ∃ t, TimedStep images s t ∧ t.host = ops ∧
        t.retValue = s.retValue ∧ t.dsp = s.dsp := by
      cases op with
      | control v => exact ⟨_, .control hs, rfl, rfl, rfl⟩
      | write i b => exact ⟨_, .write hs, rfl, rfl, rfl⟩
      | waitFinish i => exact ⟨_, .wait hs rfl (by rw [hst]; decide), rfl, rfl, rfl⟩
      | waitReset i =>
        have hi : (i == 0) = false := by
          rw [beq_eq_false_iff_ne]
          rintro rfl
          exact hl.1 rfl
        exact ⟨_, .goOn hs rfl (by rw [hst]; decide) hi, rfl, rfl, rfl⟩
    obtain ⟨n, u, hrun, hnil, hret', hdsp'⟩ := ih hl.2 hh (by rw [hdsp, hst])
    exact ⟨_, u, (Sys.Steps.one hstep).append hrun, hnil, hret'.trans hret, hdsp'.trans hdsp⟩

theorem exists_pushed (h : (pushSys images).init p) :
    ∃ n q, (pushSys images).Steps p n q ∧ q.host = [] := by
  obtain ⟨n, q, hrun, hf⟩ := Sys.exists_final fun n q hrun => push_le h hrun
  exact ⟨n, q, hrun, (complete_of_final h hrun hf).2.1⟩

/-- The operations that are left before the last `FINISH` of `pre` is seen. -/
theorem pushAll_left {pre post : List (List β)} (hpre : pre ≠ []) :
    .wait DSP_GETCODE_FINISH :: .control PC_PUSHCODE_RESET :: pushAll post <:+
      pushAll (pre ++ post) := by
  obtain rfl | ⟨pre, image, rfl⟩ := pre.eq_nil_or_concat'
  · exact absurd rfl hpre
  · refine ⟨pushAll pre ++ .control PC_PUSHCODE_RESET :: .wait DSP_GETCODE_RESET ::
      (copyFrom 0 image ++ [.control PC_PUSHCODE_FINISH]), ?_⟩
    simp [pushAll, pushImage, finishOps]

theorem timedFrom_left {pre post : List (List β)} (hpre : pre ≠ []) :
    .control PC_PUSHCODE_RESET :: timedFrom pre.length post <:+ timedFrom 0 (pre ++ post) := by
  obtain rfl | ⟨pre, image, rfl⟩ := pre.eq_nil_or_concat'
  · exact absurd rfl hpre
  · refine ⟨timedFrom 0 pre ++ .control PC_PUSHCODE_RESET :: .waitReset pre.length ::
      (copyOps 0 image ++ [.control PC_PUSHCODE_FINISH, .waitFinish pre.length]), ?_⟩
    simp [timedFrom_append, timedFrom, timedImage]

/-- A host that sees `FINISH` sees a DSP that waits for the next `RESET`. -/
theorem finished_of_wait {a : State β} {ops : List (PushOp β)} (hi : Inv images a)
    (hr : PushRel images p a) (hp : p.host = .wait DSP_GETCODE_FINISH :: ops)
    (hb : p.dsp.status &&& DSP_GETCODE_FINISH ≠ 0) :
    p.dsp.status = DSP_GETCODE_FINISH ∧ p.dsp.place = .waitReset := by
  have hstatus := hr.shows.status
  rw [hstatus] at hb
  have hfin := status_and_finish hb
  refine ⟨by rw [hstatus, hfin]; rfl, ?_⟩
  have hhost := hr.host
  rw [hp] at hhost
  obtain ⟨p', hstep, -⟩ := hhost.cons
  have hpl := hi.place
  generalize hpr : a.producer = pr at hstep hpl
  generalize hop : (PushOp.wait DSP_GETCODE_FINISH : PushOp β) = op at hstep
  cases hstep with
  | done n =>
    obtain ⟨-, -, ⟨-, h, -⟩ | ⟨-, h, -⟩ | ⟨-, -, hc⟩⟩ := hpl
    · rw [hfin] at h; cases h
    · rw [hfin] at h; cases h
    · rw [hr.shows.place, hc]
  | grant => exact absurd (PushOp.wait.inj hop) (by decide)
  | reset | again | send | write => cases hop

/-- The state in which the host has just seen the last `FINISH` of `pre`. -/
theorem exists_finished {pre post : List (List β)} (hpre : pre ≠ [])
    (h : (pushSys (pre ++ post)).init p) :
    ∃ n q, (pushSys (pre ++ post)).Steps p n q ∧
      q.host = .control PC_PUSHCODE_RESET :: pushAll post ∧ q.dsp.status = DSP_GETCODE_FINISH ∧
      q.dsp.place = .waitReset ∧ q.dsp.delivered = pre := by
  obtain ⟨n, q, hrun, hnil⟩ := exists_pushed h
  have hleft : .wait DSP_GETCODE_FINISH :: .control PC_PUSHCODE_RESET :: pushAll post <:+ p.host := by
    rw [h.1]
    exact pushAll_left hpre
  obtain ⟨m, u, v, hrun, hu, hst, hv⟩ := exists_taken hrun hleft (by rw [hnil]; exact Nat.zero_le _)
  have hrun' := hrun.next hst
  have hdel : v.dsp.delivered = pre := by
    obtain ⟨a, ha, hrel⟩ := pushSys_simulates.reach (hrun'.reach (.start h))
    have hhost := hrel.host
    rw [hv] at hhost
    rw [hrel.shows.delivered]
    exact List.append_cancel_right
      (delivered_of_left (inv ha) hhost (List.suffix_append ..) (.inr rfl))
  obtain ⟨a, ha, hrel⟩ := pushSys_simulates.reach (hrun.reach (.start h))
  cases hst with
  | wait hop hb =>
    rw [hu] at hop
    cases hop
    obtain ⟨hstatus, hplace⟩ := finished_of_wait (inv ha) hrel hu hb
    exact ⟨_, _, hrun', hv, hstatus, hplace, hdel⟩
  | control hop | write hop =>
    rw [hu] at hop
    cases hop
  | dsp =>
    rw [hu] at hv
    cases hv

variable [Inhabited β]

/-- A start of the push with time-outs. -/
def startTimed (images : List (List β)) : TimedState β where
  host := timedFrom 0 images
  retValue := 0
  missed := false
  pushCodeControl := 0
  zone _ := default
  dsp := ⟨.waitReset, 0, []⟩

theorem startTimed_push (images : List (List β)) :
    (pushSys images).init
      ((startTimed images).push ((startTimed images).host.map TimedOp.op)) :=
  ⟨map_timedFrom 0 images, rfl, rfl⟩

/-- The same state of the push with time-outs. -/
theorem exists_timed {pre : List (List β)} (hpre : pre ≠ []) (post : List (List β)) :
    ∃ s, (timedSys (pre ++ post)).Reach s ∧
      s.host = .control PC_PUSHCODE_RESET :: timedFrom pre.length post ∧ s.retValue = 0 ∧
      s.dsp = ⟨.waitReset, DSP_GETCODE_FINISH, pre⟩ := by
  have h0 : (timedSys (pre ++ post)).Reach (startTimed (pre ++ post)) := .start ⟨rfl, rfl, rfl, rfl, rfl⟩
  obtain ⟨n, q, hrun, hq, hstatus, hplace, hd⟩ := exists_finished hpre (startTimed_push (pre ++ post))
  obtain ⟨t, hrun', rfl, hsuf, hret⟩ := timed_of_push hrun
  refine ⟨t, hrun'.reach h0, suffix_eq_of_length hsuf (timedFrom_left hpre) ?_, hret, ?_⟩
  · have hlen := congrArg List.length hq
    rwa [TimedState.push, List.length_map, List.length_cons, ← map_timedFrom pre.length,
      List.length_map] at hlen
  · rw [← hstatus, ← hplace, ← hd]
    rfl

/-- The host can be through when only the images `pre` are read. -/
theorem through_of_append {pre : List (List β)} (hpre : pre ≠ []) (post : List (List β)) :
    ∃ s, (timedSys (pre ++ post)).Reach s ∧ s.host = [] ∧ s.retValue = 0 ∧ s.dsp.delivered = pre := by
  obtain ⟨s, hs, hhost, hret, hdsp⟩ := exists_timed hpre post
  have hmem : .waitReset 0 ∉ s.host := by
    rw [hhost, List.mem_cons, not_or]
    refine ⟨by rintro ⟨⟩, fun h => ?_⟩
    exact hpre (List.length_eq_zero_iff.mp (Nat.le_zero.mp (waitReset_mem h).1))
  obtain ⟨n, t, hrun, hnil, hret', hdsp'⟩ := through_alone hmem rfl (by rw [hdsp])
  exact ⟨t, hrun.reach hs, hnil, hret'.trans hret, by rw [hdsp', hdsp]⟩

/-- **What a time-out can do.** The host can be through, and return what the wait for the cores gives, when
only the first images are read, however many these are. So that every image is read when the host is
through holds of a push of at most one image, and of no other. -/
theorem through_iff (images : List (List β)) :
    (∀ k, ∃ s, (timedSys images).Reach s ∧ s.host = [] ∧ s.retValue = 0 ∧
      s.dsp.delivered = images.take (k + 1)) ∧
    ((∀ s, (timedSys images).Reach s → s.host = [] → s.retValue = 0 → s.dsp.delivered = images) ↔
      images.length ≤ 1) := by
  have htake : ∀ k, ∃ s, (timedSys images).Reach s ∧ s.host = [] ∧ s.retValue = 0 ∧
      s.dsp.delivered = images.take (k + 1) := by
    intro k
    by_cases hne : images = []
    · subst hne
      exact ⟨startTimed [], .start ⟨rfl, rfl, rfl, rfl, rfl⟩, rfl, rfl, rfl⟩
    · have htake : images.take (k + 1) ≠ [] := by simp [hne]
      obtain ⟨s, hs, h⟩ := through_of_append htake (images.drop (k + 1))
      rw [List.take_append_drop] at hs
      exact ⟨s, hs, h⟩
  refine ⟨htake, fun hall => ?_, fun hle s hs hnil hret => ?_⟩
  · obtain ⟨s, hs, hnil, hret, hd⟩ := htake 0
    rw [hall s hs hnil hret] at hd
    rw [hd]
    exact List.length_take_le ..
  · cases hm : s.missed with
    | false => exact all_of_patient hs hm hnil hret
    | true =>
      obtain ⟨image, next, rest, ds, rfl, -⟩ := (timedInv hs).first hm
      simp at hle

end Through

end Dspc
