import DspcDriver.Boot.FailStop
import DspcDriver.Lib.Handshake

/-!
# The push of the images

The host's side of the code push is a list of operations, those of `bootLoader` for any list of
images (`pushAll`, `pushCode_ops`); a wait is one operation that can be done when the polled register
has the bit. The DSP is the consumer of the two-register handshake, with its register codes.

The host stores `RESET` twice between two images. The first store starts the next round; the second
finds the level already there, and the simulation matches it with no step (`pushSys_simulates`).
-/

namespace Dspc

open Lib Handshake

/-- An operation of the host; `write i b` stores word `i` of the image zone. -/
inductive PushOp (β : Type) where
  | control (value : Word)
  | wait (pollVal : Word)
  | write (i : Nat) (b : β)

variable {β : Type}

/-- The stores of `memcpy` from word `k` on. -/
def copyFrom (k : Nat) : List β → List (PushOp β)
  | [] => []
  | b :: bs => .write k b :: copyFrom (k + 1) bs

/-- From the `FINISH` of an image to the `RESET` behind it. -/
def finishOps : List (PushOp β) :=
  [.control PC_PUSHCODE_FINISH, .wait DSP_GETCODE_FINISH, .control PC_PUSHCODE_RESET]

def pushImage (image : List β) : List (PushOp β) :=
  .control PC_PUSHCODE_RESET :: .wait DSP_GETCODE_RESET :: (copyFrom 0 image ++ finishOps)

/-- The operations for a list of images. -/
def pushAll (images : List (List β)) : List (PushOp β) := images.flatMap pushImage

/-- The codes of `pushCodeControl` and `pushCodeStatus`; both registers start at zero. -/
def controlCodes : Codes Word where
  code
    | .idle => 0
    | .reset => PC_PUSHCODE_RESET
    | .finish => PC_PUSHCODE_FINISH
  inj := by intro l l'; cases l <;> cases l' <;> decide

def statusCodes : Codes Word where
  code
    | .idle => 0
    | .reset => DSP_GETCODE_RESET
    | .finish => DSP_GETCODE_FINISH
  inj := by intro l l'; cases l <;> cases l' <;> decide

/-- The state of a push; the DSP's status register is `pushCodeStatus`. -/
structure PushState (β : Type) where
  host : List (PushOp β)
  pushCodeControl : Word
  zone : Nat → β
  dsp : ConsumerState Word β

section System

variable (images : List (List β))

inductive PushStep : PushState β → PushState β → Prop
  | control {s : PushState β} {v : Word} {ops : List (PushOp β)} : s.host = .control v :: ops →
      PushStep s { s with host := ops, pushCodeControl := v }
  | wait {s : PushState β} {pollVal : Word} {ops : List (PushOp β)} :
      s.host = .wait pollVal :: ops → s.dsp.status &&& pollVal ≠ 0 →
      PushStep s { s with host := ops }
  | write {s : PushState β} {i : Nat} {b : β} {ops : List (PushOp β)} :
      s.host = .write i b :: ops →
      PushStep s { s with host := ops, zone := Function.update s.zone i b }
  | dsp {s : PushState β} {y : ConsumerState Word β} :
      ConsumerStep controlCodes statusCodes images s.pushCodeControl s.zone s.dsp y →
      PushStep s { s with dsp := y }

/-- The push of `images` against the DSP, from any contents of the zone. -/
def pushSys : Sys (PushState β) where
  init s := s.host = pushAll images ∧ s.pushCodeControl = 0 ∧ s.dsp = ⟨.waitReset, 0, []⟩
  step := PushStep images

/-- The operations that are left at each place of the producer. -/
def HostAt (host : List (PushOp β)) : Producer → Prop
  | .start n => n ≤ images.length ∧
      ((n = 0 ∧ host = pushAll (images.drop n)) ∨
        host = .control PC_PUSHCODE_RESET :: pushAll (images.drop n))
  | .await n => n ≤ images.length ∧ (host = pushAll (images.drop n) ∨
      ∃ image, images[n]? = some image ∧
        host = .wait DSP_GETCODE_RESET :: (copyFrom 0 image ++ finishOps) ++ pushAll (images.drop (n + 1)))
  | .fill n k => ∃ image, images[n]? = some image ∧ k ≤ image.length ∧
      host = copyFrom k (image.drop k) ++ finishOps ++ pushAll (images.drop (n + 1))
  | .sent n => ∃ image, images[n]? = some image ∧
      host = .wait DSP_GETCODE_FINISH :: .control PC_PUSHCODE_RESET :: pushAll (images.drop (n + 1))

/-- What each operation is for the producer; `again` is the second of two `RESET` stores. -/
inductive HostStep : PushOp β → Producer → Producer → Prop
  | reset (n : Nat) : HostStep (.control PC_PUSHCODE_RESET) (.start n) (.await n)
  | again (n : Nat) : HostStep (.control PC_PUSHCODE_RESET) (.await n) (.await n)
  | grant {n : Nat} : n < images.length → HostStep (.wait DSP_GETCODE_RESET) (.await n) (.fill n 0)
  | write {n k : Nat} {b : β} : (msg images n)[k]? = some b →
      HostStep (.write k b) (.fill n k) (.fill n (k + 1))
  | send (n : Nat) :
      HostStep (.control PC_PUSHCODE_FINISH) (.fill n (msg images n).length) (.sent n)
  | done (n : Nat) : HostStep (.wait DSP_GETCODE_FINISH) (.sent n) (.start (n + 1))

/-- The push `s` is at the state `a` of the handshake. -/
structure PushRel (s : PushState β) (a : State β) : Prop where
  host : HostAt images s.host a.producer
  shows : Shows controlCodes statusCodes s.pushCodeControl s.zone s.dsp a

end System

variable {images : List (List β)}

theorem pushAll_drop {n : Nat} {image : List β} (h : images[n]? = some image) :
    pushAll (images.drop n) = pushImage image ++ pushAll (images.drop (n + 1)) := by
  obtain ⟨hlt, rfl⟩ := List.getElem?_eq_some_iff.mp h
  rw [List.drop_eq_getElem_cons hlt, pushAll, List.flatMap_cons]
  rfl

/-- The first operation of the images from `n` on. -/
theorem pushAll_drop_cons {n : Nat} {op : PushOp β} {ops : List (PushOp β)}
    (h : pushAll (images.drop n) = op :: ops) :
    ∃ image, images[n]? = some image ∧ op = .control PC_PUSHCODE_RESET ∧
      ops = .wait DSP_GETCODE_RESET :: (copyFrom 0 image ++ finishOps) ++
        pushAll (images.drop (n + 1)) := by
  cases hn : images[n]? with
  | none =>
    rw [List.drop_eq_nil_of_le (List.getElem?_eq_none_iff.mp hn)] at h
    cases h
  | some image =>
    rw [pushAll_drop hn] at h
    cases h
    exact ⟨image, rfl, rfl, rfl⟩

theorem copyFrom_drop {image : List β} {k : Nat} {b : β} (h : image[k]? = some b) :
    copyFrom k (image.drop k) = .write k b :: copyFrom (k + 1) (image.drop (k + 1)) := by
  obtain ⟨hlt, rfl⟩ := List.getElem?_eq_some_iff.mp h
  rw [List.drop_eq_getElem_cons hlt, copyFrom]

theorem msg_eq {n : Nat} {image : List β} (h : images[n]? = some image) : msg images n = image := by
  rw [msg, List.getD_eq_getElem?_getD, h, Option.getD_some]

/-- The bit tests of the polls tell the levels apart. -/
theorem status_and_reset {l : Level} (h : statusCodes.code l &&& DSP_GETCODE_RESET ≠ 0) :
    l = .reset := by
  cases l
  · exact absurd (by decide) h
  · rfl
  · exact absurd (by decide) h

theorem status_and_finish {l : Level} (h : statusCodes.code l &&& DSP_GETCODE_FINISH ≠ 0) :
    l = .finish := by
  cases l
  · exact absurd (by decide) h
  · exact absurd (by decide) h
  · rfl

/-- **The next operation of the host**, at each place of the producer. -/
theorem HostAt.cons {op : PushOp β} {ops : List (PushOp β)} {p : Producer}
    (h : HostAt images (op :: ops) p) : ∃ p', HostStep images op p p' ∧ HostAt images ops p' := by
  cases p with
  | start n =>
    obtain ⟨hn, ⟨rfl, h⟩ | h⟩ := h
    · obtain ⟨image, himg, rfl, hops⟩ := pushAll_drop_cons h.symm
      exact ⟨_, .reset 0, hn, .inr ⟨image, himg, hops⟩⟩
    · cases h
      exact ⟨_, .reset n, hn, .inl rfl⟩
  | await n =>
    obtain ⟨hn, h | ⟨image, himg, h⟩⟩ := h
    · obtain ⟨image, himg, rfl, hops⟩ := pushAll_drop_cons h.symm
      exact ⟨_, .again n, hn, .inr ⟨image, himg, hops⟩⟩
    · cases h
      exact ⟨_, .grant (List.getElem?_eq_some_iff.mp himg).1, image, himg, Nat.zero_le _, rfl⟩
  | fill n k =>
    obtain ⟨image, himg, hk, h⟩ := h
    rcases Nat.lt_or_eq_of_le hk with hk | rfl
    · rw [copyFrom_drop (List.getElem?_eq_getElem hk)] at h
      cases h
      refine ⟨_, .write ?_, image, himg, hk, rfl⟩
      rw [msg_eq himg, List.getElem?_eq_getElem hk]
    · rw [List.drop_length] at h
      cases h
      obtain rfl := msg_eq himg
      exact ⟨_, .send n, _, himg, rfl⟩
  | sent n =>
    obtain ⟨image, himg, h⟩ := h
    cases h
    exact ⟨_, .done n, (List.getElem?_eq_some_iff.mp himg).1, .inr rfl⟩

/-! ## The simulation -/

theorem sim_control {s : PushState β} {a : State β} {v : Word} {ops : List (PushOp β)}
    (hi : Inv images a) (hr : PushRel images s a) (h : s.host = .control v :: ops) :
    ∃ b, (b = a ∨ Handshake.Step images a b) ∧
      PushRel images { s with host := ops, pushCodeControl := v } b := by
  obtain ⟨hh, hc, hz, hp, hst, hd⟩ := hr
  rw [h] at hh
  obtain ⟨p', hstep, hops⟩ := hh.cons
  generalize hpr : a.producer = p at hstep
  cases hstep with
  | reset n => exact ⟨_, .inr (.reset hpr), hops, rfl, hz, hp, hst, hd⟩
  | again n =>
    have hpl := hi.place
    rw [hpr] at hpl
    exact ⟨a, .inl rfl, by rw [hpr]; exact hops, by rw [hpl.2.1]; rfl, hz, hp, hst, hd⟩
  | send n => exact ⟨_, .inr (.send hpr), hops, rfl, hz, hp, hst, hd⟩

theorem sim_wait {s : PushState β} {a : State β} {pollVal : Word} {ops : List (PushOp β)}
    (hr : PushRel images s a) (h : s.host = .wait pollVal :: ops)
    (hb : s.dsp.status &&& pollVal ≠ 0) :
    ∃ b, Handshake.Step images a b ∧ PushRel images { s with host := ops } b := by
  obtain ⟨hh, hc, hz, hp, hst, hd⟩ := hr
  rw [h] at hh
  rw [hst] at hb
  obtain ⟨p', hstep, hops⟩ := hh.cons
  generalize hpr : a.producer = p at hstep
  cases hstep with
  | grant hlt => exact ⟨_, .grant hpr hlt (status_and_reset hb), hops, hc, hz, hp, hst, hd⟩
  | done n => exact ⟨_, .done hpr (status_and_finish hb), hops, hc, hz, hp, hst, hd⟩

theorem sim_write {s : PushState β} {a : State β} {i : Nat} {w : β} {ops : List (PushOp β)}
    (hr : PushRel images s a) (h : s.host = .write i w :: ops) :
    ∃ b, Handshake.Step images a b ∧
      PushRel images { s with host := ops, zone := Function.update s.zone i w } b := by
  obtain ⟨hh, hc, hz, hp, hst, hd⟩ := hr
  rw [h] at hh
  obtain ⟨p', hstep, hops⟩ := hh.cons
  generalize hpr : a.producer = p at hstep
  cases hstep with
  | write hw => exact ⟨_, .write hpr hw, hops, hc, by rw [hz], hp, hst, hd⟩

/-- **The push is simulated by the handshake.** -/
theorem pushSys_simulates : Sys.Simulates (pushSys images) (Handshake.sys images) (PushRel images) where
  start s h := by
    obtain ⟨hh, hc, hd⟩ := h
    refine ⟨⟨.start 0, .waitReset, .idle, .idle, s.zone, []⟩, ⟨rfl, rfl, rfl, rfl, rfl⟩,
      ⟨Nat.zero_le _, .inl ⟨rfl, hh⟩⟩, hc, rfl, ?_, ?_, ?_⟩ <;> rw [hd]
    rfl
  step s t a ha hr hst := by
    cases hst with
    | control h => exact sim_control (inv ha) hr h
    | wait h hb =>
      obtain ⟨b, hstep, hr'⟩ := sim_wait hr h hb
      exact ⟨b, .inr hstep, hr'⟩
    | write h =>
      obtain ⟨b, hstep, hr'⟩ := sim_write hr h
      exact ⟨b, .inr hstep, hr'⟩
    | dsp h =>
      obtain ⟨b, hb, hp, hs⟩ := h.sim hr.shows
      refine ⟨b, .inr hb, ?_, hs⟩
      rw [hp]
      exact hr.host

/-! ## What the push delivers -/

theorem pushAll_inj {xs ys : List (List β)} (h : xs <:+ ys) (he : pushAll xs = pushAll ys) :
    xs = ys := by
  obtain ⟨zs, rfl⟩ := h
  rw [pushAll, pushAll, List.flatMap_append, List.self_eq_append_left, List.flatMap_eq_nil_iff] at he
  cases zs with
  | nil => rfl
  | cons z zs => cases he z List.mem_cons_self

theorem pushAll_cons {post : List (List β)} {op : PushOp β} {ops : List (PushOp β)}
    (h : pushAll post = op :: ops) :
    op = .control PC_PUSHCODE_RESET ∧ ∃ ops', ops = .wait DSP_GETCODE_RESET :: ops' := by
  rw [← List.drop_zero (l := post)] at h
  obtain ⟨image, -, hop, hops⟩ := pushAll_drop_cons h
  exact ⟨hop, _, hops⟩

/-- The producer between two images. -/
theorem HostAt.between {p : Producer} {post : List (List β)} (h : HostAt images (pushAll post) p)
    (hpost : post <:+ images) : ∃ n, (p = .start n ∨ p = .await n) ∧ images.drop n = post := by
  have hdrop : ∀ n, pushAll post = pushAll (images.drop n) → images.drop n = post := by
    intro n he
    rcases List.suffix_or_suffix_of_suffix hpost (List.drop_suffix n images) with hs | hs
    · exact (pushAll_inj hs he).symm
    · exact pushAll_inj hs he.symm
  cases p with
  | start n =>
    obtain ⟨-, ⟨-, h⟩ | h⟩ := h
    · exact ⟨n, .inl rfl, hdrop n h⟩
    · obtain ⟨-, ops, hops⟩ := pushAll_cons h
      obtain ⟨hw, -⟩ := pushAll_cons hops
      cases hw
  | await n =>
    obtain ⟨-, h | ⟨image, -, h⟩⟩ := h
    · exact ⟨n, .inr rfl, hdrop n h⟩
    · obtain ⟨hw, -⟩ := pushAll_cons h
      cases hw
  | fill n k =>
    obtain ⟨image, -, hk, h⟩ := h
    rcases Nat.lt_or_eq_of_le hk with hk | rfl
    · rw [copyFrom_drop (List.getElem?_eq_getElem hk)] at h
      obtain ⟨hw, -⟩ := pushAll_cons h
      cases hw
    · rw [List.drop_length] at h
      obtain ⟨hw, -⟩ := pushAll_cons h
      cases hw
  | sent n =>
    obtain ⟨image, -, h⟩ := h
    obtain ⟨hw, -⟩ := pushAll_cons h
    cases hw

/-- The producer where the images `post` are left and the last one is acknowledged. -/
theorem HostAt.acked {p : Producer} {post : List (List β)} {host : List (PushOp β)}
    (h : HostAt images host p) (hpost : post <:+ images)
    (he : host = pushAll post ∨ host = .control PC_PUSHCODE_RESET :: pushAll post) :
    ∃ n, (p = .start n ∨ p = .await n) ∧ images.drop n = post := by
  rcases he with rfl | rfl
  · exact h.between hpost
  · obtain ⟨p', hstep, hops⟩ := h.cons
    obtain ⟨n, hn, hd⟩ := hops.between hpost
    cases hstep with
    | reset m =>
      obtain rfl : m = n := by simpa using hn
      exact ⟨m, .inl rfl, hd⟩
    | again m =>
      obtain rfl : m = n := by simpa using hn
      exact ⟨m, .inr rfl, hd⟩

/-- While the host has an operation left, it or the DSP can go on. -/
theorem PushRel.progress {s : PushState β} {a : State β} (hi : Inv images a)
    (hr : PushRel images s a) (hne : s.host ≠ []) : ∃ t, PushStep images s t := by
  obtain ⟨op, ops, hop⟩ := List.exists_cons_of_ne_nil hne
  have hh := hr.host
  rw [hop] at hh
  obtain ⟨p', hstep, -⟩ := hh.cons
  generalize hpr : a.producer = p at hstep
  cases hstep with
  | reset | again | send => exact ⟨_, .control hop⟩
  | write => exact ⟨_, .write hop⟩
  | grant =>
    rcases hi.consumer_reset hr.shows hpr with hst | ⟨y, hy⟩
    · exact ⟨_, .wait hop (by rw [hst]; decide)⟩
    · exact ⟨_, .dsp hy⟩
  | done =>
    rcases hi.consumer_finish hr.shows hpr with hst | ⟨y, hy⟩
    · exact ⟨_, .wait hop (by rw [hst]; decide)⟩
    · exact ⟨_, .dsp hy⟩

/-- **The code push delivers every image exactly once**, over every interleaving: the host does not
write the zone while the DSP reads it; what the DSP has read is a prefix of the images, and a read in
progress is a prefix of the next one; when the host has seen an acknowledgement and has the images
`post` left to push, exactly the others were read; and no state is stuck before the host is
through. -/
theorem pushCode_exactly_once {s : PushState β} (h : (pushSys images).Reach s) :
    (∀ i b ops, s.host = .write i b :: ops → ∀ ws, s.dsp.place ≠ .reading ws) ∧
    s.dsp.delivered <+: images ∧
    (∀ ws, s.dsp.place = .reading ws →
      ∃ image, images[s.dsp.delivered.length]? = some image ∧ ws <+: image) ∧
    (∀ post, post <:+ images →
      s.host = pushAll post ∨ s.host = .control PC_PUSHCODE_RESET :: pushAll post →
        s.dsp.delivered ++ post = images) ∧
    (s.host ≠ [] → ∃ t, PushStep images s t) := by
  obtain ⟨a, ha, hr⟩ := pushSys_simulates.reach h
  have hi := inv ha
  have hd := hr.shows.delivered
  have hp := hr.shows.place
  refine ⟨fun i b ops hop ws => ?_, hd ▸ hi.delivered, fun ws hws => ?_, fun post hpost hops => ?_,
    hr.progress hi⟩
  · have hh := hr.host
    rw [hop] at hh
    obtain ⟨p', hstep, -⟩ := hh.cons
    generalize hpr : a.producer = p at hstep
    cases hstep with
    | write => rw [hp]; exact hi.exclusive hpr ws
  · rw [hd]
    exact hi.reading (hp ▸ hws)
  · obtain ⟨n, hn, rfl⟩ := hr.host.acked hpost hops
    rw [hd, hi.acked (hn.imp_right .inl), List.take_append_drop]

def twoImages : List (List Nat) := [[7, 8], [9, 10]]

/-- Before the first step. -/
def startPush : PushState Nat where
  host := pushAll twoImages
  pushCodeControl := 0
  zone _ := 0
  dsp := ⟨.waitReset, 0, []⟩

/-- The first of two images is delivered, and of the second one word is read. -/
def secondPush : PushState Nat where
  host := [.wait DSP_GETCODE_FINISH, .control PC_PUSHCODE_RESET]
  pushCodeControl := PC_PUSHCODE_FINISH
  zone := Stores.run [(0, 7), (1, 8), (0, 9), (1, 10)] fun _ => 0
  dsp := ⟨.reading [9], DSP_GETCODE_RESET, [[7, 8]]⟩

theorem secondPush_steps : (pushSys twoImages).Steps startPush 23 secondPush := by
  have h0 : (pushSys twoImages).Steps startPush 0 startPush := .start
  have h1 := h0.next (.control rfl)
  have h2 := h1.next (.dsp (.seeReset rfl rfl))
  have h3 := h2.next (.dsp (.ackReset rfl))
  have h4 := h3.next (.wait rfl (by decide))
  have h5 := h4.next (.write rfl)
  have h6 := h5.next (.write rfl)
  have h7 := h6.next (.control rfl)
  have h8 := h7.next (.dsp (.seeFinish rfl rfl))
  have h9 := h8.next (.dsp (.read rfl (by decide)))
  have h10 := h9.next (.dsp (.read rfl (by decide)))
  have h11 := h10.next (.dsp (.deliver rfl rfl))
  have h12 := h11.next (.dsp (.ackFinish rfl))
  have h13 := h12.next (.wait rfl (by decide))
  -- the second image; the DSP sees the first of the two `RESET` stores
  have h14 := h13.next (.control rfl)
  have h15 := h14.next (.dsp (.seeReset rfl rfl))
  have h16 := h15.next (.control rfl)
  have h17 := h16.next (.dsp (.ackReset rfl))
  have h18 := h17.next (.wait rfl (by decide))
  have h19 := h18.next (.write rfl)
  have h20 := h19.next (.write rfl)
  have h21 := h20.next (.control rfl)
  have h22 := h21.next (.dsp (.seeFinish rfl rfl))
  have h23 := h22.next (.dsp (.read rfl (by decide)))
  exact h23

theorem secondPush_reach : (pushSys twoImages).Reach secondPush :=
  secondPush_steps.reach (.start ⟨rfl, rfl, rfl⟩)

theorem pushCode_exactly_once_second :
    (∀ i b ops, secondPush.host = .write i b :: ops → ∀ ws, secondPush.dsp.place ≠ .reading ws) ∧
    secondPush.dsp.delivered <+: twoImages ∧
    (∀ ws, secondPush.dsp.place = .reading ws →
      ∃ image, twoImages[secondPush.dsp.delivered.length]? = some image ∧ ws <+: image) ∧
    (∀ post, post <:+ twoImages →
      secondPush.host = pushAll post ∨ secondPush.host = .control PC_PUSHCODE_RESET :: pushAll post →
        secondPush.dsp.delivered ++ post = twoImages) ∧
    (secondPush.host ≠ [] → ∃ t, PushStep twoImages secondPush t) :=
  pushCode_exactly_once secondPush_reach

/-! ## The operations of `bootLoader` -/

/-- The operations of an event of the boot; `behind` is the memory behind the source of a copy. -/
def BootEvent.ops (behind : List Byte) : BootEvent → List (PushOp Byte)
  | .pushCodeControl value => [.control value]
  | .polled (.codeReset _) _ => [.wait DSP_GETCODE_RESET]
  | .polled (.codeFinish _) _ => [.wait DSP_GETCODE_FINISH]
  | .memcpy _ src length => copyFrom 0 ((src ++ behind).take length)
  | _ => []

/-- **`bootLoader` pushes its three images this way** when no wait of the push times out. The first
copy is rounded up to whole words and takes up to three bytes behind the image. -/
theorem pushCode_ops (env : BootEnv) (z : Word) (behind : List Byte)
    (hr : env.retPollVal (.codeReset 0) = 0) (hf : ∀ i, env.retPollVal (.codeFinish i) = 0) :
    (pushCode env z).events.flatMap (BootEvent.ops behind) =
      pushAll [(env.app4Core0 ++ behind).take ((env.app4Core0.length + 3) / 4 * 4), env.DPUCore1,
        env.DPUCore2] := by
  have hlast : (waitCores env (.ok 0)).events.flatMap (BootEvent.ops behind) = [] := by
    rw [waitCores, if_pos rfl, poll_eq, Trace.mk_ok_bind]
    split <;> rfl
  simp only [pushCode, poll_eq, Trace.emit, Trace.mk_ok_bind, hr, hf, if_true, pushCores,
    pushCore_ok (hf 1), pushCore_ok (hf 2), Trace.pure_def, List.flatMap_append, hlast]
  simp [BootEvent.ops, pushAll, pushImage, finishOps]

end Dspc
