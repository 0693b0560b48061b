import DspcDriver.Boot.Timeout

/-!
# An image that is overwritten while it is read

Behind a wait for `RESET` that has timed out the DSP may answer late: it reads an image that the host
takes for read, and the host stores the next one over it. This needs a third image that is not empty, and
with one it can happen (`overwrites_iff`); of the first two images none is overwritten before it is
read, because the host has seen the `FINISH` of the first.
-/

namespace Dspc

open Lib Handshake

variable {β : Type}

/-! ## The lists of operations -/

section Ops

variable {n : Nat} {op : TimedOp β}

/-- The operations behind the copy of an image. -/
def behindImage (coreIndex : Nat) (images : List (List β)) : List (TimedOp β) :=
  .control PC_PUSHCODE_FINISH :: .waitFinish coreIndex :: .control PC_PUSHCODE_RESET ::
    timedFrom (coreIndex + 1) images

theorem timedFrom_cons (n : Nat) (image : List β) (images : List (List β)) :
    timedFrom n (image :: images) = .control PC_PUSHCODE_RESET :: .waitReset n ::
      (copyOps 0 image ++ behindImage n images) := by
  simp [timedFrom, timedImage, behindImage]

theorem eq_write_of_mem {k : Nat} {bs : List β} (h : op ∈ copyOps k bs) : ∃ i b, op = .write i b := by
  induction bs generalizing k with
  | nil => cases h
  | cons b bs ih =>
    rw [copyOps, List.mem_cons] at h
    rcases h with rfl | h
    · exact ⟨k, b, rfl⟩
    · exact ih h

/-- Without words nothing is written. -/
theorem write_not_mem {i : Nat} {b : β} {images : List (List β)} (h : ∀ image ∈ images, image = []) :
    .write i b ∉ timedFrom n images := by
  induction images generalizing n with
  | nil => exact List.not_mem_nil
  | cons image images ih =>
    rw [List.forall_mem_cons] at h
    obtain ⟨rfl, h⟩ := h
    simp [timedFrom_cons, copyOps, behindImage, ih h]

theorem suffix_of_append {α : Type} {l l₁ l₂ : List α} (h : l₁ ++ l <:+ l₂ ++ l) : l₁ <:+ l₂ := by
  obtain ⟨y, hy⟩ := h
  rw [← List.append_assoc] at hy
  exact ⟨y, List.append_cancel_right hy⟩

/-- An end of two lists is one of the second, or it has some of the first. -/
theorem suffix_append_cases {α : Type} {l l₁ l₂ : List α} (h : l <:+ l₁ ++ l₂) :
    l <:+ l₂ ∨ ∃ x, x ≠ [] ∧ x <:+ l₁ ∧ l = x ++ l₂ := by
  rcases List.suffix_or_suffix_of_suffix h (List.suffix_append l₁ l₂) with hs | ⟨x, rfl⟩
  · exact .inl hs
  · by_cases hx : x = []
    · subst hx
      exact .inl (List.suffix_refl _)
    · exact .inr ⟨x, hx, suffix_of_append h, rfl⟩

end Ops

/-! ## The first two images -/

section Ahead

variable {image₀ image₁ : List β} {rest : List (List β)} {s t : TimedState β}

/-- The DSP does not read yet. -/
def Quiet (s : TimedState β) : Prop :=
  s.pushCodeControl = PC_PUSHCODE_RESET ∧
    (s.dsp.place = .waitReset ∨ s.dsp.place = .ackReset ∨ s.dsp.place = .waitFinish)

/-- Behind the first wait that is not tested: as long as the host copies the second image, the DSP does
not read. -/
structure Ahead (image₁ : List β) (rest : List (List β)) (s : TimedState β) : Prop where
  left : s.host <:+ copyOps 0 image₁ ++ behindImage 1 rest
  quiet : ∀ x, x <:+ copyOps 0 image₁ → s.host = x ++ behindImage 1 rest → Quiet s

/-- What is left behind a wait that is not tested. -/
theorem left_of_untested {i : Nat} {ops : List (TimedOp β)}
    (h : .waitReset (i + 1) :: ops <:+ timedFrom 0 (image₀ :: image₁ :: rest)) :
    ops <:+ copyOps 0 image₁ ++ behindImage 1 rest := by
  rcases suffix_append_cases h with h | ⟨x, hne, hx, h⟩
  · rw [timedFrom_cons, List.suffix_cons_iff, List.suffix_cons_iff] at h
    rcases h with h | h | h
    · cases h
    · cases h
      exact List.suffix_refl _
    · exact tail_suffix h
  · -- the first image has another wait
    obtain ⟨op, x, rfl⟩ := List.exists_cons_of_ne_nil hne
    cases h
    have hmem : .waitReset (i + 1) ∈ timedFrom 0 [image₀] :=
      List.mem_append_left _ (hx.subset List.mem_cons_self)
    have := (waitReset_mem hmem).2
    rw [List.length_singleton] at this
    omega

/-- A step that takes an operation that is no store. -/
theorem Ahead.take {op : TimedOp β} {ops : List (TimedOp β)} (ha : Ahead image₁ rest s)
    (hop : s.host = op :: ops) (ht : t.host = ops) (hw : ∀ i b, op ≠ .write i b) :
    Ahead image₁ rest t := by
  have hleft := ha.left
  rw [hop] at hleft
  refine ⟨ht ▸ tail_suffix hleft, fun x hx hx' => ?_⟩
  rw [← ht, hx', ← List.cons_append] at hleft
  -- the operation is one of the copy
  have hmem : op ∈ copyOps 0 image₁ := (suffix_of_append hleft).subset List.mem_cons_self
  obtain ⟨i, b, rfl⟩ := eq_write_of_mem hmem
  exact absurd rfl (hw i b)

theorem Quiet.dsp {images : List (List β)} {y : ConsumerState Word β} (h : Quiet s)
    (hst : ConsumerStep controlCodes statusCodes images s.pushCodeControl s.zone s.dsp y) :
    Quiet { s with dsp := y } := by
  obtain ⟨hc, hp⟩ := h
  refine ⟨hc, ?_⟩
  cases hst with
  | seeReset => exact .inr (.inl rfl)
  | ackReset => exact .inr (.inr rfl)
  | seeFinish _ hf =>
    rw [hc] at hf
    exact absurd hf (by decide)
  | read h | deliver h | ackFinish h =>
    rw [h] at hp
    rcases hp with hp | hp | hp <;> cases hp

/-- Where the host takes the first wait that is not tested, the DSP does not read. -/
theorem quiet_of_patient {images : List (List β)} {i : Nat} {ops : List (TimedOp β)}
    (h : (timedSys images).Reach s) (hm : s.missed = false)
    (hop : s.host = .waitReset i :: ops) : Quiet s := by
  obtain ⟨host, hreach, hh⟩ := (timedInv h).patient hm
  obtain ⟨a, ha, hrel⟩ := pushSys_simulates.reach hreach
  have hhost : HostAt images host a.producer := hrel.host
  rw [← hh ((timedInv h).ret_zero hop), hop] at hhost
  obtain ⟨n, hp⟩ := await_of_wait hhost
  have hpl := (inv ha).place
  rw [hp] at hpl
  obtain ⟨-, hctl, hbefore⟩ := hpl
  have hc : s.pushCodeControl = _ := hrel.shows.control
  have hd : s.dsp.place = a.consumer := hrel.shows.place
  refine ⟨by rw [hc, hctl]; rfl, ?_⟩
  rw [hd]
  exact hbefore.imp And.left (Or.imp And.left And.left)

/-- **The copy of the second image is not disturbed.** -/
theorem ahead (h : (timedSys (image₀ :: image₁ :: rest)).Reach s) :
    s.missed = true → Ahead image₁ rest s := by
  induction h with
  | start h =>
    intro hm
    rw [h.2.2.1] at hm
    cases hm
  | @next s t hs hst ih =>
    intro hm
    cases hst with
    | control hop => exact (ih hm).take hop rfl fun i b => by rintro ⟨⟩
    | wait hop hw =>
      exact (ih hm).take hop rfl fun i b => by
        rintro rfl
        cases hw
    | @write i b ops hop =>
      have ha := ih hm
      have hleft := ha.left
      rw [hop] at hleft
      refine ⟨tail_suffix hleft, fun x hx hx' => ?_⟩
      obtain rfl : ops = x ++ behindImage 1 rest := hx'
      exact ha.quiet (.write i b :: x) (suffix_of_append hleft) hop
    | giveUp => exact ⟨List.nil_suffix, fun x hx hx' => absurd hx' (by simp [behindImage])⟩
    | goOn hop _ _ hu =>
      obtain ⟨i, rfl⟩ := eq_waitReset_of_untested hu
      cases hsm : s.missed with
      | true => exact (ih hsm).take hop rfl fun i b => by rintro ⟨⟩
      | false =>
        have hsuf := (timedInv hs).suffix
        rw [hop] at hsuf
        have hquiet : Quiet s := quiet_of_patient hs hsm hop
        exact ⟨left_of_untested hsuf, fun _ _ _ => hquiet⟩
    | dsp h => exact ⟨(ih hm).left, fun x hx hx' => ((ih hm).quiet x hx hx').dsp h⟩

end Ahead

/-! ## The third image -/

section Overwrites

variable {images : List (List β)} {s : TimedState β}

theorem copy_alone {k : Nat} {bs : List β} {ops : List (TimedOp β)} (hs : (timedSys images).Reach s)
    (hop : s.host = copyOps k bs ++ ops) :
    ∃ zone, (timedSys images).Reach { s with host := ops, zone := zone } := by
  induction bs generalizing s k with
  | nil =>
    have heq : { s with host := ops } = s := by rw [show ops = s.host from hop.symm]
    exact ⟨s.zone, heq ▸ hs⟩
  | cons b bs ih =>
    obtain ⟨zone, h⟩ := ih (hs.next (.write hop)) rfl
    exact ⟨zone, h⟩

/-- A late answer: the host stores an image while the DSP reads. -/
theorem exists_overwrite {pre : List (List β)} [Inhabited β] (hpre : pre ≠ []) (image : List β) (b : β)
    (bs : List β) (post : List (List β)) :
    ∃ s ops, (timedSys (pre ++ image :: (b :: bs) :: post)).Reach s ∧
      s.host = .write 0 b :: ops ∧ s.dsp.place = .reading [] := by
  obtain ⟨s, h0, hhost, -, hdsp⟩ := exists_timed hpre (image :: (b :: bs) :: post)
  have huntested : (TimedOp.waitReset pre.length : TimedOp β).tested = false := by
    simpa [TimedOp.tested] using hpre
  have hmiss : DSP_GETCODE_FINISH &&& DSP_GETCODE_RESET = 0 := by decide
  have hold : DSP_GETCODE_FINISH &&& DSP_GETCODE_FINISH ≠ 0 := by decide
  have hlate : DSP_GETCODE_RESET &&& DSP_GETCODE_RESET ≠ 0 := by decide
  rcases s with ⟨host, ret, missed, control, zone, dsp⟩
  rw [timedFrom_cons] at hhost
  cases hhost
  cases hdsp
  -- the DSP sees `RESET`, and the wait times out before it has answered
  have h1 := (h0.next (.control rfl)).next (.control rfl)
  have h2 := h1.next (.dsp (.seeReset rfl rfl))
  have h3 := h2.next (.goOn rfl rfl hmiss huntested)
  obtain ⟨zone, h4⟩ := copy_alone h3 rfl
  -- the host takes the old `FINISH`, and then the DSP answers
  have h5 := (h4.next (.control rfl)).next (.wait rfl rfl hold)
  have h6 := (h5.next (.dsp (.ackReset rfl))).next (.dsp (.seeFinish rfl rfl))
  have h7 := (h6.next (.control rfl)).next (.control (timedFrom_cons ..))
  exact ⟨_, copyOps 1 bs ++ behindImage (pre.length + 1) post, h7.next (.wait rfl rfl hlate), rfl, rfl⟩

/-- **When an image can be overwritten while it is read**: exactly if there is a third image, or one behind
it, that has a word. Of two images none ever is, whatever waits time out. -/
theorem overwrites_iff [Inhabited β] (images : List (List β)) :
    (∃ s i b ops ws, (timedSys images).Reach s ∧ s.host = .write i b :: ops ∧
      s.dsp.place = .reading ws) ↔ ∃ image ∈ images.drop 2, image ≠ [] := by
  constructor
  · rintro ⟨s, i, b, ops, ws, hs, hop, hp⟩
    cases hm : s.missed with
    | false => exact absurd hp (exclusive_of_patient hs hm hop ws)
    | true =>
      obtain ⟨image₀, image₁, rest, ds, rfl, -⟩ := (timedInv hs).first hm
      have ha := ahead hs hm
      by_contra hall
      have hrest : ∀ image ∈ rest, image = [] := by simpa using hall
      have hleft := ha.left
      rw [hop] at hleft
      rcases suffix_append_cases hleft with h | ⟨x, -, hx, h⟩
      · have hmem := h.subset List.mem_cons_self
        simp [behindImage, write_not_mem hrest] at hmem
      · obtain ⟨-, hq | hq | hq⟩ := ha.quiet x hx (hop.trans h) <;> rw [hp] at hq <;> cases hq
  · rintro ⟨image, himg, hne⟩
    obtain ⟨b, bs, rfl⟩ := List.exists_cons_of_ne_nil hne
    obtain ⟨mid, post, hdrop⟩ := List.append_of_mem himg
    match images, himg, hdrop with
    | image₀ :: image₁ :: rest, _, h =>
      obtain rfl : rest = mid ++ (b :: bs) :: post := h
      obtain ⟨pre, image, hpre⟩ : ∃ pre image, image₁ :: mid = pre ++ [image] :=
        (image₁ :: mid).eq_nil_or_concat'.resolve_left (List.cons_ne_nil _ _)
      have heq : image₀ :: image₁ :: (mid ++ (b :: bs) :: post) =
          (image₀ :: pre) ++ image :: (b :: bs) :: post := by
        rw [← List.cons_append, hpre]
        simp
      obtain ⟨s, ops, hs, hop, hp⟩ :=
        exists_overwrite (List.cons_ne_nil image₀ pre) image b bs post
      exact ⟨s, 0, b, ops, [], heq ▸ hs, hop, hp⟩

end Overwrites

end Dspc
