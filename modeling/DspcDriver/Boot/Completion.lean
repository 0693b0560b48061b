import DspcDriver.Boot.PushCode

/-!
# Every push ends

A poll that does not see its bit is no step of `pushSys`, so a run is as long as the work that host
and DSP have done. The host takes each of its operations once and the DSP's steps are counted by
`ConsumerState.count`: every step of either raises `pushCount` by one. The number of steps of a push
is `pushSteps`, whatever the order of the steps is: no run is longer, and a run that cannot go on has
taken all of them and has delivered every image (`push_completes`).
-/

namespace Dspc

open Lib Handshake

variable {β : Type} {images : List (List β)} {s t : PushState β} {n : Nat}

/-- The steps of a push: those of the host, one round of the DSP for each image, and the two steps in
which the DSP answers the last `RESET`. -/
def pushSteps (images : List (List β)) : Nat :=
  if images = [] then 0 else 2 * rounds images + 2

/-- The steps that both have taken, less the operations of the host at the start. -/
def pushCount (s : PushState β) : Int := (s.dsp.count : Int) - s.host.length

theorem length_copyFrom (k : Nat) (bs : List β) :
    (copyFrom k bs : List (PushOp β)).length = bs.length := by
  induction bs generalizing k with
  | nil => rfl
  | cons b bs ih => simp [copyFrom, ih]

/-- The host takes as many steps for an image as the DSP. -/
theorem length_pushAll (images : List (List β)) : (pushAll images).length = rounds images := by
  induction images with
  | nil => rfl
  | cons image images ih =>
    rw [pushAll, List.flatMap_cons, List.length_append, ← pushAll, ih, rounds_cons]
    simp [pushImage, length_copyFrom, finishOps, Nat.add_assoc]

/-- **Every step of either party counts as one.** -/
theorem PushStep.count (h : PushStep images s t) : pushCount t = pushCount s + 1 := by
  cases h with
  | control h | wait h | write h =>
    simp only [pushCount, h, List.length_cons]
    omega
  | dsp h =>
    simp only [pushCount, h.count]
    omega

theorem pushCount_init (h : (pushSys images).init s) : pushCount s = 1 - rounds images := by
  obtain ⟨hh, -, hd⟩ := h
  rw [pushCount, hh, hd, length_pushAll]
  rfl

/-- A host that is through has seen every image acknowledged. -/
theorem HostAt.through {p : Producer} (h : HostAt images [] p) (hne : images ≠ []) :
    p = .await images.length := by
  cases p with
  | start n =>
    obtain ⟨-, ⟨rfl, h⟩ | h⟩ := h
    · obtain ⟨image, images, rfl⟩ := List.exists_cons_of_ne_nil hne
      cases h
    · cases h
  | await n =>
    obtain ⟨hn, h | ⟨image, -, h⟩⟩ := h
    · rcases Nat.lt_or_eq_of_le hn with hlt | rfl
      · rw [pushAll_drop (List.getElem?_eq_getElem hlt)] at h
        cases h
      · rfl
    · cases h
  | fill n k =>
    obtain ⟨image, -, -, h⟩ := h
    exact absurd h (by simp [finishOps])
  | sent n =>
    obtain ⟨image, -, h⟩ := h
    cases h

/-- Where no step leads on, the host is through and the DSP has answered its last `RESET`. -/
theorem final_push {a : State β} (hi : Inv images a) (hr : PushRel images s a) (hne : images ≠ [])
    (hf : (pushSys images).Final s) :
    s.host = [] ∧ s.dsp.delivered = images ∧ s.dsp.place = .waitFinish := by
  have hnil : s.host = [] := by
    by_contra hop
    obtain ⟨t, ht⟩ := hr.progress hi hop
    exact hf t ht
  have hh := hr.host
  rw [hnil] at hh
  have hp := hh.through hne
  have hacked := hi.acked (.inr (.inl hp))
  rw [List.take_length] at hacked
  refine ⟨hnil, hr.shows.delivered.trans hacked, ?_⟩
  rcases hi.consumer_reset hr.shows hp with hst | ⟨y, hy⟩
  · have hpl := hi.place
    rw [hp] at hpl
    rw [hr.shows.status, statusCodes.code_eq] at hst
    rw [hr.shows.place]
    obtain ⟨-, -, ⟨-, h⟩ | ⟨-, h⟩ | ⟨hc, -⟩⟩ := hpl
    · exact absurd hst h
    · exact absurd hst h
    · exact hc
  · exact absurd (.dsp hy) (hf _)

/-- Without an image nothing happens. -/
theorem final_init (h : (pushSys ([] : List (List β))).init s) : (pushSys []).Final s := by
  obtain ⟨hh, hc, hd⟩ := h
  intro t hst
  cases hst with
  | control h | wait h | write h => rw [hh] at h; cases h
  | dsp h =>
    cases h with
    | seeReset _ h => rw [hc] at h; exact absurd h (by decide)
    | ackReset h | seeFinish h | read h | deliver h | ackFinish h => rw [hd] at h; cases h

theorem init_of_reach (h : (pushSys ([] : List (List β))).Reach s) : (pushSys []).init s :=
  h.inv (I := (pushSys []).init) (fun _ h => h) fun _ t hs hst => absurd hst (final_init hs t)

/-- The length of a run of a push of some images. -/
theorem push_length (hne : images ≠ []) (h0 : (pushSys images).init s)
    (h : (pushSys images).Steps s n t) :
    n + t.host.length + rounds images + 3 = pushSteps images + t.dsp.count := by
  have hc := h.count (fun _ _ _ hst => PushStep.count hst) (.start h0)
  rw [pushCount_init h0, pushCount] at hc
  rw [pushSteps, if_neg hne]
  omega

theorem push_le (h0 : (pushSys images).init s) (h : (pushSys images).Steps s n t) :
    n ≤ pushSteps images := by
  by_cases hne : images = []
  · subst hne
    cases h with
    | start => exact Nat.zero_le _
    | next h hst => exact absurd hst (final_init (init_of_reach (h.reach (.start h0))) _)
  · obtain ⟨a, ha, hr⟩ := pushSys_simulates.reach (h.reach (.start h0))
    have hle := (inv ha).count_le hr.shows
    have hlen := push_length hne h0 h
    omega

/-- A run that ends in a final state has taken all the steps. -/
theorem complete_of_final (h0 : (pushSys images).init s) (h : (pushSys images).Steps s n t)
    (hf : (pushSys images).Final t) :
    n = pushSteps images ∧ t.host = [] ∧ t.dsp.delivered = images := by
  have hreach := h.reach (.start h0)
  by_cases hne : images = []
  · subst hne
    obtain ⟨hh, -, hd⟩ := init_of_reach hreach
    exact ⟨Nat.le_zero.mp (push_le h0 h), hh, by rw [hd]⟩
  · obtain ⟨a, ha, hr⟩ := pushSys_simulates.reach hreach
    obtain ⟨hh, hd, hp⟩ := final_push (inv ha) hr hne hf
    have hlen := push_length hne h0 h
    rw [hh, ConsumerState.count, hd, hp, Consumer.steps, List.length_nil] at hlen
    exact ⟨by omega, hh, hd⟩

/-- **Every push ends, after the same number of steps.** However the steps of host and DSP are
interleaved, no run has more than `pushSteps images` of them; a run stops only when it has taken all; then
the host is through and the DSP has read exactly the images; and from every state on the way there is
a run to the end. -/
theorem push_completes (h0 : (pushSys images).init s) (h : (pushSys images).Steps s n t) :
    n ≤ pushSteps images ∧
    ((pushSys images).Final t ↔ n = pushSteps images) ∧
    (n = pushSteps images → t.host = [] ∧ t.dsp.delivered = images) ∧
    ∃ u, (pushSys images).Steps t (pushSteps images - n) u := by
  have hlast : n = pushSteps images → (pushSys images).Final t := fun hn u hst => by
    have := push_le h0 (h.next hst)
    omega
  refine ⟨push_le h0 h, ⟨fun hf => (complete_of_final h0 h hf).1, hlast⟩,
    fun hn => (complete_of_final h0 h (hlast hn)).2, ?_⟩
  obtain ⟨m, u, hrun, hf⟩ := Sys.exists_final (N := pushSteps images) fun m u hrun => by
    have := push_le h0 (h.append hrun)
    omega
  have hn := (complete_of_final h0 (h.append hrun) hf).1
  exact ⟨u, by rwa [show pushSteps images - n = m by omega]⟩

theorem push_completes_second :
    23 ≤ pushSteps twoImages ∧
    ((pushSys twoImages).Final secondPush ↔ 23 = pushSteps twoImages) ∧
    (23 = pushSteps twoImages → secondPush.host = [] ∧ secondPush.dsp.delivered = twoImages) ∧
    ∃ u, (pushSys twoImages).Steps secondPush (pushSteps twoImages - 23) u :=
  push_completes (s := startPush) ⟨rfl, rfl, rfl⟩ secondPush_steps

end Dspc
