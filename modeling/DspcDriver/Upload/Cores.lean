import DspcDriver.Upload.Image

/-!
# Uploads for several cores

The core number of an upload picks nothing: the writes to `IB_OFFSET(1)` in `writeDSPMemory` are
comments, so the L2 window stays on core 0. `run_l2` and `run_other` are what an upload of a table
of local L2 sections does for every core number; `separate_iff` is when two uploads leave each core
with its own image.
-/

namespace Dspc

open Lib

/-- The global DSP address of word `c` of core `k`'s L2. -/
def coreL2 (k c : Nat) : Nat := 0x10800000 + k * 0x01000000 + 4 * c

/-- The section lies in the local L2 range up to the boot magic. -/
def Section.InLocalL2 (s : Section) : Prop :=
  0x00800000 ≤ s.start.toNat ∧ s.start.toNat + 4 * s.data.length ≤ 0x0087FFFC

instance (s : Section) : Decidable s.InLocalL2 := inferInstanceAs (Decidable (_ ∧ _))

/-- The word that the image puts into word `c` of the L2: that of the last section over it. -/
def BootTable.l2Word (t : BootTable) (c : Nat) : Option Word :=
  t.sections.reverse.findSome? fun s => if s.pos ≤ c then s.data[c - s.pos]? else none

section

variable (start : Nat → Nat) (reg : Nat → Word)

/-- The DSP memory after an upload, with the inbound windows of `PCI_setInBound`. -/
def dspUpload (image : List Byte) (core : Byte) (m : Nat → Word) : Nat → Word :=
  dspRun (Stores.run (PCI_setInBound start) reg) start (uploadProgram image core).events m

/-- An upload for core `k` after one for core `j`, whatever was in the DSP: core `k` has its image,
the words that the first upload put into core `j`'s L2 are unchanged, and core `j` has its image. -/
def Separate (tj tk : BootTable) (restj restk : List Byte) (j k : Byte) : Prop :=
  ∀ m m₁ m₂, m₁ = dspUpload start reg (tj.encode ++ restj) j m →
    m₂ = dspUpload start reg (tk.encode ++ restk) k m₁ →
    (∀ c w, tk.l2Word c = some w → m₂ (coreL2 k.toNat c) = w) ∧
    (∀ c w, tj.l2Word c = some w → m₁ (coreL2 j.toNat c) = w → m₂ (coreL2 j.toNat c) = w) ∧
    ∀ c w, tj.l2Word c = some w → m₂ (coreL2 j.toNat c) = w

end

/-! ## One upload -/

theorem Section.InLocalL2.window {s : Section} (h : s.InLocalL2) : s.window = .mem := by
  obtain ⟨h1, h2⟩ := h
  exact if_pos (by omega)

theorem Section.InLocalL2.reached {s : Section} (h : s.InLocalL2) : s.Reached := by
  obtain ⟨h1, h2⟩ := h
  have hw := Section.InLocalL2.window ⟨h1, h2⟩
  apply Section.Inside.reached
  simp only [Section.Inside, hw, Window.base, Window.span]
  omega

theorem Section.InLocalL2.pos_le {s : Section} (h : s.InLocalL2) :
    s.pos + s.data.length ≤ 0x1FFFF := by
  obtain ⟨h1, h2⟩ := h
  have hw := Section.InLocalL2.window ⟨h1, h2⟩
  simp only [Section.pos, hw, Window.base, Window.span]
  omega

/-- An image word of the L2 lies below the boot magic. -/
theorem BootTable.l2Word_lt {t : BootTable} (hl : ∀ s ∈ t.sections, s.InLocalL2) {c : Nat} {w : Word}
    (h : t.l2Word c = some w) : c < 0x1FFFF := by
  obtain ⟨s, hs, hc⟩ := List.exists_of_findSome?_eq_some h
  have hle := (hl s (List.mem_reverse.mp hs)).pos_le
  split at hc
  · have := (List.getElem?_eq_some_iff.mp hc).1
    omega
  · cases hc

theorem BootTable.l2Word_exists {t : BootTable} (h : t.sections ≠ []) :
    ∃ c w, t.l2Word c = some w := by
  obtain ⟨s, hs⟩ := List.exists_mem_of_ne_nil _ h
  refine ⟨s.pos, Option.isSome_iff_exists.mp (List.findSome?_isSome_iff.mpr
    ⟨s, List.mem_reverse.mpr hs, ?_⟩)⟩
  rw [if_pos (Nat.le_refl _), Nat.sub_self, List.getElem?_eq_getElem s.length_pos]
  rfl

theorem BootTable.l2Word_nil {t : BootTable} (h : t.sections = []) (c : Nat) : t.l2Word c = none := by
  rw [BootTable.l2Word, h]; rfl

section Upload

variable {start : Nat → Nat} (hs : ∀ i < 4, start i < 2 ^ 32) (reg : Nat → Word) {t : BootTable}
  (hl : ∀ s ∈ t.sections, s.InLocalL2) (rest : List Byte) (core : Byte) (m : Nat → Word)

include hs hl

theorem dspUpload_eq : dspUpload start reg (t.encode ++ rest) core m =
    Stores.run (t.sections.flatMap (fun s =>
      Stores.block (fun i => 0x10800000 + 4 * (s.pos + i)) s.data) ++ [(dspMagic, t.entry)]) m := by
  have hsec : t.sections.flatMap (fun s => (callStores (s.calls core)).map
        fun x => (x.1.window.global + 4 * x.1.index, x.2)) =
      t.sections.flatMap fun s => Stores.block (fun i => 0x10800000 + 4 * (s.pos + i)) s.data :=
    List.flatMap_congr fun s h => by
      rw [Section.map_stores core (hl s h).reached, (hl s h).window]; rfl
  rw [dspUpload, uploadProgram_encode t rest core fun s h => (hl s h).reached.size,
    dspRun_setInBound start hs, callStores_flatMap, List.map_append, List.map_flatMap, hsec,
    List.map_singleton, dspAddr_magicLoc]

/-- An upload for any core number puts its image into core 0's L2. -/
theorem run_l2 {c : Nat} (hc : c < 0x1FFFF) :
    dspUpload start reg (t.encode ++ rest) core m (coreL2 0 c) =
      (t.l2Word c).getD (m (coreL2 0 c)) := by
  have hsec : ∀ s ∈ t.sections, Stores.last (Stores.block (fun i => 0x10800000 + 4 * (s.pos + i))
      s.data) (coreL2 0 c) = if s.pos ≤ c then s.data[c - s.pos]? else none := by
    intro s _
    have hf : (fun i => 0x10800000 + 4 * (s.pos + i)) = fun i => 0x10800000 + 4 * s.pos + 4 * i := by
      funext i; omega
    rw [hf, Stores.last_block_stride (by decide)]
    unfold coreL2
    by_cases h : s.pos ≤ c
    · rw [if_pos h, if_pos ⟨by omega, by omega⟩]
      congr 1
      omega
    · rw [if_neg h, if_neg fun h' => by omega]
  have hm : dspMagic ≠ coreL2 0 c := by unfold dspMagic coreL2; omega
  rw [dspUpload_eq hs reg hl, Stores.run_eq_last, Stores.last_append, Stores.last_flatMap hsec,
    Stores.last, Stores.last_nil, Option.none_or, if_neg hm, Option.none_or]
  rfl

/-- No upload reaches the L2 of another core. -/
theorem run_other {k c : Nat} (hk : k ≠ 0) :
    dspUpload start reg (t.encode ++ rest) core m (coreL2 k c) = m (coreL2 k c) := by
  rw [dspUpload_eq hs reg hl]
  refine Stores.run_frame (fun x hx => ?_) m
  have hlo : 0x11800000 ≤ coreL2 k c := by unfold coreL2; omega
  rcases List.mem_append.mp hx with hx | hx
  · obtain ⟨s, h, hx⟩ := List.mem_flatMap.mp hx
    obtain ⟨i, w, hi, rfl⟩ := Stores.mem_block.mp hx
    have hlt := (List.getElem?_eq_some_iff.mp hi).1
    have hle := (hl s h).pos_le
    dsimp only
    omega
  · rw [List.mem_singleton.mp hx]
    show dspMagic ≠ coreL2 k c
    unfold dspMagic
    omega

end Upload

/-! ## Two uploads -/

/-- An image that lands in a core's L2 through uploads that do not reach the L2 of other cores than
core 0 has no section, or the core is core 0. -/
theorem eq_zero_of_lands {t : BootTable} {i : Byte} {f : (Nat → Word) → Nat → Word}
    (hother : i.toNat ≠ 0 → ∀ m c, f m (coreL2 i.toNat c) = m (coreL2 i.toNat c))
    (hland : ∀ m c w, t.l2Word c = some w → f m (coreL2 i.toNat c) = w) :
    t.sections = [] ∨ i = 0 := by
  by_contra hcon
  rw [not_or] at hcon
  obtain ⟨c, w, hcw⟩ := BootTable.l2Word_exists hcon.1
  have h0 : i.toNat ≠ 0 := fun e => hcon.2 (BitVec.eq_of_toNat_eq e)
  -- in a memory without the word there
  have hw : w + 1 = w := (hother h0 (fun _ => w + 1) c).symm.trans (hland _ c w hcw)
  bv_omega

/-- **When uploads for two cores leave each its own image**: only if neither has a section for a
core other than core 0. -/
theorem separate_iff (tj tk : BootTable) (restj restk : List Byte) (j k : Byte)
    (start : Nat → Nat) (reg : Nat → Word) (hne : j ≠ k) (hstart : ∀ i < 4, start i < 2 ^ 32)
    (hj : ∀ s ∈ tj.sections, s.InLocalL2) (hk : ∀ s ∈ tk.sections, s.InLocalL2) :
    Separate start reg tj tk restj restk j k ↔
      (tj.sections = [] ∨ j = 0) ∧ (tk.sections = [] ∨ k = 0) := by
  constructor
  · intro h
    have hother {i : Byte} (h0 : i.toNat ≠ 0) (m : Nat → Word) (c : Nat) :
        dspUpload start reg (tk.encode ++ restk) k (dspUpload start reg (tj.encode ++ restj) j m)
          (coreL2 i.toNat c) = m (coreL2 i.toNat c) := by
      rw [run_other hstart reg hk _ _ _ h0, run_other hstart reg hj _ _ _ h0]
    exact ⟨eq_zero_of_lands hother fun m => (h m _ _ rfl rfl).2.2,
      eq_zero_of_lands hother fun m => (h m _ _ rfl rfl).1⟩
  · rintro ⟨h1, h2⟩ m m₁ m₂ rfl rfl
    have hboth : ∀ c w, tj.l2Word c = some w →
        dspUpload start reg (tk.encode ++ restk) k
          (dspUpload start reg (tj.encode ++ restj) j m) (coreL2 j.toNat c) = w := by
      intro c w hcw
      rcases h1 with h1 | rfl
      · rw [BootTable.l2Word_nil h1] at hcw; cases hcw
      · have hlt := BootTable.l2Word_lt hj hcw
        have hnil := h2.resolve_right fun e => hne e.symm
        rw [show (0 : Byte).toNat = 0 from rfl, run_l2 hstart reg hk _ _ _ hlt,
          BootTable.l2Word_nil hnil, Option.getD_none, run_l2 hstart reg hj _ _ _ hlt, hcw,
          Option.getD_some]
    refine ⟨fun c w hcw => ?_, fun c w hcw _ => hboth c w hcw, hboth⟩
    rcases h2 with h2 | rfl
    · rw [BootTable.l2Word_nil h2] at hcw; cases hcw
    · rw [show (0 : Byte).toNat = 0 from rfl,
        run_l2 hstart reg hk _ _ _ (BootTable.l2Word_lt hk hcw), hcw, Option.getD_some]

/-- An image of one word at the start of the local L2. -/
def wordTable (w : Word) : BootTable where
  entry := 0x00800000
  sections := [.word 0x00800000 w]

/-- The two uploads for cores 0 and 1, both with one section. -/
theorem separate_iff_words :
    Separate (fun i => 0xE0000000 + 0x1000000 * i) (fun _ => 0) (wordTable 0x11) (wordTable 0x22) [] []
        0 1 ↔
      ((wordTable 0x11).sections = [] ∨ (0 : Byte) = 0) ∧
        ((wordTable 0x22).sections = [] ∨ (1 : Byte) = 0) :=
  separate_iff _ _ [] [] 0 1 _ _ (by decide) (by decide) (by decide) (by decide)

/-- After the uploads for cores 0 and 1, core 1's L2 is as it was and core 0 has core 1's image. -/
theorem not_separate_words :
    ¬ Separate (fun i => 0xE0000000 + 0x1000000 * i) (fun _ => 0) (wordTable 0x11) (wordTable 0x22)
      [] [] 0 1 := by
  intro h
  have h1 := (h (fun _ => 0) _ _ rfl rfl).1 0 0x22 rfl
  rw [show (1 : Byte).toNat = 1 from rfl, run_other (by decide) _ (by decide) _ _ _ (by decide),
    run_other (by decide) _ (by decide) _ _ _ (by decide)] at h1
  exact absurd h1 (by decide)

end Dspc
