import DspcDriver.Upload.Blocks

/-!
# What an upload leaves in the DSP

* `uploadProgram_correct`: a table whose sections lie in the mapped windows is consumed exactly, and
  the DSP memory becomes `BootTable.load` of what it was: the boot magic, then the last section over
  an address, then the old word.
* `magic_last`: if no section word falls on the boot magic, that word is stored once, over a memory
  that has the complete image already, for every core number.
-/

namespace Dspc

open Lib

/-- The DSP memory after the stores `st`, with the application registers `reg`. -/
def dspRun (reg : Nat → Word) (start : Nat → Nat) (st : List Store) (m : Nat → Word) : Nat → Word :=
  Stores.run (st.filterMap fun x => (x.1.dspAddr reg start).map fun a => (a, x.2)) m

/-! ## The meaning of a table -/

/-- The DSP address of the first word of a section. -/
def Section.dspStart (s : Section) : Nat :=
  if s.window = .mem then 0x10000000 + s.start.toNat % 2 ^ 24 else s.start.toNat

/-- The word that a section puts at a DSP address. -/
def Section.wordAt (s : Section) (a : Nat) : Option Word :=
  if s.dspStart ≤ a ∧ (a - s.dspStart) % 4 = 0 then s.data[(a - s.dspStart) / 4]? else none

/-- The DSP address of core 0's boot magic. -/
def dspMagic : Nat := 0x1087FFFC

theorem dspAddr_magicLoc : magicLoc.window.global + 4 * magicLoc.index = dspMagic := by
  simp only [magicLoc, Window.global, dspMagic, Nat.reduceMul, Nat.reduceAdd]

/-- **The meaning of a table**: the entry address in the magic word; elsewhere the word of the last
section over the address, or what was there. -/
def BootTable.load (t : BootTable) (m : Nat → Word) (a : Nat) : Word :=
  if a = dspMagic then t.entry
  else (t.sections.reverse.findSome? fun s => s.wordAt a).getD (m a)

/-- A section on a word boundary, inside core 0's L2, MSMC or DDR as far as they are mapped. -/
def Section.LiesIn (bar : PcieBarReg) (s : Section) : Prop :=
  s.Aligned ∧
  (((s.start.toNat / 2 ^ 24 = 0x00 ∨ s.start.toNat / 2 ^ 24 = 0x10) ∧
      0x800000 ≤ s.start.toNat % 2 ^ 24 ∧
      s.start.toNat % 2 ^ 24 + 4 * s.data.length ≤ 0x800000 + bar.memLen) ∨
    (0x0C000000 ≤ s.start.toNat ∧ s.start.toNat + 4 * s.data.length ≤ 0x0C000000 + bar.msmcLen) ∨
    (0x80000000 ≤ s.start.toNat ∧ s.start.toNat + 4 * s.data.length ≤ 0x80000000 + bar.ddrLen))

instance (bar : PcieBarReg) (s : Section) : Decidable (s.LiesIn bar) :=
  inferInstanceAs (Decidable (_ ∧ _))

/-! ## Sections in their windows -/

/-- The three ranges are those of the section's window. -/
theorem Section.LiesIn.window {bar : PcieBarReg} {s : Section} (h : s.LiesIn bar)
    (hmem : bar.memLen ≤ 0x800000) (hmsmc : bar.msmcLen ≤ 2 ^ 24) (hddr : bar.ddrLen ≤ 2 ^ 31) :
    s.Inside ∧ s.start.toNat % s.window.span + 4 * s.data.length ≤ s.window.base + bar.len s.window := by
  have hp := s.length_pos
  have hlt := s.start.isLt
  obtain ⟨-, ⟨hpre, h1, h2⟩ | ⟨h1, h2⟩ | ⟨h1, h2⟩⟩ := h
  · have hw : s.window = .mem := if_pos (by omega)
    simp only [Section.Inside, hw, Window.base, Window.span, PcieBarReg.len]
    omega
  · have hw : s.window = .msmc := by
      rw [Section.window, windowOf, if_neg (by omega), if_pos (by omega)]
    simp only [Section.Inside, hw, Window.base, Window.span, PcieBarReg.len]
    omega
  · have hw : s.window = .ddr := by
      rw [Section.window, windowOf, if_neg (by omega), if_neg (by omega)]
    simp only [Section.Inside, hw, Window.base, Window.span, PcieBarReg.len]
    omega

/-- The window's position of a section is its DSP address. -/
theorem Section.dspStart_eq {s : Section} (ha : s.Aligned)
    (hb : s.window.base ≤ s.start.toNat % s.window.span) :
    s.dspStart = s.window.global + 4 * s.pos := by
  have hpos := Section.four_mul_pos ha hb
  have hlt := s.start.isLt
  unfold Section.dspStart
  cases hw : s.window <;> rw [hw] at hpos <;>
    simp only [Window.base, Window.span, Window.global, if_true, reduceCtorEq, if_false] at hpos ⊢ <;>
    omega

/-! ## The upload of a table -/

section Upload

variable (start : Nat → Nat) (hs : ∀ i < 4, start i < 2 ^ 32) (reg : Nat → Word)

include hs in
/-- With the inbound windows of `PCI_setInBound` every store reaches the DSP. -/
theorem dspRun_setInBound (st : List Store) (m : Nat → Word) :
    dspRun (Stores.run (PCI_setInBound start) reg) start st m =
      Stores.run (st.map fun x => (x.1.window.global + 4 * x.1.index, x.2)) m := by
  unfold dspRun
  congr 1
  rw [← List.filterMap_eq_map]
  apply List.filterMap_congr
  intro x _
  rw [dspAddr_setInBound start hs reg]
  rfl

/-- The DSP stores of a reached section. -/
theorem Section.map_stores (core : Byte) {s : Section} (hr : s.Reached) :
    (callStores (s.calls core)).map (fun x => (x.1.window.global + 4 * x.1.index, x.2)) =
      Stores.block (fun i => s.window.global + 4 * (s.pos + i)) s.data := by
  rw [Section.stores_eq core hr,
    Stores.map_block (fun l : Loc => l.window.global + 4 * l.index)]

/-- What a reached, aligned section leaves at a DSP address. -/
theorem Section.last_wordAt (core : Byte) {s : Section} (hr : s.Reached) (ha : s.Aligned) (a : Nat) :
    Stores.last ((callStores (s.calls core)).map
      fun x => (x.1.window.global + 4 * x.1.index, x.2)) a = s.wordAt a := by
  have hf : (fun i => s.window.global + 4 * (s.pos + i)) = fun i => s.dspStart + 4 * i := by
    funext i
    rw [Section.dspStart_eq ha hr.1]
    omega
  rw [Section.map_stores core hr, hf, Stores.last_block_stride (by decide)]
  rfl

end Upload

section Table

variable {t : BootTable} (h : ∀ s ∈ t.sections, s.Reached ∧ s.Aligned) (core : Byte) (m : Nat → Word)

include h

/-- What the sections leave at a DSP address. -/
theorem run_globalSections (a : Nat) :
    Stores.run ((callStores (t.sections.flatMap (Section.calls core))).map
        fun x => (x.1.window.global + 4 * x.1.index, x.2)) m a =
      (t.sections.reverse.findSome? fun s => s.wordAt a).getD (m a) := by
  rw [callStores_flatMap, List.map_flatMap, Stores.run_eq_last,
    Stores.last_flatMap fun s hs => Section.last_wordAt core (h s hs).1 (h s hs).2 a]

/-- **The stores of an upload leave what the table means.** -/
theorem run_globalUpload :
    Stores.run ((callStores (t.sections.flatMap (Section.calls core)) ++ [(magicLoc, t.entry)]).map
        fun x => (x.1.window.global + 4 * x.1.index, x.2)) m = t.load m := by
  funext a
  rw [List.map_append, Stores.run_append, List.map_singleton, dspAddr_magicLoc, BootTable.load,
    ← run_globalSections h core m a]
  -- the boot magic is stored last
  exact Function.update_apply ..

end Table

/-- **The upload of a boot table is correct end to end.** -/
theorem uploadProgram_correct (t : BootTable) (rest : List Byte) (bar : PcieBarReg)
    (start : Nat → Nat) (reg m : Nat → Word) (hstart : ∀ i < 4, start i < 2 ^ 32)
    (hlo : 0x80000 ≤ bar.memLen) (hmem : bar.memLen ≤ 0x800000) (hmsmc : bar.msmcLen ≤ 2 ^ 24)
    (hddr : bar.ddrLen ≤ 2 ^ 31) (hs : ∀ s ∈ t.sections, s.LiesIn bar) :
    ∃ st, uploadProgram (t.encode ++ rest) 0 = ⟨st, .ok (0, rest)⟩ ∧ InBounds bar st ∧
      ∀ a, dspRun (Stores.run (PCI_setInBound start) reg) start st m a = t.load m a := by
  have hin : ∀ s ∈ t.sections, s.Inside := fun s h => ((hs s h).window hmem hmsmc hddr).1
  refine ⟨_, uploadProgram_encode t rest 0 fun s h => (hin s h).reached.size, ?_, ?_⟩
  · intro x hx
    rw [List.mem_append, mem_callStores_calls fun s h => (hin s h).reached, List.mem_singleton] at hx
    obtain ⟨s, h, i, w, hiw, rfl⟩ | rfl := hx
    · obtain ⟨hi, hw⟩ := (hs s h).window hmem hmsmc hddr
      have hlt := (List.getElem?_eq_some_iff.mp hiw).1
      have hpos := Section.four_mul_pos (hs s h).1 hi.1
      show 4 * (s.pos + i) + 4 ≤ bar.len s.window
      omega
    · exact Nat.le_trans (Nat.le_of_eq magicLoc_end) hlo
  · intro a
    rw [dspRun_setInBound start hstart,
      run_globalUpload (fun s h => ⟨(hin s h).reached, (hs s h).1⟩) 0]

/-- Two overlapping L2 sections, the second under its global address, and one at the end of the DDR
window; the first size is not a multiple of 4. -/
def overlapTable : BootTable where
  entry := 0x00810000
  sections :=
    [⟨6, 0x00800000, [0x11, 0x22], by decide, by decide⟩,
      .word 0x10800004 0x33,
      ⟨8, 0x80FFFFF8, [0x44, 0x55], by decide, by decide⟩]

theorem uploadProgram_correct_overlap :
    ∃ st, uploadProgram (overlapTable.encode ++ [0xAA]) 0 = ⟨st, .ok (0, [0xAA])⟩ ∧
      InBounds c6678Bar st ∧
      ∀ a, dspRun (Stores.run (PCI_setInBound fun i => 0xE0000000 + 0x1000000 * i) fun _ => 0)
        (fun i => 0xE0000000 + 0x1000000 * i) st (fun _ => 0) a = overlapTable.load (fun _ => 0) a :=
  uploadProgram_correct overlapTable [0xAA] c6678Bar (fun i => 0xE0000000 + 0x1000000 * i)
    (fun _ => 0) (fun _ => 0) (by decide) (by decide) (by decide) (by decide) (by decide) (by decide)

/-! ## The boot magic comes last -/

/-- Every word of the section is in the window that the section goes to. -/
def Section.WordsIn (bar : PcieBarReg) (s : Section) : Prop :=
  ∀ i < s.data.length, ∃ o ∈ offsetIn s.window (s.addr i), o + 4 ≤ bar.len s.window

/-- No word of the section is core 0's magic word. -/
def Section.AvoidsMagic (s : Section) : Prop :=
  s.window = .mem → ∀ i < s.data.length, (s.addr i).toNat % 2 ^ 24 ≠ 0x87FFFC

instance (bar : PcieBarReg) (s : Section) : Decidable (s.WordsIn bar) :=
  inferInstanceAs (Decidable (∀ i < _, _))

instance (s : Section) : Decidable s.AvoidsMagic := inferInstanceAs (Decidable (_ → _))

/-- A section whose words are all in the window does not wrap in it. -/
theorem Section.WordsIn.inside {bar : PcieBarReg} {s : Section} (h : s.WordsIn bar)
    (ha : s.Aligned) : s.Inside := by
  have hp := s.length_pos
  have hb := s.window.base_pos
  have hlt := Nat.mod_lt s.start.toNat s.window.span_pos
  have h4 := ha.view
  have hs4 : 4 ∣ s.window.span := (by decide : 4 ∣ 256).trans s.window.dvd_span
  have hin : ∀ i < s.data.length,
      s.window.base ≤ (s.start.toNat % s.window.span + 4 * i) % s.window.span := fun i hi => by
    obtain ⟨o, ho, -⟩ := h i hi
    rw [Option.mem_def, offsetIn_eq_some, s.addr_mod_span] at ho
    omega
  have h0 := hin 0 hp
  rw [Nat.mul_zero, Nat.add_zero, Nat.mod_mod] at h0
  refine ⟨h0, ?_⟩
  by_contra hgt
  -- the word at the top of the window's addresses wraps to 0
  have hi := hin ((s.window.span - s.start.toNat % s.window.span) / 4) (by omega)
  rw [show s.start.toNat % s.window.span + 4 * ((s.window.span - s.start.toNat % s.window.span) / 4) =
    s.window.span by omega, Nat.mod_self] at hi
  omega

/-- Where the words of a section inside its window are stored. -/
theorem Section.offsetIn_word {s : Section} (hi : s.Inside) (ha : s.Aligned) {i : Nat}
    (h : i < s.data.length) : offsetIn s.window (s.addr i) = some (4 * (s.pos + i)) := by
  have hpos := Section.four_mul_pos ha hi.1
  obtain ⟨hb, ht⟩ := hi
  rw [Section.offsetIn_addr hb (by omega), Option.some.injEq]
  omega

/-- The word that a section puts at a location of the windows. -/
def Section.wordIn (s : Section) (l : Loc) : Option Word :=
  if l.window = s.window ∧ s.pos ≤ l.index then s.data[l.index - s.pos]? else none

/-- **The image of a table** over the memory `m` behind the windows: the word of the last section
over a location, or what was there. -/
def BootTable.image (t : BootTable) (m : Loc → Word) (l : Loc) : Word :=
  (t.sections.reverse.findSome? fun s => s.wordIn l).getD (m l)

/-- What a reached section leaves at a location. -/
theorem Section.last_wordIn (core : Byte) {s : Section} (hr : s.Reached) (l : Loc) :
    Stores.last (callStores (s.calls core)) l = s.wordIn l := by
  rw [Section.stores_eq core hr]
  unfold Section.wordIn
  split
  · rename_i h
    obtain ⟨hw, hp⟩ := h
    have hl : l = ⟨s.window, s.pos + (l.index - s.pos)⟩ := by
      rw [← hw, Nat.add_sub_cancel' hp]
    have hinj : Function.Injective fun i => (⟨s.window, s.pos + i⟩ : Loc) := fun i j h =>
      Nat.add_left_cancel (Loc.mk.inj h).2
    conv_lhs => rw [hl]
    exact Stores.last_block hinj s.data (l.index - s.pos)
  · rename_i h
    refine Stores.last_block_none fun i _ he => h ?_
    subst he
    exact ⟨rfl, Nat.le_add_right _ _⟩

/-- **The sections' stores leave the image**, for every core number. -/
theorem run_sections {t : BootTable} (h : ∀ s ∈ t.sections, s.Reached) (core : Byte) (m : Loc → Word) :
    Stores.run (callStores (t.sections.flatMap (Section.calls core))) m = t.image m := by
  funext l
  rw [callStores_flatMap, Stores.run_eq_last,
    Stores.last_flatMap fun s hs => Section.last_wordIn core (h s hs) l]
  rfl

/-- What it is for `st` to be all stores of the upload of `t` but the last one, that of the boot
magic. -/
structure BeforeMagic (t : BootTable) (st : List Store) : Prop where
  avoids : ∀ x ∈ st, x.1 ≠ magicLoc
  words : ∀ s ∈ t.sections, ∀ i w, s.data[i]? = some w →
    ∃ o, offsetIn s.window (s.addr i) = some (4 * o) ∧ (⟨s.window, o⟩, w) ∈ st
  /-- The complete image is there. -/
  image : ∀ m, Stores.run st m = t.image m
  /-- The DSP has it too, under its own addresses. -/
  load : ∀ start reg m, (∀ i < 4, start i < 2 ^ 32) → ∀ a ≠ dspMagic,
    dspRun (Stores.run (PCI_setInBound start) reg) start st m a = t.load m a
  /-- Until the last store the boot magic has its initial value. -/
  initial : ∀ p, p <+: st ++ [(magicLoc, t.entry)] → p ≠ st ++ [(magicLoc, t.entry)] →
    p <+: st ∧ ∀ m : Loc → Word, Stores.run p m magicLoc = m magicLoc
  /-- Who sees the boot magic change sees the entry address there and the complete image. -/
  seen : ∀ p, p <+: st ++ [(magicLoc, t.entry)] → ∀ m : Loc → Word,
    Stores.run p m magicLoc ≠ m magicLoc →
      Stores.run p m = Function.update (t.image m) magicLoc t.entry

/-- **The boot magic is published last**: an upload is the stores of the sections, which leave the
complete image, and then the entry address at the magic word. -/
theorem magic_last (t : BootTable) (rest : List Byte) (core : Byte) (bar : PcieBarReg)
    (hs : ∀ s ∈ t.sections, s.Aligned ∧ s.WordsIn bar ∧ s.AvoidsMagic) :
    ∃ st, uploadProgram (t.encode ++ rest) core = ⟨st ++ [(magicLoc, t.entry)], .ok (0, rest)⟩ ∧
      BeforeMagic t st := by
  have hin : ∀ s ∈ t.sections, s.Inside := fun s h => (hs s h).2.1.inside (hs s h).1
  have hr : ∀ s ∈ t.sections, s.Reached := fun s h => (hin s h).reached
  have havoid : ∀ x ∈ callStores (t.sections.flatMap (Section.calls core)), x.1 ≠ magicLoc := by
    intro x hx
    obtain ⟨s, h, i, w, hiw, rfl⟩ := (mem_callStores_calls hr).mp hx
    have hlt := (List.getElem?_eq_some_iff.mp hiw).1
    intro he
    obtain ⟨hw, hidx⟩ : s.window = .mem ∧ s.pos + i = 0x1FFFF := Loc.mk.injEq .. ▸ he
    have ho := Section.offsetIn_word (hin s h) (hs s h).1 hlt
    rw [hw, offsetIn_eq_some, hidx] at ho
    exact (hs s h).2.2 hw i hlt ho.symm
  refine ⟨_, uploadProgram_encode t rest core fun s h => (hr s h).size, havoid, ?_,
    run_sections hr core, ?_, fun p hp hne => Stores.run_unpublished havoid hp hne, ?_⟩
  · intro s h i w hiw
    have hlt := (List.getElem?_eq_some_iff.mp hiw).1
    exact ⟨s.pos + i, Section.offsetIn_word (hin s h) (hs s h).1 hlt,
      (mem_callStores_calls hr).mpr ⟨s, h, i, w, hiw, rfl⟩⟩
  · intro start reg m hstart a ha
    rw [dspRun_setInBound start hstart,
      run_globalSections (fun s h => ⟨hr s h, (hs s h).1⟩) core, BootTable.load, if_neg ha]
  · intro p hp m hm
    rw [Stores.run_published havoid hp hm, run_sections hr core]

theorem magic_last_overlap :
    ∃ st, uploadProgram (overlapTable.encode ++ []) 3 =
        ⟨st ++ [(magicLoc, overlapTable.entry)], .ok (0, [])⟩ ∧ BeforeMagic overlapTable st :=
  magic_last overlapTable [] 3 c6678Bar (by decide)

end Dspc
