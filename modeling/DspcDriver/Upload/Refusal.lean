import DspcDriver.Upload.Bounds

/-!
# Refused blocks and the value returned

`uploadProgram` drops what `writeDSPMemory` returns for a section's blocks: its own result is that of
the store of the boot magic, which is never refused. So it returns 0 whenever it returns.

* `index_lt` bounds the position of every store of any run, for any bytes of the image.
* `truthful_iff`: the result tells the truth about a table exactly if each of its sections starts on
  a word boundary, none of its blocks is refused, and its last word is inside the recorded length of
  the window of its start address.
-/

namespace Dspc

open Lib

/-! ## The stores of any run -/

theorem dspOffset_lt {c a o : Word} {w : Window} (h : dspOffset c a = some (w, o)) :
    o.toNat < 0xF4000000 := by
  have ha := a.isLt
  have h24 := toNat_low24 a
  have sub {b base : Word} (hb : ¬ b < base) : (b - base).toNat = b.toNat - base.toNat :=
    BitVec.toNat_sub_of_le (by rw [BitVec.le_def]; exact Nat.le_of_not_lt fun e => hb (BitVec.lt_def.mpr e))
  unfold dspOffset at h
  dsimp only at h
  split at h
  · split at h
    · cases h
    · rename_i hb
      cases h
      rw [sub hb]; omega
  · split at h
    · split at h
      · cases h
      · rename_i hb
        cases h
        rw [sub hb, show MSMC_START.toNat = 0x0C000000 from rfl]; omega
    · split at h
      · split at h
        · cases h
        · rename_i hb
          cases h
          rw [sub hb, show DDR_START.toNat = 0x80000000 from rfl]; omega
      · cases h

/-- The stores of a call. -/
theorem Call.mem_events {c : Call} {x : Store} (h : x ∈ c.run.events) :
    ∃ w o j v, dspOffset c.coreNum c.dspMemAddr = some (w, o) ∧
      (c.buffer.take (c.length / 4).toNat)[j]? = some v ∧ x = (⟨w, (o / 4).toNat + j⟩, v) := by
  unfold Call.run writeDSPMemory at h
  split at h
  · cases h
  · split at h
    · cases h
    · rename_i w o ho
      rw [Trace.emitAll, Trace.mk_ok_bind, Trace.events_pure, List.append_nil] at h
      obtain ⟨j, v, hj, rfl⟩ := Stores.mem_block.mp h
      exact ⟨w, o, j, v, ho, hj, rfl⟩

/-- **No store of any upload is as far up as word `2^30 - 1` of a window.** -/
theorem index_lt {image : List Byte} {core : Byte} {x : Store}
    (h : x ∈ (uploadProgram image core).events) : x.1.index < 2 ^ 30 - 1 := by
  have hcalls : ∀ y ∈ callStores (uploadCalls image core).events, y.1.index < 2 ^ 30 - 1 := by
    intro y hy
    obtain ⟨c, hc, hy⟩ := List.mem_flatMap.mp hy
    have hlen : c.length.toNat ≤ 256 := uploadCalls_all (fun _ hl _ => hl) image core c hc
    obtain ⟨w, o, j, v, ho, hj, rfl⟩ := Call.mem_events hy
    have hlt := (List.getElem?_eq_some_iff.mp hj).1
    have h4 : (c.length / 4).toNat = c.length.toNat / 4 := BitVec.toNat_udiv
    have ho4 : (o / 4).toNat = o.toNat / 4 := BitVec.toNat_udiv
    have hoff := dspOffset_lt ho
    rw [List.length_take] at hlt
    show (o / 4).toNat + j < 2 ^ 30 - 1
    omega
  rw [uploadProgram_eq] at h
  rcases hout : (uploadCalls image core).out with e | ⟨entry, p⟩ <;> rw [hout] at h
  · exact hcalls x h
  · rcases List.mem_append.mp h with h | h
    · exact hcalls x h
    · rw [List.mem_singleton.mp h]; exact (by decide : magicLoc.index < 2 ^ 30 - 1)

/-! ## The truth of the result -/

/-- The upload can return `r`: it does, or it reads past the end of the image, which leaves the
result open. -/
def MayReturn (x : UploadM Store (Int × List Byte)) (r : Int) : Prop :=
  match x.out with
  | .ok (v, _) => v = r
  | .error _ => True

/-- Every word of the section is among the stores `st`, inside the window that the start address
names, whose length the BAR record has, and at its distance from the position that the start address
names. -/
def Section.StoredIn (bar : PcieBarReg) (s : Section) (st : List Store) : Prop :=
  ∃ o, offsetIn s.window s.start = some o ∧
    ∀ i w, s.data[i]? = some w →
      ∃ l, 4 * l = o + 4 * i ∧ 4 * l + 4 ≤ bar.len s.window ∧ (⟨s.window, l⟩, w) ∈ st

/-- The section ends inside the recorded length of its window. -/
def Section.EndsIn (bar : PcieBarReg) (s : Section) : Prop :=
  s.start.toNat % s.window.span + 4 * s.data.length ≤ s.window.base + bar.len s.window

instance (bar : PcieBarReg) (s : Section) : Decidable (s.EndsIn bar) :=
  inferInstanceAs (Decidable (_ ≤ _))

/-- What the value returned is to say about the upload of a table: 0 only if every word of every
section was stored where its start address names, and not 0 if a block was refused. -/
def Truthful (bar : PcieBarReg) (t : BootTable) (rest : List Byte) (core : Byte) : Prop :=
  (MayReturn (uploadProgram (t.encode ++ rest) core) 0 →
    ∀ s ∈ t.sections, s.StoredIn bar (uploadProgram (t.encode ++ rest) core).events) ∧
  ((∃ c ∈ (uploadCalls (t.encode ++ rest) core).events, c.Refused) →
    ∀ r, MayReturn (uploadProgram (t.encode ++ rest) core) r → r ≠ 0)

/-- **`uploadProgram` can return 0 for every image.** -/
theorem mayReturn_zero (image : List Byte) (core : Byte) :
    MayReturn (uploadProgram image core) 0 := by
  unfold MayReturn
  rw [uploadProgram_eq]
  rcases (uploadCalls image core).out with e | ⟨entry, p⟩
  · trivial
  · rfl

theorem truthful_iff' {bar : PcieBarReg} {t : BootTable} {rest : List Byte} {core : Byte} :
    Truthful bar t rest core ↔
      (∀ s ∈ t.sections, s.StoredIn bar (uploadProgram (t.encode ++ rest) core).events) ∧
        ∀ c ∈ (uploadCalls (t.encode ++ rest) core).events, ¬ c.Refused := by
  have h0 := mayReturn_zero (t.encode ++ rest) core
  constructor
  · rintro ⟨h1, h2⟩
    exact ⟨h1 h0, fun c hc hr => h2 ⟨c, hc, hr⟩ 0 h0 rfl⟩
  · rintro ⟨h1, h2⟩
    exact ⟨fun _ => h1, fun ⟨c, hc, hr⟩ => absurd hr (h2 c hc)⟩

section StoredIn

variable {bar : PcieBarReg} {s : Section} {st : List Store}

/-- A stored section starts on a word boundary, and has fewer than `2^30` words. -/
theorem Section.StoredIn.aligned (h : s.StoredIn bar st) : s.Aligned := by
  obtain ⟨o, ho, hall⟩ := h
  obtain ⟨l, hl, -⟩ := hall 0 _ (List.getElem?_eq_getElem s.length_pos)
  obtain ⟨b, hb⟩ := s.window.base_dvd
  rw [offsetIn_eq_some] at ho
  have h4 : s.start.toNat % s.window.span % 4 = s.start.toNat % 4 :=
    Nat.mod_mod_of_dvd _ ((by decide : 4 ∣ 256).trans s.window.dvd_span)
  unfold Section.Aligned
  omega

/-- The last word of a stored section is inside the window. -/
theorem Section.StoredIn.endsIn (h : s.StoredIn bar st) : s.EndsIn bar := by
  obtain ⟨o, ho, hall⟩ := h
  have hp := s.length_pos
  obtain ⟨l, hl, hlen, -⟩ := hall (s.data.length - 1) _ (List.getElem?_eq_getElem (by omega))
  rw [offsetIn_eq_some] at ho
  unfold Section.EndsIn
  omega

theorem Section.StoredIn.size {image : List Byte} {core : Byte}
    (h : s.StoredIn bar (uploadProgram image core).events) : s.size.toNat + 3 < 2 ^ 32 := by
  obtain ⟨o, -, hall⟩ := h
  have hp := s.length_pos
  have hlen := s.length_data
  obtain ⟨l, hl, -, hmem⟩ := hall (s.data.length - 1) _ (List.getElem?_eq_getElem (by omega))
  have hlt : l < 2 ^ 30 - 1 := index_lt hmem
  omega

/-- An aligned section that ends in its window is stored in it, if each of its words is among the
stores at its place behind the position of the start. -/
theorem Section.EndsIn.storedIn (h : s.EndsIn bar) (ha : s.Aligned)
    (hb : s.window.base ≤ s.start.toNat % s.window.span)
    (hall : ∀ i w, s.data[i]? = some w → (⟨s.window, s.pos + i⟩, w) ∈ st) : s.StoredIn bar st := by
  have hpos := Section.four_mul_pos ha hb
  unfold Section.EndsIn at h
  refine ⟨4 * s.pos, offsetIn_eq_some.mpr (by omega), fun i w hi => ?_⟩
  have hlt := (List.getElem?_eq_some_iff.mp hi).1
  exact ⟨s.pos + i, by omega, by omega, hall i w hi⟩

end StoredIn

/-- No call of a reached section is refused, the empty one behind whole blocks included. -/
theorem Section.Reached.not_refused {s : Section} (h : s.Reached) {core : Byte} {c : Call}
    (hc : c ∈ s.calls core) : ¬ c.Refused := by
  rw [Section.calls_eq] at hc
  obtain ⟨i, -, rfl⟩ := List.mem_map.mp hc
  by_cases hi : 64 * i < s.data.length
  · rw [Section.call_refused core s hi]
    exact Section.reached_iff.mp h i hi
  · intro hr
    apply hr.1
    have hlen := s.length_block i
    rw [Section.call, show (s.block i).length = 0 by omega]
    rfl

/-- **When the result is true**: exactly if every section of the table starts on a word boundary, no
block of it is refused, and it ends inside the recorded length of its window. -/
theorem truthful_iff (bar : PcieBarReg) (t : BootTable) (rest : List Byte) (core : Byte) :
    Truthful bar t rest core ↔ ∀ s ∈ t.sections, s.Aligned ∧ s.Reached ∧ s.EndsIn bar := by
  rw [truthful_iff']
  constructor
  · rintro ⟨hst, href⟩ s hs
    rw [uploadCalls_encode t rest core fun x hx => (hst x hx).size] at href
    refine ⟨(hst s hs).aligned, Section.reached_iff.mpr fun i hi hn => ?_, (hst s hs).endsIn⟩
    refine href (s.call core i) ?_ ((Section.call_refused core s hi).mpr hn)
    rw [List.mem_flatMap]
    refine ⟨s, hs, ?_⟩
    rw [Section.calls_eq]
    exact List.mem_map.mpr ⟨i, List.mem_range.mpr (by omega), rfl⟩
  · intro h
    have hr : ∀ s ∈ t.sections, s.Reached := fun s hs => (h s hs).2.1
    rw [uploadCalls_encode t rest core fun x hx => (hr x hx).size,
      uploadProgram_encode t rest core fun x hx => (hr x hx).size]
    refine ⟨fun s hs => ?_, fun c hc => ?_⟩
    · obtain ⟨ha, hb, he⟩ := h s hs
      refine he.storedIn ha hb.1 fun i w hi => ?_
      exact List.mem_append_left _ ((mem_callStores_calls hr).mpr ⟨s, hs, i, w, hi, rfl⟩)
    · obtain ⟨s, hs, hc⟩ := List.mem_flatMap.mp hc
      exact (hr s hs).not_refused hc

/-- One word just below the L2 memory of core 0. -/
def lowTable : BootTable where
  entry := 0x00800000
  sections := [.word 0x007FFFFC 0x12345678]

/-- The only block is refused and nothing but the magic word is stored, and the result is 0. -/
theorem lowTable_upload :
    uploadProgram (lowTable.encode ++ []) 0 = ⟨[(magicLoc, 0x00800000)], .ok (0, [])⟩ := by
  rw [uploadProgram_encode lowTable [] 0 (by decide)]
  rfl

theorem lowTable_not_truthful : ¬ Truthful c6678Bar lowTable [] 0 := by
  rintro ⟨-, h⟩
  have hret : MayReturn (uploadProgram (lowTable.encode ++ []) 0) 0 := by
    rw [lowTable_upload]; rfl
  refine h ⟨⟨0, 0x007FFFFC, [0x12345678], 4⟩, ?_, by decide, rfl⟩ 0 hret rfl
  rw [uploadCalls_encode lowTable [] 0 (by decide)]
  exact List.mem_singleton.mpr rfl

/-- The word behind the DDR window is stored past its recorded length, and the result is 0. -/
theorem farTable_not_truthful : ¬ Truthful c6678Bar farTable [] 0 := by
  rintro ⟨h, -⟩
  have hret : MayReturn (uploadProgram (farTable.encode ++ []) 0) 0 := by
    rw [farTable_upload]; rfl
  exact absurd (h hret _ List.mem_cons_self).endsIn (by decide)

end Dspc
