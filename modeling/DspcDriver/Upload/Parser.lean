import DspcDriver.Upload.Framing
import Mathlib.Order.Bounds.Basic

/-!
# The parser on arbitrary bytes

`uploadProgram` takes no length. On an array of bytes it ends at a zero size word or reads past the end,
and never runs on (`uploadProgram_ends`). `LoopAt` are the places that the section loop comes to.

* `uploadProgram_parses`: it reads only the array exactly if a whole table is at its start, and from
  each size word goes to where the format has the next one, for sizes that the rounding does not wrap.
* `parserSafe_iff`: all of that for an array, exactly if it starts with a table of such sizes.
-/

namespace Dspc

open Lib

/-- The section loop comes to the size word `size`, with the cursor behind it. -/
inductive LoopAt (image : List Byte) (coreNum : Byte) : Word → List Byte → Prop
  | start {size : Word} : byteTo32bits (image.drop 4) = some size →
      LoopAt image coreNum size (image.drop 8)
  | next {size size' : Word} {p p' : List Byte} : LoopAt image coreNum size p → size ≠ 0 →
      (sectionPass writeDSPMemory coreNum size p).out = .ok (size', p') →
      LoopAt image coreNum size' p'

/-- From the cursor `p` behind the size word `size`, the next size word is read behind the start address
and the least number of whole words that has `size` bytes. -/
def Advances (size : Word) (p : List Byte) (size' : Word) (p' : List Byte) : Prop :=
  ∃ n, IsLeast {n | 4 ∣ n ∧ size.toNat ≤ n} n ∧
    byteTo32bits (p.drop (4 + n)) = some size' ∧ p' = p.drop (4 + n + 4)

/-- `uploadProgram` reads only the bytes of `image`, its loop ends, and each pass goes over the section
as the format has it. -/
structure ParserSafe (image : List Byte) (coreNum : Byte) : Prop where
  inBounds : (uploadProgram image coreNum).out ≠ .error .overrun
  ends : (uploadProgram image coreNum).out ≠ .error .fuel
  advances : ∀ size p size' p', LoopAt image coreNum size p → size ≠ 0 →
    (sectionPass writeDSPMemory coreNum size p).out = .ok (size', p') → Advances size p size' p'

/-- The sizes of a table that rounding up to whole words does not wrap. -/
def BootTable.NoWrap (t : BootTable) : Prop := ∀ s ∈ t.sections, s.size.toNat + 3 < 2 ^ 32

/-! ## One pass -/

/-- A read gives the word at the cursor, or is past the end. -/
theorem readWord_cases (p : List Byte) : (readWord p : UploadM Call _) = ⟨[], .error .overrun⟩ ∨
    ∃ w p', p = wordBytes w ++ p' ∧ (readWord p : UploadM Call _) = ⟨[], .ok (w, p')⟩ := by
  obtain ⟨r, hr, hp⟩ := encodeWords_words p
  cases hw : words p with
  | nil =>
    rw [hw, encodeWords_nil, List.nil_append] at hp
    exact .inl (hp ▸ readWord_short hr)
  | cons w ws =>
    rw [hw, encodeWords_cons, List.append_assoc] at hp
    exact .inr ⟨w, _, hp, hp ▸ readWord_wordBytes w _⟩

/-- A pass has read the start address, as many words as the code takes for `size`, and the next size
word; or it is past the end. -/
theorem sectionPass_cases (core : Byte) (size : Word) (p : List Byte) :
    (sectionPass record core size p).out = .error .overrun ∨
    ∃ start data size' p', (adjustSize size).toNat = 4 * data.length ∧
      p = wordBytes start ++ (encodeWords data ++ (wordBytes size' ++ p')) ∧
      (sectionPass record core size p).out = .ok (size', p') := by
  obtain ⟨r, hr, hp⟩ := encodeWords_words p
  have hd := adjustSize_dvd size
  generalize words p = ws at hp
  subst hp
  cases ws with
  | nil =>
    rw [encodeWords_nil, List.nil_append, sectionPass, readWord_short hr]
    exact .inl rfl
  | cons start ws =>
    rw [sectionPass_frame hr]
    by_cases hn : (adjustSize size).toNat / 4 ≤ ws.length
    · rw [if_pos hn]
      rcases readWord_cases (encodeWords (ws.drop ((adjustSize size).toNat / 4)) ++ r) with
        hq | ⟨size', p', hq, hread⟩
      · exact .inl (by rw [hq])
      · refine .inr ⟨start, ws.take ((adjustSize size).toNat / 4), size', p', ?_, ?_, by rw [hread]⟩
        · rw [List.length_take]
          omega
        · rw [← hq, ← List.append_assoc (encodeWords (ws.take _)), ← encodeWords_append,
            List.take_append_drop, encodeWords_cons, List.append_assoc]
    · exact .inl (by rw [if_neg hn])

/-- Where a pass goes does not depend on what is done with the words. -/
theorem sectionPass_out (core : Byte) (size : Word) (p : List Byte) :
    (sectionPass writeDSPMemory core size p).out = (sectionPass record core size p).out := by
  rw [← sectionPass_replay writeDSPMemory_total]
  rfl

/-- What `sectionPass_cases` says of a pass that does not stop. -/
theorem sectionPass_ok {core : Byte} {size size' : Word} {p p' : List Byte}
    (h : (sectionPass record core size p).out = .ok (size', p')) :
    ∃ start data, (adjustSize size).toNat = 4 * data.length ∧
      p = wordBytes start ++ (encodeWords data ++ (wordBytes size' ++ p')) := by
  obtain hs | ⟨start, data, size₁, p₁, hlen, hp, hout⟩ := sectionPass_cases core size p
  · rw [hs] at h
    cases h
  · rw [hout] at h
    cases h
    exact ⟨start, data, hlen, hp⟩

theorem le_length_of_byteTo32bits {p : List Byte} {w : Word} (h : byteTo32bits p = some w) :
    4 ≤ p.length := by
  unfold byteTo32bits at h
  split at h
  · simp
  · cases h

theorem isLeast_words (n : Nat) : IsLeast {m | 4 ∣ m ∧ n ≤ m} (4 * ((n + 3) / 4)) := by
  refine ⟨⟨Nat.dvd_mul_right _ _, by omega⟩, ?_⟩
  rintro m ⟨⟨k, rfl⟩, hm⟩
  omega

/-- A pass over `data` advances as the format has it exactly if `data` is the section's. -/
theorem advances_iff {size start size' : Word} {data : List Word} {p' : List Byte} :
    Advances size (wordBytes start ++ (encodeWords data ++ (wordBytes size' ++ p'))) size' p' ↔
      data.length = (size.toNat + 3) / 4 := by
  have hlen := length_encodeWords data
  constructor
  · rintro ⟨n, hn, hread, hp'⟩
    obtain rfl := hn.unique (isLeast_words size.toNat)
    have h4 := le_length_of_byteTo32bits hread
    have hl := congrArg List.length hp'
    simp only [List.length_drop, List.length_append, length_wordBytes, hlen] at h4 hl
    omega
  · intro hd
    refine ⟨4 * data.length, hd ▸ isLeast_words size.toNat, ?_, ?_⟩
    · rw [← List.append_assoc, List.drop_left' (by simp [hlen]), byteTo32bits_wordBytes]
    · rw [← List.append_assoc, ← List.append_assoc, List.drop_left' (by simp [hlen]; omega)]

/-- A pass over a section whose size the rounding does not wrap. -/
theorem advances_of_le {core : Byte} {size size' : Word} {p p' : List Byte}
    (hs : size.toNat + 3 < 2 ^ 32)
    (h : (sectionPass writeDSPMemory core size p).out = .ok (size', p')) : Advances size p size' p' := by
  rw [sectionPass_out] at h
  obtain ⟨start, data, hlen, rfl⟩ := sectionPass_ok h
  rw [toNat_adjustSize hs] at hlen
  exact advances_iff.mpr (by omega)

/-! ## The loop -/

/-- A pass takes at least the start address and the next size word, so the loop ends before the fuel
does. -/
theorem sectionLoop_ends (core : Byte) (fuel : Nat) (size : Word) {p : List Byte}
    (hf : p.length < fuel) : (sectionLoop record core fuel size p).out ≠ .error .fuel := by
  induction fuel generalizing size p with
  | zero => omega
  | succ fuel ih =>
    by_cases h0 : size = 0
    · rw [h0, sectionLoop_zero]
      rintro ⟨⟩
    · rw [sectionLoop_succ h0]
      rcases hpass : sectionPass record core size p with ⟨ks, e | ⟨size', p'⟩⟩
      · obtain hs | ⟨_, _, _, _, -, -, hout⟩ := sectionPass_cases core size p
        · rw [hpass] at hs
          cases hs
          rintro ⟨⟩
        · rw [hpass] at hout
          cases hout
      · obtain ⟨start, data, -, hp⟩ := sectionPass_ok (congrArg Trace.out hpass)
        have hlen := congrArg List.length hp
        simp only [List.length_append, length_wordBytes] at hlen
        have hp' : p'.length < fuel := by omega
        exact ih size' hp'

/-- A loop that comes to its end has gone over the sections of a table. -/
theorem sectionLoop_table {image : List Byte} {core : Byte}
    (hadv : ∀ size p size' p', LoopAt image core size p → size ≠ 0 →
      (sectionPass writeDSPMemory core size p).out = .ok (size', p') → Advances size p size' p')
    {fuel : Nat} {size : Word} {p p' : List Byte} (hat : LoopAt image core size p)
    (h : (sectionLoop record core fuel size p).out = .ok p') :
    ∃ ss, headSize ss = size ∧ (∀ s ∈ ss, s.size.toNat + 3 < 2 ^ 32) ∧ p = tailBytes ss ++ p' := by
  induction fuel generalizing size p with
  | zero =>
    by_cases h0 : size = 0
    · subst h0
      cases h
      exact ⟨[], rfl, fun s hs => absurd hs List.not_mem_nil, rfl⟩
    · rw [sectionLoop, if_neg h0] at h
      cases h
  | succ fuel ih =>
    by_cases h0 : size = 0
    · subst h0
      cases h
      exact ⟨[], rfl, fun s hs => absurd hs List.not_mem_nil, rfl⟩
    · rw [sectionLoop_succ h0] at h
      obtain ⟨_, ⟨size₁, p₁⟩, _, hpass, hloop, -⟩ := Trace.bind_ok (Trace.ext rfl h)
      have hout := (sectionPass_out core size p).trans (congrArg Trace.out hpass)
      obtain ⟨ss, rfl, hss, rfl⟩ := ih (.next hat h0 hout) (congrArg Trace.out hloop)
      obtain ⟨start, data, hlen, rfl⟩ := sectionPass_ok (congrArg Trace.out hpass)
      have hd := advances_iff.mp (hadv _ _ _ _ hat h0 hout)
      have hlt := (adjustSize size).isLt
      refine ⟨⟨size, start, data, h0, hd⟩ :: ss, rfl, ?_, ?_⟩
      · intro s hs
        rcases List.mem_cons.mp hs with rfl | hs
        · show size.toNat + 3 < 2 ^ 32
          omega
        · exact hss s hs
      · rw [tailBytes, flatMap_encode]
        simp only [List.append_assoc]

/-! ## A whole run -/

/-- An upload stops where its section loop does. -/
theorem uploadProgram_error_iff {image : List Byte} {core : Byte} {e : UploadStop} :
    (uploadProgram image core).out = .error e ↔ (uploadCalls image core).out = .error e := by
  rw [uploadProgram_eq]
  rcases uploadCalls image core with ⟨ks, e' | ⟨entry, p⟩⟩
  · exact ⟨fun h => by cases h; rfl, fun h => by cases h; rfl⟩
  · exact iff_of_false (by rintro ⟨⟩) (by rintro ⟨⟩)

/-- The loop begins behind the entry word and the first size word, if the array has both. -/
theorem uploadCalls_cases (image : List Byte) (core : Byte) :
    (uploadCalls image core).out = .error .overrun ∨
    ∃ entry size p, image = wordBytes entry ++ (wordBytes size ++ p) ∧
      uploadCalls image core =
        sectionLoop record core image.length size p >>= fun p' => pure (entry, p') := by
  unfold uploadCalls uploadSections
  obtain hi | ⟨entry, q, himg, hi⟩ := readWord_cases image
  · rw [hi]
    exact .inl rfl
  · rw [hi, Trace.mk_ok_bind]
    obtain hq | ⟨size, p, rfl, hq⟩ := readWord_cases q
    · simp only [hq]
      exact .inl rfl
    · simp only [hq]
      exact .inr ⟨entry, size, p, himg, rfl⟩

/-- **The section loop ends**, for any bytes: after at most as many passes as there are bytes. -/
theorem uploadProgram_ends (image : List Byte) (core : Byte) :
    (uploadProgram image core).out ≠ .error .fuel := by
  rw [ne_eq, uploadProgram_error_iff]
  obtain hs | ⟨entry, size, p, himg, hcalls⟩ := uploadCalls_cases image core
  · rw [hs]
    rintro ⟨⟩
  · have hlen := congrArg List.length himg
    simp only [List.length_append, length_wordBytes] at hlen
    have hloop := sectionLoop_ends core image.length size (p := p) (by omega)
    rw [hcalls]
    rcases hrun : sectionLoop record core image.length size p with ⟨ks, e | p'⟩
    · rw [hrun] at hloop
      exact fun h => hloop (by cases h; rfl)
    · rintro ⟨⟩

/-- An array in which the loop only advances as the format has it, and reads nothing behind, starts with
a table. -/
theorem table_of_inBounds {image : List Byte} {core : Byte}
    (hadv : ∀ size p size' p', LoopAt image core size p → size ≠ 0 →
      (sectionPass writeDSPMemory core size p).out = .ok (size', p') → Advances size p size' p')
    (h : (uploadProgram image core).out ≠ .error .overrun) :
    ∃ t : BootTable, t.NoWrap ∧ t.encode <+: image := by
  have hends := uploadProgram_ends image core
  rw [ne_eq, uploadProgram_error_iff] at h hends
  obtain hs | ⟨entry, size, p, himg, hcalls⟩ := uploadCalls_cases image core
  · exact absurd hs h
  · rw [hcalls] at h hends
    have hat : LoopAt image core size p := by
      have h8 : image.drop 8 = p := by rw [himg, ← List.append_assoc]; rfl
      rw [← h8]
      exact .start (by rw [himg, List.drop_left' (length_wordBytes entry), byteTo32bits_wordBytes])
    rcases hrun : sectionLoop record core image.length size p with ⟨ks, (_ | _) | p'⟩
    · rw [hrun] at h
      exact absurd rfl h
    · rw [hrun] at hends
      exact absurd rfl hends
    · obtain ⟨ss, rfl, hss, rfl⟩ := sectionLoop_table hadv hat (congrArg Trace.out hrun)
      refine ⟨⟨entry, ss⟩, hss, p', ?_⟩
      rw [himg, BootTable.encode, flatMap_encode]
      simp only [List.append_assoc]

/-- On a table the loop comes to the size words of its sections, and to the closing one. -/
theorem loopAt_encode {t : BootTable} (ht : t.NoWrap) {rest : List Byte} {core : Byte} {size : Word}
    {p : List Byte} (h : LoopAt (t.encode ++ rest) core size p) :
    ∃ ss, ss <:+ t.sections ∧ size = headSize ss ∧ p = tailBytes ss ++ rest := by
  have himg : t.encode ++ rest =
      wordBytes t.entry ++ (wordBytes (headSize t.sections) ++ (tailBytes t.sections ++ rest)) := by
    rw [BootTable.encode, flatMap_encode]
    simp only [List.append_assoc]
  induction h with
  | start h =>
    rw [himg, List.drop_left' (length_wordBytes t.entry), byteTo32bits_wordBytes] at h
    refine ⟨t.sections, List.suffix_refl _, (Option.some.inj h).symm, ?_⟩
    rw [himg, ← List.append_assoc]
    rfl
  | next _ h0 hpass ih =>
    obtain ⟨ss, hsuf, rfl, rfl⟩ := ih
    cases ss with
    | nil => exact absurd rfl h0
    | cons s ss =>
      have hs := ht s (hsuf.subset List.mem_cons_self)
      have hrun := sectionPass_encode core s (headSize ss) (tailBytes ss ++ rest) hs
      rw [sectionPass_out, headSize, tailBytes, flatMap_encode] at hpass
      simp only [List.append_assoc, hrun] at hpass
      cases hpass
      exact ⟨ss, (List.suffix_cons s ss).trans hsuf, rfl, rfl⟩

theorem inBounds_of_table {image : List Byte} {t : BootTable} (ht : t.NoWrap) (h : t.encode <+: image)
    (core : Byte) : (uploadProgram image core).out ≠ .error .overrun := by
  obtain ⟨rest, rfl⟩ := h
  rw [uploadProgram_encode t rest core ht]
  rintro ⟨⟩

/-- **The parser on any bytes.** It comes to an end. A pass over a section whose size the rounding does
not wrap goes to where the format has the next size word. And where it comes to no other sizes, it reads
only the array exactly if that starts with a table. -/
theorem uploadProgram_parses (image : List Byte) (core : Byte) :
    (uploadProgram image core).out ≠ .error .fuel ∧
    (∀ size p size' p', LoopAt image core size p → size ≠ 0 → size.toNat ≤ 0xFFFFFFFC →
      (sectionPass writeDSPMemory core size p).out = .ok (size', p') → Advances size p size' p') ∧
    ((∀ size p, LoopAt image core size p → size.toNat ≤ 0xFFFFFFFC) →
      ((uploadProgram image core).out ≠ .error .overrun ↔
        ∃ t : BootTable, t.NoWrap ∧ t.encode <+: image)) := by
  refine ⟨uploadProgram_ends image core, fun size p size' p' _ _ hs hpass => ?_, fun hs => ⟨?_, ?_⟩⟩
  · exact advances_of_le (by omega) hpass
  · refine table_of_inBounds fun size p size' p' hat _ hpass => ?_
    have := hs size p hat
    exact advances_of_le (by omega) hpass
  · rintro ⟨t, ht, h⟩
    exact inBounds_of_table ht h core

/-- **When the parser is safe**: exactly on what starts with a table of sizes that do not wrap. -/
theorem parserSafe_iff {image : List Byte} {core : Byte} :
    ParserSafe image core ↔ ∃ t : BootTable, t.NoWrap ∧ t.encode <+: image := by
  constructor
  · intro h
    exact table_of_inBounds h.advances h.inBounds
  · rintro ⟨t, ht, h⟩
    refine ⟨inBounds_of_table ht h core, uploadProgram_ends image core, ?_⟩
    obtain ⟨rest, rfl⟩ := h
    intro size p size' p' hat h0 hpass
    obtain ⟨ss, hsuf, rfl, -⟩ := loopAt_encode ht hat
    cases ss with
    | nil => exact absurd rfl h0
    | cons s ss => exact advances_of_le (ht s (hsuf.subset List.mem_cons_self)) hpass

/-- An array that ends behind a size word. -/
theorem not_parserSafe_truncated : ¬ ParserSafe (wordBytes 0x80000000 ++ wordBytes 4) 0 :=
  fun h => h.inBounds (by decide)

end Dspc
