import DspcDriver.Upload.Run

/-!
# The framing of any image

The section loop takes the words of an image as they come, also those of an image that is no table,
or whose size words are not the sizes of its sections. `frames` is what it makes of the words behind
the entry word: the sections in order, the last one cut off if the image ends in it, and whether a
zero size word ends the loop.

`words` splits the bytes of an image into whole words and at most three bytes
(`encodeWords_words`). `uploadCalls_frames` says that the calls of an upload are those of the frames,
for any image.
-/

namespace Dspc

open Lib

/-- The whole words of `p`, big-endian. -/
def words : List Byte → List Word
  | b :: b₁ :: b₂ :: b₃ :: p => (b ++ b₁ ++ b₂ ++ b₃) :: words p
  | _ => []

/-- A section that the code frames: its start address and its words, which are all of them if it is
`whole`. -/
structure Frame where
  start : Word
  data : List Word
  whole : Bool

/-- The sections that the code frames in the words `ws`, the first of which is a size word, and
whether the loop comes to its end. -/
def frames : List Word → List Frame × Bool
  | [] => ([], false)
  | [size] => ([], size == 0)
  | size :: start :: ws =>
    if size = 0 then ([], true)
    else if (adjustSize size).toNat / 4 ≤ ws.length then
      let r := frames (ws.drop ((adjustSize size).toNat / 4))
      (⟨start, ws.take ((adjustSize size).toNat / 4), true⟩ :: r.1, r.2)
    else ([⟨start, ws, false⟩], false)
  termination_by ws => ws.length
  decreasing_by simp only [List.length_drop, List.length_cons]; omega

/-- A zero size word ends the framing. -/
theorem frames_zero (ws : List Word) : frames (0 :: ws) = ([], true) := by
  cases ws with
  | nil => rw [frames]; rfl
  | cons start ws => rw [frames, if_pos rfl]

/-- The calls of `writeDSPMemory` for a frame: the remainder of one that is not whole has none. -/
def Frame.calls (core : Byte) (f : Frame) : List Call :=
  let calls := blockCalls ((sectionCore core f.start).setWidth 32) (f.data.length / 64) f.start f.data
  if f.whole then calls else calls.dropLast

theorem blockCalls_ne_nil (c : Word) (n : Nat) (a : Word) (ws : List Word) :
    blockCalls c n a ws ≠ [] := by
  cases n <;> exact List.cons_ne_nil _ _

/-! ## The words of an image -/

open BitVec in
theorem wordBytes_append (b b₁ b₂ b₃ : Byte) :
    wordBytes (b ++ b₁ ++ b₂ ++ b₃) = [b, b₁, b₂, b₃] := by
  have h (w : BitVec (8 + 8 + 8 + 8)) : wordBytes w =
      [w.extractLsb' 24 8, w.extractLsb' 16 8, w.extractLsb' 8 8, w.extractLsb' 0 8] := rfl
  rw [h, extractLsb'_append_eq_right]
  -- the bytes behind each one are cut off
  iterate 5 rw [extractLsb'_append_eq_of_le (by decide)]
  simp only [Nat.reduceSub, extractLsb'_append_eq_right, extractLsb'_eq_self]
  rw [extractLsb'_append_eq_of_le (by decide), extractLsb'_append_eq_right]

/-- An image is its whole words and at most three bytes. -/
theorem encodeWords_words (p : List Byte) :
    ∃ r, r.length < 4 ∧ p = encodeWords (words p) ++ r := by
  induction p using words.induct with
  | case1 b b₁ b₂ b₃ p ih =>
    obtain ⟨r, hr, hp⟩ := ih
    refine ⟨r, hr, ?_⟩
    rw [words, encodeWords_cons, wordBytes_append, List.append_assoc, ← hp]
    rfl
  | case2 p h =>
    rcases p with _ | ⟨b, _ | ⟨b₁, _ | ⟨b₂, _ | ⟨b₃, p⟩⟩⟩⟩
    · exact ⟨_, by decide, rfl⟩
    · exact ⟨[b], (by decide : 1 < 4), rfl⟩
    · exact ⟨[b, b₁], (by decide : 2 < 4), rfl⟩
    · exact ⟨[b, b₁, b₂], (by decide : 3 < 4), rfl⟩
    · exact (h _ _ _ _ _ rfl).elim

section Short

variable {r : List Byte} (hr : r.length < 4)

include hr

theorem readWord_short : (readWord r : UploadM Call _) = ⟨[], .error .overrun⟩ := by
  rcases r with _ | ⟨b, _ | ⟨b₁, _ | ⟨b₂, _ | ⟨b₃, r⟩⟩⟩⟩
  · rfl
  · rfl
  · rfl
  · rfl
  · simp only [List.length_cons] at hr
    omega

/-- A read of more words than there are. -/
theorem readWords_short {n : Nat} {ws : List Word} (h : ws.length < n) :
    (readWords n (encodeWords ws ++ r) : UploadM Call _) = ⟨[], .error .overrun⟩ := by
  induction ws generalizing n with
  | nil =>
    obtain ⟨n, rfl⟩ := Nat.exists_eq_succ_of_ne_zero (Nat.ne_zero_of_lt h)
    rw [readWords, encodeWords_nil, List.nil_append, readWord_short hr]
    rfl
  | cons w ws ih =>
    obtain ⟨n, rfl⟩ := Nat.exists_eq_succ_of_ne_zero (Nat.ne_zero_of_lt h)
    have hn := ih (n := n) (by simpa using h)
    rw [readWords, encodeWords_cons, List.append_assoc, readWord_wordBytes]
    simp only [Trace.mk_ok_bind, hn, Trace.mk_error_bind, List.append_nil]

/-- Blocks of which the image has only some: the calls of those, and the read past the end. -/
theorem blockLoop_short {core : Byte} {n : Nat} {a : Word} {ws : List Word}
    (h : ws.length < 64 * n) :
    blockLoop record core n a (encodeWords ws ++ r) =
      ⟨(blockCalls (core.setWidth 32) (ws.length / 64) a ws).dropLast, .error .overrun⟩ := by
  induction n generalizing a ws with
  | zero => omega
  | succ n ih =>
    rw [blockLoop]
    by_cases hlt : ws.length < 64
    · rw [readWords_short hr (show ws.length < (BLOCK_TRANSFER_SIZE / 4).toNat from hlt),
        Nat.div_eq_of_lt hlt]
      rfl
    · have hread : (readWords (BLOCK_TRANSFER_SIZE / 4).toNat (encodeWords ws ++ r) :
          UploadM Call _) = ⟨[], .ok (ws.take 64, encodeWords (ws.drop 64) ++ r)⟩ :=
        readWords_take (show 64 ≤ ws.length by omega) r
      have hdiv : ws.length / 64 = (ws.drop 64).length / 64 + 1 := by
        rw [List.length_drop]; omega
      have hi : blockLoop record core n (a + BLOCK_TRANSFER_SIZE) (encodeWords (ws.drop 64) ++ r) = _ :=
        ih (by rw [List.length_drop]; omega)
      rw [hread, hdiv, blockCalls, List.dropLast_cons_of_ne_nil (blockCalls_ne_nil _ _ _ _)]
      simp only [Trace.mk_ok_bind, record, Trace.emit, Trace.pure_def, List.nil_append, hi,
        List.singleton_append]

/-- A pass over a section that the image ends in. -/
theorem sectionPass_short {core : Byte} {size start : Word} {ws : List Word}
    (h : ws.length < (adjustSize size).toNat / 4) :
    sectionPass record core size (wordBytes start ++ (encodeWords ws ++ r)) =
      ⟨Frame.calls core ⟨start, ws, false⟩, .error .overrun⟩ := by
  have hcount : (adjustSize size / BLOCK_TRANSFER_SIZE).toNat = (adjustSize size).toNat / 256 := by
    rw [BitVec.toNat_udiv]
    rfl
  rw [sectionPass, readWord_wordBytes]
  by_cases hlt : ws.length < 64 * ((adjustSize size).toNat / 256)
  · simp only [Trace.mk_ok_bind, hcount, blockLoop_short hr hlt, Trace.mk_error_bind]
    rfl
  · -- all full blocks are there, but not the remainder
    obtain ⟨ks, hk, hb⟩ := blockLoop_encodeWords (sectionCore core start)
      ((adjustSize size).toNat / 256) start ws r (by omega)
    have hdiv : ws.length / 64 = (adjustSize size).toNat / 256 := by omega
    have hrem : (ws.drop (64 * ((adjustSize size).toNat / 256))).length <
        ((adjustSize size - adjustSize size / BLOCK_TRANSFER_SIZE * BLOCK_TRANSFER_SIZE) / 4).toNat := by
      rw [BitVec.toNat_udiv, toNat_remainder, List.length_drop, show (4 : Word).toNat = 4 from rfl]
      omega
    simp only [Trace.mk_ok_bind, hcount, hk, readWords_short hr hrem, Trace.mk_error_bind,
      Frame.calls, hdiv, hb, blockCalls, List.dropLast_concat]
    simp

/-- One pass of the section loop, over the words of any image: a whole section and the read of the
next size word, or what there is of one that the image ends in. -/
theorem sectionPass_frame (core : Byte) (size start : Word) (ws : List Word) :
    sectionPass record core size (encodeWords (start :: ws) ++ r) =
      if (adjustSize size).toNat / 4 ≤ ws.length then
        ⟨Frame.calls core ⟨start, ws.take ((adjustSize size).toNat / 4), true⟩,
          (readWord (encodeWords (ws.drop ((adjustSize size).toNat / 4)) ++ r) : UploadM Call _).out⟩
      else ⟨Frame.calls core ⟨start, ws, false⟩, .error .overrun⟩ := by
  rw [encodeWords_cons, List.append_assoc]
  by_cases hn : (adjustSize size).toNat / 4 ≤ ws.length
  · have hlen : (ws.take ((adjustSize size).toNat / 4)).length = (adjustSize size).toNat / 4 := by
      rw [List.length_take]; omega
    have hd := adjustSize_dvd size
    rw [if_pos hn]
    conv_lhs => rw [← List.take_append_drop ((adjustSize size).toNat / 4) ws, encodeWords_append,
      List.append_assoc]
    rw [sectionPass_words core size start _ _ (by omega)]
    rfl
  · rw [if_neg hn, sectionPass_short hr (by omega)]

end Short

/-! ## The calls of any image -/

/-- The section loop behind the size word `size`. -/
theorem sectionLoop_frames (core : Byte) {fuel : Nat} (size : Word) {ws : List Word} {r : List Byte}
    (hr : r.length < 4) (hf : ws.length ≤ fuel) :
    (sectionLoop record core fuel size (encodeWords ws ++ r)).events =
        (frames (size :: ws)).1.flatMap (Frame.calls core) ∧
      (sectionLoop record core fuel size (encodeWords ws ++ r)).out.isOk =
        (frames (size :: ws)).2 := by
  induction fuel generalizing size ws with
  | zero =>
    obtain rfl : ws = [] := List.length_eq_zero_iff.mp (by omega)
    by_cases h0 : size = 0
    · rw [h0, sectionLoop_zero, frames_zero]
      exact ⟨rfl, rfl⟩
    · rw [sectionLoop, frames, if_neg h0, beq_eq_false_iff_ne.mpr h0]
      exact ⟨rfl, rfl⟩
  | succ fuel ih =>
    by_cases h0 : size = 0
    · rw [h0, sectionLoop_zero, frames_zero]
      exact ⟨rfl, rfl⟩
    · rw [sectionLoop_succ h0]
      cases ws with
      | nil =>
        rw [frames, beq_eq_false_iff_ne.mpr h0, encodeWords_nil, List.nil_append, sectionPass,
          readWord_short hr]
        exact ⟨rfl, rfl⟩
      | cons start ws =>
        rw [frames, if_neg h0, sectionPass_frame hr]
        by_cases hn : (adjustSize size).toNat / 4 ≤ ws.length
        · rw [if_pos hn, if_pos hn]
          cases hw : ws.drop ((adjustSize size).toNat / 4) with
          | nil =>
            rw [encodeWords_nil, List.nil_append, readWord_short hr, frames]
            exact ⟨by simp, rfl⟩
          | cons next ws' =>
            have hle : ws'.length ≤ fuel := by
              have h1 := congrArg List.length hw
              rw [List.length_drop, List.length_cons] at h1
              rw [List.length_cons] at hf
              omega
            obtain ⟨h1, h2⟩ := ih next hle
            rw [encodeWords_cons, List.append_assoc, readWord_wordBytes, Trace.mk_ok_bind]
            refine ⟨?_, h2⟩
            rw [List.flatMap_cons]
            exact congrArg₂ _ rfl h1
        · rw [if_neg hn, if_neg hn, Trace.mk_error_bind]
          exact ⟨by simp, rfl⟩

/-- **The calls of an upload are those of its frames**, for any image. -/
theorem uploadCalls_frames (image : List Byte) (core : Byte) :
    (uploadCalls image core).events = (frames (words image).tail).1.flatMap (Frame.calls core) ∧
      (uploadCalls image core).out.isOk = (frames (words image).tail).2 := by
  obtain ⟨r, hr, himg⟩ := encodeWords_words image
  have hlen : (words image).length ≤ image.length := by
    have h1 := congrArg List.length himg
    have h2 := length_encodeWords (words image)
    rw [List.length_append] at h1
    omega
  unfold uploadCalls uploadSections
  generalize image.length = fuel at hlen
  generalize words image = ws at himg hlen ⊢
  subst himg
  rcases ws with _ | ⟨entry, _ | ⟨size, ws⟩⟩
  · rw [encodeWords_nil, List.nil_append, readWord_short hr, List.tail_nil, frames]
    exact ⟨rfl, rfl⟩
  · rw [encodeWords_cons, List.append_assoc, readWord_wordBytes, Trace.mk_ok_bind]
    simp only [encodeWords_nil, List.nil_append, readWord_short hr, Trace.mk_error_bind,
      List.tail_cons, frames]
    exact ⟨rfl, rfl⟩
  · have hloop : _ ∧ _ := sectionLoop_frames core size hr
      (show ws.length ≤ fuel by simp only [List.length_cons] at hlen; omega)
    rw [encodeWords_cons, List.append_assoc, readWord_wordBytes, encodeWords_cons, List.append_assoc,
      List.tail_cons, ← hloop.1, ← hloop.2]
    simp only [Trace.mk_ok_bind, readWord_wordBytes, List.nil_append]
    rcases sectionLoop record core fuel size (encodeWords ws ++ r) with ⟨ks, e | p⟩
    · exact ⟨rfl, rfl⟩
    · exact ⟨List.append_nil _, rfl⟩

end Dspc
