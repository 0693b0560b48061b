import DspcDriver.Upload.Table

/-!
# The run of an upload

* `uploadSections_replay`: the section loop with any writer does what the recorded calls do, one
  after the other. With it a fact about `uploadProgram` is a fact about its calls.
* `uploadCalls_all`: what every call of the section loop has, for any bytes of the image.
* `uploadCalls_encode`: on the bytes of a table, whatever follows them in memory, the calls are
  those of the sections, and the cursor ends just behind the table.
* `uploadProgram_eq`, `uploadProgram_encode`: the stores are those of the calls, then the boot magic,
  and the value returned is 0.
-/

namespace Dspc

open Lib

variable {ε : Type}

/-! ## The section loop -/

/-- A zero size word ends the loop, whatever the fuel. -/
@[simp] theorem sectionLoop_zero (write : Writer ε) (core : Byte) (fuel : Nat) (p : List Byte) :
    sectionLoop write core fuel 0 p = pure p := by
  cases fuel <;> rfl

theorem sectionLoop_succ {size : Word} (h : size ≠ 0) (write : Writer ε) (core : Byte) (fuel : Nat)
    (p : List Byte) : sectionLoop write core (fuel + 1) size p =
      sectionPass write core size p >>= fun r => sectionLoop write core fuel r.1 r.2 := by
  rw [sectionLoop, if_neg h]

/-! ## The loop and its calls -/

/-- A writer that never stops: it stores, or it refuses, and returns. -/
def Writer.Total (write : Writer ε) : Prop := ∀ c a b l, ∃ r, (write c a b l).out = .ok r

/-- The events of a recorded call. -/
def Writer.events (write : Writer ε) (k : Call) : List ε :=
  (write k.coreNum k.dspMemAddr k.buffer k.length).events

theorem writeDSPMemory_total : Writer.Total writeDSPMemory := by
  intro c a b l
  unfold writeDSPMemory
  split
  · exact ⟨_, rfl⟩
  · split <;> exact ⟨_, rfl⟩

/-- A call whose result is dropped, replayed. -/
theorem Writer.Total.replay_record {β : Type} {write : Writer ε} (hw : write.Total) (c a : Word)
    (b : List Word) (l : Word) (f : UploadM Call β) :
    Trace.replay write.events (record c a b l >>= fun _ => f) =
      write c a b l >>= fun _ => Trace.replay write.events f := by
  obtain ⟨r, hr⟩ := hw c a b l
  rw [Trace.bind_of_out hr, Trace.replay_bind]
  simp only [record, Trace.emit, Trace.replay, Trace.mk_ok_bind, Trace.pure_def,
    List.append_nil, List.flatMap_cons, List.flatMap_nil, Writer.events]

theorem readWord_replay (write : Writer ε) (p : List Byte) :
    Trace.replay write.events (readWord p) = readWord p := by
  unfold readWord; split <;> rfl

theorem readWords_replay (write : Writer ε) (n : Nat) (p : List Byte) :
    Trace.replay write.events (readWords n p) = readWords n p := by
  induction n generalizing p with
  | zero => rfl
  | succ n ih =>
    simp only [readWords, Trace.replay_bind, readWord_replay, ih, Trace.replay_pure]

theorem blockLoop_replay {write : Writer ε} (hw : write.Total) (core : Byte) (n : Nat) (a : Word)
    (p : List Byte) :
    Trace.replay write.events (blockLoop record core n a p) = blockLoop write core n a p := by
  induction n generalizing a p with
  | zero => rfl
  | succ n ih =>
    simp only [blockLoop, Trace.replay_bind write.events (readWords _ _), readWords_replay,
      hw.replay_record, ih]

theorem sectionPass_replay {write : Writer ε} (hw : write.Total) (core : Byte) (size : Word)
    (p : List Byte) :
    Trace.replay write.events (sectionPass record core size p) = sectionPass write core size p := by
  simp only [sectionPass, Trace.replay_bind write.events (readWord _),
    Trace.replay_bind write.events (readWords _ _), Trace.replay_bind write.events (blockLoop _ _ _ _ _),
    readWord_replay, readWords_replay, blockLoop_replay hw, hw.replay_record]

theorem sectionLoop_replay {write : Writer ε} (hw : write.Total) (core : Byte) (fuel : Nat)
    (size : Word) (p : List Byte) :
    Trace.replay write.events (sectionLoop record core fuel size p) =
      sectionLoop write core fuel size p := by
  induction fuel generalizing size p with
  | zero => unfold sectionLoop; split <;> rfl
  | succ fuel ih =>
    unfold sectionLoop
    split
    · rfl
    · simp only [Trace.replay_bind, sectionPass_replay hw, ih]

/-- **The section loop does what its recorded calls do**, and stops where they stop. -/
theorem uploadSections_replay {write : Writer ε} (hw : write.Total) (image : List Byte)
    (core : Byte) :
    uploadSections write image core = Trace.replay write.events (uploadCalls image core) := by
  simp only [uploadCalls, uploadSections, Trace.replay_bind, readWord_replay, sectionLoop_replay hw,
    Trace.replay_pure]

/-! ## The stores of an upload -/

/-- The word that starts core 0: `MAGIC_ADDR` in the L2 window. -/
def magicLoc : Loc := ⟨.mem, 0x1FFFF⟩

theorem magicLoc_end : 4 * magicLoc.index + 4 = 0x80000 := by
  simp only [magicLoc, Nat.reduceMul, Nat.reduceAdd]

theorem writeDSPMemory_magic (entry : Word) :
    writeDSPMemory 0 MAGIC_ADDR [entry] 4 = ⟨[(magicLoc, entry)], .ok 4⟩ := rfl

/-- The stores of the calls `ks`. -/
def callStores (ks : List Call) : List Store := ks.flatMap fun k => k.run.events

/-- `uploadProgram` is its calls, then the store of the boot magic; once the loop has ended it
returns 0. -/
theorem uploadProgram_eq (image : List Byte) (core : Byte) :
    uploadProgram image core =
      match (uploadCalls image core).out with
      | .ok (entry, p) =>
        ⟨callStores (uploadCalls image core).events ++ [(magicLoc, entry)], .ok (0, p)⟩
      | .error e => ⟨callStores (uploadCalls image core).events, .error e⟩ := by
  rw [uploadProgram, uploadSections_replay writeDSPMemory_total]
  rcases uploadCalls image core with ⟨ks, e | ⟨entry, p⟩⟩
  · rfl
  · simp only [Trace.replay, Trace.mk_ok_bind, writeDSPMemory_magic]
    rfl

/-! ## The calls of any run -/

/-- The remainder of a section is less than a block. -/
theorem toNat_remainder (w : Word) :
    (w - w / BLOCK_TRANSFER_SIZE * BLOCK_TRANSFER_SIZE).toNat = w.toNat % 256 := by
  have hd : (w / BLOCK_TRANSFER_SIZE).toNat = w.toNat / 256 := BitVec.toNat_udiv
  have hm : (w / BLOCK_TRANSFER_SIZE * BLOCK_TRANSFER_SIZE).toNat = w.toNat / 256 * 256 := by
    have := w.isLt
    rw [BitVec.toNat_mul, hd, show BLOCK_TRANSFER_SIZE.toNat = 256 from rfl, Nat.mod_eq_of_lt (by omega)]
  rw [BitVec.toNat_sub_of_le (by rw [BitVec.le_def]; omega), hm]
  omega

theorem readWord_all (P : Call → Prop) (p : List Byte) : Trace.All P (readWord p) := by
  unfold readWord
  split
  · exact Trace.All.pure _
  · exact Trace.All.stop _

theorem readWords_all (P : Call → Prop) (n : Nat) (p : List Byte) :
    Trace.All P (readWords n p) := by
  induction n generalizing p with
  | zero => exact Trace.All.pure _
  | succ n ih =>
    exact (readWord_all P p).bind fun _ _ => (ih _).bind fun _ _ => Trace.All.pure _

theorem length_readWords {n : Nat} {p : List Byte} {r : List Word × List Byte}
    (h : (readWords n p : UploadM Call _).out = .ok r) : r.1.length = n := by
  induction n generalizing p r with
  | zero => cases h; rfl
  | succ n ih =>
    obtain ⟨_, ⟨w, p'⟩, _, -, h2, -⟩ := Trace.bind_ok (Trace.ext rfl h)
    obtain ⟨_, ⟨ws, p''⟩, _, h3, h4, -⟩ := Trace.bind_ok h2
    cases h4
    rw [List.length_cons, ih (congrArg Trace.out h3)]

section Calls

variable {P : Call → Prop}
  (h : ∀ c : Call, c.length.toNat ≤ 256 → c.buffer.length = c.length.toNat / 4 → P c)

include h

theorem record_all {core a : Word} {ws : List Word} {l : Word} (hl : l.toNat ≤ 256)
    (hw : ws.length = l.toNat / 4) : Trace.All P (record core a ws l) :=
  (Trace.All.emit (h ⟨core, a, ws, l⟩ hl hw)).bind fun _ _ => Trace.All.pure _

theorem blockLoop_all (core : Byte) (n : Nat) (a : Word) (p : List Byte) :
    Trace.All P (blockLoop record core n a p) := by
  induction n generalizing a p with
  | zero => exact Trace.All.pure _
  | succ n ih =>
    exact (readWords_all P _ p).bind fun _ hr =>
      (record_all h (by decide) (length_readWords hr)).bind fun _ _ => ih _ _

theorem sectionPass_all (core : Byte) (size : Word) (p : List Byte) :
    Trace.All P (sectionPass record core size p) := by
  refine (readWord_all P _).bind fun _ _ => (blockLoop_all h _ _ _ _).bind fun _ _ =>
    (readWords_all P _ _).bind fun _ hr => (record_all h ?_ ?_).bind fun _ _ => readWord_all P _
  · rw [toNat_remainder]
    omega
  · rw [length_readWords hr]
    exact BitVec.toNat_udiv

theorem sectionLoop_all (core : Byte) (fuel : Nat) (size : Word) (p : List Byte) :
    Trace.All P (sectionLoop record core fuel size p) := by
  induction fuel generalizing size p with
  | zero =>
    unfold sectionLoop
    split
    · exact Trace.All.pure _
    · exact Trace.All.stop _
  | succ fuel ih =>
    unfold sectionLoop
    split
    · exact Trace.All.pure _
    · exact (sectionPass_all h core size p).bind fun _ _ => ih _ _

/-- **A call of the section loop has at most 256 bytes and the words for them**, for any image. -/
theorem uploadCalls_all (image : List Byte) (core : Byte) : Trace.All P (uploadCalls image core) :=
  (readWord_all P _).bind fun _ _ => (readWord_all P _).bind fun _ _ =>
    (sectionLoop_all h _ _ _ _).bind fun _ _ => Trace.All.pure _

end Calls

/-! ## The calls on a well-formed table -/

theorem readWord_wordBytes (w : Word) (rest : List Byte) :
    (readWord (wordBytes w ++ rest) : UploadM ε _) = ⟨[], .ok (w, rest)⟩ := by
  unfold readWord
  rw [byteTo32bits_wordBytes, List.drop_left' (length_wordBytes w)]
  rfl

theorem readWords_encodeWords (ws : List Word) (rest : List Byte) :
    (readWords ws.length (encodeWords ws ++ rest) : UploadM ε _) = ⟨[], .ok (ws, rest)⟩ := by
  induction ws with
  | nil => rfl
  | cons w ws ih =>
    rw [List.length_cons, readWords, encodeWords_cons, List.append_assoc, readWord_wordBytes]
    simp only [Trace.mk_ok_bind, ih, Trace.pure_def, List.append_nil]

/-- A read of as many words as there are, or fewer. -/
theorem readWords_take {n : Nat} {ws : List Word} (h : n ≤ ws.length) (rest : List Byte) :
    (readWords n (encodeWords ws ++ rest) : UploadM ε _) =
      ⟨[], .ok (ws.take n, encodeWords (ws.drop n) ++ rest)⟩ := by
  have hn : (ws.take n).length = n := by rw [List.length_take]; omega
  have hr := readWords_encodeWords (ε := ε) (ws.take n) (encodeWords (ws.drop n) ++ rest)
  rwa [hn, ← List.append_assoc, ← encodeWords_append, List.take_append_drop] at hr

/-- The full blocks: the calls of `n` blocks, and the cursor behind their words. -/
theorem blockLoop_encodeWords (core : Byte) (n : Nat) (a : Word) (ws : List Word)
    (rest : List Byte) (h : 64 * n ≤ ws.length) :
    ∃ ks, blockLoop record core n a (encodeWords ws ++ rest) =
        ⟨ks, .ok (a + BitVec.ofNat 32 (256 * n), encodeWords (ws.drop (64 * n)) ++ rest)⟩ ∧
      blockCalls (core.setWidth 32) n a ws =
        ks ++ blockCalls (core.setWidth 32) 0 (a + BitVec.ofNat 32 (256 * n)) (ws.drop (64 * n)) := by
  induction n generalizing a ws with
  | zero => exact ⟨[], by simp [blockLoop, Trace.pure_def], by simp⟩
  | succ n ih =>
    obtain ⟨ks, hk, hb⟩ := ih (a + BLOCK_TRANSFER_SIZE) (ws.drop 64) (by rw [List.length_drop]; omega)
    have ha : a + BLOCK_TRANSFER_SIZE + BitVec.ofNat 32 (256 * n) =
        a + BitVec.ofNat 32 (256 * (n + 1)) := by
      rw [BitVec.add_assoc, show BLOCK_TRANSFER_SIZE = BitVec.ofNat 32 256 from rfl,
        ← BitVec.ofNat_add, show 256 + 256 * n = 256 * (n + 1) by omega]
    have hd : (ws.drop 64).drop (64 * n) = ws.drop (64 * (n + 1)) := by
      rw [List.drop_drop, show 64 + 64 * n = 64 * (n + 1) by omega]
    have hread : (readWords (BLOCK_TRANSFER_SIZE / 4).toNat (encodeWords ws ++ rest) :
        UploadM Call _) = ⟨[], .ok (ws.take 64, encodeWords (ws.drop 64) ++ rest)⟩ :=
      readWords_take (show 64 ≤ ws.length by omega) rest
    rw [ha, hd] at hk hb
    refine ⟨⟨core.setWidth 32, a, ws.take 64, BLOCK_TRANSFER_SIZE⟩ :: ks, ?_, ?_⟩
    · rw [blockLoop, hread]
      simp only [Trace.mk_ok_bind, record, Trace.emit, Trace.pure_def, hk, List.nil_append,
        List.singleton_append, List.append_nil]
    · show _ :: blockCalls (core.setWidth 32) n (a + BLOCK_TRANSFER_SIZE) (ws.drop 64) = _
      rw [hb, List.cons_append]

theorem toNat_adjustSize {w : Word} (h : w.toNat + 3 < 2 ^ 32) :
    (adjustSize w).toNat = 4 * ((w.toNat + 3) / 4) := by
  have h4 : (w / 4).toNat = w.toNat / 4 := BitVec.toNat_udiv
  have hm : (w / 4 * 4).toNat = w.toNat / 4 * 4 := by
    rw [BitVec.toNat_mul, h4, show (4 : Word).toNat = 4 from rfl, Nat.mod_eq_of_lt (by omega)]
  unfold adjustSize
  split
  · rename_i hne
    have hne' : w.toNat / 4 * 4 ≠ w.toNat := fun e => hne (BitVec.eq_of_toNat_eq (hm.trans e))
    rw [BitVec.toNat_mul, BitVec.toNat_add, h4, show (4 : Word).toNat = 4 from rfl,
      show (1 : Word).toNat = 1 from rfl, Nat.mod_eq_of_lt (a := w.toNat / 4 + 1) (by omega),
      Nat.mod_eq_of_lt (by omega)]
    omega
  · rename_i he
    rw [ne_eq, Decidable.not_not] at he
    rw [he] at hm
    omega

theorem adjustSize_dvd (w : Word) : 4 ∣ (adjustSize w).toNat := by
  have hd (v : Word) : 4 ∣ (v * 4).toNat := by
    rw [BitVec.toNat_mul, show (4 : Word).toNat = 4 from rfl]
    omega
  unfold adjustSize
  split
  · exact hd _
  · rename_i h
    rw [ne_eq, not_not] at h
    rw [← h]
    exact hd _

/-- One pass of the section loop over as many words as the code takes for the size `size`; it ends
with the read of the next size word. -/
theorem sectionPass_words (core : Byte) (size start : Word) (data : List Word) (p : List Byte)
    (hsz : (adjustSize size).toNat = 4 * data.length) :
    sectionPass record core size (wordBytes start ++ (encodeWords data ++ p)) =
      ⟨blockCalls ((sectionCore core start).setWidth 32) (data.length / 64) start data,
        (readWord p : UploadM Call _).out⟩ := by
  have hlt := (adjustSize size).isLt
  have hcount : (adjustSize size / BLOCK_TRANSFER_SIZE).toNat = data.length / 64 := by
    rw [BitVec.toNat_udiv, hsz, show BLOCK_TRANSFER_SIZE.toNat = 256 from rfl]
    omega
  have hrem : adjustSize size - adjustSize size / BLOCK_TRANSFER_SIZE * BLOCK_TRANSFER_SIZE =
      BitVec.ofNat 32 (4 * (data.drop (64 * (data.length / 64))).length) := by
    apply BitVec.eq_of_toNat_eq
    rw [toNat_remainder, hsz, BitVec.toNat_ofNat, List.length_drop,
      Nat.mod_eq_of_lt (b := 2 ^ 32) (by omega)]
    omega
  have hwords : (BitVec.ofNat 32 (4 * (data.drop (64 * (data.length / 64))).length) / 4).toNat =
      (data.drop (64 * (data.length / 64))).length := by
    rw [BitVec.toNat_udiv, BitVec.toNat_ofNat, List.length_drop, Nat.mod_eq_of_lt (by omega),
      show (4 : Word).toNat = 4 from rfl]
    omega
  have hev : (readWord p : UploadM Call _).events = [] := by
    unfold readWord
    split <;> rfl
  obtain ⟨ks, hk, hb⟩ := blockLoop_encodeWords (sectionCore core start) (data.length / 64) start
    data p (by omega)
  simp only [sectionPass, readWord_wordBytes, Trace.mk_ok_bind, hcount, hk, hrem, hwords,
    readWords_encodeWords, record, Trace.emit, Trace.pure_def, List.nil_append, List.append_nil, hb,
    blockCalls, hev]

/-- A section whose size does not wrap when it is rounded. -/
theorem sectionPass_encode (core : Byte) (s : Section) (next : Word) (rest : List Byte)
    (h : s.size.toNat + 3 < 2 ^ 32) :
    sectionPass record core s.size
        (wordBytes s.start ++ (encodeWords s.data ++ (wordBytes next ++ rest))) =
      ⟨s.calls core, .ok (next, rest)⟩ := by
  rw [sectionPass_words core s.size s.start s.data _ (by rw [toNat_adjustSize h, s.length_data]),
    readWord_wordBytes]
  rfl

/-- The bytes of the sections `ss` behind the first size word, with the closing zero word. -/
def tailBytes : List Section → List Byte
  | [] => []
  | s :: ss => wordBytes s.start ++ (encodeWords s.data ++ (ss.flatMap Section.encode ++ wordBytes 0))

/-- The size word that the loop has read in front of the sections `ss`. -/
def headSize : List Section → Word
  | [] => 0
  | s :: _ => s.size

theorem flatMap_encode (ss : List Section) :
    ss.flatMap Section.encode ++ wordBytes 0 = wordBytes (headSize ss) ++ tailBytes ss := by
  cases ss with
  | nil => rfl
  | cons s ss => simp [headSize, tailBytes, Section.encode]

theorem sectionLoop_encode (core : Byte) (ss : List Section) (rest : List Byte) (fuel : Nat)
    (hf : ss.length ≤ fuel) (h : ∀ s ∈ ss, s.size.toNat + 3 < 2 ^ 32) :
    sectionLoop record core fuel (headSize ss) (tailBytes ss ++ rest) =
      ⟨ss.flatMap (Section.calls core), .ok rest⟩ := by
  induction ss generalizing fuel with
  | nil => exact sectionLoop_zero record core fuel rest
  | cons s ss ih =>
    obtain ⟨fuel, rfl⟩ : ∃ k, fuel = k + 1 := ⟨fuel - 1, by simp at hf; omega⟩
    have hp := sectionPass_encode core s (headSize ss) (tailBytes ss ++ rest) (h s List.mem_cons_self)
    have hi := ih fuel (by simpa using hf) fun x hx => h x (List.mem_cons_of_mem _ hx)
    rw [headSize, sectionLoop_succ s.size_ne, tailBytes, flatMap_encode]
    simp only [List.append_assoc, hp, Trace.mk_ok_bind, hi, List.flatMap_cons]

theorem length_encode (t : BootTable) : t.sections.length ≤ t.encode.length := by
  have h : ∀ ss : List Section, ss.length ≤ (ss.flatMap Section.encode).length := by
    intro ss
    induction ss with
    | nil => exact Nat.le_refl _
    | cons s ss ih =>
      simp only [List.flatMap_cons, List.length_append, List.length_cons, Section.encode,
        length_wordBytes]
      omega
  have := h t.sections
  simp only [BootTable.encode, List.length_append]
  omega

/-- **The calls on a table**: those of its sections in order; the cursor ends behind the closing
zero word, whatever memory follows. -/
theorem uploadCalls_encode (t : BootTable) (rest : List Byte) (core : Byte)
    (h : ∀ s ∈ t.sections, s.size.toNat + 3 < 2 ^ 32) :
    uploadCalls (t.encode ++ rest) core =
      ⟨t.sections.flatMap (Section.calls core), .ok (t.entry, rest)⟩ := by
  have hf : t.sections.length ≤ (t.encode ++ rest).length := by
    have := length_encode t
    rw [List.length_append]; omega
  have hl := sectionLoop_encode core t.sections rest _ hf h
  have he : t.encode ++ rest =
      wordBytes t.entry ++ (wordBytes (headSize t.sections) ++ (tailBytes t.sections ++ rest)) := by
    rw [BootTable.encode, flatMap_encode]; simp only [List.append_assoc]
  generalize hfuel : (t.encode ++ rest).length = fuel at hl
  unfold uploadCalls uploadSections
  rw [hfuel, he]
  simp only [readWord_wordBytes, Trace.mk_ok_bind, hl, Trace.pure_def, List.nil_append,
    List.append_nil]

theorem uploadProgram_encode (t : BootTable) (rest : List Byte) (core : Byte)
    (h : ∀ s ∈ t.sections, s.size.toNat + 3 < 2 ^ 32) :
    uploadProgram (t.encode ++ rest) core =
      ⟨callStores (t.sections.flatMap (Section.calls core)) ++ [(magicLoc, t.entry)],
        .ok (0, rest)⟩ := by
  rw [uploadProgram_eq, uploadCalls_encode t rest core h]

end Dspc
