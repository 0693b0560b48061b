import DspcDriver.Upload.Blocks
import DspcDriver.Upload.Framing

/-!
# Stores past the end of a window

`writeDSPMemory` checks the lower end of a window only. `Call.inBounds_iff` says when the stores of
one call stay inside the recorded length; `uploads_inBounds_iff` says it of the upload of a table, where the
store of the boot magic counts too.

A size word above `0xFFFFFFFC` wraps to 0 when the code rounds it up. The code then takes the data
of that section for the next size words, so such a table is framed by the code in another way than
it was written, and the condition is on those frames.
-/

namespace Dspc

open Lib

/-- The words of the call end inside the window, if it is not refused. -/
def Call.Fits (bar : PcieBarReg) (c : Call) : Prop :=
  ∀ r ∈ dspOffset c.coreNum c.dspMemAddr, c.length.toNat / 4 ≠ 0 →
    4 * (r.2.toNat / 4) + 4 * (c.length.toNat / 4) ≤ bar.len r.1

/-- Block `i` of the words `data` for the address `start` is refused or ends inside the window. -/
def BlockFits (bar : PcieBarReg) (start : Word) (data : List Word) (i : Nat) : Prop :=
  ∀ o ∈ offsetIn (windowOf start) (start + BitVec.ofNat 32 (256 * i)),
    4 * (o / 4) + 4 * ((data.drop (64 * i)).take 64).length ≤ bar.len (windowOf start)

def Section.Fits (bar : PcieBarReg) (s : Section) : Prop :=
  ∀ i, 64 * i < s.data.length → BlockFits bar s.start s.data i

/-- The blocks that the code stores of a frame fit; of one that is not whole, the full blocks. -/
def Frame.Fits (bar : PcieBarReg) (f : Frame) : Prop :=
  ∀ i, 64 * i < f.data.length → (f.whole = false → 64 * (i + 1) ≤ f.data.length) →
    BlockFits bar f.start f.data i

theorem inBounds_append {bar : PcieBarReg} {st st' : List Store} :
    InBounds bar (st ++ st') ↔ InBounds bar st ∧ InBounds bar st' := List.forall_mem_append

theorem inBounds_block {bar : PcieBarReg} {w : Window} {n : Nat} {ws : List Word} :
    InBounds bar (Stores.block (fun i => ⟨w, n + i⟩) ws) ↔
      (ws.length ≠ 0 → 4 * n + 4 * ws.length ≤ bar.len w) := by
  constructor
  · intro h h0
    have hlast := h _ (Stores.mem_block.mpr
      ⟨ws.length - 1, _, List.getElem?_eq_getElem (by omega), rfl⟩)
    dsimp only at hlast
    omega
  · intro h x hx
    obtain ⟨i, v, hi, rfl⟩ := Stores.mem_block.mp hx
    have hlt := (List.getElem?_eq_some_iff.mp hi).1
    have := h (by omega)
    dsimp only
    omega

/-- What the stores of a call need. -/
theorem Call.inBounds_iff {bar : PcieBarReg} {c : Call}
    (hw : c.buffer.length = c.length.toNat / 4) : InBounds bar c.run.events ↔ c.Fits bar := by
  have h4 (w : Word) : (w / 4).toNat = w.toNat / 4 := BitVec.toNat_udiv
  unfold Call.Fits Call.run writeDSPMemory
  split
  · rename_i h0
    exact iff_of_true (fun x hx => by cases hx) fun r _ hr => absurd (by rw [h0]; rfl) hr
  · cases dspOffset c.coreNum c.dspMemAddr with
    | none => exact iff_of_true (fun x hx => by cases hx) fun r hr => by cases hr
    | some r =>
      obtain ⟨w, o⟩ := r
      have hb : InBounds bar (Stores.block (fun i => ⟨w, (o / 4).toNat + i⟩)
          (c.buffer.take (c.length / 4).toNat)) ↔ _ := inBounds_block
      rw [h4, h4, ← hw, List.take_length] at hb
      simp only [Trace.emitAll, Trace.mk_ok_bind, Trace.events_pure, List.append_nil, h4, ← hw,
        List.take_length, Option.mem_def, Option.some.injEq, forall_eq']
      exact hb

theorem inBounds_callStores {bar : PcieBarReg} {ks : List Call} :
    InBounds bar (callStores ks) ↔ ∀ c ∈ ks, InBounds bar c.run.events := by
  unfold InBounds callStores
  exact List.forall_mem_flatMap

/-- The stores of an upload, for any image. -/
theorem inBounds_uploadProgram {bar : PcieBarReg} {image : List Byte} {core : Byte} :
    InBounds bar (uploadProgram image core).events ↔
      (∀ c ∈ (uploadCalls image core).events, c.Fits bar) ∧
        ((uploadCalls image core).out.isOk → 0x80000 ≤ bar.memLen) := by
  have hcalls : InBounds bar (callStores (uploadCalls image core).events) ↔
      ∀ c ∈ (uploadCalls image core).events, c.Fits bar := by
    rw [inBounds_callStores]
    exact forall₂_congr fun c hc =>
      Call.inBounds_iff (uploadCalls_all (fun _ _ hw => hw) image core c hc)
  rw [uploadProgram_eq, ← hcalls]
  rcases (uploadCalls image core).out with e | ⟨entry, p⟩
  · exact ⟨fun h => ⟨h, fun e => by cases e⟩, fun h => h.1⟩
  · have hmagic : InBounds bar [(magicLoc, entry)] ↔ 0x80000 ≤ bar.memLen := by
      rw [InBounds, List.forall_mem_singleton, magicLoc_end]
      rfl
    rw [inBounds_append, hmagic]
    exact and_congr_right fun _ => ⟨fun h _ => h, fun h => h rfl⟩

/-! ## Tables -/

/-- What keeps the upload of a table inside the windows: every block of every section fits, and the
L2 window reaches up to the boot magic. -/
def BootTable.Fits (bar : PcieBarReg) (t : BootTable) (rest : List Byte) : Prop :=
  if ∀ s ∈ t.sections, s.size.toNat + 3 < 2 ^ 32 then
    (∀ s ∈ t.sections, s.Fits bar) ∧ 0x80000 ≤ bar.memLen
  else
    -- a wrapped size: the sections are those that the code frames
    (∀ f ∈ (frames (words (t.encode ++ rest)).tail).1, f.Fits bar) ∧
      ((frames (words (t.encode ++ rest)).tail).2 → 0x80000 ≤ bar.memLen)

/-- The call of a block. -/
theorem call_fits (bar : PcieBarReg) (core : Byte) (start : Word) (data : List Word) (i : Nat) :
    Call.Fits bar ⟨(sectionCore core start).setWidth 32, start + BitVec.ofNat 32 (256 * i),
        (data.drop (64 * i)).take 64, BitVec.ofNat 32 (4 * ((data.drop (64 * i)).take 64).length)⟩ ↔
      (64 * i < data.length → BlockFits bar start data i) := by
  have hlen : ((data.drop (64 * i)).take 64).length = min 64 (data.length - 64 * i) := by
    rw [List.length_take, List.length_drop]
  have hpos : ((data.drop (64 * i)).take 64).length ≠ 0 ↔ 64 * i < data.length := by omega
  have hw : (BitVec.ofNat 32 (4 * ((data.drop (64 * i)).take 64).length)).toNat / 4 =
      ((data.drop (64 * i)).take 64).length := by
    rw [BitVec.toNat_ofNat, Nat.mod_eq_of_lt (by omega)]
    omega
  simp only [Call.Fits, BlockFits, dspOffset_sectionCore, hw, hpos]
  cases ho : offsetIn (windowOf start) (start + BitVec.ofNat 32 (256 * i)) with
  | none => simp
  | some o =>
    have hlt := offsetIn_lt ho
    have hon : (BitVec.ofNat 32 o).toNat = o := by
      rw [BitVec.toNat_ofNat, Nat.mod_eq_of_lt (by omega)]
    simp [hon]

theorem Frame.calls_fit (bar : PcieBarReg) (core : Byte) (f : Frame) :
    (∀ c ∈ f.calls core, c.Fits bar) ↔ f.Fits bar := by
  have hb := blockCalls_eq ((sectionCore core f.start).setWidth 32) (f.data.length / 64) f.start f.data
    (by omega) (by omega)
  unfold Frame.calls Frame.Fits
  cases f.whole with
  | true =>
    simp only [if_true, hb, List.forall_mem_map, call_fits, List.mem_range, Bool.true_eq_false,
      false_imp_iff, forall_true_left]
    exact ⟨fun h i hi => h i (by omega) hi, fun h i _ hi => h i hi⟩
  | false =>
    -- the last call is that of the remainder
    rw [List.range_succ, List.map_append, List.map_singleton] at hb
    simp only [Bool.false_eq_true, if_false, hb, List.dropLast_concat, List.forall_mem_map, call_fits,
      List.mem_range, forall_true_left]
    exact ⟨fun h i hi h' => h i (by omega) hi, fun h i _ hi => h i hi (by omega)⟩

theorem Section.calls_fit (bar : PcieBarReg) (core : Byte) (s : Section) :
    (∀ c ∈ s.calls core, c.Fits bar) ↔ s.Fits bar := by
  have h : (∀ c ∈ s.calls core, c.Fits bar) ↔ Frame.Fits bar ⟨s.start, s.data, true⟩ :=
    Frame.calls_fit bar core ⟨s.start, s.data, true⟩
  rw [h]
  exact ⟨fun h i hi => h i hi (fun e => by cases e), fun h i hi _ => h i hi⟩

/-- **When an upload stays inside the mapped windows.** -/
theorem uploads_inBounds_iff (t : BootTable) (rest : List Byte) (core : Byte) (bar : PcieBarReg) :
    InBounds bar (uploadProgram (t.encode ++ rest) core).events ↔ t.Fits bar rest := by
  rw [inBounds_uploadProgram]
  unfold BootTable.Fits
  split
  · rename_i h
    rw [uploadCalls_encode t rest core h, List.forall_mem_flatMap]
    exact and_congr (forall₂_congr fun s _ => s.calls_fit bar core)
      ⟨fun hm => hm rfl, fun hm _ => hm⟩
  · obtain ⟨hev, hok⟩ := uploadCalls_frames (t.encode ++ rest) core
    rw [hev, hok, List.forall_mem_flatMap]
    exact and_congr_left' (forall₂_congr fun f _ => f.calls_fit bar core)

/-- One word just past the end of the 16M that the third window shows. -/
def farTable : BootTable where
  entry := 0x00800000
  sections := [.word 0x81000000 0x12345678]

theorem farTable_upload :
    uploadProgram (farTable.encode ++ []) 0 =
      ⟨[(⟨.ddr, 0x400000⟩, 0x12345678), (magicLoc, 0x00800000)], .ok (0, [])⟩ := by
  rw [uploadProgram_encode farTable [] 0 (by decide)]
  rfl

theorem farTable_not_inBounds :
    ¬ InBounds c6678Bar (uploadProgram (farTable.encode ++ []) 0).events := by
  intro h
  rw [farTable_upload] at h
  exact absurd (h _ List.mem_cons_self) (by decide)

end Dspc
