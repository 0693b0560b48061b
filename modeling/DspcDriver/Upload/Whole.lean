import DspcDriver.Upload.Blocks
import Mathlib.Algebra.Order.BigOperators.Group.List
import Mathlib.Algebra.Order.Ring.Nat

/-!
# A section in blocks and a section whole

The section loop hands a section to `writeDSPMemory` in blocks, and each block is checked and masked
at its own address. `asWhole_iff` says when that makes no difference: the stores are those of one call
with all the words exactly if no block is refused, or every block is.
-/

namespace Dspc

open Lib

/-- The stores of the section loop for the words `ws` at `a`; `rest` is the image behind them. -/
def sectionStores (coreNum : Byte) (a : Word) (ws : List Word) (rest : List Byte) : List Store :=
  (sectionPass writeDSPMemory coreNum (BitVec.ofNat 32 (4 * ws.length))
    (wordBytes a ++ (encodeWords ws ++ rest))).events

/-- The stores of one call for the same region with all the words. -/
def wholeStores (coreNum : Byte) (a : Word) (ws : List Word) : List Store :=
  (writeDSPMemory ((sectionCore coreNum a).setWidth 32) a ws (BitVec.ofNat 32 (4 * ws.length))).events

/-- The section is transferred as if in one call; then it is stored completely or not at all. -/
structure AsWhole (coreNum : Byte) (a : Word) (ws : List Word) (rest : List Byte) : Prop where
  same : sectionStores coreNum a ws rest = wholeStores coreNum a ws
  allOrNothing : sectionStores coreNum a ws rest = [] ∨
    (sectionStores coreNum a ws rest).map Prod.snd = ws

/-- What a window sees of an address. -/
def viewOf (a : Word) : Nat := a.toNat % (windowOf a).span

/-- What it sees of the start of the last block of `ws` at `a`, if that does not wrap. -/
def lastView (a : Word) (ws : List Word) : Nat := viewOf a + 256 * ((ws.length - 1) / 64)

/-- The section of the words `ws` at `a`. -/
def Section.ofWords (a : Word) (ws : List Word) (hne : ws ≠ []) (hn : 4 * ws.length < 2 ^ 32) :
    Section where
  size := BitVec.ofNat 32 (4 * ws.length)
  start := a
  data := ws
  size_ne := fun h => by
    have hp := List.length_pos_iff.mpr hne
    have := congrArg BitVec.toNat h
    rw [BitVec.toNat_ofNat, Nat.mod_eq_of_lt hn, show (0 : Word).toNat = 0 from rfl] at this
    omega
  length_data := by
    rw [BitVec.toNat_ofNat, Nat.mod_eq_of_lt hn]
    omega

variable {coreNum : Byte} {a : Word} {ws : List Word} {rest : List Byte}

/-- The stores of the loop are those of the calls of the section. -/
theorem sectionStores_eq (hne : ws ≠ []) (hn : 4 * ws.length < 2 ^ 32) :
    sectionStores coreNum a ws rest =
      callStores ((Section.ofWords a ws hne hn).calls coreNum) := by
  have hsize : (adjustSize (BitVec.ofNat 32 (4 * ws.length))).toNat = 4 * ws.length := by
    rw [toNat_adjustSize (by rw [BitVec.toNat_ofNat, Nat.mod_eq_of_lt hn]; omega),
      BitVec.toNat_ofNat, Nat.mod_eq_of_lt hn]
    omega
  rw [sectionStores, ← sectionPass_replay writeDSPMemory_total,
    sectionPass_words coreNum _ a ws rest hsize]
  rfl

theorem sectionStores_nil : sectionStores coreNum a [] rest = [] := by
  have hsize : (adjustSize (BitVec.ofNat 32 (4 * ([] : List Word).length))).toNat =
      4 * ([] : List Word).length := rfl
  rw [sectionStores, ← sectionPass_replay writeDSPMemory_total,
    sectionPass_words coreNum _ a [] rest hsize]
  rfl

/-- One call: refused below the base, else one copy loop. -/
theorem wholeStores_eq (hn : 4 * ws.length < 2 ^ 32) : wholeStores coreNum a ws =
    if viewOf a < (windowOf a).base then []
    else Stores.block (fun i => ⟨windowOf a, (viewOf a - (windowOf a).base) / 4 + i⟩) ws := by
  rw [wholeStores, writeDSPMemory_words coreNum a a hn]
  unfold offsetIn viewOf
  split
  · rename_i h
    split at h
    · rename_i hb
      rw [if_pos hb]
    · cases h
  · rename_i o h
    split at h
    · cases h
    · rename_i hb
      cases h
      rw [if_neg hb]

/-- The stores of block `i` of the loop. -/
theorem sectionStores_blocks (hne : ws ≠ []) (hn : 4 * ws.length < 2 ^ 32) :
    sectionStores coreNum a ws rest = (List.range (ws.length / 64 + 1)).flatMap fun i =>
      ((Section.ofWords a ws hne hn).call coreNum i).run.events := by
  rw [sectionStores_eq hne hn, Section.callStores_calls]
  rfl

/-! ## Blocks that are refused -/

/-- Blocks that all start below the base are all refused. -/
theorem sectionStores_below (hn : 4 * ws.length < 2 ^ 32)
    (h : lastView a ws < (windowOf a).base) : sectionStores coreNum a ws rest = [] := by
  by_cases hne : ws = []
  · rw [hne, sectionStores_nil]
  rw [sectionStores_blocks hne hn, List.flatMap_eq_nil_iff]
  intro i _
  by_cases hi : 64 * i < ws.length
  · have hsp := Nat.mod_lt a.toNat (windowOf a).span_pos
    have hbs : (windowOf a).base < (windowOf a).span := by cases windowOf a <;> decide
    have hv : lastView a ws = a.toNat % (windowOf a).span + 256 * ((ws.length - 1) / 64) := rfl
    have hnone : offsetIn (Section.ofWords a ws hne hn).window
        ((Section.ofWords a ws hne hn).addr (64 * i)) = none := by
      rw [offsetIn_eq_none, Section.addr_mod_span]
      show (a.toNat % (windowOf a).span + 4 * (64 * i)) % (windowOf a).span < (windowOf a).base
      rw [Nat.mod_eq_of_lt (by omega)]
      omega
    rw [Section.call_run, hnone]
  · exact Section.call_past coreNum _ (Nat.le_of_not_lt hi)

/-- A block that starts at the base or above is stored, whatever became of those before it. -/
theorem sectionStores_ne_nil (hn : 4 * ws.length < 2 ^ 32)
    (hb : viewOf a < (windowOf a).base) (h : (windowOf a).base ≤ lastView a ws) :
    sectionStores coreNum a ws rest ≠ [] := by
  have hv : lastView a ws = viewOf a + 256 * ((ws.length - 1) / 64) := rfl
  have hne : ws ≠ [] := by
    rintro rfl
    rw [List.length_nil] at hv
    omega
  have hroom : (windowOf a).base + 256 ≤ (windowOf a).span := by cases windowOf a <;> decide
  -- the first block that starts in the window
  obtain ⟨i, hi, hlo, hhi⟩ : ∃ i, 64 * i < ws.length ∧ (windowOf a).base ≤ viewOf a + 256 * i ∧
      viewOf a + 256 * i < (windowOf a).base + 256 :=
    ⟨((windowOf a).base - viewOf a + 255) / 256, by omega, by omega, by omega⟩
  have hsome : offsetIn (Section.ofWords a ws hne hn).window
      ((Section.ofWords a ws hne hn).addr (64 * i)) =
        some (viewOf a + 256 * i - (windowOf a).base) := by
    rw [offsetIn_eq_some, Section.addr_mod_span]
    show _ = (viewOf a + 4 * (64 * i)) % (windowOf a).span
    rw [Nat.mod_eq_of_lt (by omega)]
    show (windowOf a).base + _ = _
    omega
  rw [sectionStores_blocks hne hn, ne_eq, List.flatMap_eq_nil_iff]
  intro hall
  have hnil := congrArg List.length (hall i (List.mem_range.mpr (by omega)))
  have hlen := (Section.ofWords a ws hne hn).length_block i
  have hdata : (Section.ofWords a ws hne hn).data.length = ws.length := rfl
  rw [Section.call_run, hsome] at hnil
  simp only [Stores.length_block, List.length_nil] at hnil
  omega

/-- The words of all blocks. -/
theorem sum_length_block (s : Section) :
    ((List.range (s.data.length / 64 + 1)).map fun i => (s.block i).length).sum = s.data.length := by
  have hc := congrArg List.length
    (Stores.block_chunks (fun i => i) s.data 64 (s.data.length / 64 + 1))
  rw [List.take_of_length_le (by omega), List.length_flatMap, Stores.length_block] at hc
  simp only [Stores.length_block] at hc
  exact hc

/-- Where a block is refused behind the top of the window's addresses, words are missing. -/
theorem length_sectionStores_lt (hn : 4 * ws.length < 2 ^ 32)
    (h : (windowOf a).span ≤ lastView a ws) :
    (sectionStores coreNum a ws rest).length < ws.length := by
  have hv : lastView a ws = viewOf a + 256 * ((ws.length - 1) / 64) := rfl
  have hsp : viewOf a < (windowOf a).span := Nat.mod_lt _ (windowOf a).span_pos
  have hne : ws ≠ [] := by
    rintro rfl
    rw [List.length_nil] at hv
    omega
  have hnot : ¬ (Section.ofWords a ws hne hn).Reached := fun hr => Nat.not_lt.mpr h hr.2
  rw [Section.reached_iff] at hnot
  push Not at hnot
  obtain ⟨i, hi, hnone⟩ := hnot
  have hi' : 64 * i < ws.length := hi
  have hsum := sum_length_block (Section.ofWords a ws hne hn)
  rw [sectionStores_blocks hne hn, List.length_flatMap]
  refine Nat.lt_of_lt_of_eq (List.sum_lt_sum _ _ (fun j _ => ?_) ⟨i, ?_, ?_⟩) hsum
  · rw [Section.call_run]
    split
    · exact Nat.zero_le _
    · exact Nat.le_of_eq (Stores.length_block _ _)
  · exact List.mem_range.mpr (by omega)
  · rw [Section.call_run, hnone, Section.length_block]
    show 0 < min 64 (ws.length - 64 * i)
    omega

/-! ## When it makes no difference -/

/-- No block is refused. -/
theorem sectionStores_reached (hn : 4 * ws.length < 2 ^ 32) (hb : (windowOf a).base ≤ viewOf a)
    (h : lastView a ws < (windowOf a).span) : sectionStores coreNum a ws rest =
      Stores.block (fun i => ⟨windowOf a, (viewOf a - (windowOf a).base) / 4 + i⟩) ws := by
  by_cases hne : ws = []
  · rw [hne, sectionStores_nil]
    rfl
  · have hr : (Section.ofWords a ws hne hn).Reached := ⟨hb, h⟩
    rw [sectionStores_eq hne hn, Section.stores_eq coreNum hr]
    rfl

/-- A section that starts below its window and reaches into it is stored in part. -/
theorem not_asWhole_below (hn : 4 * ws.length < 2 ^ 32) (hb : viewOf a < (windowOf a).base)
    (h : (windowOf a).base ≤ lastView a ws) : ¬ AsWhole coreNum a ws rest := by
  intro hw
  have hs := hw.same
  rw [wholeStores_eq hn, if_pos hb] at hs
  exact sectionStores_ne_nil hn hb h hs

/-- **A section in blocks is a section whole** exactly if every block starts below the base of the
window, or none does and the last one starts below the top of its addresses. -/
theorem asWhole_iff (coreNum : Byte) (a : Word) (ws : List Word) (rest : List Byte)
    (hn : 4 * ws.length < 2 ^ 32) :
    AsWhole coreNum a ws rest ↔ lastView a ws < (windowOf a).base ∨
      ((windowOf a).base ≤ viewOf a ∧ lastView a ws < (windowOf a).span) := by
  have hle : viewOf a ≤ lastView a ws := Nat.le_add_right _ _
  have hwhole : wholeStores coreNum a ws = _ := wholeStores_eq hn
  constructor
  · intro h
    by_cases hb : viewOf a < (windowOf a).base
    · refine .inl (Nat.lt_of_not_le fun hl => not_asWhole_below hn hb hl h)
    · refine .inr ⟨Nat.le_of_not_lt hb, Nat.lt_of_not_le fun hl => ?_⟩
      have hlt : (sectionStores coreNum a ws rest).length < _ := length_sectionStores_lt hn hl
      rw [h.same, hwhole, if_neg hb, Stores.length_block] at hlt
      exact Nat.lt_irrefl _ hlt
  · rintro (h | ⟨hb, h⟩)
    · have hs : sectionStores coreNum a ws rest = _ := sectionStores_below hn h
      refine ⟨?_, .inl hs⟩
      rw [hs, hwhole, if_pos (by omega)]
    · have hs : sectionStores coreNum a ws rest = _ := sectionStores_reached hn hb h
      refine ⟨?_, .inr ?_⟩
      · rw [hs, hwhole, if_neg (by omega)]
      · rw [hs, Stores.map_snd_block]

theorem asWhole_iff_two :
    AsWhole 0 0x00800000 (List.replicate 128 0x11) [] ↔
      lastView 0x00800000 (List.replicate 128 0x11) < (windowOf 0x00800000).base ∨
      ((windowOf 0x00800000).base ≤ viewOf 0x00800000 ∧
        lastView 0x00800000 (List.replicate 128 0x11) < (windowOf 0x00800000).span) :=
  asWhole_iff 0 0x00800000 _ [] (by rw [List.length_replicate]; decide)

/-- Two blocks, of which the first ends where local L2 starts: it is refused, and the second is
stored. -/
theorem straddling_not_asWhole : ¬ AsWhole 0 0x007FFF00 (List.replicate 128 0) [] :=
  not_asWhole_below (by rw [List.length_replicate]; decide) (by decide)
    (by rw [lastView, List.length_replicate]; decide)

end Dspc
