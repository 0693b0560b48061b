import DspcDriver.Pcie
import DspcDriver.Upload.Run

/-!
# The blocks of a section

A section goes to `writeDSPMemory` in blocks of 64 words, all for the window of its start address.
`Section.call_run` is what the call of one block does: it is refused below the window's base, and
else stores the block from the word that holds the byte offset of its address on.

* `Section.Reached`: no block of the section is refused. Then the stores of the section are one copy
  loop from the position of its start address on (`Section.stores_eq`), whatever the alignment.
* `Section.Inside`: the section ends below the top of what its window shows.
-/

namespace Dspc

open Lib

/-- The window of a section. -/
def Section.window (s : Section) : Window := windowOf s.start

/-- Block `i` of a section. -/
def Section.block (s : Section) (i : Nat) : List Word := (s.data.drop (64 * i)).take 64

/-- The call of `writeDSPMemory` for block `i`. -/
def Section.call (core : Byte) (s : Section) (i : Nat) : Call where
  coreNum := (sectionCore core s.start).setWidth 32
  dspMemAddr := s.addr (64 * i)
  buffer := s.block i
  length := BitVec.ofNat 32 (4 * (s.block i).length)

/-- `writeDSPMemory` refuses the call: there is something to store, and it returns 0. -/
def Call.Refused (c : Call) : Prop := c.length ≠ 0 ∧ c.run.out = .ok 0

/-- The position of the start address in the window, in words. -/
def Section.pos (s : Section) : Nat := (s.start.toNat % s.window.span - s.window.base) / 4

/-- The window reaches every block of the section. -/
def Section.Reached (s : Section) : Prop :=
  s.window.base ≤ s.start.toNat % s.window.span ∧
    s.start.toNat % s.window.span + 256 * ((s.data.length - 1) / 64) < s.window.span

/-- The section lies between the base and the top of its window's addresses. -/
def Section.Inside (s : Section) : Prop :=
  s.window.base ≤ s.start.toNat % s.window.span ∧
    s.start.toNat % s.window.span + 4 * s.data.length ≤ s.window.span

def Section.Aligned (s : Section) : Prop := s.start.toNat % 4 = 0

instance (s : Section) : Decidable s.Reached := inferInstanceAs (Decidable (_ ∧ _))
instance (s : Section) : Decidable s.Inside := inferInstanceAs (Decidable (_ ∧ _))
instance (s : Section) : Decidable s.Aligned := inferInstanceAs (Decidable (_ = _))

theorem Section.length_pos (s : Section) : 0 < s.data.length :=
  List.length_pos_iff.mpr s.data_ne_nil

theorem Section.length_block (s : Section) (i : Nat) :
    (s.block i).length = min 64 (s.data.length - 64 * i) := by
  rw [Section.block, List.length_take, List.length_drop]

/-- A section that lies inside its window is reached. -/
theorem Section.Inside.reached {s : Section} (h : s.Inside) : s.Reached := by
  have hp := s.length_pos
  obtain ⟨h1, h2⟩ := h
  exact ⟨h1, by omega⟩

/-- Rounding the size of a reached section does not wrap. -/
theorem Section.Reached.size {s : Section} (h : s.Reached) : s.size.toNat + 3 < 2 ^ 32 := by
  obtain ⟨h1, h2⟩ := h
  have hb := s.window.base_pos
  have hs := Nat.le_of_dvd (by decide) s.window.span_dvd
  have hl := s.length_data
  omega

/-- The view of an aligned start address is aligned. -/
theorem Section.Aligned.view {s : Section} (ha : s.Aligned) :
    4 ∣ s.start.toNat % s.window.span :=
  (Nat.dvd_mod_iff ((by decide : 4 ∣ 256).trans s.window.dvd_span)).mpr (Nat.dvd_of_mod_eq_zero ha)

/-- The position of an aligned section in its window, in bytes. -/
theorem Section.four_mul_pos {s : Section} (ha : s.Aligned)
    (hb : s.window.base ≤ s.start.toNat % s.window.span) :
    4 * s.pos + s.window.base = s.start.toNat % s.window.span := by
  obtain ⟨b, hb4⟩ := s.window.base_dvd
  have h4 := ha.view
  unfold Section.pos
  omega

/-! ## The calls, block by block -/

theorem blockCalls_eq (c : Word) (n : Nat) (a : Word) (ws : List Word) (hlo : 64 * n ≤ ws.length)
    (hhi : ws.length < 64 * (n + 1)) :
    blockCalls c n a ws = (List.range (n + 1)).map fun i =>
      ⟨c, a + BitVec.ofNat 32 (256 * i), (ws.drop (64 * i)).take 64,
        BitVec.ofNat 32 (4 * ((ws.drop (64 * i)).take 64).length)⟩ := by
  induction n generalizing a ws with
  | zero =>
    have ht : ws.take 64 = ws := List.take_of_length_le (by omega)
    simp only [blockCalls, Nat.zero_add, List.range_one, List.map_singleton, Nat.mul_zero, List.drop_zero, ht,
      BitVec.add_zero]
  | succ n ih =>
    have hlen : (ws.take 64).length = 64 := by rw [List.length_take]; omega
    rw [List.range_succ_eq_map, List.map_cons, List.map_map, blockCalls,
      ih _ _ (by rw [List.length_drop]; omega) (by rw [List.length_drop]; omega)]
    refine congrArg₂ List.cons ?_ ?_
    · rw [Nat.mul_zero, List.drop_zero, hlen]
      simp [BLOCK_TRANSFER_SIZE]
    · apply List.map_congr_left
      intro i _
      have ha : a + BLOCK_TRANSFER_SIZE + BitVec.ofNat 32 (256 * i) =
          a + BitVec.ofNat 32 (256 * (i + 1)) := by
        rw [BitVec.add_assoc, show BLOCK_TRANSFER_SIZE = BitVec.ofNat 32 256 from rfl,
          ← BitVec.ofNat_add, show 256 + 256 * i = 256 * (i + 1) by omega]
      simp only [Function.comp_apply, List.drop_drop, ha,
        show 64 + 64 * i = 64 * i.succ by omega, Nat.succ_eq_add_one]

/-- **The calls of a section are the calls of its blocks.** The last block is empty if the words
fill whole blocks. -/
theorem Section.calls_eq (core : Byte) (s : Section) :
    s.calls core = (List.range (s.data.length / 64 + 1)).map (s.call core) := by
  rw [Section.calls, blockCalls_eq _ _ _ _ (by omega) (by omega)]
  apply List.map_congr_left
  intro i _
  simp only [Section.call, Section.block, Section.addr, ← Nat.mul_assoc, Nat.reduceMul]

/-- What a call of `writeDSPMemory` does with the words `ws` at `b`, for a section that starts at
`a`. -/
theorem writeDSPMemory_words (core : Byte) (a b : Word) {ws : List Word}
    (hn : 4 * ws.length < 2 ^ 32) :
    writeDSPMemory ((sectionCore core a).setWidth 32) b ws (BitVec.ofNat 32 (4 * ws.length)) =
      match offsetIn (windowOf a) b with
      | none => ⟨[], .ok 0⟩
      | some o => ⟨Stores.block (fun j => ⟨windowOf a, o / 4 + j⟩) ws,
          .ok (BitVec.ofNat 32 (4 * ws.length))⟩ := by
  have hw : (BitVec.ofNat 32 (4 * ws.length)).toNat = 4 * ws.length := by
    rw [BitVec.toNat_ofNat, Nat.mod_eq_of_lt hn]
  have hd := dspOffset_sectionCore core a b
  simp only [writeDSPMemory, hd]
  by_cases h0 : ws.length = 0
  · rw [List.length_eq_zero_iff] at h0
    rw [h0]
    cases offsetIn (windowOf a) b <;> rfl
  · rw [if_neg fun e => h0 (by rw [e] at hw; simpa using hw.symm)]
    cases ho : offsetIn (windowOf a) b with
    | none => rfl
    | some o =>
      have hlt := offsetIn_lt ho
      have h4 : (BitVec.ofNat 32 o / 4).toNat = o / 4 := by
        rw [BitVec.toNat_udiv, BitVec.toNat_ofNat, Nat.mod_eq_of_lt (by omega)]; rfl
      have hl : (BitVec.ofNat 32 (4 * ws.length) / 4).toNat = ws.length := by
        rw [BitVec.toNat_udiv, hw, show (4 : Word).toNat = 4 from rfl, Nat.mul_div_cancel_left _ (by decide)]
      simp only [Option.map_some, h4, hl, List.take_length, Trace.emitAll, Trace.mk_ok_bind,
        Trace.pure_def, List.append_nil]

/-- What the call of a block does. -/
theorem Section.call_run (core : Byte) (s : Section) (i : Nat) :
    (s.call core i).run =
      match offsetIn s.window (s.addr (64 * i)) with
      | none => ⟨[], .ok 0⟩
      | some o => ⟨Stores.block (fun j => ⟨s.window, o / 4 + j⟩) (s.block i),
          .ok (BitVec.ofNat 32 (4 * (s.block i).length))⟩ := by
  have hlen := s.length_block i
  have hn : 4 * (s.block i).length < 2 ^ 32 := by omega
  exact writeDSPMemory_words core s.start (s.addr (64 * i)) hn

/-- The call of the empty block behind whole blocks stores nothing. -/
theorem Section.call_past (core : Byte) (s : Section) {i : Nat} (hi : s.data.length ≤ 64 * i) :
    (s.call core i).run.events = [] := by
  have hnil : s.block i = [] := by
    rw [Section.block, List.drop_eq_nil_of_le hi, List.take_nil]
  rw [Section.call_run, hnil]
  cases offsetIn s.window (s.addr (64 * i)) <;> rfl

theorem Section.call_refused (core : Byte) (s : Section) {i : Nat} (hi : 64 * i < s.data.length) :
    (s.call core i).Refused ↔ offsetIn s.window (s.addr (64 * i)) = none := by
  have hlen := s.length_block i
  have hne : BitVec.ofNat 32 (4 * (s.block i).length) ≠ 0 := fun e => by
    have := congrArg BitVec.toNat e
    rw [BitVec.toNat_ofNat, Nat.mod_eq_of_lt (by omega)] at this
    simp only [BitVec.ofNat_eq_ofNat, BitVec.toNat_ofNat, Nat.zero_mod] at this
    omega
  unfold Call.Refused
  rw [Section.call_run]
  cases offsetIn s.window (s.addr (64 * i)) with
  | none => exact iff_of_true ⟨hne, rfl⟩ rfl
  | some o => exact iff_of_false (fun h => hne (by simpa using h.2)) (by simp)

/-! ## Reached sections -/

theorem Section.addr_mod_span (s : Section) (k : Nat) :
    (s.addr k).toNat % s.window.span = (s.start.toNat % s.window.span + 4 * k) % s.window.span := by
  rw [Section.addr, toNat_add_mod_span, Nat.mod_add_mod]

/-- The offset of an address of a section, as far as it does not wrap. -/
theorem Section.offsetIn_addr {s : Section} {k : Nat}
    (hb : s.window.base ≤ s.start.toNat % s.window.span)
    (hk : s.start.toNat % s.window.span + 4 * k < s.window.span) :
    offsetIn s.window (s.addr k) = some (s.start.toNat % s.window.span - s.window.base + 4 * k) := by
  rw [offsetIn_eq_some, s.addr_mod_span, Nat.mod_eq_of_lt hk]
  omega

/-- **A section is reached iff none of its blocks is refused.** Past the top of the window's
addresses the first block starts below the base. -/
theorem Section.reached_iff {s : Section} :
    s.Reached ↔ ∀ i, 64 * i < s.data.length → offsetIn s.window (s.addr (64 * i)) ≠ none := by
  have hp := s.length_pos
  constructor
  · rintro ⟨hb, ht⟩ i hi
    rw [Section.offsetIn_addr hb (by omega)]
    simp
  · intro h
    have hb : s.window.base ≤ s.start.toNat % s.window.span := by
      have h0 := h 0 (by omega)
      rw [ne_eq, offsetIn_eq_none, s.addr_mod_span, Nat.mul_zero, Nat.add_zero, Nat.mod_mod] at h0
      omega
    refine ⟨hb, ?_⟩
    by_contra ht
    -- the first block that starts at the top or past it
    have h1 := s.window.base_pos
    have h2 := Nat.mod_lt s.start.toNat s.window.span_pos
    have hle : s.window.base ≤ s.window.span := by omega
    obtain ⟨i, hi, hlo, hhi⟩ : ∃ i, 64 * i < s.data.length ∧
        s.window.span ≤ s.start.toNat % s.window.span + 256 * i ∧
        s.start.toNat % s.window.span + 256 * i < s.window.span + 256 :=
      ⟨(s.window.span - s.start.toNat % s.window.span + 255) / 256, by omega, by omega, by omega⟩
    have hi' := h i hi
    rw [ne_eq, offsetIn_eq_none, s.addr_mod_span, Nat.mod_eq_sub_mod (by omega),
      Nat.mod_eq_of_lt (by omega)] at hi'
    omega

/-- The stores of a section, block by block. -/
theorem Section.callStores_calls (core : Byte) (s : Section) :
    callStores (s.calls core) =
      (List.range (s.data.length / 64 + 1)).flatMap fun i => (s.call core i).run.events := by
  rw [callStores, Section.calls_eq, List.flatMap_map]

theorem callStores_flatMap (ss : List Section) (core : Byte) :
    callStores (ss.flatMap (Section.calls core)) = ss.flatMap fun s => callStores (s.calls core) := by
  rw [callStores, List.flatMap_assoc]; rfl

/-- **The stores of a reached section are one copy loop** from the position of its start on. -/
theorem Section.stores_eq (core : Byte) {s : Section} (h : s.Reached) :
    callStores (s.calls core) = Stores.block (fun i => ⟨s.window, s.pos + i⟩) s.data := by
  have hp := s.length_pos
  obtain ⟨hb, ht⟩ := h
  have hc := Stores.block_chunks (fun i => (⟨s.window, s.pos + i⟩ : Loc)) s.data 64
    (s.data.length / 64 + 1)
  rw [List.take_of_length_le (by omega)] at hc
  rw [Section.callStores_calls, ← hc]
  apply List.flatMap_congr
  intro i hi
  rw [List.mem_range] at hi
  by_cases hlt : 64 * i < s.data.length
  · have ho := Section.offsetIn_addr (k := 64 * i) hb (by omega)
    rw [Section.call_run, ho]
    show Stores.block _ (s.block i) = Stores.block _ (s.block i)
    refine congrArg (Stores.block · (s.block i)) ?_
    funext j
    rw [Section.pos, show 4 * (64 * i) = 64 * i * 4 by omega, Nat.add_mul_div_right _ _ (by decide),
      Nat.add_assoc]
  · have hnil : (s.data.drop (64 * i)).take 64 = [] := by
      rw [List.drop_eq_nil_of_le (by omega), List.take_nil]
    rw [Section.call_past core s (by omega), hnil]
    rfl

/-- The stores of reached sections are those of their words. -/
theorem mem_callStores_calls {ss : List Section} {core : Byte} {x : Store} (h : ∀ s ∈ ss, s.Reached) :
    x ∈ callStores (ss.flatMap (Section.calls core)) ↔
      ∃ s ∈ ss, ∃ i w, s.data[i]? = some w ∧ x = (⟨s.window, s.pos + i⟩, w) := by
  rw [callStores_flatMap, List.mem_flatMap]
  refine exists_congr fun s => and_congr_right fun hs => ?_
  rw [Section.stores_eq core (h s hs)]
  exact Stores.mem_block

end Dspc
