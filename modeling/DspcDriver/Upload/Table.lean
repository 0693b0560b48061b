import DspcDriver.Upload.Code

/-!
# Boot tables

The format that `uploadProgram` reads, and what a table means.

* A `Section` carries its own well-formedness: a non-zero size word, and as many data words as the
  size rounded up to whole words, as a number (the code rounds in 32-bit arithmetic, `adjustSize`).
* `windowOf` and `offsetIn` are the address map as arithmetic: the window that a section's start
  address selects, and the byte offset of an address in a window, if the window reaches down to it.
* `Section.calls` is the sequence of `writeDSPMemory` calls of a section: its full blocks, then the
  remainder.
-/

namespace Dspc

open Lib

/-- A section of a boot table. -/
structure Section where
  size : Word
  start : Word
  data : List Word
  size_ne : size ≠ 0
  length_data : data.length = (size.toNat + 3) / 4

/-- A section of one word. -/
def Section.word (start w : Word) : Section := ⟨4, start, [w], by decide, rfl⟩

/-- A boot table: the entry address and the sections. -/
structure BootTable where
  entry : Word
  sections : List Section

/-- The bytes of `ws`, big-endian. -/
def encodeWords (ws : List Word) : List Byte := ws.flatMap wordBytes

@[simp] theorem encodeWords_nil : encodeWords [] = [] := rfl

@[simp] theorem encodeWords_cons (w : Word) (ws : List Word) :
    encodeWords (w :: ws) = wordBytes w ++ encodeWords ws := List.flatMap_cons

theorem encodeWords_append (ws ws' : List Word) :
    encodeWords (ws ++ ws') = encodeWords ws ++ encodeWords ws' := List.flatMap_append

theorem length_encodeWords (ws : List Word) : (encodeWords ws).length = 4 * ws.length := by
  induction ws with
  | nil => rfl
  | cons w ws ih =>
    rw [encodeWords_cons, List.length_append, length_wordBytes, ih, List.length_cons]
    omega

def Section.encode (s : Section) : List Byte :=
  wordBytes s.size ++ (wordBytes s.start ++ encodeWords s.data)

/-- The bytes of a table: the entry word, the sections, a zero size word. -/
def BootTable.encode (t : BootTable) : List Byte :=
  wordBytes t.entry ++ (t.sections.flatMap Section.encode ++ wordBytes 0)

theorem Section.data_ne_nil (s : Section) : s.data ≠ [] := by
  intro h
  have h1 := s.length_data
  have h2 : s.size.toNat ≠ 0 := fun e => s.size_ne (BitVec.eq_of_toNat_eq e)
  rw [h, List.length_nil] at h1
  omega

/-- The address of word `i` of a section. -/
def Section.addr (s : Section) (i : Nat) : Word := s.start + BitVec.ofNat 32 (4 * i)

/-! ## The address map -/

/-- The window that the prefix of a section's start address selects. -/
def windowOf (secStartAddr : Word) : Window :=
  if secStartAddr.toNat / 2 ^ 24 = 0x00 ∨ secStartAddr.toNat / 2 ^ 28 = 0x1 then .mem
  else if secStartAddr.toNat / 2 ^ 24 = 0x0C then .msmc
  else .ddr

/-- The lowest address that a window shows. -/
def Window.base : Window → Nat
  | .mem => 0x800000
  | .msmc => 0x0C000000
  | .ddr => 0x80000000

/-- The L2 window sees the low 24 bits of an address only. -/
def Window.span : Window → Nat
  | .mem => 2 ^ 24
  | .msmc | .ddr => 2 ^ 32

/-- The byte offset of an address in a window; `none` below the window's base. -/
def offsetIn (w : Window) (a : Word) : Option Nat :=
  if a.toNat % w.span < w.base then none else some (a.toNat % w.span - w.base)

theorem Window.base_dvd (w : Window) : 4 ∣ w.base := by cases w <;> decide

theorem Window.base_pos (w : Window) : 256 ≤ w.base := by cases w <;> decide

theorem Window.span_dvd (w : Window) : w.span ∣ 2 ^ 32 := by cases w <;> decide

theorem Window.dvd_span (w : Window) : 256 ∣ w.span := by cases w <;> decide

/-- No window shows as much as the whole address space. -/
theorem Window.span_le (w : Window) : w.span - w.base ≤ 0xF4000000 := by cases w <;> decide

theorem Window.span_pos (w : Window) : 0 < w.span := by cases w <;> decide

theorem offsetIn_eq_some {w : Window} {a : Word} {o : Nat} :
    offsetIn w a = some o ↔ w.base + o = a.toNat % w.span := by
  unfold offsetIn
  split
  · refine iff_of_false (by simp) (by omega)
  · rw [Option.some.injEq]; omega

theorem offsetIn_eq_none {w : Window} {a : Word} :
    offsetIn w a = none ↔ a.toNat % w.span < w.base := by
  unfold offsetIn; split <;> simp_all

theorem offsetIn_lt {w : Window} {a : Word} {o : Nat} (h : offsetIn w a = some o) :
    o < 0xF4000000 := by
  have h1 := offsetIn_eq_some.mp h
  have h2 := Nat.mod_lt a.toNat w.span_pos
  have h3 := w.span_le
  omega

/-- Addresses wrap at 32 bits, and a window's view of them at its span. -/
theorem toNat_add_mod_span (w : Window) (a : Word) (k : Nat) :
    (a + BitVec.ofNat 32 k).toNat % w.span = (a.toNat + k) % w.span := by
  rw [BitVec.toNat_add, BitVec.toNat_ofNat, Nat.add_mod_mod, Nat.mod_mod_of_dvd _ w.span_dvd]

theorem toNat_prefix (a : Word) : ((a &&& 0xFF000000) >>> 24).toNat = a.toNat / 2 ^ 24 := by
  rw [BitVec.toNat_ushiftRight, toNat_and_ones_shl (k := 24) (by decide), Nat.shiftRight_eq_div_pow]
  omega

/-- The region that `uploadProgram` chooses is the window of the prefix; the core number decides
nothing but which of the L2 cases is taken. -/
theorem sectionCore_eq (coreNum : Byte) (a : Word) :
    sectionCore coreNum a =
      match windowOf a with
      | .mem => if coreNum < 8 then coreNum else 0
      | .msmc => 8
      | .ddr => 9 := by
  have h0 : (a &&& 0xFF000000) >>> 24 = 0x00 ↔ a.toNat / 2 ^ 24 = 0x00 := by
    rw [← BitVec.toNat_inj, toNat_prefix]; rfl
  have h1 : (a &&& 0xFF000000) >>> 24 >>> 4 = 0x1 ↔ a.toNat / 2 ^ 28 = 0x1 := by
    rw [← BitVec.toNat_inj, BitVec.toNat_ushiftRight, toNat_prefix, Nat.shiftRight_eq_div_pow,
      Nat.div_div_eq_div_mul]
    rfl
  have h2 : (a &&& 0xFF000000) >>> 24 = 0x0C ↔ a.toNat / 2 ^ 24 = 0x0C := by
    rw [← BitVec.toNat_inj, toNat_prefix]; rfl
  unfold sectionCore windowOf
  simp only [h0, h1, h2]
  split
  · rfl
  · split <;> rfl

/-- The lower-bound check and the subtraction of a window's base, in numbers. -/
theorem sub_base (w : Window) (b base : Word) :
    (if b < base then none else some (w, b - base)) =
      (if b.toNat < base.toNat then none else some (b.toNat - base.toNat)).map
        fun o => (w, BitVec.ofNat 32 o) := by
  by_cases h : b < base
  · rw [if_pos h, if_pos (BitVec.lt_def.mp h)]; rfl
  · have h' : ¬ b.toNat < base.toNat := fun e => h (BitVec.lt_def.mpr e)
    rw [if_neg h, if_neg h', Option.map_some, Option.some.injEq, Prod.mk.injEq]
    refine ⟨rfl, BitVec.eq_of_toNat_eq ?_⟩
    have hb := b.isLt
    rw [BitVec.toNat_sub_of_le (BitVec.le_def.mpr (by omega)), BitVec.toNat_ofNat,
      Nat.mod_eq_of_lt (by omega)]

/-- The `switch` of `writeDSPMemory` for a call made for a section that starts at `a`. -/
theorem dspOffset_sectionCore (coreNum : Byte) (a b : Word) :
    dspOffset ((sectionCore coreNum a).setWidth 32) b =
      (offsetIn (windowOf a) b).map fun o => (windowOf a, BitVec.ofNat 32 o) := by
  rw [sectionCore_eq]
  cases windowOf a with
  | mem =>
    have hc : BitVec.setWidth 32 (if coreNum < 8 then coreNum else 0) ≤ (7 : Word) := by
      split
      · rename_i h
        have h8 : coreNum.toNat < 8 := BitVec.lt_def.mp h
        rw [BitVec.le_def, BitVec.toNat_setWidth, show (7 : Word).toNat = 7 from rfl]
        omega
      · decide
    unfold dspOffset offsetIn
    dsimp only
    rw [if_pos hc, sub_base, toNat_low24]
    rfl
  | msmc =>
    show dspOffset ((8 : Byte).setWidth 32) b = _
    unfold dspOffset offsetIn
    rw [if_neg (by decide), if_pos (by decide), sub_base,
      show b.toNat % Window.msmc.span = b.toNat from Nat.mod_eq_of_lt b.isLt]
    rfl
  | ddr =>
    show dspOffset ((9 : Byte).setWidth 32) b = _
    unfold dspOffset offsetIn
    rw [if_neg (by decide), if_neg (by decide), if_pos (by decide), sub_base,
      show b.toNat % Window.ddr.span = b.toNat from Nat.mod_eq_of_lt b.isLt]
    rfl

/-! ## The calls of a section -/

/-- `n` full blocks and the remainder of the words `ws`, from address `a` on. -/
def blockCalls (coreNum : Word) : Nat → Word → List Word → List Call
  | 0, a, ws => [⟨coreNum, a, ws, BitVec.ofNat 32 (4 * ws.length)⟩]
  | n + 1, a, ws =>
    ⟨coreNum, a, ws.take 64, BLOCK_TRANSFER_SIZE⟩ ::
      blockCalls coreNum n (a + BLOCK_TRANSFER_SIZE) (ws.drop 64)

/-- The calls of `writeDSPMemory` for a section. -/
def Section.calls (coreNum : Byte) (s : Section) : List Call :=
  blockCalls ((sectionCore coreNum s.start).setWidth 32) (s.data.length / 64) s.start s.data

end Dspc
