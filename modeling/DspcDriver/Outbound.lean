import DspcDriver.Lib.Aligned
import DspcDriver.Zone
import Mathlib.Order.Bounds.Basic

/-!
# What the outbound window covers

`dspMemoryMap` takes the length of the window and the mask of its base from `size` alone, and does not
ask whether the range that begins at `pcAddr` ends in the window. `windowCovers_iff` says for which
ranges it does.
-/

namespace Dspc

open Lib Lib.Aligned

/-- The base of outbound window 0: the page base in `OB_OFFSET_INDEX(0)` without its enable bit. -/
def windowBase (reg : Nat → Word) : Nat := (reg (OB_OFFSET_INDEX 0) &&& ~~~0x1).toNat

/-- The length of the outbound windows: 1 MiB for 0 in `OB_SIZE`, and twice that for each step. -/
def windowLength (reg : Nat → Word) : Nat := 0x100000 <<< (reg OB_SIZE).toNat

/-- The window that `dspMemoryMap` sets up has all of the range asked for, whatever the registers
`reg` hold before; and it refuses, with no register written, only what no window can have. -/
structure WindowCovers (pcAddr size : Word) : Prop where
  covers : (dspMemoryMap pcAddr size).1 = 0 → ∀ reg,
    Covers (windowBase (Stores.run (dspMemoryMap pcAddr size).2 reg))
      (windowLength (Stores.run (dspMemoryMap pcAddr size).2 reg)) pcAddr.toNat size.toNat
  refuses : (dspMemoryMap pcAddr size).1 ≠ 0 →
    (dspMemoryMap pcAddr size).1 = -1 ∧ (dspMemoryMap pcAddr size).2 = [] ∧
      ∀ k ≤ 3, ∀ b, 2 ^ (20 + k) ∣ b → ¬ Covers b (2 ^ (20 + k)) pcAddr.toNat size.toNat

/-- The range ends in the window that it begins in, of the least of the four sizes that is not below
`size`. -/
def InOneWindow (pcAddr size : Word) : Prop :=
  ∀ k ≤ 3, IsLeast {k | size.toNat ≤ 2 ^ (20 + k)} k →
    pcAddr.toNat % 2 ^ (20 + k) + size.toNat ≤ 2 ^ (20 + k)

/-! ## The window that is chosen -/

/-- `dspMemoryMap` chooses the least window that is not below `size`. -/
theorem obWindow_least {size obSize baseMask : Word} (h : obWindow size = some (obSize, baseMask)) :
    IsLeast {k | size.toNat ≤ 2 ^ (20 + k)} obSize.toNat := by
  refine ⟨(obWindow_some h).2.1, fun k (hk : size.toNat ≤ 2 ^ (20 + k)) => ?_⟩
  by_contra hlt
  -- a smaller `k` gives at most half the window, and that bound failed
  have hmono : 2 ^ (20 + k) ≤ 2 ^ (19 + obSize.toNat) :=
    Nat.pow_le_pow_right (by decide) (by omega)
  obtain ⟨-, e⟩ | ⟨hs, -, e⟩ | ⟨hs, -, e⟩ | ⟨hs, -, e⟩ | ⟨-, e⟩ := obWindow_cases size <;>
    rw [e] at h <;> cases h
  · exact hlt (Nat.zero_le k)
  · exact absurd (hk.trans hmono) (Nat.not_le.mpr hs)
  · exact absurd (hk.trans hmono) (Nat.not_le.mpr hs)
  · exact absurd (hk.trans hmono) (Nat.not_le.mpr hs)

/-- No window is chosen for what is longer than 8 MiB only. -/
theorem obWindow_eq_none {size : Word} : obWindow size = none ↔ 2 ^ 23 < size.toNat := by
  obtain ⟨hs, e⟩ | ⟨-, hs, e⟩ | ⟨-, hs, e⟩ | ⟨-, hs, e⟩ | ⟨hs, e⟩ := obWindow_cases size <;>
    simp only [e, reduceCtorEq, true_iff, false_iff] <;> omega

/-- The page base that is written has nothing in the place of the enable bit. -/
theorem windowBase_dspMemoryMap {pcAddr size obSize baseMask : Word}
    (h : obWindow size = some (obSize, baseMask)) (reg : Nat → Word) :
    windowBase (Stores.run (dspMemoryMap pcAddr size).2 reg) =
      pcAddr.toNat - pcAddr.toNat % 2 ^ (20 + obSize.toNat) := by
  obtain ⟨hm, -, -⟩ := obWindow_some h
  obtain ⟨-, hidx, -⟩ := run_dspMemoryMap h pcAddr reg
  have heven : 2 ∣ pcAddr.toNat - pcAddr.toNat % 2 ^ (20 + obSize.toNat) :=
    (dvd_pow_self 2 (by omega)).trans (Nat.dvd_sub_mod pcAddr.toNat)
  have hhalf := or_one_div (pcAddr &&& baseMask).toNat (k := 1) (by decide)
  rw [windowBase, hidx, toNat_and_ones_shl (k := 1) (by decide), BitVec.toNat_or,
    show (0x1 : Word).toNat = 1 from rfl]
  rw [toNat_and_ones_shl hm] at hhalf ⊢
  omega

theorem windowLength_dspMemoryMap {pcAddr size obSize baseMask : Word}
    (h : obWindow size = some (obSize, baseMask)) (reg : Nat → Word) :
    windowLength (Stores.run (dspMemoryMap pcAddr size).2 reg) = 2 ^ (20 + obSize.toNat) := by
  obtain ⟨hsz, -, -⟩ := run_dspMemoryMap h pcAddr reg
  rw [windowLength, hsz, Nat.shiftLeft_eq, Nat.pow_add]

/-- The DSP reaches the addresses of the window through it: offset `o` of window 0 is the byte `o` past
its base. -/
theorem outbound_eq_windowBase {pcAddr size : Word} (h : (dspMemoryMap pcAddr size).1 = 0)
    (reg : Nat → Word) (o : Nat) :
    outbound (Stores.run (dspMemoryMap pcAddr size).2 reg) o =
      windowBase (Stores.run (dspMemoryMap pcAddr size).2 reg) + o := by
  cases hw : obWindow size with
  | none =>
    have hd : dspMemoryMap pcAddr size = (-1, []) := by rw [dspMemoryMap, hw]
    rw [hd] at h
    exact absurd h (by decide)
  | some w => rw [outbound_dspMemoryMap hw, windowBase_dspMemoryMap hw]

/-! ## When it covers the range -/

/-- The window set up for `size` bytes covers them exactly if they end in it. -/
theorem covers_dspMemoryMap {pcAddr size obSize baseMask : Word}
    (h : obWindow size = some (obSize, baseMask)) (reg : Nat → Word) :
    Covers (windowBase (Stores.run (dspMemoryMap pcAddr size).2 reg))
        (windowLength (Stores.run (dspMemoryMap pcAddr size).2 reg)) pcAddr.toNat size.toNat ↔
      pcAddr.toNat % 2 ^ (20 + obSize.toNat) + size.toNat ≤ 2 ^ (20 + obSize.toNat) := by
  rw [windowBase_dspMemoryMap h, windowLength_dspMemoryMap h]
  rcases Nat.eq_zero_or_pos size.toNat with h0 | hpos
  · have hlt := Nat.mod_lt pcAddr.toNat (Nat.two_pow_pos (20 + obSize.toNat))
    rw [h0]
    exact ⟨fun _ => hlt.le, fun _ => covers_empty⟩
  · exact covers_down_iff hpos

/-- **What the outbound window covers**: all of the range, exactly if the range does not cross the end
of the least window that its length fits in. What is longer than 8 MiB is refused, rightly. -/
theorem windowCovers_iff (pcAddr size : Word) : WindowCovers pcAddr size ↔ InOneWindow pcAddr size := by
  cases hw : obWindow size with
  | none =>
    have hd : dspMemoryMap pcAddr size = (-1, []) := by rw [dspMemoryMap, hw]
    have hbig : 2 ^ 23 < size.toNat := obWindow_eq_none.mp hw
    have hpow {k : Nat} (hk : k ≤ 3) : 2 ^ (20 + k) < size.toNat :=
      (Nat.pow_le_pow_right (by decide) (by omega)).trans_lt hbig
    refine ⟨fun _ k hk hleast => absurd hleast.1 (Nat.not_le.mpr (hpow hk)), fun _ => ⟨?_, ?_⟩⟩
    · rw [hd]
      exact fun h => absurd h (by decide)
    · rw [hd]
      exact fun _ => ⟨rfl, rfl, fun k hk b _ hc => absurd hc.le (Nat.not_le.mpr (hpow hk))⟩
  | some w =>
    obtain ⟨obSize, baseMask⟩ := w
    have hret : (dspMemoryMap pcAddr size).1 = 0 := by rw [dspMemoryMap, hw]
    have hleast := obWindow_least hw
    constructor
    · intro h k _ hk
      obtain rfl : k = obSize.toNat := hk.unique hleast
      exact (covers_dspMemoryMap hw fun _ => 0).mp (h.covers hret _)
    · intro h
      have hin := h obSize.toNat (obWindow_some hw).2.2 hleast
      exact ⟨fun _ reg => (covers_dspMemoryMap hw reg).mpr hin, fun hne => absurd hret hne⟩

/-- 4 MiB from a multiple of 1 MiB that is not one of 4 MiB. -/
theorem not_windowCovers_low : ¬ WindowCovers 0x01300000 0x400000 := by
  intro h
  have hc := h.covers (by decide) (fun _ => 0) 0x01400000 (by decide) (by decide)
  exact absurd hc (by decide)

end Dspc
