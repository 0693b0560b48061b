import DspcDriver.Upload.Table

/-!
# `pcie.c`: the mapped windows and the inbound translation

`PcieBarReg` is `pcieBarReg_t`, with `none` for a null pointer. `PCI_setInBound` is the list of its
`iowrite32`s; `inbound` is what the registers mean: the DSP address that a PCIe address of a BAR
reaches. `Loc.dspAddr` composes both with the mapping of a window on its BAR, and
`dspAddr_setInBound` computes it: each window starts at its DSP base, and the L2 window at core 0's
global alias of it, whatever core a caller has in mind.
-/

namespace Dspc

open Lib

/-- `pcieBarReg_t`. -/
structure PcieBarReg where
  regVirt : Option Nat
  memVirt : Option Nat
  msmcVirt : Option Nat
  ddrVirt : Option Nat
  regBase : Nat
  memBase : Nat
  msmcBase : Nat
  ddrBase : Nat
  memLen : Nat
  regLen : Nat
  msmcLen : Nat
  ddrLen : Nat

/-- The recorded length of a window. -/
def PcieBarReg.len (r : PcieBarReg) : Window → Nat
  | .mem => r.memLen
  | .msmc => r.msmcLen
  | .ddr => r.ddrLen

/-- Every store ends inside the recorded length of its window. -/
def InBounds (bar : PcieBarReg) (st : List Store) : Prop :=
  ∀ x ∈ st, 4 * x.1.index + 4 ≤ bar.len x.1.window

/-- The windows of the 6678 by the comments of `PCI_readBAR`: 512K of local L2, 4M of shared L2, 16M
of DDR3. -/
def c6678Bar : PcieBarReg where
  regVirt := some 0xF8000000
  memVirt := some 0xF8100000
  msmcVirt := some 0xF8400000
  ddrVirt := some 0xF9000000
  regBase := 0xE0000000
  memBase := 0xE0100000
  msmcBase := 0xE0400000
  ddrBase := 0xE1000000
  memLen := 0x80000
  regLen := 0x1000
  msmcLen := 0x400000
  ddrLen := 0x1000000

/-! ## Inbound translation -/

/-- The writes of `PCI_setInBound` to the application registers, by byte offset; `start i` is
`resource[i].start`. -/
def PCI_setInBound (start : Nat → Nat) : List (Nat × Word) :=
  (List.range 4).flatMap (fun i =>
    [(IB_BAR i, BitVec.ofNat 32 i), (IB_START_LO i, BitVec.ofNat 32 (start i)), (IB_START_HI i, 0)])
  ++ [(IB_OFFSET 0, PCIE_BASE_ADDRESS), (IB_OFFSET 1, LL2_START + (1 <<< 28)), (IB_OFFSET 2, MSMC_START),
    (IB_OFFSET 3, DDR_START)]

/-- The DSP address that PCIe address `x` of BAR `bar` reaches: the region that is set to the BAR
moves the distance from its start to its offset. -/
def inbound (reg : Nat → Word) (bar x : Nat) : Option Nat :=
  ((List.range 4).find? fun i => (reg (IB_BAR i)).toNat == bar).map fun i =>
    (reg (IB_OFFSET i)).toNat + (x - ((reg (IB_START_HI i)).toNat * 2 ^ 32 + (reg (IB_START_LO i)).toNat))

/-- The BAR that `PCI_readBAR` maps a window on. -/
def Window.bar : Window → Nat
  | .mem => 1
  | .msmc => 2
  | .ddr => 3

/-- The DSP address that a store through a window reaches, with the registers `reg`. -/
def Loc.dspAddr (reg : Nat → Word) (start : Nat → Nat) (l : Loc) : Option Nat :=
  inbound reg l.window.bar (start l.window.bar + 4 * l.index)

/-- The DSP address of a window's first word. -/
def Window.global : Window → Nat
  | .mem => 0x10800000
  | .msmc => 0x0C000000
  | .ddr => 0x80000000

/-- The registers after `PCI_setInBound`. -/
theorem run_setInBound (start : Nat → Nat) (reg : Nat → Word) {i : Nat} (hi : i < 4) :
    Stores.run (PCI_setInBound start) reg (IB_BAR i) = BitVec.ofNat 32 i ∧
    Stores.run (PCI_setInBound start) reg (IB_START_LO i) = BitVec.ofNat 32 (start i) ∧
    Stores.run (PCI_setInBound start) reg (IB_START_HI i) = 0 := by
  obtain rfl | rfl | rfl | rfl : i = 0 ∨ i = 1 ∨ i = 2 ∨ i = 3 := by omega
  all_goals exact ⟨rfl, rfl, rfl⟩

theorem run_setInBound_offset (start : Nat → Nat) (reg : Nat → Word) (w : Window) :
    (Stores.run (PCI_setInBound start) reg (IB_OFFSET w.bar)).toNat = w.global := by
  cases w <;> rfl

/-- **The inbound map**: word `index` of a window is the DSP word at that distance from the
window's global base. -/
theorem dspAddr_setInBound (start : Nat → Nat) (hs : ∀ i < 4, start i < 2 ^ 32) (reg : Nat → Word)
    (l : Loc) :
    l.dspAddr (Stores.run (PCI_setInBound start) reg) start = some (l.window.global + 4 * l.index) := by
  have hb : l.window.bar < 4 := by cases l.window <;> decide
  have hfind : (List.range 4).find? (fun i =>
      (Stores.run (PCI_setInBound start) reg (IB_BAR i)).toNat == l.window.bar) = some l.window.bar := by
    cases l.window <;> rfl
  obtain ⟨-, hlo, hhi⟩ := run_setInBound start reg hb
  have h32 := hs _ hb
  unfold Loc.dspAddr inbound
  rw [hfind, Option.map_some, run_setInBound_offset, hlo, hhi, BitVec.toNat_ofNat,
    Nat.mod_eq_of_lt h32, Option.some.injEq, show (0 : Word).toNat = 0 from rfl]
  omega

end Dspc
