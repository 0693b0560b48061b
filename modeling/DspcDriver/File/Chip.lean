import DspcDriver.File.Code

/-!
# The chip of a file

`DPU_open` takes the register table of a file from the chip with the minor number of its node,
`DPU_ioctl` the interrupt register and the semaphores from the chip that the node's name has. They
agree exactly if the name, as `sscanf` reads it, names the minor number (`ioctl_own_chip_iff`).
-/

namespace Dspc

open Lib

/-- The node name is `chipUnit` and a decimal integer that is `chipIndex` in eight bits. A name of any
other form stands for chip 0. -/
def NamesChip (name : List Byte) (chipIndex : Nat) : Prop :=
  (∃ s n, name = devNameStr ++ s ∧ kernelAlphabet.Reads s n ∧ n % 256 = chipIndex) ∨
    ((∀ s n, name = devNameStr ++ s → ¬ kernelAlphabet.Reads s n) ∧ chipIndex = 0)

/-- The open file `f` of the node `name` acts on the chip whose register table its open has put into
the handle, whatever the `ioctl`. -/
def ActsOnOwnChip (chips : Chips) (name : List Byte) (minor : Nat) (kmalloc : Option Word)
    (f : PrivateData) : Prop :=
  ∃ chip < 4, .entry .gpRegisterTable chip ∈ (DPU_open chips minor kmalloc).events ∧
    f.handle.pRegisterTable = chips.gpRegisterTable chip ∧
    ∀ cmd arg, Trace.All (fun e => ∀ i, e.chip = some i → i = chip)
      (DPU_ioctl chips name f.handle cmd arg)

theorem toNat_ofInt8 (n : Int) : ((BitVec.ofInt 8 n).toNat : Int) = n % 256 := by
  rw [BitVec.toNat_ofInt]
  omega

/-- **The chip that `DPU_ioctl` takes from a name.** -/
theorem nodeChip_eq_iff {name : List Byte} {chipIndex : Nat} :
    (nodeChip name).toNat = chipIndex ↔ NamesChip name chipIndex := by
  unfold nodeChip
  split
  · rename_i n hn
    obtain ⟨s, hs, hr⟩ := Alphabet.scanf_eq_some.mp hn
    have h8 := toNat_ofInt8 n
    constructor
    · intro h
      exact .inl ⟨s, n, hs, hr, by omega⟩
    · rintro (⟨s', n', hs', hr', hn'⟩ | ⟨h, -⟩)
      · obtain rfl : n' = n := by
          have := Alphabet.scanf_eq_some.mpr ⟨s', hs', hr'⟩
          rw [hn] at this
          cases this
          rfl
        omega
      · exact absurd hr (h s n hs)
  · rename_i hnone
    have hno : ∀ s n, name = devNameStr ++ s → ¬ kernelAlphabet.Reads s n := by
      intro s n hs hr
      rw [Alphabet.scanf_eq_some.mpr ⟨s, hs, hr⟩] at hnone
      cases hnone
    constructor
    · intro h
      exact .inr ⟨hno, h.symm⟩
    · rintro (⟨s, n, hs, hr, -⟩ | ⟨-, rfl⟩)
      · exact absurd hr (hno s n hs)
      · rfl

section

variable {chips : Chips} {name : List Byte} {minor : Nat} {kmalloc : Option Word} {f : PrivateData}

/-- An `ioctl` uses the entries of the chip of the name, and of no other. -/
theorem ioctl_chip (cmd : Word) (h : LinkLayerHandler) (arg : IoctlArg) :
    Trace.All (fun e => ∀ i, e.chip = some i → i = (nodeChip name).toNat)
      (DPU_ioctl chips name h cmd arg) := by
  have huse : ∀ i, some (nodeChip name).toNat = some i → i = (nodeChip name).toNat :=
    fun i hi => (Option.some.inj hi).symm
  exact all_ioctl nofun nofun nofun huse nofun fun _ _ => huse

/-- The interrupt command uses the entry of the chip of the name. -/
theorem interrupt_chip (h : LinkLayerHandler) (arg : IoctlArg) :
    .entry .g_pPcieBarReg (nodeChip name).toNat ∈
      (DPU_ioctl chips name h DPU_IO_CMD_INTERRUPT arg).events := by
  rw [ioctl_interrupt]
  by_cases hlt : (nodeChip name).toNat < 4
  · rw [useEntry_of_lt hlt]
    exact List.mem_cons_self
  · rw [useEntry_of_ge hlt]
    exact List.mem_cons_self

/-- An open takes one register table, that of the minor number. -/
theorem mem_open {chip : Nat} (h : (DPU_open chips minor kmalloc).out = .ok (0, some f)) :
    .entry .gpRegisterTable chip ∈ (DPU_open chips minor kmalloc).events ↔ chip = minor := by
  obtain ⟨hm, rfl, u, hu, -, -⟩ := open_ok h
  simp [open_eq hm hu]

/-- **When a file acts on its own chip**: exactly if the name of its node names its minor number. -/
theorem ioctl_own_chip_iff (h : (DPU_open chips minor kmalloc).out = .ok (0, some f)) :
    ActsOnOwnChip chips name minor kmalloc f ↔ NamesChip name minor := by
  obtain ⟨hm, -, u, hu, hf, -⟩ := open_ok h
  rw [← nodeChip_eq_iff]
  constructor
  · rintro ⟨chip, -, hopen, -, hacts⟩
    obtain rfl := (mem_open h).mp hopen
    exact hacts DPU_IO_CMD_INTERRUPT ⟨0, 0, false, 0, fun _ _ => 0⟩ _ (interrupt_chip _ _) _ rfl
  · rintro rfl
    refine ⟨_, hm, (mem_open h).mpr rfl, ?_, fun cmd arg => ioctl_chip cmd f.handle arg⟩
    rw [hf, table_of_handle hu]

end

/-- The tables when one chip was found: `init_module` sets up the first chip only. -/
def firstChip : Chips where
  g_pProcessorUnitDev i := if i = 0 then some ⟨c6678Bar, 0⟩ else none
  g_pPcieBarReg i := if i = 0 then some c6678Bar else none
  gpRegisterTable i := if i = 0 then 0xC1400000 else 0
  devMinor_eq i u h := by
    split at h
    · rename_i hi
      cases h
      exact hi.symm
    · cases h

/-- The open file of the first chip. -/
def firstFile : PrivateData := ⟨0xC7000000, firstChip.handle ⟨c6678Bar, 0⟩⟩

theorem firstFile_open : (DPU_open firstChip 0 (some 0xC7000000)).out = .ok (0, some firstFile) :=
  rfl

/-- `chipUnit0`, minor 0. -/
theorem ioctl_own_chip_iff_first :
    ActsOnOwnChip firstChip (devNameStr ++ [0x30]) 0 (some 0xC7000000) firstFile ↔
      NamesChip (devNameStr ++ [0x30]) 0 :=
  ioctl_own_chip_iff firstFile_open

/-- `chipUnit1`, minor 0: the interrupt goes to the next chip. -/
theorem chipUnit1_not_own_chip :
    (DPU_open firstChip 0 (some 0xC7000000)).out = .ok (0, some firstFile) ∧
      ¬ ActsOnOwnChip firstChip (devNameStr ++ [0x31]) 0 (some 0xC7000000) firstFile := by
  refine ⟨firstFile_open, ?_⟩
  rintro ⟨chip, -, hopen, -, hacts⟩
  obtain rfl := (mem_open firstFile_open).mp hopen
  have h1 : (nodeChip (devNameStr ++ [0x31])).toNat = 1 := by decide
  have := hacts DPU_IO_CMD_INTERRUPT ⟨0, 0, false, 0, fun _ _ => 0⟩ _ (interrupt_chip _ _) _ rfl
  rw [h1] at this
  cases this

end Dspc
