import DspcDriver.File.Chip

/-!
# The pages that a process maps

`DPU_mmap` maps as many bytes as the vma has, in 32 bits, from the page of the register table on. The
table is at the start of the DMA buffer only if the buffer's physical address is a multiple of 1 MiB
(`table_in_buffer`); the length is not compared with the buffer's; and where `remap_pfn_range` fails,
the call returns 0. `confined_iff` says when the mapping is the one of the buffer nevertheless.

`virt_to_phys` is a parameter: the kernel maps the buffer linearly, `v + d` to `p + d`.
-/

namespace Dspc

open Lib

/-- What a call of `DPU_mmap` shows the process: its page `k` of the vma is the physical page `n`.
`stateCode` is the result of `remap_pfn_range`; a call that failed has not mapped the vma. -/
def MapsPage (x : FileM Int) (stateCode : Int) (vm_start k n : Nat) : Prop :=
  0 ≤ stateCode ∧ ∃ pfn length, .remap vm_start pfn length ∈ x.events ∧
    k * 2 ^ PAGE_SHIFT < length.toNat ∧ n = pfn.toNat + k

/-- A call `x` of `DPU_mmap` for `vm_end - vm_start` bytes that returns success maps the vma to the
pages from `page` on, inside the DMA buffer at `p`; a vma that is longer than the buffer is refused. -/
structure Confined (p : Word) (page vm_start vm_end : Nat) (stateCode : Int) (x : FileM Int) :
    Prop where
  inside : ∀ r, x.out = .ok r → 0 ≤ r → ∀ k n, MapsPage x stateCode vm_start k n →
    p.toNat ≤ n * 2 ^ PAGE_SHIFT ∧
      n * 2 ^ PAGE_SHIFT + 2 ^ PAGE_SHIFT ≤ p.toNat + DMA_TRANSFER_SIZE.toNat
  covers : ∀ r, x.out = .ok r → 0 ≤ r → ∀ k, k * 2 ^ PAGE_SHIFT < vm_end - vm_start →
    MapsPage x stateCode vm_start k (page + k)
  refused : DMA_TRANSFER_SIZE.toNat < vm_end - vm_start → ∀ r, x.out = .ok r → r < 0

section

variable {virt_to_phys : Word → Word} {h : LinkLayerHandler} {v p : Word} {vm_start vm_end : Nat}
  {stateCode : Int}

theorem mmap_out : ∃ r, (DPU_mmap virt_to_phys h vm_start vm_end stateCode).out = .ok r ∧ 0 ≤ r := by
  refine ⟨if stateCode < 0 then 0 else stateCode, rfl, ?_⟩
  split
  · exact Int.le_refl 0
  · omega

/-- The pages of a call: as many as the length has in 32 bits. -/
theorem mapsPage_iff {k n : Nat} :
    MapsPage (DPU_mmap virt_to_phys h vm_start vm_end stateCode) stateCode vm_start k n ↔
      0 ≤ stateCode ∧ k * 2 ^ PAGE_SHIFT < (vm_end - vm_start) % 2 ^ 32 ∧
        n = (virt_to_phys h.pRegisterTable).toNat / 2 ^ PAGE_SHIFT + k := by
  rw [← BitVec.toNat_ofNat, ← Nat.shiftRight_eq_div_pow, ← BitVec.toNat_ushiftRight]
  constructor
  · rintro ⟨hs, pfn, length, hm, hlt, hn⟩
    obtain ⟨-, rfl, rfl⟩ := FileEvent.remap.inj (List.mem_singleton.mp hm)
    exact ⟨hs, hlt, hn⟩
  · rintro ⟨hs, hlt, hn⟩
    exact ⟨hs, _, _, List.mem_singleton_self _, hlt, hn⟩

/-- The physical address of the register table: that of the buffer, rounded down to 1 MiB. -/
theorem phys_table (hv : ∀ d, virt_to_phys (v + d) = p + d) :
    (virt_to_phys (zone v p).pRegisterTable).toNat = p.toNat - p.toNat % 2 ^ 20 := by
  have hz : (zone v p).pRegisterTable = v + ((zone v p).alignPhyAddr - p) := rfl
  rw [hz, hv, ← toNat_alignPhyAddr v p]
  congr 1
  grind

end

/-- **When a mapping is confined to the shared zone**: the vma is no longer than the buffer, and unless
it is empty, the buffer's physical address is a multiple of 1 MiB and `remap_pfn_range` succeeds. -/
theorem confined_iff {virt_to_phys : Word → Word} {chips : Chips} {minor : Nat}
    {kmalloc : Option Word} {f : PrivateData} {v p : Word} {vm_start vm_end : Nat} {stateCode : Int}
    (hv : ∀ d, virt_to_phys (v + d) = p + d)
    (hz : chips.gpRegisterTable minor = (zone v p).pRegisterTable)
    (hopen : (DPU_open chips minor kmalloc).out = .ok (0, some f)) (hle : vm_start ≤ vm_end) :
    Confined p ((virt_to_phys (chips.gpRegisterTable minor)).toNat / 2 ^ PAGE_SHIFT) vm_start vm_end
        stateCode (DPU_mmap virt_to_phys f.handle vm_start vm_end stateCode) ↔
      vm_end - vm_start ≤ DMA_TRANSFER_SIZE.toNat ∧
        (vm_start = vm_end ∨ p.toNat % 2 ^ 20 = 0 ∧ 0 ≤ stateCode) := by
  obtain ⟨-, -, u, hu, hf, -⟩ := open_ok hopen
  have htab : f.handle.pRegisterTable = (zone v p).pRegisterTable := by
    rw [hf, table_of_handle hu, hz]
  have hphys := phys_table hv
  have hsize : DMA_TRANSFER_SIZE.toNat = 2 ^ 22 := rfl
  have hshift : (2 : Nat) ^ PAGE_SHIFT = 4096 := rfl
  obtain ⟨r, hr, hr0⟩ := @mmap_out virt_to_phys f.handle vm_start vm_end stateCode
  constructor
  · rintro ⟨hin, hcov, href⟩
    have hlen : vm_end - vm_start ≤ DMA_TRANSFER_SIZE.toNat := by
      by_contra hlt
      have := href (by omega) r hr
      omega
    refine ⟨hlen, ?_⟩
    by_cases he : vm_start = vm_end
    · exact .inl he
    · have hm := hcov r hr hr0 0 (by omega)
      have hi := (hin r hr hr0 0 _ hm).1
      rw [hz, hphys, hshift] at hi
      exact .inr ⟨by omega, (mapsPage_iff.mp hm).1⟩
  · rintro ⟨hlen, he⟩
    refine ⟨fun _ _ _ k n hm => ?_, fun _ _ _ k hk => ?_, fun hlt => absurd hlen (by omega)⟩
    · obtain ⟨-, hk, rfl⟩ := mapsPage_iff.mp hm
      rw [htab, hphys, hshift, hsize] at *
      rcases he with rfl | ⟨h20, -⟩
      · omega
      · omega
    · refine mapsPage_iff.mpr ⟨?_, ?_, ?_⟩
      · rcases he with rfl | ⟨-, hs⟩
        · omega
        · exact hs
      · rw [hsize] at hlen
        omega
      · rw [htab, hz]

/-- The buffer of the first chip, with the kernel's memory at `0xC0000000`. -/
theorem firstChip_linear (d : Word) : 0xC1400000 + d - 0xC0000000 = 0x01400000 + d := by
  grind

/-- A vma of the size of the buffer. -/
theorem confined_iff_first :
    Confined 0x01400000 0x1400 0x40000000 0x40400000 0
        (DPU_mmap (· - 0xC0000000) firstFile.handle 0x40000000 0x40400000 0) ↔
      0x40400000 - 0x40000000 ≤ DMA_TRANSFER_SIZE.toNat ∧
        (0x40000000 = 0x40400000 ∨ (0x01400000 : Word).toNat % 2 ^ 20 = 0 ∧ (0 : Int) ≤ 0) :=
  @confined_iff (· - 0xC0000000) firstChip 0 (some 0xC7000000) firstFile 0xC1400000 0x01400000
    0x40000000 0x40400000 0 firstChip_linear rfl firstFile_open (by decide)

/-- A vma of 16 MiB gets all of its pages. -/
theorem long_vma_not_confined :
    ¬ Confined 0x01400000 0x1400 0x40000000 0x41000000 0
      (DPU_mmap (· - 0xC0000000) firstFile.handle 0x40000000 0x41000000 0) := by
  rintro ⟨-, -, h⟩
  exact absurd (h (by decide) 0 rfl) (by decide)

end Dspc
