import DspcDriver.Entry.Interrupt

/-!
# Opening the file during a load

`cdev_add` makes the file of the first chip visible, and from then on a process can open it while
`init_module` is still mapping the windows and starting the chip. `DPU_open` uses the unit of the chip,
which `init_module` stores only behind all this. So every load that makes the file visible goes through a
moment at which opening it dereferences a null pointer, with the handle already allocated
(`open_too_early`).
-/

namespace Dspc

open Lib

/-- **The file can be opened too early.** Every load that makes the file of the first chip visible goes
through a moment `es` at which it is and the unit is not stored; an open at this moment allocates the handle
and dereferences a null pointer. -/
theorem open_too_early {env : InitEnv} (h : .acquire (.cdevAdded 0) ∈ (init_module env).events) :
    ∃ es, es <+: (init_module env).events ∧ .acquire (.cdevAdded 0) ∈ es ∧
      .store .g_pProcessorUnitDev 0 ∉ es ∧
      ∀ (chips : Chips) (p : Word), ((chips.g_pProcessorUnitDev 0).isSome →
        .store .g_pProcessorUnitDev 0 ∈ es) →
        DPU_open chips 0 (some p) =
          ⟨[.entry .g_pProcessorUnitDev 0, .kmalloc p], .error .nullPointer⟩ := by
  -- the moment at which `cdev_add` returns
  obtain ⟨before, behind, hev⟩ := List.append_of_mem h
  have hes : before ++ [.acquire (.cdevAdded 0)] <+: (init_module env).events := by
    rw [hev]
    exact ⟨behind, by simp⟩
  have hno : .store .g_pProcessorUnitDev 0 ∉ before ++ [InitEvent.acquire (.cdevAdded 0)] := by
    intro hmem
    have hpre := stages_within hes
    have hunit : Stage.unitEntry ∈
        (before ++ [InitEvent.acquire (.cdevAdded 0)]).filterMap InitEvent.stage :=
      List.mem_filterMap.mpr ⟨_, hmem, rfl⟩
    rw [InitEnv.stages, ← List.append_assoc] at hpre
    rcases prefix_append_cases hpre with hp | ⟨q, hq, hp⟩
    · have hmem := hp.subset hunit
      split at hmem <;> simp at hmem
    · -- the file would be behind the window
      rw [List.filterMap_append] at hp
      rcases q.eq_nil_or_concat with rfl | ⟨q', z, rfl⟩
      · rw [← List.filterMap_append, List.append_nil] at hp
        rw [hp] at hunit
        split at hunit <;> simp at hunit
      · rw [List.concat_eq_append, ← List.append_assoc] at hp
        obtain rfl : Stage.file = z := List.singleton_inj.mp (List.append_inj_right' hp rfl)
        have hmem := hq.subset (by simp : Stage.file ∈ q'.concat .file)
        rw [InitEnv.startStages, InitEnv.unitStages] at hmem
        split_ifs at hmem <;> simp at hmem
  refine ⟨_, hes, by simp, hno, fun chips p hchips => ?_⟩
  have hnull : chips.g_pProcessorUnitDev 0 = none := by
    rw [← Option.not_isSome_iff_eq_none]
    exact fun hsome => hno (hchips hsome)
  simp only [DPU_open, useEntry, Trace.emit, Trace.mk_ok_bind, hnull, derefPtr, Trace.stop]
  rfl

theorem open_too_early_empty :
    ∃ es, es <+: (init_module emptyLoad).events ∧ .acquire (.cdevAdded 0) ∈ es ∧
      .store .g_pProcessorUnitDev 0 ∉ es ∧
      ∀ (chips : Chips) (p : Word), ((chips.g_pProcessorUnitDev 0).isSome →
        .store .g_pProcessorUnitDev 0 ∈ es) →
        DPU_open chips 0 (some p) =
          ⟨[.entry .g_pProcessorUnitDev 0, .kmalloc p], .error .nullPointer⟩ :=
  open_too_early (by decide)

end Dspc
