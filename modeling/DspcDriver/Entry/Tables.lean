import DspcDriver.Entry.Interrupt

/-!
# The tables that a load leaves

The operations on a file use three tables (`Chips`). What a load has stored into them by a moment `es` can
be read off its events: of each entry the last store decides. `chipsAt` are these tables, at every moment of
every load. From the return of `uploadProgram` on the first chip's file can be opened, and the handle has
the register table that the boot has computed from its DMA buffer (`open_of_uploaded`).
-/

namespace Dspc

open Lib

/-- What an event stores into `gpRegisterTable`. -/
def InitEvent.tableStore : InitEvent → Option (Nat × Word)
  | .boot i (.gpRegisterTable pRegisterTable) => some (i, pRegisterTable)
  | _ => none

/-- What an event makes the `devMinor` of the unit of a chip. -/
def InitEvent.unitStore : InitEvent → Option (Nat × Option Nat)
  | .unit i devMinor => some (i, some devMinor)
  | _ => none

/-- `gpRegisterTable` after the events `es`. -/
def registerTableAt (es : List InitEvent) : Nat → Word :=
  Stores.run (es.filterMap InitEvent.tableStore) fun _ => 0

/-- The `devMinor` of the chips that have a unit after the events `es`. -/
def devMinorAt (es : List InitEvent) : Nat → Option Nat :=
  Stores.run (es.filterMap InitEvent.unitStore) fun _ => none

/-- The tables are those that the load has left by the events `es`; of a record only `regVirt` is told. -/
structure Chips.LeftBy (env : InitEnv) (es : List InitEvent) (chips : Chips) : Prop where
  units : ∀ i, (chips.g_pProcessorUnitDev i).map (·.devMinor) = devMinorAt es i
  /-- The unit has a pointer to the chip's own record. -/
  unitRecord : ∀ i u, chips.g_pProcessorUnitDev i = some u → chips.g_pPcieBarReg i = some u.pPciBarReg
  records : ∀ i, (chips.g_pPcieBarReg i).map (·.regVirt) = regVirtAt env es i
  tables : ∀ i, chips.gpRegisterTable i = registerTableAt es i

section Moment

variable {env : InitEnv} {es : List InitEvent}

/-- A load sets up no unit but that of the first chip. -/
theorem unit_zero (hes : es <+: (init_module env).events) {i m : Nat} (h : .unit i m ∈ es) :
    i = 0 ∧ m = 0 := by
  have hall : (init_module env).All fun e => ∀ i m, e = .unit i m → i = 0 ∧ m = 0 :=
    init_all nofun nofun nofun (by rintro _ _ ⟨⟩; exact ⟨rfl, rfl⟩) nofun
  exact hall _ (hes.subset h) i m rfl

theorem unit_of_devMinorAt {i m : Nat} (h : devMinorAt es i = some m) : .unit i m ∈ es := by
  rw [devMinorAt, Stores.run_eq_last] at h
  cases hl : Stores.last (es.filterMap InitEvent.unitStore) i with
  | none =>
    rw [hl] at h
    cases h
  | some v =>
    rw [hl, Option.getD_some] at h
    obtain ⟨e, he, hst⟩ := List.mem_filterMap.mp (Stores.mem_of_last hl)
    unfold InitEvent.unitStore at hst
    split at hst
    · cases hst
      cases h
      exact he
    · cases hst

/-- A unit comes with a record. -/
theorem record_of_unit (hes : es <+: (init_module env).events) {i m : Nat}
    (h : devMinorAt es i = some m) : ∃ regVirt, regVirtAt env es i = some (some regVirt) := by
  have hunit := unit_of_devMinorAt h
  obtain ⟨rfl, rfl⟩ := unit_zero hes hunit
  obtain ⟨regVirt, -, hat⟩ := regVirtAt_of_mem (y := .unit 0) hes
    (List.mem_filterMap.mpr ⟨_, hunit, rfl⟩) (by decide)
  exact ⟨regVirt, hat⟩

/-- The tables at a moment of a load. -/
def chipsAt (env : InitEnv) (es : List InitEvent) (hes : es <+: (init_module env).events) : Chips where
  g_pProcessorUnitDev i := (devMinorAt es i).bind fun devMinor =>
    (regVirtAt env es i).map fun regVirt => ⟨{ PcieBarReg.zeroed with regVirt }, devMinor⟩
  g_pPcieBarReg i := (regVirtAt env es i).map fun regVirt => { PcieBarReg.zeroed with regVirt }
  gpRegisterTable := registerTableAt es
  devMinor_eq i u h := by
    obtain ⟨m, hm, hu⟩ := Option.bind_eq_some_iff.mp h
    obtain ⟨regVirt, -, rfl⟩ := Option.map_eq_some_iff.mp hu
    obtain ⟨rfl, rfl⟩ := unit_zero hes (unit_of_devMinorAt hm)
    rfl

/-- **A load leaves such tables** at every moment. -/
theorem chipsAt_leftBy (hes : es <+: (init_module env).events) : (chipsAt env es hes).LeftBy env es where
  units i := by
    show Option.map _ ((devMinorAt es i).bind _) = _
    cases hm : devMinorAt es i with
    | none => rfl
    | some m =>
      obtain ⟨regVirt, hat⟩ := record_of_unit hes hm
      rw [Option.bind_some, hat]
      rfl
  unitRecord i u h := by
    obtain ⟨m, -, hu⟩ := Option.bind_eq_some_iff.mp h
    obtain ⟨regVirt, hat, rfl⟩ := Option.map_eq_some_iff.mp hu
    exact Option.map_eq_some_iff.mpr ⟨regVirt, hat, rfl⟩
  records i := (Option.map_map _ _ _).trans (congrFun Option.map_id _)
  tables _ := rfl

/-! ### Behind the upload -/

theorem table_of_mem {w : Word} (h : .table w ∈ env.stages) : w = (env.boot 0).registerTable := by
  simp only [InitEnv.stages, InitEnv.startStages, InitEnv.unitStages, List.mem_append] at h
  split_ifs at h <;> simp at h
  all_goals exact h

/-- The return of `uploadProgram` is the last of the stages. -/
theorem stages_of_uploaded (hes : es <+: (init_module env).events) {r : Int}
    (hup : .boot 0 (.uploaded r) ∈ es) : .unit 0 ∈ es.filterMap InitEvent.stage ∧
      .table (env.boot 0).registerTable ∈ es.filterMap InitEvent.stage := by
  have hmem : Stage.uploaded ∈ es.filterMap InitEvent.stage := List.mem_filterMap.mpr ⟨_, hup, rfl⟩
  have hpre := stages_within hes
  have hlast := hpre.subset hmem
  rw [InitEnv.stages, InitEnv.startStages, InitEnv.unitStages] at hpre hlast
  have hwin : env.hasWindow = true := by
    by_contra h
    rw [if_neg h] at hlast
    split at hlast <;> simp at hlast
  have hkz : env.kzallocUnitDev 0 = true := by
    by_contra h
    rw [if_neg h] at hlast
    split_ifs at hlast <;> simp at hlast
  rw [if_pos hwin, if_pos hkz, show [Stage.unit 0, .table (env.boot 0).registerTable, .uploaded] =
      [.unit 0, .table (env.boot 0).registerTable] ++ [.uploaded] from rfl] at hpre
  simp only [← List.append_assoc] at hpre
  rcases List.prefix_concat_iff.mp hpre with heq | hp
  · rw [heq]
    simp
  · have hmem := hp.subset hmem
    split_ifs at hmem <;> simp at hmem

theorem devMinorAt_of_uploaded (hes : es <+: (init_module env).events) {r : Int}
    (hup : .boot 0 (.uploaded r) ∈ es) : devMinorAt es 0 = some 0 := by
  obtain ⟨e, he, hs⟩ := List.mem_filterMap.mp (stages_of_uploaded hes hup).1
  obtain rfl := (eq_of_stage e).2.2.1 0 hs
  have hmem : (0, some 0) ∈ es.filterMap InitEvent.unitStore := List.mem_filterMap.mpr ⟨_, he, rfl⟩
  refine Stores.run_of_forall ⟨_, hmem, rfl⟩ (fun s hs h0 => ?_) _
  obtain ⟨e', he', hst⟩ := List.mem_filterMap.mp hs
  unfold InitEvent.unitStore at hst
  split at hst
  · cases hst
    rw [(unit_zero hes he').2]
  · cases hst

theorem registerTableAt_of_uploaded (hes : es <+: (init_module env).events) {r : Int}
    (hup : .boot 0 (.uploaded r) ∈ es) : registerTableAt es 0 = (env.boot 0).registerTable := by
  obtain ⟨e, he, hs⟩ := List.mem_filterMap.mp (stages_of_uploaded hes hup).2
  obtain rfl := (eq_of_stage e).2.2.2 _ hs
  have hmem : (0, (env.boot 0).registerTable) ∈ es.filterMap InitEvent.tableStore :=
    List.mem_filterMap.mpr ⟨_, he, rfl⟩
  refine Stores.run_of_forall ⟨_, hmem, rfl⟩ (fun s hs h0 => ?_) _
  obtain ⟨e', he', hst⟩ := List.mem_filterMap.mp hs
  unfold InitEvent.tableStore at hst
  split at hst
  · cases hst
    cases h0
    exact table_of_mem ((stages_within hes).subset (List.mem_filterMap.mpr ⟨_, he', rfl⟩))
  · cases hst

/-- **The table of a loaded chip** is that of the DMA buffer, as the mapping of a file and the transfers over
it take it. -/
theorem Chips.LeftBy.table {chips : Chips} (h : chips.LeftBy env es)
    (hes : es <+: (init_module env).events) {r : Int} (hup : .boot 0 (.uploaded r) ∈ es) {v p : Word}
    (hdma : (env.boot 0).dma = some (v, p)) : chips.gpRegisterTable 0 = (zone v p).pRegisterTable := by
  rw [h.tables, registerTableAt_of_uploaded hes hup, BootEnv.registerTable, BootEnv.dmaAddr, hdma]
  rfl

/-- **The file of a loaded chip can be opened**, and its handle has the table and the application registers
of the load. -/
theorem open_of_uploaded {chips : Chips} (h : chips.LeftBy env es)
    (hes : es <+: (init_module env).events) {r : Int} (hup : .boot 0 (.uploaded r) ∈ es) (p : Word) :
    ∃ f regVirt, (DPU_open chips 0 (some p)).out = .ok (0, some f) ∧ f.pHandle = p ∧
      f.handle.pRegisterTable = (env.boot 0).registerTable ∧ env.ioremap 0 0 = some regVirt ∧
      f.handle.pReadConfirmReg = BitVec.ofNat 32 regVirt + BitVec.ofNat 32 LEGACY_A_IRQ_STATUS_RAW ∧
      f.handle.pWriteConfirmReg =
        BitVec.ofNat 32 regVirt + BitVec.ofNat 32 LEGACY_B_IRQ_STATUS_RAW := by
  obtain ⟨regVirt, hmap, hat⟩ := regVirtAt_of_mem (y := .uploaded) hes
    (List.mem_filterMap.mpr ⟨_, hup, rfl⟩) (by decide)
  obtain ⟨u, hu, -⟩ : ∃ u, chips.g_pProcessorUnitDev 0 = some u ∧ u.devMinor = 0 :=
    Option.map_eq_some_iff.mp ((h.units 0).trans (devMinorAt_of_uploaded hes hup))
  have hvirt : u.pPciBarReg.regVirt = some regVirt := by
    have hrec := h.records 0
    rw [h.unitRecord 0 u hu, hat] at hrec
    exact Option.some.inj hrec
  refine ⟨⟨p, chips.handle u⟩, regVirt, by rw [open_eq (by decide) hu], rfl, ?_, hmap, ?_, ?_⟩
  · rw [table_of_handle hu, h.tables, registerTableAt_of_uploaded hes hup]
  · simp only [Chips.handle, hvirt, Option.getD_some]
  · simp only [Chips.handle, hvirt, Option.getD_some]

end Moment

end Dspc
