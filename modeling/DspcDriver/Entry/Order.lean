import DspcDriver.Entry.Bars
import DspcDriver.Entry.Load

/-!
# The order of a load

While `init_module` runs, the kernel can call `ISR_handler`, and a process can open the file of the first
chip. A `Stage` is what such a call depends on. `init_order`: whatever the kernel calls give and wherever
the load ends, its stages begin one fixed list (`InitEnv.stages`), in its order.
-/

namespace Dspc

open Lib

/-- What a load does of the first chip's set-up. -/
inductive Stage where
  /-- `g_pPcieBarReg` has what `kzalloc` gave. -/
  | record
  /-- `cdev_add` has made the file visible. -/
  | file
  /-- The application registers are mapped. -/
  | window
  /-- `ISR_handler` is registered. -/
  | handler
  /-- `g_pProcessorUnitDev` has what `kzalloc` gave. -/
  | unitEntry
  | unit (devMinor : Nat)
  /-- `gpRegisterTable` has the table. -/
  | table (pRegisterTable : Word)
  /-- `uploadProgram` has returned. -/
  | uploaded
  deriving DecidableEq

def BootEvent.stage : BootEvent → Option Stage
  | .gpRegisterTable pRegisterTable => some (.table pRegisterTable)
  | .uploaded _ => some .uploaded
  | _ => none

def InitEvent.stage : InitEvent → Option Stage
  | .store .g_pPcieBarReg 0 => some .record
  | .acquire (.cdevAdded 0) => some .file
  | .acquire (.mapping 0 0 _ _) => some .window
  | .acquire (.irq 0) => some .handler
  | .store .g_pProcessorUnitDev 0 => some .unitEntry
  | .unit 0 devMinor => some (.unit devMinor)
  | .boot 0 e => e.stage
  | _ => none

/-- The register table that a boot computes. -/
def BootEnv.registerTable (env : BootEnv) : Word := (zone env.dmaAddr.1 env.dmaAddr.2).pRegisterTable

/-- The first chip has a record, and its window is mapped. -/
def InitEnv.hasWindow (env : InitEnv) : Bool := env.kzallocBarReg 0 && (env.ioremap 0 0).isSome

/-- The stages behind the `kzalloc` of the unit. -/
def InitEnv.unitStages (env : InitEnv) : List Stage :=
  if env.kzallocUnitDev 0 then [.unit 0, .table (env.boot 0).registerTable, .uploaded] else []

/-- The stages of `startChip`. -/
def InitEnv.startStages (env : InitEnv) : List Stage :=
  (if env.request_irq 0 = 0 then [.handler] else []) ++ ([.unitEntry] ++ env.unitStages)

/-- The stages of a load, if it is not stopped and does not return early. -/
def InitEnv.stages (env : InitEnv) : List Stage :=
  [.record] ++ ((if env.cdev_add 0 = 0 then [.file] else []) ++
    ([.window] ++ if env.hasWindow then env.startStages else []))

/-! ## The parts -/

section Parts

variable {env : InitEnv} {dev : PciDev}

/-- No event of `x` is a stage. -/
def Quietly {α : Type} (x : InitM α) : Prop := x.All fun e => e.stage = none

theorem kcall_within (ok : Bool) {r : Resource} {y : Stage}
    (h : InitEvent.stage (.acquire r) = some y) : (kcall ok r).Within InitEvent.stage [y] := by
  cases ok with
  | true => exact (Trace.Emits.emit h).within
  | false => exact List.nil_prefix

/-- A call that reports its result by 0. -/
theorem kcall_emits (ret : Int) {r : Resource} {y : Stage}
    (h : InitEvent.stage (.acquire r) = some y) :
    (kcall (ret == 0) r).Emits InitEvent.stage (if ret = 0 then [y] else []) := by
  by_cases h0 : ret = 0
  · rw [if_pos h0, beq_iff_eq.mpr h0]
    exact .emit h
  · rw [if_neg h0, beq_eq_false_iff_ne.mpr h0]
    exact .pure ()

/-- The first loop over the other chips. -/
theorem initChips_quietly {l : List Nat} (h : 0 ∉ l) : Quietly (initChips env l) := by
  refine initChips_all fun i hi => initChip_all rfl fun table _ => ?_
  obtain ⟨i, rfl⟩ := Nat.exists_eq_succ_of_ne_zero fun h0 : i = 0 => h (h0 ▸ hi)
  cases table <;> rfl

/-- The first loop stores the record of the first chip. -/
theorem initChips_emits (n : Nat) :
    (initChips env (List.range (n + 1))).Emits InitEvent.stage [.record] := by
  rw [List.range_succ_eq_map]
  have hrest : Quietly (initChips env ((List.range n).map Nat.succ)) := initChips_quietly (by simp)
  have hstore : (storeTable .g_pPcieBarReg 0).Emits InitEvent.stage [.record] := .emit rfl
  have hfirst : (initChip env 0).Emits InitEvent.stage ([] ++ ([.record] ++ [])) :=
    .bind (.silent (kcall_all _ rfl)) fun _ _ => hstore.bind fun _ _ =>
      .silent (.bind (storeTable_all rfl) fun _ _ => .bind (storeTable_all rfl) fun _ _ =>
        storeTable_all rfl)
  exact hfirst.bind fun _ _ => .silent hrest

/-! ### `PCI_readBAR` -/

theorem mapBAR_within (isNull : Bool) (virt : Option Nat) :
    (mapBAR env 0 dev isNull 0 virt).Within InitEvent.stage [.window] := by
  refine .after (reserveBAR_all (fun _ _ => rfl) fun _ _ => rfl) fun _ _ => .ite (fun _ => ?_) fun _ =>
    .silent (.pure _)
  exact .bind_silent (kcall_within _ rfl) fun _ _ => .bind (deref_all _) fun _ _ => .pure _

theorem readBAR_within (pPcieBarReg : Option PcieBarReg) :
    (PCI_readBAR env 0 dev pPcieBarReg).Within InitEvent.stage [.window] :=
  have hall : ∀ bar virt, Quietly (mapBAR env 0 dev pPcieBarReg.isNone (bar + 1) virt) := fun _ _ =>
    mapBAR_all (fun _ _ => rfl) (fun _ _ => rfl) fun _ _ => rfl
  .bind_silent (mapBAR_within _ _) fun _ _ => .bind (hall 0 _) fun _ _ => .bind (hall 1 _) fun _ _ =>
    .bind (hall 2 _) fun _ _ => .bind (deref_all _) fun _ _ => .pure _

/-- Without a record `PCI_readBAR` does not return. -/
theorem readBAR_null (r : Int × PcieBarReg) : (PCI_readBAR env 0 dev none).out ≠ .ok r := by
  intro h
  obtain ⟨es, hes⟩ : ∃ es, PCI_readBAR env 0 dev none = ⟨es, .ok r⟩ := ⟨_, Trace.ext rfl h⟩
  obtain ⟨_, _, _, -, h, -⟩ := Trace.bind_ok hes
  obtain ⟨_, _, _, -, h, -⟩ := Trace.bind_ok h
  obtain ⟨_, _, _, -, h, -⟩ := Trace.bind_ok h
  obtain ⟨_, _, _, -, h, -⟩ := Trace.bind_ok h
  obtain ⟨_, _, _, h, -, -⟩ := Trace.bind_ok h
  cases h

/-- A load that goes on behind `PCI_readBAR` has a record, and has tried to map the window. -/
theorem readBAR_zero {pPcieBarReg : Option PcieBarReg} {r : Int × PcieBarReg}
    (h : (PCI_readBAR env 0 dev pPcieBarReg).out = .ok r) (hr : r.1 = 0) :
    pPcieBarReg.isSome ∧ r.2.regVirt = env.ioremap 0 0 ∧
      ((env.ioremap 0 0).isSome → .acquire (.mapping 0 0 (dev.start 0) (dev.len 0)) ∈
        (PCI_readBAR env 0 dev pPcieBarReg).events) := by
  cases pPcieBarReg with
  | none => exact absurd h (readBAR_null r)
  | some r₀ =>
    rw [readBAR_eq] at h ⊢
    cases h
    obtain ⟨-, hall⟩ | ⟨bar, -, hret, -⟩ := retAfter_cases dev 4
    · have hass := hall 0 (Nat.zero_lt_succ 3)
      refine ⟨rfl, if_pos hass, fun hsome => ?_⟩
      refine List.mem_flatMap.mpr ⟨0, List.mem_range.mpr (Nat.zero_lt_succ 3), ?_⟩
      rw [barEvents, if_pos (⟨hass, hsome⟩ : _ ∧ _)]
      exact List.mem_append_right _ (List.mem_singleton.mpr rfl)
    · rw [hret] at hr
      omega

/-! ### `startChip` -/

theorem bootLoader_order (env : BootEnv) :
    (bootLoader env).Within BootEvent.stage [.table env.registerTable, .uploaded] := by
  refine .after (dmaAlloc_all rfl) fun a ha => ?_
  rw [dmaAlloc_out] at ha
  cases ha
  have htable : (Trace.emit (.gpRegisterTable env.registerTable) : BootM Unit).Emits BootEvent.stage
      [.table env.registerTable] := .emit rfl
  refine .bind htable fun _ _ => .after (iowriteAll_all (fun _ _ => rfl) _) fun _ _ => ?_
  refine .bind_silent (.after (storeAll_all (fun _ => rfl) _) fun _ _ => ?_) fun r _ =>
    waits_all (fun _ _ => rfl) (fun _ => rfl) (fun _ _ _ => rfl) r _
  split
  · rename_i retValue _ _
    have hup : (Trace.emit (.uploaded retValue) : BootM Unit).Emits BootEvent.stage [.uploaded] :=
      .emit rfl
    exact .bind_silent hup.within fun _ _ => .pure _
  · exact .silent (.stop _)

/-- `PCI_setInBound` stops at a null pointer. -/
theorem startChip_null {bar : PcieBarReg} (h : bar.regVirt = none) : Quietly (startChip env 0 dev bar) := by
  intro e he
  rw [startChip, h, show PCI_setInBound dev.start = _ :: _ from rfl] at he
  cases he

theorem startChip_order (bar : PcieBarReg) :
    (startChip env 0 dev bar).Within InitEvent.stage env.startStages := by
  have hunit : (Trace.emit (.unit 0 0) : InitM Unit).Emits InitEvent.stage [.unit 0] := .emit rfl
  have hentry : (storeTable .g_pProcessorUnitDev 0).Emits InitEvent.stage [.unitEntry] := .emit rfl
  refine .after (iowriteRegs_all (fun _ _ => rfl) _ _) fun _ _ =>
    .after (iowriteRegs_all (fun _ _ => rfl) _ _) fun _ _ => .bind (kcall_emits _ rfl) fun _ _ =>
    .after (kcall_all _ rfl) fun _ _ => .bind hentry fun _ _ => .after (deref_all _) fun _ hd => ?_
  have hok : env.kzallocUnitDev 0 = true := by
    by_contra hno
    rw [Bool.not_eq_true] at hno
    rw [hno] at hd
    cases hd
  rw [InitEnv.unitStages, if_pos hok]
  refine .bind hunit fun _ _ => Trace.replay_within ?_
  exact bootLoader_order { env.boot 0 with bar }

theorem setupChip_order (dev : Option PciDev) :
    (setupChip env 0 dev).Within InitEvent.stage ((if env.cdev_add 0 = 0 then [.file] else []) ++
      ([.window] ++ if env.hasWindow then env.startStages else [])) := by
  refine .after (kcall_all _ rfl) fun _ _ => .after (storeTable_all rfl) fun _ _ =>
    .after (deref_all _) fun _ _ => .bind (kcall_emits _ rfl) fun _ _ => ?_
  cases dev with
  | none => exact .silent (.stop _)
  | some dev =>
    refine (readBAR_within _).bind_or fun r hr => ?_
    rcases r with ⟨retValue, bar⟩
    dsimp only
    by_cases hret : retValue = 0
    · obtain ⟨hrec, hvirt, hmap⟩ := readBAR_zero hr hret
      rw [if_neg (not_not.mpr hret)]
      cases hwin : env.ioremap 0 0 with
      | none => exact .inl (.bind (startChip_null (hvirt.trans hwin)) fun _ _ => .pure _)
      | some v =>
        have hsome : (env.ioremap 0 0).isSome := by rw [hwin]; rfl
        have hmem : Stage.window ∈
            (PCI_readBAR env 0 dev (pcieBarRegOf env 0)).events.filterMap InitEvent.stage :=
          List.mem_filterMap.mpr ⟨_, hmap hsome, rfl⟩
        have hkz : env.kzallocBarReg 0 = true := by
          by_contra hkz
          rw [pcieBarRegOf, if_neg hkz] at hrec
          cases hrec
        refine .inr ⟨?_, ?_⟩
        · exact List.IsPrefix.eq_of_length_le (readBAR_within _) (List.length_pos_of_mem hmem)
        · rw [if_pos (by rw [InitEnv.hasWindow, hkz, hsome]; rfl)]
          exact .bind_silent (startChip_order _) fun _ _ => .pure _
    · rw [if_pos hret]
      exact .inl (.pure _)

end Parts

/-- **The order of a load**, whatever its kernel calls give and wherever it ends. -/
theorem init_order (env : InitEnv) : (init_module env).Within InitEvent.stage env.stages := by
  rw [init_module, findPciDevices_eq]
  cases hdev : endpoints env.devices with
  | nil =>
    rw [if_pos rfl]
    exact .silent (.bind (storeDevices_all (fun _ => rfl) _) fun _ _ => .pure _)
  | cons dev devs =>
    rw [if_neg (List.cons_ne_nil _ _)]
    refine .after (storeDevices_all (fun _ => rfl) _) fun _ _ => .ite (fun _ => .silent (.pure _)) fun _ =>
      .bind (initChips_emits devs.length) fun _ _ =>
      .after (.bind (kcall_all _ rfl) fun _ _ => .pure _) fun _ _ =>
      .ite (fun _ => .silent (.pure _)) fun _ => ?_
    rw [show List.range 1 = [0] from rfl, setupChips]
    refine .bind_silent (setupChip_order _) fun r _ => ?_
    cases r with
    | error r => exact .pure _
    | ok r => exact .pure _

/-! ## A moment of a load -/

/-- The event is an `ioremap` for a BAR. -/
def InitEvent.maps (chipIndex bar : Nat) : InitEvent → Bool
  | .acquire (.mapping i b _ _) => i == chipIndex && b == bar
  | _ => false

/-- What `g_pPcieBarReg` has for a chip after the events `es`, with the pointer `regVirt` of the record;
no operation on a file and no interrupt reads the other members. -/
def regVirtAt (env : InitEnv) (es : List InitEvent) (chipIndex : Nat) : Option (Option Nat) :=
  if .store .g_pPcieBarReg chipIndex ∈ es ∧ env.kzallocBarReg chipIndex then
    some (if es.any (·.maps chipIndex 0) then env.ioremap chipIndex 0 else none)
  else none

section Moment

variable {env : InitEnv} {es : List InitEvent}

/-- The stages of a moment. -/
theorem stages_within (hes : es <+: (init_module env).events) :
    es.filterMap InitEvent.stage <+: env.stages :=
  (hes.filterMap InitEvent.stage).trans (init_order env)

/-- The event of a stage. -/
theorem eq_of_stage (e : InitEvent) : (e.stage = some .record → e = .store .g_pPcieBarReg 0) ∧
    (e.stage = some .window → e.maps 0 0 = true) ∧
    (∀ m, e.stage = some (.unit m) → e = .unit 0 m) ∧
    ∀ w, e.stage = some (.table w) → e = .boot 0 (.gpRegisterTable w) := by
  unfold InitEvent.stage
  split
  case h_7 b => cases b <;> simp [BootEvent.stage]
  all_goals simp [InitEvent.maps]

/-- What is behind the window comes with the record and the window. -/
theorem ready_of_mem {y : Stage} (hes : es <+: (init_module env).events)
    (hy : y ∈ es.filterMap InitEvent.stage) (hno : y ∉ [Stage.record, .file, .window]) :
    env.hasWindow = true ∧ .store .g_pPcieBarReg 0 ∈ es ∧ es.any (·.maps 0 0) = true := by
  have hpre := stages_within hes
  have hfirst : y ∉ [.record] ++ ((if env.cdev_add 0 = 0 then [Stage.file] else []) ++ [.window]) := by
    split
    · exact hno
    · exact fun h => hno (by simp at h ⊢; tauto)
  rw [InitEnv.stages, ← List.append_assoc _ [Stage.window], ← List.append_assoc] at hpre
  have hwin : env.hasWindow = true := by
    by_contra h
    rw [if_neg h, List.append_nil] at hpre
    exact hfirst (hpre.subset hy)
  rcases prefix_append_cases hpre with hp | ⟨q, -, hp⟩
  · exact absurd (hp.subset hy) hfirst
  · obtain ⟨e, he, hs⟩ : ∃ e ∈ es, e.stage = some .record :=
      List.mem_filterMap.mp (by rw [hp]; simp)
    obtain ⟨e', he', hs'⟩ : ∃ e ∈ es, e.stage = some .window :=
      List.mem_filterMap.mp (by rw [hp]; simp)
    exact ⟨hwin, (eq_of_stage e).1 hs ▸ he,
      List.any_eq_true.mpr ⟨e', he', (eq_of_stage e').2.1 hs'⟩⟩

/-- The record and its pointer are there. -/
theorem regVirtAt_of_mem {y : Stage} (hes : es <+: (init_module env).events)
    (hy : y ∈ es.filterMap InitEvent.stage) (hno : y ∉ [Stage.record, .file, .window]) :
    ∃ regVirt, env.ioremap 0 0 = some regVirt ∧ regVirtAt env es 0 = some (some regVirt) := by
  obtain ⟨hwin, hbar, hmap⟩ := ready_of_mem hes hy hno
  rw [InitEnv.hasWindow, Bool.and_eq_true] at hwin
  obtain ⟨regVirt, hv⟩ := Option.isSome_iff_exists.mp hwin.2
  exact ⟨regVirt, hv, by rw [regVirtAt, if_pos ⟨hbar, hwin.1⟩, if_pos hmap, hv]⟩

end Moment

end Dspc
