import DspcDriver.Boot.FailStop
import DspcDriver.Entry.Balance

/-!
# The chips that are found

`PCI_FindPciDevices` stores every device that is not a bridge, and `init_module` then sets up as many
chips. Neither looks at the size of the tables with one entry a chip, which is 4: `discovery_iff` says
that all is well exactly for up to four chips, and `stopsAtTable_iff` that a load with more runs past
the end of a table.
-/

namespace Dspc

open Lib

/-- `g_pPcieDev` after the stores of `PCI_FindPciDevices`. -/
def deviceTable (stores : List (Nat × PciDev)) : Nat → Option PciDev :=
  Stores.run (stores.map fun s => (s.1, some s.2)) fun _ => none

/-- The load stops at a store past the end of a table with one entry a chip: it runs past the end of
something before any chip boots, and only a boot reads an image. -/
def StopsAtTable (env : InitEnv) : Prop :=
  (init_module env).out = .error .overrun ∧
    ∀ e ∈ (init_module env).events, ∀ i b, e ≠ .boot i b

/-- What the discovery of the chips is to do, and the setup of each chip behind it. -/
structure DiscoveryCorrect (env : InitEnv) : Prop where
  notFound : endpoints env.devices = [] → (PCI_FindPciDevices env.devices).1 = -1 ∧
    (PCI_FindPciDevices env.devices).2.2 = none
  found : endpoints env.devices ≠ [] → (PCI_FindPciDevices env.devices).1 = 0 ∧
    (PCI_FindPciDevices env.devices).2.2 = some (endpoints env.devices).length ∧
    ∀ i, deviceTable (PCI_FindPciDevices env.devices).2.1 i = (endpoints env.devices)[i]?
  inTable : ∀ s ∈ (PCI_FindPciDevices env.devices).2.1, s.1 < 4
  setup : ¬ StopsAtTable env

/-! ## The stores of the discovery -/

/-- Whatever is found, its stores are those of the loop. -/
theorem findPciDevices_stores (devices : List PciDev) :
    (PCI_FindPciDevices devices).2.1 = Stores.block (fun i => 0 + i) (endpoints devices) := by
  rw [PCI_FindPciDevices, findLoop_eq]
  simp only
  split <;> rfl

theorem deviceTable_eq (devices : List PciDev) (i : Nat) :
    deviceTable (PCI_FindPciDevices devices).2.1 i = (endpoints devices)[i]? := by
  have hinj : Function.Injective fun i : Nat => 0 + i := fun i j h => by simpa using h
  have hl := Stores.last_block hinj ((endpoints devices).map some) i
  rw [Nat.zero_add] at hl
  rw [deviceTable, findPciDevices_stores, Stores.map_value_block, Stores.run_eq_last, hl,
    List.getElem?_map]
  cases (endpoints devices)[i]? <;> rfl

theorem stores_lt_iff (devices : List PciDev) :
    (∀ s ∈ (PCI_FindPciDevices devices).2.1, s.1 < 4) ↔ (endpoints devices).length ≤ 4 := by
  rw [findPciDevices_stores]
  constructor
  · intro h
    by_contra hlt
    have h4 : 4 < (endpoints devices).length := by omega
    have := h _ (Stores.mem_block.mpr ⟨4, _, List.getElem?_eq_getElem h4, rfl⟩)
    omega
  · rintro h s hs
    obtain ⟨i, dev, hi, rfl⟩ := Stores.mem_block.mp hs
    have := (List.getElem?_eq_some_iff.mp hi).1
    show 0 + i < 4
    omega

/-! ## Where a load runs past the end of something -/

/-- If the computation runs past the end of something, a chip has begun to boot. -/
def KeepsTables {α : Type} (x : InitM α) : Prop :=
  x.Stops fun e es => e = .overrun → ∃ i b, .boot i b ∈ es

section KeepsTables

variable {env : InitEnv} {chipIndex : Nat} {α β : Type}

theorem KeepsTables.of_ok {x : InitM α} {a : α} (h : x.out = .ok a) : KeepsTables x :=
  Trace.Stops.of_ok h

theorem KeepsTables.nullPointer : KeepsTables (Trace.stop .nullPointer : InitM α) :=
  Trace.Stops.stop fun h => by cases h

theorem KeepsTables.bind {x : InitM α} {f : α → InitM β} (hx : KeepsTables x)
    (hf : ∀ a, x.out = .ok a → KeepsTables (f a)) : KeepsTables (x >>= f) := by
  refine Trace.Stops.bind (fun e es es' h he => ?_) hx hf
  obtain ⟨i, b, hb⟩ := h he
  exact ⟨i, b, List.mem_append_right es' hb⟩

theorem deref_keepsTables (ok : Bool) : KeepsTables (deref ok) := by
  cases ok with
  | true => exact .of_ok rfl
  | false => exact .nullPointer

theorem storeTable_ok (table : ChipTable) {i : Nat} (hi : i < 4) :
    storeTable table i = ⟨[.store table i], .ok ()⟩ := if_pos hi

theorem storeTable_keepsTables (table : ChipTable) {i : Nat} (hi : i < 4) :
    KeepsTables (storeTable table i) := .of_ok (by rw [storeTable_ok table hi])

theorem iowriteRegs_keepsTables (regVirt : Option Nat) (l : List (Nat × Word)) :
    KeepsTables (iowriteRegs chipIndex regVirt l) := by
  induction l with
  | nil => exact .of_ok rfl
  | cons x l ih =>
    exact .bind (deref_keepsTables _) fun _ _ => .bind (.of_ok rfl) fun _ _ => ih

theorem mapBAR_keepsTables (dev : PciDev) (isNull : Bool) (bar : Nat) (virt : Option Nat) :
    KeepsTables (mapBAR env chipIndex dev isNull bar virt) := by
  have hr : ∃ base, (reserveBAR env chipIndex dev bar).out = .ok base := by
    unfold reserveBAR
    split <;> exact ⟨_, rfl⟩
  obtain ⟨base, hb⟩ := hr
  refine .bind (.of_ok hb) fun _ _ => ?_
  split
  · exact .bind (.of_ok rfl) fun _ _ => .bind (deref_keepsTables _) fun _ _ => .of_ok rfl
  · exact .of_ok rfl

theorem readBAR_keepsTables (dev : PciDev) (pPcieBarReg : Option PcieBarReg) :
    KeepsTables (PCI_readBAR env chipIndex dev pPcieBarReg) :=
  .bind (mapBAR_keepsTables _ _ _ _) fun _ _ => .bind (mapBAR_keepsTables _ _ _ _) fun _ _ =>
    .bind (mapBAR_keepsTables _ _ _ _) fun _ _ => .bind (mapBAR_keepsTables _ _ _ _) fun _ _ =>
    .bind (deref_keepsTables _) fun _ _ => .of_ok rfl

theorem initChip_out (hi : chipIndex < 4) : (initChip env chipIndex).out = .ok () := by
  simp only [initChip, storeTable_ok _ hi]
  rfl

/-- A boot has stored the register table before it can stop. -/
theorem bootLoader_events_ne (env : BootEnv) : (bootLoader env).events ≠ [] := by
  obtain ⟨es, vp, hd⟩ : ∃ es vp, dmaAlloc env = ⟨es, .ok vp⟩ := by
    unfold dmaAlloc
    split <;> exact ⟨_, _, rfl⟩
  rw [bootLoader, hd, Trace.mk_ok_bind]
  simp [Trace.emit]

theorem boot_keepsTables (env : BootEnv) :
    KeepsTables (Trace.replay (fun e => [.boot chipIndex e]) (bootLoader env) : InitM Int) := by
  intro e _ _
  obtain ⟨b, hb⟩ := List.exists_mem_of_ne_nil _ (bootLoader_events_ne env)
  exact ⟨chipIndex, b, List.mem_flatMap.mpr ⟨b, hb, List.mem_singleton_self _⟩⟩

theorem startChip_keepsTables (dev : PciDev) (bar : PcieBarReg) (hi : chipIndex < 4) :
    KeepsTables (startChip env chipIndex dev bar) :=
  .bind (iowriteRegs_keepsTables _ _) fun _ _ => .bind (iowriteRegs_keepsTables _ _) fun _ _ =>
    .bind (.of_ok rfl) fun _ _ => .bind (.of_ok rfl) fun _ _ =>
    .bind (storeTable_keepsTables _ hi) fun _ _ => .bind (deref_keepsTables _) fun _ _ =>
    .bind (.of_ok rfl) fun _ _ => boot_keepsTables _

theorem setupChip_keepsTables (dev : Option PciDev) (hi : chipIndex < 4) :
    KeepsTables (setupChip env chipIndex dev) := by
  refine .bind (.of_ok rfl) fun _ _ => .bind (storeTable_keepsTables _ hi) fun _ _ =>
    .bind (deref_keepsTables _) fun _ _ => .bind (.of_ok rfl) fun _ _ => ?_
  cases dev with
  | none => exact .nullPointer
  | some dev =>
    refine .bind (readBAR_keepsTables _ _) fun r _ => ?_
    by_cases hr : r.1 ≠ 0
    · simp only [if_pos hr]
      exact .of_ok rfl
    · simp only [if_neg hr]
      exact .bind (startChip_keepsTables _ _ hi) fun _ _ => .of_ok rfl

theorem setupChips_keepsTables (devs : List PciDev) (retValue : Int) {l : List Nat}
    (h : ∀ i ∈ l, i < 4) : KeepsTables (setupChips env devs retValue l) := by
  induction l generalizing retValue with
  | nil => exact .of_ok rfl
  | cons i l ih =>
    refine .bind (setupChip_keepsTables _ (h i List.mem_cons_self)) fun r _ => ?_
    cases r with
    | error retValue => exact .of_ok rfl
    | ok retValue => exact ih retValue fun j hj => h j (List.mem_cons_of_mem _ hj)

theorem initChips_keepsTables {l : List Nat} (h : ∀ i ∈ l, i < 4) :
    KeepsTables (initChips env l) := by
  induction l with
  | nil => exact .of_ok rfl
  | cons i l ih =>
    exact .bind (.of_ok (initChip_out (h i List.mem_cons_self))) fun _ _ =>
      ih fun j hj => h j (List.mem_cons_of_mem _ hj)

theorem storeDevices_keepsTables {l : List (Nat × PciDev)} (h : ∀ s ∈ l, s.1 < 4) :
    KeepsTables (storeDevices l) := by
  induction l with
  | nil => exact .of_ok rfl
  | cons s l ih =>
    exact .bind (storeTable_keepsTables _ (h s List.mem_cons_self)) fun _ _ =>
      ih fun t ht => h t (List.mem_cons_of_mem _ ht)

/-- **With up to four chips a load stays in its tables.** -/
theorem init_keepsTables (h : (endpoints env.devices).length ≤ 4) : KeepsTables (init_module env) := by
  have hs := (stores_lt_iff env.devices).mpr h
  rw [init_module, findPciDevices_eq]
  rw [findPciDevices_eq] at hs
  by_cases hep : endpoints env.devices = []
  · rw [if_pos hep]
    exact .bind (.of_ok rfl) fun _ _ => .of_ok rfl
  · rw [if_neg hep] at hs ⊢
    refine .bind (storeDevices_keepsTables hs) fun _ _ => ?_
    rw [if_neg (not_not.mpr rfl)]
    refine .bind (initChips_keepsTables fun i hi => ?_) fun _ _ => .bind (.of_ok rfl) fun _ _ => ?_
    · rw [Option.getD_some, List.mem_range] at hi
      omega
    · split
      · exact .of_ok rfl
      · exact setupChips_keepsTables _ _ fun i hi => by
          rw [List.mem_range] at hi
          omega

end KeepsTables

/-! ## A fifth chip -/

/-- A store past the end ends the stores of the devices. -/
theorem storeDevices_overrun {l : List (Nat × PciDev)} (h : ∃ s ∈ l, 4 ≤ s.1) :
    (storeDevices l).out = .error .overrun := by
  induction l with
  | nil =>
    obtain ⟨s, hs, -⟩ := h
    cases hs
  | cons t l ih =>
    rw [storeDevices]
    by_cases ht : t.1 < 4
    · obtain ⟨s, hs, hs4⟩ := h
      rcases List.mem_cons.mp hs with rfl | hs
      · omega
      · rw [storeTable_ok _ ht, Trace.mk_ok_bind]
        exact ih ⟨s, hs, hs4⟩
    · rw [storeTable, if_neg ht]
      rfl

theorem storeDevices_events {l : List (Nat × PciDev)} :
    (storeDevices l).All fun e => ∃ i, e = .store .g_pPcieDev i := by
  induction l with
  | nil => exact .pure ()
  | cons t l ih =>
    refine .bind ?_ fun _ _ => ih
    unfold storeTable
    split
    · exact .emit ⟨_, rfl⟩
    · exact .stop _

/-- **A load stops at a table** exactly if it finds more than four chips. -/
theorem stopsAtTable_iff (env : InitEnv) :
    StopsAtTable env ↔ 4 < (endpoints env.devices).length := by
  constructor
  · rintro ⟨hout, hboot⟩
    by_contra hle
    obtain ⟨i, b, hb⟩ := init_keepsTables (Nat.le_of_not_lt hle) _ hout rfl
    exact hboot _ hb i b rfl
  · intro h
    have hne : endpoints env.devices ≠ [] := by
      intro he
      rw [he] at h
      cases h
    have hfind := findPciDevices_eq env.devices
    rw [if_neg hne] at hfind
    have hover : (storeDevices (PCI_FindPciDevices env.devices).2.1).out = .error .overrun := by
      apply storeDevices_overrun
      have hlt := mt (stores_lt_iff env.devices).mp (Nat.not_le.mpr h)
      push Not at hlt
      exact hlt
    have hinit : init_module env = ⟨(storeDevices (PCI_FindPciDevices env.devices).2.1).events,
        .error .overrun⟩ := by
      rw [init_module]
      generalize PCI_FindPciDevices env.devices = r at hover ⊢
      obtain ⟨retValue, stores, pDevCount⟩ := r
      rcases hs : storeDevices stores with ⟨es, e | _⟩
      · simp only [hs, Except.error.injEq] at hover
        simp only [hs, Trace.mk_error_bind, hover]
      · simp only [hs] at hover
        cases hover
    rw [StopsAtTable, hinit]
    refine ⟨rfl, fun e he i b heq => ?_⟩
    obtain ⟨j, hj⟩ := storeDevices_events e he
    rw [hj] at heq
    cases heq

/-- **The discovery is correct** exactly for up to four chips. -/
theorem discovery_iff (env : InitEnv) :
    DiscoveryCorrect env ↔ (endpoints env.devices).length ≤ 4 := by
  constructor
  · intro h
    exact (stores_lt_iff env.devices).mp h.inTable
  · intro h
    have hfind := findPciDevices_eq env.devices
    refine ⟨fun hep => ?_, fun hep => ?_, (stores_lt_iff env.devices).mpr h, fun hs => ?_⟩
    · rw [hfind, if_pos hep]
      exact ⟨rfl, rfl⟩
    · refine ⟨?_, ?_, deviceTable_eq env.devices⟩
      · rw [hfind, if_neg hep]
      · rw [hfind, if_neg hep]
    · exact Nat.not_lt.mpr h ((stopsAtTable_iff env).mp hs)

/-- A load on a machine with five chips. -/
def fiveChips : InitEnv :=
  { unassignedBar with devices := unassignedBar.devices ++ unassignedBar.devices ++
      unassignedBar.devices ++ unassignedBar.devices ++ unassignedBar.devices }

/-- The fifth device is stored behind the end of `g_pPcieDev`. -/
theorem fiveChips_not_discovery : ¬ DiscoveryCorrect fiveChips := by
  intro h
  have hle := (stores_lt_iff fiveChips.devices).mp h.inTable
  revert hle
  decide

end Dspc
