import DspcDriver.Entry.Events

/-!
# The resources of a load

`ledger` is what the kernel calls of a load acquire and release. The source releases nothing
(`init_keeps`, `ledger_noRelease`: `cleanup_module` is empty and no failure path undoes anything), so a
load is balanced only if it acquires nothing. `resourcesBalanced_iff` says when that is.
-/

namespace Dspc

open Lib

/-- What an event does to the resources. -/
def InitEvent.entry : InitEvent → Option (Ledger.Entry Resource)
  | .acquire r => some (.acquire r)
  | .release r => some (.release r)
  | .boot chipIndex .dmaAlloc => some (.acquire (.dmaBuffer chipIndex))
  | _ => none

def ledger (es : List InitEvent) : List (Ledger.Entry Resource) := es.filterMap InitEvent.entry

/-- The resources are balanced: a load that returns non-zero has released all that it acquired, and
after one that returns 0 `cleanup_module` does. -/
def ResourcesBalanced (env : InitEnv) : Prop :=
  ∀ ret, (init_module env).out = .ok ret →
    (ret ≠ 0 → Ledger.Balanced (ledger (init_module env).events)) ∧
    (ret = 0 →
      Ledger.Balanced (ledger ((init_module env).events ++ cleanup_module.events)))

/-- The devices that are not bridges. -/
def endpoints (devices : List PciDev) : List PciDev :=
  devices.filter fun dev => dev.devClass >>> 8 ≠ PCI_CLASS_BRIDGE_PCI

/-! ## Nothing is released -/

/-- The event releases nothing. -/
def InitEvent.Keeps (e : InitEvent) : Prop := ∀ r, e.entry ≠ some (.release r)

theorem keeps_acquire (r : Resource) : (InitEvent.acquire r).Keeps := fun r' => by
  simp [InitEvent.entry]

theorem readBAR_keeps {env : InitEnv} {chipIndex : Nat} (dev : PciDev)
    (pPcieBarReg : Option PcieBarReg) :
    (PCI_readBAR env chipIndex dev pPcieBarReg).All InitEvent.Keeps :=
  readBAR_all (fun _ _ _ => keeps_acquire _) (fun _ _ _ => keeps_acquire _)
    (fun _ _ _ => keeps_acquire _) _

/-- **A load releases nothing**, whatever its kernel calls give. -/
theorem init_keeps (env : InitEnv) : (init_module env).All InitEvent.Keeps := by
  refine init_all keeps_acquire (fun _ _ r => ?_) (fun _ _ r => ?_) (fun r => ?_) fun e r => ?_
  · simp [InitEvent.entry]
  · simp [InitEvent.entry]
  · simp [InitEvent.entry]
  · cases e <;> simp [InitEvent.entry]

theorem ledger_noRelease {es : List InitEvent} (h : ∀ e ∈ es, e.Keeps) :
    Ledger.NoRelease (ledger es) := by
  intro r hr
  obtain ⟨e, he, hr⟩ := List.mem_filterMap.mp hr
  exact h e he r hr

/-- A load that returns is balanced iff it acquires nothing. -/
theorem resourcesBalanced_iff_nil {env : InitEnv} {ret : Int}
    (h : (init_module env).out = .ok ret) :
    ResourcesBalanced env ↔ ledger (init_module env).events = [] := by
  have hb := Ledger.balanced_iff_nil (ledger_noRelease (init_keeps env))
  rw [← hb, ResourcesBalanced]
  have hclean : (init_module env).events ++ cleanup_module.events = (init_module env).events :=
    List.append_nil _
  rw [hclean]
  constructor
  · intro hr
    by_cases h0 : ret = 0
    · exact (hr ret h).2 h0
    · exact (hr ret h).1 h0
  · intro hl ret' _
    exact ⟨fun _ => hl, fun _ => hl⟩

/-! ## What is acquired -/

/-- A run of `x` that does not stop has the ledger `l`. -/
def Leaves {α : Type} (x : InitM α) (l : List (Ledger.Entry Resource)) : Prop :=
  ∀ es a, x = ⟨es, .ok a⟩ → ledger es = l

section Leaves

variable {env : InitEnv} {α β : Type}

theorem ledger_append (es es' : List InitEvent) : ledger (es ++ es') = ledger es ++ ledger es' :=
  List.filterMap_append

theorem Leaves.bind {x : InitM α} {f : α → InitM β} {l l' : List (Ledger.Entry Resource)}
    (hx : Leaves x l) (hf : ∀ a, Leaves (f a) l') : Leaves (x >>= f) (l ++ l') := by
  intro es b h
  obtain ⟨es₁, a, es₂, h₁, h₂, rfl⟩ := Trace.bind_ok h
  rw [ledger_append, hx es₁ a h₁, hf a es₂ b h₂]

theorem Leaves.pure (a : α) : Leaves (Pure.pure a) [] := by
  rintro es b h
  cases h
  rfl

theorem kcall_leaves (ok : Bool) (r : Resource) :
    Leaves (kcall ok r) (if ok then [.acquire r] else []) := by
  rintro es u h
  cases h
  cases ok <;> rfl

theorem storeTable_leaves (table : ChipTable) (i : Nat) : Leaves (storeTable table i) [] := by
  unfold storeTable
  split
  · rintro es u h
    cases h
    rfl
  · rintro es u h
    cases h

theorem storeDevices_leaves (l : List (Nat × PciDev)) : Leaves (storeDevices l) [] := by
  induction l with
  | nil => exact .pure ()
  | cons x l ih => exact .bind (storeTable_leaves _ _) fun _ => ih

/-- The records that the first loop gets. -/
theorem initChips_leaves (l : List Nat) : Leaves (initChips env l)
    ((l.filter env.kzallocBarReg).map fun i => .acquire (.barReg i)) := by
  induction l with
  | nil => exact .pure ()
  | cons i l ih =>
    have hi : Leaves (initChip env i)
        ((if env.kzallocBarReg i then [.acquire (.barReg i)] else []) ++ []) :=
      .bind (kcall_leaves _ _) fun _ => .bind (storeTable_leaves _ _) fun _ =>
        .bind (storeTable_leaves _ _) fun _ => .bind (storeTable_leaves _ _) fun _ =>
        storeTable_leaves _ _
    have h := Leaves.bind hi fun _ => ih
    rw [List.append_nil] at h
    by_cases hk : env.kzallocBarReg i = true
    · rw [List.filter_cons_of_pos hk]
      rwa [if_pos hk] at h
    · rw [List.filter_cons_of_neg hk]
      rwa [if_neg hk] at h

theorem allocChrdevRegion_leaves : Leaves (allocChrdevRegion env)
    (if env.alloc_chrdev_region = 0 then [.acquire .chrdevRegion] else []) := by
  have h := Leaves.bind (kcall_leaves (env.alloc_chrdev_region == 0) .chrdevRegion)
    fun _ => .pure env.alloc_chrdev_region
  rw [List.append_nil] at h
  simp only [beq_iff_eq] at h
  exact h

end Leaves

/-! ## The devices that are found -/

/-- The loop stores the devices from the running index on. -/
theorem findLoop_eq (devices : List PciDev) (n : Nat) : findLoop devices n =
    (Stores.block (fun i => n + i) (endpoints devices), n + (endpoints devices).length) := by
  induction devices generalizing n with
  | nil => rfl
  | cons dev devices ih =>
    rw [findLoop]
    by_cases hb : dev.devClass >>> 8 = PCI_CLASS_BRIDGE_PCI
    · rw [if_pos hb, endpoints, List.filter_cons_of_neg (by simpa using hb)]
      exact ih n
    · have hshift : (fun i => n + (i + 1)) = fun i => n + 1 + i := by
        funext i
        omega
      rw [if_neg hb, endpoints, List.filter_cons_of_pos (by simpa using hb), ih (n + 1), endpoints,
        Stores.block, List.length_cons, hshift, Nat.add_right_comm]
      rfl

/-- `PCI_FindPciDevices` fails iff every device is a bridge. -/
theorem findPciDevices_eq (devices : List PciDev) : PCI_FindPciDevices devices =
    if endpoints devices = [] then (-1, [], none)
    else (0, (findLoop devices 0).1, some (endpoints devices).length) := by
  simp only [PCI_FindPciDevices, findLoop_eq, Nat.zero_add, List.length_eq_zero_iff]
  split
  · rename_i he
    rw [he, Stores.block_nil]
  · rfl

/-! ## When a load is balanced -/

/-- **A load that returns is balanced** iff it finds no chip, or `alloc_chrdev_region` fails and no
`kzalloc` before it has succeeded. -/
theorem resourcesBalanced_iff {env : InitEnv} {ret : Int} (h : (init_module env).out = .ok ret) :
    ResourcesBalanced env ↔ endpoints env.devices = [] ∨
      (env.alloc_chrdev_region ≠ 0 ∧
        ∀ i < (endpoints env.devices).length, env.kzallocBarReg i = false) := by
  rw [resourcesBalanced_iff_nil h]
  obtain ⟨es, he⟩ : ∃ es, init_module env = ⟨es, .ok ret⟩ := ⟨_, Trace.ext rfl h⟩
  rw [he]
  rw [init_module, findPciDevices_eq] at he
  by_cases hep : endpoints env.devices = []
  · rw [if_pos hep] at he
    cases he
    exact iff_of_true rfl (.inl hep)
  · rw [if_neg hep] at he
    obtain ⟨es₁, _, es₂, h₁, h₂, rfl⟩ := Trace.bind_ok he
    rw [if_neg (not_not.mpr rfl)] at h₂
    obtain ⟨es₃, _, es₄, h₃, h₄, rfl⟩ := Trace.bind_ok h₂
    obtain ⟨es₅, retValue, es₆, h₅, h₆, rfl⟩ := Trace.bind_ok h₄
    have hr : retValue = env.alloc_chrdev_region := by cases h₅; rfl
    simp only [ledger_append, storeDevices_leaves _ es₁ _ h₁, initChips_leaves _ es₃ _ h₃,
      allocChrdevRegion_leaves es₅ _ h₅, List.append_eq_nil_iff, List.map_eq_nil_iff,
      List.filter_eq_nil_iff, Option.getD_some, List.mem_range, Bool.not_eq_true, hep, false_or,
      true_and]
    by_cases hc : env.alloc_chrdev_region = 0
    · rw [if_pos hc]
      exact iff_of_false (fun ⟨_, h, _⟩ => by cases h) fun ⟨h, _⟩ => h hc
    · rw [if_neg hc]
      rw [hr, if_pos hc] at h₆
      cases h₆
      exact ⟨fun ⟨h, _⟩ => ⟨hc, h⟩, fun ⟨_, h⟩ => ⟨h, rfl, rfl⟩⟩

/-- One 6678 whose BAR 3 was given no address; every kernel call succeeds but the reservation and the
mapping of that BAR. -/
def unassignedBar : InitEnv where
  devices := [{
    devClass := 0x118000
    start := fun bar => [0xE0000000, 0xE0100000, 0xE0400000].getD bar 0
    len := fun bar => [0x1000, 0x80000, 0x400000, 0x1000000].getD bar 0
    flags := fun _ => IORESOURCE_MEM }]
  kzallocBarReg _ := true
  alloc_chrdev_region := 0
  cdev_alloc _ := true
  cdev_add _ := 0
  request_mem_region _ bar := bar != 3
  request_region _ _ := true
  ioremap _ bar := [0xF8000000, 0xF8100000, 0xF8400000][bar]?
  pci_set_mwi _ := 0
  request_irq _ := 0
  kzallocUnitDev _ := true
  boot _ := {
    bar := c6678Bar
    dma := none
    reads := fun _ _ => 0
    thirdBLCode_U0 := []
    app4Core0 := []
    DPUCore1 := []
    DPUCore2 := [] }

theorem unassignedBar_out : (init_module unassignedBar).out = .ok (-4) := by decide

theorem resourcesBalanced_iff_unassignedBar :
    ResourcesBalanced unassignedBar ↔ endpoints unassignedBar.devices = [] ∨
      (unassignedBar.alloc_chrdev_region ≠ 0 ∧
        ∀ i < (endpoints unassignedBar.devices).length, unassignedBar.kzallocBarReg i = false) :=
  resourcesBalanced_iff unassignedBar_out

/-- The failed load of `unassignedBar` keeps the region of device numbers, the character device, the
record, and three BARs with their mappings. -/
theorem unassignedBar_not_balanced : ¬ ResourcesBalanced unassignedBar := by
  intro h
  have hb := (h (-4) unassignedBar_out).1 (by decide) 0
  revert hb
  decide

end Dspc
