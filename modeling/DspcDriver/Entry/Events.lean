import DspcDriver.Entry.Code

/-!
# The events of a load

What holds of every event of a load, part by part. `init_all` is the rule for the whole load: it acquires,
it stores into the tables, and for the first chip it writes registers, fills the unit and boots.
-/

namespace Dspc

open Lib

section Parts

variable {env : InitEnv} {chipIndex : Nat} {dev : PciDev} {P : InitEvent → Prop}

theorem kcall_all (ok : Bool) {r : Resource} (h : P (.acquire r)) : (kcall ok r).All P := by
  intro e he
  cases ok with
  | true => exact List.mem_singleton.mp he ▸ h
  | false => cases he

theorem deref_all (ok : Bool) : (deref ok).All P := by
  cases ok with
  | true => exact .pure ()
  | false => exact .stop _

theorem storeTable_all {table : ChipTable} {i : Nat} (h : P (.store table i)) :
    (storeTable table i).All P :=
  .ite (fun _ => .emit h) fun _ => .stop _

theorem storeDevices_all (h : ∀ i, P (.store .g_pPcieDev i)) (l : List (Nat × PciDev)) :
    (storeDevices l).All P := by
  induction l with
  | nil => exact .pure ()
  | cons x l ih => exact .bind (storeTable_all (h _)) fun _ _ => ih

theorem reserveBAR_all {bar : Nat} (hmem : ∀ start len, P (.acquire (.memRegion chipIndex bar start len)))
    (hio : ∀ start len, P (.acquire (.ioRegion chipIndex bar start len))) :
    (reserveBAR env chipIndex dev bar).All P :=
  .ite (fun _ => .bind (kcall_all _ (hmem _ _)) fun _ _ => .pure _) fun _ =>
    .bind (kcall_all _ (hio _ _)) fun _ _ => .pure _

theorem mapBAR_all {isNull : Bool} {bar : Nat} {virt : Option Nat}
    (hmem : ∀ start len, P (.acquire (.memRegion chipIndex bar start len)))
    (hio : ∀ start len, P (.acquire (.ioRegion chipIndex bar start len)))
    (hmap : ∀ start len, P (.acquire (.mapping chipIndex bar start len))) :
    (mapBAR env chipIndex dev isNull bar virt).All P :=
  .bind (reserveBAR_all hmem hio) fun _ _ => .ite (fun _ => .bind (kcall_all _ (hmap _ _)) fun _ _ =>
    .bind (deref_all _) fun _ _ => .pure _) fun _ => .pure _

theorem readBAR_all (hmem : ∀ bar start len, P (.acquire (.memRegion chipIndex bar start len)))
    (hio : ∀ bar start len, P (.acquire (.ioRegion chipIndex bar start len)))
    (hmap : ∀ bar start len, P (.acquire (.mapping chipIndex bar start len)))
    (pPcieBarReg : Option PcieBarReg) :
    (PCI_readBAR env chipIndex dev pPcieBarReg).All P :=
  .bind (mapBAR_all (hmem _) (hio _) (hmap _)) fun _ _ =>
    .bind (mapBAR_all (hmem _) (hio _) (hmap _)) fun _ _ =>
    .bind (mapBAR_all (hmem _) (hio _) (hmap _)) fun _ _ =>
    .bind (mapBAR_all (hmem _) (hio _) (hmap _)) fun _ _ => .bind (deref_all _) fun _ _ => .pure _

theorem iowriteRegs_all (h : ∀ reg v, P (.iowrite chipIndex reg v)) (regVirt : Option Nat)
    (l : List (Nat × Word)) : (iowriteRegs chipIndex regVirt l).All P := by
  induction l with
  | nil => exact .pure ()
  | cons x l ih => exact .bind (deref_all _) fun _ _ => .bind (.emit (h _ _)) fun _ _ => ih

theorem boot_all (h : ∀ e, P (.boot chipIndex e)) (x : BootM Int) :
    (Trace.replay (fun e => [.boot chipIndex e]) x).All P := by
  intro e he
  obtain ⟨e', -, he⟩ := List.mem_flatMap.mp he
  rw [List.mem_singleton.mp he]
  exact h e'

/-- The first loop does not store a unit. -/
theorem initChip_all (hbar : P (.acquire (.barReg chipIndex)))
    (hstore : ∀ table, table ≠ .g_pProcessorUnitDev → P (.store table chipIndex)) :
    (initChip env chipIndex).All P :=
  .bind (kcall_all _ hbar) fun _ _ => .bind (storeTable_all (hstore _ (by decide))) fun _ _ =>
    .bind (storeTable_all (hstore _ (by decide))) fun _ _ =>
    .bind (storeTable_all (hstore _ (by decide))) fun _ _ => storeTable_all (hstore _ (by decide))

theorem initChips_all {l : List Nat} (h : ∀ i ∈ l, (initChip env i).All P) :
    (initChips env l).All P := by
  induction l with
  | nil => exact .pure ()
  | cons i l ih =>
    rw [List.forall_mem_cons] at h
    exact .bind h.1 fun _ _ => ih h.2

end Parts

section Load

variable {env : InitEnv} {chipIndex : Nat} {P : InitEvent → Prop} (hacquire : ∀ r, P (.acquire r))
  (hstore : ∀ table i, P (.store table i)) (hiowrite : ∀ reg v, P (.iowrite chipIndex reg v))
  (hunit : P (.unit chipIndex chipIndex)) (hboot : ∀ e, P (.boot chipIndex e))

include hacquire hstore hiowrite hunit hboot

theorem startChip_all (dev : PciDev) (bar : PcieBarReg) : (startChip env chipIndex dev bar).All P :=
  .bind (iowriteRegs_all hiowrite _ _) fun _ _ => .bind (iowriteRegs_all hiowrite _ _) fun _ _ =>
    .bind (kcall_all _ (hacquire _)) fun _ _ => .bind (kcall_all _ (hacquire _)) fun _ _ =>
    .bind (storeTable_all (hstore _ _)) fun _ _ => .bind (deref_all _) fun _ _ =>
    .bind (.emit hunit) fun _ _ => boot_all hboot _

theorem setupChip_all (dev : Option PciDev) : (setupChip env chipIndex dev).All P := by
  refine .bind (kcall_all _ (hacquire _)) fun _ _ => .bind (storeTable_all (hstore _ _)) fun _ _ =>
    .bind (deref_all _) fun _ _ => .bind (kcall_all _ (hacquire _)) fun _ _ => ?_
  cases dev with
  | none => exact .stop _
  | some dev =>
    refine .bind (readBAR_all (fun _ _ _ => hacquire _) (fun _ _ _ => hacquire _)
      (fun _ _ _ => hacquire _) _) fun r _ => .ite (fun _ => .pure _) fun _ => ?_
    exact .bind (startChip_all hacquire hstore hiowrite hunit hboot _ _) fun _ _ => .pure _

end Load

/-- **The events of a load**, whatever its kernel calls give. -/
theorem init_all {env : InitEnv} {P : InitEvent → Prop} (hacquire : ∀ r, P (.acquire r))
    (hstore : ∀ table i, P (.store table i)) (hiowrite : ∀ reg v, P (.iowrite 0 reg v))
    (hunit : P (.unit 0 0)) (hboot : ∀ e, P (.boot 0 e)) : (init_module env).All P := by
  unfold init_module
  obtain ⟨retValue, stores, pDevCount⟩ := PCI_FindPciDevices env.devices
  refine .bind (storeDevices_all (fun _ => hstore _ _) _) fun _ _ => .ite (fun _ => .pure _) fun _ =>
    .bind (initChips_all fun _ _ => initChip_all (hacquire _) fun _ _ => hstore _ _) fun _ _ =>
    .bind (.bind (kcall_all _ (hacquire _)) fun _ _ => .pure _) fun _ _ =>
    .ite (fun _ => .pure _) fun _ => ?_
  rw [show List.range 1 = [0] from rfl, setupChips]
  refine .bind (setupChip_all hacquire hstore hiowrite hunit hboot _) fun r _ => ?_
  cases r with
  | error r => exact .pure _
  | ok r => exact .pure _

end Dspc
