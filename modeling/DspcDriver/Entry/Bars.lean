import DspcDriver.Entry.Balance

/-!
# What `PCI_readBAR` reports

A window is usable if its BAR is a memory BAR with an address that was reserved and mapped.
`PCI_readBAR` tests the address alone: `readBAR_eq` is the whole run, `retAfter` the value that is
returned. `barsReported_iff` says for which BARs and which outcomes of the kernel calls that value tells
what the call has done.
-/

namespace Dspc

open Lib

/-- Pointer, base and length of the window on a BAR. -/
def PcieBarReg.onBAR (r : PcieBarReg) : Nat → Option Nat × Nat × Nat
  | 0 => (r.regVirt, r.regBase, r.regLen)
  | 1 => (r.memVirt, r.memBase, r.memLen)
  | 2 => (r.msmcVirt, r.msmcBase, r.msmcLen)
  | _ => (r.ddrVirt, r.ddrBase, r.ddrLen)

/-- A memory BAR with an address. -/
def Assigned (dev : PciDev) (bar : Nat) : Prop :=
  dev.flags bar &&& IORESOURCE_MEM ≠ 0 ∧ 0 < dev.start bar

instance (dev : PciDev) (bar : Nat) : Decidable (Assigned dev bar) := instDecidableAnd

section

variable (env : InitEnv) (chipIndex : Nat) (dev : PciDev)

/-- A memory BAR with an address that was reserved and mapped. -/
def Usable (bar : Nat) : Prop :=
  Assigned dev bar ∧ env.request_mem_region chipIndex bar = true ∧
    (env.ioremap chipIndex bar).isSome = true

/-- The outcome of the reservation made for a BAR. -/
def reserved (bar : Nat) : Bool :=
  if dev.flags bar &&& IORESOURCE_MEM ≠ 0 then env.request_mem_region chipIndex bar
  else env.request_region chipIndex bar

/-- Neither the reservation made for a BAR nor its `ioremap`, if there is one, succeeds. -/
def NothingTaken (bar : Nat) : Prop :=
  reserved env chipIndex dev bar = false ∧ (Assigned dev bar → env.ioremap chipIndex bar = none)

/-- The value `ret`, the record `r` and the events `es` of a run report what it has done: 0 for four
usable windows, which the record then has, and otherwise a window that failed, with nothing taken. -/
structure Reported (ret : Int) (r : PcieBarReg) (es : List InitEvent) : Prop where
  success : ret = 0 ↔ ∀ bar < 4, Usable env chipIndex dev bar
  mapped : ret = 0 → ∀ bar < 4, ∃ virt start len, env.ioremap chipIndex bar = some virt ∧
    .acquire (.mapping chipIndex bar start len) ∈ es ∧ r.onBAR bar = (some virt, start, len) ∧
    start = dev.start bar ∧ len = dev.len bar
  failed : ret ≠ 0 → ∃ bar : Nat, bar < 4 ∧ ret = -(bar + 1) ∧
    ¬ Usable env chipIndex dev bar
  undone : ret ≠ 0 → Ledger.Balanced (ledger es)

/-- `PCI_readBAR` returns, and reports what it has done. -/
def BarsReported (r₀ : PcieBarReg) : Prop :=
  ∃ ret r, (PCI_readBAR env chipIndex dev (some r₀)).out = .ok (ret, r) ∧
    Reported env chipIndex dev ret r (PCI_readBAR env chipIndex dev (some r₀)).events

/-! ## The run -/

/-- What the reservation of a BAR gives. -/
def regionOf (bar : Nat) : Resource :=
  if dev.flags bar &&& IORESOURCE_MEM ≠ 0 then
    .memRegion chipIndex bar (dev.start bar) (dev.len bar)
  else .ioRegion chipIndex bar 0 (dev.len bar)

/-- What the calls for a BAR acquire. -/
def barEvents (bar : Nat) : List InitEvent :=
  (if reserved env chipIndex dev bar then [.acquire (regionOf chipIndex dev bar)] else []) ++
  if Assigned dev bar ∧ (env.ioremap chipIndex bar).isSome then
    [.acquire (.mapping chipIndex bar (dev.start bar) (dev.len bar))]
  else []

/-- The base of a window: 0 for a BAR that is not a memory BAR. -/
def barBase (bar : Nat) : Nat := if dev.flags bar &&& IORESOURCE_MEM ≠ 0 then dev.start bar else 0

/-- The record that `PCI_readBAR` leaves of `r₀`: the pointer of a window without a base stays. -/
def recordAfter (r₀ : PcieBarReg) : PcieBarReg :=
  let virt (bar : Nat) (old : Option Nat) :=
    if Assigned dev bar then env.ioremap chipIndex bar else old
  { regVirt := virt 0 r₀.regVirt
    memVirt := virt 1 r₀.memVirt
    msmcVirt := virt 2 r₀.msmcVirt
    ddrVirt := virt 3 r₀.ddrVirt
    regBase := barBase dev 0
    memBase := barBase dev 1
    msmcBase := barBase dev 2
    ddrBase := barBase dev 3
    memLen := dev.len 1
    regLen := dev.len 0
    msmcLen := dev.len 2
    ddrLen := dev.len 3 }

/-- `retValue` after the first `n` BARs. -/
def retAfter : Nat → Int
  | 0 => 0
  | n + 1 => if 0 < barBase dev n then retAfter n else -(n + 1)

end

section

variable {env : InitEnv} {chipIndex : Nat} {dev : PciDev}

theorem barBase_pos_iff {bar : Nat} : 0 < barBase dev bar ↔ Assigned dev bar := by
  by_cases hm : dev.flags bar &&& IORESOURCE_MEM = 0#32 <;> simp [barBase, Assigned, hm]

theorem Assigned.barBase_eq {bar : Nat} (h : Assigned dev bar) : barBase dev bar = dev.start bar :=
  if_pos h.1

theorem reserveBAR_eq (bar : Nat) : reserveBAR env chipIndex dev bar =
    ⟨if reserved env chipIndex dev bar then [.acquire (regionOf chipIndex dev bar)] else [],
      .ok (barBase dev bar)⟩ := by
  unfold reserveBAR reserved barBase regionOf
  split
  · rw [kcall, Trace.emitAll, Trace.mk_ok_bind, Trace.pure_def, List.append_nil]
  · rw [kcall, Trace.emitAll, Trace.mk_ok_bind, Trace.pure_def, List.append_nil]

/-- The part for one BAR runs to its end, whatever its calls give. -/
theorem mapBAR_eq (bar : Nat) (virt : Option Nat) :
    mapBAR env chipIndex dev false bar virt = ⟨barEvents env chipIndex dev bar,
      .ok (barBase dev bar, if Assigned dev bar then env.ioremap chipIndex bar else virt)⟩ := by
  rw [mapBAR, reserveBAR_eq, Trace.mk_ok_bind, barEvents]
  simp only [barBase_pos_iff]
  by_cases h : Assigned dev bar
  · rw [if_pos h, if_pos h]
    simp [kcall, deref, h, Trace.emitAll, Trace.pure_def]
  · rw [if_neg h, if_neg h]
    simp [h, Trace.pure_def]

/-- **A run of `PCI_readBAR`** goes through all four BARs, and the last without a base gives the
value. -/
theorem readBAR_eq (r₀ : PcieBarReg) : PCI_readBAR env chipIndex dev (some r₀) =
    ⟨(List.range 4).flatMap (barEvents env chipIndex dev),
      .ok (retAfter dev 4, recordAfter env chipIndex dev r₀)⟩ := by
  unfold PCI_readBAR
  simp only [Option.isNone_some, mapBAR_eq, Trace.mk_ok_bind, deref, Bool.not_false, if_true,
    Trace.pure_def, List.append_nil]
  have hes : (List.range 4).flatMap (barEvents env chipIndex dev) =
      barEvents env chipIndex dev 0 ++ (barEvents env chipIndex dev 1 ++
        (barEvents env chipIndex dev 2 ++ barEvents env chipIndex dev 3)) := by
    simp [show List.range 4 = [0, 1, 2, 3] from rfl]
  rw [hes]
  rfl

theorem onBAR_recordAfter (r₀ : PcieBarReg) {bar : Nat} (hbar : bar < 4) (h : Assigned dev bar) :
    (recordAfter env chipIndex dev r₀).onBAR bar =
      (env.ioremap chipIndex bar, dev.start bar, dev.len bar) := by
  obtain rfl | rfl | rfl | rfl : bar = 0 ∨ bar = 1 ∨ bar = 2 ∨ bar = 3 := by omega
  all_goals simp only [PcieBarReg.onBAR, recordAfter, h.barBase_eq, if_pos h]

/-! ## The value returned -/

/-- The value is 0 only if every BAR has a base, and is else the code of one that has none. -/
theorem retAfter_cases (dev : PciDev) (n : Nat) : (retAfter dev n = 0 ∧ ∀ bar < n, Assigned dev bar) ∨
    ∃ bar : Nat, bar < n ∧ retAfter dev n = -(bar + 1) ∧ ¬ Assigned dev bar := by
  induction n with
  | zero => exact .inl ⟨rfl, fun bar h => absurd h (Nat.not_lt_zero bar)⟩
  | succ n ih =>
    rw [retAfter]
    by_cases hb : 0 < barBase dev n
    · rw [if_pos hb]
      obtain ⟨h0, hall⟩ | ⟨bar, hlt, hret, hna⟩ := ih
      · refine .inl ⟨h0, fun bar hbar => ?_⟩
        rcases Nat.lt_succ_iff_lt_or_eq.mp hbar with hlt | rfl
        · exact hall bar hlt
        · exact barBase_pos_iff.mp hb
      · exact .inr ⟨bar, by omega, hret, hna⟩
    · rw [if_neg hb]
      exact .inr ⟨n, Nat.lt_succ_self n, rfl, fun h => hb (barBase_pos_iff.mpr h)⟩

/-! ## What is left -/

theorem ledger_barEvents {bar : Nat} :
    ledger (barEvents env chipIndex dev bar) = [] ↔ NothingTaken env chipIndex dev bar := by
  rw [barEvents, ledger_append, List.append_eq_nil_iff, NothingTaken]
  refine and_congr ?_ ?_
  · cases reserved env chipIndex dev bar <;> simp [ledger, InitEvent.entry]
  · by_cases h : Assigned dev bar <;> cases env.ioremap chipIndex bar <;>
      simp [ledger, InitEvent.entry, h]

/-- A call leaves nothing reserved or mapped exactly if nothing of it succeeds: it releases nothing. -/
theorem balanced_readBAR_iff (r₀ : PcieBarReg) :
    Ledger.Balanced (ledger (PCI_readBAR env chipIndex dev (some r₀)).events) ↔
      ∀ bar < 4, NothingTaken env chipIndex dev bar := by
  rw [Ledger.balanced_iff_nil (ledger_noRelease (readBAR_keeps dev _)), readBAR_eq, ledger,
    List.filterMap_flatMap, List.flatMap_eq_nil_iff]
  simp only [List.mem_range]
  exact forall₂_congr fun bar _ => ledger_barEvents

/-- A usable BAR is mapped by the call. -/
theorem Usable.mapping_mem {r₀ : PcieBarReg} {bar : Nat} (hbar : bar < 4)
    (h : Usable env chipIndex dev bar) :
    .acquire (.mapping chipIndex bar (dev.start bar) (dev.len bar)) ∈
      (PCI_readBAR env chipIndex dev (some r₀)).events := by
  rw [readBAR_eq]
  refine List.mem_flatMap.mpr ⟨bar, List.mem_range.mpr hbar, List.mem_append_right _ ?_⟩
  rw [if_pos ⟨h.1, h.2.2⟩]
  exact List.mem_singleton_self _

/-- Four usable windows are reported. -/
theorem reported_of_usable (r₀ : PcieBarReg) (h : ∀ bar < 4, Usable env chipIndex dev bar) :
    Reported env chipIndex dev (retAfter dev 4) (recordAfter env chipIndex dev r₀)
      (PCI_readBAR env chipIndex dev (some r₀)).events := by
  have h0 : retAfter dev 4 = 0 := by
    obtain ⟨h0, -⟩ | ⟨bar, hlt, -, hna⟩ := retAfter_cases dev 4
    · exact h0
    · exact absurd (h bar hlt).1 hna
  refine ⟨⟨fun _ => h, fun _ => h0⟩, fun _ bar hbar => ?_, fun hne => absurd h0 hne,
    fun hne => absurd h0 hne⟩
  obtain ⟨virt, hv⟩ := Option.isSome_iff_exists.mp (h bar hbar).2.2
  exact ⟨virt, _, _, hv, (h bar hbar).mapping_mem hbar, by
    rw [onBAR_recordAfter r₀ hbar (h bar hbar).1, hv], rfl, rfl⟩

/-- A BAR without an address is reported, and rightly if nothing was taken. -/
theorem reported_of_unassigned (r₀ : PcieBarReg) (hex : ∃ bar < 4, ¬ Assigned dev bar)
    (hnone : ∀ bar < 4, NothingTaken env chipIndex dev bar) :
    Reported env chipIndex dev (retAfter dev 4) (recordAfter env chipIndex dev r₀)
      (PCI_readBAR env chipIndex dev (some r₀)).events := by
  obtain ⟨bar, hlt, hna⟩ := hex
  obtain ⟨-, hall⟩ | ⟨last, hlast, hret, hno⟩ := retAfter_cases dev 4
  · exact absurd (hall bar hlt) hna
  · have hne : retAfter dev 4 ≠ 0 := by omega
    exact ⟨⟨fun h0 => absurd h0 hne, fun hus => absurd (hus bar hlt).1 hna⟩,
      fun h0 => absurd h0 hne, fun _ => ⟨last, hlast, hret, fun hus => hno hus.1⟩,
      fun _ => (balanced_readBAR_iff r₀).mpr hnone⟩

/-- **When `PCI_readBAR` reports what it has done**: all four windows are usable, or a BAR has no
address and nothing that the call asks the kernel for succeeds. -/
theorem barsReported_iff (env : InitEnv) (chipIndex : Nat) (dev : PciDev) (r₀ : PcieBarReg) :
    BarsReported env chipIndex dev r₀ ↔ (∀ bar < 4, Usable env chipIndex dev bar) ∨
      (∃ bar < 4, ¬ Assigned dev bar) ∧ ∀ bar < 4, NothingTaken env chipIndex dev bar := by
  constructor
  · rintro ⟨ret, r, hout, hrep⟩
    rw [readBAR_eq] at hout
    cases hout
    obtain ⟨h0, -⟩ | ⟨bar, hlt, hret, hna⟩ := retAfter_cases dev 4
    · exact .inl (hrep.success.mp h0)
    · exact .inr ⟨⟨bar, hlt, hna⟩, (balanced_readBAR_iff r₀).mp (hrep.undone (by omega))⟩
  · rintro (hus | ⟨hex, hnone⟩)
    · exact ⟨_, _, congrArg Trace.out (readBAR_eq r₀), reported_of_usable r₀ hus⟩
    · exact ⟨_, _, congrArg Trace.out (readBAR_eq r₀), reported_of_unassigned r₀ hex hnone⟩

/-- `unassignedBar` with an address for BAR 3, that another driver has and `ioremap` finds no room
for: 0 is returned. -/
theorem not_barsReported_unmapped : ¬ BarsReported unassignedBar 0
    { devClass := 0x118000
      start := fun bar => [0xE0000000, 0xE0100000, 0xE0400000, 0xE1000000].getD bar 0
      len := fun bar => [0x1000, 0x80000, 0x400000, 0x1000000].getD bar 0
      flags := fun _ => IORESOURCE_MEM } .zeroed := by
  rintro ⟨ret, r, hout, hrep⟩
  have h0 : ret = 0 := by
    rw [readBAR_eq] at hout
    cases hout
    decide
  have hus := hrep.success.mp h0 3 (by decide)
  exact absurd hus.2.1 (by decide)

end

end Dspc
