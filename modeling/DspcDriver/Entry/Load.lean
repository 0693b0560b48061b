import DspcDriver.Entry.Balance
import DspcDriver.Upload.Image

/-!
# What a load does to the DSP

`InitEvent.access` is what the DSP sees of a load: the writes to its application registers and the
stores through its windows. `init_within`: whatever the kernel calls give and wherever the load ends,
the accesses begin one fixed list, in its order (`loadAccesses`): the inbound translation, the interrupt
enables, the outbound window, and then the stores of the upload.

`Dsp.run` is what accesses do: a store reaches the DSP memory by the inbound translation that the
registers hold at that moment. `load_in_order` puts both together, for every moment of a load.
-/

namespace Dspc

open Lib

/-! ## The accesses of a load -/

/-- What the host does at the DSP; `loaded` marks the return of `uploadProgram`. -/
inductive Access where
  | reg (reg : Nat) (value : Word)
  | store (s : Store)
  | loaded
  deriving DecidableEq

def BootEvent.access : BootEvent → Option Access
  | .iowrite reg value => some (.reg reg value)
  | .store s => some (.store s)
  | .uploaded _ => some .loaded
  | _ => none

/-- What the DSP of the chip sees of an event. -/
def InitEvent.access (chipIndex : Nat) : InitEvent → Option Access
  | .iowrite i reg value => if i = chipIndex then some (.reg reg value) else none
  | .boot i e => if i = chipIndex then e.access else none
  | _ => none

/-- The addresses of the DMA buffer, which are 0 if there is none. -/
def BootEnv.dmaAddr (env : BootEnv) : Word × Word := env.dma.getD (0, 0)

/-- The register writes of a boot. -/
def BootEnv.mapWrites (env : BootEnv) : List (Nat × Word) :=
  (dspMemoryMap (zone env.dmaAddr.1 env.dmaAddr.2).alignPhyAddr DMA_TRANSFER_SIZE).2

/-- `iowrite32`s as accesses. -/
def regAccesses (l : List (Nat × Word)) : List Access := l.map fun x => .reg x.1 x.2

/-- The accesses of a boot, if it is not stopped. -/
def BootEnv.accesses (env : BootEnv) : List Access :=
  regAccesses env.mapWrites ++
    ((uploadProgram env.thirdBLCode_U0 0).events.map .store ++ [.loaded])

/-- The accesses of a load to the first chip, if it is not stopped. -/
def loadAccesses (dev : PciDev) (env : BootEnv) : List Access :=
  regAccesses (PCI_setInBound dev.start) ++ (regAccesses PCI_EnableDspInterrupt ++ env.accesses)

/-! ## The boot -/

section Boot

variable {env : BootEnv} {P : BootEvent → Prop}

theorem dmaAlloc_all (h : P .dmaAlloc) : (dmaAlloc env).All P := by
  unfold dmaAlloc
  split
  · exact .bind (.emit h) fun _ _ => .pure _
  · exact .pure _

theorem iowriteAll_all (h : ∀ reg v, P (.iowrite reg v)) (l : List (Nat × Word)) :
    (iowriteAll env l).All P := by
  induction l with
  | nil => exact .pure ()
  | cons x l ih => exact .ite (fun _ => .stop _) fun _ => .bind (.emit (h _ _)) fun _ _ => ih

theorem storeAll_all (h : ∀ s, P (.store s)) (st : List Store) : (storeAll env st).All P := by
  induction st with
  | nil => exact .pure ()
  | cons s st ih => exact .ite (fun _ => .stop _) fun _ => .bind (.emit (h _)) fun _ _ => ih

/-! ### Behind the upload

The pushes go through the host's own memory.
-/

section Waits

variable (hpoll : ∀ w r, P (.polled w r)) (hcontrol : ∀ v, P (.pushCodeControl v))
  (hcopy : ∀ dst src n, P (.memcpy dst src n))

include hpoll

theorem poll_all (w : Wait) : (poll env w).All P := .bind (.emit (hpoll _ _)) fun _ _ => .pure _

include hcontrol hcopy

theorem pushCore_all (z : Word) (i : Nat) (image : List Byte) : (pushCore env z i image).All P := by
  refine .bind (.emit (hcontrol _)) fun _ _ => .bind (poll_all hpoll _) fun _ _ =>
    .bind (.emit (hcopy _ _ _)) fun _ _ => .bind (.emit (hcontrol _)) fun _ _ =>
    .bind (poll_all hpoll _) fun _ _ => .ite (fun _ => ?_) fun _ => .pure _
  exact .bind (.emit (hcontrol _)) fun _ _ => .pure _

theorem pushCores_all (z : Word) (r : Int) (l : List (Nat × List Byte)) :
    (pushCores env z r l).All P := by
  induction l generalizing r with
  | nil => exact .pure _
  | cons x l ih =>
    refine .bind (pushCore_all hpoll hcontrol hcopy z _ _) fun r _ => ?_
    cases r with
    | ok r => exact ih r
    | error r => exact .pure _

theorem pushCode_all (z : Word) : (pushCode env z).All P := by
  refine .bind (.emit (hcontrol _)) fun _ _ => .bind (poll_all hpoll _) fun _ _ =>
    .ite (fun _ => ?_) fun _ => .pure _
  refine .bind (.emit (hcopy _ _ _)) fun _ _ => .bind (.emit (hcontrol _)) fun _ _ =>
    .bind (poll_all hpoll _) fun _ _ => .ite (fun _ => ?_) fun _ => .pure _
  refine .bind (.emit (hcontrol _)) fun _ _ =>
    .bind (pushCores_all hpoll hcontrol hcopy z _ _) fun r _ => ?_
  cases r with
  | error r => exact .pure _
  | ok r =>
    refine .ite (fun _ => ?_) fun _ => .pure _
    exact .bind (poll_all hpoll _) fun _ _ => .ite (fun _ => .pure _) fun _ => .pure _

/-- The boot behind the return of `uploadProgram`. -/
theorem waits_all (r : Int) (z : Word) : Trace.All P (derefRegisterTable env >>= fun _ =>
    if r = 0 then poll env .initReady >>= fun _ => pushCode env z else pure (-1)) := by
  refine .bind (.ite (fun _ => .stop _) fun _ => .pure _) fun _ _ => .ite (fun _ => ?_) fun _ => .pure _
  exact .bind (poll_all hpoll _) fun _ _ => pushCode_all hpoll hcontrol hcopy z

end Waits

theorem dmaAlloc_out : (dmaAlloc env).out = .ok env.dmaAddr := by
  unfold dmaAlloc BootEnv.dmaAddr
  split <;> rename_i h <;> rw [h] <;> rfl

theorem iowriteAll_emits (l : List (Nat × Word)) :
    (iowriteAll env l).Emits BootEvent.access (regAccesses l) := by
  induction l with
  | nil => exact .pure ()
  | cons x l ih =>
    have he : (Trace.emit (.iowrite x.1 x.2) : BootM Unit).Emits BootEvent.access [.reg x.1 x.2] :=
      .emit rfl
    unfold iowriteAll
    split
    · exact .stop _
    · exact he.bind fun _ _ => ih

theorem storeAll_emits (st : List Store) :
    (storeAll env st).Emits BootEvent.access (st.map .store) := by
  induction st with
  | nil => exact .pure ()
  | cons s st ih =>
    have he : (Trace.emit (.store s) : BootM Unit).Emits BootEvent.access [.store s] := .emit rfl
    unfold storeAll
    split
    · exact .stop _
    · exact he.bind fun _ _ => ih

theorem upload_emits : (upload env).Emits BootEvent.access
    ((uploadProgram env.thirdBLCode_U0 0).events.map .store ++ [.loaded]) := by
  refine .bind (storeAll_emits _) fun _ _ => ?_
  split
  · rename_i retValue _ _
    have he : (Trace.emit (.uploaded retValue) : BootM Unit).Emits BootEvent.access [.loaded] :=
      .emit rfl
    exact he.bind fun _ _ => .pure _
  · exact .stop _

theorem bootLoader_within (env : BootEnv) : (bootLoader env).Within BootEvent.access env.accesses := by
  refine .after (dmaAlloc_all rfl) fun a ha => .after (.emit rfl) fun _ _ => ?_
  rw [dmaAlloc_out] at ha
  cases ha
  refine .bind (iowriteAll_emits _) fun _ _ => ?_
  exact .bind_silent upload_emits.within fun r _ =>
    waits_all (fun _ _ => rfl) (fun _ => rfl) (fun _ _ _ => rfl) r _

end Boot

/-! ## The load -/

section Load

variable {env : InitEnv} {c : Nat}

theorem iowriteRegs_emits (regVirt : Option Nat) (l : List (Nat × Word)) :
    (iowriteRegs c regVirt l).Emits (InitEvent.access c) (regAccesses l) := by
  induction l with
  | nil => exact .pure ()
  | cons x l ih =>
    have he : (Trace.emit (.iowrite c x.1 x.2) : InitM Unit).Emits (InitEvent.access c)
        [.reg x.1 x.2] := .emit (if_pos rfl)
    exact .bind (l := []) (.silent (deref_all _)) fun _ _ => he.bind fun _ _ => ih

theorem startChip_within (dev : PciDev) (bar : PcieBarReg) :
    (startChip env c dev bar).Within (InitEvent.access c) (loadAccesses dev (env.boot c)) := by
  refine .bind (iowriteRegs_emits _ _) fun _ _ => .bind (iowriteRegs_emits _ _) fun _ _ => ?_
  refine .after (kcall_all _ rfl) fun _ _ => .after (kcall_all _ rfl) fun _ _ =>
    .after (storeTable_all rfl) fun _ _ => .after (deref_all _) fun _ _ => .after (.emit rfl) fun _ _ => ?_
  refine Trace.replay_within ?_
  have hf : (fun e => InitEvent.access c (.boot c e)) = BootEvent.access := by
    funext e
    exact if_pos rfl
  rw [hf]
  exact bootLoader_within { env.boot c with bar }

theorem setupChip_within (dev : PciDev) :
    (setupChip env c (some dev)).Within (InitEvent.access c) (loadAccesses dev (env.boot c)) := by
  refine .after (kcall_all _ rfl) fun _ _ => .after (storeTable_all rfl) fun _ _ =>
    .after (deref_all _) fun _ _ => .after (kcall_all _ rfl) fun _ _ =>
    .after (readBAR_all (fun _ _ _ => rfl) (fun _ _ _ => rfl) (fun _ _ _ => rfl) _) fun r _ =>
    .ite (fun _ => .silent (.pure _)) fun _ => ?_
  exact .bind_silent (startChip_within _ _) fun _ _ => .pure _

/-- **The accesses of a load**, at most and in this order, whatever its kernel calls give. -/
theorem init_within {dev : PciDev} {devs : List PciDev} (hdev : endpoints env.devices = dev :: devs) :
    (init_module env).Within (InitEvent.access 0) (loadAccesses dev (env.boot 0)) := by
  rw [init_module, findPciDevices_eq, if_neg (by rw [hdev]; exact List.cons_ne_nil _ _)]
  refine .after (storeDevices_all (fun _ => rfl) _) fun _ _ => .ite (fun _ => .silent (.pure _)) fun _ =>
    .after (initChips_all fun _ _ => initChip_all rfl fun _ _ => rfl) fun _ _ =>
    .after (.bind (kcall_all _ rfl) fun _ _ => .pure _) fun _ _ =>
    .ite (fun _ => .silent (.pure _)) fun _ => ?_
  have hfirst : ((findLoop env.devices 0).1.map (·.2))[0]? = some dev := by
    rw [findLoop_eq, Stores.map_snd_block, hdev]
    rfl
  rw [show List.range 1 = [0] from rfl, setupChips, hfirst]
  refine .bind_silent (setupChip_within dev) fun r _ => ?_
  cases r with
  | error r => exact .pure _
  | ok r => exact .pure _

end Load

/-! ## The DSP -/

/-- The application registers and the memory of a DSP, by byte offset and DSP address, as the host has
set them. -/
structure Dsp where
  reg : Nat → Word
  mem : Nat → Word

/-- What an access does at the DSP `dev`; a store behind the end of its BAR does not reach it. -/
def Dsp.access (dev : PciDev) (d : Dsp) : Access → Dsp
  | .reg reg value => { d with reg := Function.update d.reg reg value }
  | .store s =>
    if 4 * s.1.index + 4 ≤ dev.len s.1.window.bar then
      match s.1.dspAddr d.reg dev.start with
      | some a => { d with mem := Function.update d.mem a s.2 }
      | none => d
    else d
  | .loaded => d

def Dsp.run (dev : PciDev) (es : List Access) (d : Dsp) : Dsp := es.foldl (Dsp.access dev) d

/-- The DSP of the first chip after the events `es`. -/
def Dsp.after (dev : PciDev) (es : List InitEvent) (d : Dsp) : Dsp :=
  d.run dev (es.filterMap (InitEvent.access 0))

/-- Each window shows its DSP region. -/
def InboundSet (dev : PciDev) (reg : Nat → Word) : Prop :=
  ∀ l : Loc, l.dspAddr reg dev.start = some (l.window.global + 4 * l.index)

section Run

variable {dev : PciDev}

theorem Dsp.run_append (es es' : List Access) (d : Dsp) :
    d.run dev (es ++ es') = (d.run dev es).run dev es' := List.foldl_append

theorem Dsp.run_loaded (d : Dsp) : d.run dev [.loaded] = d := rfl

theorem Dsp.run_regs (l : List (Nat × Word)) (d : Dsp) :
    d.run dev (regAccesses l) = { d with reg := Stores.run l d.reg } := by
  induction l generalizing d with
  | nil => rfl
  | cons x l ih => exact ih _

/-- The DSP stores of stores through windows that show their regions. -/
def globalStores (st : List Store) : List (Nat × Word) :=
  st.map fun x => (x.1.window.global + 4 * x.1.index, x.2)

theorem Dsp.run_stores {d : Dsp} (hin : InboundSet dev d.reg) {st : List Store}
    (hst : ∀ x ∈ st, 4 * x.1.index + 4 ≤ dev.len x.1.window.bar) :
    d.run dev (st.map .store) = { d with mem := Stores.run (globalStores st) d.mem } := by
  induction st generalizing d with
  | nil => rfl
  | cons x st ih =>
    have hx : d.access dev (.store x) =
        { d with mem := Function.update d.mem (x.1.window.global + 4 * x.1.index) x.2 } := by
      rw [Dsp.access, if_pos (hst x List.mem_cons_self), hin x.1]
    have htail := ih (d := d.access dev (.store x)) (by rw [hx]; exact hin)
      fun y hy => hst y (List.mem_cons_of_mem _ hy)
    rw [hx] at htail
    rw [List.map_cons, Dsp.run, List.foldl_cons, hx]
    exact htail

end Run

/-! ## The registers of a load -/

/-- What the registers have to be for the DSP program to run: the windows of the host, the window of
the DSP on the DMA buffer at `phys`, and both interrupts. -/
structure RegsSet (dev : PciDev) (phys : Nat) (reg : Nat → Word) : Prop where
  inbound : InboundSet dev reg
  outbound : ∀ o, outbound reg o = phys - phys % DMA_TRANSFER_SIZE.toNat + o
  legacyA : reg LEGACY_A_IRQ_ENABLE_SET = 1
  legacyB : reg LEGACY_B_IRQ_ENABLE_SET = 1

/-- The register writes of a load, in order. -/
def loadWrites (dev : PciDev) (env : BootEnv) : List (Nat × Word) :=
  PCI_setInBound dev.start ++ (PCI_EnableDspInterrupt ++ env.mapWrites)

theorem loadAccesses_eq (dev : PciDev) (env : BootEnv) : loadAccesses dev env =
    regAccesses (loadWrites dev env) ++
      ((uploadProgram env.thirdBLCode_U0 0).events.map .store ++ [.loaded]) := by
  simp only [loadAccesses, loadWrites, BootEnv.accesses, regAccesses, List.map_append,
    List.append_assoc]

theorem regsSet_run {dev : PciDev} (hstart : ∀ i < 4, dev.start i < 2 ^ 32) (env : BootEnv)
    (reg : Nat → Word) :
    RegsSet dev env.dmaAddr.2.toNat (Stores.run (loadWrites dev env) reg) := by
  have hsize : DMA_TRANSFER_SIZE.toNat = 2 ^ 22 := rfl
  have hob : obWindow DMA_TRANSFER_SIZE = some (0x2, OB_MASK_FOUR) := rfl
  have hlocs : (PCI_setInBound dev.start).map Prod.fst =
      [0x300, 0x304, 0x308, 0x310, 0x314, 0x318, 0x320, 0x324, 0x328, 0x330, 0x334, 0x338, 0x30C,
        0x31C, 0x32C, 0x33C] := rfl
  have hlocs' : (PCI_EnableDspInterrupt ++ env.mapWrites).map Prod.fst =
      [0x188, 0x198, 0x30, 0x200, 0x204] := rfl
  have hdisj : ∀ s ∈ PCI_setInBound dev.start, ∀ s' ∈ PCI_EnableDspInterrupt ++ env.mapWrites,
      s'.1 ≠ s.1 := by
    have h : ∀ r ∈ (PCI_setInBound dev.start).map Prod.fst,
        ∀ r' ∈ (PCI_EnableDspInterrupt ++ env.mapWrites).map Prod.fst, r' ≠ r := by
      rw [hlocs, hlocs']
      decide
    exact fun s hs s' hs' => h _ (List.mem_map_of_mem hs) _ (List.mem_map_of_mem hs')
  refine ⟨fun l => ?_, fun o => ?_, ?_, ?_⟩
  · rw [loadWrites, Stores.run_append, ← Stores.run_again hdisj]
    exact dspAddr_setInBound dev.start hstart _ l
  · have halign := toNat_alignPhyAddr env.dmaAddr.1 env.dmaAddr.2
    have hwin : outbound (Stores.run env.mapWrites _) o = _ :=
      outbound_dspMemoryMap hob (Stores.run PCI_EnableDspInterrupt
        (Stores.run (PCI_setInBound dev.start) reg)) o
    rw [loadWrites, Stores.run_append, Stores.run_append, hwin, hsize,
      show 20 + (0x2 : Word).toNat = 22 from rfl, halign]
    omega
  · rfl
  · rfl

/-! ## The memory of a load -/

/-- The stores of the sections of a table. -/
def BootTable.sectionStores (t : BootTable) : List Store :=
  callStores (t.sections.flatMap (Section.calls 0))

/-- The words of the section lie in the windows of the DSP `dev`. -/
structure Section.Loads (dev : PciDev) (s : Section) : Prop where
  aligned : s.Aligned
  inside : s.Inside
  fits : s.start.toNat % s.window.span + 4 * s.data.length ≤ s.window.base + dev.len s.window.bar
  /-- No word of the section is the boot magic. -/
  avoidsMagic : s.wordAt dspMagic = none

instance (dev : PciDev) (s : Section) : Decidable (s.Loads dev) :=
  decidable_of_iff (s.Aligned ∧ s.Inside ∧
      s.start.toNat % s.window.span + 4 * s.data.length ≤ s.window.base + dev.len s.window.bar ∧
      s.wordAt dspMagic = none)
    ⟨fun ⟨h1, h2, h3, h4⟩ => ⟨h1, h2, h3, h4⟩, fun ⟨h1, h2, h3, h4⟩ => ⟨h1, h2, h3, h4⟩⟩

section Memory

variable {t : BootTable} {dev : PciDev}

/-- Each store of the sections puts a word where the table has it. -/
theorem BootTable.mem_sectionStores (hs : ∀ s ∈ t.sections, s.Loads dev) {x : Store}
    (hx : x ∈ t.sectionStores) : 4 * x.1.index + 4 ≤ dev.len x.1.window.bar ∧
      ∃ s ∈ t.sections, s.wordAt (x.1.window.global + 4 * x.1.index) = some x.2 := by
  obtain ⟨s, h, i, w, hiw, rfl⟩ :=
    (mem_callStores_calls fun s h => (hs s h).inside.reached).mp hx
  obtain ⟨ha, hi, hfit, -⟩ := hs s h
  have hlt := (List.getElem?_eq_some_iff.mp hiw).1
  have hpos := Section.four_mul_pos ha hi.1
  refine ⟨?_, s, h, ?_⟩
  · show 4 * (s.pos + i) + 4 ≤ dev.len s.window.bar
    omega
  · show s.wordAt (s.window.global + 4 * (s.pos + i)) = some w
    rw [Section.wordAt, Section.dspStart_eq ha hi.1, if_pos (by omega),
      show (s.window.global + 4 * (s.pos + i) - (s.window.global + 4 * s.pos)) / 4 = i by omega, hiw]

/-- As long as sections are stored, the addresses that no section has keep their words. -/
theorem BootTable.run_sectionStores (hs : ∀ s ∈ t.sections, s.Loads dev) {st : List Store}
    (hst : st <+: t.sectionStores) (m : Nat → Word) {a : Nat}
    (ha : ∀ s ∈ t.sections, s.wordAt a = none) : Stores.run (globalStores st) m a = m a := by
  refine Stores.run_frame (fun y hy => ?_) m
  obtain ⟨x, hx, rfl⟩ := List.mem_map.mp hy
  obtain ⟨-, s, h, hw⟩ := t.mem_sectionStores hs (hst.subset hx)
  rintro rfl
  rw [ha s h] at hw
  cases hw

/-- All stores of an upload leave what the table means. -/
theorem BootTable.run_stores (hs : ∀ s ∈ t.sections, s.Loads dev) (m : Nat → Word) :
    Stores.run (globalStores (t.sectionStores ++ [(magicLoc, t.entry)])) m = t.load m :=
  run_globalUpload (fun s h => ⟨(hs s h).inside.reached, (hs s h).aligned⟩) 0 m

end Memory

/-! ## Every moment of a load -/

/-- The DSP has the whole program, and its registers are set. -/
structure Started (dev : PciDev) (t : BootTable) (phys : Nat) (m : Nat → Word) (d : Dsp) : Prop where
  mem : d.mem = t.load m
  regs : RegsSet dev phys d.reg

/-- A moment of a load, with the DSP memory `m` before it. -/
structure InOrder (dev : PciDev) (t : BootTable) (phys : Nat) (m : Nat → Word) (es : List InitEvent)
    (d : Dsp) : Prop where
  /-- What no section has keeps its word. -/
  frame : ∀ a, a ≠ dspMagic → (∀ s ∈ t.sections, s.wordAt a = none) → d.mem a = m a
  /-- The boot magic changes only when all else is done. -/
  magic : d.mem dspMagic ≠ m dspMagic → Started dev t phys m d
  /-- From the return of `uploadProgram` on. -/
  uploaded : ∀ r, .boot 0 (.uploaded r) ∈ es → Started dev t phys m d

theorem prefix_append_cases {α : Type} {p l l' : List α} (h : p <+: l ++ l') :
    p <+: l ∨ ∃ q, q <+: l' ∧ p = l ++ q := by
  rcases List.prefix_or_prefix_of_prefix h (List.prefix_append l l') with hp | ⟨q, rfl⟩
  · exact .inl hp
  · exact .inr ⟨q, (List.prefix_append_right_inj l).mp h, rfl⟩

section Moments

variable {dev : PciDev} {t : BootTable} {env : BootEnv} {rest : List Byte} {es : List InitEvent}
  {d : Dsp}

/-- An access list that begins that of the load, and ends before the store of the boot magic: all that
was stored are words of sections. -/
theorem inOrder_before {phys : Nat} (hmem : ∀ a, (∀ s ∈ t.sections, s.wordAt a = none) →
    (d.after dev es).mem a = d.mem a) (hs : ∀ s ∈ t.sections, s.Loads dev)
    (hup : .loaded ∉ es.filterMap (InitEvent.access 0)) :
    InOrder dev t phys d.mem es (d.after dev es) where
  frame a _ ha := hmem a ha
  magic h := absurd (hmem dspMagic fun s hs' => (hs s hs').avoidsMagic) h
  uploaded r hr := by
    have hseen : InitEvent.access 0 (.boot 0 (.uploaded r)) = some .loaded := rfl
    exact absurd (List.mem_filterMap.mpr ⟨_, hr, hseen⟩) hup

theorem inOrder_of_started {phys : Nat} (h : Started dev t phys d.mem (d.after dev es)) :
    InOrder dev t phys d.mem es (d.after dev es) where
  frame a hne ha := by
    rw [h.mem, BootTable.load, if_neg hne, List.findSome?_eq_none_iff.mpr fun s hs =>
      ha s (List.mem_reverse.mp hs), Option.getD_none]
  magic _ := h
  uploaded _ _ := h

/-- A list that begins the accesses of the load. -/
theorem inOrder_of_within (hstart : ∀ i < 4, dev.start i < 2 ^ 32) (hl2 : 0x80000 ≤ dev.len 1)
    (himage : env.thirdBLCode_U0 = t.encode ++ rest) (hs : ∀ s ∈ t.sections, s.Loads dev)
    (hes : es.filterMap (InitEvent.access 0) <+: loadAccesses dev env) :
    InOrder dev t env.dmaAddr.2.toNat d.mem es (d.after dev es) := by
  have hup : uploadProgram env.thirdBLCode_U0 0 =
      ⟨t.sectionStores ++ [(magicLoc, t.entry)], .ok (0, rest)⟩ := by
    rw [himage]
    exact uploadProgram_encode t rest 0 fun s h => (hs s h).inside.reached.size
  rw [loadAccesses_eq, hup] at hes
  have hregs := regsSet_run hstart env d.reg
  have hfits : ∀ x ∈ t.sectionStores ++ [(magicLoc, t.entry)],
      4 * x.1.index + 4 ≤ dev.len x.1.window.bar := by
    intro x hx
    rcases List.mem_append.mp hx with hx | hx
    · exact (t.mem_sectionStores hs hx).1
    · rw [List.mem_singleton.mp hx, magicLoc_end]
      exact hl2
  have hstores : ∀ reg, InboundSet dev reg →
      ∀ st : List Store, st <+: t.sectionStores ++ [(magicLoc, t.entry)] →
        Dsp.run dev (st.map .store) ⟨reg, d.mem⟩ = ⟨reg, Stores.run (globalStores st) d.mem⟩ :=
    fun reg hin st hst => Dsp.run_stores hin fun x hx => hfits x (hst.subset hx)
  -- the DSP after all register writes and the stores `st`
  have hrun : ∀ st : List Store, st <+: t.sectionStores ++ [(magicLoc, t.entry)] →
      d.run dev (regAccesses (loadWrites dev env) ++ st.map .store) =
        ⟨Stores.run (loadWrites dev env) d.reg, Stores.run (globalStores st) d.mem⟩ := fun st hst => by
    rw [Dsp.run_append, Dsp.run_regs]
    exact hstores _ hregs.inbound st hst
  rcases prefix_append_cases hes with hp | ⟨q, hq, hp⟩
  · -- the registers are being written
    obtain ⟨l, -, hl⟩ := List.prefix_map_iff.mp hp
    refine inOrder_before (fun a _ => ?_) hs ?_
    · rw [Dsp.after, hl]
      exact congrFun (congrArg Dsp.mem (Dsp.run_regs l d)) a
    · rw [hl]
      simp
  · have hwhole : d.after dev es = d.run dev
        (regAccesses (loadWrites dev env) ++ (t.sectionStores ++ [(magicLoc, t.entry)]).map .store) →
        InOrder dev t env.dmaAddr.2.toNat d.mem es (d.after dev es) := fun h => by
      rw [hrun _ (List.prefix_refl _)] at h
      exact inOrder_of_started (by rw [h]; exact ⟨t.run_stores hs d.mem, hregs⟩)
    rcases List.prefix_concat_iff.mp hq with rfl | hq
    · -- the upload has returned
      refine hwhole ?_
      rw [Dsp.after, hp, ← List.append_assoc, Dsp.run_append, Dsp.run_loaded]
    · obtain ⟨st, hst, rfl⟩ := List.prefix_map_iff.mp hq
      rcases List.prefix_concat_iff.mp hst with rfl | hsec
      · exact hwhole (by rw [Dsp.after, hp])
      · -- sections are being stored
        refine inOrder_before (fun a ha => ?_) hs ?_
        · rw [Dsp.after, hp, hrun st hst]
          exact t.run_sectionStores hs hsec d.mem ha
        · rw [hp]
          simp [regAccesses]

end Moments

/-- A 6678 with all its BARs. -/
def c6678Dev : PciDev where
  devClass := 0x118000
  start bar := [0xE0000000, 0xE0100000, 0xE0400000, 0xE1000000].getD bar 0
  len bar := [0x1000, 0x80000, 0x400000, 0x1000000].getD bar 0
  flags _ := IORESOURCE_MEM

/-- A load of `overlapTable` onto it, in which the platform never comes up. -/
def overlapLoad : InitEnv :=
  { unassignedBar with
    devices := [c6678Dev]
    request_mem_region := fun _ _ => true
    ioremap := fun _ bar => [0xF8000000, 0xF8100000, 0xF8400000, 0xF9000000][bar]?
    boot := fun _ => {
      bar := c6678Bar
      dma := some (0xC1400000, 0x01400000)
      reads := fun _ _ => 0
      thirdBLCode_U0 := overlapTable.encode ++ [0xAA]
      app4Core0 := []
      DPUCore1 := []
      DPUCore2 := [] } }

end Dspc
