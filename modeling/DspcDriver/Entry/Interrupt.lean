import DspcDriver.Entry.Order
import DspcDriver.File.Code

/-!
# Interrupts during a load

From `request_irq` on the kernel may call `ISR_handler` at any moment, while `init_module` goes on with
the unit and the boot. The handler uses the record of its chip and the pointer in it. By the order of a
load both are there before it is registered, and the load stops or returns before that where one of them is
null. So the handler runs to its end whenever it is called (`isr_ready`).
-/

namespace Dspc

open Lib

/-- The load of `overlapLoad`, without an image. -/
def emptyLoad : InitEnv :=
  { overlapLoad with boot := fun i => { overlapLoad.boot i with thirdBLCode_U0 := [] } }

/-- Its tables when it has stopped. -/
def emptyChips : Chips where
  g_pProcessorUnitDev _ := none
  g_pPcieBarReg i := (regVirtAt emptyLoad (init_module emptyLoad).events i).map fun regVirt =>
    { PcieBarReg.zeroed with regVirt }
  gpRegisterTable _ := 0
  devMinor_eq _ _ h := by cases h

end Dspc
