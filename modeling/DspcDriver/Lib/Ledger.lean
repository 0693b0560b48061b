import Mathlib.Data.Multiset.AddSub

/-!
# Ledgers of resources

A ledger is the list of what a component acquires and releases, in order. `held` is what it holds
after the ledger if it held `before` at its start, as a multiset, since one resource can be acquired
several times. A ledger is `Balanced` if it gives back all that it takes, whatever was held before.

A component that never releases only adds to what it holds (`card_held`), so it is balanced only if
it acquires nothing (`balanced_iff_nil`).
-/

namespace Lib

namespace Ledger

inductive Entry (ρ : Type) where
  | acquire (r : ρ)
  | release (r : ρ)
  deriving DecidableEq

variable {ρ : Type} [DecidableEq ρ]

def Entry.apply (held : Multiset ρ) : Entry ρ → Multiset ρ
  | .acquire r => r ::ₘ held
  | .release r => held.erase r

/-- What is held after the ledger. -/
def held (before : Multiset ρ) (es : List (Entry ρ)) : Multiset ρ := es.foldl Entry.apply before

def Balanced (es : List (Entry ρ)) : Prop := ∀ before, held before es = before

/-- Nothing is released. -/
def NoRelease (es : List (Entry ρ)) : Prop := ∀ r, .release r ∉ es

variable {before : Multiset ρ} {es : List (Entry ρ)}

theorem card_held (h : NoRelease es) : (held before es).card = before.card + es.length := by
  induction es generalizing before with
  | nil => rfl
  | cons e es ih =>
    have hes : NoRelease es := fun r hr => h r (List.mem_cons_of_mem _ hr)
    cases e with
    | acquire r =>
      show (held (r ::ₘ before) es).card = _
      rw [ih hes, Multiset.card_cons, List.length_cons]
      omega
    | release r => exact absurd List.mem_cons_self (h r)

/-- **Without a release, balanced means that nothing was acquired.** -/
theorem balanced_iff_nil (h : NoRelease es) : Balanced es ↔ es = [] := by
  constructor
  · intro hb
    have hc : (held 0 es).card = (0 : Multiset ρ).card + es.length := card_held h
    rw [hb 0] at hc
    exact List.length_eq_zero_iff.mp (by simpa using hc.symm)
  · rintro rfl before
    rfl

end Ledger

end Lib
