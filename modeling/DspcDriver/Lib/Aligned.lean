import Mathlib.Order.Basic

/-!
# Aligned windows

A window of `W` addresses covers a range if it has every address of it. The window from `p` rounded
down to a multiple of `W` covers the `n` addresses from `p` on exactly if they end in it
(`covers_down_iff`). A range longer than `W` no window covers (`Covers.le`).
-/

namespace Lib

namespace Aligned

variable {b W p n : Nat}

/-- The `W` addresses from `b` on have the `n` addresses from `p` on among them. -/
def Covers (b W p n : Nat) : Prop := ∀ a, p ≤ a → a < p + n → b ≤ a ∧ a < b + W

theorem covers_empty : Covers b W p 0 := fun a h h' => by omega

theorem covers_iff (hn : 0 < n) : Covers b W p n ↔ b ≤ p ∧ p + n ≤ b + W := by
  constructor
  · intro h
    have h1 := h p (Nat.le_refl p) (by omega)
    have h2 := h (p + n - 1) (by omega) (by omega)
    omega
  · intro h a h1 h2
    omega

/-- A range that a window covers is no longer than the window. -/
theorem Covers.le (h : Covers b W p n) : n ≤ W := by
  rcases Nat.eq_zero_or_pos n with rfl | hn
  · exact Nat.zero_le W
  · have := (covers_iff hn).mp h
    omega

/-- The window that `p` is in covers what ends in it. -/
theorem covers_down_iff (hn : 0 < n) : Covers (p - p % W) W p n ↔ p % W + n ≤ W := by
  have := Nat.mod_le p W
  rw [covers_iff hn]
  omega

end Aligned

end Lib
