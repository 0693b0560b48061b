import DspcDriver.Lib.Crc
import Mathlib.Dynamics.PeriodicPts.Defs
import Mathlib.Data.Nat.Prime.Basic

/-!
# The period of a generator

A shift of the register is a multiplication by `x` modulo the generator, and the register `1` goes
through the powers of `x`. The least `n` with `x^n = 1` is what decides which pairs of bit errors a
check can miss (`feeds_two_iff`): those whose distance it divides.

`n` shifts are too many to do one by one. `mul` is the product of two registers, and a register that
holds a power of `x` moves another by as many shifts (`mul_eq`), so `xpow` squares its way to `x^n`
in as many products as `n` has bits. `minimalPeriod_eq` then needs one power for each prime of the
period.
-/

namespace Lib

namespace Crc

variable {w : Nat} (g : BitVec w)

/-- `r * x + a` or `r * x`, by the coefficient `b`. -/
def hornerStep (a r : BitVec w) (b : Bool) : BitVec w := shift g r ^^^ if b then a else 0

/-- `k r`, with the number of `r` found first: the kernel evaluates no argument before it is used, and
the steps of a long computation would pile up in it. -/
def strict {α : Type} (r : BitVec w) (k : BitVec w → α) : α :=
  match r.toNat with
  | 0 => k 0#w
  | n + 1 => k (BitVec.ofNat w (n + 1))

/-- The product of `a` and `b` modulo the generator, from the highest coefficient of `b` on. -/
def mul (a b : BitVec w) : BitVec w :=
  (msbBits b).foldl (fun r c => strict r fun r => hornerStep g a r c) 0#w

/-- `x^n` modulo the generator; `fuel` is a bound on the bits of `n`. -/
def xpow : (fuel n : Nat) → BitVec w
  | 0, _ => 1
  | fuel + 1, n => strict (xpow fuel (n / 2)) fun h =>
    if n % 2 = 1 then shift g (mul g h h) else mul g h h

variable {g}

@[simp] theorem strict_eq {α : Type} (r : BitVec w) (k : BitVec w → α) : strict r k = k r := by
  unfold strict
  split
  · rename_i h
    rw [BitVec.eq_of_toNat_eq (x := r) (y := 0#w) (by simpa using h)]
  · rename_i n h
    rw [← Nat.succ_eq_add_one, ← h, BitVec.ofNat_toNat, BitVec.setWidth_eq]

@[simp] theorem shift_zero : shift g 0#w = 0#w := by
  have h := shift_xor (g := g) 0#w 0#w
  simpa using h

@[simp] theorem shifts_zero (n : Nat) : (shift g)^[n] 0#w = 0#w :=
  Function.iterate_fixed shift_zero n

/-! ## Products -/

theorem foldl_hornerStep_shifts (m : Nat) (a r : BitVec w) (bs : List Bool) :
    bs.foldl (hornerStep g ((shift g)^[m] a)) ((shift g)^[m] r) =
      (shift g)^[m] (bs.foldl (hornerStep g a) r) := by
  induction bs generalizing r with
  | nil => rfl
  | cons b bs ih =>
    have hstep : hornerStep g ((shift g)^[m] a) ((shift g)^[m] r) b =
        (shift g)^[m] (hornerStep g a r b) := by
      rw [hornerStep, hornerStep, shifts_xor, ← Function.iterate_succ_apply' (shift g),
        Function.iterate_succ_apply]
      cases b <;> simp
    rw [List.foldl_cons, List.foldl_cons, hstep, ih]

/-- The coefficients of a register, put together again. -/
theorem foldl_hornerStep_one (b : BitVec w) {k : Nat} (hk : k ≤ w) :
    ((List.range k).map b.getMsbD).foldl (hornerStep g 1) 0#w = b >>> (w - k) := by
  induction k with
  | zero => simp [BitVec.ushiftRight_eq_zero]
  | succ k ih =>
    have hm : (b >>> (w - k)).msb = false := by
      rw [BitVec.msb, BitVec.getMsbD_ushiftRight]
      simp
      omega
    rw [List.range_succ, List.map_append, List.foldl_append, ih (by omega)]
    simp only [List.map_cons, List.map_nil, List.foldl_cons, List.foldl_nil, hornerStep,
      shift_of_msb hm]
    apply BitVec.eq_of_getLsbD_eq
    intro i hi
    rw [BitVec.getMsbD_eq_getLsbD]
    have hkw : k < w := by omega
    cases i with
    | zero => cases hb : b.getLsbD (w - 1 - k) <;>
        simp [hb, hkw, hi, show w - (k + 1) = w - 1 - k by omega]
    | succ i => cases b.getLsbD (w - 1 - k) <;>
        simp [hkw, hi, show w - (k + 1) + (i + 1) = w - k + i by omega]

/-- **A power of `x` moves a register by as many shifts.** -/
theorem mul_eq (m : Nat) (b : BitVec w) : mul g ((shift g)^[m] 1) b = (shift g)^[m] b := by
  have h1 : (msbBits b).foldl (hornerStep g 1) 0#w = b := by
    have h := foldl_hornerStep_one (g := g) b (Nat.le_refl w)
    rwa [Nat.sub_self, BitVec.ushiftRight_zero] at h
  have h := foldl_hornerStep_shifts (g := g) m 1 0#w (msbBits b)
  rw [shifts_zero, h1] at h
  simp only [mul, strict_eq]
  exact h

theorem xpow_eq {fuel n : Nat} (h : n < 2 ^ fuel) : xpow g fuel n = (shift g)^[n] 1 := by
  induction fuel generalizing n with
  | zero =>
    obtain rfl : n = 0 := by simpa using h
    rfl
  | succ fuel ih =>
    rw [Nat.pow_succ] at h
    rw [xpow, strict_eq, ih (by omega)]
    simp only [mul_eq, ← Function.iterate_add_apply]
    split
    · rw [← Function.iterate_succ_apply' (shift g)]
      congr 2
      omega
    · congr 2
      omega

/-! ## Periods -/

/-- A number is the period if it is one and none of its quotients by a prime is. -/
theorem minimalPeriod_eq {α : Type} {f : α → α} {x : α} {n : Nat} (hn : 0 < n)
    (h : f^[n] x = x) (hq : ∀ q, q.Prime → q ∣ n → f^[n / q] x ≠ x) :
    Function.minimalPeriod f x = n := by
  have hd : Function.minimalPeriod f x ∣ n := Function.IsPeriodicPt.minimalPeriod_dvd h
  obtain ⟨a, ha⟩ := hd
  have hpos : 0 < Function.minimalPeriod f x := Function.IsPeriodicPt.minimalPeriod_pos hn h
  by_cases h1 : a = 1
  · rw [h1, Nat.mul_one] at ha
    exact ha.symm
  · obtain ⟨b, hb⟩ := a.minFac_dvd
    have hprime := Nat.minFac_prime h1
    have hn' : n = a.minFac * (Function.minimalPeriod f x * b) := by
      rw [Nat.mul_left_comm, ← hb, ha]
    refine absurd ?_ (hq a.minFac hprime ⟨_, hn'⟩)
    rw [Nat.div_eq_of_eq_mul_right hprime.pos hn']
    exact (Function.isPeriodicPt_minimalPeriod f x).mul_const b

/-- Two powers of `x` are as far apart as two others with the same distance. -/
theorem shifts_eq_iff (hg : g.getLsbD 0 = true) (k n : Nat) (r : BitVec w) :
    (shift g)^[n] ((shift g)^[k] r) = (shift g)^[k] r ↔ (shift g)^[n] r = r := by
  rw [← Function.iterate_add_apply, Nat.add_comm, Function.iterate_add_apply]
  exact (shifts_injective hg k).eq_iff

/-! ## Two errors -/

/-- A difference of the registers goes through the shifts of the message. -/
theorem feeds_xor (hw : 0 < w) (r r' : BitVec w) (bs : List Bool) :
    feeds g r bs ^^^ feeds g r' bs = (shift g)^[bs.length] (r ^^^ r') := by
  induction bs generalizing r r' with
  | nil => rfl
  | cons b bs ih =>
    have hb : (r ^^^ top b) ^^^ (r' ^^^ top b) = r ^^^ r' := by
      rw [BitVec.xor_assoc, BitVec.xor_comm r', ← BitVec.xor_assoc (top b), BitVec.xor_self,
        BitVec.zero_xor]
    rw [feeds_cons, feeds_cons, ih, feed_eq hw, feed_eq hw, ← shift_xor, hb]
    rfl

/-- The bit that enters at the top is a power of `x`. -/
theorem top_eq : (top true : BitVec w) = (shift g)^[w - 1] 1 := by
  rw [shifts_of_clear]
  · rfl
  · intro i hi
    rw [BitVec.getMsbD_eq_getLsbD]
    simp
    omega

/-- A flipped bit, against a register that may differ already. -/
theorem feed_not_xor (hw : 0 < w) (r r' : BitVec w) (b : Bool) :
    feed g r b ^^^ feed g r' (!b) = shift g (r ^^^ r') ^^^ shift g (top true) := by
  rw [feed_eq hw, feed_eq hw, ← shift_xor, ← shift_xor]
  congr 1
  cases b
  · simp [top, BitVec.xor_assoc]
  · simp only [top, Bool.not_true, if_true, Bool.false_eq_true, if_false]
    ac_rfl

/-- **Two errors**: two messages that differ in two bits leave the same register exactly if the distance
of the bits is one of the periods of the generator. -/
theorem feeds_two_iff (hw : 0 < w) (hg : g.getLsbD 0 = true) (r : BitVec w)
    (pre mid post : List Bool) (x y : Bool) :
    feeds g r (pre ++ x :: (mid ++ y :: post)) = feeds g r (pre ++ (!x) :: (mid ++ (!y) :: post)) ↔
      Function.minimalPeriod (shift g) 1 ∣ mid.length + 1 := by
  have htop : shift g (top true : BitVec w) = (shift g)^[w] 1 := by
    rw [top_eq (g := g), ← Function.iterate_succ_apply' (shift g), Nat.succ_eq_add_one,
      Nat.sub_add_cancel hw]
  simp only [feeds_append, feeds_cons]
  rw [(feeds_injective hw hg post).eq_iff, ← BitVec.xor_eq_zero_iff, feed_not_xor hw, feeds_xor hw,
    feed_not_xor hw, BitVec.xor_self, shift_zero, BitVec.zero_xor,
    ← Function.iterate_succ_apply' (shift g),
    BitVec.xor_eq_zero_iff, htop, shifts_eq_iff hg]
  exact Function.isPeriodicPt_iff_minimalPeriod_dvd

/-- Two messages cut at the first bit in which they differ. -/
theorem split_at_diff {xs ys : List Bool} (hlen : xs.length = ys.length) {i : Nat}
    (hi : xs[i]? ≠ ys[i]?) (hpre : ∀ k < i, xs[k]? = ys[k]?) :
    ∃ pre x xs' ys', xs = pre ++ x :: xs' ∧ ys = pre ++ (!x) :: ys' ∧ pre.length = i := by
  have hx : i < xs.length := by
    by_contra h
    rw [List.getElem?_eq_none (by omega), List.getElem?_eq_none (by omega)] at hi
    exact hi rfl
  have hy : i < ys.length := by omega
  have htake : ys.take i = xs.take i := by
    apply List.ext_getElem?
    intro k
    by_cases hk : k < i
    · rw [List.getElem?_take_of_lt hk, List.getElem?_take_of_lt hk, hpre k hk]
    · rw [List.getElem?_take_eq_none (by omega), List.getElem?_take_eq_none (by omega)]
  have hnot : ys[i] = !xs[i] := by
    rw [List.getElem?_eq_getElem hx, List.getElem?_eq_getElem hy] at hi
    cases hb : xs[i] <;> cases hc : ys[i] <;> simp_all
  refine ⟨xs.take i, xs[i], xs.drop (i + 1), ys.drop (i + 1), ?_, ?_, ?_⟩
  · rw [List.cons_getElem_drop_succ, List.take_append_drop]
  · rw [← hnot, ← htake, List.cons_getElem_drop_succ, List.take_append_drop]
  · rw [List.length_take]
    omega

/-- The same for messages that differ in the bits `i` and `j`. -/
theorem feeds_eq_iff_two (hw : 0 < w) (hg : g.getLsbD 0 = true) (r : BitVec w) {xs ys : List Bool}
    (hlen : xs.length = ys.length) {i j : Nat} (hij : i < j)
    (hdiff : ∀ k, xs[k]? ≠ ys[k]? ↔ k = i ∨ k = j) :
    feeds g r xs = feeds g r ys ↔ Function.minimalPeriod (shift g) 1 ∣ j - i := by
  have hsame : ∀ k, k ≠ i → k ≠ j → xs[k]? = ys[k]? := fun k hi hj => by
    by_contra h
    rcases (hdiff k).mp h with h | h
    · exact hi h
    · exact hj h
  obtain ⟨pre, x, xs', ys', rfl, rfl, rfl⟩ := split_at_diff hlen ((hdiff i).mpr (.inl rfl))
    fun k hk => hsame k (by omega) (by omega)
  have hrest : ∀ k, (xs'[k]? ≠ ys'[k]? ↔ k = j - pre.length - 1) := fun k => by
    have h := hdiff (pre.length + (k + 1))
    rw [List.getElem?_append_right (by omega), List.getElem?_append_right (by omega),
      Nat.add_sub_cancel_left, List.getElem?_cons_succ, List.getElem?_cons_succ] at h
    rw [h]
    omega
  obtain ⟨mid, y, post, post', rfl, rfl, hmid⟩ := split_at_diff
    (by simpa using hlen) ((hrest _).mpr rfl) fun k hk => by
      by_contra h
      have := (hrest k).mp h
      omega
  obtain rfl : post = post' := by
    apply List.ext_getElem?
    intro k
    by_contra h
    have hk := (hrest (mid.length + (k + 1))).mp (by
      rwa [List.getElem?_append_right (by omega), List.getElem?_append_right (by omega),
        Nat.add_sub_cancel_left, List.getElem?_cons_succ, List.getElem?_cons_succ])
    omega
  rw [feeds_two_iff hw hg, hmid, show j - pre.length - 1 + 1 = j - pre.length by omega]

end Crc

end Lib
