import Mathlib.Data.BitVec
import Mathlib.Data.List.GetD
import Mathlib.Logic.Function.Iterate

/-!
# Cyclic redundancy checks, bit by bit

A register of `w` bits divides a message by the generator `x^w + g`, most significant bit first.
`shift g` is one place of the division and `feed g r b` the register after the message bit `b`;
`crc g init` is the check of a message, with a complement at the end.

* A shift is linear in exclusive or (`shift_xor`) and, for a generator with a constant term,
  injective (`shift_injective`).
* Up to `w` bits can be added to the register at once, before the shifts (`feeds_eq_load`). Of it are
  cases the step of a table of `2^k` words (`feeds_symbol`), and that two messages that differ only
  within `w` consecutive bits leave different registers (`feeds_ne_of_burst`).
-/

namespace Lib

namespace Crc

variable {w : Nat} (g : BitVec w)

/-- One place of the division. -/
def shift (r : BitVec w) : BitVec w := if r.msb then (r <<< 1) ^^^ g else r <<< 1

/-- The register after the message bit `b`. -/
def feed (r : BitVec w) (b : Bool) : BitVec w :=
  if r.msb ^^ b then (r <<< 1) ^^^ g else r <<< 1

/-- The register after the message bits `bs`. -/
def feeds (r : BitVec w) (bs : List Bool) : BitVec w := bs.foldl (feed g) r

/-- The check of the message bits `bs`. -/
def crc (init : BitVec w) (bs : List Bool) : BitVec w := ~~~feeds g init bs

/-- The bits of a symbol, most significant first. -/
def msbBits {k : Nat} (c : BitVec k) : List Bool := (List.range k).map c.getMsbD

/-- The bit `b` at the top of a register. -/
def top (b : Bool) : BitVec w := if b then BitVec.twoPow w (w - 1) else 0

/-- The bits `bs` at the top of a register. -/
def load : List Bool → BitVec w
  | [] => 0
  | b :: bs => top b ^^^ (load bs >>> 1)

variable {g}

@[simp] theorem feeds_nil (r : BitVec w) : feeds g r [] = r := rfl

@[simp] theorem feeds_cons (r : BitVec w) (b : Bool) (bs : List Bool) :
    feeds g r (b :: bs) = feeds g (feed g r b) bs := rfl

theorem feeds_append (r : BitVec w) (bs bs' : List Bool) :
    feeds g r (bs ++ bs') = feeds g (feeds g r bs) bs' := List.foldl_append

@[simp] theorem length_msbBits {k : Nat} (c : BitVec k) : (msbBits c).length = k := by
  simp [msbBits]

/-! ## The shift -/

theorem shift_xor (a b : BitVec w) : shift g (a ^^^ b) = shift g a ^^^ shift g b := by
  have hs : (a ^^^ b) <<< 1 = a <<< 1 ^^^ b <<< 1 := BitVec.shiftLeft_xor_distrib a b 1
  unfold shift
  rw [BitVec.msb_xor, hs]
  cases a.msb <;> cases b.msb
  · rfl
  · simp only [Bool.false_bne, if_true, Bool.false_eq_true, if_false, BitVec.xor_assoc]
  · simp only [Bool.bne_false, if_true, Bool.false_eq_true, if_false]
    rw [BitVec.xor_assoc, BitVec.xor_comm (b <<< 1) g, ← BitVec.xor_assoc]
  · simp only [bne_self_eq_false, if_true, Bool.false_eq_true, if_false]
    rw [BitVec.xor_comm (b <<< 1) g, BitVec.xor_assoc, ← BitVec.xor_assoc g g, BitVec.xor_self,
      BitVec.zero_xor]

theorem shifts_xor (n : Nat) (a b : BitVec w) :
    (shift g)^[n] (a ^^^ b) = (shift g)^[n] a ^^^ (shift g)^[n] b := by
  induction n generalizing a b with
  | zero => rfl
  | succ n ih => rw [Function.iterate_succ_apply, shift_xor, ih]; rfl

/-- A clear top bit leaves the division alone. -/
theorem shift_of_msb {r : BitVec w} (h : r.msb = false) : shift g r = r <<< 1 := by
  rw [shift, h]
  rfl

/-- A generator with a constant term keeps the bit that leaves the register in the lowest place. -/
theorem shift_injective (hg : g.getLsbD 0 = true) : Function.Injective (shift g) := by
  have hbit : ∀ r : BitVec w, (shift g r).getLsbD 0 = r.msb := by
    intro r
    unfold shift
    cases r.msb <;> simp [hg]
  intro a b h
  have hm : a.msb = b.msb := by rw [← hbit a, ← hbit b, h]
  have hs : a <<< 1 = b <<< 1 := by
    unfold shift at h
    rw [hm] at h
    cases hb : b.msb <;> rw [hb] at h
    · exact h
    · exact (BitVec.xor_left_inj g).mp h
  apply BitVec.eq_of_getMsbD_eq
  intro i hi
  cases i with
  | zero => exact hm
  | succ i =>
    have hb := congrArg (fun r : BitVec w => r.getMsbD i) hs
    simpa [BitVec.getMsbD_shiftLeft, show i < w by omega, Nat.add_comm] using hb

theorem shifts_injective (hg : g.getLsbD 0 = true) (n : Nat) :
    Function.Injective (shift g)^[n] := (shift_injective hg).iterate n

/-- Clear top bits leave the division alone. -/
theorem shifts_of_clear {r : BitVec w} {n : Nat} (h : ∀ i < n, r.getMsbD i = false) :
    (shift g)^[n] r = r <<< n := by
  induction n with
  | zero => simp
  | succ n ih =>
    have hm : (r <<< n).msb = false := by
      rw [BitVec.msb, BitVec.getMsbD_shiftLeft, Nat.zero_add]
      exact h n (by omega)
    rw [Function.iterate_succ_apply', ih fun i hi => h i (by omega), shift_of_msb hm,
      BitVec.shiftLeft_add]

/-! ## Loading several bits -/

theorem getMsbD_top (b : Bool) {i : Nat} (hi : i < w) :
    (top b : BitVec w).getMsbD i = (decide (i = 0) && b) := by
  cases b
  · simp [top]
  · have hk : w - 1 = w - 1 - i ↔ i = 0 := by omega
    simp [top, BitVec.getMsbD_eq_getLsbD, BitVec.getLsbD_twoPow, hi, hk]
    omega

theorem feed_eq (hw : 0 < w) (r : BitVec w) (b : Bool) : feed g r b = shift g (r ^^^ top b) := by
  have hm : (top b : BitVec w).msb = b := by
    rw [BitVec.msb, getMsbD_top b hw]
    rfl
  have hs : (top b : BitVec w) <<< 1 = 0#w := by
    apply BitVec.eq_of_getMsbD_eq
    intro i hi
    rw [BitVec.getMsbD_shiftLeft, BitVec.getMsbD_zero]
    by_cases h : i + 1 < w
    · rw [getMsbD_top b h]
      rfl
    · exact BitVec.getMsbD_of_ge _ _ (by omega)
  unfold feed shift
  rw [BitVec.msb_xor, hm, BitVec.shiftLeft_xor_distrib, hs, BitVec.xor_zero]

/-- The loaded bits are in the order of the message. -/
theorem getMsbD_load (bs : List Bool) {i : Nat} (hi : i < w) :
    (load bs : BitVec w).getMsbD i = bs.getD i false := by
  induction bs generalizing i with
  | nil => simp [load]
  | cons b bs ih =>
    rw [load, BitVec.getMsbD_xor, getMsbD_top b hi, BitVec.getMsbD_ushiftRight]
    cases i with
    | zero => simp
    | succ i => simp [hi, ih (show i < w by omega)]

/-- A shift takes back the place that a load makes for one bit more. -/
theorem shift_load {bs : List Bool} (h : bs.length < w) :
    shift g (load bs >>> 1 : BitVec w) = load bs := by
  have hm : (load bs >>> 1 : BitVec w).msb = false := by
    rw [BitVec.msb, BitVec.getMsbD_ushiftRight]
    simp
  rw [shift_of_msb hm]
  apply BitVec.eq_of_getMsbD_eq
  intro i hi
  rw [BitVec.getMsbD_shiftLeft, BitVec.getMsbD_ushiftRight]
  by_cases hl : i + 1 < w
  · simp [hl]
  · rw [getMsbD_load bs hi, List.getD_eq_default _ _ (by omega)]
    simp [hl]

/-- **Adding the bits at once.** -/
theorem feeds_eq_load (r : BitVec w) {bs : List Bool} (h : bs.length ≤ w) :
    feeds g r bs = (shift g)^[bs.length] (r ^^^ load bs) := by
  induction bs generalizing r with
  | nil => simp [load]
  | cons b bs ih =>
    rw [List.length_cons] at h
    rw [feeds_cons, feed_eq (by omega), ih _ (by omega), List.length_cons,
      Function.iterate_succ_apply, load, ← BitVec.xor_assoc, shift_xor _ (load bs >>> 1),
      shift_load h]

theorem load_injective {bs bs' : List Bool} (hl : bs.length = bs'.length) (hw : bs.length ≤ w)
    (h : (load bs : BitVec w) = load bs') : bs = bs' := by
  apply List.ext_getElem hl
  intro i hi hi'
  have hb := congrArg (fun r : BitVec w => r.getMsbD i) h
  simpa only [getMsbD_load _ (show i < w by omega), List.getD_eq_getElem _ _ hi,
    List.getD_eq_getElem _ _ hi'] using hb

theorem getMsbD_load_msbBits {k : Nat} (c : BitVec k) {i : Nat} (hi : i < w) :
    (load (msbBits c) : BitVec w).getMsbD i = c.getMsbD i := by
  rw [getMsbD_load _ hi]
  by_cases h : i < k
  · rw [List.getD_eq_getElem _ _ (by simpa using h)]
    simp [msbBits]
  · rw [List.getD_eq_default _ _ (by simpa using h), BitVec.getMsbD_of_ge _ _ (by omega)]

/-- A symbol at the top of a register. -/
theorem load_msbBits {k : Nat} (hk : k ≤ w) (c : BitVec k) :
    (load (msbBits c) : BitVec w) = c.setWidth w <<< (w - k) := by
  apply BitVec.eq_of_getMsbD_eq
  intro i hi
  rw [getMsbD_load_msbBits c hi, BitVec.getMsbD_shiftLeft, BitVec.getMsbD_setWidth]
  rw [show i + (w - k) + k - w = i by omega]
  simp

/-- **The step of a table**: a symbol of `k` bits is one word, that of the top `k` bits of the
register with the symbol, and a move by `k` places. -/
theorem feeds_symbol {k : Nat} (hk : k ≤ w) (r : BitVec w) (c : BitVec k) :
    feeds g r (msbBits c) =
      (shift g)^[k] (load (msbBits ((r >>> (w - k)).setWidth k ^^^ c))) ^^^ (r <<< k) := by
  have htop : ∀ i < k, ((r >>> (w - k)).setWidth k).getMsbD i = r.getMsbD i := by
    intro i hi
    rw [BitVec.getMsbD_setWidth, BitVec.getMsbD_ushiftRight,
      show i + w - k - (w - k) = i by omega]
    simp [show k ≤ w by omega, show i + w - k < w by omega, show ¬ i + w - k < w - k by omega]
  have hsplit : r ^^^ load (msbBits c) = load (msbBits ((r >>> (w - k)).setWidth k ^^^ c)) ^^^
      (r ^^^ load (msbBits ((r >>> (w - k)).setWidth k))) := by
    apply BitVec.eq_of_getMsbD_eq
    intro i hi
    simp only [BitVec.getMsbD_xor, getMsbD_load_msbBits _ hi]
    cases r.getMsbD i <;> cases c.getMsbD i <;>
      cases ((r >>> (w - k)).setWidth k).getMsbD i <;> rfl
  have hclear : ∀ i < k, (r ^^^ load (msbBits ((r >>> (w - k)).setWidth k))).getMsbD i = false := by
    intro i hi
    rw [BitVec.getMsbD_xor, getMsbD_load_msbBits _ (by omega), htop i hi, Bool.xor_self]
  have hmove : (r ^^^ load (msbBits ((r >>> (w - k)).setWidth k))) <<< k = r <<< k := by
    apply BitVec.eq_of_getMsbD_eq
    intro i hi
    rw [BitVec.getMsbD_shiftLeft, BitVec.getMsbD_shiftLeft, BitVec.getMsbD_xor]
    by_cases h : i + k < w
    · rw [getMsbD_load_msbBits _ h, BitVec.getMsbD_of_ge (BitVec.setWidth k _) _ (by omega),
        Bool.xor_false]
    · rw [BitVec.getMsbD_of_ge _ _ (by omega), BitVec.getMsbD_of_ge _ _ (by omega)]; rfl
  rw [feeds_eq_load r (by simpa using hk), length_msbBits, hsplit, shifts_xor, shifts_of_clear hclear,
    hmove]

/-! ## Differences -/

theorem feed_injective (hw : 0 < w) (hg : g.getLsbD 0 = true) (b : Bool) :
    Function.Injective fun r => feed g r b := by
  intro r r' h
  simp only [feed_eq hw] at h
  exact (BitVec.xor_left_inj _).mp (shift_injective hg h)

/-- Registers that differ keep differing. -/
theorem feeds_injective (hw : 0 < w) (hg : g.getLsbD 0 = true) (bs : List Bool) :
    Function.Injective fun r => feeds g r bs := by
  induction bs with
  | nil => exact fun _ _ h => h
  | cons b bs ih => exact fun r r' h => feed_injective hw hg b (ih h)

/-- Messages of at most `w` bits leave different registers. -/
theorem feeds_ne_of_short (hg : g.getLsbD 0 = true) (r : BitVec w) {bs bs' : List Bool}
    (hl : bs.length = bs'.length) (hw : bs.length ≤ w) (hne : bs ≠ bs') :
    feeds g r bs ≠ feeds g r bs' := by
  intro h
  rw [feeds_eq_load r hw, feeds_eq_load r (by rwa [← hl]), ← hl] at h
  exact hne (load_injective hl hw ((BitVec.xor_right_inj r).mp (shifts_injective hg _ h)))

/-- **A burst is never cancelled**: two messages that differ, and only within `w` consecutive bits,
leave different registers. -/
theorem feeds_ne_of_burst (hw : 0 < w) (hg : g.getLsbD 0 = true) (r : BitVec w) {xs ys : List Bool}
    (hlen : xs.length = ys.length) (hne : xs ≠ ys) {s : Nat}
    (hburst : ∀ i, xs[i]? ≠ ys[i]? → s ≤ i ∧ i < s + w) : feeds g r xs ≠ feeds g r ys := by
  have hsame : ∀ i, i < s ∨ s + w ≤ i → xs[i]? = ys[i]? := by
    intro i hi
    by_contra h
    have := hburst i h
    omega
  have hpre : xs.take s = ys.take s := by
    apply List.ext_getElem?
    intro i
    by_cases h : i < s
    · rw [List.getElem?_take_of_lt h, List.getElem?_take_of_lt h, hsame i (.inl h)]
    · rw [List.getElem?_take_eq_none (by omega), List.getElem?_take_eq_none (by omega)]
  have hpost : (xs.drop s).drop w = (ys.drop s).drop w := by
    apply List.ext_getElem?
    intro i
    rw [List.drop_drop, List.drop_drop, List.getElem?_drop, List.getElem?_drop,
      hsame _ (.inr (by omega))]
  have hmid : (xs.drop s).take w ≠ (ys.drop s).take w := by
    intro h
    apply hne
    rw [← List.take_append_drop s xs, ← List.take_append_drop s ys, hpre,
      ← List.take_append_drop w (xs.drop s), ← List.take_append_drop w (ys.drop s), h, hpost]
  have hl : ((xs.drop s).take w).length = ((ys.drop s).take w).length := by
    simp [hlen]
  have hx : ((xs.drop s).take w).length ≤ w := by
    rw [List.length_take]
    exact Nat.min_le_left _ _
  rw [← List.take_append_drop s xs, ← List.take_append_drop s ys, hpre, feeds_append, feeds_append,
    ← List.take_append_drop w (xs.drop s), ← List.take_append_drop w (ys.drop s), hpost,
    feeds_append _ ((xs.drop s).take w), feeds_append _ ((ys.drop s).take w)]
  -- the registers are the same up to the burst, and a difference behind it stays
  exact fun h => feeds_ne_of_short hg _ hl hx hmid (feeds_injective hw hg _ h)

end Crc

end Lib
