import DspcDriver.Regs

/-!
# `common.c`: big-endian words and the polling loops

* `byteTo32bits` reads a word from a pointer into a byte array. A pointer is the list of the bytes
  from it to the end of the readable memory, so a read past the end is `none`.
* The three polling functions are one loop with three tests. `PollVars` are its local variables and
  `PollVars.poll` is its body, so that the same body also runs step by step between the steps of
  other parties (`Link.Transfer`). `pollExit` runs the whole loop against the values that the
  successive reads yield.

The loop decides its result from `loopCount`, which the matching poll has already incremented:
`pollExit_hit` and `pollExit_miss` say what the loop leaves, `retVal_zero_iff` what the caller sees.
-/

namespace Dspc

/-! ## `byteTo32bits` -/

/-- `byteTo32bits(pDspCode)`; `none` if one of the four bytes is past the end. -/
def byteTo32bits : List Byte → Option Word
  | b :: b₁ :: b₂ :: b₃ :: _ =>
    some ([b₁, b₂, b₃].foldl (fun temp b => (temp <<< 8) ||| b.setWidth 32) (b.setWidth 32))
  | _ => none

/-- The four bytes of a word, most significant first. -/
def wordBytes (w : Word) : List Byte :=
  [w.extractLsb' 24 8, w.extractLsb' 16 8, w.extractLsb' 8 8, w.extractLsb' 0 8]

@[simp] theorem length_wordBytes (w : Word) : (wordBytes w).length = 4 := rfl

theorem byteTo32bits_wordBytes (w : Word) (rest : List Byte) :
    byteTo32bits (wordBytes w ++ rest) = some w := by
  simp only [wordBytes, byteTo32bits, List.cons_append, List.nil_append, List.foldl_cons,
    List.foldl_nil, Option.some.injEq]
  ext i hi
  simp only [← BitVec.getLsbD_eq_getElem hi, BitVec.getLsbD_or, BitVec.getLsbD_shiftLeft,
    BitVec.getLsbD_setWidth, BitVec.getLsbD_extractLsb']
  rcases (by omega : i < 8 ∨ (8 ≤ i ∧ i < 16) ∨ (16 ≤ i ∧ i < 24) ∨ 24 ≤ i) with h | h | h | h
  · simp [h, hi]
  · simp [show ¬ i < 8 by omega, show i - 8 < 8 by omega, show 8 + (i - 8) = i by omega, hi,
      show i - 8 < 32 by omega]
  · simp [show ¬ i < 8 by omega, show ¬ i - 8 < 8 by omega, show i - 8 - 8 < 8 by omega,
      show 16 + (i - 8 - 8) = i by omega, hi, show i - 8 < 32 by omega, show i - 8 - 8 < 32 by omega]
  · simp [show ¬ i < 8 by omega, show ¬ i - 8 < 8 by omega, show ¬ i - 8 - 8 < 8 by omega, hi,
      show 24 + (i - 8 - 8 - 8) = i by omega, show i - 8 < 32 by omega, show i - 8 - 8 < 32 by omega,
      show i - 8 - 8 - 8 < 8 by omega, show i - 8 - 8 - 8 < 32 by omega]

/-! ## The polling loops -/

/-- The local variables `loopCount` and `stopPoll`. -/
structure PollVars where
  loopCount : Word
  stopPoll : Bool
  deriving DecidableEq

namespace PollVars

def start : PollVars := ⟨0, false⟩

/-- The loop condition `(loopCount < maxPollCount) && (stopPoll == 0)`. -/
def goes (maxPollCount : Word) (v : PollVars) : Bool :=
  decide (v.loopCount < maxPollCount) && !v.stopPoll

/-- One pass of the loop, whose read satisfies the test if `hit`. -/
def poll (hit : Bool) (v : PollVars) : PollVars :=
  { loopCount := v.loopCount + 1, stopPoll := if hit then true else v.stopPoll }

/-- The value returned after the loop. -/
def retVal (maxPollCount : Word) (v : PollVars) : Int :=
  if v.loopCount < maxPollCount then 0 else -1

end PollVars

/-- At most `fuel` passes of the loop; `hit n`: the `n`-th read satisfies the test. -/
def pollLoop (maxPollCount : Word) (hit : Nat → Bool) : Nat → PollVars → PollVars
  | 0, v => v
  | fuel + 1, v =>
    if v.goes maxPollCount then pollLoop maxPollCount hit fuel (v.poll (hit v.loopCount.toNat))
    else v

/-- The local variables after the loop. -/
def pollExit (maxPollCount : Word) (hit : Nat → Bool) : PollVars :=
  pollLoop maxPollCount hit maxPollCount.toNat .start

/-- `pollEqualValue`; `reads n` is the value of the `n`-th read of `*pAddress`. -/
def pollEqualValue (reads : Nat → Word) (pollVal maxPollCount : Word) : Int :=
  (pollExit maxPollCount fun n => reads n == pollVal).retVal maxPollCount

def pollValue (reads : Nat → Word) (pollVal maxPollCount : Word) : Int :=
  (pollExit maxPollCount fun n => reads n &&& pollVal != 0).retVal maxPollCount

def pollCompareValue (pReads qReads : Nat → Word) (maxPollCount : Word) : Int :=
  (pollExit maxPollCount fun n => qReads n == pReads n).retVal maxPollCount

variable {maxPollCount : Word} {hit : Nat → Bool}

/-- The result is decided from `loopCount` alone. -/
theorem retVal_eq_zero {v : PollVars} :
    v.retVal maxPollCount = 0 ↔ v.loopCount.toNat < maxPollCount.toNat := by
  unfold PollVars.retVal
  split
  · rename_i h; exact iff_of_true rfl (BitVec.lt_def.mp h)
  · rename_i h; exact iff_of_false (by decide) fun h' => h (BitVec.lt_def.mpr h')

theorem pollLoop_stop {v : PollVars} (h : v.goes maxPollCount = false) (fuel : Nat) :
    pollLoop maxPollCount hit fuel v = v := by
  cases fuel <;> simp [pollLoop, h]

theorem goes_iff {v : PollVars} :
    v.goes maxPollCount = true ↔ v.loopCount.toNat < maxPollCount.toNat ∧ v.stopPoll = false := by
  simp [PollVars.goes, BitVec.lt_def]

/-- `loopCount++` does not wrap below a bound that is a word. -/
theorem toNat_succ_of_lt {w m : Word} (h : w.toNat < m.toNat) : (w + 1).toNat = w.toNat + 1 := by
  have := m.isLt
  rw [BitVec.toNat_add, show (1 : Word).toNat = 1 from rfl, Nat.mod_eq_of_lt (by omega)]

/-- The loop from `loopCount` on stops at the first hit, one past it. -/
theorem pollLoop_hit {fuel n : Nat} {v : PollVars} (hv : v.stopPoll = false)
    (hf : v.loopCount.toNat + fuel = maxPollCount.toNat) (hn : v.loopCount.toNat ≤ n)
    (hlt : n < maxPollCount.toNat) (hh : hit n = true)
    (hmiss : ∀ i, v.loopCount.toNat ≤ i → i < n → hit i = false) :
    pollLoop maxPollCount hit fuel v = ⟨BitVec.ofNat 32 (n + 1), true⟩ := by
  induction fuel generalizing v with
  | zero => omega
  | succ fuel ih =>
    have hc := toNat_succ_of_lt (w := v.loopCount) (m := maxPollCount) (by omega)
    rw [pollLoop, if_pos (goes_iff.mpr ⟨by omega, hv⟩)]
    rcases Nat.eq_or_lt_of_le hn with rfl | hn
    · rw [hh, pollLoop_stop (by simp [PollVars.goes, PollVars.poll])]
      simp only [PollVars.poll, if_true, PollVars.mk.injEq, and_true]
      rw [← hc, BitVec.ofNat_toNat, BitVec.setWidth_eq]
    · rw [hmiss _ (Nat.le_refl _) hn]
      exact ih (by simpa [PollVars.poll] using hv) (by simp only [PollVars.poll, hc]; omega)
        (by simp only [PollVars.poll, hc]; omega)
        (fun i h1 h2 => hmiss i (by simp only [PollVars.poll, hc] at h1; omega) h2)

/-- Without a hit the loop runs to the bound. -/
theorem pollLoop_miss {fuel : Nat} {v : PollVars} (hv : v.stopPoll = false)
    (hf : v.loopCount.toNat + fuel = maxPollCount.toNat)
    (hmiss : ∀ i, v.loopCount.toNat ≤ i → i < maxPollCount.toNat → hit i = false) :
    pollLoop maxPollCount hit fuel v = ⟨maxPollCount, false⟩ := by
  induction fuel generalizing v with
  | zero =>
    rcases v with ⟨c, s⟩
    obtain rfl : c = maxPollCount := BitVec.eq_of_toNat_eq (by simpa using hf)
    simpa [pollLoop] using hv
  | succ fuel ih =>
    have hc := toNat_succ_of_lt (w := v.loopCount) (m := maxPollCount) (by omega)
    rw [pollLoop, if_pos (goes_iff.mpr ⟨by omega, hv⟩), hmiss _ (Nat.le_refl _) (by omega)]
    exact ih (by simpa [PollVars.poll] using hv) (by simp only [PollVars.poll, hc]; omega)
      (fun i h1 h2 => hmiss i (by simp only [PollVars.poll, hc] at h1; omega) h2)

theorem pollExit_hit {n : Nat} (hlt : n < maxPollCount.toNat) (hh : hit n = true)
    (hmiss : ∀ i < n, hit i = false) :
    pollExit maxPollCount hit = ⟨BitVec.ofNat 32 (n + 1), true⟩ :=
  pollLoop_hit rfl (Nat.zero_add _) (Nat.zero_le _) hlt hh fun i _ h => hmiss i h

theorem pollExit_miss (hmiss : ∀ i < maxPollCount.toNat, hit i = false) :
    pollExit maxPollCount hit = ⟨maxPollCount, false⟩ :=
  pollLoop_miss rfl (Nat.zero_add _) fun i _ h => hmiss i h

/-- Among the polls allowed there is a first that satisfies the test, or none does. -/
theorem firstHit_or_miss (n : Nat) (hit : Nat → Bool) :
    (∃ k < n, hit k = true ∧ ∀ i < k, hit i = false) ∨ ∀ i < n, hit i = false := by
  by_cases h : ∃ k, k < n ∧ hit k = true
  · obtain ⟨hlt, hh⟩ := Nat.find_spec h
    refine .inl ⟨Nat.find h, hlt, hh, fun i hi => ?_⟩
    have := Nat.find_min h hi
    rw [not_and] at this
    simpa using this (by omega)
  · refine .inr fun i hi => ?_
    by_contra hne
    exact h ⟨i, hi, by simpa using hne⟩

/-- **The result of a polling loop**: `0` iff a poll before the last allowed one satisfies the
test. A first match in the last poll leaves `loopCount` at the bound and is reported as a
time-out. -/
theorem retVal_zero_iff :
    (pollExit maxPollCount hit).retVal maxPollCount = 0 ↔
      ∃ n, n + 1 < maxPollCount.toNat ∧ hit n = true := by
  obtain ⟨k, hlt, hh, hmin⟩ | hmiss := firstHit_or_miss maxPollCount.toNat hit
  · have hm := maxPollCount.isLt
    rw [retVal_eq_zero, pollExit_hit hlt hh hmin, BitVec.toNat_ofNat, Nat.mod_eq_of_lt (by omega)]
    constructor
    · intro hlt'
      exact ⟨_, hlt', hh⟩
    · rintro ⟨n, hn, hn'⟩
      have : k ≤ n := by
        by_contra hlt'
        rw [hmin n (by omega)] at hn'
        cases hn'
      omega
  · rw [retVal_eq_zero, pollExit_miss hmiss]
    refine iff_of_false (Nat.lt_irrefl _) ?_
    rintro ⟨n, hn, hn'⟩
    rw [hmiss n (by omega)] at hn'
    cases hn'

/-- `pollValue` returns 0 iff one of the reads before the last allowed one has a bit of
`pollVal`. -/
theorem pollValue_zero_iff {reads : Nat → Word} {pollVal : Word} :
    pollValue reads pollVal maxPollCount = 0 ↔
      ∃ n, n + 1 < maxPollCount.toNat ∧ reads n &&& pollVal ≠ 0 := by
  simp [pollValue, retVal_zero_iff]

theorem pollCompareValue_zero_iff {pReads qReads : Nat → Word} :
    pollCompareValue pReads qReads maxPollCount = 0 ↔
      ∃ n, n + 1 < maxPollCount.toNat ∧ qReads n = pReads n := by
  simp [pollCompareValue, retVal_zero_iff]

end Dspc
