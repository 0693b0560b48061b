import DspcDriver.Common

/-!
# What a polling loop reports

The polls that the loop of `pollEqualValue`, `pollValue` and `pollCompareValue` makes, beside the
value it returns. The polls are the reads up to the first that satisfies the test, and never more
than `maxPollCount` (`polls_eq`). The value agrees with them but in one case: a first match in the
last poll allowed is reported as a time-out (`polls_report_iff`).
-/

namespace Dspc

/-- The polls of `fuel` passes of the loop, by their number. -/
def pollsFrom (maxPollCount : Word) (hit : Nat → Bool) : Nat → PollVars → List Nat
  | 0, _ => []
  | fuel + 1, v =>
    if v.goes maxPollCount then
      v.loopCount.toNat :: pollsFrom maxPollCount hit fuel (v.poll (hit v.loopCount.toNat))
    else []

/-- The polls of a call. -/
def polls (maxPollCount : Word) (hit : Nat → Bool) : List Nat :=
  pollsFrom maxPollCount hit maxPollCount.toNat .start

/-- A call that returns `retVal` reports what it observed: its polls are at most `maxPollCount` and
stop at the first that satisfies the test, and it returns 0 iff there is one. -/
structure Reports (maxPollCount : Word) (hit : Nat → Bool) (retVal : Int) : Prop where
  bounded : (polls maxPollCount hit).length ≤ maxPollCount.toNat
  stops : (∃ n < maxPollCount.toNat, hit n = true ∧ (∀ i < n, hit i = false) ∧
      polls maxPollCount hit = List.range (n + 1)) ∨
    ((∀ i < maxPollCount.toNat, hit i = false) ∧
      polls maxPollCount hit = List.range maxPollCount.toNat)
  zero : retVal = 0 ↔ ∃ n < maxPollCount.toNat, hit n = true
  timeOut : retVal = -1 → ∀ n < maxPollCount.toNat, hit n = false

/-- The first poll that satisfies the test is the last one allowed. -/
def LastAllowed (maxPollCount : Word) (hit : Nat → Bool) : Prop :=
  ∃ n, n + 1 = maxPollCount.toNat ∧ hit n = true ∧ ∀ i < n, hit i = false

variable {maxPollCount : Word} {hit : Nat → Bool}

/-- The polls count up with `loopCount`. -/
theorem pollsFrom_eq {fuel : Nat} {v : PollVars} (hf : v.loopCount.toNat + fuel ≤ maxPollCount.toNat) :
    ∃ k, pollsFrom maxPollCount hit fuel v = List.range' v.loopCount.toNat k ∧
      (pollLoop maxPollCount hit fuel v).loopCount.toNat = v.loopCount.toNat + k := by
  induction fuel generalizing v with
  | zero => exact ⟨0, rfl, rfl⟩
  | succ fuel ih =>
    rw [pollsFrom, pollLoop]
    by_cases hg : v.goes maxPollCount = true
    · rw [if_pos hg, if_pos hg]
      have hc : (v.poll (hit v.loopCount.toNat)).loopCount.toNat = v.loopCount.toNat + 1 :=
        toNat_succ_of_lt (goes_iff.mp hg).1
      obtain ⟨k, hk, hl⟩ := ih (v := v.poll (hit v.loopCount.toNat)) (by omega)
      refine ⟨k + 1, ?_, ?_⟩
      · rw [hk, hc, List.range'_succ]
      · rw [hl, hc]
        omega
    · rw [if_neg hg, if_neg hg]
      exact ⟨0, rfl, rfl⟩

theorem polls_eq_range :
    polls maxPollCount hit = List.range (pollExit maxPollCount hit).loopCount.toNat := by
  obtain ⟨k, hk, hl⟩ := @pollsFrom_eq maxPollCount hit maxPollCount.toNat .start
    (Nat.le_of_eq (Nat.zero_add _))
  rw [polls, hk, pollExit, hl, List.range_eq_range', show PollVars.start.loopCount.toNat = 0 from rfl,
    Nat.zero_add]

/-- **The polls of a call**: up to the first that satisfies the test, or all that are allowed. -/
theorem polls_eq : (∃ n < maxPollCount.toNat, hit n = true ∧ (∀ i < n, hit i = false) ∧
      polls maxPollCount hit = List.range (n + 1)) ∨
    ((∀ i < maxPollCount.toNat, hit i = false) ∧
      polls maxPollCount hit = List.range maxPollCount.toNat) := by
  obtain ⟨n, hlt, hh, hmin⟩ | hmiss := firstHit_or_miss maxPollCount.toNat hit
  · have hm := maxPollCount.isLt
    refine .inl ⟨n, hlt, hh, hmin, ?_⟩
    rw [polls_eq_range, pollExit_hit hlt hh hmin, BitVec.toNat_ofNat, Nat.mod_eq_of_lt (by omega)]
  · refine .inr ⟨hmiss, ?_⟩
    rw [polls_eq_range, pollExit_miss hmiss]

theorem length_polls_le : (polls maxPollCount hit).length ≤ maxPollCount.toNat := by
  obtain ⟨n, hn, -, -, hp⟩ | ⟨-, hp⟩ := @polls_eq maxPollCount hit
  · rw [hp, List.length_range]
    omega
  · rw [hp, List.length_range]

/-- A call that is allowed a poll makes one. -/
theorem polls_ne_nil (h : maxPollCount ≠ 0) : polls maxPollCount hit ≠ [] := by
  have hpos : maxPollCount.toNat ≠ 0 := fun e => h (BitVec.eq_of_toNat_eq e)
  intro hnil
  obtain ⟨n, -, -, -, hp⟩ | ⟨-, hp⟩ := @polls_eq maxPollCount hit
  · rw [hnil] at hp
    cases hp.trans List.range_succ_eq_map
  · rw [hnil, eq_comm, List.range_eq_nil] at hp
    exact hpos hp

/-- **A polling loop reports what it observed** unless the first match is in the last poll
allowed. -/
theorem reports_iff :
    Reports maxPollCount hit ((pollExit maxPollCount hit).retVal maxPollCount) ↔
      ¬ LastAllowed maxPollCount hit := by
  constructor
  · rintro hr ⟨n, hn, hh, hmin⟩
    obtain ⟨i, hi, hhi⟩ := retVal_zero_iff.mp (hr.zero.mpr ⟨n, by omega, hh⟩)
    rw [hmin i (by omega)] at hhi
    cases hhi
  · intro hl
    have hzero : (pollExit maxPollCount hit).retVal maxPollCount = 0 ↔
        ∃ n < maxPollCount.toNat, hit n = true := by
      rw [retVal_zero_iff]
      constructor
      · rintro ⟨n, hn, hh⟩
        exact ⟨n, by omega, hh⟩
      · rintro ⟨n, hn, hh⟩
        obtain ⟨k, hk, hhk, hmin⟩ | hmiss := firstHit_or_miss maxPollCount.toNat hit
        · refine ⟨k, ?_, hhk⟩
          by_contra hlt
          exact hl ⟨k, by omega, hhk, hmin⟩
        · rw [hmiss n hn] at hh
          cases hh
    refine ⟨length_polls_le, polls_eq, hzero, fun hr n hn => ?_⟩
    by_contra hne
    rw [hzero.mpr ⟨n, hn, by simpa using hne⟩] at hr
    cases hr

/-- **The three polling functions report what they observed** exactly if the first poll that
satisfies the test is not the last one allowed. -/
theorem polls_report_iff (reads pReads qReads : Nat → Word) (pollVal maxPollCount : Word) :
    (Reports maxPollCount (fun n => reads n == pollVal) (pollEqualValue reads pollVal maxPollCount) ↔
      ¬ LastAllowed maxPollCount fun n => reads n == pollVal) ∧
    (Reports maxPollCount (fun n => reads n &&& pollVal != 0)
        (pollValue reads pollVal maxPollCount) ↔
      ¬ LastAllowed maxPollCount fun n => reads n &&& pollVal != 0) ∧
    (Reports maxPollCount (fun n => qReads n == pReads n)
        (pollCompareValue pReads qReads maxPollCount) ↔
      ¬ LastAllowed maxPollCount fun n => qReads n == pReads n) :=
  ⟨reports_iff, reports_iff, reports_iff⟩

/-- One poll is allowed and reads the value. -/
theorem onePoll_not_reports :
    ¬ Reports 1 (fun _ => (5 : Word) == 5) (pollEqualValue (fun _ => 5) 5 1) := by
  intro h
  have h0 : pollEqualValue (fun _ => 5) 5 1 = 0 := h.zero.mpr ⟨0, by decide, rfl⟩
  revert h0
  decide

end Dspc
