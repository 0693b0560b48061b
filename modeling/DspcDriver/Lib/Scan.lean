import Mathlib.Data.List.TakeWhile

/-!
# Scanning a literal and a decimal integer

What `sscanf` does with a format of a literal and one `%d`, over any alphabet. `scanf` is the scanner,
`Reads` the grammar of what it takes for an integer: blanks, an optional minus sign and digits, with
no digit behind them. `scanf_eq_some` says that the scanner reads exactly the grammar.
-/

namespace Lib

/-- The characters that a scanner tells apart. -/
structure Alphabet (α : Type) where
  isSpace : α → Bool
  digit : α → Option Nat
  minus : α
  minus_not_space : isSpace minus = false
  minus_not_digit : digit minus = none
  digit_not_space : ∀ c, (digit c).isSome = true → isSpace c = false

namespace Alphabet

variable {α : Type} (A : Alphabet α)

def isDigit (c : α) : Bool := (A.digit c).isSome

/-- The number that digits stand for. -/
def value (ds : List α) : Nat := ds.foldl (fun n c => 10 * n + (A.digit c).getD 0) 0

/-- The number at the front of `s`, if `s` starts with a digit. -/
def scanDigits (s : List α) : Option Nat :=
  if (s.takeWhile A.isDigit).isEmpty then none else some (A.value (s.takeWhile A.isDigit))

/-- `s` starts with the digits `ds`, and with no more. -/
def Digits (ds s : List α) : Prop :=
  ds ≠ [] ∧ (∀ c ∈ ds, A.isDigit c = true) ∧
    ∃ rest, s = ds ++ rest ∧ ∀ c, rest.head? = some c → A.isDigit c = false

/-- `s` starts with the integer `n`. -/
def Reads (s : List α) (n : Int) : Prop :=
  ∃ ws s', s = ws ++ s' ∧ (∀ c ∈ ws, A.isSpace c = true) ∧
    ((∃ ds, A.Digits ds s' ∧ n = A.value ds) ∨
      ∃ s'' ds, s' = A.minus :: s'' ∧ A.Digits ds s'' ∧ n = -A.value ds)

variable {A} {s ds : List α} {n : Int}

theorem takeWhile_of_digits (h : A.Digits ds s) : s.takeWhile A.isDigit = ds := by
  obtain ⟨-, hd, rest, rfl, hr⟩ := h
  rw [List.takeWhile_append_of_pos hd]
  cases rest with
  | nil => simp
  | cons c rest => simp [hr c rfl]

theorem digits_takeWhile (h : s.takeWhile A.isDigit ≠ []) :
    A.Digits (s.takeWhile A.isDigit) s := by
  refine ⟨h, fun c hc => List.mem_takeWhile_imp hc, s.dropWhile A.isDigit,
    List.takeWhile_append_dropWhile.symm, fun c hc => ?_⟩
  have hh := List.head?_dropWhile_not A.isDigit s
  rw [hc] at hh
  simpa using hh

/-- The digits that are read. -/
theorem scanDigits_eq_some {m : Nat} :
    A.scanDigits s = some m ↔ ∃ ds, A.Digits ds s ∧ m = A.value ds := by
  unfold scanDigits
  split
  · rename_i hnil
    refine iff_of_false (by simp) ?_
    rintro ⟨ds, hd, -⟩
    rw [takeWhile_of_digits hd] at hnil
    exact hd.1 (List.isEmpty_iff.mp hnil)
  · rename_i hne
    constructor
    · intro h
      cases h
      exact ⟨_, digits_takeWhile fun h => hne (List.isEmpty_iff.mpr h), rfl⟩
    · rintro ⟨ds, hd, rfl⟩
      rw [takeWhile_of_digits hd]

/-- A number starts with a digit, so with no blank and no sign. -/
theorem Digits.cons (h : A.Digits ds s) :
    ∃ c s', s = c :: s' ∧ A.isSpace c = false ∧ c ≠ A.minus := by
  obtain ⟨hne, hd, rest, rfl, -⟩ := h
  obtain ⟨c, ds, rfl⟩ := List.exists_cons_of_ne_nil hne
  have hc := hd c List.mem_cons_self
  refine ⟨c, ds ++ rest, rfl, A.digit_not_space c hc, ?_⟩
  rintro rfl
  rw [isDigit, A.minus_not_digit] at hc
  cases hc

section Scanner

variable [DecidableEq α]

/-- `%d`. -/
def scanInt (A : Alphabet α) (s : List α) : Option Int :=
  match s.dropWhile A.isSpace with
  | [] => none
  | c :: s =>
    if c = A.minus then (A.scanDigits s).map fun n : Nat => -(n : Int)
    else (A.scanDigits (c :: s)).map fun n : Nat => (n : Int)

/-- A literal, then `%d`. -/
def scanf (A : Alphabet α) (lit s : List α) : Option Int :=
  if lit <+: s then A.scanInt (s.drop lit.length) else none

theorem scanInt_eq_some : A.scanInt s = some n ↔ A.Reads s n := by
  constructor
  · intro h
    have hsplit : s = s.takeWhile A.isSpace ++ s.dropWhile A.isSpace :=
      List.takeWhile_append_dropWhile.symm
    refine ⟨s.takeWhile A.isSpace, s.dropWhile A.isSpace, hsplit,
      fun c hc => List.mem_takeWhile_imp hc, ?_⟩
    unfold scanInt at h
    split at h
    · cases h
    · rename_i c s' hd
      split at h
      · rename_i hc
        obtain ⟨m, hm, rfl⟩ := Option.map_eq_some_iff.mp h
        obtain ⟨ds, hds, rfl⟩ := scanDigits_eq_some.mp hm
        exact .inr ⟨s', ds, by rw [hd, hc], hds, rfl⟩
      · obtain ⟨m, hm, rfl⟩ := Option.map_eq_some_iff.mp h
        obtain ⟨ds, hds, rfl⟩ := scanDigits_eq_some.mp hm
        exact .inl ⟨ds, by rwa [hd], rfl⟩
  · rintro ⟨ws, s', rfl, hws, ⟨ds, hds, rfl⟩ | ⟨s'', ds, rfl, hds, rfl⟩⟩
    · obtain ⟨c, s', rfl, hsp, hm⟩ := hds.cons
      unfold scanInt
      rw [List.dropWhile_append_of_pos hws, List.dropWhile_cons_of_neg (by simp [hsp])]
      simp only [if_neg hm, scanDigits_eq_some.mpr ⟨ds, hds, rfl⟩, Option.map_some]
    · unfold scanInt
      rw [List.dropWhile_append_of_pos hws,
        List.dropWhile_cons_of_neg (by simp [A.minus_not_space])]
      simp only [if_true, scanDigits_eq_some.mpr ⟨ds, hds, rfl⟩, Option.map_some]

/-- **The scanner reads its grammar.** -/
theorem scanf_eq_some {lit : List α} :
    A.scanf lit s = some n ↔ ∃ s', s = lit ++ s' ∧ A.Reads s' n := by
  unfold scanf
  split
  · rename_i h
    obtain ⟨s', rfl⟩ := h
    rw [List.drop_left, scanInt_eq_some]
    constructor
    · intro h
      exact ⟨s', rfl, h⟩
    · rintro ⟨s'', he, h⟩
      rwa [List.append_cancel_left he]
  · rename_i h
    refine iff_of_false (by simp) ?_
    rintro ⟨s', rfl, -⟩
    exact h (List.prefix_append _ _)

end Scanner

end Alphabet

end Lib
