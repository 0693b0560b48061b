import Mathlib.Logic.Function.Basic
import Mathlib.Data.List.Basic

/-!
# Sequences of stores

A store is a location `κ` and a value `β`; a list of stores runs on a memory `κ → β` from left to
right. What it leaves at a location is the value of the last store there (`run_eq_last`), and the
old value where there is none (`run_frame`). A location that is stored last publishes what was stored
before (`run_published`). `block f ws` is the sequence of stores of a copy loop:
word `i` goes to location `f i`.
-/

namespace Lib

namespace Stores

variable {κ β : Type} [DecidableEq κ]

/-- The memory after the stores `st`, done in order. -/
def run (st : List (κ × β)) (m : κ → β) : κ → β :=
  st.foldl (fun m s => Function.update m s.1 s.2) m

/-- The value of the last of the stores `st` to location `k`. -/
def last : List (κ × β) → κ → Option β
  | [], _ => none
  | s :: st, k => (last st k).or (if s.1 = k then some s.2 else none)

@[simp] theorem run_cons (s : κ × β) (st : List (κ × β)) (m : κ → β) :
    run (s :: st) m = run st (Function.update m s.1 s.2) := rfl

@[simp] theorem last_nil (k : κ) : last ([] : List (κ × β)) k = none := rfl

theorem last_append (st st' : List (κ × β)) (k : κ) :
    last (st ++ st') k = (last st' k).or (last st k) := by
  induction st with
  | nil => simp
  | cons s st ih => simp [last, ih, Option.or_assoc]

/-- **The last store wins.** -/
theorem run_eq_last (st : List (κ × β)) (m : κ → β) (k : κ) :
    run st m k = (last st k).getD (m k) := by
  induction st generalizing m with
  | nil => rfl
  | cons s st ih =>
    rw [run_cons, ih, last]
    cases last st k with
    | some v => rfl
    | none =>
      by_cases h : s.1 = k
      · simp [h]
      · simp [h, Function.update_of_ne (Ne.symm h)]

theorem mem_of_last {st : List (κ × β)} {k : κ} {v : β} (h : last st k = some v) : (k, v) ∈ st := by
  induction st with
  | nil => cases h
  | cons s st ih =>
    rw [last, Option.or_eq_some_iff] at h
    rcases h with h | ⟨-, h⟩
    · exact List.mem_cons_of_mem _ (ih h)
    · by_cases hk : s.1 = k
      · rw [if_pos hk, Option.some.injEq] at h
        rw [← hk, ← h]
        exact List.mem_cons_self
      · rw [if_neg hk] at h
        cases h

theorem last_eq_none {st : List (κ × β)} {k : κ} (h : ∀ s ∈ st, s.1 ≠ k) : last st k = none := by
  induction st with
  | nil => rfl
  | cons s st ih =>
    rw [last, ih fun x hx => h x (List.mem_cons_of_mem _ hx), if_neg (h s List.mem_cons_self)]
    rfl

/-- A location to which no store goes keeps its value. -/
theorem run_frame {st : List (κ × β)} {k : κ} (h : ∀ s ∈ st, s.1 ≠ k) (m : κ → β) :
    run st m k = m k := by
  rw [run_eq_last, last_eq_none h, Option.getD_none]

/-- Stores whose locations no later store has are no longer seen when they are done again. -/
theorem run_again {st st' : List (κ × β)} (h : ∀ s ∈ st, ∀ s' ∈ st', s'.1 ≠ s.1) (m : κ → β) :
    run st (run st' (run st m)) = run st' (run st m) := by
  funext k
  rw [run_eq_last st]
  cases hl : last st k with
  | none => rfl
  | some v =>
    obtain ⟨s, hs, rfl⟩ : ∃ s ∈ st, s.1 = k := by
      by_contra hne
      push Not at hne
      rw [last_eq_none hne] at hl
      cases hl
    rw [run_frame (h s hs), run_eq_last st, hl]
    rfl

/-- A location to which only one value is stored, at least once. -/
theorem run_of_forall {st : List (κ × β)} {k : κ} {v : β} (hex : ∃ s ∈ st, s.1 = k)
    (hall : ∀ s ∈ st, s.1 = k → s.2 = v) (m : κ → β) : run st m k = v := by
  induction st generalizing m with
  | nil =>
    obtain ⟨s, hs, -⟩ := hex
    cases hs
  | cons s st ih =>
    rw [run_cons]
    have htail : ∀ x ∈ st, x.1 = k → x.2 = v := fun x hx => hall x (List.mem_cons_of_mem _ hx)
    by_cases hst : ∃ x ∈ st, x.1 = k
    · exact ih hst htail _
    · push Not at hst
      obtain ⟨x, hx, rfl⟩ := hex
      rcases List.mem_cons.mp hx with rfl | hx
      · rw [run_frame hst, Function.update_self, hall x List.mem_cons_self rfl]
      · exact absurd rfl (hst x hx)

theorem run_append (st st' : List (κ × β)) (m : κ → β) : run (st ++ st') m = run st' (run st m) :=
  List.foldl_append

/-! ### Publication

`st` does not store at `k`, and one last store of `v` at `k` publishes what `st` has left.
-/

section Publish

variable {st p : List (κ × β)} {k : κ} {v : β}

/-- Before the last store the word at `k` is the initial one. -/
theorem run_unpublished (h : ∀ s ∈ st, s.1 ≠ k) (hp : p <+: st ++ [(k, v)]) (hne : p ≠ st ++ [(k, v)]) :
    p <+: st ∧ ∀ m, run p m k = m k := by
  rw [List.prefix_concat_iff] at hp
  have hpre := hp.resolve_left hne
  exact ⟨hpre, fun m => run_frame (fun s hs => h s (hpre.subset hs)) m⟩

/-- A run at which the word at `k` has changed has done all stores. -/
theorem run_published (h : ∀ s ∈ st, s.1 ≠ k) (hp : p <+: st ++ [(k, v)]) {m : κ → β}
    (hm : run p m k ≠ m k) : run p m = Function.update (run st m) k v := by
  have heq : p = st ++ [(k, v)] := by
    by_contra hne
    exact hm ((run_unpublished h hp hne).2 m)
  rw [heq, run_append]
  rfl

end Publish

/-- The last store of a sequence of groups of stores is that of the last group with one. -/
theorem last_flatMap {α : Type} {g : α → List (κ × β)} {f : α → Option β} {xs : List α} {k : κ}
    (h : ∀ x ∈ xs, last (g x) k = f x) : last (xs.flatMap g) k = xs.reverse.findSome? f := by
  induction xs with
  | nil => rfl
  | cons x xs ih =>
    rw [List.flatMap_cons, last_append, ih fun y hy => h y (List.mem_cons_of_mem _ hy),
      h x List.mem_cons_self, List.reverse_cons, List.findSome?_append]
    simp

/-- The stores of a copy loop: word `i` of `ws` to location `f i`. -/
def block (f : Nat → κ) : List β → List (κ × β)
  | [] => []
  | w :: ws => (f 0, w) :: block (fun i => f (i + 1)) ws

section Block

omit [DecidableEq κ]

@[simp] theorem block_nil (f : Nat → κ) : block f ([] : List β) = [] := rfl

@[simp] theorem length_block (f : Nat → κ) (ws : List β) : (block f ws).length = ws.length := by
  induction ws generalizing f with
  | nil => rfl
  | cons w ws ih => simp [block, ih]

@[simp] theorem map_snd_block (f : Nat → κ) (ws : List β) : (block f ws).map Prod.snd = ws := by
  induction ws generalizing f with
  | nil => rfl
  | cons w ws ih => simp [block, ih]

theorem block_append (f : Nat → κ) (ws ws' : List β) :
    block f (ws ++ ws') = block f ws ++ block (fun i => f (ws.length + i)) ws' := by
  induction ws generalizing f with
  | nil => simp
  | cons w ws ih =>
    simp only [List.cons_append, block, ih, List.length_cons]
    simp only [Nat.add_right_comm]

theorem getElem?_block (f : Nat → κ) (ws : List β) (i : Nat) :
    (block f ws)[i]? = ws[i]?.map fun w => (f i, w) := by
  induction ws generalizing f i with
  | nil => rfl
  | cons w ws ih => cases i <;> simp [block, ih]

theorem mem_block {f : Nat → κ} {ws : List β} {s : κ × β} :
    s ∈ block f ws ↔ ∃ i w, ws[i]? = some w ∧ s = (f i, w) := by
  simp only [List.mem_iff_getElem?, getElem?_block, Option.map_eq_some_iff, @eq_comm _ s]

/-- A copy loop cut into chunks of `c` words. -/
theorem block_chunks (f : Nat → κ) (ws : List β) (c n : Nat) :
    ((List.range n).flatMap fun i => block (fun j => f (c * i + j)) ((ws.drop (c * i)).take c)) =
      block f (ws.take (c * n)) := by
  induction n with
  | zero => simp
  | succ n ih =>
    rw [List.range_succ, List.flatMap_append, ih, List.flatMap_singleton, Nat.mul_succ, List.take_add,
      block_append]
    congr 1
    by_cases h : c * n ≤ ws.length
    · simp only [List.length_take, Nat.min_eq_left h]
    · rw [List.drop_eq_nil_of_le (by omega), List.take_nil]; rfl

/-- A copy loop with its locations renamed. -/
theorem map_block {κ' : Type} (g : κ → κ') (f : Nat → κ) (ws : List β) :
    (block f ws).map (fun s => (g s.1, s.2)) = block (fun i => g (f i)) ws := by
  induction ws generalizing f with
  | nil => rfl
  | cons w ws ih => simp [block, ih]

theorem map_value_block {β' : Type} (g : β → β') (f : Nat → κ) (ws : List β) :
    (block f ws).map (fun s => (s.1, g s.2)) = block f (ws.map g) := by
  induction ws generalizing f with
  | nil => rfl
  | cons w ws ih => simp [block, ih]

end Block

/-- A copy loop whose locations differ leaves word `i` at location `f i`. -/
theorem last_block {f : Nat → κ} (hf : Function.Injective f) (ws : List β) (i : Nat) :
    last (block f ws) (f i) = ws[i]? := by
  induction ws generalizing f i with
  | nil => rfl
  | cons w ws ih =>
    have hf' : Function.Injective fun i => f (i + 1) := fun a b h => Nat.succ.inj (hf h)
    cases i with
    | zero =>
      rw [block, last, last_eq_none, Option.none_or, if_pos rfl, List.getElem?_cons_zero]
      intro s hs
      obtain ⟨j, v, -, rfl⟩ := mem_block.mp hs
      exact fun e => Nat.succ_ne_zero j (hf e)
    | succ i =>
      rw [block, last, ih hf', if_neg fun e => Nat.succ_ne_zero i (hf e).symm, Option.or_none,
        List.getElem?_cons_succ]

/-- A location outside a copy loop. -/
theorem last_block_none {f : Nat → κ} {ws : List β} {k : κ} (h : ∀ i < ws.length, f i ≠ k) :
    last (block f ws) k = none := by
  refine last_eq_none fun s hs => ?_
  obtain ⟨i, w, hi, rfl⟩ := mem_block.mp hs
  exact h i (List.getElem?_eq_some_iff.mp hi).1

/-- A copy loop to the locations `b`, `b + d`, `b + 2 * d`, … -/
theorem last_block_stride {d : Nat} (hd : 0 < d) (b : Nat) (ws : List β) (a : Nat) :
    last (block (fun i => b + d * i) ws) a =
      if b ≤ a ∧ (a - b) % d = 0 then ws[(a - b) / d]? else none := by
  split
  · rename_i h
    have hinj : Function.Injective fun i => b + d * i := fun i j hij =>
      Nat.eq_of_mul_eq_mul_left hd (Nat.add_left_cancel hij)
    have hl := last_block hinj ws ((a - b) / d)
    have hm := Nat.div_add_mod (a - b) d
    rwa [show b + d * ((a - b) / d) = a by omega] at hl
  · rename_i h
    refine last_block_none fun i _ he => h ?_
    subst he
    exact ⟨Nat.le_add_right _ _, by rw [Nat.add_sub_cancel_left, Nat.mul_mod_right]⟩

end Stores

end Lib
