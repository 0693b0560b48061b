import Mathlib.Logic.Function.Basic

/-!
# Computations that leave a trace

`Trace ε σ α`: a piece of sequential code that does the events `ε` one after the other and then
either goes on with a value or stops for a reason `σ`. What it did before it stopped stays in the
trace, so a statement about events covers runs that fail half-way.

A specification of a function is an equation `f x = ⟨events, .ok v⟩`; `mk_ok_bind` composes such
equations, and `bind_ok` takes one apart. `All` is a property of every event of a computation, with
its rule of sequencing. `Within f l` and `Emits f l` say what an observer `f` sees of a computation: no
more than the list `l`, in this order, and all of it.
-/

namespace Lib

/-- The events of a computation in order, and its value or the reason it stopped. -/
@[ext] structure Trace (ε σ α : Type) where
  events : List ε
  out : Except σ α

namespace Trace

variable {ε σ α β : Type}

instance : Monad (Trace ε σ) where
  pure a := ⟨[], .ok a⟩
  bind x f := match x.out with
    | .ok a => ⟨x.events ++ (f a).events, (f a).out⟩
    | .error e => ⟨x.events, .error e⟩

/-- Do one event. -/
def emit (e : ε) : Trace ε σ Unit := ⟨[e], .ok ()⟩

/-- Do the events `es` in order. -/
def emitAll (es : List ε) : Trace ε σ Unit := ⟨es, .ok ()⟩

/-- Stop for the reason `e`. -/
def stop (e : σ) : Trace ε σ α := ⟨[], .error e⟩

/-- The same computation with every event `e` replaced by the events `f e`. -/
def replay {ε' : Type} (f : ε' → List ε) (x : Trace ε' σ α) : Trace ε σ α :=
  ⟨x.events.flatMap f, x.out⟩

theorem pure_def (a : α) : (pure a : Trace ε σ α) = ⟨[], .ok a⟩ := rfl

@[simp] theorem mk_ok_bind (es : List ε) (a : α) (f : α → Trace ε σ β) :
    ((⟨es, .ok a⟩ : Trace ε σ α) >>= f) = ⟨es ++ (f a).events, (f a).out⟩ := rfl

@[simp] theorem mk_error_bind (es : List ε) (e : σ) (f : α → Trace ε σ β) :
    ((⟨es, .error e⟩ : Trace ε σ α) >>= f) = ⟨es, .error e⟩ := rfl

@[simp] theorem events_pure (a : α) : (pure a : Trace ε σ α).events = [] := rfl

instance : LawfulMonad (Trace ε σ) := LawfulMonad.mk' _
  (fun x => by rcases x with ⟨es, _ | a⟩ <;> simp [Functor.map])
  (fun a f => by simp [pure_def])
  (fun x f g => by
    rcases x with ⟨es, _ | a⟩
    · simp
    · rcases h : f a with ⟨es', _ | b⟩ <;> simp [h, bind])

/-- A part that ends with a value, followed by code that does not look at the value. -/
theorem bind_of_out {x : Trace ε σ α} {a : α} (h : x.out = .ok a) (f : α → Trace ε σ β) :
    x >>= f = ⟨x.events ++ (f a).events, (f a).out⟩ := by
  rcases x with ⟨es, _ | b⟩
  · cases h
  · cases h; rfl

/-- The value of a sequence that did not stop, and the run of each part. -/
theorem bind_ok {x : Trace ε σ α} {f : α → Trace ε σ β} {es : List ε} {b : β}
    (h : x >>= f = ⟨es, .ok b⟩) :
    ∃ es₁ a es₂, x = ⟨es₁, .ok a⟩ ∧ f a = ⟨es₂, .ok b⟩ ∧ es = es₁ ++ es₂ := by
  rcases x with ⟨es₁, _ | a⟩
  · simp at h
  · rcases hf : f a with ⟨es₂, o⟩
    simp only [mk_ok_bind, hf, mk.injEq] at h
    exact ⟨es₁, a, es₂, rfl, by rw [hf, h.2], h.1.symm⟩

/-! ## Invariants of the events -/

/-- Every event of `x` has `P`. -/
def All (P : ε → Prop) (x : Trace ε σ α) : Prop := ∀ e ∈ x.events, P e

section All

variable {P : ε → Prop}

theorem All.pure (a : α) : All P (Pure.pure a : Trace ε σ α) := fun _ h => by cases h

theorem All.stop (e : σ) : All P (stop e : Trace ε σ α) := fun _ h => by cases h

theorem All.emit {e : ε} (h : P e) : All P (emit e : Trace ε σ Unit) := fun e' he => by
  rw [List.mem_singleton.mp he]; exact h

/-- The rule of sequencing. -/
theorem All.bind {x : Trace ε σ α} {f : α → Trace ε σ β} (hx : All P x)
    (hf : ∀ a, x.out = .ok a → All P (f a)) : All P (x >>= f) := by
  rcases x with ⟨es, _ | a⟩
  · exact hx
  · intro e he
    rcases List.mem_append.mp he with he | he
    · exact hx e he
    · exact hf a rfl e he

theorem All.ite {c : Prop} [Decidable c] {x y : Trace ε σ α} (hx : c → All P x)
    (hy : ¬ c → All P y) : All P (if c then x else y) := by
  by_cases hc : c
  · rw [if_pos hc]
    exact hx hc
  · rw [if_neg hc]
    exact hy hc

end All

/-! ## What a computation stops for -/

/-- If `x` stops, `P` holds of the reason and of the events before it. -/
def Stops (P : σ → List ε → Prop) (x : Trace ε σ α) : Prop := ∀ e, x.out = .error e → P e x.events

section Stops

variable {P : σ → List ε → Prop}

theorem Stops.of_ok {x : Trace ε σ α} {a : α} (h : x.out = .ok a) : Stops P x := fun e he => by
  rw [h] at he; cases he

theorem Stops.stop {e : σ} (h : P e []) : Stops P (stop e : Trace ε σ α) := fun e' he => by
  cases he; exact h

/-- The rule of sequencing, for a `P` that more events before do not break. -/
theorem Stops.bind {x : Trace ε σ α} {f : α → Trace ε σ β}
    (hP : ∀ e es es', P e es → P e (es' ++ es)) (hx : Stops P x)
    (hf : ∀ a, x.out = .ok a → Stops P (f a)) : Stops P (x >>= f) := by
  rcases x with ⟨es, e | a⟩
  · intro e' he
    cases he
    exact hx e rfl
  · exact fun e he => hP _ _ _ (hf a rfl e he)

end Stops

/-! ## The first event of a kind -/

/-- The value of the first event that has one, and the events after it. -/
def firstSome {ρ : Type} (f : ε → Option ρ) : List ε → Option (ρ × List ε)
  | [] => none
  | e :: es =>
    match f e with
    | some r => some (r, es)
    | none => firstSome f es

section FirstSome

variable {ρ : Type} {f : ε → Option ρ}

theorem firstSome_append {es : List ε} (h : ∀ e ∈ es, f e = none) (es' : List ε) :
    firstSome f (es ++ es') = firstSome f es' := by
  induction es with
  | nil => rfl
  | cons e es ih =>
    rw [List.cons_append, firstSome, h e List.mem_cons_self]
    exact ih fun e' he => h e' (List.mem_cons_of_mem _ he)

end FirstSome

/-! ## What an observer sees -/

/-- What `f` sees of the events of `x` begins `l`. -/
def Within {φ : Type} (f : ε → Option φ) (l : List φ) (x : Trace ε σ α) : Prop :=
  x.events.filterMap f <+: l

/-- And it is `l`, if `x` does not stop. -/
structure Emits {φ : Type} (f : ε → Option φ) (l : List φ) (x : Trace ε σ α) : Prop where
  within : Within f l x
  all : ∀ a, x.out = .ok a → x.events.filterMap f = l

section Emits

variable {φ : Type} {f : ε → Option φ} {l l' : List φ}

theorem Emits.pure (a : α) : Emits f [] (Pure.pure a : Trace ε σ α) :=
  ⟨List.nil_prefix, fun _ _ => rfl⟩

theorem Emits.stop (e : σ) : Emits f l (stop e : Trace ε σ α) :=
  ⟨List.nil_prefix, fun _ h => by cases h⟩

theorem Emits.emit {e : ε} {y : φ} (h : f e = some y) :
    Emits f [y] (Trace.emit e : Trace ε σ Unit) := by
  have hs : (Trace.emit e : Trace ε σ Unit).events.filterMap f = [y] := by simp [Trace.emit, h]
  exact ⟨hs ▸ List.prefix_refl _, fun _ _ => hs⟩

/-- A computation of which nothing is seen. -/
theorem Emits.silent {x : Trace ε σ α} (h : All (fun e => f e = none) x) : Emits f [] x := by
  have hs : x.events.filterMap f = [] := List.filterMap_eq_nil_iff.mpr h
  exact ⟨hs ▸ List.prefix_refl _, fun _ _ => hs⟩

theorem Within.silent {x : Trace ε σ α} (h : All (fun e => f e = none) x) : Within f l x := by
  rw [Within, List.filterMap_eq_nil_iff.mpr h]
  exact List.nil_prefix

theorem Within.ite {c : Prop} [Decidable c] {x y : Trace ε σ α} (hx : c → Within f l x)
    (hy : ¬ c → Within f l y) : Within f l (if c then x else y) := by
  by_cases hc : c
  · rw [if_pos hc]
    exact hx hc
  · rw [if_neg hc]
    exact hy hc

/-- The rule of sequencing, for a second part of which something is seen only where the first has shown
all. -/
theorem Within.bind_or {x : Trace ε σ α} {g : α → Trace ε σ β} (hx : Within f l x)
    (hg : ∀ a, x.out = .ok a → All (fun e => f e = none) (g a) ∨
      x.events.filterMap f = l ∧ Within f l' (g a)) : Within f (l ++ l') (x >>= g) := by
  rcases x with ⟨es, e | a⟩
  · exact List.IsPrefix.trans hx (List.prefix_append l l')
  · rw [Within, mk_ok_bind, List.filterMap_append]
    rcases hg a rfl with h | ⟨hes, h⟩
    · rw [List.filterMap_eq_nil_iff.mpr h, List.append_nil]
      exact List.IsPrefix.trans hx (List.prefix_append l l')
    · rw [show es.filterMap f = l from hes, List.prefix_append_right_inj]
      exact h

/-- The rule of sequencing, for a first part that may end before it has shown all. -/
theorem Within.bind {x : Trace ε σ α} {g : α → Trace ε σ β} (hx : Emits f l x)
    (hg : ∀ a, x.out = .ok a → Within f l' (g a)) : Within f (l ++ l') (x >>= g) :=
  hx.within.bind_or fun a ha => .inr ⟨hx.all a ha, hg a ha⟩

/-- A second part of which nothing is seen. -/
theorem Within.bind_silent {x : Trace ε σ α} {g : α → Trace ε σ β} (hx : Within f l x)
    (hg : ∀ a, x.out = .ok a → All (fun e => f e = none) (g a)) : Within f l (x >>= g) := by
  rcases x with ⟨es, e | a⟩
  · exact hx
  · rw [Within, mk_ok_bind, List.filterMap_append, List.filterMap_eq_nil_iff.mpr (hg a rfl),
      List.append_nil]
    exact hx

theorem Emits.bind {x : Trace ε σ α} {g : α → Trace ε σ β} (hx : Emits f l x)
    (hg : ∀ a, x.out = .ok a → Emits f l' (g a)) : Emits f (l ++ l') (x >>= g) := by
  refine ⟨.bind hx fun a ha => (hg a ha).within, fun b hb => ?_⟩
  rcases x with ⟨es, e | a⟩
  · cases hb
  · rw [mk_ok_bind, List.filterMap_append, hx.all a rfl, (hg a rfl).all b hb]

/-- A first part of which nothing is seen. -/
theorem Within.after {x : Trace ε σ α} {g : α → Trace ε σ β} (hx : All (fun e => f e = none) x)
    (hg : ∀ a, x.out = .ok a → Within f l (g a)) : Within f l (x >>= g) :=
  Within.bind (l := []) (.silent hx) hg

end Emits

/-! ## Replaying -/

section Replay

variable {ε' : Type} (f : ε' → List ε)

@[simp] theorem replay_pure (a : α) : replay f (pure a : Trace ε' σ α) = pure a := rfl

theorem replay_bind (x : Trace ε' σ α) (g : α → Trace ε' σ β) :
    replay f (x >>= g) = replay f x >>= fun a => replay f (g a) := by
  rcases x with ⟨es, _ | a⟩ <;> simp [replay]

theorem replay_within {φ : Type} {h : ε → Option φ} {l : List φ} {g : ε' → ε} {x : Trace ε' σ α}
    (hx : Within (fun e => h (g e)) l x) : Within h l (replay (fun e => [g e]) x) := by
  have hev : (replay (fun e => [g e]) x).events = x.events.map g := List.map_eq_flatMap.symm
  rw [Within, hev, List.filterMap_map]
  exact hx

end Replay

end Trace

end Lib
