import DspcDriver.Lib.Sys
import Mathlib.Algebra.GroupWithZero.Nat
import Mathlib.Data.List.Basic

/-!
# The two-register handshake

A producer hands a list of messages to a consumer through one shared zone. Each party owns one
register and writes it with a level; the other party polls it. A round is

* the producer sets `reset` and waits for the consumer's `reset`, fills the zone word by word, sets
  `finish` and waits for the consumer's `finish`;
* the consumer waits for `reset` and answers `reset`, waits for `finish`, reads the zone word by
  word, answers `finish`.

The registers are levels, not events: each keeps the value of the last round until its owner writes
it again. `Inv` ties both places, both levels and the zone together; `inv` proves it over all
interleavings. Its consequences: the producer fills the zone only while the consumer does not read
(`Inv.exclusive`), what the consumer has read is a prefix of the message list (`Inv.delivered`,
`Inv.reading`), and a producer that saw the acknowledgement of message `n` knows that it was read
(`Inv.acked`). No state is stuck: while one of them waits, it or the other can go on
(`Inv.answer_reset`, `Inv.answer_finish`, `Inv.offer_reset`, `Inv.offer_finish`). The consumer takes at
most the steps of one round a message and the first two of one more (`ConsumerStep.count`,
`Inv.count_le`), and the steps of both together are bounded (`Inv.rank_le`).
-/

namespace Lib

namespace Handshake

/-- What a party has written to its register: nothing yet, or the level of the current phase. -/
inductive Level where
  | idle | reset | finish
  deriving DecidableEq

/-- Where the producer is. -/
inductive Producer where
  /-- Before its `reset` for message `n`. -/
  | start (n : Nat)
  /-- Waiting for the consumer's `reset`. -/
  | await (n : Nat)
  /-- Filling the zone with message `n`; `k` words are written. -/
  | fill (n k : Nat)
  /-- Waiting for the consumer's `finish`. -/
  | sent (n : Nat)

/-- Where the consumer is; `reading ws`: it has read the words `ws` of the zone. -/
inductive Consumer (β : Type) where
  | waitReset | ackReset | waitFinish
  | reading (ws : List β)
  | ackFinish
  deriving DecidableEq

structure State (β : Type) where
  producer : Producer
  consumer : Consumer β
  control : Level
  status : Level
  zone : Nat → β
  delivered : List (List β)

variable {β : Type} (msgs : List (List β))

/-- Message `n` of the list. -/
def msg (n : Nat) : List β := msgs.getD n []

inductive Step : State β → State β → Prop
  | reset {s : State β} {n : Nat} : s.producer = .start n →
      Step s { s with producer := .await n, control := .reset }
  | grant {s : State β} {n : Nat} : s.producer = .await n → n < msgs.length → s.status = .reset →
      Step s { s with producer := .fill n 0 }
  | write {s : State β} {n k : Nat} {w : β} : s.producer = .fill n k → (msg msgs n)[k]? = some w →
      Step s { s with producer := .fill n (k + 1), zone := Function.update s.zone k w }
  | send {s : State β} {n : Nat} : s.producer = .fill n (msg msgs n).length →
      Step s { s with producer := .sent n, control := .finish }
  | done {s : State β} {n : Nat} : s.producer = .sent n → s.status = .finish →
      Step s { s with producer := .start (n + 1) }
  | seeReset {s : State β} : s.consumer = .waitReset → s.control = .reset →
      Step s { s with consumer := .ackReset }
  | ackReset {s : State β} : s.consumer = .ackReset →
      Step s { s with consumer := .waitFinish, status := .reset }
  | seeFinish {s : State β} : s.consumer = .waitFinish → s.control = .finish →
      Step s { s with consumer := .reading [] }
  | read {s : State β} {ws : List β} : s.consumer = .reading ws →
      ws.length < (msg msgs s.delivered.length).length →
      Step s { s with consumer := .reading (ws ++ [s.zone ws.length]) }
  | deliver {s : State β} {ws : List β} : s.consumer = .reading ws →
      ws.length = (msg msgs s.delivered.length).length →
      Step s { s with consumer := .ackFinish, delivered := s.delivered ++ [ws] }
  | ackFinish {s : State β} : s.consumer = .ackFinish →
      Step s { s with consumer := .waitReset, status := .finish }

/-- The handshake of the messages `msgs`; the zone starts with any contents. -/
def sys : Sys (State β) where
  init s := s.producer = .start 0 ∧ s.consumer = .waitReset ∧ s.control = .idle ∧
    s.status = .idle ∧ s.delivered = []
  step := Step msgs

/-- The first `k` words of `m` are in the zone. -/
def Filled (zone : Nat → β) (m : List β) (k : Nat) : Prop := ∀ i < k, m[i]? = some (zone i)

/-- The consumer before the producer's `finish`: it has not seen the `reset` yet, it is about to
answer it, or it has answered. -/
def Before (s : State β) : Prop :=
  (s.consumer = .waitReset ∧ s.status ≠ .reset) ∨ (s.consumer = .ackReset ∧ s.status ≠ .reset) ∨
  (s.consumer = .waitFinish ∧ s.status = .reset)

/-- The consumer after the producer's `finish` for message `n`. -/
def After (s : State β) (n : Nat) : Prop :=
  (s.delivered.length = n ∧ s.status = .reset ∧ Filled s.zone (msg msgs n) (msg msgs n).length ∧
    (s.consumer = .waitFinish ∨ ∃ ws, s.consumer = .reading ws ∧ ws <+: msg msgs n)) ∨
  (s.delivered.length = n + 1 ∧ s.status = .reset ∧ s.consumer = .ackFinish) ∨
  (s.delivered.length = n + 1 ∧ s.status = .finish ∧ s.consumer = .waitReset)

/-- The place of the consumer, the levels and the zone at each place of the producer. -/
def Place (s : State β) : Producer → Prop
  | .start n => s.delivered.length = n ∧ s.consumer = .waitReset ∧ s.control ≠ .reset ∧
      s.status ≠ .reset
  | .await n => s.delivered.length = n ∧ s.control = .reset ∧ Before s
  | .fill n k => n < msgs.length ∧ s.delivered.length = n ∧ s.control = .reset ∧
      s.consumer = .waitFinish ∧ s.status = .reset ∧ Filled s.zone (msg msgs n) k
  | .sent n => n < msgs.length ∧ s.control = .finish ∧ After msgs s n

/-- The invariant of the handshake. -/
structure Inv (s : State β) : Prop where
  delivered : s.delivered <+: msgs
  place : Place msgs s s.producer

variable {msgs}

theorem msg_getElem {n : Nat} (h : n < msgs.length) : msgs[n]? = some (msg msgs n) := by
  simp [msg, h]

/-- What no message exceeds, the next message does not. -/
theorem msg_length_le {N : Nat} (h : ∀ m ∈ msgs, m.length ≤ N) (n : Nat) :
    (msg msgs n).length ≤ N := by
  by_cases hn : n < msgs.length
  · exact h _ (List.mem_of_getElem? (msg_getElem hn))
  · simp [msg, Nat.not_lt.mp hn]

theorem msg_append {n : Nat} (h : n < msgs.length) (more : List (List β)) :
    msg (msgs ++ more) n = msg msgs n := by
  simp [msg, List.getElem?_append_left h]

theorem Filled.write {zone : Nat → β} {m : List β} {k : Nat} {w : β} (h : Filled zone m k)
    (hw : m[k]? = some w) : Filled (Function.update zone k w) m (k + 1) := by
  intro i hi
  by_cases hik : i = k
  · subst hik; rw [Function.update_self, hw]
  · rw [Function.update_of_ne hik]; exact h i (by omega)

/-- The next word of a filled zone extends a prefix of the message. -/
theorem Filled.read {zone : Nat → β} {m ws : List β} (h : Filled zone m m.length) (hp : ws <+: m)
    (hlt : ws.length < m.length) : ws ++ [zone ws.length] <+: m := by
  have hz := h _ hlt
  rw [List.getElem?_eq_getElem hlt, Option.some.injEq] at hz
  rw [List.prefix_iff_eq_take] at hp ⊢
  rw [List.length_append, List.length_singleton, List.take_succ_eq_append_getElem hlt, ← hp, hz]

/-- The list of delivered messages grows by the message that was read. -/
theorem snoc_msg {ds : List (List β)} (h : ds <+: msgs) (hn : ds.length < msgs.length) :
    ds ++ [msg msgs ds.length] <+: msgs := by
  have hm : msgs[ds.length] = msg msgs ds.length := by
    have := msg_getElem hn
    rwa [List.getElem?_eq_getElem hn, Option.some.injEq] at this
  rw [List.prefix_iff_eq_take] at h ⊢
  rw [List.length_append, List.length_singleton, List.take_succ_eq_append_getElem hn, ← h, hm]

theorem inv_init {s : State β} (h : (sys msgs).init s) : Inv msgs s := by
  obtain ⟨hp, hc, hctl, hst, hd⟩ := h
  refine ⟨by rw [hd]; exact List.nil_prefix, ?_⟩
  rw [hp]
  exact ⟨by rw [hd]; rfl, hc, by simp [hctl], by simp [hst]⟩

/-- The consumer reads only while the producer waits for `finish`, and what it has read are words of
the next message, which fills the zone. -/
theorem Place.of_reading {s : State β} (h : Place msgs s s.producer) {ws : List β}
    (hc : s.consumer = .reading ws) :
    s.producer = .sent s.delivered.length ∧ s.delivered.length < msgs.length ∧ s.control = .finish ∧
      s.status = .reset ∧
      Filled s.zone (msg msgs s.delivered.length) (msg msgs s.delivered.length).length ∧
      ws <+: msg msgs s.delivered.length := by
  cases hp : s.producer with
  | start n | await n | fill n k =>
    rw [hp] at h; simp only [Place, Before] at h; simp_all
  | sent n =>
    rw [hp] at h
    obtain ⟨hn, hctl, ⟨rfl, hst, hf, h | ⟨ws', h, hpre⟩⟩ | ⟨-, -, h⟩ | ⟨-, -, h⟩⟩ := h <;>
      rw [hc] at h <;> cases h
    exact ⟨rfl, hn, hctl, hst, hf, hpre⟩

/-- Every step of either party keeps the invariant. -/
theorem inv_step {s t : State β} (hi : Inv msgs s) (h : Step msgs s t) : Inv msgs t := by
  obtain ⟨hd, hpl⟩ := hi
  cases h with
  | @reset n hp =>
    rw [hp] at hpl
    obtain ⟨hn, hc, -, hst⟩ := hpl
    exact ⟨hd, hn, rfl, .inl ⟨hc, hst⟩⟩
  | @grant n hp hlt hst =>
    rw [hp] at hpl
    obtain ⟨hn, hctl, ⟨-, h⟩ | ⟨-, h⟩ | ⟨hc, -⟩⟩ := hpl
    · exact absurd hst h
    · exact absurd hst h
    · exact ⟨hd, hlt, hn, hctl, hc, hst, fun i hi => absurd hi (Nat.not_lt_zero i)⟩
  | @write n k w hp hw =>
    rw [hp] at hpl
    obtain ⟨hlt, hn, hctl, hc, hst, hf⟩ := hpl
    exact ⟨hd, hlt, hn, hctl, hc, hst, hf.write hw⟩
  | @send n hp =>
    rw [hp] at hpl
    obtain ⟨hlt, hn, -, hc, hst, hf⟩ := hpl
    exact ⟨hd, hlt, rfl, .inl ⟨hn, hst, hf, .inl hc⟩⟩
  | @done n hp hst =>
    rw [hp] at hpl
    obtain ⟨-, hctl, ⟨-, h, -⟩ | ⟨-, h, -⟩ | ⟨hn, -, hc⟩⟩ := hpl
    · rw [h] at hst; cases hst
    · rw [h] at hst; cases hst
    · exact ⟨hd, hn, hc, by simp [hctl], by simp [hst]⟩
  | seeReset hc hctl =>
    refine ⟨hd, ?_⟩
    cases hp : s.producer <;> rw [hp] at hpl <;> simp only [Place, Before, After] at hpl ⊢ <;>
      simp_all
  | ackReset hc =>
    refine ⟨hd, ?_⟩
    cases hp : s.producer <;> rw [hp] at hpl <;> simp only [Place, Before, After] at hpl ⊢ <;>
      simp_all
  | seeFinish hc hctl =>
    refine ⟨hd, ?_⟩
    cases hp : s.producer <;> rw [hp] at hpl <;> simp only [Place, Before, After] at hpl ⊢ <;>
      simp_all
  | @read ws hc hlt =>
    obtain ⟨hp, hn, hctl, hst, hf, hpre⟩ := hpl.of_reading hc
    refine ⟨hd, ?_⟩
    rw [hp]
    exact ⟨hn, hctl, .inl ⟨rfl, hst, hf, .inr ⟨_, rfl, hf.read hpre hlt⟩⟩⟩
  | @deliver ws hc hlen =>
    obtain ⟨hp, hn, hctl, hst, -, hpre⟩ := hpl.of_reading hc
    obtain rfl := hpre.eq_of_length hlen
    refine ⟨snoc_msg hd hn, ?_⟩
    rw [hp]
    exact ⟨hn, hctl, .inr (.inl ⟨by simp, hst, rfl⟩)⟩
  | ackFinish hc =>
    refine ⟨hd, ?_⟩
    cases hp : s.producer <;> rw [hp] at hpl <;> simp only [Place, Before, After] at hpl ⊢ <;>
      simp_all

/-- **The invariant holds over every interleaving.** -/
theorem inv {s : State β} (h : (sys msgs).Reach s) : Inv msgs s :=
  h.inv (fun _ => inv_init) fun _ _ => inv_step

/-! ## Consequences -/

/-- The consumer reads only while the producer waits for `finish`. -/
theorem Inv.not_reading {s : State β} (h : Inv msgs s) {n : Nat}
    (hp : s.producer = .start n ∨ s.producer = .await n ∨ ∃ k, s.producer = .fill n k) (ws : List β) :
    s.consumer ≠ .reading ws := by
  intro hc
  have hsent := (h.place.of_reading hc).1
  rcases hp with hp | hp | ⟨k, hp⟩ <;> rw [hp] at hsent <;> cases hsent

/-- While the producer fills the zone the consumer does not read it. -/
theorem Inv.exclusive {s : State β} (h : Inv msgs s) {n k : Nat} (hp : s.producer = .fill n k)
    (ws : List β) : s.consumer ≠ .reading ws :=
  h.not_reading (.inr (.inr ⟨k, hp⟩)) ws

/-- The producer fills the zone only while the consumer waits for `finish`. -/
theorem Inv.not_fill {s : State β} (h : Inv msgs s) (hc : s.consumer ≠ .waitFinish) (n k : Nat) :
    s.producer ≠ .fill n k := by
  intro hp
  have hpl := h.place
  rw [hp] at hpl
  exact hc hpl.2.2.2.1

/-- A read in progress has words of the next message only. -/
theorem Inv.reading {s : State β} (h : Inv msgs s) {ws : List β} (hc : s.consumer = .reading ws) :
    ∃ m, msgs[s.delivered.length]? = some m ∧ ws <+: m := by
  obtain ⟨-, hn, -, -, -, hpre⟩ := h.place.of_reading hc
  exact ⟨_, msg_getElem hn, hpre⟩

/-- **A producer that is not waiting for `finish` has had every message before `n` read, and no
other.** -/
theorem Inv.acked {s : State β} (h : Inv msgs s) {n : Nat}
    (hp : s.producer = .start n ∨ s.producer = .await n ∨ ∃ k, s.producer = .fill n k) :
    s.delivered = msgs.take n := by
  have hpl := h.place
  have hn : s.delivered.length = n := by
    rcases hp with hp | hp | ⟨k, hp⟩ <;> rw [hp] at hpl
    · exact hpl.1
    · exact hpl.1
    · exact hpl.2.1
  rw [← hn]
  exact List.prefix_iff_eq_take.mp h.delivered

/-- The message that the producer is at. -/
def Producer.number : Producer → Nat
  | .start n | .await n | .fill n _ | .sent n => n

/-- Every message before the one that the producer is at has been read. -/
theorem Inv.number_le {s : State β} (h : Inv msgs s) : s.producer.number ≤ s.delivered.length := by
  have hpl := h.place
  cases hp : s.producer with
  | start n | await n =>
    rw [hp] at hpl
    exact Nat.le_of_eq hpl.1.symm
  | fill n k =>
    rw [hp] at hpl
    exact Nat.le_of_eq hpl.2.1.symm
  | sent n =>
    rw [hp] at hpl
    obtain ⟨-, -, ⟨hn, -⟩ | ⟨hn, -⟩ | ⟨hn, -⟩⟩ := hpl <;> simp only [Producer.number] <;> omega

/-- While the producer waits for `reset`, the consumer has answered or can take a step. -/
theorem Inv.answer_reset {s : State β} (h : Inv msgs s) {n : Nat} (hp : s.producer = .await n) :
    s.status = .reset ∨ (s.consumer = .waitReset ∧ s.control = .reset) ∨
      s.consumer = .ackReset := by
  have hpl := h.place
  rw [hp] at hpl
  obtain ⟨-, hctl, ⟨hc, -⟩ | ⟨hc, -⟩ | ⟨-, hst⟩⟩ := hpl
  · exact .inr (.inl ⟨hc, hctl⟩)
  · exact .inr (.inr hc)
  · exact .inl hst

/-- While the producer waits for `finish`, the consumer has answered or can take a step. -/
theorem Inv.answer_finish {s : State β} (h : Inv msgs s) {n : Nat} (hp : s.producer = .sent n) :
    s.status = .finish ∨ (s.consumer = .waitFinish ∧ s.control = .finish) ∨
      (∃ ws, s.consumer = .reading ws ∧ ws.length ≤ (msg msgs s.delivered.length).length) ∨
      s.consumer = .ackFinish := by
  have hpl := h.place
  rw [hp] at hpl
  obtain ⟨-, hctl, ⟨rfl, -, -, hc | ⟨ws, hc, hpre⟩⟩ | ⟨-, -, hc⟩ | ⟨-, hst, -⟩⟩ := hpl
  · exact .inr (.inl ⟨hc, hctl⟩)
  · exact .inr (.inr (.inl ⟨ws, hc, hpre.length_le⟩))
  · exact .inr (.inr (.inr hc))
  · exact .inl hst

/-- While the consumer waits for `reset`, it is there or the producer can take a step. -/
theorem Inv.offer_reset {s : State β} (h : Inv msgs s) (hc : s.consumer = .waitReset) :
    s.control = .reset ∨ (∃ n, s.producer = .start n) ∨
      ∃ n, s.producer = .sent n ∧ s.status = .finish := by
  have hpl := h.place
  cases hp : s.producer with
  | start n => exact .inr (.inl ⟨n, rfl⟩)
  | await n =>
    rw [hp] at hpl
    exact .inl hpl.2.1
  | fill n k =>
    rw [hp] at hpl
    exact .inl hpl.2.2.1
  | sent n =>
    rw [hp] at hpl
    obtain ⟨-, -, ⟨-, -, -, h | ⟨ws, h, -⟩⟩ | ⟨-, -, h⟩ | ⟨-, hst, -⟩⟩ := hpl
    · rw [hc] at h; cases h
    · rw [hc] at h; cases h
    · rw [hc] at h; cases h
    · exact .inr (.inr ⟨n, rfl, hst⟩)

/-- While the consumer waits for `finish`, it is there or the producer can take a step. -/
theorem Inv.offer_finish {s : State β} (h : Inv msgs s) (hc : s.consumer = .waitFinish) :
    s.control = .finish ∨ (∃ n, s.producer = .await n ∧ s.status = .reset) ∨
      ∃ n k, s.producer = .fill n k := by
  have hpl := h.place
  cases hp : s.producer with
  | start n =>
    rw [hp] at hpl
    have hw := hpl.2.1
    rw [hc] at hw
    cases hw
  | await n =>
    rw [hp] at hpl
    obtain ⟨-, -, ⟨h, -⟩ | ⟨h, -⟩ | ⟨-, hst⟩⟩ := hpl
    · rw [hc] at h; cases h
    · rw [hc] at h; cases h
    · exact .inr (.inl ⟨n, rfl, hst⟩)
  | fill n k => exact .inr (.inr ⟨n, k, rfl⟩)
  | sent n =>
    rw [hp] at hpl
    exact .inl hpl.2.1

theorem Filled.le {zone : Nat → β} {m : List β} {k : Nat} (h : Filled zone m k) : k ≤ m.length := by
  by_contra hlt
  have := h m.length (by omega)
  rw [List.getElem?_eq_none (Nat.le_refl _)] at this
  cases this

/-! ## Registers that hold codes

A concrete consumer reads and writes registers of some type `γ`, in which each party has its own
codes for the levels. `ConsumerStep.sim` is its half of a simulation by the handshake, whatever the
concrete producer is. -/

section Registers

variable {γ : Type}

/-- The values that stand for the levels in a register. -/
structure Codes (γ : Type) where
  code : Level → γ
  inj : Function.Injective code

theorem Codes.code_eq (c : Codes γ) {l l' : Level} : c.code l = c.code l' ↔ l = l' := c.inj.eq_iff

/-- A consumer with its status register. -/
structure ConsumerState (γ β : Type) where
  place : Consumer β
  status : γ
  delivered : List (List β)

/-- A step of the consumer, which reads the control register `control` and the zone. -/
inductive ConsumerStep (ctl st : Codes γ) (msgs : List (List β)) (control : γ) (zone : Nat → β) :
    ConsumerState γ β → ConsumerState γ β → Prop
  | seeReset {x : ConsumerState γ β} : x.place = .waitReset → control = ctl.code .reset →
      ConsumerStep ctl st msgs control zone x { x with place := .ackReset }
  | ackReset {x : ConsumerState γ β} : x.place = .ackReset →
      ConsumerStep ctl st msgs control zone x
        { x with place := .waitFinish, status := st.code .reset }
  | seeFinish {x : ConsumerState γ β} : x.place = .waitFinish → control = ctl.code .finish →
      ConsumerStep ctl st msgs control zone x { x with place := .reading [] }
  | read {x : ConsumerState γ β} {ws : List β} : x.place = .reading ws →
      ws.length < (msg msgs x.delivered.length).length →
      ConsumerStep ctl st msgs control zone x { x with place := .reading (ws ++ [zone ws.length]) }
  | deliver {x : ConsumerState γ β} {ws : List β} : x.place = .reading ws →
      ws.length = (msg msgs x.delivered.length).length →
      ConsumerStep ctl st msgs control zone x
        { x with place := .ackFinish, delivered := x.delivered ++ [ws] }
  | ackFinish {x : ConsumerState γ β} : x.place = .ackFinish →
      ConsumerStep ctl st msgs control zone x
        { x with place := .waitReset, status := st.code .finish }

/-- The registers, the zone and the consumer are those of the abstract state `a`. -/
structure Shows (ctl st : Codes γ) (control : γ) (zone : Nat → β) (x : ConsumerState γ β)
    (a : State β) : Prop where
  control : control = ctl.code a.control
  zone : zone = a.zone
  place : x.place = a.consumer
  status : x.status = st.code a.status
  delivered : x.delivered = a.delivered

variable {ctl st : Codes γ} {control : γ} {zone : Nat → β} {x y : ConsumerState γ β} {a : State β}

theorem ConsumerStep.delivered_prefix (h : ConsumerStep ctl st msgs control zone x y) :
    x.delivered <+: y.delivered := by
  cases h with
  | deliver => exact List.prefix_append ..
  | seeReset | ackReset | seeFinish | read | ackFinish => exact List.prefix_refl _

/-- A step of the concrete consumer is a step of the handshake. -/
theorem ConsumerStep.sim (h : ConsumerStep ctl st msgs control zone x y)
    (hs : Shows ctl st control zone x a) :
    ∃ b, Step msgs a b ∧ b.producer = a.producer ∧ Shows ctl st control zone y b := by
  obtain ⟨hc, hz, hp, hst, hd⟩ := hs
  cases h with
  | seeReset h1 h2 =>
    exact ⟨_, .seeReset (hp ▸ h1) (ctl.code_eq.mp (hc ▸ h2)), rfl, hc, hz, rfl, hst, hd⟩
  | ackReset h1 => exact ⟨_, .ackReset (hp ▸ h1), rfl, hc, hz, rfl, rfl, hd⟩
  | seeFinish h1 h2 =>
    exact ⟨_, .seeFinish (hp ▸ h1) (ctl.code_eq.mp (hc ▸ h2)), rfl, hc, hz, rfl, hst, hd⟩
  | read h1 h2 =>
    exact ⟨_, .read (hp ▸ h1) (hd ▸ h2), rfl, hc, hz, by rw [hz], hst, hd⟩
  | deliver h1 h2 =>
    exact ⟨_, .deliver (hp ▸ h1) (hd ▸ h2), rfl, hc, hz, rfl, hst, by rw [hd]⟩
  | ackFinish h1 => exact ⟨_, .ackFinish (hp ▸ h1), rfl, hc, hz, rfl, rfl, hd⟩

/-- A step reads of the zone at most the words of the next message. -/
theorem ConsumerStep.congr_zone {zone' : Nat → β} (h : ConsumerStep ctl st msgs control zone x y)
    (hz : ∀ k < (msg msgs x.delivered.length).length, zone k = zone' k) :
    ConsumerStep ctl st msgs control zone' x y := by
  cases h with
  | seeReset h1 h2 => exact .seeReset h1 h2
  | ackReset h1 => exact .ackReset h1
  | seeFinish h1 h2 => exact .seeFinish h1 h2
  | read h1 h2 => rw [hz _ h2]; exact .read h1 h2
  | deliver h1 h2 => exact .deliver h1 h2
  | ackFinish h1 => exact .ackFinish h1

/-- The step of the consumer, computed. -/
def ConsumerState.next [DecidableEq γ] (ctl st : Codes γ) (msgs : List (List β)) (control : γ)
    (zone : Nat → β) (x : ConsumerState γ β) : Option (ConsumerState γ β) :=
  match x.place with
  | .waitReset => if control = ctl.code .reset then some { x with place := .ackReset } else none
  | .ackReset => some { x with place := .waitFinish, status := st.code .reset }
  | .waitFinish => if control = ctl.code .finish then some { x with place := .reading [] } else none
  | .reading ws =>
    if ws.length < (msg msgs x.delivered.length).length then
      some { x with place := .reading (ws ++ [zone ws.length]) }
    else if ws.length = (msg msgs x.delivered.length).length then
      some { x with place := .ackFinish, delivered := x.delivered ++ [ws] }
    else none
  | .ackFinish => some { x with place := .waitReset, status := st.code .finish }

/-- **The consumer has at most one step**, and it is computed. -/
theorem consumerStep_iff [DecidableEq γ] :
    ConsumerStep ctl st msgs control zone x y ↔ x.next ctl st msgs control zone = some y := by
  constructor
  · intro h
    cases h with
    | seeReset h1 h2 | seeFinish h1 h2 | read h1 h2 => simp [ConsumerState.next, h1, h2]
    | ackReset h1 | ackFinish h1 => simp [ConsumerState.next, h1]
    | deliver h1 h2 => simp [ConsumerState.next, h1, h2]
  · intro h
    unfold ConsumerState.next at h
    split at h
    · rename_i hp
      split at h <;> cases h
      rename_i hc
      exact .seeReset hp hc
    · rename_i hp
      cases h
      exact .ackReset hp
    · rename_i hp
      split at h <;> cases h
      rename_i hc
      exact .seeFinish hp hc
    · rename_i ws hp
      split at h
      · rename_i hlt
        cases h
        exact .read hp hlt
      · split at h <;> cases h
        rename_i hlen
        exact .deliver hp hlen
    · rename_i hp
      cases h
      exact .ackFinish hp

/-- Further messages behind the one that is being read change no step. -/
theorem ConsumerStep.append (h : ConsumerStep ctl st msgs control zone x y)
    (hlt : ∀ ws, x.place = .reading ws → x.delivered.length < msgs.length) (more : List (List β)) :
    ConsumerStep ctl st (msgs ++ more) control zone x y := by
  cases h with
  | seeReset h1 h2 => exact .seeReset h1 h2
  | ackReset h1 => exact .ackReset h1
  | seeFinish h1 h2 => exact .seeFinish h1 h2
  | read h1 h2 => exact .read h1 (by rwa [msg_append (hlt _ h1)])
  | deliver h1 h2 => exact .deliver h1 (by rwa [msg_append (hlt _ h1)])
  | ackFinish h1 => exact .ackFinish h1

/-- While the producer waits for `reset`, the answer is there or the consumer can go on. -/
theorem Inv.consumer_reset (hi : Inv msgs a) (hs : Shows ctl st control zone x a) {n : Nat}
    (hp : a.producer = .await n) :
    x.status = st.code .reset ∨ ∃ y, ConsumerStep ctl st msgs control zone x y := by
  rcases hi.answer_reset hp with h | ⟨h1, h2⟩ | h
  · exact .inl (by rw [hs.status, h])
  · exact .inr ⟨_, .seeReset (by rw [hs.place, h1]) (by rw [hs.control, h2])⟩
  · exact .inr ⟨_, .ackReset (by rw [hs.place, h])⟩

/-- While the producer waits for `finish`, the answer is there or the consumer can go on. -/
theorem Inv.consumer_finish (hi : Inv msgs a) (hs : Shows ctl st control zone x a) {n : Nat}
    (hp : a.producer = .sent n) :
    x.status = st.code .finish ∨ ∃ y, ConsumerStep ctl st msgs control zone x y := by
  rcases hi.answer_finish hp with h | ⟨h1, h2⟩ | ⟨ws, h1, h2⟩ | h
  · exact .inl (by rw [hs.status, h])
  · exact .inr ⟨_, .seeFinish (by rw [hs.place, h1]) (by rw [hs.control, h2])⟩
  · rw [← hs.delivered] at h2
    rcases Nat.lt_or_eq_of_le h2 with h2 | h2
    · exact .inr ⟨_, .read (by rw [hs.place, h1]) h2⟩
    · exact .inr ⟨_, .deliver (by rw [hs.place, h1]) h2⟩
  · exact .inr ⟨_, .ackFinish (by rw [hs.place, h])⟩

/-! ## The steps of the consumer, counted -/

/-- The steps of a round up to this place. A message counts as delivered before its last step, so the
count of a round begins one step early. -/
def Consumer.steps : Consumer β → Nat
  | .ackFinish => 0
  | .waitReset => 1
  | .ackReset => 2
  | .waitFinish => 3
  | .reading ws => 4 + ws.length

/-- The steps of the rounds of `ms`, one round a message. -/
def rounds (ms : List (List β)) : Nat := (ms.map fun m => m.length + 5).sum

/-- The steps that the consumer has taken, and one. -/
def ConsumerState.count (x : ConsumerState γ β) : Nat := rounds x.delivered + x.place.steps

theorem rounds_append (ms ms' : List (List β)) : rounds (ms ++ ms') = rounds ms + rounds ms' := by
  simp [rounds]

@[simp] theorem rounds_nil : rounds ([] : List (List β)) = 0 := rfl

@[simp] theorem rounds_cons (m : List β) (ms : List (List β)) :
    rounds (m :: ms) = m.length + 5 + rounds ms := by
  simp [rounds]

/-- **Every step of the consumer counts as one.** -/
theorem ConsumerStep.count (h : ConsumerStep ctl st msgs control zone x y) :
    y.count = x.count + 1 := by
  cases h with
  | seeReset h1 | ackReset h1 | seeFinish h1 | ackFinish h1 =>
    simp only [ConsumerState.count, h1, Consumer.steps, List.length_nil, Nat.add_assoc]
  | read h1 => simp [ConsumerState.count, h1, Consumer.steps, Nat.add_assoc]
  | deliver h1 h2 =>
    simp only [ConsumerState.count, h1, Consumer.steps, rounds_append, rounds_cons, rounds_nil]
    omega

/-- The consumer never takes more steps than the rounds of all messages have, and two. -/
theorem Inv.count_le (hi : Inv msgs a) (hs : Shows ctl st control zone x a) :
    x.count ≤ rounds msgs + 3 := by
  obtain ⟨ms, hms⟩ := hi.delivered
  have hd : rounds msgs = rounds x.delivered + rounds ms := by
    rw [← hms, rounds_append, hs.delivered]
  rw [ConsumerState.count, hd]
  cases hp : x.place with
  | ackFinish | waitReset | ackReset | waitFinish => simp only [Consumer.steps]; omega
  | reading ws =>
    obtain ⟨m, hm, hpre⟩ := hi.reading (hs.place ▸ hp)
    rw [← hms, List.getElem?_append_right (Nat.le_refl _), Nat.sub_self] at hm
    cases ms with
    | nil => cases hm
    | cons m' ms =>
      cases hm
      have := hpre.length_le
      simp only [Consumer.steps, rounds_cons]
      omega

end Registers

/-! ## The steps of both, counted -/

/-- The producer's steps for the messages `ms`. -/
def sends (ms : List (List β)) : Nat := (ms.map fun m => m.length + 4).sum

/-- The steps of the producer up to this place. -/
def Producer.steps (msgs : List (List β)) : Producer → Nat
  | .start n => sends (msgs.take n)
  | .await n => sends (msgs.take n) + 1
  | .fill n k => sends (msgs.take n) + 2 + k
  | .sent n => sends (msgs.take n) + 3 + (msg msgs n).length

/-- The steps that both have taken, and one. -/
def rank (msgs : List (List β)) (p : Producer) (delivered : List (List β)) (c : Consumer β) : Nat :=
  p.steps msgs + (rounds delivered + c.steps)

theorem sends_take_succ {n : Nat} (h : n < msgs.length) :
    sends (msgs.take (n + 1)) = sends (msgs.take n) + ((msg msgs n).length + 4) := by
  have hm : msgs[n] = msg msgs n := by
    have := msg_getElem h
    rwa [List.getElem?_eq_getElem h, Option.some.injEq] at this
  rw [List.take_succ_eq_append_getElem h, hm]
  simp [sends]

theorem sends_take_le (msgs : List (List β)) (n : Nat) : sends (msgs.take n) ≤ sends msgs := by
  conv_rhs => rw [← List.take_append_drop n msgs]
  simp only [sends, List.map_append, List.sum_append]
  omega

theorem Inv.producer_le {a : State β} (h : Inv msgs a) : a.producer.steps msgs ≤ sends msgs + 1 := by
  have hpl := h.place
  cases hp : a.producer with
  | start n | await n =>
    have := sends_take_le msgs n
    simp only [Producer.steps]
    omega
  | fill n k =>
    rw [hp] at hpl
    obtain ⟨hn, -, -, -, -, hf⟩ := hpl
    have h1 := sends_take_succ hn
    have h2 := sends_take_le msgs (n + 1)
    have h3 := hf.le
    simp only [Producer.steps]
    omega
  | sent n =>
    rw [hp] at hpl
    have h1 := sends_take_succ hpl.1
    have h2 := sends_take_le msgs (n + 1)
    simp only [Producer.steps]
    omega

/-- The rank is bounded by the messages. -/
theorem Inv.rank_le {a : State β} (h : Inv msgs a) :
    rank msgs a.producer a.delivered a.consumer ≤ sends msgs + 1 + (rounds msgs + 3) := by
  have hid : Codes Level := ⟨id, Function.injective_id⟩
  have hs : Shows hid hid (hid.code a.control) a.zone ⟨a.consumer, hid.code a.status, a.delivered⟩ a :=
    ⟨rfl, rfl, rfl, rfl, rfl⟩
  exact Nat.add_le_add h.producer_le (h.count_le hs)

end Handshake

end Lib
