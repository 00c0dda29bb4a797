import Chiptune.Proofs.Ticks

/-!
# Faults of the voices

A fault is arithmetic when it comes from a word operation, and otherwise it
comes from a ring. Modulating and mixing touch no ring, so all their faults are
arithmetic in every state (`arithmetic_modulate`, `arithmetic_mix`).

The first two lemmas take one bind of a computation apart; every later module
opens computations with them.
-/

set_option autoImplicit false

namespace Chiptune

section Peel

variable {ε α β : Type}

/-- A computation in two parts succeeds when both parts do. -/
theorem bind_eq_ok {x : Except ε α} {k : α → Except ε β} {b : β} :
    x >>= k = .ok b ↔ ∃ a, x = .ok a ∧ k a = .ok b := by
  constructor
  · intro h
    cases x with
    | error e => cases h
    | ok a => exact ⟨a, rfl, h⟩
  · rintro ⟨a, rfl, h⟩
    exact h

/-- A computation in two parts fails in the first part, or in the second after
the first succeeded. -/
theorem bind_eq_error {x : Except ε α} {k : α → Except ε β} {e : ε} :
    x >>= k = .error e ↔ x = .error e ∨ ∃ a, x = .ok a ∧ k a = .error e := by
  constructor
  · intro h
    cases x with
    | error e' => exact Or.inl (congrArg Except.error (Except.error.inj h))
    | ok a => exact Or.inr ⟨a, rfl, h⟩
  · rintro (rfl | ⟨a, rfl, h⟩)
    · rfl
    · exact h

/-- What is seen of the result of a computation shows that it succeeds. -/
theorem exists_ok_of_toOption {x : Except ε α} {f : α → β} {b : β}
    (h : x.toOption.map f = some b) : ∃ a, x = .ok a ∧ f a = b := by
  cases x with
  | error e => cases h
  | ok a => exact ⟨a, rfl, Option.some.inj h⟩

end Peel

/-- The fault comes from a word operation. -/
def Fault.isArithmetic : Fault → Bool
  | .addOverflow | .subOverflow | .mulOverflow | .divideByZero | .remainderByZero => true
  | .ringFull | .ringEmpty | .cellOutOfRange _ _ => false

/-- Every fault of the computation is arithmetic. -/
def Arithmetic {α : Type} (x : Except Fault α) : Prop :=
  ∀ f, x = .error f → f.isArithmetic = true

section Closure

variable {α β : Type}

theorem arithmetic_ok (a : α) : Arithmetic (.ok a : Except Fault α) := by
  intro f h
  cases h

theorem arithmetic_pure (a : α) : Arithmetic (pure a : Except Fault α) := arithmetic_ok a

theorem arithmetic_bind {x : Except Fault α} {f : α → Except Fault β} (hx : Arithmetic x)
    (hf : ∀ a, Arithmetic (f a)) : Arithmetic (x >>= f) := by
  intro e h
  rcases bind_eq_error.1 h with hxe | ⟨a, -, hfe⟩
  · exact hx e hxe
  · exact hf a e hfe

/-- A computation that is wrapped into a value has the same faults. -/
theorem arithmetic_wrap {x : Except Fault α} {g : α → β} (hx : Arithmetic x) :
    Arithmetic (do return g (← x)) :=
  arithmetic_bind hx fun a => arithmetic_pure (g a)

/-- The shape of every checked word operation: a result, or one fault. -/
theorem arithmetic_guard {p : Prop} [Decidable p] {a : α} {f : Fault}
    (hf : f.isArithmetic = true) :
    Arithmetic (if p then .ok a else .error f : Except Fault α) := by
  intro e h
  by_cases hp : p
  · rw [if_pos hp] at h
    cases h
  · rw [if_neg hp] at h
    cases h
    exact hf

end Closure

/-! ## Modulators -/

theorem arithmetic_add (a b : Fixed) : Arithmetic (a.add b) :=
  arithmetic_wrap (arithmetic_guard rfl)

theorem arithmetic_sub (a b : Fixed) : Arithmetic (a.sub b) :=
  arithmetic_wrap (arithmetic_guard rfl)

theorem arithmetic_vibrato_step (v : Vibrato) (period : Fixed) : Arithmetic (v.step period) := by
  unfold Vibrato.step
  split
  · exact arithmetic_pure _
  · refine arithmetic_bind (arithmetic_add _ _) fun time => ?_
    split
    · exact arithmetic_wrap (arithmetic_add _ _)
    · split
      · exact arithmetic_wrap (arithmetic_sub _ _)
      · exact arithmetic_pure _

theorem arithmetic_envelope_step (e : Envelope) : Arithmetic e.step := by
  rcases e.step_cases with ⟨-, herror⟩ | ⟨e', hok, -⟩
  · intro f hf
    rw [herror] at hf
    cases hf
    rfl
  · rw [hok]
    exact arithmetic_ok e'

theorem arithmetic_amplitude_modulate (a : Amplitude) : Arithmetic a.modulate := by
  cases henabled : a.envelope.enabled with
  | false =>
    rw [Amplitude.modulate_of_disabled henabled]
    exact arithmetic_ok _
  | true =>
    rw [Amplitude.modulate_of_enabled henabled]
    exact arithmetic_wrap (arithmetic_envelope_step _)

theorem arithmetic_square_modulateVibrato (s : Square) : Arithmetic s.modulateVibrato := by
  unfold Square.modulateVibrato
  split
  · refine arithmetic_bind (arithmetic_vibrato_step _ _) fun (period, vibrato) => ?_
    simp only [Phase.setPeriod_eq]
    exact arithmetic_pure _
  · exact arithmetic_ok _

/-! ## Samples -/

theorem arithmetic_square_next (s : Square) : Arithmetic s.next := by
  intro f h
  rcases s.next_cases with ⟨-, herror⟩ | ⟨-, hok⟩ | ⟨-, time, -, ⟨-, hok⟩ | ⟨-, -, hok⟩ |
    ⟨-, -, rest, -, hok⟩⟩
  · rw [h] at herror
    cases herror
    rfl
  all_goals
    rw [h] at hok
    cases hok

theorem arithmetic_triangle_next (s : Triangle) : Arithmetic s.next := by
  intro f h
  rcases s.next_cases with ⟨-, herror⟩ | ⟨-, hok⟩ | ⟨-, time, -, ⟨-, hok⟩ | ⟨-, -, hok⟩ |
    ⟨-, -, rest, -, hok⟩⟩
  · rw [h] at herror
    cases herror
    rfl
  all_goals
    rw [h] at hok
    cases hok

theorem arithmetic_noise_next {ρ : Type} [BitSource ρ] (s : Noise) (source : ρ) :
    Arithmetic (s.next source) := by
  intro f h
  rcases s.next_cases source with ⟨-, hok⟩ | ⟨-, hok⟩
  all_goals
    rw [h] at hok
    cases hok

/-! ## The synthesizer -/

section Synth

variable {ρ : Type}

theorem arithmetic_modulate (s : Synth ρ) : Arithmetic s.modulate := by
  refine arithmetic_bind (arithmetic_square_modulateVibrato _) fun squareA => ?_
  refine arithmetic_bind (arithmetic_square_modulateVibrato _) fun squareB => ?_
  refine arithmetic_bind (arithmetic_wrap (arithmetic_amplitude_modulate _)) fun squareA => ?_
  refine arithmetic_bind (arithmetic_wrap (arithmetic_amplitude_modulate _)) fun squareB => ?_
  exact arithmetic_wrap (arithmetic_wrap (arithmetic_amplitude_modulate _))

theorem arithmetic_mix [BitSource ρ] (s : Synth ρ) : Arithmetic s.mix := by
  refine arithmetic_bind (arithmetic_square_next _) fun a => ?_
  refine arithmetic_bind (arithmetic_square_next _) fun b => ?_
  refine arithmetic_bind (arithmetic_triangle_next _) fun c => ?_
  exact arithmetic_wrap (arithmetic_noise_next _ _)

end Synth

end Chiptune
