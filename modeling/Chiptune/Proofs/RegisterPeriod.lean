import Chiptune.Proofs.NoiseDraws
import Mathlib.Data.Int.CardIntervalMod
import Mathlib.Data.Nat.Prime.Basic
import Mathlib.Dynamics.PeriodicPts.Defs
import Mathlib.Tactic.NormNum.Prime

/-!
# The period of the shift register

A step of the register respects exclusive or (`step_xor`), and sixteen steps take the top bit
through all single bits. A map that respects exclusive or and steps is therefore known from what it
does to the top bit (`Linear.ext`): the words are polynomials over two elements, a step multiplies by
the unknown, and the top bit is one. Powers of a step are found by repeated squaring (`power_eq`).

So 65535 steps are the identity because they are on one word. That no word but zero comes back
earlier needs one more equation for each prime factor `q` of 65535: a word and itself `65535 / q`
steps later add up to the word some number of steps later (`iterate_xor_self`). That is never zero,
and the period is 65535 (`minimalPeriod_step`). In one period the register comes to each word but
zero, and half of all words are odd (`register_has_full_period`).
-/

set_option autoImplicit false

namespace Chiptune

/-- The bits after the first ones are drawn from what these have left. -/
theorem BitSource.take_add {ρ : Type} [BitSource ρ] (j k : Nat) (source : ρ) :
    take (j + k) source =
      ((take j source).1 ++ (take k (take j source).2).1, (take k (take j source).2).2) := by
  induction k with
  | zero => simp [take]
  | succ k ih => rw [← Nat.add_assoc, take_succ, ih, take_succ, List.append_assoc]

namespace Lfsr

open Function

/-! ## A step -/

/-- The state after one more bit. -/
def step (w : UInt16) : UInt16 := (draw ⟨w⟩).2.state

/-- What a step feeds back. -/
def feedback (w : UInt16) : UInt16 := if w.toNat % 2 = 1 then taps else 0

theorem and_one_eq_one_iff (w : UInt16) : w &&& 1 = 1 ↔ w.toNat % 2 = 1 := by
  rw [← UInt16.toNat_inj, UInt16.toNat_and]
  show w.toNat &&& 1 = 1 ↔ _
  rw [Nat.and_one_is_mod]

theorem draw_eq (w : UInt16) : draw ⟨w⟩ = (decide (w.toNat % 2 = 1), ⟨step w⟩) := by
  have hlow := and_one_eq_one_iff w
  simp only [step, draw]
  by_cases hodd : w.toNat % 2 = 1
  · rw [if_pos (hlow.2 hodd), decide_eq_true hodd]
  · rw [if_neg (mt hlow.1 hodd), decide_eq_false hodd]

theorem step_eq (w : UInt16) : step w = (w >>> 1) ^^^ feedback w := by
  have hlow := and_one_eq_one_iff w
  simp only [step, draw, feedback, hlow]
  split
  · rfl
  · exact UInt16.xor_zero.symm

theorem feedback_xor (a b : UInt16) : feedback (a ^^^ b) = feedback a ^^^ feedback b := by
  have hparity : (a ^^^ b).toNat % 2 = (a.toNat % 2) ^^^ (b.toNat % 2) := by
    rw [UInt16.toNat_xor]
    exact Nat.xor_mod_two_pow (n := 1)
  simp only [feedback, hparity]
  rcases Nat.mod_two_eq_zero_or_one a.toNat with ha | ha <;>
    rcases Nat.mod_two_eq_zero_or_one b.toNat with hb | hb <;> rw [ha, hb] <;> decide

theorem step_xor (a b : UInt16) : step (a ^^^ b) = step a ^^^ step b := by
  rw [step_eq, step_eq, step_eq, UInt16.shiftRight_xor, feedback_xor]
  ac_rfl

theorem toNat_step_of_even {w : UInt16} (heven : w.toNat % 2 = 0) :
    (step w).toNat = w.toNat / 2 := by
  have hodd : ¬ w.toNat % 2 = 1 := by omega
  rw [step_eq, feedback, if_neg hodd, UInt16.xor_zero, UInt16.toNat_shiftRight]
  exact Nat.shiftRight_eq_div_pow _ 1

/-! ## Maps that respect exclusive or and steps -/

/-- The map respects exclusive or and commutes with a step. -/
structure Linear (f : UInt16 → UInt16) : Prop where
  map_xor : ∀ a b, f (a ^^^ b) = f a ^^^ f b
  map_step : ∀ w, f (step w) = step (f w)

theorem linear_id : Linear id := ⟨fun _ _ => rfl, fun _ => rfl⟩

theorem linear_iterate (n : Nat) : Linear step^[n] where
  map_xor a b := by
    induction n generalizing a b with
    | zero => rfl
    | succ n ih => rw [iterate_succ_apply, iterate_succ_apply, iterate_succ_apply, step_xor, ih]
  map_step := Commute.iterate_self step n

section Linear

variable {f g : UInt16 → UInt16}

theorem Linear.add (hf : Linear f) (hg : Linear g) : Linear fun w => f w ^^^ g w where
  map_xor a b := by
    rw [hf.map_xor, hg.map_xor]
    ac_rfl
  map_step w := by
    rw [hf.map_step, hg.map_step, step_xor]

theorem Linear.map_zero (hf : Linear f) : f 0 = 0 := by
  have h := hf.map_xor 0 0
  rwa [UInt16.xor_self, UInt16.xor_self] at h

end Linear

/-! ## Products -/

/-- The word that is one: the others are sums of its steps. -/
def topBit : UInt16 := 0x8000

/-- The sum of the steps of `b` that the low `k` bits of `a` name, the highest of them first. -/
def productUpTo : Nat → UInt16 → UInt16 → UInt16
  | 0, _, _ => 0
  -- by Horner's rule: what the lower bits name goes one step further
  | k + 1, a, b => (if a.toNat.testBit k then b else 0) ^^^ step (productUpTo k a b)

def product (a b : UInt16) : UInt16 := productUpTo 16 a b

theorem Linear.map_productUpTo {f : UInt16 → UInt16} (hf : Linear f) (k : Nat) (a b : UInt16) :
    f (productUpTo k a b) = productUpTo k a (f b) := by
  induction k with
  | zero => exact hf.map_zero
  | succ k ih =>
    rw [productUpTo, productUpTo, hf.map_xor, hf.map_step, ih]
    congr 1
    split
    · rfl
    · exact hf.map_zero

theorem toNat_topBit_xor {w : UInt16} (hw : w.toNat < 2 ^ 15) :
    (topBit ^^^ w).toNat = 2 ^ 15 + w.toNat := by
  have hxor : (topBit ^^^ w).toNat = 2 ^ 15 ^^^ w.toNat := UInt16.toNat_xor _ _
  have hhigh : (2 ^ 15 ^^^ w.toNat) / 2 ^ 15 = 1 := by
    rw [Nat.xor_div_two_pow, Nat.div_eq_of_lt hw]
    rfl
  have hlow : (2 ^ 15 ^^^ w.toNat) % 2 ^ 15 = w.toNat := by
    rw [Nat.xor_mod_two_pow, Nat.mod_eq_of_lt hw, Nat.mod_self, Nat.zero_xor]
  rw [hxor]
  omega

/-- The steps of the top bit put the low `k` bits of a word in its highest places. -/
theorem toNat_productUpTo_topBit (a : UInt16) {k : Nat} (hk : k ≤ 16) :
    (productUpTo k a topBit).toNat = a.toNat % 2 ^ k * 2 ^ (16 - k) := by
  induction k with
  | zero => simp [productUpTo, Nat.mod_one]
  | succ k ih =>
    -- what is there moves down one place, and the next bit comes in at the top
    have hplaces : 2 ^ (16 - k) = 2 * 2 ^ (15 - k) := by
      rw [← Nat.pow_succ', ← Nat.succ_sub (by omega)]
    have hword : (productUpTo k a topBit).toNat = 2 * (a.toNat % 2 ^ k * 2 ^ (15 - k)) := by
      rw [ih (by omega), hplaces, Nat.mul_left_comm]
    have hstep : (step (productUpTo k a topBit)).toNat = a.toNat % 2 ^ k * 2 ^ (15 - k) := by
      rw [toNat_step_of_even (by omega), hword, Nat.mul_div_cancel_left _ (by decide)]
    have hbelow : (step (productUpTo k a topBit)).toNat < 2 ^ 15 := by
      have hlt := (productUpTo k a topBit).toNat_lt
      omega
    have htop : 2 ^ k * 2 ^ (15 - k) = 2 ^ 15 := by
      rw [← Nat.pow_add]
      congr 1
      omega
    rw [productUpTo, Nat.testBit_eq_decide_div_mod_eq, Nat.mod_pow_succ, Nat.add_mul,
      Nat.add_sub_add_right 15 1 k, ← hstep]
    rcases Nat.mod_two_eq_zero_or_one (a.toNat / 2 ^ k) with hbit | hbit
    · rw [hbit]
      simp
    · rw [hbit]
      simp only [decide_true, if_true, toNat_topBit_xor hbelow, Nat.mul_one, htop]
      omega

/-- The top bit is one. -/
theorem product_topBit (a : UInt16) : product a topBit = a := by
  apply UInt16.toNat_inj.1
  rw [product, toNat_productUpTo_topBit a (Nat.le_refl 16), Nat.mod_eq_of_lt a.toNat_lt]
  exact Nat.mul_one _

theorem Linear.eq_product {f : UInt16 → UInt16} (hf : Linear f) (w : UInt16) :
    f w = product w (f topBit) := by
  conv_lhs => rw [← product_topBit w]
  exact hf.map_productUpTo 16 w topBit

/-- Two linear maps that agree on the top bit agree. -/
theorem Linear.ext {f g : UInt16 → UInt16} (hf : Linear f) (hg : Linear g)
    (h : f topBit = g topBit) (w : UInt16) : f w = g w := by
  rw [hf.eq_product, hg.eq_product, h]

/-! ## Powers of a step -/

/-- The top bit after `n` steps, by repeated squaring, for `n` below `2 ^ k`. -/
def power : Nat → Nat → UInt16
  | 0, _ => topBit
  | k + 1, n =>
      let square := product (power k (n / 2)) (power k (n / 2))
      if n % 2 = 1 then step square else square

theorem power_eq {k n : Nat} (h : n < 2 ^ k) : power k n = step^[n] topBit := by
  induction k generalizing n with
  | zero =>
    obtain rfl : n = 0 := by omega
    rfl
  | succ k ih =>
    have hhalf : power k (n / 2) = step^[n / 2] topBit := ih (by omega)
    have hsquare : product (power k (n / 2)) (power k (n / 2)) = step^[n / 2 + n / 2] topBit := by
      rw [hhalf, ← (linear_iterate (n / 2)).eq_product, iterate_add_apply]
    simp only [power, hsquare]
    split
    · rw [← iterate_succ_apply' step]
      congr 1
      omega
    · congr 1
      omega

theorem iterate_period (w : UInt16) : step^[65535] w = w := by
  refine (linear_iterate 65535).ext linear_id ?_ w
  rw [← power_eq (k := 16) (by decide)]
  decide +kernel

theorem step_injective : Injective step := by
  intro a b h
  have hback := congrArg step^[65534] h
  rwa [← iterate_succ_apply, ← iterate_succ_apply, iterate_period, iterate_period] at hback

theorem iterate_ne_zero {w : UInt16} (hw : w ≠ 0) (n : Nat) : step^[n] w ≠ 0 := by
  intro hzero
  rw [← (linear_iterate n).map_zero] at hzero
  exact hw (step_injective.iterate n hzero)

/-- If the top bit and itself `k` steps later add up to the top bit `m` steps later, then so it is
for any word. -/
theorem iterate_xor_self {k m : Nat} (hk : k < 2 ^ 16) (hm : m < 2 ^ 16)
    (h : power 16 k ^^^ topBit = power 16 m) (w : UInt16) : step^[k] w ^^^ w = step^[m] w := by
  rw [power_eq hk, power_eq hm] at h
  exact ((linear_iterate k).add linear_id).ext (linear_iterate m) h w

/-- Then no word but zero comes back after `k` steps. -/
theorem eq_zero_of_iterate_eq {k m : Nat} (hk : k < 2 ^ 16) (hm : m < 2 ^ 16)
    (h : power 16 k ^^^ topBit = power 16 m) {w : UInt16} (hback : step^[k] w = w) : w = 0 := by
  have hsum := iterate_xor_self hk hm h w
  rw [hback, UInt16.xor_self] at hsum
  by_contra hw
  exact iterate_ne_zero hw m hsum.symm

/-- No word but zero comes back after a prime part of the period. -/
theorem eq_zero_of_early {q : Nat} (hprime : q.Prime) (hdvd : q ∣ 65535) {w : UInt16}
    (hback : step^[65535 / q] w = w) : w = 0 := by
  have hfactors : q ∣ 3 * 5 * 17 * 257 := hdvd
  rw [hprime.dvd_mul, hprime.dvd_mul, hprime.dvd_mul,
    Nat.prime_dvd_prime_iff_eq hprime (by norm_num), Nat.prime_dvd_prime_iff_eq hprime (by norm_num),
    Nat.prime_dvd_prime_iff_eq hprime (by norm_num),
    Nat.prime_dvd_prime_iff_eq hprime (by norm_num)] at hfactors
  -- each `m` was found by a search from the top bit, and only the equation for it matters
  rcases hfactors with ((rfl | rfl) | rfl) | rfl
  · exact eq_zero_of_iterate_eq (m := 43690) (by decide) (by decide) (by decide +kernel) hback
  · exact eq_zero_of_iterate_eq (m := 61166) (by decide) (by decide) (by decide +kernel) hback
  · exact eq_zero_of_iterate_eq (m := 8481) (by decide) (by decide) (by decide +kernel) hback
  · exact eq_zero_of_iterate_eq (m := 12849) (by decide) (by decide) (by decide +kernel) hback

theorem minimalPeriod_step {w : UInt16} (hw : w ≠ 0) : minimalPeriod step w = 65535 := by
  have hperiod : IsPeriodicPt step 65535 w := iterate_period w
  obtain ⟨a, ha⟩ := hperiod.minimalPeriod_dvd
  by_contra hne
  have hone : a ≠ 1 := by
    rintro rfl
    omega
  -- a shorter period leaves out a prime factor, and divides what remains
  have hfactor : a.minFac ∣ 65535 := (Nat.minFac_dvd a).trans (Dvd.intro_left _ ha.symm)
  have hdvd : minimalPeriod step w ∣ 65535 / a.minFac := by
    rw [Nat.dvd_div_iff_mul_dvd hfactor, Nat.mul_comm]
    exact ha ▸ Nat.mul_dvd_mul_left _ (Nat.minFac_dvd a)
  exact hw (eq_zero_of_early (Nat.minFac_prime hone) hfactor
    (isPeriodicPt_iff_minimalPeriod_dvd.2 hdvd))

/-! ## One period -/

section Period

variable {w : UInt16} (hw : w ≠ 0)

include hw

theorem iterate_injOn : Set.InjOn (fun i => (step^[i] w).toNat) (Finset.range 65535) := by
  rw [Finset.coe_range, ← minimalPeriod_step hw]
  intro i hi j hj h
  exact iterate_injOn_Iio_minimalPeriod hi hj (UInt16.toNat_inj.1 h)

/-- In one period the register comes to every word but zero. -/
theorem image_iterate :
    (Finset.range 65535).image (fun i => (step^[i] w).toNat) = Finset.Ico 1 65536 := by
  apply Finset.eq_of_subset_of_card_le
  · intro n hn
    obtain ⟨i, -, rfl⟩ := Finset.mem_image.1 hn
    have hpos : (step^[i] w).toNat ≠ 0 := fun h => iterate_ne_zero hw i (UInt16.toNat_inj.1 h)
    exact Finset.mem_Ico.2 ⟨Nat.pos_of_ne_zero hpos, (step^[i] w).toNat_lt⟩
  · rw [Finset.card_image_of_injOn (iterate_injOn hw), Finset.card_range, Nat.card_Ico]

/-- Each odd word comes once, and half of all words are odd. -/
theorem count_odd : Nat.count (fun i => (step^[i] w).toNat % 2 = 1) 65535 = 32768 := by
  have hodd : (Finset.Ico 1 65536).filter (· % 2 = 1) =
      (Finset.range 65536).filter (· ≡ 1 [MOD 2]) := by
    ext n
    rw [Finset.mem_filter, Finset.mem_filter, Finset.mem_Ico, Finset.mem_range, Nat.ModEq]
    omega
  calc Nat.count (fun i => (step^[i] w).toNat % 2 = 1) 65535
      = (((Finset.range 65535).image fun i => (step^[i] w).toNat).filter (· % 2 = 1)).card := by
        rw [Nat.count_eq_card_filter_range, Finset.filter_image,
          Finset.card_image_of_injOn ((iterate_injOn hw).mono (Finset.filter_subset _ _))]
    _ = Nat.count (· ≡ 1 [MOD 2]) 65536 := by
        rw [image_iterate hw, hodd, Nat.count_eq_card_filter_range]
    _ = 32768 := by
        rw [Nat.count_modEq_card _ (by decide)]
        rfl

end Period

/-! ## The bits of a register -/

theorem take_state (w : UInt16) (k : Nat) : (BitSource.take k (⟨w⟩ : Lfsr)).2 = ⟨step^[k] w⟩ := by
  induction k with
  | zero => rfl
  | succ k ih =>
    rw [BitSource.take_succ, ih, iterate_succ_apply']
    exact congrArg Prod.snd (draw_eq _)

/-- A bit is set if the word that gives it is odd. -/
theorem count_take (w : UInt16) (k : Nat) :
    (BitSource.take k (⟨w⟩ : Lfsr)).1.count true =
      Nat.count (fun i => (step^[i] w).toNat % 2 = 1) k := by
  induction k with
  | zero => rfl
  | succ k ih =>
    have hbit : (BitSource.draw (⟨step^[k] w⟩ : Lfsr)).1 = decide ((step^[k] w).toNat % 2 = 1) :=
      congrArg Prod.fst (draw_eq _)
    rw [BitSource.take_succ, take_state, List.count_append, ih, hbit, Nat.count_succ]
    congr 1
    split <;> simp [*]

theorem seeded_ne_zero (seed : UInt16) : (seeded seed).state ≠ 0 := by
  simp only [seeded]
  split
  · decide
  · assumption

/-- A register with any seed. Its state is never zero, the first 65535 states differ, the one after
them is the first again, and of any 65535 bits in a row 32768 are set. -/
theorem register_has_full_period (seed : UInt16) :
    let after (k : Nat) : Lfsr := (BitSource.take k (seeded seed)).2
    (∀ k, (after k).state ≠ 0) ∧
    ((List.range 65535).map fun k => (after k).state).Nodup ∧
    (after 65535).state = (after 0).state ∧
    ∀ j, ((BitSource.take (j + 65535) (seeded seed)).1.drop j).count true = 32768 := by
  intro after
  have hseed := seeded_ne_zero seed
  have hafter (k : Nat) : after k = ⟨step^[k] (seeded seed).state⟩ := take_state _ k
  refine ⟨?_, ?_, ?_, ?_⟩
  · intro k
    rw [hafter]
    exact iterate_ne_zero hseed k
  · refine List.nodup_range.map_on fun i hi j hj h => ?_
    have hi' : i ∈ Finset.range 65535 := Finset.mem_range.2 (List.mem_range.1 hi)
    have hj' : j ∈ Finset.range 65535 := Finset.mem_range.2 (List.mem_range.1 hj)
    rw [hafter, hafter] at h
    exact iterate_injOn hseed hi' hj' (congrArg UInt16.toNat h)
  · rw [hafter, hafter, iterate_period]
    rfl
  · intro j
    have hwindow : (BitSource.take (j + 65535) (seeded seed)).1.drop j =
        (BitSource.take 65535 (after j)).1 := by
      rw [BitSource.take_add, List.drop_left' (BitSource.length_take j _)]
    rw [hwindow, hafter, count_take]
    exact count_odd (iterate_ne_zero hseed j)

end Lfsr

end Chiptune
