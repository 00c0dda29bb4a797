import Chiptune.Proofs.PhaseClock
import Mathlib.Algebra.Order.Floor.Div
import Mathlib.GroupTheory.GroupAction.Ring

/-!
# The swing of the triangle

The steps of the triangle are whole levels, so a ramp misses its end by the rounding of every
step in it, and the fraction of a sample that is carried into a cycle decides how many steps a
ramp has. Nothing of this adds up over cycles: the end of a cycle puts the level back to the low
one.

`Bracketed` holds between any two samples of a note: the steps up that are still to come do not
lead above the peak, and the steps down that are still to come do not lead below the trough. Here
the peak is what the most steps up that a cycle can have give, and the trough what the most steps
down give when the climb before them gave nothing. A sample keeps it (`Bracketed.next`), also one
that is cut at the range of samples, since a cut never carries a level past the one before it
(`saturatingAdd_of_nonneg`, `saturatingAdd_of_nonpos`). So every sample of a note lies between the
two, however long it is held (`triangle_stays_between`).
-/

set_option autoImplicit false

namespace Chiptune

/-! ## Ramps -/

namespace Phase

/-- A climb that begins later is no longer. -/
theorem climbs_le_climbs_zero (p : Phase) (time : Nat) : p.climbs time ≤ p.climbs 0 := by
  unfold climbs
  omega

/-- A fall that begins at or behind the edge is no longer than one from the edge on. -/
theorem falls_le_of_edge_le {p : Phase} {time : Nat} (h : p.edge.units ≤ time) :
    p.falls time ≤ p.falls p.edge.units := by
  unfold falls
  omega

theorem climbs_zero_eq (p : Phase) : p.climbs 0 = max 1 (p.edge.units ⌈/⌉ 65536) := by
  rw [Nat.ceilDiv_eq_add_pred_div]
  unfold climbs
  omega

theorem falls_edge_eq (p : Phase) :
    p.falls p.edge.units = max 1 ((p.period.units - p.edge.units) ⌈/⌉ 65536) - 1 := by
  rw [Nat.ceilDiv_eq_add_pred_div]
  unfold falls
  omega

end Phase

namespace Triangle

theorem saturatingAdd_of_nonneg {a b : Int16} (hb : 0 ≤ b.toInt) :
    a.toInt ≤ (saturatingAdd a b).toInt ∧ (saturatingAdd a b).toInt ≤ a.toInt + b.toInt := by
  have hge : -32768 ≤ a.toInt := a.le_toInt
  have hle : a.toInt ≤ 32767 := a.toInt_le
  rw [toInt_saturatingAdd]
  omega

theorem saturatingAdd_of_nonpos {a b : Int16} (hb : b.toInt ≤ 0) :
    (saturatingAdd a b).toInt ≤ a.toInt ∧ a.toInt + b.toInt ≤ (saturatingAdd a b).toInt := by
  have hge : -32768 ≤ a.toInt := a.le_toInt
  have hle : a.toInt ≤ 32767 := a.toInt_le
  rw [toInt_saturatingAdd]
  omega

/-- The level that the most steps up from the low level lead to. -/
def peak (r : Triangle) : Int := r.low.toInt + r.phase.climbs 0 * r.up.toInt

/-- The level that the most steps down from the low level lead to. -/
def trough (r : Triangle) : Int := r.low.toInt + r.phase.falls r.phase.edge.units * r.down.toInt

/-- The level is between the trough and the peak, and so are those that the rest of the ramp
leads to. A climb starts from the low level at least. -/
structure Bracketed (r : Triangle) : Prop where
  regular : r.Regular
  ge_trough : r.trough ≤ r.current.toInt
  le_peak : r.current.toInt ≤ r.peak
  climbing : r.rising = true → r.low.toInt ≤ r.current.toInt ∧
    r.current.toInt + r.phase.climbs r.phase.time.units * r.up.toInt ≤ r.peak
  falling : r.rising = false →
    r.trough ≤ r.current.toInt + r.phase.falls r.phase.time.units * r.down.toInt

section Regular

variable {r : Triangle}

theorem Regular.climb_nonneg (h : r.Regular) (n : Nat) : 0 ≤ (n : Int) * r.up.toInt :=
  Int.mul_nonneg (Int.natCast_nonneg n) h.up_nonneg

theorem Regular.fall_nonpos (h : r.Regular) (n : Nat) : (n : Int) * r.down.toInt ≤ 0 :=
  Int.mul_nonpos_of_nonneg_of_nonpos (Int.natCast_nonneg n) h.down_nonpos

theorem Regular.low_le_peak (h : r.Regular) : r.low.toInt ≤ r.peak := by
  have hclimb := h.climb_nonneg (r.phase.climbs 0)
  unfold peak
  omega

theorem Regular.trough_le_low (h : r.Regular) : r.trough ≤ r.low.toInt := by
  have hfall := h.fall_nonpos (r.phase.falls r.phase.edge.units)
  unfold trough
  omega

/-- A climb from the low level stays below the peak, whenever it begins. -/
theorem Regular.climb_le_peak (h : r.Regular) (time : Nat) :
    r.low.toInt + r.phase.climbs time * r.up.toInt ≤ r.peak := by
  have hle : (r.phase.climbs time : Int) ≤ r.phase.climbs 0 := by
    exact_mod_cast r.phase.climbs_le_climbs_zero time
  have hscaled := Int.mul_le_mul_of_nonneg_right hle h.up_nonneg
  unfold peak
  omega

/-- A fall from the low level that begins at or behind the edge stays above the trough. -/
theorem Regular.trough_le_fall (h : r.Regular) {time : Nat} (htime : r.phase.edge.units ≤ time) :
    r.trough ≤ r.low.toInt + r.phase.falls time * r.down.toInt := by
  have hle : (r.phase.falls time : Int) ≤ r.phase.falls r.phase.edge.units := by
    exact_mod_cast Phase.falls_le_of_edge_le htime
  have hscaled := Int.mul_le_mul_of_nonpos_right hle h.down_nonpos
  unfold trough
  omega

/-- The time of a regular phase leaves room for the next sample. -/
theorem Regular.not_overflows (h : r.Regular) (hpos : r.phase.period ≠ Fixed.zero)
    (hle : r.phase.period.units ≤ 2 ^ 32 - 131072) : ¬ r.phase.Overflows := by
  have hunits := Fixed.units_pos hpos
  exact (h.within hpos).not_overflows (by omega)

end Regular

/-! ## Samples -/

section Samples

variable {r r' r₀ : Triangle}

theorem SameNote.refl (r : Triangle) : SameNote r r := ⟨rfl, rfl, rfl, rfl, rfl, rfl, rfl⟩

theorem SameNote.trans (h : SameNote r₀ r) (h' : SameNote r r') : SameNote r₀ r' where
  velocity_eq := h'.velocity_eq.trans h.velocity_eq
  low_eq := h'.low_eq.trans h.low_eq
  up_eq := h'.up_eq.trans h.up_eq
  down_eq := h'.down_eq.trans h.down_eq
  period_eq := h'.period_eq.trans h.period_eq
  edge_eq := h'.edge_eq.trans h.edge_eq
  duty_eq := h'.duty_eq.trans h.duty_eq

theorem SameNote.peak_eq (h : SameNote r r') : r'.peak = r.peak := by
  simp only [peak, Phase.climbs, h.low_eq, h.up_eq, h.edge_eq]

theorem SameNote.trough_eq (h : SameNote r r') : r'.trough = r.trough := by
  simp only [trough, Phase.falls, h.low_eq, h.down_eq, h.period_eq, h.edge_eq]

/-- At the low level a cycle lies ahead, whatever the time at which it begins. -/
theorem bracketed_of_low (h : r.Regular) (hrising : r.rising = true) (hlow : r.current = r.low) :
    r.Bracketed where
  regular := h
  ge_trough := by rw [hlow]; exact h.trough_le_low
  le_peak := by rw [hlow]; exact h.low_le_peak
  climbing := by
    intro _
    rw [hlow]
    exact ⟨Int.le_refl _, h.climb_le_peak _⟩
  falling := by
    intro hfalling
    rw [hrising] at hfalling
    cases hfalling

/-- A step up leads to a level of the same climb, or to the start of a fall. -/
theorem Bracketed.climb (h : r.Bracketed) (hsame : SameNote r r') (hregular : r'.Regular)
    (hrising : r.rising = true) (hx : r'.current = saturatingAdd r.current r.up)
    (hpart : r'.rising = decide (r.phase.time.units + 65536 < r.phase.edge.units))
    (htime : r'.phase.time.units = r.phase.time.units + 65536) : r'.Bracketed := by
  obtain ⟨hlow, hclimb⟩ := h.climbing hrising
  obtain ⟨hge, hle⟩ := saturatingAdd_of_nonneg (a := r.current) h.regular.up_nonneg
  rw [← hx] at hge hle
  have hstep := step_le_top h.regular r.current.toInt r.phase.time.units
  have htrough := h.ge_trough
  have hclimbs : r'.phase.climbs = r.phase.climbs := by
    funext time
    simp only [Phase.climbs, hsame.edge_eq]
  refine ⟨hregular, ?_, ?_, ?_, ?_⟩
  · rw [hsame.trough_eq]
    omega
  · rw [hsame.peak_eq]
    unfold top at hstep
    omega
  · -- one step is made, and the others of the climb are still to come
    intro hstay
    rw [hpart] at hstay
    rw [hsame.low_eq, hsame.up_eq, hsame.peak_eq, hclimbs, htime]
    rw [Phase.climbs_of_lt (of_decide_eq_true hstay), Int.natCast_add, Int.natCast_one,
      Int.add_mul, Int.one_mul] at hclimb
    omega
  · -- the fall begins at or behind the edge, and not below the low level
    intro hturn
    rw [hpart] at hturn
    have hedge : r'.phase.edge.units ≤ r'.phase.time.units := by
      rw [hsame.edge_eq, htime]
      exact Nat.not_lt.1 (of_decide_eq_false hturn)
    have hfall := hregular.trough_le_fall hedge
    rw [hsame.low_eq] at hfall
    omega

/-- A step down leads to a level of the same fall. -/
theorem Bracketed.fall (h : r.Bracketed) (hsame : SameNote r r') (hregular : r'.Regular)
    (hfalling : r.rising = false) (hx : r'.current = saturatingAdd r.current r.down)
    (hpart : r'.rising = false)
    (hinside : r.phase.time.units + 65536 < r.phase.period.units)
    (htime : r'.phase.time.units = r.phase.time.units + 65536) : r'.Bracketed := by
  have hfall := h.falling hfalling
  rw [Phase.falls_of_lt hinside, Int.natCast_add, Int.natCast_one, Int.add_mul, Int.one_mul]
    at hfall
  obtain ⟨hle, hge⟩ := saturatingAdd_of_nonpos (a := r.current) h.regular.down_nonpos
  rw [← hx] at hge hle
  have hrest := h.regular.fall_nonpos (r.phase.falls (r.phase.time.units + 65536))
  have hpeak := h.le_peak
  have hfalls : r'.phase.falls = r.phase.falls := by
    funext time
    simp only [Phase.falls, hsame.period_eq]
  refine ⟨hregular, ?_, ?_, ?_, ?_⟩
  · rw [hsame.trough_eq]
    omega
  · rw [hsame.peak_eq]
    omega
  · intro hrising
    rw [hpart] at hrising
    cases hrising
  · intro _
    rw [hsame.trough_eq, hsame.down_eq, hfalls, htime]
    omega

/-- How a sample goes on from the level before it: up in the first part of the cycle, down in
the second one, and back to the low level at its end. -/
structure Follows (r r' : Triangle) : Prop where
  rises : r.rising = true → r.current.toInt ≤ r'.current.toInt
  falls : r.rising = false → r'.rising = false → r'.current.toInt ≤ r.current.toInt
  resets : r.rising = false → r'.rising = true → r'.current = r.low

theorem Regular.follows (h : r.Regular)
    (hx : r'.current = if r.rising then saturatingAdd r.current r.up
      else if r'.rising then r.low else saturatingAdd r.current r.down) : r.Follows r' := by
  constructor
  · intro hrising
    rw [hx, if_pos hrising]
    exact (saturatingAdd_of_nonneg h.up_nonneg).1
  · intro hfalling hfalling'
    rw [hx, hfalling, hfalling']
    exact (saturatingAdd_of_nonpos h.down_nonpos).1
  · intro hfalling hrising'
    rw [hx, hfalling, hrising']
    rfl

/-- The next sample is there and keeps the level bracketed. -/
theorem Bracketed.next (h : r.Bracketed) (hpos : r.phase.period ≠ Fixed.zero)
    (hle : r.phase.period.units ≤ 2 ^ 32 - 131072) :
    ∃ r', r.next = .ok (r'.current, r') ∧ SameNote r r' ∧ r'.Bracketed ∧
      r.phase.Tick r.rising r'.phase r'.rising ∧ r.Follows r' := by
  obtain ⟨r', hok, htick, hx⟩ := next_tick hpos (h.regular.not_overflows hpos hle)
  obtain ⟨hsame, -⟩ := next_eq_ok hok
  have hregular := h.regular.next hok
  refine ⟨r', hok, hsame, ?_, htick, h.regular.follows hx⟩
  rcases htick.time_cases with ⟨hrising, hpart, htime⟩ | ⟨hfalling, hpart, hinside, htime⟩ |
    ⟨hfalling, hpart, -, -⟩
  · rw [if_pos hrising] at hx
    exact h.climb hsame hregular hrising hx hpart htime
  · simp only [hfalling, hpart, Bool.false_eq_true, if_false] at hx
    exact h.fall hsame hregular hfalling hx hpart hinside htime
  · simp only [hfalling, hpart, Bool.false_eq_true, if_false, if_true] at hx
    exact bracketed_of_low hregular hpart (hx.trans hsame.low_eq.symm)

end Samples

/-! ## Notes -/

/-- A note starts at the low level, at the beginning of a climb. -/
theorem bracketed_noteOn (r : Triangle) (t : Tuning) (note velocity : UInt8) :
    (r.performed t (.noteOn note velocity)).Bracketed := by
  refine bracketed_of_low ?_ rfl rfl
  apply ramped_regular
  intro hpos
  exact Phase.within_start _ (Fixed.units_pos hpos) (Nat.le_refl _)

/-- The triangle after some samples of a note. Its level is that of the last one. -/
structure InNote (r₀ : Triangle) (xs : List Int16) (r : Triangle) : Prop where
  same : SameNote r₀ r
  bracketed : r.Bracketed
  current_eq : r.current = xs.getLast?.getD r₀.low

theorem InNote.next {r₀ r : Triangle} {xs : List Int16} (h : InNote r₀ xs r)
    (hpos : r₀.phase.period ≠ Fixed.zero) (hle : r₀.phase.period.units ≤ 2 ^ 32 - 131072) :
    ∃ x r', r.next = .ok (x, r') ∧ InNote r₀ (xs ++ [x]) r' ∧ r'.current = x ∧
      r.phase.Tick r.rising r'.phase r'.rising ∧ r.Follows r' := by
  rw [← h.same.period_eq] at hpos hle
  obtain ⟨r', hok, hsame, hbracketed, htick, hfollows⟩ := h.bracketed.next hpos hle
  refine ⟨r'.current, r', hok, ⟨h.same.trans hsame, hbracketed, ?_⟩, rfl, htick, hfollows⟩
  simp

/-- A triangle with any past and any duty, after the start of a note with any velocity and any
period up to 65534 samples. However long the note is held, every sample is there and lies between
the levels that the most steps down and the most steps up of a cycle lead to from the low level.
It is not below the sample before it in the first part of a cycle, not above it in the second one,
and it is the low level where the phase wraps. -/
theorem triangle_stays_between (r : Triangle) (t : Tuning) (note velocity : UInt8)
    (hpos : 0 < (t.period note).units) (hle : (t.period note).units ≤ 2 ^ 32 - 131072) :
    ∃ r₀, r.noteOn t note velocity = .ok r₀ ∧ ∀ n, ∃ xs r₁ x r₂,
      samples next n r₀ = .ok (xs, r₁) ∧ r₁.next = .ok (x, r₂) ∧
      r₁.phase.Tick r₁.rising r₂.phase r₂.rising ∧
      let period := (t.period note).units
      let edge := r₀.phase.edge.units
      let low := r₀.low.toInt
      let before := (xs.getLast?.getD r₀.low).toInt
      low + (max 1 ((period - edge) ⌈/⌉ 65536) - 1 : Nat) * r₀.down.toInt ≤ x.toInt ∧
        x.toInt ≤ low + (max 1 (edge ⌈/⌉ 65536) : Nat) * r₀.up.toInt ∧
        (r₁.rising = true → before ≤ x.toInt) ∧
        (r₁.rising = false → r₂.rising = false → x.toInt ≤ before) ∧
        (r₁.rising = false → r₂.rising = true → x = r₀.low) := by
  refine ⟨_, r.perform_eq t (.noteOn note velocity), fun n => ?_⟩
  have hstart : InNote (r.performed t (.noteOn note velocity)) []
      (r.performed t (.noteOn note velocity)) :=
    ⟨SameNote.refl _, bracketed_noteOn r t note velocity, rfl⟩
  have hperiod : (r.performed t (.noteOn note velocity)).phase.period = t.period note := rfl
  generalize r.performed t (.noteOn note velocity) = r₀ at hstart hperiod ⊢
  rw [← hperiod] at hpos hle ⊢
  have hne : r₀.phase.period ≠ Fixed.zero := by
    intro hzero
    rw [hzero] at hpos
    exact Nat.lt_irrefl _ hpos
  obtain ⟨xs, r₁, hsamples, hin⟩ := samples_keep (P := fun _ xs u => InNote r₀ xs u) hstart
    (fun _ _ u hu => by
      obtain ⟨x, u', hnext, hu', -⟩ := hu.next hne hle
      exact ⟨x, u', hnext, hu'⟩) n
  obtain ⟨x, r₂, hnext, hin', hx, htick, hfollows⟩ := hin.next hne hle
  have htrough := hin'.bracketed.ge_trough
  have hpeak := hin'.bracketed.le_peak
  rw [hin'.same.trough_eq, hx, trough, Phase.falls_edge_eq] at htrough
  rw [hin'.same.peak_eq, hx, peak, Phase.climbs_zero_eq] at hpeak
  refine ⟨xs, r₁, x, r₂, hsamples, hnext, htick, htrough, hpeak, ?_, ?_, ?_⟩
  · rw [← hin.current_eq, ← hx]
    exact hfollows.rises
  · rw [← hin.current_eq, ← hx]
    exact hfollows.falls
  · rw [← hx, ← hin.same.low_eq]
    exact hfollows.resets

/-- A cycle of seven and a half samples, with at most five steps of 713 and three of -1018. The
first cycle climbs to the bound. -/
theorem triangle_stays_between_for_short_cycles :
    let t : Tuning := ⟨48000, Vector.replicate 128 ⟨500000⟩⟩
    0 < (t.period 69).units ∧ (t.period 69).units ≤ 2 ^ 32 - 131072 ∧
      ∃ r₀, (fresh 150).noteOn t 69 100 = .ok r₀ ∧ r₀.low = -1600 ∧
        (∃ r₁, samples next 9 r₀ =
          .ok ([-887, -174, 539, 1252, 1965, 947, -71, -1600, -887], r₁)) ∧
        ∀ n, ∃ xs r₁ x r₂,
          samples next n r₀ = .ok (xs, r₁) ∧ r₁.next = .ok (x, r₂) ∧
          -4654 ≤ x.toInt ∧ x.toInt ≤ 1965 ∧
          (r₁.rising = false → r₂.rising = true → x.toInt = -1600) := by
  intro t
  have hperiod : t.period 69 = ⟨500000⟩ := Tuning.period_uniform _ _ _
  have hpos : 0 < (t.period 69).units := by rw [hperiod]; decide
  have hle : (t.period 69).units ≤ 2 ^ 32 - 131072 := by rw [hperiod]; decide
  obtain ⟨r₀, hon, hsamples⟩ := triangle_stays_between (fresh 150) t 69 100 hpos hle
  have heval : ((fresh 150).noteOn t 69 100).toOption.map
      (fun r => (r.phase.edge.units, r.low, r.up.toInt, r.down.toInt)) =
        some (294000, -1600, 713, -1018) := by
    decide +kernel
  have hcycle : (((fresh 150).noteOn t 69 100).toOption.bind fun r =>
      (samples next 9 r).toOption).map Prod.fst =
        some [-887, -174, 539, 1252, 1965, 947, -71, -1600, -887] := by
    decide +kernel
  rw [hon] at heval hcycle
  injection heval with hvalues
  simp only [Prod.mk.injEq] at hvalues
  obtain ⟨hedge, hlow, hup, hdown⟩ := hvalues
  obtain ⟨⟨ys, r₁⟩, hys, rfl⟩ := exists_ok_of_toOption (x := samples next 9 r₀) hcycle
  have hlow' : r₀.low.toInt = -1600 := by rw [hlow]; rfl
  have hfalls : max 1 (((⟨500000⟩ : Fixed).units - 294000) ⌈/⌉ 65536) - 1 = 3 := by decide +kernel
  have hclimbs : max 1 (294000 ⌈/⌉ 65536) = 5 := by decide +kernel
  refine ⟨hpos, hle, r₀, hon, hlow, ⟨r₁, hys⟩, fun n => ?_⟩
  obtain ⟨xs, r₁, x, r₂, hok, hnext, -, hge, hpeak, -, -, hwrap⟩ := hsamples n
  rw [hlow', hdown, hperiod, hedge, hfalls] at hge
  rw [hlow', hup, hedge, hclimbs] at hpeak
  refine ⟨xs, r₁, x, r₂, hok, hnext, hge, hpeak, fun hfalling hrising => ?_⟩
  rw [hwrap hfalling hrising, hlow']

end Triangle

end Chiptune
