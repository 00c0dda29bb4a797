import Chiptune.Proofs.Limits
import Chiptune.Proofs.Release

/-!
# The headroom of the mix

The two squares and the noise never leave −8160..8160, so a sample has room for a
triangle within −8288..8287 (`Headroom`). A note of the triangle swings by 4080 to
either side, but its steps are rounded, it passes the edge of its cycle by up to a
sample, and a short edge makes the last step a large one.

`Triangle.Fits` says that the level stays within the headroom as long as the
triangle goes on as it is: up to the edge by as many steps as it takes
(`Phase.climbs`), down to the end of the cycle (`Phase.falls`), and so in every
later cycle, however late the sample that begins it. Samples keep it
(`Fits.next`), and a note has it when its rising part is not too short and its
period not too long (`fits_noteOn`). In a run in which every new note or duty
leaves the triangle fitting, the mix is the exact sum (`mix_exact_of_fitting`).
-/

set_option autoImplicit false

namespace Chiptune

/-- The level leaves room for three voices at their limit. -/
def Headroom (x : Int) : Prop := -8288 ≤ x ∧ x ≤ 8287

instance (x : Int) : Decidable (Headroom x) := inferInstanceAs (Decidable (_ ∧ _))

/-! ## The steps of the ramps -/

theorem Fixed.div?_of_ne_zero (a : Fixed) {b : Fixed} (h : b ≠ zero) :
    ∃ c, a.div? b = some c ∧ c.units = a.units * 65536 / b.units % 4294967296 := by
  have hlt := a.units_lt
  have hshift : (a.raw.toUInt64 <<< 16).toNat = a.units * 65536 := by
    rw [UInt64.toNat_shiftLeft, UInt32.toNat_toUInt64, Nat.shiftLeft_eq]
    show a.units * 65536 % 18446744073709551616 = _
    omega
  have hquotient : ((a.raw.toUInt64 <<< 16) / b.raw.toUInt64).toNat = a.units * 65536 / b.units := by
    rw [UInt64.toNat_div, hshift, UInt32.toNat_toUInt64]
    rfl
  refine ⟨⟨((a.raw.toUInt64 <<< 16) / b.raw.toUInt64).toUInt32⟩, if_neg h, ?_⟩
  exact (UInt64.toNat_toUInt32 _).trans (congrArg (· % 4294967296) hquotient)

namespace Triangle

theorem rampStep_zero (swing : UInt16) : rampStep swing Fixed.zero = 0 := rfl

theorem toInt_ofNat_min (n : Nat) : (Int16.ofNat (min n 32767)).toInt = (min n 32767 : Nat) := by
  have hsize : Int16.size = 65536 := rfl
  rw [Int16.toInt_ofNat']
  exact Int.bmod_eq_of_le (by omega) (by omega)

/-- A step is the swing over the span, rounded; for a span no shorter than a sample
nothing is cut off. -/
theorem rampStep_spec (swing : UInt16) (span : Fixed) :
    ∃ n : Nat, (rampStep swing span).toInt = n ∧
      2 * (n * span.units) ≤ 131072 * swing.toNat + span.units ∧
      (65536 ≤ span.units → swing.toNat ≤ 8160 →
        131072 * swing.toNat < 2 * (n * span.units) + span.units) := by
  by_cases hzero : span = Fixed.zero
  · subst hzero
    refine ⟨0, congrArg Int16.toInt (rampStep_zero swing), ?_, ?_⟩
    · rw [Nat.zero_mul]
      exact Nat.zero_le _
    · intro hlong
      exact absurd hlong (by decide)
  · obtain ⟨step, hstep, hunits⟩ := Fixed.div?_of_ne_zero (Fixed.ofInteger swing) hzero
    have hpos := Fixed.units_pos hzero
    have hround := step.toNat_toInteger
    rw [Fixed.units_ofInteger, Nat.mul_assoc] at hunits
    have hvalue : rampStep swing span = Int16.ofNat (min step.toInteger.toNat 32767) := by
      simp only [rampStep, hstep]
    refine ⟨min step.toInteger.toNat 32767, ?_, ?_, ?_⟩
    · rw [hvalue, toInt_ofNat_min]
    · -- what is cut off only makes the step smaller
      generalize hn : min step.toInteger.toNat 32767 = n
      have hle : n * 65536 ≤ step.units + 32768 := by omega
      have hdiv : step.units * span.units ≤ swing.toNat * (65536 * 65536) := by
        refine Nat.le_trans (Nat.mul_le_mul_right _ ?_) (Nat.div_mul_le_self _ span.units)
        rw [hunits]
        exact Nat.mod_le _ _
      have hscaled := Nat.mul_le_mul_right span.units hle
      rw [Nat.mul_right_comm, Nat.add_mul] at hscaled
      omega
    · intro hlong hswing
      have hquotient : swing.toNat * (65536 * 65536) / span.units ≤ swing.toNat * 65536 := by
        refine Nat.div_le_of_le_mul ?_
        calc swing.toNat * (65536 * 65536) = 65536 * (swing.toNat * 65536) := by omega
          _ ≤ span.units * (swing.toNat * 65536) := Nat.mul_le_mul_right _ hlong
      -- the quotient fits the word, so the rounding is the only error
      rw [Nat.mod_eq_of_lt (by omega)] at hunits
      generalize hn : min step.toInteger.toNat 32767 = n
      have hlt : step.units + 1 ≤ n * 65536 + 32768 := by omega
      have hdiv : swing.toNat * (65536 * 65536) < span.units * (step.units + 1) := by
        rw [hunits]
        exact Nat.lt_mul_div_succ _ hpos
      have hscaled := Nat.mul_le_mul_right span.units hlt
      rw [Nat.add_mul (n * 65536), Nat.mul_right_comm] at hscaled
      rw [Nat.mul_comm span.units] at hdiv
      omega

end Triangle

/-! ## The rest of a cycle -/

namespace Phase

/-- The samples up to the one that reaches the edge, counted from a time before it.
A rising voice always has one. -/
def climbs (p : Phase) (time : Nat) : Nat := max 1 ((p.edge.units - time + 65535) / 65536)

/-- The samples from a time to the last one before the end of the period. -/
def falls (p : Phase) (time : Nat) : Nat := (p.period.units - time + 65535) / 65536 - 1

theorem one_le_climbs (p : Phase) (time : Nat) : 1 ≤ p.climbs time := Nat.le_max_left _ _

theorem climbs_of_lt {p : Phase} {time : Nat} (h : time + 65536 < p.edge.units) :
    p.climbs time = p.climbs (time + 65536) + 1 := by
  unfold climbs
  omega

theorem climbs_of_le {p : Phase} {time : Nat} (h : p.edge.units ≤ time + 65536) :
    p.climbs time = 1 := by
  unfold climbs
  omega

theorem falls_of_lt {p : Phase} {time : Nat} (h : time + 65536 < p.period.units) :
    p.falls time = p.falls (time + 65536) + 1 := by
  unfold falls
  omega

end Phase

namespace Triangle

/-- The highest level of a cycle that rises from a level at a time. -/
def top (r : Triangle) (level : Int) (time : Nat) : Int :=
  level + r.phase.climbs time * r.up.toInt

/-- The lowest level on the way down from the top. -/
def bottom (r : Triangle) (level : Int) (time : Nat) : Int :=
  r.top level time + r.phase.falls (time + r.phase.climbs time * 65536) * r.down.toInt

/-- The top and the bottom of the cycle are within the headroom. -/
def CycleFits (r : Triangle) (level : Int) (time : Nat) : Prop :=
  Headroom (r.top level time) ∧ Headroom (r.bottom level time)

/-- The triangle stays within the headroom as long as it goes on as it is: in the
rest of its cycle, and in every cycle from the low level, which begins less than two
samples late. -/
structure Fits (r : Triangle) : Prop where
  current : Headroom r.current.toInt
  low : Headroom r.low.toInt
  climbing : r.rising = true → r.CycleFits r.current.toInt r.phase.time.units
  falling : r.rising = false →
    Headroom (r.current.toInt + r.phase.falls r.phase.time.units * r.down.toInt)
  cycles : ∀ late < 131072, late < r.phase.period.units → r.CycleFits r.low.toInt late

/-- What every run keeps: the ramps go up and down, and the time is within the
cycle. -/
structure Regular (r : Triangle) : Prop where
  up_nonneg : 0 ≤ r.up.toInt
  down_nonpos : r.down.toInt ≤ 0
  within : r.phase.period ≠ Fixed.zero → r.phase.Within r.phase.period.units r.rising

theorem toInt_saturatingAdd_of_headroom {a b : Int16} (h : Headroom (a.toInt + b.toInt)) :
    (saturatingAdd a b).toInt = a.toInt + b.toInt := by
  obtain ⟨hge, hle⟩ := h
  rw [toInt_saturatingAdd]
  omega

/-- One step of a climb stays below the top. -/
theorem step_le_top {r : Triangle} (hr : r.Regular) (level : Int) (time : Nat) :
    level + r.up.toInt ≤ r.top level time := by
  have hone : (1 : Int) ≤ r.phase.climbs time := by exact_mod_cast r.phase.one_le_climbs time
  have hscaled := Int.mul_le_mul_of_nonneg_right hone hr.up_nonneg
  unfold top
  omega

/-- Before the edge a step changes neither the top nor the bottom. -/
theorem cycleFits_step {r : Triangle} {level : Int} {time : Nat}
    (hbelow : time + 65536 < r.phase.edge.units) :
    r.CycleFits (level + r.up.toInt) (time + 65536) ↔ r.CycleFits level time := by
  have hclimbs := Phase.climbs_of_lt hbelow
  have htop : r.top (level + r.up.toInt) (time + 65536) = r.top level time := by
    simp only [top, hclimbs, Int.natCast_add, Int.natCast_one, Int.add_mul, Int.one_mul]
    omega
  have hend : time + 65536 + r.phase.climbs (time + 65536) * 65536 =
      time + r.phase.climbs time * 65536 := by
    rw [hclimbs]
    omega
  simp only [CycleFits, bottom, htop, hend]

/-- At the edge the step gives the top, and the fall begins. -/
theorem cycleFits_edge {r : Triangle} {level : Int} {time : Nat}
    (hreached : r.phase.edge.units ≤ time + 65536) :
    r.CycleFits level time ↔ Headroom (level + r.up.toInt) ∧
      Headroom (level + r.up.toInt + r.phase.falls (time + 65536) * r.down.toInt) := by
  simp only [CycleFits, bottom, top, Phase.climbs_of_le hreached, Int.natCast_one, Int.one_mul,
    Nat.one_mul]

/-- One step down stays above the bottom of the fall. -/
theorem fall_le_step {r : Triangle} (hr : r.Regular) (level : Int) (n : Nat) :
    level + (n + 1 : Nat) * r.down.toInt ≤ level + r.down.toInt := by
  have hscaled : (n : Int) * r.down.toInt ≤ 0 :=
    Int.mul_nonpos_of_nonneg_of_nonpos (Int.natCast_nonneg n) hr.down_nonpos
  simp only [Int.natCast_add, Int.natCast_one, Int.add_mul, Int.one_mul]
  omega

/-! ## Samples -/

/-- The sample after a wrap is less than two samples late. -/
theorem late_lt {r : Triangle} (hr : r.Regular) (hpos : r.phase.period ≠ Fixed.zero)
    {time rest : Fixed} (htime : time.units = r.phase.time.units + 65536)
    (hpast : ¬ time < r.phase.period) (hrest : rest.units = time.units % r.phase.period.units) :
    rest.units < 131072 ∧ rest.units < r.phase.period.units := by
  have hlt : rest.units < r.phase.period.units := by
    rw [hrest]
    exact Nat.mod_lt _ (Fixed.units_pos hpos)
  refine ⟨?_, hlt⟩
  by_cases hshort : r.phase.period.units ≤ 131072
  · omega
  · -- the time passes the period by less than two samples
    have hend := (hr.within hpos).time_lt
    have hge := Nat.not_lt.1 (mt Fixed.lt_iff_units.2 hpast)
    rw [hrest, Nat.mod_eq_sub_mod hge]
    exact Nat.lt_of_le_of_lt (Nat.mod_le _ _) (by omega)

theorem Regular.next {r r' : Triangle} {x : Int16} (hr : r.Regular) (hok : r.next = .ok (x, r')) :
    r'.Regular := by
  obtain ⟨hsame, -⟩ := next_eq_ok hok
  refine ⟨hsame.up_eq ▸ hr.up_nonneg, hsame.down_eq ▸ hr.down_nonpos, fun hpos => ?_⟩
  rcases r.next_cases with ⟨-, hfault⟩ | ⟨-, hok'⟩ | ⟨hne, time, htime, ⟨hrising, hok'⟩ |
    ⟨hfalling, hlt, hok'⟩ | ⟨-, -, rest, hrest, hok'⟩⟩
  · rw [hok] at hfault
    cases hfault
  all_goals
    rw [hok] at hok'
    cases hok'
  · exact hr.within hpos
  · have hwithin := hr.within hne
    rw [hrising] at hwithin
    exact hwithin.advance_first htime fun hstay => of_decide_eq_true hstay
  · have hwithin := hr.within hne
    rw [hfalling] at hwithin
    have hsecond := hwithin.advance_second hlt
    rw [← hfalling] at hsecond
    exact hsecond
  · exact (hr.within hne).wrapped hne hrest

/-- A fitting triangle gives a sample within the headroom and goes on fitting. -/
theorem Fits.next {r r' : Triangle} {x : Int16} (h : r.Fits) (hr : r.Regular)
    (hok : r.next = .ok (x, r')) : Headroom x.toInt ∧ r'.Fits := by
  rcases r.next_cases with ⟨-, hfault⟩ | ⟨-, hok'⟩ | ⟨hpos, time, htime, ⟨hrising, hok'⟩ |
    ⟨hfalling, hlt, hok'⟩ | ⟨hfalling, hpast, rest, hrest, hok'⟩⟩
  · rw [hok] at hfault
    cases hfault
  all_goals
    rw [hok] at hok'
    cases hok'
  · exact ⟨h.current, h⟩
  · have hcycle := h.climbing hrising
    have hstep : Headroom (r.current.toInt + r.up.toInt) := by
      have hbelow := step_le_top hr r.current.toInt r.phase.time.units
      have hup := hr.up_nonneg
      have hcurrent := h.current
      have htop := hcycle.1
      unfold Headroom at *
      omega
    have hx := toInt_saturatingAdd_of_headroom hstep
    refine ⟨hx ▸ hstep, hx ▸ hstep, h.low, ?_, ?_, h.cycles⟩
    · -- still below the edge: the rest of the cycle is the same
      intro hstay
      have hbelow := Fixed.lt_iff_units.1 (of_decide_eq_true hstay)
      rw [htime] at hbelow
      have hrest := (cycleFits_step hbelow).2 hcycle
      rw [← htime, ← hx] at hrest
      exact hrest
    · -- the edge is reached: what remains is the fall
      intro hleave
      have hreached := Nat.not_lt.1 (mt Fixed.lt_iff_units.2 (of_decide_eq_false hleave))
      rw [htime] at hreached
      have hfall := ((cycleFits_edge hreached).1 hcycle).2
      rw [← htime, ← hx] at hfall
      exact hfall
  · -- one step of the fall is made, and the others are still to come
    have hfall := h.falling hfalling
    have hbefore := Fixed.lt_iff_units.1 hlt
    rw [htime] at hbefore
    rw [Phase.falls_of_lt hbefore] at hfall
    have hstep : Headroom (r.current.toInt + r.down.toInt) := by
      have habove := fall_le_step hr r.current.toInt (r.phase.falls (r.phase.time.units + 65536))
      have hdown := hr.down_nonpos
      have hcurrent := h.current
      unfold Headroom at *
      omega
    have hx := toInt_saturatingAdd_of_headroom hstep
    refine ⟨hx ▸ hstep, hx ▸ hstep, h.low, ?_, ?_, h.cycles⟩
    · intro hrising
      rw [show (atTime r time).rising = r.rising from rfl, hfalling] at hrising
      cases hrising
    · intro _
      rw [Int.natCast_add, Int.natCast_one, Int.add_mul, Int.one_mul, Int.add_comm _ r.down.toInt,
        ← Int.add_assoc, ← htime, ← hx] at hfall
      exact hfall
  · -- a new cycle begins, as late as the wrapped time says
    obtain ⟨hlate, hwithin⟩ := late_lt hr hpos htime hpast hrest
    refine ⟨h.low, h.low, h.low, ?_, ?_, h.cycles⟩
    · intro _
      exact h.cycles rest.units hlate hwithin
    · intro hrising
      cases hrising

/-! ## Actions -/

/-- With flat ramps the levels are the same throughout. -/
theorem fits_of_flat {r : Triangle} (hup : r.up = 0) (hdown : r.down = 0)
    (hcurrent : Headroom r.current.toInt) (hlow : Headroom r.low.toInt) : r.Fits := by
  have hcycle (level : Int) (time : Nat) (hlevel : Headroom level) : r.CycleFits level time := by
    simp only [CycleFits, bottom, top, hup, hdown, Int16.toInt_zero, Int.mul_zero, Int.add_zero]
    exact ⟨hlevel, hlevel⟩
  refine ⟨hcurrent, hlow, fun _ => hcycle _ _ hcurrent, ?_, fun late _ _ => hcycle _ _ hlow⟩
  intro _
  rw [hdown, Int16.toInt_zero, Int.mul_zero, Int.add_zero]
  exact hcurrent

theorem Fits.noteOff {r : Triangle} (h : r.Fits) : r.noteOff.Fits :=
  fits_of_flat rfl rfl h.current (show Headroom (0 : Int16).toInt by decide)

/-- A voice that never played has no ramps to place. -/
theorem Fits.setDuty_idle {r : Triangle} (h : r.Fits) (t : Tuning) (duty : UInt8)
    (hidle : r.phase.period = Fixed.zero) : (r.performed t (.setDuty duty)).Fits := by
  have hedge : Phase.edgeAt r.phase.period duty = Fixed.zero := by
    apply Fixed.units_inj.1
    rw [Phase.units_edgeAt, hidle, Fixed.units_zero, Nat.zero_div, Nat.zero_mul]
  have hspan : r.phase.period.monus (Phase.edgeAt r.phase.period duty) = Fixed.zero := by
    apply Fixed.units_inj.1
    rw [Fixed.units_monus, hidle, Fixed.units_zero, Nat.zero_sub]
  apply fits_of_flat
  · simp only [performed, ramped, hedge, rampStep_zero]
  · simp only [performed, ramped, hspan, rampStep_zero]
    rfl
  · exact h.current
  · exact h.low

theorem toNat_swing (velocity : UInt8) : (swing velocity).toNat = 32 * velocity.toNat := by
  have hlt := velocity.toNat_lt
  have hproduct : (swing velocity).toNat = velocity.toNat * 32 % 65536 := by
    simp only [swing, UInt16.toNat_mul, UInt8.toNat_toUInt16]
    rfl
  omega

/-- The ramps go up and then down. -/
theorem ramped_signs (r : Triangle) : 0 ≤ r.ramped.up.toInt ∧ r.ramped.down.toInt ≤ 0 := by
  obtain ⟨n, hup, -⟩ := rampStep_spec (swing r.velocity) r.phase.edge
  obtain ⟨k, hdown, -⟩ := rampStep_spec (swing r.velocity) (r.phase.period.monus r.phase.edge)
  have hneg : (-rampStep (swing r.velocity) (r.phase.period.monus r.phase.edge)).toInt = -k := by
    rw [toInt_neg_of_ne (by omega), hdown]
  simp only [ramped, hup, hneg]
  omega

theorem ramped_regular {r : Triangle}
    (hwithin : r.phase.period ≠ Fixed.zero → r.phase.Within r.phase.period.units r.rising) :
    r.ramped.Regular :=
  ⟨r.ramped_signs.1, r.ramped_signs.2, hwithin⟩

theorem Regular.performed {r : Triangle} (h : r.Regular) (t : Tuning) (action : Action) :
    (r.performed t action).Regular := by
  rcases r.performed_cases t action with ⟨note, velocity, rfl⟩ | ⟨duty, rfl⟩ | rfl | ⟨flag, hflag⟩
  · apply ramped_regular
    intro hpos
    exact Phase.within_start _ (Fixed.units_pos hpos) (Nat.le_refl _)
  · apply ramped_regular
    intro hpos
    exact (h.within hpos).withDuty duty
  · exact ⟨Int.le_refl 0, Int.le_refl 0, h.within⟩
  · rw [hflag]
    exact ⟨h.up_nonneg, h.down_nonpos, h.within⟩

/-! ## Notes that fit -/

/-- A climb ends less than a sample behind the edge, and the fall after it covers at
most the rest of the period. -/
theorem climbs_falls_bounds {p : Phase} {late : Nat} (hlate : late < 131072)
    (hedge : 65536 ≤ p.edge.units) :
    p.climbs late * 65536 ≤ p.edge.units + 65536 ∧ p.edge.units ≤ p.climbs late * 65536 + 131072 ∧
      p.falls (late + p.climbs late * 65536) * 65536 ≤ p.period.units - p.edge.units := by
  unfold Phase.falls Phase.climbs
  omega

/-- The arithmetic of a cycle: `c` steps of `u` up from the low level and `f` steps of
`d` down again. -/
theorem headroom_of_steps {v u d c f edge period : Nat} (hinside : edge ≤ period)
    (hupper : 2 * (u * edge) ≤ 131072 * (32 * v) + edge)
    (hlower : 131072 * (32 * v) < 2 * (u * edge) + edge)
    (hdown : 2 * (d * (period - edge)) ≤ 131072 * (32 * v) + (period - edge))
    (hc : c * 65536 ≤ edge + 65536) (hc' : edge ≤ c * 65536 + 131072)
    (hf : f * 65536 ≤ period - edge) (hroom : 16 * v + 2 * u + period / 131072 < 8287) :
    Headroom (-16 * v + (c * u : Nat)) ∧ Headroom (-16 * v + (c * u : Nat) - (f * d : Nat)) := by
  -- what the steps come to, against what they would come to without rounding
  have hclimb : 65536 * (c * u) ≤ u * edge + 65536 * u := by
    calc 65536 * (c * u) = u * (c * 65536) := by rw [Nat.mul_comm c u, Nat.mul_left_comm,
          Nat.mul_comm 65536 c]
      _ ≤ u * (edge + 65536) := Nat.mul_le_mul_left u hc
      _ = u * edge + 65536 * u := by rw [Nat.mul_add, Nat.mul_comm u 65536]
  have hclimb' : u * edge ≤ 65536 * (c * u) + 131072 * u := by
    calc u * edge ≤ u * (c * 65536 + 131072) := Nat.mul_le_mul_left u hc'
      _ = 65536 * (c * u) + 131072 * u := by rw [Nat.mul_add, Nat.mul_comm u 131072,
          Nat.mul_comm c 65536, Nat.mul_left_comm, Nat.mul_comm u c]
  have hfall : 65536 * (f * d) ≤ d * (period - edge) := by
    calc 65536 * (f * d) = d * (f * 65536) := by rw [Nat.mul_comm f d, Nat.mul_left_comm,
          Nat.mul_comm 65536 f]
      _ ≤ d * (period - edge) := Nat.mul_le_mul_left d hf
  unfold Headroom
  omega

/-- The rounding of a step is made at every sample, so the level goes astray by half
of the samples of the period, and by the steps before and behind the edge. -/
theorem fits_noteOn (r : Triangle) (t : Tuning) (note velocity : UInt8)
    (hedge : 65536 ≤ (r.performed t (.noteOn note velocity)).phase.edge.units)
    (hroom : 16 * velocity.toNat + 2 * (r.performed t (.noteOn note velocity)).up.toInt.toNat +
      (r.performed t (.noteOn note velocity)).phase.period.units / 131072 < 8287) :
    (r.performed t (.noteOn note velocity)).Fits := by
  generalize hr' : r.performed t (.noteOn note velocity) = r' at hedge hroom ⊢
  have hvelocity := velocity.toNat_lt
  have hswing := toNat_swing velocity
  have hlow : r'.low.toInt = -16 * velocity.toNat := by
    rw [← hr']
    exact (mulInt16_velocity (k := -16) (by decide) velocity).2
  have hcurrent : r'.current = r'.low := by rw [← hr']; rfl
  have htime : r'.phase.time.units = 0 := by rw [← hr']; rfl
  have hrising : r'.rising = true := by rw [← hr']; rfl
  have hinside : r'.phase.edge.units ≤ r'.phase.period.units := by
    rw [← hr']
    exact Phase.units_edgeAt_le _ _
  obtain ⟨u, hu, hupper, hlower⟩ := rampStep_spec (swing velocity) r'.phase.edge
  obtain ⟨d, hd, hdown, -⟩ := rampStep_spec (swing velocity) (r'.phase.period.monus r'.phase.edge)
  have hup : r'.up.toInt = u := by rw [← hu, ← hr']; rfl
  have hdownEq : r'.down.toInt = -d := by
    rw [← hd, ← toInt_neg_of_ne (by omega), ← hr']
    rfl
  rw [Fixed.units_monus] at hdown
  have hcycle : ∀ late < 131072, r'.CycleFits r'.low.toInt late := by
    intro late hlate
    obtain ⟨hclimbs, hclimbs', hfalls⟩ := climbs_falls_bounds hlate hedge
    have hbounds := headroom_of_steps hinside (hswing ▸ hupper)
      (hswing ▸ hlower hedge (by omega)) (hswing ▸ hdown) hclimbs hclimbs' hfalls (by omega)
    simp only [CycleFits, bottom, top, hlow, hup, hdownEq, Int.mul_neg]
    rw [Int.natCast_mul, Int.natCast_mul, Int.sub_eq_add_neg] at hbounds
    exact hbounds
  have hzero : 0 < r'.phase.period.units := by omega
  refine ⟨?_, ?_, ?_, ?_, fun late hlate _ => hcycle late hlate⟩
  · rw [hcurrent, hlow]
    unfold Headroom
    omega
  · rw [hlow]
    unfold Headroom
    omega
  · intro _
    rw [hcurrent, htime]
    exact hcycle 0 (by decide)
  · intro hfalling
    rw [hrising] at hfalling
    cases hfalling

/-- With an eighth of the cycle rising, periods from 32 to 7000 samples leave room for
every velocity. -/
theorem fits_noteOn_of_duty {r : Triangle} (hduty : r.phase.duty = 32) {t : Tuning}
    {note : UInt8} (hshort : 32 * 65536 ≤ (t.period note).units)
    (hlong : (t.period note).units ≤ 7000 * 65536) (velocity : UInt8) :
    (r.performed t (.noteOn note velocity)).Fits := by
  have hvelocity := velocity.toNat_lt
  have hswing := toNat_swing velocity
  have hedge : (r.performed t (.noteOn note velocity)).phase.edge.units =
      (t.period note).units / 255 * 32 := by
    have hat := Phase.units_edgeAt (t.period note) r.phase.duty
    rw [hduty] at hat
    exact (congrArg (fun duty => (Phase.edgeAt (t.period note) duty).units) hduty).trans hat
  have hperiod : (r.performed t (.noteOn note velocity)).phase.period = t.period note := rfl
  obtain ⟨u, hu, hupper, -⟩ := rampStep_spec (swing velocity)
    (r.performed t (.noteOn note velocity)).phase.edge
  have hup : (r.performed t (.noteOn note velocity)).up.toInt = u := hu
  refine fits_noteOn r t note velocity (by omega) ?_
  rw [hup, Int.toNat_natCast, hperiod]
  rw [hedge] at hupper
  -- a short period has steep steps, a long one much rounding, and none has both
  by_cases hmiddle : 256 * 65536 ≤ (t.period note).units
  · have hscaled : u * (65793 * 32) ≤ u * ((t.period note).units / 255 * 32) :=
      Nat.mul_le_mul_left u (by omega)
    have hsteep : u ≤ 300 := by
      by_contra hmore
      have hscaled' := Nat.mul_le_mul_right ((t.period note).units / 255 * 32) (Nat.not_le.1 hmore)
      omega
    omega
  · have hsteep : u ≤ 2033 := by
      by_contra hmore
      have hscaled' := Nat.mul_le_mul_right ((t.period note).units / 255 * 32) (Nat.not_le.1 hmore)
      omega
    omega

end Triangle

/-! ## Runs -/

namespace Synth

variable {ρ : Type}

/-- A note that the move starts on the triangle fits, and so does a duty that it sets,
unless the triangle never played. -/
structure FitsAfter (s : Synth ρ) (m : Move) : Prop where
  noteOn : ∀ note velocity, m.actionFor .triangle = some (.noteOn note velocity) →
    (s.triangle.performed s.tuning (.noteOn note velocity)).Fits
  setDuty : ∀ duty, m.actionFor .triangle = some (.setDuty duty) →
    s.triangle.phase.period ≠ Fixed.zero → (s.triangle.performed s.tuning (.setDuty duty)).Fits

theorem fits_performed {r : Triangle} (h : r.Fits) {t : Tuning} {action : Action}
    (hnote : ∀ note velocity, action = .noteOn note velocity → (r.performed t action).Fits)
    (hduty : ∀ duty, action = .setDuty duty → r.phase.period ≠ Fixed.zero →
      (r.performed t action).Fits) : (r.performed t action).Fits := by
  rcases r.performed_cases t action with ⟨note, velocity, hon⟩ | ⟨duty, hset⟩ | rfl | ⟨flag, hflag⟩
  · exact hnote note velocity hon
  · by_cases hidle : r.phase.period = Fixed.zero
    · rw [hset]
      exact h.setDuty_idle t duty hidle
    · exact hduty duty hset hidle
  · exact h.noteOff
  · rw [hflag]
    exact ⟨h.current, h.low, h.climbing, h.falling, h.cycles⟩

theorem fits_tuned (t : Tuning) (source : ρ) :
    (tuned t source).triangle.Regular ∧ (tuned t source).triangle.Fits := by
  refine ⟨⟨Int.le_refl 0, Int.le_refl 0, fun hpos => absurd rfl hpos⟩, ?_⟩
  exact Triangle.fits_of_flat rfl rfl (show Headroom (0 : Int16).toInt by decide)
    (show Headroom (0 : Int16).toInt by decide)

/-- The triangle fits at the duty that it began with. -/
structure Unshaped (t : Tuning) (s : Synth ρ) : Prop where
  tuning_eq : s.tuning = t
  duty_eq : s.triangle.phase.duty = 32
  fits : s.triangle.Regular ∧ s.triangle.Fits

theorem unshaped_tuned (t : Tuning) (source : ρ) : Unshaped t (tuned t source) :=
  ⟨rfl, rfl, fits_tuned t source⟩

variable [BitSource ρ]

/-- Only a command for it changes the duty. -/
theorem duty_move {s s' : Synth ρ} {m : Move} (hm : m.KeepsDuty .triangle)
    (hok : s.move m = .ok s') : s'.triangle.phase.duty = s.triangle.phase.duty := by
  rcases move_triangle hok with ⟨-, x, hnext, -⟩ | ⟨-, action, haction, hr⟩ | ⟨-, hr⟩
  · exact (Triangle.next_eq_ok hnext).1.duty_eq
  · rw [hr]
    rcases s.triangle.performed_cases s.tuning action with ⟨note, velocity, rfl⟩ | ⟨duty, rfl⟩ |
      rfl | ⟨flag, hflag⟩
    · rfl
    · exact absurd haction (hm duty)
    · rfl
    · rw [hflag]
  · rw [hr]

/-- A triangle that fits goes on fitting through a move. -/
theorem fits_move {s s' : Synth ρ} {m : Move} (h : s.triangle.Regular ∧ s.triangle.Fits)
    (hm : s.FitsAfter m) (hok : s.move m = .ok s') :
    s'.triangle.Regular ∧ s'.triangle.Fits := by
  obtain ⟨hregular, hfits⟩ := h
  rcases move_triangle hok with ⟨-, x, hnext, -⟩ | ⟨-, action, haction, hr⟩ | ⟨-, hr⟩
  · exact ⟨hregular.next hnext, (hfits.next hregular hnext).2⟩
  · rw [hr]
    refine ⟨hregular.performed s.tuning action, fits_performed hfits ?_ ?_⟩
    · rintro note velocity rfl
      exact hm.noteOn note velocity haction
    · rintro duty rfl hpos
      exact hm.setDuty duty haction hpos
  · rw [hr]
    exact ⟨hregular, hfits⟩

theorem Unshaped.move {t : Tuning} {s s' : Synth ρ} {m : Move} (h : Unshaped t s)
    (hnotes : ∀ note velocity, m.actionFor .triangle = some (.noteOn note velocity) →
      32 * 65536 ≤ (t.period note).units ∧ (t.period note).units ≤ 7000 * 65536)
    (hm : m.KeepsDuty .triangle) (hok : s.move m = .ok s') : Unshaped t s' := by
  have hfits : s.FitsAfter m := by
    refine ⟨fun note velocity haction => ?_, fun duty haction => absurd haction (hm duty)⟩
    obtain ⟨hge, hle⟩ := hnotes note velocity haction
    rw [h.tuning_eq]
    exact Triangle.fits_noteOn_of_duty h.duty_eq hge hle velocity
  refine ⟨(tuning_move hok).trans h.tuning_eq, ?_, fits_move h.fits hfits hok⟩
  rw [duty_move hm hok]
  exact h.duty_eq

/-- The exact sum of what the channels give. -/
def total (y : Channel → Int16) : Int :=
  (y .squareA).toInt + (y .squareB).toInt + (y .triangle).toInt + (y .noise).toInt

/-- The next sample is the sum of what the channels give, and it fits sixteen bits. -/
def MixesExactly (u : Synth ρ) : Prop :=
  ∃ (y : Channel → Int16) (x : Int16) (v : Synth ρ), (∀ c, u.contribution c = .ok (y c)) ∧
    u.mix = .ok (x, v) ∧ -32768 ≤ total y ∧ total y ≤ 32767 ∧ x.toInt = total y

/-- Three limited voices leave the headroom to the triangle. -/
theorem total_of_headroom {y : Channel → Int16} (hlimit : ∀ c, c ≠ .triangle → WithinLimit (y c))
    (htriangle : Headroom (y .triangle).toInt) : -32768 ≤ total y ∧ total y ≤ 32767 := by
  have ha := hlimit .squareA (by decide)
  have hb := hlimit .squareB (by decide)
  have hn := hlimit .noise (by decide)
  unfold WithinLimit at ha hb hn
  unfold Headroom at htriangle
  unfold total
  omega

/-- Of each sample of a run the squares and the noise give at most their limit, and a
triangle within the headroom makes the mix exact. -/
theorem mix_of_sampled {t : Tuning} {source : ρ} {moves : List Move} {u : Synth ρ}
    (hu : u ∈ sampled moves (tuned t source)) :
    ∃ (y : Channel → Int16) (x : Int16) (v : Synth ρ),
      (∀ c, (u.part c).next = .ok (y c, v.part c)) ∧ u.mix = .ok (x, v) ∧
      (∀ c, c ≠ .triangle → WithinLimit (y c)) ∧
      (Headroom (y .triangle).toInt → u.MixesExactly) := by
  obtain ⟨x, v, hmix⟩ := mix_of_mem_sampled hu
  obtain ⟨y, hparts, hsum, -⟩ := mix_iff.1 hmix
  have hy (c : Channel) : u.contribution c = .ok (y c) := contribution_eq_ok.2 ⟨_, hparts c⟩
  have hlimit (c : Channel) (hc : c ≠ .triangle) : WithinLimit (y c) :=
    withinLimit_contribution hu hc (hy c)
  refine ⟨y, x, v, hparts, hmix, hlimit, fun htriangle => ?_⟩
  obtain ⟨hge, hle⟩ := total_of_headroom hlimit htriangle
  refine ⟨y, x, v, hy, hmix, hge, hle, ?_⟩
  rw [hsum]
  exact Int16.toInt_ofInt_of_le hge (Int.lt_add_one_of_le hle)

/-- A sample of a fitting triangle is mixed exactly. -/
theorem mixesExactly_of_fits {t : Tuning} {source : ρ} {moves : List Move} {u : Synth ρ}
    (hu : u ∈ sampled moves (tuned t source)) (h : u.triangle.Regular ∧ u.triangle.Fits) :
    u.MixesExactly := by
  obtain ⟨y, x, v, hparts, -, -, hexact⟩ := mix_of_sampled hu
  exact hexact (h.2.next h.1 (Part.next_triangle.1 (hparts .triangle))).1

/-- The squares and the noise never give more than 8160 to either side, so a sample
can leave sixteen bits only through a triangle beyond the headroom. The mix is exact
throughout a run in which every note and duty of the triangle leaves it fitting. A
note fits when its edge is at least a sample away and half a level for each sample
of the period, two steps up and the level of the velocity together stay within the
headroom. So the mix is exact in every run that leaves the duty of the triangle alone
and gives it only notes with periods from 32 to 7000 samples. -/
theorem mix_exact_of_fitting (t : Tuning) (source : ρ) (moves : List Move) :
    (∀ u ∈ sampled moves (tuned t source), ∃ y : Channel → Int16,
      (∀ c, u.contribution c = .ok (y c)) ∧
      (∀ c, c ≠ .triangle → -8160 ≤ (y c).toInt ∧ (y c).toInt ≤ 8160) ∧
      (-8288 ≤ (y .triangle).toInt ∧ (y .triangle).toInt ≤ 8287 → u.MixesExactly)) ∧
    ((∀ first m rest s, moves = first ++ m :: rest → (tuned t source).run first = .ok s →
        s.FitsAfter m) → ∀ u ∈ sampled moves (tuned t source), u.MixesExactly) ∧
    (∀ (r r' : Triangle) (note velocity : UInt8), r' = r.performed t (.noteOn note velocity) →
      65536 ≤ r'.phase.edge.units →
      16 * velocity.toNat + 2 * r'.up.toInt.toNat + r'.phase.period.units / 131072 < 8287 →
      r'.Fits) ∧
    ((∀ m ∈ moves, ∀ note velocity, m.actionFor .triangle = some (.noteOn note velocity) →
        32 * 65536 ≤ (t.period note).units ∧ (t.period note).units ≤ 7000 * 65536) →
      (∀ m ∈ moves, m.KeepsDuty .triangle) →
      ∀ u ∈ sampled moves (tuned t source), u.MixesExactly) := by
  refine ⟨?_, ?_, ?_, ?_⟩
  · intro u hu
    obtain ⟨y, x, v, hparts, -, hlimit, hexact⟩ := mix_of_sampled hu
    exact ⟨y, fun c => contribution_eq_ok.2 ⟨_, hparts c⟩, hlimit, hexact⟩
  · intro hmoves u hu
    apply mixesExactly_of_fits hu
    exact sampled_keeps_where moves (fun s s' m h hm hok => fits_move h hm hok)
      (fits_tuned t source) hmoves u hu
  · rintro r r' note velocity rfl hedge hroom
    exact Triangle.fits_noteOn r t note velocity hedge hroom
  · intro hnotes hduty u hu
    apply mixesExactly_of_fits hu
    have hkept := sampled_keeps (P := Unshaped t) moves
      (fun s s' m hm h hok => h.move (hnotes m hm) (hduty m hm) hok) (unshaped_tuned t source) u hu
    exact hkept.fits

/-- At 48000 samples per second the notes up to note 90 have such periods. -/
theorem mix_exact_of_fitting_at_full_velocity :
    let t := Tuning.equalTempered 48000
    let moves : List Move :=
      [.command (.address 0 (.noteOn 69 255)), .command (.address 1 (.noteOn 127 255)),
        .command (.address 2 (.noteOn 0 255)), .command (.address 3 (.noteOn 127 255)), .mix,
        .modulate, .tick, .command (.address 0 (.setDuty 0)), .mix,
        .command (.address 2 (.noteOn 90 255)), .mix]
    (∀ note : Fin 91, 32 * 65536 ≤ (t.period (UInt8.ofNat note.val)).units ∧
        (t.period (UInt8.ofNat note.val)).units ≤ 7000 * 65536) ∧
      (∀ m ∈ moves, ∀ note velocity, m.actionFor .triangle = some (.noteOn note velocity) →
        32 * 65536 ≤ (t.period note).units ∧ (t.period note).units ≤ 7000 * 65536) ∧
      (sampled moves (tuned t (Lfsr.seeded 1))).map (fun u => u.mix.toOption.map Prod.fst) =
        [some (-28549), some (-12218), some 4113, some 6085] ∧
      ∀ u ∈ sampled moves (tuned t (Lfsr.seeded 1)), u.MixesExactly := by
  intro t moves
  have hperiods : ∀ note : Fin 91, 32 * 65536 ≤ (t.period (UInt8.ofNat note.val)).units ∧
      (t.period (UInt8.ofNat note.val)).units ≤ 7000 * 65536 := by
    decide +kernel
  have hlow : 32 * 65536 ≤ (t.period 0).units ∧ (t.period 0).units ≤ 7000 * 65536 := hperiods 0
  have hhigh : 32 * 65536 ≤ (t.period 90).units ∧ (t.period 90).units ≤ 7000 * 65536 := hperiods 90
  have hnotes : ∀ m ∈ moves, ∀ note velocity,
      m.actionFor .triangle = some (.noteOn note velocity) →
      32 * 65536 ≤ (t.period note).units ∧ (t.period note).units ≤ 7000 * 65536 := by
    simp [moves, Move.actionFor, Command.actionFor, Channel.number, hlow, hhigh]
  have hduty : ∀ m ∈ moves, m.KeepsDuty .triangle := by
    simp [moves, Move.KeepsDuty, Move.actionFor, Command.actionFor, Channel.number]
  obtain ⟨-, -, -, hexact⟩ := mix_exact_of_fitting t (Lfsr.seeded 1) moves
  exact ⟨hperiods, hnotes, by decide +kernel, hexact hnotes hduty⟩

/-- An edge within the first sample sends the triangle far beyond the headroom with its
first step, and two squares at their limit then carry the sum out of sixteen bits. -/
theorem steep_ramp_wraps_mix :
    let t : Tuning := ⟨48000, Vector.replicate 128 ⟨3574690⟩⟩
    let moves : List Move :=
      [.command (.address 0 (.setDuty 0)), .command (.address 1 (.setDuty 0)),
        .command (.address 2 (.setDuty 1)), .command (.address 0 (.noteOn 69 255)),
        .command (.address 1 (.noteOn 69 255)), .command (.address 2 (.noteOn 81 255)), .mix]
    (∀ note, 2 * 65536 ≤ (t.period note).units ∧ (t.period note).units ≤ 23500 * 65536) ∧
      ∃ u, (tuned t (Lfsr.seeded 1)).run moves = .ok u ∧
        Channel.all.map (fun c => (u.contribution c).toOption) =
          [some 8160, some 8160, some 28537, some 0] ∧
        u.mix.toOption.map Prod.fst = some (-20679) := by
  intro t moves
  refine ⟨fun note => ?_, ?_⟩
  · rw [Tuning.period_uniform]
    decide
  · have heval : ((tuned t (Lfsr.seeded 1)).run moves).toOption.map (fun u =>
        (Channel.all.map fun c => (u.contribution c).toOption, u.mix.toOption.map Prod.fst)) =
        some ([some 8160, some 8160, some 28537, some 0], some (-20679)) := by
      decide +kernel
    cases hrun : (tuned t (Lfsr.seeded 1)).run moves with
    | error f =>
      rw [hrun] at heval
      cases heval
    | ok u =>
      rw [hrun] at heval
      obtain ⟨hy, hx⟩ := Prod.mk.inj (Option.some.inj heval)
      exact ⟨u, rfl, hy, hx⟩

end Synth

end Chiptune
