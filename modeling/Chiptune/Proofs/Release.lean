import Chiptune.Proofs.Parts

/-!
# A released triangle

The end of a note flattens the ramps of the triangle and puts its low level to
zero, but the level of the moment stays until the phase wraps. From then on the
triangle is silent as long as its ramps stay flat (`released_triangle_silent_iff`),
and the wrap is never further off than one period (`exists_wraps`).

A new duty is the one action that gives a released triangle its ramps back: they
follow from the velocity, which the end of the note does not touch
(`duty_after_release_sounds`).
-/

set_option autoImplicit false

namespace Chiptune

variable {ρ : Type}

namespace Triangle

/-- The next sample wraps the phase. -/
def Wraps (r : Triangle) : Prop :=
  r.phase.period ≠ Fixed.zero ∧ r.rising = false ∧ r.phase.period.units ≤ r.phase.time.units + 65536

instance (r : Triangle) : Decidable r.Wraps := inferInstanceAs (Decidable (_ ∧ _ ∧ _))

/-- What the next sample adds to the level, unless it wraps the phase. -/
def slope (r : Triangle) : Int16 :=
  if r.phase.period = Fixed.zero then 0 else if r.rising then r.up else r.down

theorem toInt_saturatingAdd (a b : Int16) :
    (saturatingAdd a b).toInt = max (-32768) (min 32767 (a.toInt + b.toInt)) := by
  unfold saturatingAdd
  generalize a.toInt + b.toInt = sum
  apply Int16.toInt_ofInt_of_le <;> omega

@[simp] theorem saturatingAdd_zero (a : Int16) : saturatingAdd a 0 = a := by
  have hle : a.toInt ≤ 32767 := a.toInt_le
  have hge : -32768 ≤ a.toInt := a.le_toInt
  apply Int16.toInt_inj.1
  rw [toInt_saturatingAdd, Int16.toInt_zero]
  omega

@[simp] theorem zero_saturatingAdd (b : Int16) : saturatingAdd 0 b = b := by
  have hle : b.toInt ≤ 32767 := b.toInt_le
  have hge : -32768 ≤ b.toInt := b.le_toInt
  apply Int16.toInt_inj.1
  rw [toInt_saturatingAdd, Int16.toInt_zero]
  omega

/-- What a sample leaves alone. -/
structure SameNote (r r' : Triangle) : Prop where
  velocity_eq : r'.velocity = r.velocity
  low_eq : r'.low = r.low
  up_eq : r'.up = r.up
  down_eq : r'.down = r.down
  period_eq : r'.phase.period = r.phase.period
  edge_eq : r'.phase.edge = r.phase.edge
  duty_eq : r'.phase.duty = r.phase.duty

/-- A sample is the low level at a wrap, and otherwise the level after one step of
the ramp. -/
theorem next_eq_ok {r r' : Triangle} {x : Int16} (h : r.next = .ok (x, r')) :
    SameNote r r' ∧ r'.current = x ∧
      x = if r.Wraps then r.low else saturatingAdd r.current r.slope := by
  rcases r.next_cases with ⟨-, hfault⟩ | ⟨hzero, hok⟩ | ⟨hpos, time, htime, hcases⟩
  · rw [hfault] at h
    cases h
  · rw [hok] at h
    cases h
    have hno : ¬ r.Wraps := fun hwraps => hwraps.1 hzero
    refine ⟨⟨rfl, rfl, rfl, rfl, rfl, rfl, rfl⟩, rfl, ?_⟩
    simp only [slope, if_neg hno, if_pos hzero, saturatingAdd_zero]
  · rcases hcases with ⟨hrising, hok⟩ | ⟨hfalling, hlt, hok⟩ | ⟨hfalling, hlt, rest, -, hok⟩
    · rw [hok] at h
      cases h
      have hno : ¬ r.Wraps := fun hwraps => by rw [hwraps.2.1] at hrising; cases hrising
      refine ⟨⟨rfl, rfl, rfl, rfl, rfl, rfl, rfl⟩, rfl, ?_⟩
      simp only [slope, if_neg hno, if_neg hpos, if_pos hrising]
    · rw [hok] at h
      cases h
      have hno : ¬ r.Wraps := by
        intro hwraps
        have hwithin := Fixed.lt_iff_units.1 hlt
        rw [htime] at hwithin
        exact Nat.not_lt.2 hwraps.2.2 hwithin
      refine ⟨⟨rfl, rfl, rfl, rfl, rfl, rfl, rfl⟩, rfl, ?_⟩
      simp only [slope, if_neg hno, if_neg hpos, hfalling, Bool.false_eq_true, if_false]
    · rw [hok] at h
      cases h
      have hwraps : r.Wraps := by
        refine ⟨hpos, hfalling, ?_⟩
        rw [← htime]
        exact Nat.not_lt.1 (mt Fixed.lt_iff_units.2 hlt)
      exact ⟨⟨rfl, rfl, rfl, rfl, rfl, rfl, rfl⟩, rfl, (if_pos hwraps).symm⟩

/-! ## The time to the next wrap -/

/-- A sample that does not wrap the phase brings the wrap nearer. -/
theorem wait_next {r r' : Triangle} {x : Int16} {reach : Nat} (h : r.next = .ok (x, r'))
    (hno : ¬ r.Wraps) (hpos : r.phase.period ≠ Fixed.zero) (hedge : r.phase.edge.units ≤ reach)
    (hperiod : r.phase.period.units ≤ reach) :
    r'.phase.wait reach r'.rising < r.phase.wait reach r.rising := by
  have htick := tick_of_next hpos h
  refine htick.wait_lt ?_ hedge hperiod
  intro hfalling
  rcases htick.time_cases with ⟨hrising, -⟩ | ⟨-, hstill, -⟩ | ⟨-, -, hend, -⟩
  · cases hrising.symm.trans hfalling
  · exact hstill
  · exact absurd ⟨hpos, hfalling, hend⟩ hno

/-! ## Actions -/

/-- An action starts a note, sets the duty, ends the note, or is one that only the
vibrato flag can tell. -/
theorem performed_cases (r : Triangle) (t : Tuning) (action : Action) :
    (∃ note velocity, action = .noteOn note velocity) ∨ (∃ duty, action = .setDuty duty) ∨
      action = .noteOff ∨ ∃ vibratoFlag, r.performed t action = { r with vibratoFlag } := by
  cases action with
  | noteOn note velocity => exact Or.inl ⟨note, velocity, rfl⟩
  | setDuty duty => exact Or.inr (Or.inl ⟨duty, rfl⟩)
  | noteOff => exact Or.inr (Or.inr (Or.inl rfl))
  | vibratoOn => exact Or.inr (Or.inr (Or.inr ⟨true, rfl⟩))
  | vibratoOff => exact Or.inr (Or.inr (Or.inr ⟨false, rfl⟩))
  | configureVibrato params => exact Or.inr (Or.inr (Or.inr ⟨r.vibratoFlag, rfl⟩))
  | configureEnvelope params => exact Or.inr (Or.inr (Or.inr ⟨r.vibratoFlag, rfl⟩))
  | envelopeOn => exact Or.inr (Or.inr (Or.inr ⟨r.vibratoFlag, rfl⟩))
  | envelopeOff => exact Or.inr (Or.inr (Or.inr ⟨r.vibratoFlag, rfl⟩))

end Triangle

/-- The move starts no note on the channel. -/
def Move.StartsNone (c : Channel) (m : Move) : Prop :=
  ∀ note velocity, m.actionFor c ≠ some (.noteOn note velocity)

/-- The move leaves the duty of the channel. -/
def Move.KeepsDuty (c : Channel) (m : Move) : Prop := ∀ duty, m.actionFor c ≠ some (.setDuty duty)

namespace Synth

variable [BitSource ρ] {s s' : Synth ρ} {m : Move}

/-- While no note starts, a move gives the triangle a sample, a duty, the end of its
note, or at most another vibrato flag. -/
theorem move_triangle_cases (hm : m.StartsNone .triangle) (h : s.move m = .ok s') :
    (s.Samples m ∧ ∃ x, s.triangle.next = .ok (x, s'.triangle) ∧
      s.contribution .triangle = .ok x) ∨
    (¬ s.Samples m ∧ ∃ duty, m.actionFor .triangle = some (.setDuty duty) ∧
      s'.triangle = s.triangle.performed s.tuning (.setDuty duty)) ∨
    (¬ s.Samples m ∧ s'.triangle = s.triangle.noteOff) ∨
    (¬ s.Samples m ∧ ∃ vibratoFlag, s'.triangle = { s.triangle with vibratoFlag }) := by
  rcases move_triangle h with hsample | ⟨hno, action, haction, hr⟩ | ⟨hno, hr⟩
  · exact Or.inl hsample
  · rcases s.triangle.performed_cases s.tuning action with ⟨note, velocity, rfl⟩ | ⟨duty, rfl⟩ |
      rfl | ⟨vibratoFlag, hflag⟩
    · exact absurd haction (hm note velocity)
    · exact Or.inr (Or.inl ⟨hno, duty, haction, hr⟩)
    · exact Or.inr (Or.inr (Or.inl ⟨hno, hr⟩))
    · exact Or.inr (Or.inr (Or.inr ⟨hno, vibratoFlag, hr.trans hflag⟩))
  · exact Or.inr (Or.inr (Or.inr ⟨hno, s.triangle.vibratoFlag, hr⟩))

/-- A zero low level stays zero until a note starts. -/
theorem low_move (hm : m.StartsNone .triangle) (hlow : s.triangle.low = 0)
    (h : s.move m = .ok s') : s'.triangle.low = 0 := by
  rcases move_triangle_cases hm h with ⟨-, x, hnext, -⟩ | ⟨-, duty, -, hr⟩ | ⟨-, hr⟩ |
    ⟨-, vibratoFlag, hr⟩
  · rw [(Triangle.next_eq_ok hnext).1.low_eq]
    exact hlow
  · rw [hr]
    exact hlow
  · rw [hr]
    rfl
  · rw [hr]
    exact hlow

/-- Flat ramps stay flat until a note starts or the duty is set. -/
theorem flat_move (hm : m.StartsNone .triangle) (hduty : m.KeepsDuty .triangle)
    (hflat : s.triangle.up = 0 ∧ s.triangle.down = 0) (h : s.move m = .ok s') :
    s'.triangle.up = 0 ∧ s'.triangle.down = 0 := by
  rcases move_triangle_cases hm h with ⟨-, x, hnext, -⟩ | ⟨-, duty, haction, -⟩ | ⟨-, hr⟩ |
    ⟨-, vibratoFlag, hr⟩
  · obtain ⟨hsame, -⟩ := Triangle.next_eq_ok hnext
    rw [hsame.up_eq, hsame.down_eq]
    exact hflat
  · exact absurd haction (hduty duty)
  · rw [hr]
    exact ⟨rfl, rfl⟩
  · rw [hr]
    exact hflat

/-- Between samples the level of the triangle stays until a note starts. -/
theorem current_move (hm : m.StartsNone .triangle) (hno : ¬ s.Samples m) (h : s.move m = .ok s') :
    s'.triangle.current = s.triangle.current := by
  rcases move_triangle_cases hm h with ⟨hyes, -⟩ | ⟨-, duty, -, hr⟩ | ⟨-, hr⟩ | ⟨-, flag, hr⟩
  · exact absurd hyes hno
  · rw [hr]
    rfl
  · rw [hr]
    rfl
  · rw [hr]

/-- The sample of a move is the low level at a wrap and otherwise one step on, and it
is the level afterwards. -/
theorem contribution_move (hm : s.Samples m) (h : s.move m = .ok s') :
    s.contribution .triangle = .ok s'.triangle.current ∧
      s'.triangle.current = if s.triangle.Wraps then s.triangle.low
        else Triangle.saturatingAdd s.triangle.current s.triangle.slope := by
  rcases move_triangle h with ⟨-, x, hnext, hx⟩ | ⟨hno, -⟩ | ⟨hno, -⟩
  · obtain ⟨-, hcurrent, hvalue⟩ := Triangle.next_eq_ok hnext
    rw [hx, hcurrent]
    exact ⟨rfl, hvalue⟩
  · exact absurd hm hno
  · exact absurd hm hno

/-! ## Silence -/

/-- From a level of zero the triangle is silent exactly as long as every sample
wraps or has a flat ramp. -/
theorem silent_iff (moves : List Move) (hmoves : ∀ m ∈ moves, m.StartsNone .triangle)
    (hlow : s.triangle.low = 0) (hcurrent : s.triangle.current = 0) :
    (∀ u ∈ sampled moves s, u.contribution .triangle = .ok 0) ↔
      ∀ u ∈ sampled moves s, u.triangle.Wraps ∨ u.triangle.slope = 0 := by
  induction moves generalizing s with
  | nil => simp [sampled]
  | cons m moves ih =>
    obtain ⟨hm, hrest⟩ := List.forall_mem_cons.1 hmoves
    rcases sampled_cases m moves s with hnone | ⟨s', hok, hsample, hsampled⟩ |
      ⟨s', hok, hno, hsampled⟩
    · simp [hnone]
    · obtain ⟨hx, hvalue⟩ := contribution_move hsample hok
      rw [hlow, hcurrent, Triangle.zero_saturatingAdd] at hvalue
      have hhead : s.contribution .triangle = .ok 0 ↔
          s.triangle.Wraps ∨ s.triangle.slope = 0 := by
        rw [hx, Except.ok.injEq, hvalue]
        by_cases hwraps : s.triangle.Wraps
        · simp only [hwraps, if_true, true_or]
        · simp only [hwraps, if_false, false_or]
      -- a silent sample leaves the level at zero for the rest of the run
      have htail (hzero : s.contribution .triangle = .ok 0) :=
        ih hrest (low_move hm hlow hok) (Except.ok.inj (hx.symm.trans hzero))
      rw [hsampled, List.forall_mem_cons, List.forall_mem_cons, ← hhead]
      exact and_congr_right htail
    · rw [hsampled]
      exact ih hrest (low_move hm hlow hok) ((current_move hm hno hok).trans hcurrent)

/-- The samples of a run from the first wrap of the triangle on. -/
def settled (moves : List Move) (s : Synth ρ) : List (Synth ρ) :=
  (sampled moves s).dropWhile fun u => !decide u.triangle.Wraps

theorem mem_sampled_of_settled {moves : List Move} {u : Synth ρ} (h : u ∈ settled moves s) :
    u ∈ sampled moves s :=
  (List.dropWhile_sublist _).subset h

/-- Once the phase has wrapped to a zero low level, silence lasts exactly as long as
the ramps are flat. -/
theorem settled_silent_iff (moves : List Move) (hmoves : ∀ m ∈ moves, m.StartsNone .triangle)
    (hlow : s.triangle.low = 0) :
    (∀ u ∈ settled moves s, u.contribution .triangle = .ok 0) ↔
      ∀ u ∈ settled moves s, u.triangle.Wraps ∨ u.triangle.slope = 0 := by
  induction moves generalizing s with
  | nil => simp [settled, sampled]
  | cons m moves ih =>
    obtain ⟨hm, hrest⟩ := List.forall_mem_cons.1 hmoves
    rcases sampled_cases m moves s with hnone | ⟨s', hok, hsample, hsampled⟩ |
      ⟨s', hok, -, hsampled⟩
    · simp [settled, hnone]
    · by_cases hwraps : s.triangle.Wraps
      · -- the first wrap: the low level is heard and the level is zero after it
        have hall : settled (m :: moves) s = s :: sampled moves s' := by
          simp [settled, hsampled, hwraps]
        obtain ⟨hx, hvalue⟩ := contribution_move hsample hok
        rw [if_pos hwraps, hlow] at hvalue
        rw [hall, List.forall_mem_cons, List.forall_mem_cons, hx, hvalue]
        simp only [hwraps, true_or, true_and]
        exact silent_iff moves hrest (low_move hm hlow hok) hvalue
      · have hlater : settled (m :: moves) s = settled moves s' := by
          simp [settled, hsampled, hwraps]
        rw [hlater]
        exact ih hrest (low_move hm hlow hok)
    · have hlater : settled (m :: moves) s = settled moves s' := by
        simp only [settled, hsampled]
      rw [hlater]
      exact ih hrest (low_move hm hlow hok)

/-- The samples from the first wrap on are none only when no sample wraps. -/
theorem settled_ne_nil {moves : List Move} {u : Synth ρ} (hu : u ∈ sampled moves s)
    (hwraps : u.triangle.Wraps) : settled moves s ≠ [] := by
  intro hnil
  have hno := List.dropWhile_eq_nil_iff.1 hnil u hu
  simp [hwraps] at hno

/-- The phase of the triangle wraps within a period, whatever is done to its duty in
the meantime. -/
theorem exists_wraps (moves : List Move) (hmoves : ∀ m ∈ moves, m.StartsNone .triangle)
    {reach : Nat} (hpos : s.triangle.phase.period ≠ Fixed.zero)
    (hedge : s.triangle.phase.edge.units ≤ reach) (hperiod : s.triangle.phase.period.units ≤ reach)
    (hlong : s.triangle.phase.wait reach s.triangle.rising ≤ (sampled moves s).length) :
    ∃ u ∈ sampled moves s, u.triangle.Wraps := by
  induction moves generalizing s with
  | nil => exact absurd hlong (Nat.not_le.2 (Phase.wait_pos _ _ _))
  | cons m moves ih =>
    obtain ⟨hm, hrest⟩ := List.forall_mem_cons.1 hmoves
    rcases sampled_cases m moves s with hnone | ⟨s', hok, hsample, hsampled⟩ |
      ⟨s', hok, hno, hsampled⟩
    · rw [hnone] at hlong
      exact absurd hlong (Nat.not_le.2 (Phase.wait_pos _ _ _))
    · rw [hsampled] at hlong ⊢
      by_cases hwraps : s.triangle.Wraps
      · exact ⟨s, List.mem_cons_self, hwraps⟩
      · -- the wait gets shorter by the sample that the list loses
        obtain ⟨-, x, hnext, -⟩ | ⟨hno, -⟩ | ⟨hno, -⟩ := move_triangle hok
        · obtain ⟨hsame, -⟩ := Triangle.next_eq_ok hnext
          have hnearer := Triangle.wait_next hnext hwraps hpos hedge hperiod
          rw [List.length_cons] at hlong
          obtain ⟨u, hu, hwraps'⟩ := ih hrest (hsame.period_eq ▸ hpos) (hsame.edge_eq ▸ hedge)
            (hsame.period_eq ▸ hperiod) (by omega)
          exact ⟨u, List.mem_cons_of_mem s hu, hwraps'⟩
        · exact absurd hsample hno
        · exact absurd hsample hno
    · rw [hsampled] at hlong ⊢
      rcases move_triangle_cases hm hok with ⟨hyes, -⟩ | ⟨-, duty, -, hr⟩ | ⟨-, hr⟩ | ⟨-, flag, hr⟩
      · exact absurd hyes hno
      · -- a new edge lies within the period
        refine ih hrest ?_ ?_ ?_ ?_
        · rw [hr]
          exact hpos
        · rw [hr]
          exact Nat.le_trans (Phase.units_edgeAt_le _ duty) hperiod
        · rw [hr]
          exact hperiod
        · rw [hr]
          exact hlong
      · exact ih hrest (hr ▸ hpos) (hr ▸ hedge) (hr ▸ hperiod) (hr ▸ hlong)
      · exact ih hrest (hr ▸ hpos) (hr ▸ hedge) (hr ▸ hperiod) (hr ▸ hlong)

/-- After the end of its note, and until the next one starts, every sample of the
triangle at a wrap of its phase is zero. From the first wrap on it is silent exactly
when every other sample has a flat ramp, and so whenever its duty is left alone. The
first wrap comes within the longer of the period and the edge. -/
theorem released_triangle_silent_iff (s : Synth ρ) (c : Command) (moves : List Move)
    (hc : c.actionFor .triangle = some .noteOff)
    (hmoves : ∀ m ∈ moves, m.StartsNone .triangle) :
    ∃ s₁, s.apply c = .ok s₁ ∧
      (∀ u ∈ sampled moves s₁, u.triangle.Wraps → u.contribution .triangle = .ok 0) ∧
      ((∀ u ∈ settled moves s₁, u.contribution .triangle = .ok 0) ↔
        ∀ u ∈ settled moves s₁, u.triangle.Wraps ∨ u.triangle.slope = 0) ∧
      ((∀ m ∈ moves, m.KeepsDuty .triangle) →
        ∀ u ∈ settled moves s₁, u.contribution .triangle = .ok 0) ∧
      (s.triangle.phase.period ≠ Fixed.zero →
        max s.triangle.phase.edge.units s.triangle.phase.period.units / 65536 + 2 ≤
          (sampled moves s₁).length → settled moves s₁ ≠ []) := by
  have hr : (s.applied c).triangle = s.triangle.noteOff := by
    simp only [applied, hc]
    rfl
  have hlow : (s.applied c).triangle.low = 0 := by rw [hr]; rfl
  have hsilent := settled_silent_iff moves hmoves hlow
  refine ⟨s.applied c, apply_eq s c, ?_, hsilent, ?_, ?_⟩
  · intro u hu hwraps
    have hzero : u.triangle.low = 0 := sampled_keeps moves
      (fun s s' m hm hlow hok => low_move (hmoves m hm) hlow hok) hlow u hu
    obtain ⟨x, v, hmix⟩ := mix_of_mem_sampled hu
    obtain ⟨y, hparts, -⟩ := mix_iff.1 hmix
    obtain ⟨-, -, hy⟩ := Triangle.next_eq_ok (Part.next_triangle.1 (hparts .triangle))
    rw [contribution_eq_ok.2 ⟨_, hparts .triangle⟩, hy, if_pos hwraps, hzero]
  · -- without a new duty the ramps stay as the end of the note left them
    intro hduty
    apply hsilent.2
    intro u hu
    have hflat : u.triangle.up = 0 ∧ u.triangle.down = 0 := sampled_keeps moves
      (fun s s' m hm hflat hok => flat_move (hmoves m hm) (hduty m hm) hflat hok)
      (by rw [hr]; exact ⟨rfl, rfl⟩) u (mem_sampled_of_settled hu)
    refine Or.inr ?_
    simp only [Triangle.slope, hflat.1, hflat.2, ite_self]
  · intro hpos hlong
    have hsame : (s.applied c).triangle.phase = s.triangle.phase := by rw [hr]; rfl
    obtain ⟨u, hu, hwraps⟩ := exists_wraps moves hmoves (hsame ▸ hpos)
      (hsame ▸ Nat.le_max_left _ _) (hsame ▸ Nat.le_max_right _ _)
      (Nat.le_trans (Phase.wait_le _ _ _) hlong)
    exact settled_ne_nil hu hwraps

theorem released_triangle_silent_within_six :
    let s := (Synth.tuned ⟨48000, Vector.replicate 128 ⟨262144⟩⟩ (Lfsr.seeded 1)).applied
      (.address 2 (.noteOn 69 100))
    let moves : List Move :=
      [.mix, .command (.address 2 .vibratoOn), .mix, .modulate, .mix, .command .allNotesOff, .mix,
        .command (.address 0 (.noteOn 60 100)), .mix, .tick]
    ∃ s₁, s.apply .allNotesOff = .ok s₁ ∧ settled moves s₁ ≠ [] ∧
      ∀ u ∈ settled moves s₁, u.contribution .triangle = .ok 0 := by
  intro s moves
  have hmoves : ∀ m ∈ moves, m.StartsNone .triangle := by
    simp [moves, Move.StartsNone, Move.actionFor, Command.actionFor, Channel.number]
  have hduty : ∀ m ∈ moves, m.KeepsDuty .triangle := by
    simp [moves, Move.KeepsDuty, Move.actionFor, Command.actionFor, Channel.number]
  obtain ⟨s₁, hs₁, -, -, hsilent, hwrap⟩ :=
    released_triangle_silent_iff s .allNotesOff moves rfl hmoves
  obtain rfl := Except.ok.inj ((apply_eq s .allNotesOff).symm.trans hs₁)
  exact ⟨_, hs₁, hwrap (by decide) (by decide +kernel), hsilent hduty⟩

/-- A duty set after the end of a note brings back the ramps of that note. -/
theorem duty_after_release_sounds :
    let s := (Synth.tuned ⟨48000, Vector.replicate 128 ⟨262144⟩⟩ (Lfsr.seeded 1)).applied
      (.address 2 (.noteOn 69 100))
    let moves : List Move := .command (.address 2 (.setDuty 128)) :: List.replicate 7 .mix
    (∀ m ∈ moves, m.StartsNone .triangle) ∧
      ∃ s₁, s.apply (.address 2 .noteOff) = .ok s₁ ∧
        (settled moves s₁).map (fun u => (u.contribution .triangle).toOption) =
          [some 0, some 1594, some 3188, some 4782] := by
  intro s moves
  refine ⟨?_, _, apply_eq s _, by decide +kernel⟩
  simp [moves, Move.StartsNone, Move.actionFor, Command.actionFor]

end Synth

end Chiptune
