import Chiptune.Proofs.Moves

/-!
# The parts of a synthesizer

A synthesizer is a tuning, a ring and four channels, and a channel is a `Part`:
its voice, and for the noise the bit source as well. Whatever is done to the
synthesizer is done to each part by itself (`part_applied`, `modulate_iff`,
`mix_iff`), so what a move does to a part depends on nothing else (`move_part`;
`move_square`, `move_triangle` and `move_noise` say it of the voices).

`sampled` lists the synthesizers of a run that are to give a sample. What the moves
of a run keep holds at all of them (`sampled_keeps`).
-/

set_option autoImplicit false

namespace Chiptune

variable {ρ : Type}

theorem Square.modulateEnvelope_eq_ok {q q' : Square} :
    q.modulateEnvelope = .ok q' ↔
      ∃ amplitude, q.amplitude.modulate = .ok amplitude ∧ { q with amplitude } = q' := by
  simp only [modulateEnvelope, bind_eq_ok, pure, Except.pure, Except.ok.injEq]

theorem Noise.modulateEnvelope_eq_ok {n n' : Noise} :
    n.modulateEnvelope = .ok n' ↔
      ∃ amplitude, n.amplitude.modulate = .ok amplitude ∧ { n with amplitude } = n' := by
  simp only [modulateEnvelope, bind_eq_ok, pure, Except.pure, Except.ok.injEq]

/-- All that belongs to one channel. The bit source belongs to the noise. -/
inductive Part (ρ : Type) where
  | square (state : Square)
  | triangle (state : Triangle)
  | noise (state : Noise) (source : ρ)

namespace Part

/-- The part after an action. -/
def performed (t : Tuning) : Part ρ → Action → Part ρ
  | square q, action => square (q.performed t action)
  | triangle r, action => triangle (r.performed t action)
  | noise n source, action => noise (n.performed action) source

/-- One modulation tick. The triangle has nothing to modulate. -/
def modulate : Part ρ → Except Fault (Part ρ)
  | square q => do
      let q ← q.modulateVibrato
      let q ← q.modulateEnvelope
      return square q
  | triangle r => .ok (triangle r)
  | noise n source => do
      let n ← n.modulateEnvelope
      return noise n source

/-- One sample. Only the noise draws from the bit source. -/
def next [BitSource ρ] : Part ρ → Except Fault (Int16 × Part ρ)
  | square q => do
      let (x, q) ← q.next
      return (x, square q)
  | triangle r => do
      let (x, r) ← r.next
      return (x, triangle r)
  | noise n source => do
      let (x, n, source) ← n.next source
      return (x, noise n source)

section Equations

variable {q q' : Square} {r r' : Triangle} {n n' : Noise} {source source' : ρ}

theorem modulate_square : (square q : Part ρ).modulate = .ok (square q') ↔
    ∃ q₁, q.modulateVibrato = .ok q₁ ∧ q₁.modulateEnvelope = .ok q' := by
  simp only [modulate, bind_eq_ok, pure, Except.pure, Except.ok.injEq, square.injEq,
    exists_eq_right]

theorem modulate_noise : (noise n source).modulate = .ok (noise n' source') ↔
    n.modulateEnvelope = .ok n' ∧ source = source' := by
  simp only [modulate, bind_eq_ok, pure, Except.pure, Except.ok.injEq, noise.injEq]
  constructor
  · rintro ⟨n₁, hn, rfl, rfl⟩
    exact ⟨hn, rfl⟩
  · rintro ⟨hn, rfl⟩
    exact ⟨n', hn, rfl, rfl⟩

/-- A tick leaves a square a square. -/
theorem exists_of_modulate_square {p' : Part ρ} (h : (square q).modulate = .ok p') :
    ∃ q₁ q', p' = square q' ∧ q.modulateVibrato = .ok q₁ ∧ q₁.modulateEnvelope = .ok q' := by
  simp only [modulate, bind_eq_ok, pure, Except.pure, Except.ok.injEq] at h
  obtain ⟨q₁, hvibrato, q', henvelope, rfl⟩ := h
  exact ⟨q₁, q', rfl, hvibrato, henvelope⟩

theorem exists_of_modulate_noise {p' : Part ρ} (h : (noise n source).modulate = .ok p') :
    ∃ n', p' = noise n' source ∧ n.modulateEnvelope = .ok n' := by
  simp only [modulate, bind_eq_ok, pure, Except.pure, Except.ok.injEq] at h
  obtain ⟨n', henvelope, rfl⟩ := h
  exact ⟨n', rfl, henvelope⟩

variable [BitSource ρ] {x : Int16}

theorem next_square : (square q : Part ρ).next = .ok (x, square q') ↔ q.next = .ok (x, q') := by
  simp only [next, bind_eq_ok, pure, Except.pure, Except.ok.injEq, Prod.exists, Prod.mk.injEq,
    square.injEq, exists_eq_right_right, exists_eq_right]

theorem next_triangle :
    (triangle r : Part ρ).next = .ok (x, triangle r') ↔ r.next = .ok (x, r') := by
  simp only [next, bind_eq_ok, pure, Except.pure, Except.ok.injEq, Prod.exists, Prod.mk.injEq,
    triangle.injEq, exists_eq_right_right, exists_eq_right]

theorem next_noise : (noise n source).next = .ok (x, noise n' source') ↔
    n.next source = .ok (x, n', source') := by
  simp only [next, bind_eq_ok, pure, Except.pure, Except.ok.injEq, Prod.exists, Prod.mk.injEq,
    noise.injEq]
  constructor
  · rintro ⟨y, n₁, source₁, hn, rfl, rfl, rfl⟩
    exact hn
  · intro hn
    exact ⟨x, n', source', hn, rfl, rfl, rfl⟩

/-- A sample leaves a square a square. -/
theorem exists_of_next_square {p' : Part ρ} (h : (square q).next = .ok (x, p')) :
    ∃ q', p' = square q' ∧ q.next = .ok (x, q') := by
  simp only [next, bind_eq_ok, pure, Except.pure, Except.ok.injEq, Prod.exists,
    Prod.mk.injEq] at h
  obtain ⟨y, q', hnext, rfl, rfl⟩ := h
  exact ⟨q', rfl, hnext⟩

theorem exists_of_next_triangle {p' : Part ρ} (h : (triangle r).next = .ok (x, p')) :
    ∃ r', p' = triangle r' ∧ r.next = .ok (x, r') := by
  simp only [next, bind_eq_ok, pure, Except.pure, Except.ok.injEq, Prod.exists,
    Prod.mk.injEq] at h
  obtain ⟨y, r', hnext, rfl, rfl⟩ := h
  exact ⟨r', rfl, hnext⟩

theorem exists_of_next_noise {p' : Part ρ} (h : (noise n source).next = .ok (x, p')) :
    ∃ n' source', p' = noise n' source' ∧ n.next source = .ok (x, n', source') := by
  simp only [next, bind_eq_ok, pure, Except.pure, Except.ok.injEq, Prod.exists,
    Prod.mk.injEq] at h
  obtain ⟨y, n', source', hnext, rfl, rfl⟩ := h
  exact ⟨n', source', rfl, hnext⟩

end Equations

end Part

/-- The action that a move has for a channel. -/
def Move.actionFor (c : Channel) : Move → Option Action
  | .command given => given.actionFor c
  | .modulate | .mix | .tick | .pop => none

theorem Move.actionFor_eq_some {m : Move} {c : Channel} {action : Action}
    (h : m.actionFor c = some action) :
    ∃ given, m = .command given ∧ given.actionFor c = some action := by
  cases m with
  | command given => exact ⟨given, rfl, h⟩
  | modulate => cases h
  | mix => cases h
  | tick => cases h
  | pop => cases h

namespace Synth

/-- The part of a synthesizer on a channel. -/
def part (s : Synth ρ) : Channel → Part ρ
  | .squareA => .square s.squareA
  | .squareB => .square s.squareB
  | .triangle => .triangle s.triangle
  | .noise => .noise s.noise s.source

/-- A synthesizer is its parts, its tuning and its ring. -/
theorem ext_parts {s s' : Synth ρ} (hparts : ∀ c, s.part c = s'.part c)
    (htuning : s.tuning = s'.tuning) (hring : s.ring = s'.ring) : s = s' := by
  obtain ⟨t, a, b, r, n, source, ring⟩ := s
  obtain ⟨t', a', b', r', n', source', ring'⟩ := s'
  have ha := hparts .squareA
  have hb := hparts .squareB
  have hr := hparts .triangle
  have hn := hparts .noise
  simp only [part, Part.square.injEq, Part.triangle.injEq, Part.noise.injEq] at ha hb hr hn
  obtain ⟨rfl, rfl⟩ := hn
  subst ha hb hr
  obtain rfl : t = t' := htuning
  obtain rfl : ring = ring' := hring
  rfl

/-! ## What is done to each part -/

theorem part_withRing (s : Synth ρ) (ring : SampleRing ringCapacity) (c : Channel) :
    (s.withRing ring).part c = s.part c := by
  cases c <;> rfl

theorem part_applied (s : Synth ρ) (command : Command) (c : Channel) :
    (s.applied command).part c =
      ((command.actionFor c).map ((s.part c).performed s.tuning)).getD (s.part c) := by
  cases c with
  | squareA => simp only [part, applied]; cases command.actionFor .squareA <;> rfl
  | squareB => simp only [part, applied]; cases command.actionFor .squareB <;> rfl
  | triangle => simp only [part, applied]; cases command.actionFor .triangle <;> rfl
  | noise => simp only [part, applied]; cases command.actionFor .noise <;> rfl

/-- A modulation tick is one of each part. -/
theorem modulate_iff {s s' : Synth ρ} :
    s.modulate = .ok s' ↔ (∀ c, (s.part c).modulate = .ok (s'.part c)) ∧
      s'.tuning = s.tuning ∧ s'.ring = s.ring := by
  constructor
  · intro h
    simp only [modulate, bind_eq_ok, pure, Except.pure, Except.ok.injEq] at h
    obtain ⟨a, ha, b, hb, a', ha', b', hb', n, hn, rfl⟩ := h
    refine ⟨fun c => ?_, rfl, rfl⟩
    cases c with
    | squareA => exact Part.modulate_square.2 ⟨a, ha, ha'⟩
    | squareB => exact Part.modulate_square.2 ⟨b, hb, hb'⟩
    | triangle => rfl
    | noise => exact Part.modulate_noise.2 ⟨hn, rfl⟩
  · rintro ⟨hparts, htuning, hring⟩
    obtain ⟨a, ha, ha'⟩ := Part.modulate_square.1 (hparts .squareA)
    obtain ⟨b, hb, hb'⟩ := Part.modulate_square.1 (hparts .squareB)
    obtain ⟨hn, hsource⟩ := Part.modulate_noise.1 (hparts .noise)
    have htriangle := Except.ok.inj (hparts .triangle)
    simp only [modulate, ha, hb, ha', hb', hn, bind, Except.bind, pure, Except.pure,
      Except.ok.injEq]
    refine ext_parts (fun c => ?_) htuning.symm hring.symm
    cases c with
    | squareA => rfl
    | squareB => rfl
    | triangle => exact htriangle
    | noise => simp only [part, hsource]

/-- A modulation tick succeeds when it does on every part. -/
theorem exists_modulate {s : Synth ρ} (h : ∀ c, ∃ p, (s.part c).modulate = .ok p) :
    ∃ s', s.modulate = .ok s' := by
  obtain ⟨pa, ha⟩ := h .squareA
  obtain ⟨pb, hb⟩ := h .squareB
  obtain ⟨pn, hn⟩ := h .noise
  simp only [part, Part.modulate, bind_eq_ok] at ha hb hn
  obtain ⟨a, ha, a', ha', -⟩ := ha
  obtain ⟨b, hb, b', hb', -⟩ := hb
  obtain ⟨n, hn, -⟩ := hn
  simp only [modulate, ha, hb, ha', hb', hn, bind, Except.bind, pure, Except.pure,
    Except.ok.injEq, exists_eq']

variable [BitSource ρ]

/-- What a channel adds to the next sample. -/
def contribution (c : Channel) (s : Synth ρ) : Except Fault Int16 := (s.part c).next.map Prod.fst

/-- A mixed sample is one sample of each part, summed. -/
theorem mix_iff {s s' : Synth ρ} {x : Int16} :
    s.mix = .ok (x, s') ↔ ∃ y : Channel → Int16,
      (∀ c, (s.part c).next = .ok (y c, s'.part c)) ∧
      x = sum (y .squareA) (y .squareB) (y .triangle) (y .noise) ∧
      s'.tuning = s.tuning ∧ s'.ring = s.ring := by
  constructor
  · intro h
    simp only [mix, bind_eq_ok, pure, Except.pure, Except.ok.injEq, Prod.exists, Prod.mk.injEq] at h
    obtain ⟨a, squareA, ha, b, squareB, hb, r, triangle, hr, n, noise, source, hn, rfl, rfl⟩ := h
    refine ⟨fun c => match c with
      | .squareA => a
      | .squareB => b
      | .triangle => r
      | .noise => n, fun c => ?_, rfl, rfl, rfl⟩
    cases c with
    | squareA => exact Part.next_square.2 ha
    | squareB => exact Part.next_square.2 hb
    | triangle => exact Part.next_triangle.2 hr
    | noise => exact Part.next_noise.2 hn
  · rintro ⟨y, hparts, rfl, htuning, hring⟩
    have ha := Part.next_square.1 (hparts .squareA)
    have hb := Part.next_square.1 (hparts .squareB)
    have hr := Part.next_triangle.1 (hparts .triangle)
    have hn := Part.next_noise.1 (hparts .noise)
    simp only [mix, ha, hb, hr, hn, bind, Except.bind, pure, Except.pure, Except.ok.injEq,
      Prod.mk.injEq, true_and]
    refine ext_parts (fun c => ?_) htuning.symm hring.symm
    cases c <;> rfl

/-- A mixed sample is there when every part has one. -/
theorem exists_mix {s : Synth ρ} (h : ∀ c, ∃ r, (s.part c).next = .ok r) :
    ∃ x s', s.mix = .ok (x, s') := by
  obtain ⟨pa, ha⟩ := h .squareA
  obtain ⟨pb, hb⟩ := h .squareB
  obtain ⟨pt, ht⟩ := h .triangle
  obtain ⟨pn, hn⟩ := h .noise
  simp only [part, Part.next, bind_eq_ok, Prod.exists] at ha hb ht hn
  obtain ⟨a, squareA, ha, -⟩ := ha
  obtain ⟨b, squareB, hb, -⟩ := hb
  obtain ⟨r, triangle, ht, -⟩ := ht
  obtain ⟨n, noise, source, hn, -⟩ := hn
  simp only [mix, ha, hb, ht, hn, bind, Except.bind, pure, Except.pure, Except.ok.injEq,
    Prod.mk.injEq, exists_and_left, exists_eq', and_true]

/-- The synthesizers of a run that are to give a sample. -/
def sampled : List Move → Synth ρ → List (Synth ρ)
  | [], _ => []
  | m :: moves, s =>
      match s.move m with
      | .error _ => []
      | .ok s' => if s.Samples m then s :: sampled moves s' else sampled moves s'

theorem sampled_cons {m : Move} {moves : List Move} {s s' : Synth ρ} (h : s.move m = .ok s') :
    sampled (m :: moves) s = if s.Samples m then s :: sampled moves s' else sampled moves s' := by
  simp only [sampled, h]

/-- A move ends the samples with a fault, gives one, or gives none. -/
theorem sampled_cases (m : Move) (moves : List Move) (s : Synth ρ) :
    sampled (m :: moves) s = [] ∨
    (∃ s', s.move m = .ok s' ∧ s.Samples m ∧ sampled (m :: moves) s = s :: sampled moves s') ∨
    (∃ s', s.move m = .ok s' ∧ ¬ s.Samples m ∧ sampled (m :: moves) s = sampled moves s') := by
  cases hok : s.move m with
  | error f =>
    refine Or.inl ?_
    simp only [sampled, hok]
  | ok s' =>
    refine Or.inr ?_
    rw [sampled_cons hok]
    by_cases hm : s.Samples m
    · exact Or.inl ⟨s', rfl, hm, if_pos hm⟩
    · exact Or.inr ⟨s', rfl, hm, if_neg hm⟩

/-- Every sample of a run is mixed without a fault. -/
theorem mix_of_mem_sampled {moves : List Move} {s u : Synth ρ} (h : u ∈ sampled moves s) :
    ∃ x v, u.mix = .ok (x, v) := by
  induction moves generalizing s with
  | nil => cases h
  | cons m moves ih =>
    rcases sampled_cases m moves s with hnone | ⟨s', hok, hm, hsampled⟩ | ⟨s', -, -, hsampled⟩
    · rw [hnone] at h
      cases h
    · rw [hsampled] at h
      rcases List.mem_cons.1 h with rfl | h
      · obtain ⟨x, v, hmix, -⟩ := move_of_samples hm hok
        exact ⟨x, v, hmix⟩
      · exact ih h
    · rw [hsampled] at h
      exact ih h

/-- What the moves of a run keep, each where it is made, holds at every sample. -/
theorem sampled_keeps_where {P : Synth ρ → Prop} {Q : Synth ρ → Move → Prop} (moves : List Move)
    {s : Synth ρ} (hmove : ∀ (s s' : Synth ρ) (m : Move), P s → Q s m → s.move m = .ok s' → P s')
    (hs : P s)
    (hmoves : ∀ first m rest s', moves = first ++ m :: rest → s.run first = .ok s' → Q s' m) :
    ∀ u ∈ sampled moves s, P u := by
  induction moves generalizing s with
  | nil =>
    intro u hu
    cases hu
  | cons m moves ih =>
    have hm := hmoves [] m moves s rfl rfl
    have hrest {s₁ : Synth ρ} (hok : s.move m = .ok s₁) : ∀ u ∈ sampled moves s₁, P u := by
      refine ih (hmove s s₁ m hs hm hok) fun first m' rest s' hsplit hfirst => ?_
      refine hmoves (m :: first) m' rest s' ?_ (run_cons_eq_ok.2 ⟨s₁, hok, hfirst⟩)
      rw [hsplit]
      rfl
    intro u hu
    rcases sampled_cases m moves s with hnone | ⟨s', hok, -, hsampled⟩ | ⟨s', hok, -, hsampled⟩
    · rw [hnone] at hu
      cases hu
    · rw [hsampled] at hu
      rcases List.mem_cons.1 hu with rfl | hu
      · exact hs
      · exact hrest hok u hu
    · rw [hsampled] at hu
      exact hrest hok u hu

/-- What every move of a run keeps holds at each of its samples. -/
theorem sampled_keeps {P : Synth ρ → Prop} (moves : List Move) {s : Synth ρ}
    (hmove : ∀ (s s' : Synth ρ), ∀ m ∈ moves, P s → s.move m = .ok s' → P s') (hs : P s) :
    ∀ u ∈ sampled moves s, P u := by
  refine sampled_keeps_where (Q := fun _ m => m ∈ moves) moves
    (fun s s' m hs hm hok => hmove s s' m hm hs hok) hs ?_
  rintro first m rest s' hsplit -
  rw [hsplit]
  exact List.mem_append_right first List.mem_cons_self

theorem contribution_eq_ok {s : Synth ρ} {c : Channel} {x : Int16} :
    s.contribution c = .ok x ↔ ∃ p, (s.part c).next = .ok (x, p) := by
  unfold contribution
  cases (s.part c).next with
  | error f => simp [Except.map]
  | ok r => simp [Except.map, Prod.ext_iff]

/-- A move gives a part a sample, a modulation tick, an action, or nothing. -/
theorem move_part {s s' : Synth ρ} {m : Move} (h : s.move m = .ok s') (c : Channel) :
    (s.Samples m ∧ ∃ x, (s.part c).next = .ok (x, s'.part c)) ∨
    (¬ s.Samples m ∧ m = .modulate ∧ (s.part c).modulate = .ok (s'.part c)) ∨
    (¬ s.Samples m ∧ ∃ action, m.actionFor c = some action ∧
      s'.part c = (s.part c).performed s.tuning action) ∨
    (¬ s.Samples m ∧ s'.part c = s.part c) := by
  by_cases hm : s.Samples m
  · obtain ⟨x, s₁, hmix, ring', rfl⟩ := move_of_samples hm h
    obtain ⟨y, hparts, -⟩ := mix_iff.1 hmix
    rw [part_withRing]
    exact Or.inl ⟨hm, y c, hparts c⟩
  · refine Or.inr ?_
    rcases move_of_not_samples hm h with ⟨command, rfl, rfl⟩ | ⟨rfl, hmodulate⟩ | ⟨ring', rfl⟩
    · refine Or.inr ?_
      rw [part_applied]
      cases hc : command.actionFor c with
      | none => exact Or.inr ⟨hm, rfl⟩
      | some action => exact Or.inl ⟨hm, action, hc, rfl⟩
    · exact Or.inl ⟨hm, rfl, (modulate_iff.1 hmodulate).1 c⟩
    · exact Or.inr (Or.inr ⟨hm, part_withRing s ring' c⟩)

theorem tuning_move {s s' : Synth ρ} {m : Move} (h : s.move m = .ok s') : s'.tuning = s.tuning := by
  by_cases hm : s.Samples m
  · obtain ⟨x, s₁, hmix, ring', rfl⟩ := move_of_samples hm h
    obtain ⟨y, -, -, htuning, -⟩ := mix_iff.1 hmix
    exact htuning
  · rcases move_of_not_samples hm h with ⟨command, rfl, rfl⟩ | ⟨rfl, hmodulate⟩ | ⟨ring', rfl⟩
    · rfl
    · exact (modulate_iff.1 hmodulate).2.1
    · rfl

end Synth

/-! ## The voices -/

/-- One of the two squares. -/
inductive Side where
  | a
  | b
  deriving DecidableEq, Repr

/-- The channel of a square. -/
def Side.channel : Side → Channel
  | .a => .squareA
  | .b => .squareB

namespace Synth

/-- The square on a side. -/
def square (s : Synth ρ) : Side → Square
  | .a => s.squareA
  | .b => s.squareB

theorem part_side (s : Synth ρ) (side : Side) : s.part side.channel = .square (s.square side) := by
  cases side <;> rfl

theorem square_withRing (s : Synth ρ) (ring : SampleRing ringCapacity) (side : Side) :
    (s.withRing ring).square side = s.square side := by
  cases side <;> rfl

theorem applied_square (s : Synth ρ) (c : Command) (side : Side) :
    (s.applied c).square side =
      ((c.actionFor side.channel).map ((s.square side).performed s.tuning)).getD
        (s.square side) := by
  cases side <;> rfl

variable [BitSource ρ] {s s' : Synth ρ} {m : Move}

/-- A mixed sample gives each square and the noise one. -/
theorem mix_eq_ok {x : Int16} (h : s.mix = .ok (x, s')) :
    (∀ side, ∃ y, (s.square side).next = .ok (y, s'.square side)) ∧
      (∃ y, s.noise.next s.source = .ok (y, s'.noise, s'.source)) ∧ s'.tuning = s.tuning := by
  obtain ⟨y, hparts, -, htuning, -⟩ := mix_iff.1 h
  refine ⟨fun side => ⟨y side.channel, ?_⟩, ⟨y .noise, Part.next_noise.1 (hparts .noise)⟩, htuning⟩
  have hpart := hparts side.channel
  rw [part_side, part_side] at hpart
  exact Part.next_square.1 hpart

/-- A move gives a square a sample, a modulation tick, an action, or nothing. -/
theorem move_square (h : s.move m = .ok s') (side : Side) :
    (s.Samples m ∧ ∃ x, (s.square side).next = .ok (x, s'.square side)) ∨
    (m = .modulate ∧ ∃ q, (s.square side).modulateVibrato = .ok q ∧
      q.modulateEnvelope = .ok (s'.square side)) ∨
    (∃ c action, m = .command c ∧ c.actionFor side.channel = some action ∧
      s'.square side = (s.square side).performed s.tuning action) ∨
    s'.square side = s.square side := by
  have hpart := move_part h side.channel
  rw [part_side, part_side] at hpart
  rcases hpart with ⟨hm, x, hnext⟩ | ⟨-, hm, hmodulate⟩ | ⟨-, action, haction, hq⟩ | ⟨-, hq⟩
  · exact Or.inl ⟨hm, x, Part.next_square.1 hnext⟩
  · exact Or.inr (Or.inl ⟨hm, Part.modulate_square.1 hmodulate⟩)
  · obtain ⟨c, hm, hc⟩ := Move.actionFor_eq_some haction
    exact Or.inr (Or.inr (Or.inl ⟨c, action, hm, hc, Part.square.inj hq⟩))
  · exact Or.inr (Or.inr (Or.inr (Part.square.inj hq)))

/-- A move gives the noise a sample, a modulation tick, an action, or nothing. -/
theorem move_noise (h : s.move m = .ok s') :
    (s.Samples m ∧ ∃ x, s.noise.next s.source = .ok (x, s'.noise, s'.source)) ∨
    (m = .modulate ∧ s.noise.modulateEnvelope = .ok s'.noise) ∨
    (∃ c action, m = .command c ∧ c.actionFor .noise = some action ∧
      s'.noise = s.noise.performed action) ∨
    s'.noise = s.noise := by
  rcases move_part h .noise with ⟨hm, x, hnext⟩ | ⟨-, hm, hmodulate⟩ | ⟨-, action, haction, hn⟩ |
    ⟨-, hn⟩
  · exact Or.inl ⟨hm, x, Part.next_noise.1 hnext⟩
  · exact Or.inr (Or.inl ⟨hm, (Part.modulate_noise.1 hmodulate).1⟩)
  · obtain ⟨c, hm, hc⟩ := Move.actionFor_eq_some haction
    exact Or.inr (Or.inr (Or.inl ⟨c, action, hm, hc, (Part.noise.inj hn).1⟩))
  · exact Or.inr (Or.inr (Or.inr (Part.noise.inj hn).1))

/-- A move gives the triangle a sample, an action, or nothing. -/
theorem move_triangle (h : s.move m = .ok s') :
    (s.Samples m ∧ ∃ x, s.triangle.next = .ok (x, s'.triangle) ∧
      s.contribution .triangle = .ok x) ∨
    (¬ s.Samples m ∧ ∃ action, m.actionFor .triangle = some action ∧
      s'.triangle = s.triangle.performed s.tuning action) ∨
    (¬ s.Samples m ∧ s'.triangle = s.triangle) := by
  rcases move_part h .triangle with ⟨hm, x, hnext⟩ | ⟨hm, -, hmodulate⟩ |
    ⟨hm, action, haction, hpart⟩ | ⟨hm, hpart⟩
  · exact Or.inl ⟨hm, x, Part.next_triangle.1 hnext, contribution_eq_ok.2 ⟨_, hnext⟩⟩
  · exact Or.inr (Or.inr ⟨hm, (Part.triangle.inj (Except.ok.inj hmodulate)).symm⟩)
  · exact Or.inr (Or.inl ⟨hm, action, haction, Part.triangle.inj hpart⟩)
  · exact Or.inr (Or.inr ⟨hm, Part.triangle.inj hpart⟩)

end Synth

end Chiptune
