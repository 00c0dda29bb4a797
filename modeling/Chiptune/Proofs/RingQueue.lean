import Chiptune.SampleRing
import Mathlib.Data.Nat.ModEq

/-!
# Rings as queues

The samples of a ring, oldest first, are the cells from the read cursor on,
modulo the capacity (`contents`). A ring is sound when its cursors enclose that
many cells; every ring built from an empty one is sound (`Built.sound`). On a
sound ring a push with room appends to the contents (`push_contents`) and a pop
takes their head (`pop_contents`).
-/

set_option autoImplicit false

namespace Chiptune.SampleRing

variable {capacity : Nat}

/-- The value in a cell; zero outside the ring. -/
def cell (r : SampleRing capacity) (place : Nat) : Int16 := r.cells[place]?.getD 0

/-- The samples in the ring, oldest first. -/
def contents (r : SampleRing capacity) : List Int16 :=
  (List.range r.length).map fun i => r.cell ((r.read + i) % capacity)

/-- The cursors stand on the first and on the last of `length` cells in a row. -/
structure Sound (r : SampleRing capacity) : Prop where
  read_lt : r.read < capacity
  length_le : r.length ≤ capacity
  write_eq : r.write = (r.read + (r.length - 1)) % capacity

/-- The rings that arise from an empty one. -/
inductive Built : SampleRing capacity → Prop
  | empty : Built (empty capacity)
  | push {r r' : SampleRing capacity} {sample : Int16} :
      Built r → r.push sample = .ok r' → Built r'
  | pop {r r' : SampleRing capacity} {sample : Int16} :
      Built r → r.pop = .ok (sample, r') → Built r'
  | clear {r : SampleRing capacity} : Built r → Built r.clear

@[simp] theorem contents_length (r : SampleRing capacity) : r.contents.length = r.length := by
  simp [contents]

theorem isEmpty_iff (r : SampleRing capacity) : r.isEmpty = true ↔ r.length = 0 := beq_iff_eq

theorem after_eq_mod {cursor : Nat} (h : cursor < capacity) :
    after capacity cursor = (cursor + 1) % capacity := by
  unfold after
  split
  · rename_i hlast
    rw [hlast, Nat.mod_self]
  · rw [Nat.mod_eq_of_lt (by omega)]

/-- Different offsets below the capacity are different cells. -/
theorem add_mod_ne (read : Nat) {i j : Nat} (hij : i < j) (hj : j < capacity) :
    (read + i) % capacity ≠ (read + j) % capacity := by
  intro h
  have hmod : i ≡ j [MOD capacity] := Nat.ModEq.add_left_cancel' read h
  have heq : i = j := Nat.ModEq.eq_of_lt_of_lt hmod (by omega) hj
  omega

theorem sound_empty (h : 0 < capacity) : (empty capacity).Sound where
  read_lt := h
  length_le := Nat.zero_le _
  write_eq := (Nat.mod_eq_of_lt h).symm

/-- A cleared ring is sound, whatever it was before. -/
theorem sound_clear (h : 0 < capacity) (r : SampleRing capacity) : r.clear.Sound where
  read_lt := h
  length_le := Nat.zero_le _
  write_eq := (Nat.mod_eq_of_lt h).symm

/-- The cell that a push writes is the first one behind the contents. -/
theorem push_place {r : SampleRing capacity} (hr : r.Sound) :
    (if r.length = 0 then r.write else after capacity r.write) =
      (r.read + r.length) % capacity := by
  have hpos : 0 < capacity := Nat.lt_of_le_of_lt (Nat.zero_le _) hr.read_lt
  by_cases h0 : r.length = 0
  · rw [if_pos h0, hr.write_eq, h0]
  · rw [if_neg h0, hr.write_eq, after_eq_mod (Nat.mod_lt _ hpos), Nat.mod_add_mod]
    congr 1
    omega

/-- The result of a push with room. -/
theorem push_eq_ok {r : SampleRing capacity} (hr : r.Sound) (hroom : r.length < capacity)
    (sample : Int16) :
    ∃ h : (r.read + r.length) % capacity < capacity, r.push sample =
      .ok { r with
        cells := r.cells.set ((r.read + r.length) % capacity) sample h
        write := (r.read + r.length) % capacity
        length := r.length + 1 } := by
  have hlt : (r.read + r.length) % capacity < capacity := Nat.mod_lt _ (by omega)
  refine ⟨hlt, ?_⟩
  simp only [push, if_pos hroom, push_place hr, dif_pos hlt]

/-- A push with room appends its sample. -/
theorem push_contents {r : SampleRing capacity} (hr : r.Sound) (hroom : r.length < capacity)
    (sample : Int16) :
    ∃ r', r.push sample = .ok r' ∧ r'.Sound ∧ r'.contents = r.contents ++ [sample] := by
  obtain ⟨hlt, hpush⟩ := push_eq_ok hr hroom sample
  refine ⟨_, hpush, ⟨hr.read_lt, hroom, ?_⟩, ?_⟩
  · simp
  · simp only [contents, List.range_succ, List.map_append, List.map_singleton]
    congr 1
    · apply List.map_congr_left
      intro i hi
      have hne := add_mod_ne r.read (List.mem_range.1 hi) hroom
      simp [cell, hne.symm]
    · simp [cell]

theorem push_full {r : SampleRing capacity} (hfull : r.length = capacity) (sample : Int16) :
    r.push sample = .error .ringFull := by
  simp [push, hfull]

/-- A pop of a ring with samples takes the oldest one. -/
theorem pop_contents {r : SampleRing capacity} (hr : r.Sound) (hne : r.length ≠ 0) :
    ∃ sample r', r.pop = .ok (sample, r') ∧ r'.Sound ∧ r.contents = sample :: r'.contents := by
  have hpos : 0 < capacity := Nat.lt_of_le_of_lt (Nat.zero_le _) hr.read_lt
  have hpop : r.pop = .ok (r.cells.get ⟨r.read, hr.read_lt⟩,
      { r with
        read := if r.length = 1 then r.read else after capacity r.read
        length := r.length - 1 }) := by
    simp only [pop, if_neg hne, dif_pos hr.read_lt]
  refine ⟨_, _, hpop, ⟨?_, ?_, ?_⟩, ?_⟩
  · show (if r.length = 1 then r.read else after capacity r.read) < capacity
    split
    · exact hr.read_lt
    · rw [after_eq_mod hr.read_lt]
      exact Nat.mod_lt _ hpos
  · exact Nat.le_trans (Nat.sub_le _ _) hr.length_le
  · show r.write = ((if r.length = 1 then r.read else after capacity r.read) +
      (r.length - 1 - 1)) % capacity
    rw [hr.write_eq]
    split
    · rename_i h1
      rw [h1]
    · rw [after_eq_mod hr.read_lt, Nat.mod_add_mod]
      congr 1
      omega
  · obtain ⟨n, hn⟩ : ∃ n, r.length = n + 1 := ⟨r.length - 1, by omega⟩
    simp only [contents, hn, List.range_succ_eq_map, List.map_cons, List.map_map,
      Nat.add_sub_cancel, List.cons.injEq]
    refine ⟨?_, ?_⟩
    · simp [cell, Nat.mod_eq_of_lt hr.read_lt, hr.read_lt, Vector.get]
    · apply List.map_congr_left
      intro i hi
      have hi' := List.mem_range.1 hi
      have h1 : ¬ n + 1 = 1 := by omega
      simp only [Function.comp, cell, if_neg h1, after_eq_mod hr.read_lt, Nat.mod_add_mod]
      congr 3
      omega

theorem pop_empty {r : SampleRing capacity} (h : r.length = 0) : r.pop = .error .ringEmpty := by
  simp [pop, h]

theorem length_of_push {r r' : SampleRing capacity} {sample : Int16}
    (h : r.push sample = .ok r') : r'.length = r.length + 1 := by
  by_cases hroom : r.length < capacity
  · simp only [push, if_pos hroom] at h
    by_cases hplace : (if r.length = 0 then r.write else after capacity r.write) < capacity
    · rw [dif_pos hplace] at h
      cases h
      rfl
    · rw [dif_neg hplace] at h
      cases h
  · simp only [push, if_neg hroom] at h
    cases h

theorem length_of_pop {r r' : SampleRing capacity} {sample : Int16}
    (h : r.pop = .ok (sample, r')) : r'.length = r.length - 1 := by
  simp only [pop] at h
  split at h
  · cases h
  · split at h
    · cases h
      rfl
    · cases h

theorem sound_of_push {r r' : SampleRing capacity} {sample : Int16} (hr : r.Sound)
    (h : r.push sample = .ok r') : r'.Sound := by
  by_cases hroom : r.length < capacity
  · obtain ⟨r'', hpush, hsound, -⟩ := push_contents hr hroom sample
    rw [hpush] at h
    cases h
    exact hsound
  · have hfull : r.length = capacity := Nat.le_antisymm hr.length_le (Nat.le_of_not_lt hroom)
    rw [push_full hfull] at h
    cases h

theorem sound_of_pop {r r' : SampleRing capacity} {sample : Int16} (hr : r.Sound)
    (h : r.pop = .ok (sample, r')) : r'.Sound := by
  by_cases hne : r.length = 0
  · rw [pop_empty hne] at h
    cases h
  · obtain ⟨x, r'', hpop, hsound, -⟩ := pop_contents hr hne
    rw [hpop] at h
    cases h
    exact hsound

/-- Every ring built from an empty one with at least one cell is sound. -/
theorem Built.sound (hpos : 0 < capacity) {r : SampleRing capacity} (hr : r.Built) : r.Sound := by
  induction hr with
  | empty => exact sound_empty hpos
  | push _ h ih => exact sound_of_push ih h
  | pop _ h ih => exact sound_of_pop ih h
  | clear _ _ => exact sound_clear hpos _

end Chiptune.SampleRing
