import Chiptune.Proofs.Causality

/-!
# The events of a patch

A patch is brought into a timeline event by event: first its setup, all of it at the first
sample, then its timed commands as they are listed. A timed command at the first sample ties with
the setup and stays behind it, so the setup is the first part of the timeline whatever the timed
commands are (`inTimeOrder_setup`). Behind it stands the stable order of the timed commands by
their samples (`inTimeOrder_timed`).

Several milliseconds may share a sample, and times beyond the word all share the last one. From a
rate of 1000 on and within the word no two of them do, and the order by samples is the one by
milliseconds (`StablySorted.of_key`, `sample_le_iff`).
-/

set_option autoImplicit false

namespace Chiptune

/-- A list that is stably sorted by one key is so by any other that puts its members in the same
order. -/
theorem StablySorted.of_key {α : Type} {key key' : α → Nat} {given sorted : List α}
    (h : StablySorted key given sorted)
    (hkey : ∀ a ∈ given, ∀ b ∈ given, key a ≤ key b ↔ key' a ≤ key' b) :
    StablySorted key' given sorted := by
  refine ⟨h.perm, ?_, fun k => ?_⟩
  · apply h.ascending.imp_of_mem
    intro a b ha hb hab
    exact (hkey a (h.perm.mem_iff.1 ha) b (h.perm.mem_iff.1 hb)).1 hab
  · by_cases hmember : ∃ c ∈ given, key' c = k
    · -- the members with this key are those that share the other key with one of them
      obtain ⟨c, hc, rfl⟩ := hmember
      have hsame : ∀ a ∈ given, decide (key' a = key' c) = decide (key a = key c) := by
        intro a ha
        have hle := hkey a ha c hc
        have hge := hkey c hc a ha
        rw [decide_eq_decide]
        omega
      rw [List.filter_congr hsame, ← h.ties (key c)]
      apply List.filter_congr
      intro a ha
      exact hsame a (h.perm.mem_iff.1 ha)
    · have hnone {l : List α} (hl : ∀ a ∈ l, a ∈ given) : (l.filter fun a => key' a = k) = [] := by
        apply List.filter_eq_nil_iff.2
        intro a ha hk
        exact hmember ⟨a, hl a ha, of_decide_eq_true hk⟩
      rw [hnone fun a ha => h.perm.mem_iff.1 ha, hnone fun a ha => ha]

/-! ## Samples of timed commands -/

namespace TimedCommand

/-- The sample that a command precedes at a sample rate. -/
def sample (rate : UInt32) (t : TimedCommand) : Nat :=
  min (t.atMs.toNat * rate.toNat) (2 ^ 64 - 1) / 1000

def event (rate : UInt32) (t : TimedCommand) : Event :=
  Event.atMilliseconds t.atMs rate t.command

theorem toNat_time_event (rate : UInt32) (t : TimedCommand) :
    (t.event rate).time.toNat = t.sample rate :=
  toNat_samplesOfMilliseconds t.atMs rate

/-- From 1000 samples a second on, milliseconds within the word do not share a sample. -/
theorem sample_le_iff {rate : UInt32} (hrate : 1000 ≤ rate.toNat) {a b : TimedCommand}
    (ha : a.atMs.toNat * rate.toNat < 2 ^ 64) (hb : b.atMs.toNat * rate.toNat < 2 ^ 64) :
    a.sample rate ≤ b.sample rate ↔ a.atMs.toNat ≤ b.atMs.toNat := by
  have hcut {x : Nat} (hx : x < 2 ^ 64) : min x (2 ^ 64 - 1) = x :=
    Nat.min_eq_left (Nat.le_pred_of_lt hx)
  rw [sample, sample, hcut ha, hcut hb]
  constructor
  · intro hle
    by_contra hlt
    -- one millisecond more is a thousandth of the rate more, so at least one sample
    have hmore := Nat.mul_le_mul_right rate.toNat (Nat.not_le.1 hlt)
    rw [Nat.succ_mul] at hmore
    omega
  · intro hle
    exact Nat.div_le_div_right (Nat.mul_le_mul_right _ hle)

end TimedCommand

/-! ## The order of setup and timed commands -/

/-- What is at the first sample goes before all that comes after it. -/
theorem inTimeOrder_setup (setup : List Command) (timed : List Event) :
    inTimeOrder (setup.map (Event.mk 0) ++ timed) =
      setup.map (Event.mk 0) ++ inTimeOrder timed := by
  have hzero : ∀ e ∈ setup.map (Event.mk 0), e.time = 0 := by
    intro e he
    obtain ⟨c, -, rfl⟩ := List.mem_map.1 he
    rfl
  apply eq_of_atTime (timeOrdered_inTimeOrder _)
  · refine List.pairwise_append.2 ⟨?_, timeOrdered_inTimeOrder timed, ?_⟩
    · apply List.pairwise_of_forall_mem_list
      intro a ha b hb
      rw [hzero a ha, hzero b hb]
      exact UInt64.le_refl 0
    · intro a ha b _
      rw [hzero a ha]
      exact UInt64.zero_le
  · intro time
    rw [atTime_inTimeOrder, atTime_append, atTime_append, atTime_inTimeOrder]

/-- The timed commands come in the stable order of their samples. -/
theorem inTimeOrder_timed {rate : UInt32} {events order : List TimedCommand}
    (h : StablySorted (TimedCommand.sample rate) events order) :
    inTimeOrder (events.map (TimedCommand.event rate)) = order.map (TimedCommand.event rate) := by
  apply eq_of_atTime (timeOrdered_inTimeOrder _)
  · apply List.pairwise_map.2
    apply h.ascending.imp
    intro a b hab
    rw [UInt64.le_iff_toNat_le, TimedCommand.toNat_time_event, TimedCommand.toNat_time_event]
    exact hab
  · intro time
    have hties := congrArg (List.map (TimedCommand.event rate)) (h.ties time.toNat)
    rw [atTime_inTimeOrder]
    simp only [atTime_eq_filter, List.filter_map, Function.comp_def,
      TimedCommand.toNat_time_event]
    exact hties.symm

namespace Patch

theorem toList_timeline (p : Patch) {rate : UInt32} {order : List TimedCommand}
    (h : StablySorted (TimedCommand.sample rate) p.events order) :
    (p.timeline rate).events.toList =
      p.setupCommands.map (Event.mk 0) ++ order.map (TimedCommand.event rate) := by
  have hlist : p.eventList rate =
      p.setupCommands.map (Event.mk 0) ++ p.events.map (TimedCommand.event rate) := rfl
  rw [timeline, Timeline.toList_ofList, hlist, inTimeOrder_setup, inTimeOrder_timed h]

/-- For every patch and every rate. The timeline has the setup in its order at the first sample,
and then each timed command once, stably sorted by its sample: the milliseconds times the rate, cut
at the largest word, by 1000. From a rate of 1000 on and within the word they are stably sorted by
their milliseconds. Nothing is handed out yet, and other timed commands leave the setup where it
is. -/
theorem setup_precedes_stable_order (p : Patch) (rate : UInt32) :
    let sample (t : TimedCommand) : Nat := min (t.atMs.toNat * rate.toNat) (2 ^ 64 - 1) / 1000
    (∃ order : List TimedCommand, StablySorted sample p.events order ∧
      ((p.timeline rate).events.toList.map fun e => (e.time.toNat, e.command)) =
        (p.setupCommands.map fun c => (0, c)) ++ (order.map fun t => (sample t, t.command)) ∧
      (1000 ≤ rate.toNat → (∀ t ∈ p.events, t.atMs.toNat * rate.toNat < 2 ^ 64) →
        StablySorted (fun t => t.atMs.toNat) p.events order)) ∧
    (p.timeline rate).cursor = 0 ∧
    ∀ other : List TimedCommand,
      ({ p with events := other }.timeline rate).events.toList.take p.setupCommands.length =
        (p.timeline rate).events.toList.take p.setupCommands.length := by
  intro sample
  have hsorted (l : List TimedCommand) := stablySorted_mergeSort (TimedCommand.sample rate) l
  refine ⟨⟨_, hsorted p.events, ?_, ?_⟩, Timeline.extend_cursor _ _, ?_⟩
  · rw [p.toList_timeline (hsorted p.events), List.map_append, List.map_map, List.map_map]
    congr 1
    apply List.map_congr_left
    intro t _
    exact congrArg (·, t.command) (t.toNat_time_event rate)
  · intro hrate hfit
    apply (hsorted p.events).of_key
    intro a ha b hb
    exact TimedCommand.sample_le_iff hrate (hfit a ha) (hfit b hb)
  · intro other
    have hopening (q : Patch) (hq : q.setupCommands = p.setupCommands) :
        (q.timeline rate).events.toList.take p.setupCommands.length =
          p.setupCommands.map (Event.mk 0) := by
      rw [q.toList_timeline (hsorted q.events), hq]
      exact List.take_left' (List.length_map _)
    rw [hopening { p with events := other } rfl, hopening p rfl]

/-- Two commands at the first sample stay behind the setup, and two at the millisecond five stay in
their order. -/
theorem setup_precedes_stable_order_at_lowest_rate :
    let on (channel : UInt8) : Command := .address channel (.noteOn 69 100)
    let p : Patch :=
      { sampleRate := 48000, lengthMs := 10, channels := [⟨0, some 200, none, none⟩],
        events := [⟨5, on 1⟩, ⟨0, on 2⟩, ⟨5, on 3⟩, ⟨0, .allNotesOff⟩] }
    1000 ≤ (1000 : UInt32).toNat ∧
      (∀ t ∈ p.events, t.atMs.toNat * (1000 : UInt32).toNat < 2 ^ 64) ∧
      (p.timeline 1000).events.toList = [⟨0, .address 0 (.setDuty 200)⟩, ⟨0, on 2⟩,
        ⟨0, .allNotesOff⟩, ⟨5, on 1⟩, ⟨5, on 3⟩] ∧
      ∃ order, StablySorted (fun t => t.atMs.toNat) p.events order ∧
        ((p.timeline 1000).events.toList.map fun e => e.command) =
          .address 0 (.setDuty 200) :: order.map TimedCommand.command := by
  intro on p
  have hrate : 1000 ≤ (1000 : UInt32).toNat := by decide
  have hfit : ∀ t ∈ p.events, t.atMs.toNat * (1000 : UInt32).toNat < 2 ^ 64 := by decide
  obtain ⟨⟨order, -, hlist, hsorted⟩, -⟩ := setup_precedes_stable_order p 1000
  refine ⟨hrate, hfit, by decide +kernel, order, hsorted hrate hfit, ?_⟩
  have hcommands := congrArg (List.map Prod.snd) hlist
  simp only [List.map_map, List.map_append, Function.comp_def, List.map_id'] at hcommands
  exact hcommands

/-- Below a rate of 1000 two milliseconds may share a sample, and then the later one that is listed
first stays first. -/
example :
    let p : Patch :=
      { sampleRate := 100, lengthMs := 0, channels := [],
        events := [⟨19, .allNotesOff⟩, ⟨12, .address 0 .noteOff⟩] }
    (p.timeline 100).events.toList = [⟨1, .allNotesOff⟩, ⟨1, .address 0 .noteOff⟩] := by
  decide +kernel

end Patch

end Chiptune
