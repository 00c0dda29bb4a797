import Chiptune.Proofs.TimeOrder

/-!
# Histories of events

A history keeps every event with the number of samples that had been generated
when it was handed in, and the events that were carried out before each
generated sample. An event is owed before the first sample that is generated
after it was handed in and is not earlier than its time. A history is punctual
when every sample was preceded by exactly the events owed there, in the stable
order of their times: no event is lost, none is late, none comes twice.

A timeline hands out from the stable order of all events, after as many as were
carried out (`handedOut`). An event that is earlier than one already carried out
therefore takes the place of that one, which then comes again. As long as the
events are handed out in this way, a history is punctual exactly when no sample
was generated after such an event (`Kept.carry`).
-/

set_option autoImplicit false

namespace Chiptune

/-! ## Cutting a list by keys -/

/-- The due events after a place among the due events. -/
theorem take_append_takeWhile_drop {l : List Event} (hl : TimeOrdered l) (t : UInt64) {c : Nat}
    (hc : c ≤ (l.filter fun e => e.time ≤ t).length) :
    (l.filter fun e => e.time ≤ t).take c ++ ((l.drop c).takeWhile fun e => e.time ≤ t) =
      l.filter fun e => e.time ≤ t := by
  have hdrop : TimeOrdered (l.drop c) := hl.sublist (List.drop_sublist c l)
  rw [← takeWhile_eq_filter hl] at hc ⊢
  have htake : (l.takeWhile fun e => e.time ≤ t).take c = l.take c := by
    rw [← take_takeWhile_length (fun e => e.time ≤ t) l, List.take_take, Nat.min_eq_left hc]
  have hall : (l.take c).filter (fun e => e.time ≤ t) = l.take c := by
    refine List.filter_eq_self.2 fun e he => ?_
    rw [← htake] at he
    have hmem := List.mem_of_mem_take he
    have hdue := List.mem_takeWhile_imp hmem
    simpa using hdue
  rw [htake, takeWhile_eq_filter hdrop, takeWhile_eq_filter hl]
  have hparts : (l.take c ++ l.drop c).filter (fun e => e.time ≤ t) = _ := List.filter_append _ _
  rw [List.take_append_drop, hall] at hparts
  exact hparts.symm

/-- Of ascending keys those up to a bound are those below it and those that
reach it. -/
theorem filter_le_eq_append {α : Type} (key : α → Nat) {l : List α}
    (hl : l.Pairwise fun a b => key a ≤ key b) (n : Nat) :
    (l.filter fun a => key a ≤ n) =
      (l.filter fun a => key a < n) ++ l.filter fun a => key a = n := by
  induction l with
  | nil => rfl
  | cons a l ih =>
    obtain ⟨hal, hl'⟩ := List.pairwise_cons.1 hl
    rcases Nat.lt_trichotomy (key a) n with hlt | heq | hgt
    · rw [List.filter_cons_of_pos (by simpa using Nat.le_of_lt hlt),
        List.filter_cons_of_pos (by simpa using hlt),
        List.filter_cons_of_neg (by simpa using Nat.ne_of_lt hlt), ih hl', List.cons_append]
    · -- from here on no key is below the bound
      have hnone : (l.filter fun b => key b < n) = [] := by
        refine List.filter_eq_nil_iff.2 fun b hb => ?_
        have := hal b hb
        simp only [decide_eq_true_eq]
        omega
      rw [List.filter_cons_of_pos (by simpa using Nat.le_of_eq heq),
        List.filter_cons_of_neg (by simpa using Nat.le_of_eq heq.symm),
        List.filter_cons_of_pos (by simpa using heq), ih hl', hnone, List.nil_append,
        List.nil_append]
    · rw [List.filter_cons_of_neg (by simpa using hgt),
        List.filter_cons_of_neg (by simpa using Nat.le_of_lt hgt),
        List.filter_cons_of_neg (by simpa using Nat.ne_of_gt hgt), ih hl']

/-! ## Histories -/

/-- An event, and the number of samples generated when it was handed in. -/
structure Issue where
  event : Event
  index : Nat

/-- The index of the sample before which an event is owed. -/
def Issue.dueAt (i : Issue) : Nat := max i.event.time.toNat i.index

/-- The events handed in, and those carried out before each generated sample. -/
structure History where
  issued : List Issue
  batches : List (List Event)

namespace History

/-- A collection of events, and no sample. -/
def start (events : List Event) : History := ⟨events.map fun e => ⟨e, 0⟩, []⟩

/-- One more event. -/
def issue (h : History) (e : Event) : History :=
  { h with issued := h.issued ++ [⟨e, h.batches.length⟩] }

/-- One more sample, with the events carried out before it. -/
def carry (h : History) (batch : List Event) : History :=
  { h with batches := h.batches ++ [batch] }

/-- The events handed in. -/
def events (h : History) : List Event := h.issued.map Issue.event

/-- The events carried out. -/
def applied (h : History) : List Event := h.batches.flatten

/-- The events owed before the sample with an index. -/
def owed (h : History) (index : Nat) : List Event :=
  (h.issued.filter fun i => i.dueAt = index).map Issue.event

/-- The events owed before earlier samples. -/
def owedBefore (h : History) (index : Nat) : List Event :=
  (h.issued.filter fun i => i.dueAt < index).map Issue.event

/-- Before each sample exactly the events owed there were carried out, in the
stable order of their times. -/
def Punctual (h : History) : Prop :=
  h.batches = (List.range h.batches.length).map fun index => inTimeOrder (h.owed index)

/-- Where a sample followed, no event was handed in that is earlier than one
carried out before. -/
def Timely (h : History) : Prop :=
  ∀ i ∈ h.issued, i.index < h.batches.length →
    ∀ batch ∈ h.batches.take i.index, ∀ e ∈ batch, e.time ≤ i.event.time

/-- What every history of a player keeps. -/
structure Kept (h : History) : Prop where
  index_le : ∀ i ∈ h.issued, i.index ≤ h.batches.length
  index_ordered : h.issued.Pairwise fun i j => i.index ≤ j.index
  batch_le : ∀ (index : Nat) (batch : List Event), h.batches[index]? = some batch →
    ∀ e ∈ batch, e.time.toNat ≤ index
  punctual_iff : h.Punctual ↔ h.Timely

theorem owedBefore_succ_perm (h : History) (index : Nat) :
    (h.owedBefore (index + 1)).Perm (h.owedBefore index ++ h.owed index) := by
  have hlt : ((h.issued.filter fun i => i.dueAt < index + 1).filter fun i => i.dueAt < index) =
      h.issued.filter fun i => i.dueAt < index := by
    rw [List.filter_filter]
    refine List.filter_congr fun i _ => ?_
    rw [← Bool.decide_and, decide_eq_decide]
    omega
  have heq : ((h.issued.filter fun i => i.dueAt < index + 1).filter fun i => !(i.dueAt < index)) =
      h.issued.filter fun i => i.dueAt = index := by
    rw [List.filter_filter]
    refine List.filter_congr fun i _ => ?_
    rw [← decide_not, ← Bool.decide_and, decide_eq_decide]
    omega
  have hperm := List.filter_append_perm (fun i : Issue => decide (i.dueAt < index))
    (h.issued.filter fun i => i.dueAt < index + 1)
  rw [hlt, heq] at hperm
  unfold owedBefore owed
  rw [← List.map_append]
  exact (hperm.map Issue.event).symm

/-- A punctual history has carried out what was owed before. -/
theorem Punctual.applied_perm {h : History} (hh : h.Punctual) :
    h.applied.Perm (h.owedBefore h.batches.length) := by
  have hall (n : Nat) : ((List.range n).map fun index => inTimeOrder (h.owed index)).flatten.Perm
      (h.owedBefore n) := by
    induction n with
    | zero => simp [owedBefore]
    | succ n ih =>
      rw [List.range_succ, List.map_append, List.flatten_append]
      refine (ih.append ?_).trans (h.owedBefore_succ_perm n).symm
      simpa using inTimeOrder_perm (h.owed n)
  unfold applied
  rw [hh]
  simpa using hall h.batches.length

/-! ### One more event -/

theorem owed_issue {h : History} (e : Event) {index : Nat} (hindex : index < h.batches.length) :
    (h.issue e).owed index = h.owed index := by
  have hlater : ¬ (⟨e, h.batches.length⟩ : Issue).dueAt = index := by
    unfold Issue.dueAt
    simp only
    omega
  unfold owed issue
  rw [List.filter_append, List.filter_cons_of_neg (by simpa using hlater)]
  simp

theorem punctual_issue (h : History) (e : Event) : (h.issue e).Punctual ↔ h.Punctual := by
  have hmap : ((List.range h.batches.length).map fun index =>
        inTimeOrder ((h.issue e).owed index)) =
      (List.range h.batches.length).map fun index => inTimeOrder (h.owed index) := by
    refine List.map_congr_left fun index hindex => ?_
    rw [owed_issue e (List.mem_range.1 hindex)]
  unfold Punctual
  rw [← hmap]
  rfl

theorem timely_issue (h : History) (e : Event) : (h.issue e).Timely ↔ h.Timely := by
  constructor
  · intro hh i hi
    exact hh i (List.mem_append_left _ hi)
  · intro hh i hi hlt
    rcases List.mem_append.1 hi with hi | hi
    · exact hh i hi hlt
    · rw [List.mem_singleton.1 hi] at hlt
      exact absurd hlt (Nat.lt_irrefl _)

theorem Kept.issue {h : History} (hh : h.Kept) (e : Event) : (h.issue e).Kept where
  index_le := by
    intro i hi
    rcases List.mem_append.1 hi with hi | hi
    · exact hh.index_le i hi
    · rw [List.mem_singleton.1 hi]
      exact Nat.le_refl _
  index_ordered := by
    refine List.pairwise_append.2 ⟨hh.index_ordered, List.pairwise_singleton _ _, ?_⟩
    intro i hi j hj
    rw [List.mem_singleton.1 hj]
    exact hh.index_le i hi
  batch_le := hh.batch_le
  punctual_iff := by rw [punctual_issue, timely_issue, hh.punctual_iff]

/-! ### One more sample -/

/-- The events that a timeline hands out before the next sample: it holds the
stable order of all events and has passed over as many as were carried out. -/
def handedOut (h : History) (clock : UInt64) : List Event :=
  ((inTimeOrder h.events).drop h.applied.length).takeWhile fun e => e.time ≤ clock

section Carry

variable {h : History} {clock : UInt64}

/-- The events with a time that has come are those owed so far. -/
theorem Kept.events_le (hh : h.Kept) (hclock : clock.toNat = h.batches.length) :
    (h.events.filter fun e => e.time ≤ clock) = h.owedBefore (h.batches.length + 1) := by
  unfold events owedBefore
  rw [List.filter_map]
  congr 1
  refine List.filter_congr fun i hi => ?_
  have hindex := hh.index_le i hi
  show decide (i.event.time ≤ clock) = decide (i.dueAt < h.batches.length + 1)
  rw [decide_eq_decide, UInt64.le_iff_toNat_le, hclock]
  unfold Issue.dueAt
  omega

theorem Kept.handedOut_split (hh : h.Kept) (hclock : clock.toNat = h.batches.length)
    (hpunctual : h.Punctual) :
    (inTimeOrder (h.owedBefore (h.batches.length + 1))).take h.applied.length ++
      h.handedOut clock = inTimeOrder (h.owedBefore (h.batches.length + 1)) := by
  have hfilter := filter_inTimeOrder (fun e => e.time ≤ clock) h.events
  rw [hh.events_le hclock] at hfilter
  rw [← hfilter]
  refine take_append_takeWhile_drop (timeOrdered_inTimeOrder h.events) clock ?_
  rw [hfilter, (inTimeOrder_perm _).length_eq, hpunctual.applied_perm.length_eq,
    (h.owedBefore_succ_perm _).length_eq, List.length_append]
  exact Nat.le_add_right _ _

theorem mem_owed {e : Event} {index : Nat} :
    e ∈ h.owed index ↔ ∃ i ∈ h.issued, i.dueAt = index ∧ i.event = e := by
  simp [owed, and_assoc]

theorem punctual_carry (batch : List Event) :
    (h.carry batch).Punctual ↔ h.Punctual ∧ batch = inTimeOrder (h.owed h.batches.length) := by
  unfold Punctual
  show h.batches ++ [batch] = (List.range (h.batches ++ [batch]).length).map _ ↔ _
  rw [List.length_append, List.length_singleton, List.range_succ, List.map_append]
  constructor
  · intro heq
    obtain ⟨hbatches, hbatch⟩ := List.append_inj heq (by simp)
    exact ⟨hbatches, List.singleton_inj.1 hbatch⟩
  · rintro ⟨hbatches, rfl⟩
    exact congrArg (· ++ [_]) hbatches

theorem Kept.timely_carry (hh : h.Kept) (batch : List Event) :
    (h.carry batch).Timely ↔ h.Timely ∧
      ∀ i ∈ h.issued, i.index = h.batches.length → ∀ e ∈ h.applied, e.time ≤ i.event.time := by
  have htake (i : Issue) (hi : i ∈ h.issued) :
      (h.batches ++ [batch]).take i.index = h.batches.take i.index :=
    List.take_append_of_le_length (hh.index_le i hi)
  constructor
  · intro ht
    refine ⟨fun i hi hlt b hb e he => ?_, fun i hi heq e he => ?_⟩
    · refine ht i hi ?_ b ?_ e he
      · exact Nat.lt_of_lt_of_le hlt (by simp [carry])
      · rw [show (h.carry batch).batches = h.batches ++ [batch] from rfl, htake i hi]
        exact hb
    · obtain ⟨b, hb, he⟩ := List.mem_flatten.1 he
      refine ht i hi (by simp [carry, heq]) b ?_ e he
      rw [show (h.carry batch).batches = h.batches ++ [batch] from rfl, htake i hi, heq,
        List.take_length]
      exact hb
  · rintro ⟨ht, hlast⟩ i hi - b hb e he
    rw [show (h.carry batch).batches = h.batches ++ [batch] from rfl, htake i hi] at hb
    rcases Nat.lt_or_eq_of_le (hh.index_le i hi) with hlt | heq
    · exact ht i hi hlt b hb e he
    · exact hlast i hi heq e (List.mem_flatten.2 ⟨b, List.mem_of_mem_take hb, he⟩)

theorem Kept.applied_lt (hh : h.Kept) {e : Event} (he : e ∈ h.applied) :
    e.time.toNat < h.batches.length := by
  obtain ⟨batch, hbatch, he⟩ := List.mem_flatten.1 he
  obtain ⟨index, hindex⟩ := List.mem_iff_getElem?.1 hbatch
  have hle := hh.batch_le index batch hindex e he
  have hlt := (List.getElem?_eq_some_iff.1 hindex).1
  omega

/-- An event that is handed out in its turn is not earlier than those carried
out before it. -/
theorem Kept.le_of_handedOut (hh : h.Kept) (hclock : clock.toNat = h.batches.length)
    (hpunctual : h.Punctual) (hout : h.handedOut clock = inTimeOrder (h.owed h.batches.length))
    {i : Issue} (hi : i ∈ h.issued) (hindex : i.index = h.batches.length) {e : Event}
    (he : e ∈ h.applied) : e.time ≤ i.event.time := by
  by_cases htime : i.event.time.toNat ≤ h.batches.length
  · have hsplit := hh.handedOut_split hclock hpunctual
    have hout' : (h.handedOut clock).Perm (h.owed h.batches.length) := by
      rw [hout]
      exact inTimeOrder_perm _
    -- what stands before the cursor is what was carried out
    have hbefore : ((inTimeOrder (h.owedBefore (h.batches.length + 1))).take
        h.applied.length).Perm h.applied := by
      refine List.Perm.trans ?_ hpunctual.applied_perm.symm
      refine (List.perm_append_right_iff (h.handedOut clock)).1 ?_
      rw [hsplit]
      exact (inTimeOrder_perm _).trans ((h.owedBefore_succ_perm _).trans
        (hout'.symm.append_left _))
    have hordered := timeOrdered_inTimeOrder (h.owedBefore (h.batches.length + 1))
    rw [← hsplit] at hordered
    refine (List.pairwise_append.1 hordered).2.2 e (hbefore.mem_iff.2 he) i.event ?_
    refine hout'.mem_iff.2 (mem_owed.2 ⟨i, hi, ?_, rfl⟩)
    unfold Issue.dueAt
    omega
  · have hlt := hh.applied_lt he
    rw [UInt64.le_iff_toNat_le]
    omega

/-- What is owed follows in the stable order on what was owed before, as long as
no event is earlier than one carried out. -/
theorem Kept.inTimeOrder_owedBefore (hh : h.Kept) (hpunctual : h.Punctual)
    (hlast : ∀ i ∈ h.issued, i.index = h.batches.length → ∀ e ∈ h.applied,
      e.time ≤ i.event.time) :
    inTimeOrder (h.owedBefore (h.batches.length + 1)) =
      inTimeOrder (h.owedBefore h.batches.length) ++ inTimeOrder (h.owed h.batches.length) := by
  refine eq_of_atTime (timeOrdered_inTimeOrder _) (List.pairwise_append.2
    ⟨timeOrdered_inTimeOrder _, timeOrdered_inTimeOrder _, ?_⟩) fun t => ?_
  · intro d hd e he
    have hd' : d ∈ h.applied :=
      hpunctual.applied_perm.mem_iff.2 ((inTimeOrder_perm _).mem_iff.1 hd)
    obtain ⟨i, hi, hdue, rfl⟩ := mem_owed.1 ((inTimeOrder_perm _).mem_iff.1 he)
    rcases Nat.lt_or_eq_of_le (hh.index_le i hi) with hlt | heq
    · -- handed in before the last sample, so its time has come just now
      have hd'' := hh.applied_lt hd'
      unfold Issue.dueAt at hdue
      rw [UInt64.le_iff_toNat_le]
      omega
    · exact hlast i hi heq d hd'
  · -- of one time, the events owed before were handed in before
    have hgroup (p : Issue → Bool) : atTime t ((h.issued.filter p).map Issue.event) =
        ((h.issued.filter fun i => i.event.time == t).filter p).map Issue.event := by
      unfold atTime
      rw [List.filter_map, List.filter_filter, List.filter_filter]
      congr 1
      exact List.filter_congr fun i _ => Bool.and_comm _ _
    have hascending : (h.issued.filter fun i => i.event.time == t).Pairwise
        fun i j => i.dueAt ≤ j.dueAt := by
      refine (hh.index_ordered.filter _).imp_of_mem fun {i j} hi hj hij => ?_
      have hti := eq_of_beq (List.mem_filter.1 hi).2
      have htj := eq_of_beq (List.mem_filter.1 hj).2
      unfold Issue.dueAt
      rw [hti, htj]
      omega
    have hparts := filter_le_eq_append Issue.dueAt hascending h.batches.length
    rw [atTime_append, atTime_inTimeOrder, atTime_inTimeOrder, atTime_inTimeOrder]
    unfold owedBefore owed
    rw [hgroup, hgroup, hgroup, ← List.map_append, ← hparts]
    congr 1
    refine List.filter_congr fun i _ => ?_
    rw [decide_eq_decide]
    omega

theorem Kept.carry (hh : h.Kept) (hclock : clock.toNat = h.batches.length) :
    (h.carry (h.handedOut clock)).Kept where
  index_le := by
    intro i hi
    have hindex := hh.index_le i hi
    show i.index ≤ (h.batches ++ [h.handedOut clock]).length
    rw [List.length_append]
    omega
  index_ordered := hh.index_ordered
  batch_le := by
    intro index batch hbatch e he
    have hbatch' : (h.batches ++ [h.handedOut clock])[index]? = some batch := hbatch
    rw [List.getElem?_append] at hbatch'
    split at hbatch'
    · exact hh.batch_le index batch hbatch' e he
    · rename_i hge
      have hmem : batch ∈ [h.handedOut clock] := List.mem_of_getElem? hbatch'
      rw [List.mem_singleton.1 hmem] at he
      have hle := List.mem_takeWhile_imp he
      have hle' : e.time ≤ clock := by simpa using hle
      rw [UInt64.le_iff_toNat_le] at hle'
      omega
  punctual_iff := by
    rw [punctual_carry, hh.timely_carry, ← hh.punctual_iff]
    refine and_congr_right fun hpunctual => ?_
    constructor
    · intro hout i hi hindex e he
      exact hh.le_of_handedOut hclock hpunctual hout hi hindex he
    · intro hlast
      have hsplit := hh.handedOut_split hclock hpunctual
      have hparts := hh.inTimeOrder_owedBefore hpunctual hlast
      have hlength : (inTimeOrder (h.owedBefore h.batches.length)).length = h.applied.length := by
        rw [(inTimeOrder_perm _).length_eq, hpunctual.applied_perm.length_eq]
      rw [hparts, List.take_append_of_le_length (Nat.le_of_eq hlength.symm), ← hlength,
        List.take_length] at hsplit
      exact List.append_cancel_left hsplit

/-- Events that are handed in before the sample after their own come late for none
that was carried out. -/
theorem Kept.timely_of_soon (hh : h.Kept)
    (hsoon : ∀ i ∈ h.issued, i.index ≤ i.event.time.toNat + 1) : h.Timely := by
  intro i hi _ batch hbatch e he
  obtain ⟨index, hindex⟩ := List.mem_iff_getElem?.1 hbatch
  have hlt : index < i.index := by
    have hlength := (List.getElem?_eq_some_iff.1 hindex).1
    rw [List.length_take] at hlength
    omega
  rw [List.getElem?_take_of_lt hlt] at hindex
  have hle := hh.batch_le index batch hindex e he
  have hnear := hsoon i hi
  rw [UInt64.le_iff_toNat_le]
  omega

theorem kept_start (events : List Event) : (start events).Kept where
  index_le := by
    intro i hi
    obtain ⟨e, -, rfl⟩ := List.mem_map.1 hi
    exact Nat.le_refl 0
  index_ordered := by
    refine List.pairwise_map.2 (List.pairwise_of_forall fun _ _ => Nat.le_refl 0)
  batch_le := by
    intro index batch hbatch
    cases hbatch
  punctual_iff := by
    refine iff_of_true rfl fun i _ hlt => ?_
    cases hlt

end Carry

end History

end Chiptune
