import Chiptune.Timeline
import Mathlib.Data.List.TakeWhile

/-!
# The order of events

A stable order by time (`StablySorted`) is determined by two facts: the times ascend,
and the events of each single time stand in the order in which they came
(`eq_of_atTime`). The events of a timeline are the stable order of what was
inserted into it (`toList_ofList`).

The events from the cursor of a timeline on are waiting. Handing out takes those
of them that are due, in their order, and leaves the others waiting
(`between_drain`, `waiting_drain`).
-/

set_option autoImplicit false

namespace Chiptune

/-! ## Stable sorting -/

/-- The second list has the members of the first with ascending keys, and those of the same key
in the order of the first list. -/
structure StablySorted {α : Type} (key : α → Nat) (given sorted : List α) : Prop where
  perm : sorted.Perm given
  ascending : sorted.Pairwise fun a b => key a ≤ key b
  ties : ∀ k, (sorted.filter fun a => key a = k) = given.filter fun a => key a = k

/-- A merge sort is stable. -/
theorem stablySorted_mergeSort {α : Type} (key : α → Nat) (l : List α) :
    StablySorted key l (l.mergeSort fun a b => key a ≤ key b) := by
  have htrans (a b c : α) (hab : decide (key a ≤ key b) = true)
      (hbc : decide (key b ≤ key c) = true) : decide (key a ≤ key c) = true := by
    simp only [decide_eq_true_eq] at hab hbc ⊢
    exact Nat.le_trans hab hbc
  have htotal (a b : α) : (decide (key a ≤ key b) || decide (key b ≤ key a)) = true := by
    simpa using Nat.le_total (key a) (key b)
  have hperm := List.mergeSort_perm l fun a b => decide (key a ≤ key b)
  refine ⟨hperm, ?_, fun k => ?_⟩
  · apply (List.pairwise_mergeSort htrans htotal l).imp
    intro a b hab
    exact of_decide_eq_true hab
  · -- those of one key are in order as they stand, so they come out as a sublist
    have hsub : (l.filter fun a => key a = k).Sublist
        (l.mergeSort fun a b => key a ≤ key b) := by
      apply List.sublist_mergeSort htrans htotal _ List.filter_sublist
      apply List.pairwise_of_forall_mem_list
      intro a ha b hb
      have hka := of_decide_eq_true (List.mem_filter.1 ha).2
      have hkb := of_decide_eq_true (List.mem_filter.1 hb).2
      exact decide_eq_true (Nat.le_of_eq (hka.trans hkb.symm))
    have hsub' := hsub.filter fun a => key a = k
    rw [List.filter_filter] at hsub'
    simp only [Bool.and_self] at hsub'
    exact (hsub'.eq_of_length (hperm.filter _).length_eq.symm).symm

/-! ## The stable order -/

/-- The times ascend. -/
def TimeOrdered (l : List Event) : Prop := l.Pairwise fun a b => a.time ≤ b.time

/-- The events of one time. -/
def atTime (t : UInt64) (l : List Event) : List Event := l.filter fun e => e.time == t

/-- The events in the order of their times. Events of the same time stay in the
order in which they stand. -/
def inTimeOrder (events : List Event) : List Event :=
  events.mergeSort fun a b => a.time ≤ b.time

theorem mem_atTime {t : UInt64} {l : List Event} {e : Event} :
    e ∈ atTime t l ↔ e ∈ l ∧ e.time = t := by
  simp [atTime]

theorem atTime_cons_self (e : Event) (l : List Event) :
    atTime e.time (e :: l) = e :: atTime e.time l := by
  simp [atTime]

theorem atTime_cons_of_ne {t : UInt64} {e : Event} (h : e.time ≠ t) (l : List Event) :
    atTime t (e :: l) = atTime t l := by
  simp [atTime, h]

theorem stablySorted_inTimeOrder (events : List Event) :
    StablySorted (fun e => e.time.toNat) events (inTimeOrder events) := by
  have h := stablySorted_mergeSort (fun e : Event => e.time.toNat) events
  simp only [← UInt64.le_iff_toNat_le] at h
  exact h

theorem timeOrdered_inTimeOrder (events : List Event) : TimeOrdered (inTimeOrder events) := by
  apply (stablySorted_inTimeOrder events).ascending.imp
  intro a b hab
  exact UInt64.le_iff_toNat_le.2 hab

/-- The order of events with one and the same time is theirs already. -/
theorem filter_time_inTimeOrder (time : Nat) (l : List Event) :
    ((inTimeOrder l).filter fun e => e.time.toNat = time) =
      l.filter fun e => e.time.toNat = time :=
  (stablySorted_inTimeOrder l).ties time

theorem atTime_eq_filter (t : UInt64) (l : List Event) :
    atTime t l = l.filter fun e => e.time.toNat = t.toNat := by
  apply List.filter_congr
  intro e _
  rw [beq_eq_decide, decide_eq_decide, UInt64.toNat_inj]

/-- The events of one time come out of the order as they went in. -/
theorem atTime_inTimeOrder (t : UInt64) (events : List Event) :
    atTime t (inTimeOrder events) = atTime t events := by
  rw [atTime_eq_filter, atTime_eq_filter, filter_time_inTimeOrder]

/-- Two lists with ascending times and the same events at each time are equal. -/
theorem eq_of_atTime {l m : List Event} (hl : TimeOrdered l) (hm : TimeOrdered m)
    (h : ∀ t, atTime t l = atTime t m) : l = m := by
  induction l generalizing m with
  | nil =>
    cases m with
    | nil => rfl
    | cons b m =>
      have hb := h b.time
      rw [atTime_cons_self] at hb
      cases hb
  | cons a l ih =>
    cases m with
    | nil =>
      have ha := h a.time
      rw [atTime_cons_self] at ha
      cases ha
    | cons b m =>
      obtain ⟨hal, hl'⟩ := List.pairwise_cons.1 hl
      obtain ⟨hbm, hm'⟩ := List.pairwise_cons.1 hm
      -- each head occurs in the other list, so neither is later than the other
      have hba : b.time ≤ a.time := by
        have ha : a ∈ b :: m := by
          have hmem : a ∈ atTime a.time (a :: l) := mem_atTime.2 ⟨List.mem_cons_self, rfl⟩
          rw [h a.time] at hmem
          exact (mem_atTime.1 hmem).1
        rcases List.mem_cons.1 ha with rfl | ha
        · exact UInt64.le_refl _
        · exact hbm a ha
      have hab : a.time ≤ b.time := by
        have hb : b ∈ a :: l := by
          have hmem : b ∈ atTime b.time (b :: m) := mem_atTime.2 ⟨List.mem_cons_self, rfl⟩
          rw [← h b.time] at hmem
          exact (mem_atTime.1 hmem).1
        rcases List.mem_cons.1 hb with rfl | hb
        · exact UInt64.le_refl _
        · exact hal b hb
      have htime : a.time = b.time := UInt64.le_antisymm hab hba
      have hhead := h a.time
      rw [atTime_cons_self, htime, atTime_cons_self] at hhead
      obtain ⟨rfl, -⟩ := List.cons.inj hhead
      congr 1
      refine ih hl' hm' fun t => ?_
      by_cases ht : a.time = t
      · subst ht
        have hcons := h a.time
        rw [atTime_cons_self, atTime_cons_self] at hcons
        exact (List.cons.inj hcons).2
      · have hcons := h t
        rwa [atTime_cons_of_ne ht, atTime_cons_of_ne ht] at hcons

theorem inTimeOrder_perm (l : List Event) : (inTimeOrder l).Perm l :=
  (stablySorted_inTimeOrder l).perm

theorem atTime_append (t : UInt64) (l m : List Event) :
    atTime t (l ++ m) = atTime t l ++ atTime t m :=
  List.filter_append l m

theorem filter_inTimeOrder (p : Event → Bool) (l : List Event) :
    (inTimeOrder l).filter p = inTimeOrder (l.filter p) := by
  refine eq_of_atTime ((timeOrdered_inTimeOrder l).filter p) (timeOrdered_inTimeOrder _)
    fun t => ?_
  have hswap (m : List Event) : atTime t (m.filter p) = (atTime t m).filter p := by
    unfold atTime
    rw [List.filter_filter, List.filter_filter]
    exact List.filter_congr fun e _ => Bool.and_comm _ _
  rw [hswap, atTime_inTimeOrder, atTime_inTimeOrder, hswap]

theorem inTimeOrder_of_ordered {l : List Event} (hl : TimeOrdered l) : inTimeOrder l = l :=
  eq_of_atTime (timeOrdered_inTimeOrder l) hl fun t => atTime_inTimeOrder t l

/-! ## Splitting by a time -/

/-- Of ascending times those up to a bound come first. -/
theorem takeWhile_eq_filter {l : List Event} (hl : TimeOrdered l) (t : UInt64) :
    (l.takeWhile fun e => e.time ≤ t) = l.filter fun e => e.time ≤ t := by
  induction l with
  | nil => rfl
  | cons a l ih =>
    obtain ⟨hal, hl'⟩ := List.pairwise_cons.1 hl
    by_cases ha : a.time ≤ t
    · rw [List.takeWhile_cons_of_pos (by simpa using ha),
        List.filter_cons_of_pos (by simpa using ha), ih hl']
    · rw [List.takeWhile_cons_of_neg (by simpa using ha),
        List.filter_cons_of_neg (by simpa using ha)]
      symm
      rw [List.filter_eq_nil_iff]
      intro b hb hbt
      exact ha (UInt64.le_trans (hal b hb) (by simpa using hbt))

theorem dropWhile_eq_filter {l : List Event} (hl : TimeOrdered l) (t : UInt64) :
    (l.dropWhile fun e => e.time ≤ t) = l.filter fun e => ¬ e.time ≤ t := by
  induction l with
  | nil => rfl
  | cons a l ih =>
    obtain ⟨hal, hl'⟩ := List.pairwise_cons.1 hl
    by_cases ha : a.time ≤ t
    · rw [List.dropWhile_cons_of_pos (by simpa using ha),
        List.filter_cons_of_neg (by simpa using ha), ih hl']
    · rw [List.dropWhile_cons_of_neg (by simpa using ha),
        List.filter_cons_of_pos (by simpa using ha)]
      congr 1
      symm
      rw [List.filter_eq_self]
      intro b hb
      simp only [decide_eq_true_eq]
      intro hbt
      exact ha (UInt64.le_trans (hal b hb) hbt)

theorem take_takeWhile_length (p : Event → Bool) (l : List Event) :
    l.take (l.takeWhile p).length = l.takeWhile p :=
  (List.prefix_iff_eq_take.1 (List.takeWhile_prefix p)).symm

theorem drop_takeWhile_length (p : Event → Bool) (l : List Event) :
    l.drop (l.takeWhile p).length = l.dropWhile p := by
  induction l with
  | nil => rfl
  | cons a l ih =>
    by_cases ha : p a = true
    · rw [List.takeWhile_cons_of_pos ha, List.dropWhile_cons_of_pos ha]
      exact ih
    · rw [List.takeWhile_cons_of_neg ha, List.dropWhile_cons_of_neg ha]
      rfl

/-- The events with one more, which stands after those of its own time. -/
def insertInTime (e : Event) (l : List Event) : List Event :=
  (l.takeWhile fun a => a.time ≤ e.time) ++ e :: l.dropWhile fun a => a.time ≤ e.time

theorem lt_of_mem_dropWhile {l : List Event} (hl : TimeOrdered l) {t : UInt64} {a : Event}
    (ha : a ∈ l.dropWhile fun e => e.time ≤ t) : t < a.time := by
  rw [dropWhile_eq_filter hl] at ha
  have h := (List.mem_filter.1 ha).2
  simpa [UInt64.not_le] using h

theorem timeOrdered_insertInTime {l : List Event} (hl : TimeOrdered l) (e : Event) :
    TimeOrdered (insertInTime e l) := by
  refine List.pairwise_append.2 ⟨hl.sublist (List.takeWhile_sublist _), ?_, ?_⟩
  · refine List.pairwise_cons.2 ⟨fun b hb => ?_, hl.sublist (List.dropWhile_sublist _)⟩
    exact UInt64.le_of_lt (lt_of_mem_dropWhile hl hb)
  · intro a ha b hb
    have hae : a.time ≤ e.time := by
      have h := List.mem_takeWhile_imp ha
      simpa using h
    rcases List.mem_cons.1 hb with rfl | hb
    · exact hae
    · exact UInt64.le_trans hae (UInt64.le_of_lt (lt_of_mem_dropWhile hl hb))

/-- The new event comes last among those of its time. -/
theorem atTime_insertInTime {l : List Event} (hl : TimeOrdered l) (e : Event) (t : UInt64) :
    atTime t (insertInTime e l) = atTime t l ++ atTime t [e] := by
  have hsplit : atTime t l = atTime t (l.takeWhile fun a => a.time ≤ e.time) ++
      atTime t (l.dropWhile fun a => a.time ≤ e.time) := by
    unfold atTime
    rw [← List.filter_append, List.takeWhile_append_dropWhile]
  unfold insertInTime
  rw [hsplit]
  by_cases ht : e.time = t
  · have hnone : atTime t (l.dropWhile fun a => a.time ≤ e.time) = [] := by
      refine List.filter_eq_nil_iff.2 fun a ha hat => ?_
      have hlt := lt_of_mem_dropWhile hl ha
      rw [ht, eq_of_beq hat] at hlt
      exact UInt64.lt_irrefl _ hlt
    have hcons : atTime t (e :: l.dropWhile fun a => a.time ≤ e.time) = [e] := by
      subst ht
      rw [atTime_cons_self, hnone]
    have hone : atTime t [e] = [e] := by simp [atTime, ht]
    rw [hone, hnone, List.append_nil]
    show List.filter _ _ = _
    rw [List.filter_append]
    exact congrArg _ hcons
  · have hone : atTime t [e] = [] := by simp [atTime, ht]
    rw [hone, List.append_nil]
    show List.filter _ _ = _
    rw [List.filter_append]
    exact congrArg _ (atTime_cons_of_ne ht _)

theorem insertInTime_inTimeOrder (e : Event) (l : List Event) :
    insertInTime e (inTimeOrder l) = inTimeOrder (l ++ [e]) := by
  have hl := timeOrdered_inTimeOrder l
  refine eq_of_atTime (timeOrdered_insertInTime hl e) (timeOrdered_inTimeOrder _) fun t => ?_
  rw [atTime_insertInTime hl, atTime_inTimeOrder, atTime_inTimeOrder, atTime_append]

namespace Timeline

/-! ## Insertion -/

theorem push_toList (t : Timeline) (e : Event) :
    (t.push e).events.toList = insertInTime e t.events.toList := by
  simp only [push, rank, insertInTime, take_takeWhile_length, drop_takeWhile_length]

theorem push_ordered {t : Timeline} (ht : TimeOrdered t.events.toList) (e : Event) :
    TimeOrdered (t.push e).events.toList := by
  rw [push_toList]
  exact timeOrdered_insertInTime ht e

theorem extend_ordered (events : List Event) {t : Timeline} (ht : TimeOrdered t.events.toList) :
    TimeOrdered (t.extend events).events.toList := by
  induction events generalizing t with
  | nil => exact ht
  | cons e events ih => exact ih (push_ordered ht e)

theorem atTime_extend (time : UInt64) (events : List Event) {t : Timeline}
    (ht : TimeOrdered t.events.toList) :
    atTime time (t.extend events).events.toList =
      atTime time t.events.toList ++ atTime time events := by
  induction events generalizing t with
  | nil => simp [extend, atTime]
  | cons e events ih =>
    have hstep : t.extend (e :: events) = (t.push e).extend events := rfl
    rw [hstep, ih (push_ordered ht e), push_toList, atTime_insertInTime ht, List.append_assoc]
    congr 1
    exact (List.filter_append [e] events).symm

/-- The timeline of a list holds its stable order. -/
theorem toList_ofList (events : List Event) :
    (ofList events).events.toList = inTimeOrder events := by
  have hempty : TimeOrdered empty.events.toList := List.Pairwise.nil
  refine eq_of_atTime (extend_ordered events hempty) (timeOrdered_inTimeOrder events) fun t => ?_
  rw [atTime_inTimeOrder]
  exact atTime_extend t events hempty

theorem extend_cursor (events : List Event) (t : Timeline) :
    (t.extend events).cursor = t.cursor := by
  induction events generalizing t with
  | nil => rfl
  | cons e events ih => exact ih (t.push e)

/-! ## Handing out -/

/-- The events not handed out. -/
def waiting (t : Timeline) : List Event := t.events.toList.drop t.cursor

theorem waiting_ofList (events : List Event) : (ofList events).waiting = inTimeOrder events := by
  have hcursor : (ofList events).cursor = 0 := extend_cursor events empty
  rw [waiting, hcursor, toList_ofList, List.drop_zero]

theorem waiting_ordered {t : Timeline} (ht : TimeOrdered t.events.toList) :
    TimeOrdered t.waiting :=
  ht.sublist (List.drop_sublist _ _)

/-- The scan stops after the waiting events that are due. -/
theorem advance_eq (events : Array Event) (time : UInt64) (place : Nat) :
    advance events time place =
      place + ((events.toList.drop place).takeWhile fun e => e.time ≤ time).length := by
  fun_induction advance events time place with
  | case1 place h hle ih =>
    have hdrop : events.toList.drop place = events[place] :: events.toList.drop (place + 1) := by
      rw [List.drop_eq_getElem_cons (by simpa using h), Array.getElem_toList]
    rw [ih, hdrop, List.takeWhile_cons_of_pos (by simpa using hle), List.length_cons]
    omega
  | case2 place h hle =>
    have hdrop : events.toList.drop place = events[place] :: events.toList.drop (place + 1) := by
      rw [List.drop_eq_getElem_cons (by simpa using h), Array.getElem_toList]
    rw [hdrop, List.takeWhile_cons_of_neg (by simpa using hle), List.length_nil, Nat.add_zero]
  | case3 place h =>
    rw [List.drop_eq_nil_of_le (by simpa using h)]
    rfl

theorem drain_cursor (t : Timeline) (time : UInt64) :
    (t.drain time).cursor = t.cursor + (t.waiting.takeWhile fun e => e.time ≤ time).length :=
  advance_eq t.events time t.cursor

/-- The events handed out are the waiting ones that are due. -/
theorem between_drain (t : Timeline) (time : UInt64) :
    (t.drain time).between t.cursor (t.drain time).cursor =
      t.waiting.takeWhile fun e => e.time ≤ time := by
  rw [drain_cursor]
  show (t.events.extract _ _).toList = _
  rw [Array.toList_extract, List.extract_eq_take_drop, Nat.add_sub_cancel_left]
  exact take_takeWhile_length _ t.waiting

theorem waiting_drain (t : Timeline) (time : UInt64) :
    (t.drain time).waiting = t.waiting.dropWhile fun e => e.time ≤ time := by
  rw [waiting, drain_cursor, ← List.drop_drop]
  exact drop_takeWhile_length _ t.waiting

end Timeline

end Chiptune
