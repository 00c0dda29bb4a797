import Chiptune.Json.Layout
import Chiptune.Json.Record

/-!
# Reading what was written

A scanner reads a layout as a value if it gives that value, and the rest, on every text
that has the layout after some blanks (`Reads`). A number is only known to have ended by
what follows it, so the rest has to be one that can stand after a written value: nothing,
a comma, or the end of a line.

The lemmas go by the kinds of values. Natural numbers, truth values and words are read as
what they were written from; lists and objects are, if their items are. The members of an
object change a state one after the other, and `Gathers` says to which state a sequence of
members leads.
-/

set_option autoImplicit false

namespace Chiptune.Json

variable {α β σ : Type}

/-! ## Blanks -/

/-- What follows a written value: nothing, a comma, or the end of a line. -/
def Closed (rest : List Char) : Prop := ∀ c ∈ rest.head?, c = ',' ∨ c = '\n'

theorem Closed.cases {rest : List Char} (h : Closed rest) :
    rest = [] ∨ ∃ cs, rest = ',' :: cs ∨ rest = '\n' :: cs := by
  cases rest with
  | nil => exact .inl rfl
  | cons c cs =>
    rcases h c rfl with rfl | rfl
    · exact .inr ⟨cs, .inl rfl⟩
    · exact .inr ⟨cs, .inr rfl⟩

theorem closed_nil : Closed [] := by
  intro c hc
  cases hc

theorem closed_comma (cs : List Char) : Closed (',' :: cs) := by
  intro c hc
  exact .inl (Option.some.inj hc).symm

theorem closed_newline (indent : Nat) (cs : List Char) :
    Closed (Layout.newline indent ++ cs) := by
  intro c hc
  exact .inr (Option.some.inj hc).symm

theorem skipBlanks_cons {c : Char} (hc : isBlank c = false) (cs : List Char) :
    skipBlanks (c :: cs) = c :: cs := by
  simp only [skipBlanks, List.dropWhile_cons, hc, Bool.false_eq_true, if_false]

theorem skipBlanks_newline (indent : Nat) (cs : List Char) :
    skipBlanks (Layout.newline indent ++ cs) = skipBlanks cs := by
  have hblanks : ∀ c ∈ Layout.newline indent, isBlank c = true := by
    intro c hc
    rcases List.mem_cons.1 hc with rfl | hc
    · rfl
    · rw [List.eq_of_mem_replicate hc]
      rfl
  exact List.dropWhile_append_of_pos hblanks

/-! ## Layouts that are read -/

/-- The layout starts as a value does that is neither absent nor the end of a list. -/
def Layout.Opens (text : Layout) : Prop :=
  ∀ indent, ∃ c cs, text indent = c :: cs ∧ isBlank c = false ∧ c ≠ ']' ∧ c ≠ 'n'

theorem Layout.Opens.skipBlanks_eq {text : Layout} (h : text.Opens) (indent : Nat)
    (rest : List Char) : skipBlanks (text indent ++ rest) = text indent ++ rest := by
  obtain ⟨c, cs, htext, hblank, -, -⟩ := h indent
  rw [htext]
  exact skipBlanks_cons hblank _

/-- The scanner reads the layout as the value, and leaves what follows. -/
structure Reads (item : Scan α) (text : Layout) (a : α) : Prop where
  opens : text.Opens
  scan_eq : ∀ (indent : Nat) (cs rest : List Char), Closed rest →
    skipBlanks cs = text indent ++ rest → item cs = .ok (a, rest)

/-- The scanner with a function applied to its value. -/
def mapped (f : α → β) (item : Scan α) : Scan β := fun cs => do
  let (v, rest) ← item cs
  return (f v, rest)

namespace Reads

variable {item : Scan α} {text : Layout} {a : α}

/-- A layout is read from its first character on, and from a blank before it. -/
theorem scan_text (h : Reads item text a) (indent : Nat) {rest : List Char}
    (hrest : Closed rest) : item (text indent ++ rest) = .ok (a, rest) :=
  h.scan_eq indent _ rest hrest (h.opens.skipBlanks_eq indent rest)

theorem scan_blank (h : Reads item text a) (indent : Nat) {rest : List Char}
    (hrest : Closed rest) : item (' ' :: (text indent ++ rest)) = .ok (a, rest) :=
  h.scan_eq indent _ rest hrest (h.opens.skipBlanks_eq indent rest)

theorem map (f : α → β) (h : Reads item text a) : Reads (mapped f item) text (f a) where
  opens := h.opens
  scan_eq := by
    intro indent cs rest hrest hcs
    simp only [mapped, h.scan_eq indent cs rest hrest hcs]
    rfl

/-- A value that is there is not taken for `null`. -/
theorem optional (h : Reads item text a) : Reads (optional item) text (some a) where
  opens := h.opens
  scan_eq := by
    intro indent cs rest hrest hcs
    obtain ⟨c, t, htext, -, -, hnull⟩ := h.opens indent
    simp only [Json.optional, hcs]
    split
    · rename_i hn
      rw [htext] at hn
      exact absurd (List.cons.inj hn).1 hnull
    · rw [h.scan_text indent hrest]
      rfl

end Reads

/-! ## Truth values and words -/

theorem reads_boolean (b : Bool) : Reads boolean (.boolean b) b where
  opens := by
    intro indent
    cases b with
    | false => exact ⟨'f', _, rfl, by decide, by decide, by decide⟩
    | true => exact ⟨'t', _, rfl, by decide, by decide, by decide⟩
  scan_eq := by
    intro indent cs rest _ hcs
    cases b with
    | false =>
      have hword : skipBlanks cs = 'f' :: (['a', 'l', 's', 'e'] ++ rest) := hcs
      simp only [boolean, hword]
      rfl
    | true =>
      have hword : skipBlanks cs = 't' :: (['r', 'u', 'e'] ++ rest) := hcs
      simp only [boolean, hword]
      rfl

/-- The character stands in a word without an escape. -/
def isPlain (c : Char) : Bool := c != '"' && c != '\\' && decide (32 ≤ c.toNat)

/-- The word is written without escapes. -/
def Plain (s : String) : Prop := s.toList.all isPlain = true

instance (s : String) : Decidable (Plain s) := instDecidableEqBool _ _

theorem textFrom_of_plain {word : List Char} (hplain : word.all isPlain = true)
    (acc rest : List Char) :
    textFrom acc (word ++ '"' :: rest) = .ok (String.ofList (acc.reverse ++ word), rest) := by
  induction word generalizing acc with
  | nil =>
    rw [List.nil_append, textFrom.eq_def]
    simp only [if_true, List.append_nil]
  | cons c word ih =>
    simp only [List.all_cons, isPlain, Bool.and_eq_true, bne_iff_ne, decide_eq_true_eq] at hplain
    obtain ⟨⟨⟨hquote, hescape⟩, hprinted⟩, hword⟩ := hplain
    have hcontrol : ¬ c.toNat < 32 := Nat.not_lt.2 hprinted
    have htext := ih hword (c :: acc)
    rw [List.reverse_cons, List.append_assoc, List.singleton_append] at htext
    rw [List.cons_append, textFrom.eq_def]
    simp only [hquote, hescape, hcontrol, if_false, htext]

theorem Plain.textFrom_eq {s : String} (h : Plain s) (rest : List Char) :
    textFrom [] (s.toList ++ '"' :: rest) = .ok (s, rest) := by
  rw [textFrom_of_plain h, List.reverse_nil, List.nil_append, String.ofList_toList]

/-! ## Natural numbers -/

/-- Appending digits does not make a number smaller. -/
theorem le_foldl_digits (n : Nat) (ds : List Char) :
    n ≤ ds.foldl (fun n d => n * 10 + digitValue d) n := by
  induction ds generalizing n with
  | nil => exact Nat.le_refl n
  | cons d ds ih => exact Nat.le_trans (by omega) (ih (n * 10 + digitValue d))

/-- No digit is left over of a number that fits. -/
theorem absorb_of_lt (n : Nat) (ds : List Char)
    (hfits : ds.foldl (fun n d => n * 10 + digitValue d) n < UInt64.size) :
    absorb n ds = (ds.foldl (fun n d => n * 10 + digitValue d) n, 0) := by
  induction ds generalizing n with
  | nil => rfl
  | cons d ds ih =>
    rw [List.foldl_cons] at hfits ⊢
    have hle := le_foldl_digits (n * 10 + digitValue d) ds
    simp only [absorb]
    rw [if_pos (Nat.lt_of_le_of_lt hle hfits), ih _ hfits]

theorem digitsValue_toDigits (n : Nat) : digitsValue (Nat.toDigits 10 n) = n := by
  have hvalue := Nat.ofDigitChars_ten_toDigits (n := n)
  rw [Nat.ofDigitChars_eq_foldl] at hvalue
  simpa only [digitsValue, digitValue, Nat.mul_comm] using hvalue

theorem isDigit_toDigits (n : Nat) : ∀ c ∈ Nat.toDigits 10 n, c.isDigit = true := by
  intro c hc
  exact Nat.isDigit_of_mem_toDigits (by decide) (by decide) hc

theorem exists_toDigits (n : Nat) :
    ∃ c ds, Nat.toDigits 10 n = c :: ds ∧ c.isDigit = true := by
  obtain ⟨c, ds, hdigits⟩ := List.exists_cons_of_ne_nil (Nat.toDigits_ne_nil (n := n) (b := 10))
  exact ⟨c, ds, hdigits, isDigit_toDigits n c (by rw [hdigits]; exact List.mem_cons_self)⟩

/-- Only zero is written with a leading zero. -/
theorem eq_zero_of_head_toDigits (n : Nat) (h : (Nat.toDigits 10 n).head? = some '0') :
    n = 0 := by
  induction n using Nat.strongRecOn with
  | ind n ih =>
    rw [Nat.toDigits_eq_if (by decide)] at h
    split at h
    · rename_i hlt
      have hdigit : Nat.digitChar n = '0' := Option.some.inj h
      revert hlt hdigit
      clear ih h
      revert n
      decide
    · rename_i hge
      have hhead : (Nat.toDigits 10 (n / 10)).head? = some '0' := by
        obtain ⟨c, ds, hdigits, -⟩ := exists_toDigits (n / 10)
        rwa [hdigits] at h ⊢
      have hzero := ih (n / 10) (by omega) hhead
      omega

theorem splitDigits_append {ds rest : List Char} (hds : ∀ c ∈ ds, c.isDigit = true)
    (hrest : Closed rest) : splitDigits (ds ++ rest) = (ds, rest) := by
  have hstop : rest.takeWhile Char.isDigit = [] ∧ rest.dropWhile Char.isDigit = rest := by
    rcases hrest.cases with rfl | ⟨cs, rfl | rfl⟩ <;> exact ⟨rfl, rfl⟩
  rw [splitDigits, List.takeWhile_append_of_pos hds, List.dropWhile_append_of_pos hds, hstop.1,
    hstop.2, List.append_nil]

theorem wholeDigits_toDigits (n : Nat) {rest : List Char} (hrest : Closed rest) :
    wholeDigits .strict (Nat.toDigits 10 n ++ rest) = .ok (Nat.toDigits 10 n, rest) := by
  have hsplit := splitDigits_append (isDigit_toDigits n) hrest
  obtain ⟨c, ds, hdigits, hdigit⟩ := exists_toDigits n
  by_cases hc : c = '0'
  · -- a leading zero is the only digit, so what comes next is not one
    have hzero : n = 0 := eq_zero_of_head_toDigits n (by rw [hdigits, hc]; rfl)
    rw [hzero, Nat.toDigits_zero]
    rcases hrest.cases with rfl | ⟨cs, rfl | rfl⟩ <;> rfl
  · rw [hdigits, List.cons_append] at hsplit ⊢
    simp only [wholeDigits, if_neg hc, hdigit, if_true, hsplit]

theorem fractionPart_of_closed (n : Numeral) {rest : List Char} (hrest : Closed rest) :
    fractionPart .strict n rest = .ok (n, rest) := by
  rcases hrest.cases with rfl | ⟨cs, rfl | rfl⟩ <;> rfl

theorem numeral_toDigits (n : Nat) {rest : List Char} (hrest : Closed rest) :
    numeral .strict (Nat.toDigits 10 n ++ rest) =
      .ok (⟨false, Nat.toDigits 10 n, [], false, [], false⟩, rest) := by
  have hunsigned : ∀ cs, Nat.toDigits 10 n ++ rest ≠ '-' :: cs := by
    intro cs hcs
    obtain ⟨c, ds, hdigits, hdigit⟩ := exists_toDigits n
    rw [hdigits] at hcs
    rw [(List.cons.inj hcs).1] at hdigit
    exact absurd hdigit (by decide)
  have hwhole := wholeDigits_toDigits n hrest
  unfold numeral
  split
  rename_i negative cs hsign
  split at hsign
  · rename_i cs' hminus
    exact absurd hminus (hunsigned cs')
  · obtain ⟨rfl, rfl⟩ := Prod.mk.inj hsign
    rw [hwhole]
    exact fractionPart_of_closed _ hrest

/-- Rounding to 53 bits does not more than double a number. -/
theorem significant_le (n : Nat) (hn : n ≠ 0) : Rounding.significant n ≤ 2 * n := by
  have hunit : 2 ^ (n.log2 - 52) ≤ n :=
    Nat.le_trans (Nat.pow_le_pow_right (by decide) (Nat.sub_le _ _)) (Nat.log2_self_le hn)
  have hround := (Rounding.roundDiv_near n (2 ^ (n.log2 - 52)) (Nat.two_pow_pos _)).2
  simp only [Rounding.significant, Nat.shiftLeft_eq, Nat.one_mul]
  rw [Nat.mul_comm]
  omega

theorem inRange_of_lt {n : Nat} (hn : n < UInt64.size) : inRange n 0 = true := by
  by_cases hzero : n = 0
  · simp only [inRange, hzero, true_or, if_true]
  · have hround := significant_le n hzero
    have hone : Rounding.significant (Nat.pow 10 (Int.toNat 0)) = 1 := by decide
    have hlimit : 2 * UInt64.size ≤ (1 <<< 1024) - (1 <<< 970) := by decide
    simp only [inRange, hzero, Int.lt_irrefl, or_self, if_false, hone, Nat.mul_one]
    rw [if_neg (by decide)]
    exact decide_eq_true (by omega)

theorem number_toDigits {n : Nat} (hn : n < UInt64.size) {rest : List Char}
    (hrest : Closed rest) : number (Nat.toDigits 10 n ++ rest) = .ok (some n, rest) := by
  have hvalue := digitsValue_toDigits n
  have habsorb := absorb_of_lt 0 (Nat.toDigits 10 n) (by rwa [← digitsValue, hvalue])
  rw [← digitsValue, hvalue] at habsorb
  have hfinite : Numeral.isFinite ⟨false, Nat.toDigits 10 n, [], false, [], false⟩ = true := by
    simp only [Numeral.isFinite, habsorb]
    exact inRange_of_lt hn
  have hnatural :
      Numeral.natural? ⟨false, Nat.toDigits 10 n, [], false, [], false⟩ = some n := by
    simp only [Numeral.natural?, hvalue, Bool.or_self, Bool.false_eq_true, if_false, if_pos hn]
  simp only [number, numeral_toDigits n hrest, bind, Except.bind, hfinite, hnatural, if_true]
  rfl

theorem Layout.opens_natural (n : Nat) : (Layout.natural n).Opens := by
  intro indent
  obtain ⟨c, ds, hdigits, hdigit⟩ := exists_toDigits n
  refine ⟨c, ds, hdigits, ?_, ?_, ?_⟩
  · cases hblank : isBlank c with
    | false => rfl
    | true =>
      simp only [isBlank, Bool.or_eq_true, beq_iff_eq] at hblank
      rcases hblank with ((rfl | rfl) | rfl) | rfl <;> exact absurd hdigit (by decide)
  · rintro rfl
    exact absurd hdigit (by decide)
  · rintro rfl
    exact absurd hdigit (by decide)

/-- A natural number starts with a digit and is scanned to its end. -/
theorem exists_number {n : Nat} (hn : n < UInt64.size) {indent : Nat} {cs rest : List Char}
    (hrest : Closed rest) (hcs : skipBlanks cs = Layout.natural n indent ++ rest) :
    ∃ c ds, skipBlanks cs = c :: ds ∧ c.isDigit = true ∧ startsNumber c = true ∧
      number (c :: ds) = .ok (some n, rest) := by
  have hnumber := number_toDigits hn hrest
  obtain ⟨c, ds, hdigits, hdigit⟩ := exists_toDigits n
  simp only [Layout.natural, hdigits, List.cons_append] at hcs hnumber
  have hstarts : startsNumber c = true := by simp only [startsNumber, hdigit, Bool.or_true]
  exact ⟨c, ds ++ rest, hcs, hdigit, hstarts, hnumber⟩

theorem reads_natural {limit n : Nat} (hlimit : n ≤ limit) (hn : n < UInt64.size) :
    Reads (natural limit) (.natural n) n where
  opens := Layout.opens_natural n
  scan_eq := by
    intro indent cs rest hrest hcs
    obtain ⟨c, ds, htext, -, hstarts, hnumber⟩ := exists_number hn hrest hcs
    simp only [natural, htext, hstarts, if_true, hnumber, bind, Except.bind, if_pos hlimit]

theorem reads_byte (v : UInt8) : Reads byte (.natural v.toNat) v := by
  have hlimit : v.toNat ≤ 255 := Nat.le_of_lt_succ v.toNat_lt
  have hread := (reads_natural hlimit (Nat.lt_of_le_of_lt hlimit (by decide))).map Nat.toUInt8
  have hvalue : v.toNat.toUInt8 = v := UInt8.ofNat_toNat
  rwa [hvalue] at hread

/-! ## Items on lines of their own -/

namespace Layout

/-- The items after the first: each behind a comma, on a line of its own. -/
def following (indent : Nat) (items : List (List Char)) : List Char :=
  items.flatMap fun item => ',' :: newline indent ++ item

theorem lines_cons (indent : Nat) (item : List Char) (items : List (List Char)) :
    lines indent (item :: items) = newline indent ++ item ++ following indent items := by
  induction items generalizing item with
  | nil => rw [lines, following, List.flatMap_nil, List.append_nil]
  | cons next items ih =>
    rw [lines, ih]
    · simp only [following, List.flatMap_cons, List.cons_append, List.append_assoc]
    · exact List.cons_ne_nil next items

theorem closed_following (indent outer : Nat) (items : List (List Char)) (cs : List Char) :
    Closed (following indent items ++ (newline outer ++ cs)) := by
  cases items with
  | nil => exact closed_newline outer cs
  | cons item items => exact closed_comma _

theorem length_le_following (indent : Nat) (items : List (List Char)) :
    items.length ≤ (following indent items).length := by
  induction items with
  | nil => exact Nat.zero_le _
  | cons item items ih =>
    simp only [following, List.flatMap_cons, List.length_append, List.length_cons] at ih ⊢
    omega

end Layout

/-! ## Lists -/

theorem nextElement_end (first : Bool) (outer : Nat) (rest : List Char) :
    nextElement first (Layout.newline outer ++ ']' :: rest) = .ok (false, rest) := by
  simp only [nextElement, skipBlanks_newline]
  rfl

theorem nextElement_first {text : Layout} (h : text.Opens) (indent : Nat) (cs : List Char) :
    nextElement true (Layout.newline indent ++ (text indent ++ cs)) =
      .ok (true, text indent ++ cs) := by
  simp only [nextElement, skipBlanks_newline, h.skipBlanks_eq]
  obtain ⟨c, t, htext, -, hend, -⟩ := h indent
  simp only [htext, List.cons_append, hend, if_false, if_true]

theorem nextElement_comma {text : Layout} (h : text.Opens) (indent : Nat) (cs : List Char) :
    nextElement false (',' :: (Layout.newline indent ++ (text indent ++ cs))) =
      .ok (true, text indent ++ cs) := by
  have hcomma : skipBlanks (',' :: (Layout.newline indent ++ (text indent ++ cs))) =
      ',' :: (Layout.newline indent ++ (text indent ++ cs)) := skipBlanks_cons rfl _
  simp only [nextElement, hcomma, skipBlanks_newline, h.skipBlanks_eq]
  obtain ⟨c, t, htext, -, hend, -⟩ := h indent
  simp only [htext, List.cons_append, hend, if_false]
  rfl

section Lists

variable {item : Scan α} {layout : α → Layout}

/-- The elements after the first, up to the end of the list. -/
theorem elements_following (as : List α) (h : ∀ a ∈ as, Reads item (layout a) a)
    (indent outer : Nat) (rest : List Char) (n : Nat) (hn : as.length < n) :
    elements item n false
        (Layout.following indent (as.map fun a => layout a indent) ++
          (Layout.newline outer ++ ']' :: rest)) =
      .ok (as, rest) := by
  induction as generalizing n with
  | nil =>
    obtain ⟨n, rfl⟩ := Nat.exists_eq_add_of_lt hn
    simp only [Layout.following, List.map_nil, List.flatMap_nil, List.nil_append, elements,
      nextElement_end]
    rfl
  | cons a as ih =>
    obtain ⟨n, rfl⟩ := Nat.exists_eq_add_of_lt hn
    have ha := h a List.mem_cons_self
    have hrest := Layout.closed_following indent outer (as.map fun a => layout a indent)
      (']' :: rest)
    have has := ih (fun b hb => h b (List.mem_cons_of_mem a hb)) (as.length + 1 + n) (by omega)
    simp only [Layout.following, List.length_cons, List.map_cons, List.flatMap_cons,
      List.cons_append, List.append_assoc] at hrest has ⊢
    simp only [elements, nextElement_comma ha.opens, bind, Except.bind, ha.scan_text indent hrest,
      has]
    rfl

theorem reads_list (as : List α) (h : ∀ a ∈ as, Reads item (layout a) a) :
    Reads (list item) (.list (as.map layout)) as where
  opens := by
    intro indent
    cases as with
    | nil => exact ⟨'[', _, rfl, by decide, by decide, by decide⟩
    | cons a as => exact ⟨'[', _, rfl, by decide, by decide, by decide⟩
  scan_eq := by
    intro indent cs rest _ hcs
    cases as with
    | nil =>
      have hempty : skipBlanks cs = '[' :: ']' :: rest := hcs
      simp only [list, hempty]
      rfl
    | cons a as =>
      have ha := h a List.mem_cons_self
      have hitems : (as.map layout).map (fun item => item (indent + 2)) =
          as.map fun a => layout a (indent + 2) := by
        rw [List.map_map]
        rfl
      have hrest := Layout.closed_following (indent + 2) indent
        (as.map fun a => layout a (indent + 2)) (']' :: rest)
      have hcount := Layout.length_le_following (indent + 2)
        (as.map fun a => layout a (indent + 2))
      have has := elements_following as (fun b hb => h b (List.mem_cons_of_mem a hb))
        (indent + 2) indent rest
      simp only [Layout.list, List.map_cons, List.isEmpty_cons, Bool.false_eq_true, if_false,
        Layout.lines_cons, hitems, List.cons_append, List.append_assoc, List.nil_append] at hcs
      simp only [list, hcs, elements, nextElement_first ha.opens, bind, Except.bind,
        ha.scan_text (indent + 2) hrest]
      rw [has _ (by
        simp only [List.length_append, List.length_cons, List.length_map] at hcount ⊢; omega)]
      rfl

end Lists

/-! ## Objects -/

theorem nextKey_end (first : Bool) (outer : Nat) (rest : List Char) :
    nextKey first (Layout.newline outer ++ '\x7d' :: rest) = .ok (none, rest) := by
  simp only [nextKey, skipBlanks_newline]
  rfl

theorem skipBlanks_word (key : String) (indent : Nat) (cs : List Char) :
    skipBlanks (Layout.word key indent ++ cs) = '"' :: (key.toList ++ '"' :: cs) := by
  simp only [Layout.word, List.cons_append, List.append_assoc, List.nil_append]
  exact skipBlanks_cons rfl _

theorem nextKey_first {key : String} (h : Plain key) (indent : Nat) (cs : List Char) :
    nextKey true (Layout.newline indent ++ (Layout.word key indent ++ cs)) =
      .ok (some key, cs) := by
  simp only [nextKey, skipBlanks_newline, skipBlanks_word]
  simp only [nextKey.quoted, h.textFrom_eq, if_true]
  rfl

theorem nextKey_comma {key : String} (h : Plain key) (indent : Nat) (cs : List Char) :
    nextKey false (',' :: (Layout.newline indent ++ (Layout.word key indent ++ cs))) =
      .ok (some key, cs) := by
  have hcomma : skipBlanks (',' :: (Layout.newline indent ++ (Layout.word key indent ++ cs))) =
      ',' :: (Layout.newline indent ++ (Layout.word key indent ++ cs)) := skipBlanks_cons rfl _
  simp only [nextKey, hcomma, skipBlanks_newline, skipBlanks_word]
  simp only [nextKey.quoted, h.textFrom_eq, if_true]
  rfl

theorem colon_cons (cs : List Char) : colon (':' :: cs) = .ok cs := rfl

/-- The members take one state to the other: each is read from the colon after its key on. -/
inductive Gathers (member : String → σ → Scan σ) : List (String × Layout) → σ → σ → Prop where
  | nil (s : σ) : Gathers member [] s s
  | cons {key : String} {value : Layout} {ms : List (String × Layout)} {s t u : σ}
      (hkey : Plain key) (hvalue : Reads (fun cs => member key s (':' :: cs)) value t)
      (hrest : Gathers member ms t u) : Gathers member ((key, value) :: ms) s u

namespace Gathers

variable {member : String → σ → Scan σ} {ms ns : List (String × Layout)} {s t u : σ}

theorem append (h : Gathers member ms s t) (h' : Gathers member ns t u) :
    Gathers member (ms ++ ns) s u := by
  induction h with
  | nil s => exact h'
  | cons hkey hvalue hrest ih => exact cons hkey hvalue (ih h')

theorem single {key : String} {value : Layout} (hkey : Plain key)
    (hvalue : Reads (fun cs => member key s (':' :: cs)) value t) :
    Gathers member [(key, value)] s t :=
  cons hkey hvalue (nil t)

/-- A member that may be left out. -/
theorem option {f : α → String × Layout} (o : Option α) (state : Option α → σ)
    (h : ∀ a, Gathers member [f a] (state none) (state (some a))) :
    Gathers member (o.map f).toList (state none) (state o) := by
  cases o with
  | none => exact nil _
  | some a => exact h a

/-- The members after the first, up to the end of the object. -/
theorem members_following (h : Gathers member ms s t) (indent outer : Nat) (rest : List Char)
    (n : Nat) (hn : ms.length < n) :
    members member n false s
        (Layout.following indent (ms.map fun m => Layout.member m.1 m.2 indent) ++
          (Layout.newline outer ++ '\x7d' :: rest)) =
      .ok (t, rest) := by
  induction h generalizing n with
  | nil s =>
    obtain ⟨n, rfl⟩ := Nat.exists_eq_add_of_lt hn
    simp only [Layout.following, List.map_nil, List.flatMap_nil, List.nil_append, members,
      nextKey_end]
    rfl
  | @cons key value ms s t u hkey hvalue _ ih =>
    obtain ⟨n, rfl⟩ := Nat.exists_eq_add_of_lt hn
    have hrest := Layout.closed_following indent outer
      (ms.map fun m => Layout.member m.1 m.2 indent) ('\x7d' :: rest)
    have hms := ih (ms.length + 1 + n) (by omega)
    have hmember := hvalue.scan_blank indent hrest
    simp only [Layout.following, List.length_cons, List.map_cons, List.flatMap_cons,
      List.cons_append, List.append_assoc] at hmember hms ⊢
    simp only [members, Layout.member, List.append_assoc, nextKey_comma hkey, bind, Except.bind,
      List.cons_append] at hmember hms ⊢
    simp only [hmember, hms]

/-- An object is read into the state that its members lead to. -/
theorem members_object (h : Gathers member ms s t) {indent : Nat} {cs rest : List Char}
    (hcs : skipBlanks cs = Layout.object ms indent ++ rest) :
    ∃ body, skipBlanks cs = '\x7b' :: body ∧
      members member (body.length + 1) true s body = .ok (t, rest) := by
  cases h with
  | nil =>
    simp only [Layout.object, List.map_nil, Layout.lines, List.cons_append, List.nil_append,
      List.append_assoc] at hcs
    refine ⟨_, hcs, ?_⟩
    simp only [members, nextKey_end]
    rfl
  | @cons key value ms s t u hkey hvalue hms =>
    have hrest := Layout.closed_following (indent + 2) indent
      (ms.map fun m => Layout.member m.1 m.2 (indent + 2)) ('\x7d' :: rest)
    have hcount := Layout.length_le_following (indent + 2)
      (ms.map fun m => Layout.member m.1 m.2 (indent + 2))
    have hmember := hvalue.scan_blank (indent + 2) hrest
    simp only [Layout.object, List.map_cons, Layout.lines_cons, List.cons_append,
      List.append_assoc, List.nil_append] at hcs
    refine ⟨_, hcs, ?_⟩
    simp only [members, Layout.member, List.append_assoc, List.cons_append, nextKey_first hkey,
      bind, Except.bind] at hmember ⊢
    simp only [hmember]
    apply hms.members_following
    simp only [Layout.member, List.length_append, List.length_cons, List.length_map] at hcount ⊢
    omega

end Gathers

theorem Layout.opens_object (ms : List (String × Layout)) : (Layout.object ms).Opens := by
  intro indent
  exact ⟨'\x7b', _, rfl, by decide, by decide, by decide⟩

namespace Record

variable {r : Record σ α} {f : Field σ} {s t : σ} {value : Layout}

/-- A field that was not given yet is read and put into the state. -/
theorem gathers_cons {item : Scan β} {b : β} {key : String} {ms : List (String × Layout)}
    (put : σ → β → σ) (hkey : Plain key)
    (hfind : r.fields.find? (fun f => f.name == key) = some f) (hset : f.isSet s = false)
    (hread : f.read = fun d => mapped (put d) item)
    (hitem : Reads item value b) (hrest : Gathers r.member ms (put s b) t) :
    Gathers r.member ((key, value) :: ms) s t := by
  have hmember : (fun cs => r.member key s (':' :: cs)) = f.read s := by
    funext cs
    simp only [member, hfind, hset, Bool.false_eq_true, if_false, colon_cons, bind, Except.bind]
  apply Gathers.cons hkey _ hrest
  rw [hmember, hread]
  exact hitem.map (put s)

theorem reads_object {ms : List (String × Layout)} {a : α} (hms : Gathers r.member ms r.start s)
    (hbuild : r.build s = some a) : Reads r.scan (.object ms) a where
  opens := Layout.opens_object ms
  scan_eq := by
    intro indent cs rest _ hcs
    obtain ⟨body, hbody, hstate⟩ := hms.members_object hcs
    simp only [scan, hbody, hstate, bind, Except.bind, hbuild]
    rfl

end Record

theorem Reads.whole_eq {item : Scan α} {text : Layout} {a : α} (h : Reads item text a)
    (indent : Nat) : whole item (text indent) = .ok a := by
  have hread := h.scan_text indent closed_nil
  rw [List.append_nil] at hread
  simp only [whole, hread]
  rfl

end Chiptune.Json
