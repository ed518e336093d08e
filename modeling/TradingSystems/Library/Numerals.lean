import TradingSystems.Library.CString

/- Printed decimal numerals are scanned back part by part: the sign, the digits in
   front of the point, those behind it, and the exponent. What `showFixed` and
   `showGeneral` print is such a numeral. -/
namespace Extraction
open Decimal Formats Binary64

def exponentText : Option (Bool × Text) → Text
  | none => []
  | some (down, ds) => 'e' :: (if down then '-' else '+') :: ds

namespace Numeral

def text (n : Numeral) : Text :=
  (if n.negative then ['-'] else []) ++ (n.whole ++ (pointed n.frac ++ exponentText n.exponent))

/-- The parts of a printed number: digits in front of the point, and in the exponent. -/
structure Printed (n : Numeral) : Prop where
  some_digit : n.whole ≠ []
  whole : AllDigits n.whole
  frac : AllDigits n.frac
  exponent : ∀ down ds, n.exponent = some (down, ds) → ds ≠ [] ∧ AllDigits ds

end Numeral

section Scanning
variable {n : Numeral} {rest : Text}

theorem split_sign_text {ds : Text} (negative : Bool) (rest : Text) (some_digit : ds ≠ [])
    (all : AllDigits ds) :
    splitSign ((if negative then ['-'] else []) ++ (ds ++ rest)) = (negative, ds ++ rest) := by
  cases negative with
  | true => rfl
  | false =>
    rw [if_neg Bool.false_ne_true, List.nil_append]
    exact split_sign_digits some_digit all

theorem exponent_stop (exponent : Option (Bool × Text)) (ends : Ends rest) :
    ∀ c ∈ (exponentText exponent ++ rest).head?, c.isDigit = false ∧ c ≠ '.' := by
  intro c first
  cases exponent with
  | none =>
    refine ⟨ends.not_digit c first, ?_⟩
    intro point
    have blank := ends c first
    rw [point] at blank
    cases blank
  | some parts =>
    cases first
    decide

theorem pointed_stop (frac : Text) (stop : ∀ c ∈ rest.head?, c.isDigit = false ∧ c ≠ '.') :
    ∀ c ∈ (pointed frac ++ rest).head?, c.isDigit = false := by
  intro c first
  unfold pointed at first
  split at first
  · exact (stop c first).1
  · cases first
    decide

/-- A printed numeral in front of a blank or the end is scanned as it was printed. -/
theorem scan_numeral (printed : n.Printed) (ends : Ends rest) :
    scanNumeral (n.text ++ rest) = (n, rest) := by
  obtain ⟨negative, whole, frac, exponent⟩ := n
  obtain ⟨some_digit, all, behind, powers⟩ := printed
  have stop := exponent_stop exponent ends
  have signed := split_sign_text negative (pointed frac ++ (exponentText exponent ++ rest))
    some_digit all
  have took := take_run all (pointed_stop frac stop)
  have left := drop_run all (pointed_stop frac stop)
  have took' := take_run behind fun c first => (stop c first).1
  have left' := drop_run behind fun c first => (stop c first).1
  simp only [scanNumeral, Numeral.text, List.append_assoc, signed, took, left]
  cases exponent with
  | none =>
    simp only [exponentText, List.nil_append] at took' left' stop ⊢
    cases rest with
    | nil =>
      by_cases pointless : frac = []
      · simp [pointed, pointless]
      · simp only [pointed, pointless, ↓reduceIte, List.cons_append, took', left']
    | cons c cs =>
      have blank := ends c rfl
      have other := (stop c rfl).2
      have no_exponent : ¬ (c = 'e' ∨ c = 'E') := by
        intro letter
        rcases letter with rfl | rfl <;> cases blank
      by_cases pointless : frac = []
      · simp [pointed, pointless, other, no_exponent]
      · simp [pointed, pointless, took', left', no_exponent]
  | some parts =>
    obtain ⟨down, ds⟩ := parts
    obtain ⟨_, power⟩ := powers down ds rfl
    have found := take_run power ends.not_digit
    have after := drop_run power ends.not_digit
    simp only [exponentText, List.cons_append] at took' left' ⊢
    by_cases pointless : frac = []
    · cases down <;> simp [pointed, pointless, some_digit, splitSign, found, after]
    · simp only [pointed, pointless, ↓reduceIte, List.cons_append, took', left']
      cases down <;> simp [some_digit, splitSign, found, after]

theorem Numeral.Printed.visible (printed : n.Printed) :
    ∃ c cs, n.text = c :: cs ∧ isSpace c = false := by
  obtain ⟨negative, whole, frac, exponent⟩ := n
  obtain ⟨d, ds, split⟩ := List.exists_cons_of_ne_nil printed.some_digit
  have digit := printed.whole d
  dsimp only at split digit
  rw [split] at digit
  cases negative with
  | true => exact ⟨'-', _, rfl, by decide⟩
  | false =>
    refine ⟨d, ds ++ (pointed frac ++ exponentText exponent), ?_, digit_not_space (digit (by simp))⟩
    simp [Numeral.text, split]

theorem Numeral.Printed.chars (printed : n.Printed) :
    ∀ c ∈ n.text, c.isDigit = true ∨ c ∈ ['-', '+', '.', 'e'] := by
  obtain ⟨negative, whole, frac, exponent⟩ := n
  obtain ⟨_, all, behind, powers⟩ := printed
  intro c member
  unfold Numeral.text at member
  rcases List.mem_append.mp member with sign | member
  · cases negative with
    | true => simp_all
    | false => cases sign
  rcases List.mem_append.mp member with digit | member
  · exact Or.inl (all c digit)
  rcases List.mem_append.mp member with point | power
  · unfold pointed at point
    split at point
    · cases point
    · rcases List.mem_cons.mp point with same | digit
      · simp [same]
      · exact Or.inl (behind c digit)
  · cases exponent with
    | none => cases power
    | some parts =>
      obtain ⟨down, ds⟩ := parts
      simp only [exponentText, List.mem_cons] at power
      rcases power with same | same | digit
      · simp [same]
      · cases down <;> simp [same]
      · exact Or.inl ((powers down ds rfl).2 c digit)

theorem read_numeral (printed : n.Printed) : CString.readDecimal n.text = n.value := by
  obtain ⟨c, cs, first, visible⟩ := printed.visible
  have unblanked : n.text.dropWhile isSpace = n.text := by simp [first, visible]
  have ends : Ends [] := by simp [Ends]
  have scanned := scan_numeral printed ends
  rw [List.append_nil] at scanned
  rw [CString.readDecimal, unblanked, scanned]
  dsimp only
  split
  · rename_i down same
    exact absurd rfl (printed.exponent down [] same).1
  · rfl

theorem extract_numeral {blanks : Text} {q : ℚ} (all : ∀ b ∈ blanks, isSpace b = true)
    (printed : n.Printed) (same : n.value = some q) (finite : |binary64 q| ≤ largestDouble)
    (ends : Ends rest) :
    extractDouble (.ofText (blanks ++ n.text ++ rest)) = (some q, .stopped rest false) := by
  obtain ⟨c, cs, first, visible⟩ := printed.visible
  obtain ⟨low, high⟩ := abs_le.mp finite
  have scanned := scan_numeral printed ends
  rw [first, List.cons_append] at scanned
  rw [extractDouble, List.append_assoc, first, List.cons_append, sentry_blanks all visible]
  simp only [scanned, same, not_lt.mpr high, not_lt.mpr low, ↓reduceIte]

end Scanning

section Values
variable {negative down : Bool} {whole frac ds : Text}

theorem value_plain (some_digit : whole ≠ []) :
    (⟨negative, whole, frac, none⟩ : Numeral).value =
      some ((if negative then -1 else 1) * (Decimal.value whole + fraction frac)) := by
  simp [Numeral.value, some_digit]

theorem value_power (some_digit : whole ≠ []) (some_power : ds ≠ []) :
    (⟨negative, whole, frac, some (down, ds)⟩ : Numeral).value =
      some ((if negative then -1 else 1) * (Decimal.value whole + fraction frac) *
        10 ^ (if down then -(Decimal.value ds : Int) else Decimal.value ds)) := by
  obtain ⟨d, es, split⟩ := List.exists_cons_of_ne_nil some_power
  subst split
  cases down with
  | true => simp [Numeral.value, some_digit, div_eq_mul_inv]
  | false => simp [Numeral.value, some_digit]

end Values

section Shown
variable {q : ℚ}

theorem signed_text (q : ℚ) : sign q = if decide (q < 0) then ['-'] else [] := by
  simp [sign]

theorem signed_value (q v : ℚ) :
    (if decide (q < 0) then (-1 : ℚ) else 1) * v = if q < 0 then -v else v := by
  by_cases negative : q < 0 <;> simp [negative]

theorem signed_exponent (x : Int) :
    (if decide (x < 0) then -(x.natAbs : Int) else x.natAbs) = x := by
  by_cases negative : x < 0
  · simp only [negative, decide_true, ↓reduceIte]
    omega
  · simp only [negative, decide_false, Bool.false_eq_true, ↓reduceIte]
    omega

/-- The text of a number with so many significant digits is a numeral of its rounding. -/
theorem show_general_numeral {precision : Nat} (some_digits : 0 < precision) (q : ℚ) :
    ∃ n : Numeral, n.Printed ∧ showGeneral precision q = n.text ∧
      n.value = some (shownGeneral precision q) := by
  by_cases zero : q = 0
  · subst zero
    have digit : AllDigits ['0'] := by simp [AllDigits]
    refine ⟨⟨false, ['0'], [], none⟩, ⟨by simp, digit, by simp [AllDigits], by simp⟩, ?_, ?_⟩
    · simp [showGeneral, Numeral.text, pointed, exponentText]
    · rw [value_plain (by simp), shown_general_zero]
      have nothing : Decimal.value ['0'] = 0 := rfl
      simp [nothing]
  · obtain ⟨m, x, parts, _, value⟩ := rounded_parts precision (abs_pos.mpr zero) some_digits
    rw [showGeneral, if_neg zero, parts, shownGeneral, value]
    dsimp only
    split
    · rename_i usual
      have behind : x - ((precision : Int) - 1) = -(((precision : Int) - 1 - x).toNat : Int) := by
        omega
      generalize ((precision : Int) - 1 - x).toNat = places at behind
      refine ⟨⟨decide (q < 0), digits (m / 10 ^ places),
        trimmed (padded places (m % 10 ^ places)), none⟩, ⟨digits_ne_nil _, all_digits _,
        (all_digits_padded _ _).trimmed, by simp⟩, ?_, ?_⟩
      · simp only [Numeral.text, signed_text, exponentText, List.append_nil, List.append_assoc]
      · rw [value_plain (digits_ne_nil _), places_value, signed_value, behind, zpow_neg,
          zpow_natCast, div_eq_mul_inv]
    · have some_power : padded 2 x.natAbs ≠ [] := by simp [padded, digits_ne_nil]
      refine ⟨⟨decide (q < 0), digits (m / 10 ^ (precision - 1)),
        trimmed (padded (precision - 1) (m % 10 ^ (precision - 1))),
        some (decide (x < 0), padded 2 x.natAbs)⟩, ⟨digits_ne_nil _, all_digits _,
        (all_digits_padded _ _).trimmed, ?_⟩, ?_, ?_⟩
      · intro down ds same
        cases same
        exact ⟨some_power, all_digits_padded _ _⟩
      · simp only [Numeral.text, signed_text, exponentText, List.append_assoc, List.cons_append,
          decide_eq_true_eq]
        rfl
      · have before : (((precision - 1 : Nat) : Int)) = (precision : Int) - 1 := by omega
        rw [value_power (digits_ne_nil _) some_power, places_value, value_padded,
          signed_exponent, mul_assoc, signed_value, zpow_sub₀ (by norm_num), ← before,
          zpow_natCast, div_mul_eq_mul_div, mul_div_assoc]

theorem show_fixed_numeral {places : Nat} (some_places : 0 < places) (q : ℚ) :
    ∃ n : Numeral, n.Printed ∧ showFixed places q = n.text ∧
      n.value = some (shownFixed places q) := by
  obtain ⟨m, same, _⟩ := show_fixed_parts some_places (abs_nonneg q)
  have small : m % 10 ^ places < 10 ^ places := Nat.mod_lt _ (by positivity)
  have some_frac : padded places (m % 10 ^ places) ≠ [] := by simp [padded, digits_ne_nil]
  refine ⟨⟨decide (q < 0), digits (m / 10 ^ places), padded places (m % 10 ^ places), none⟩,
    ⟨digits_ne_nil _, all_digits _, all_digits_padded _ _, by simp⟩, ?_, ?_⟩
  · simp only [showFixed, same, Int.toNat_natCast, some_places.ne', ↓reduceIte, Numeral.text,
      signed_text, pointed, some_frac, exponentText, List.append_nil, List.append_assoc]
  · rw [value_plain (digits_ne_nil _), value_digits, fraction_padded some_places small,
      split_places, signed_value, shownFixed, same]
    rfl

theorem shown_fixed_lt {places : Nat} (some_places : 0 < places) (q : ℚ) :
    |shownFixed places q| < 10 ^ (showFixed places q).length := by
  obtain ⟨m, same, _⟩ := show_fixed_parts some_places (abs_nonneg q)
  have magnitude : |shownFixed places q| = m / 10 ^ places := by
    have nonneg : (0 : ℚ) ≤ m / 10 ^ places := by positivity
    rw [shownFixed, same]
    split
    · rw [abs_neg]
      exact abs_of_nonneg nonneg
    · exact abs_of_nonneg nonneg
  have shorter : (digits (m / 10 ^ places)).length ≤ (showFixed places q).length := by
    simp only [showFixed, same, Int.toNat_natCast, List.length_append]
    omega
  have whole := CString.value_lt _ (all_digits (m / 10 ^ places))
  rw [value_digits] at whole
  have below : m < 10 ^ (digits (m / 10 ^ places)).length * 10 ^ places :=
    (Nat.div_lt_iff_lt_mul (by positivity)).mp whole
  rw [magnitude, div_lt_iff₀ (by positivity)]
  calc (m : ℚ) < 10 ^ (digits (m / 10 ^ places)).length * 10 ^ places := by exact_mod_cast below
    _ ≤ 10 ^ (showFixed places q).length * 10 ^ places := by
      gcongr
      norm_num

end Shown

section Extracted
variable {blanks rest : Text}

theorem extract_show_int {n : Int} (all : ∀ b ∈ blanks, isSpace b = true)
    (range : CString.InInt n) (ends : Ends rest) :
    extractInt (.ofText (blanks ++ showInt n ++ rest)) = (some n, .stopped rest false) := by
  obtain ⟨low, high⟩ := range
  have same : (n.natAbs : Int) = if n < 0 then -n else n := by
    split <;> omega
  rcases lt_or_ge n 0 with negative | nonneg
  · have took := take_run (all_digits n.natAbs) ends.not_digit
    have left := drop_run (all_digits n.natAbs) ends.not_digit
    rw [if_pos negative] at same
    rw [CString.show_int_negative negative, extractInt, List.append_assoc, List.cons_append,
      sentry_blanks all (by decide)]
    simp only [splitSign, took, left, digits_ne_nil, ↓reduceIte, value_digits, same, neg_neg,
      clampInt, not_lt.mpr low, not_lt.mpr high]
  · rw [if_neg (not_lt.mpr nonneg)] at same
    rw [CString.show_int_nonneg nonneg, extract_int all (by rwa [same]) ends, same]

theorem extract_show_fixed {places : Nat} (some_places : 0 < places) {q : ℚ}
    (all : ∀ b ∈ blanks, isSpace b = true) (short : (showFixed places q).length ≤ 300)
    (ends : Ends rest) :
    extractDouble (.ofText (blanks ++ showFixed places q ++ rest)) =
      (some (shownFixed places q), .stopped rest false) := by
  obtain ⟨n, printed, text, value⟩ := show_fixed_numeral some_places q
  have finite : |binary64 (shownFixed places q)| ≤ largestDouble := by
    have small : |shownFixed places q| ≤ 10 ^ 300 :=
      (shown_fixed_lt some_places q).le.trans (pow_le_pow_right₀ (by norm_num) short)
    have large : 2 * (10 : ℚ) ^ 300 + 1 ≤ largestDouble := by
      have naturals : 2 * 10 ^ 300 + 1 ≤ (2 ^ 53 - 1) * 2 ^ 971 := by decide +kernel
      have mantissa : ((2 ^ 53 - 1 : Nat) : ℚ) = 2 ^ 53 - 1 := by norm_num
      rw [largestDouble, ← mantissa]
      exact_mod_cast naturals
    calc |binary64 (shownFixed places q)| ≤ 2 * |shownFixed places q| + 1 := binary64_abs_le _
      _ ≤ 2 * 10 ^ 300 + 1 := by gcongr
      _ ≤ largestDouble := large
  rw [text]
  exact extract_numeral all printed value finite ends

end Extracted
end Extraction
