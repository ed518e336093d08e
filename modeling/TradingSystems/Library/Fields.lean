import TradingSystems.Library.Extraction

/- Extractions one after the other. Each skips blanks and then scans a text that begins
   with another character; blanks behind the last field change nothing. -/
namespace Fields
open Decimal Extraction Binary64

/-- What is read, what is left, and whether the extraction fails. -/
structure Scanned (α : Type) where
  value : α
  rest : Text
  fail : Bool

def extracted {α : Type} (scan : Text → Scanned α) (s : IStream) : Option α × IStream :=
  match s.sentry with
  | .error s => (none, s)
  | .ok t => (some (scan t).value, .stopped (scan t).rest (scan t).fail)

def scanWord (t : Text) : Scanned Text :=
  ⟨t.takeWhile fun c => !isSpace c, t.dropWhile fun c => !isSpace c, false⟩

def scanInt (t : Text) : Scanned Int :=
  let (negative, t) := splitSign t
  let ds := t.takeWhile Char.isDigit
  let rest := t.dropWhile Char.isDigit
  if ds = [] then ⟨0, rest, true⟩
  else
    let (n, fail) := clampInt (if negative then -(value ds : Int) else value ds)
    ⟨n, rest, fail⟩

def scanDouble (t : Text) : Scanned ℚ :=
  let (numeral, rest) := scanNumeral t
  match numeral.value with
  | none => ⟨0, rest, true⟩
  | some q =>
    if largestDouble < binary64 q then ⟨largestDouble, rest, true⟩
    else if binary64 q < -largestDouble then ⟨-largestDouble, rest, true⟩
    else ⟨q, rest, false⟩

section Extractions
variable {s : IStream}

theorem extract_word_eq : extractWord = extracted scanWord := by
  funext s
  unfold extractWord extracted
  cases s.sentry <;> rfl

theorem extract_int_eq : extractInt = extracted scanInt := by
  funext s
  unfold extractInt extracted scanInt
  cases s.sentry with
  | error s => rfl
  | ok t =>
    dsimp only
    split <;> rfl

theorem extract_double_eq : extractDouble = extracted scanDouble := by
  funext s
  unfold extractDouble extracted scanDouble
  cases s.sentry with
  | error s => rfl
  | ok t =>
    dsimp only
    cases (scanNumeral t).1.value with
    | none => rfl
    | some q =>
      dsimp only
      split_ifs <;> rfl

end Extractions

/-- What an extraction reads from the front of a text without failing, and what it leaves. -/
def field {α : Type} (extract : IStream → Option α × IStream) (t : Text) : Option (α × Text) :=
  match extract (.ofText t) with
  | (some x, s) => if s.fail then none else some (x, s.rest)
  | (none, _) => none

section Reading
variable {α : Type} {scan : Text → Scanned α} {t : Text}

theorem sentry_text (t : Text) : (IStream.ofText t).sentry =
    if t.dropWhile isSpace = [] then .error ⟨[], true, true⟩ else .ok (t.dropWhile isSpace) := by
  simp only [IStream.sentry, IStream.ofText, IStream.good, Bool.not_false, Bool.and_self,
    ↓reduceIte]
  cases t.dropWhile isSpace <;> simp

theorem field_blank (blank : t.dropWhile isSpace = []) : field (extracted scan) t = none := by
  simp only [field, extracted, sentry_text, if_pos blank]

theorem field_visible (visible : t.dropWhile isSpace ≠ []) : field (extracted scan) t =
    if (scan (t.dropWhile isSpace)).fail then none
    else some ((scan (t.dropWhile isSpace)).value, (scan (t.dropWhile isSpace)).rest) := by
  simp only [field, extracted, sentry_text, if_neg visible, IStream.stopped]

/-- A stream that the extraction in front left without failing is as good as a new one on
    what is left. -/
theorem stopped_none (none : field (extracted scan) t = none) :
    (extracted scan (.stopped t false)).2.fail = true := by
  cases t with
  | nil => rfl
  | cons c t =>
    change (extracted scan (.ofText (c :: t))).2.fail = true
    by_cases blank : (c :: t).dropWhile isSpace = []
    · simp only [extracted, sentry_text, if_pos blank]
    · rw [field_visible blank] at none
      simp only [extracted, sentry_text, if_neg blank, IStream.stopped]
      simpa using none

theorem stopped_some {x : α} {rest : Text} (read : field (extracted scan) t = some (x, rest)) :
    extracted scan (.stopped t false) = (some x, .stopped rest false) := by
  by_cases blank : t.dropWhile isSpace = []
  · rw [field_blank blank] at read
    cases read
  · rw [field_visible blank] at read
    split_ifs at read with fine
    cases read
    cases t with
    | nil => exact absurd rfl blank
    | cons c t =>
      change extracted scan (.ofText (c :: t)) = _
      simp only [extracted, sentry_text, if_neg blank]
      simp only [Bool.not_eq_true] at fine
      rw [fine]

end Reading

section Padding
variable {t blanks : Text}

def Blank (blanks : Text) : Prop := ∀ b ∈ blanks, isSpace b = true

def Stops {α : Type} (scan : Text → Scanned α) : Prop :=
  ∀ t blanks, Blank blanks →
    scan (t ++ blanks) = ⟨(scan t).value, (scan t).rest ++ blanks, (scan t).fail⟩

theorem blank_of_all (all : blanks.all isSpace = true) : Blank blanks := List.all_eq_true.mp all

theorem take_padded {p : Char → Bool} (blank : Blank blanks)
    (stop : ∀ c, isSpace c = true → p c = false) : (t ++ blanks).takeWhile p = t.takeWhile p := by
  rw [List.takeWhile_append]
  split_ifs with all
  · have none : blanks.takeWhile p = [] := by
      cases blanks with
      | nil => rfl
      | cons b blanks => simp [stop b (blank b (by simp))]
    rw [none, List.append_nil]
    exact ((List.takeWhile_prefix p).eq_of_length all).symm
  · rfl

theorem drop_padded {p : Char → Bool} (blank : Blank blanks)
    (stop : ∀ c, isSpace c = true → p c = false) :
    (t ++ blanks).dropWhile p = t.dropWhile p ++ blanks := by
  rw [List.dropWhile_append]
  split_ifs with all
  · have kept : blanks.dropWhile p = blanks := by
      cases blanks with
      | nil => rfl
      | cons b blanks => simp [stop b (blank b (by simp))]
    rw [kept, List.isEmpty_iff.mp all]
    rfl
  · rfl

theorem drop_blanks (blank : Blank blanks) : (t ++ blanks).dropWhile isSpace =
    if t.dropWhile isSpace = [] then [] else t.dropWhile isSpace ++ blanks := by
  have all : blanks.dropWhile isSpace = [] := List.dropWhile_eq_nil_iff.mpr blank
  rw [List.dropWhile_append, all]
  simp only [List.isEmpty_iff]

theorem split_sign_other {c : Char} (minus : c ≠ '-') (plus : c ≠ '+') :
    splitSign (c :: t) = (false, c :: t) := by
  rw [splitSign]
  · rintro u ⟨rfl, -⟩
    exact minus rfl
  · rintro u ⟨rfl, -⟩
    exact plus rfl

theorem space_ne {c d : Char} (space : isSpace c = true) (visible : isSpace d = false) : c ≠ d := by
  rintro rfl
  rw [space] at visible
  cases visible

theorem digit_stops (c : Char) (space : isSpace c = true) : c.isDigit = false := by
  by_contra digit
  rw [digit_not_space (by simpa using digit)] at space
  cases space

theorem split_sign_padded (blank : Blank blanks) :
    splitSign (t ++ blanks) = ((splitSign t).1, (splitSign t).2 ++ blanks) := by
  cases t with
  | nil =>
    cases blanks with
    | nil => rfl
    | cons b blanks =>
      have space := blank b (by simp)
      exact split_sign_other (space_ne space rfl) (space_ne space rfl)
  | cons c t =>
    by_cases minus : c = '-'
    · rw [minus]
      rfl
    by_cases plus : c = '+'
    · rw [plus]
      rfl
    rw [List.cons_append, split_sign_other minus plus, split_sign_other minus plus]
    rfl

def scanFraction : Text → Text × Text
  | '.' :: t => (t.takeWhile Char.isDigit, t.dropWhile Char.isDigit)
  | t => ([], t)

def scanExponent (negative : Bool) (whole frac : Text) : Text → Numeral × Text
  | c :: t =>
    if (c = 'e' ∨ c = 'E') ∧ whole ++ frac ≠ [] then
      (⟨negative, whole, frac, some ((splitSign t).1, (splitSign t).2.takeWhile Char.isDigit)⟩,
        (splitSign t).2.dropWhile Char.isDigit)
    else (⟨negative, whole, frac, none⟩, c :: t)
  | [] => (⟨negative, whole, frac, none⟩, [])

theorem scan_numeral_eq (t : Text) : scanNumeral t =
    scanExponent (splitSign t).1 ((splitSign t).2.takeWhile Char.isDigit)
      (scanFraction ((splitSign t).2.dropWhile Char.isDigit)).1
      (scanFraction ((splitSign t).2.dropWhile Char.isDigit)).2 := by
  simp only [scanNumeral]
  generalize (splitSign t).2.dropWhile Char.isDigit = behind
  cases behind with
  | nil => rfl
  | cons c behind =>
    by_cases point : c = '.'
    · subst point
      simp only [scanFraction]
      cases behind.dropWhile Char.isDigit <;> rfl
    · simp [scanFraction, scanExponent, point]

theorem scan_fraction_padded (blank : Blank blanks) :
    scanFraction (t ++ blanks) = ((scanFraction t).1, (scanFraction t).2 ++ blanks) := by
  cases t with
  | nil =>
    cases blanks with
    | nil => rfl
    | cons b blanks =>
      have point : b ≠ '.' := space_ne (blank b (by simp)) rfl
      simp [scanFraction, point]
  | cons c t =>
    by_cases point : c = '.'
    · subst point
      simp only [List.cons_append, scanFraction, take_padded blank digit_stops,
        drop_padded blank digit_stops]
    · simp [scanFraction, point]

theorem scan_exponent_padded (blank : Blank blanks) (negative : Bool) (whole frac : Text) :
    scanExponent negative whole frac (t ++ blanks) =
      ((scanExponent negative whole frac t).1,
        (scanExponent negative whole frac t).2 ++ blanks) := by
  cases t with
  | nil =>
    cases blanks with
    | nil => rfl
    | cons b blanks =>
      have space := blank b (by simp)
      have lower : b ≠ 'e' := space_ne space rfl
      have upper : b ≠ 'E' := space_ne space rfl
      simp [scanExponent, lower, upper]
  | cons c t =>
    simp only [List.cons_append, scanExponent, split_sign_padded blank,
      take_padded blank digit_stops, drop_padded blank digit_stops]
    split_ifs <;> rfl

theorem scan_numeral_padded (blank : Blank blanks) :
    scanNumeral (t ++ blanks) = ((scanNumeral t).1, (scanNumeral t).2 ++ blanks) := by
  simp only [scan_numeral_eq, split_sign_padded blank, take_padded blank digit_stops,
    drop_padded blank digit_stops, scan_fraction_padded blank, scan_exponent_padded blank]

theorem word_stops : Stops scanWord := by
  intro t blanks blank
  have stop : ∀ c, isSpace c = true → (!isSpace c) = false := fun c space => by simp [space]
  simp only [scanWord, take_padded blank stop, drop_padded blank stop]

theorem int_stops : Stops scanInt := by
  intro t blanks blank
  simp only [scanInt, split_sign_padded blank, take_padded blank digit_stops,
    drop_padded blank digit_stops]
  split_ifs <;> rfl

theorem double_stops : Stops scanDouble := by
  intro t blanks blank
  simp only [scanDouble, scan_numeral_padded blank]
  cases (scanNumeral t).1.value with
  | none => rfl
  | some q =>
    dsimp only
    split_ifs <;> rfl

/-- Trailing blanks are left where the field is read, and there is no field else. -/
theorem field_padded {α : Type} {scan : Text → Scanned α} (stops : Stops scan)
    (blank : Blank blanks) (t : Text) : field (extracted scan) (t ++ blanks) =
      (field (extracted scan) t).map fun (x, rest) => (x, rest ++ blanks) := by
  by_cases none : t.dropWhile isSpace = []
  · have all : (t ++ blanks).dropWhile isSpace = [] := by
      rw [drop_blanks blank, if_pos none]
    rw [field_blank all, field_blank none]
    rfl
  · have some : (t ++ blanks).dropWhile isSpace = t.dropWhile isSpace ++ blanks := by
      rw [drop_blanks blank, if_neg none]
    have visible : (t ++ blanks).dropWhile isSpace ≠ [] := by
      rw [some]
      exact List.append_ne_nil_of_left_ne_nil none _
    rw [field_visible visible, field_visible none, some, stops _ _ blank]
    split_ifs <;> rfl

end Padding
end Fields
