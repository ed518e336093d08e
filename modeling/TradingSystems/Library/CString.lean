import TradingSystems.Library.Binary32
import TradingSystems.Library.Extraction
import TradingSystems.Library.Formats

/- Numbers at the front of a text, as the C library and the conversions of std::string
   read them. What follows the number is ignored. -/
namespace CString
open Decimal Formats Extraction Binary32

def nul : Char := Char.ofNat 0

def cString (bytes : Text) : Text := bytes.takeWhile fun c => c ≠ nul

def readInt (t : Text) : Option Int :=
  let (negative, t) := splitSign (t.dropWhile isSpace)
  let ds := t.takeWhile Char.isDigit
  if ds = [] then none else some (if negative then -(value ds : Int) else value ds)

def InInt (n : Int) : Prop := intMin ≤ n ∧ n ≤ intMax

instance (n : Int) : Decidable (InInt n) := inferInstanceAs (Decidable (_ ∧ _))

/-- Zero without a digit; `none` out of range, where the result is undefined. -/
def atoi (t : Text) : Option Int :=
  let n := (readInt t).getD 0
  if InInt n then some n else none

inductive Thrown where
  | invalidArgument
  | outOfRange
  deriving DecidableEq, Repr

def stoi (t : Text) : Except Thrown Int :=
  match readInt t with
  | none => .error .invalidArgument
  | some n => if InInt n then .ok n else .error .outOfRange

def substr (t : Text) (pos : Nat) : Except Thrown Text :=
  if pos ≤ t.length then .ok (t.drop pos) else .error .outOfRange

/-- The decimal number at the front; an exponent without a digit is not part of it. -/
def readDecimal (t : Text) : Option ℚ :=
  let (numeral, _) := scanNumeral (t.dropWhile isSpace)
  match numeral.exponent with
  | some (_, []) => { numeral with exponent := none }.value
  | _ => numeral.value

def isHexDigit (c : Char) : Bool := c.isDigit || ('a' ≤ c.toLower && c.toLower ≤ 'f')

def hexValue (ds : Text) : Nat :=
  ds.foldl (fun n c => 16 * n + if c.isDigit then c.toNat - 48 else c.toLower.toNat - 87) 0

def scanPower : Text → ℚ × Text
  | c :: t =>
    let (down, ds) := splitSign t
    let power := ds.takeWhile Char.isDigit
    if c.toLower = 'p' ∧ power ≠ [] then
      (if down then (2 ^ value power)⁻¹ else 2 ^ value power, ds.dropWhile Char.isDigit)
    else (1, c :: t)
  | [] => (1, [])

def scanHex (t : Text) : Option (ℚ × Text) :=
  let whole := t.takeWhile isHexDigit
  let (frac, t) := match t.dropWhile isHexDigit with
    | '.' :: t => (t.takeWhile isHexDigit, t.dropWhile isHexDigit)
    | t => ([], t)
  let (power, t) := scanPower t
  if whole ++ frac = [] then none
  else some (hexValue (whole ++ frac) / 16 ^ frac.length * power, t)

/-- What strtof has read before it rounds. The sign is kept for a zero. -/
inductive FloatText where
  | number (negative : Bool) (q : ℚ)
  | infinity (negative : Bool)
  | nan

def behindWord (word t : Text) : Option Text :=
  if (t.take word.length).map Char.toLower = word then some (t.drop word.length) else none

/-- Letters and digits in parentheses belong to the word nan in front of them. -/
def behindPayload : Text → Text
  | '(' :: t =>
    match t.dropWhile fun c => c.isAlphanum || c = '_' with
    | ')' :: rest => rest
    | _ => '(' :: t
  | t => t

def scanSpecial (t : Text) : Option (FloatText × Text) :=
  match splitSign t with
  | (negative, '0' :: x :: t) =>
    if x.toLower = 'x' then
      (scanHex t).map fun (q, t) => (.number negative (if negative then -q else q), t)
    else none
  | (negative, t) =>
    match behindWord "infinity".toList t <|> behindWord "inf".toList t with
    | some t => some (.infinity negative, t)
    | none => (behindWord "nan".toList t).map fun t => (.nan, behindPayload t)

def readFloat (t : Text) : Option FloatText :=
  let t := t.dropWhile isSpace
  match scanSpecial t with
  | some (read, _) => some read
  | none => (readDecimal t).map fun q => .number (splitSign t).1 q

/-- Out of range is what overflows, and what is below the normal numbers once it is rounded
    and would have to be rounded again. -/
def stof (t : Text) : Except Thrown Number :=
  match readFloat t with
  | none => .error .invalidArgument
  | some (.number negative q) =>
    if q = 0 then .ok (if negative then .negativeZero else .finite 0)
    else if largestFloat < |binary32 q| ∨ (|binary32 q| < smallestFloat ∧ gradual q ≠ q) then
      .error .outOfRange
    else .ok (gradual q)
  | some (.infinity negative) => .ok (.infinity negative)
  | some .nan => .ok .nan

def WholeNumber (t : Text) : Prop :=
  match scanSpecial t with
  | some (_, rest) => rest = []
  | none => (scanNumeral t).2 = [] ∧ (scanNumeral t).1.value ≠ none

theorem bind_ok {Error α β : Type} {first : Except Error α} {next : α → Except Error β} {b : β}
    (done : first >>= next = .ok b) : ∃ a, first = .ok a ∧ next a = .ok b := by
  cases first with
  | error e => cases done
  | ok a => exact ⟨a, rfl, done⟩

theorem cString_length_le (t : Text) : (cString t).length ≤ t.length :=
  (List.takeWhile_prefix _).length_le

theorem cString_whole {t : Text} : cString t = t ↔ nul ∉ t := by
  simp only [cString, List.takeWhile_eq_self_iff, decide_eq_true_eq]
  constructor
  · intro none member
    exact none nul member rfl
  · intro absent c member same
    exact absent (same ▸ member)

section Integers
variable {n : Int} {t x y : Text}

theorem value_singleton (d : Char) : value [d] = d.toNat - 48 := by
  simp only [value, Nat.ofDigitChars_cons, Nat.ofDigitChars_nil]
  change 10 * 0 + (d.toNat - 48) = d.toNat - 48
  omega

theorem value_lt (ds : Text) (all : AllDigits ds) : value ds < 10 ^ ds.length := by
  induction ds with
  | nil => simp
  | cons d ds ih =>
    have fewer := ih fun c member => all c (List.mem_cons_of_mem d member)
    obtain ⟨low, high⟩ := digit_range.mp (all d (by simp))
    have first : value [d] ≤ 9 := by
      rw [value_singleton]
      omega
    have scaled := Nat.mul_le_mul_right (10 ^ ds.length) first
    rw [← List.singleton_append, value_append, List.length_append, pow_add]
    simp only [List.length_singleton, pow_one]
    omega

theorem split_sign_length (t : Text) :
    (splitSign t).2.length + (if (splitSign t).1 then 1 else 0) ≤ t.length := by
  unfold splitSign
  split <;> simp

theorem read_int_length (read : readInt t = some n) : (showInt n).length ≤ t.length := by
  unfold readInt at read
  have signed := split_sign_length (t.dropWhile isSpace)
  have shorter := (List.dropWhile_suffix (p := isSpace) (l := t)).length_le
  generalize splitSign (t.dropWhile isSpace) = parts at read signed
  obtain ⟨negative, u⟩ := parts
  have inside := (List.takeWhile_prefix (p := Char.isDigit) (l := u)).length_le
  have small := value_lt (u.takeWhile Char.isDigit) fun c member => List.mem_takeWhile_imp member
  simp only at read signed
  split at read
  · cases read
  · rename_i some_digit
    have fits := digits_length_le (List.length_pos_of_ne_nil some_digit) small
    cases read
    cases negative with
    | false =>
      have sign : ¬ (value (u.takeWhile Char.isDigit) : Int) < 0 := by omega
      simp only [showInt, Bool.false_eq_true, ↓reduceIte, sign, Int.natAbs_natCast,
        List.nil_append] at signed ⊢
      omega
    | true =>
      simp only [showInt, ↓reduceIte, Int.natAbs_neg, Int.natAbs_natCast, List.length_append]
        at signed ⊢
      split <;> simp only [List.length_singleton, List.length_nil] <;> omega

theorem read_int_digits {ds rest : Text} (some_digit : ds ≠ []) (all : AllDigits ds)
    (stop : ∀ c ∈ rest.head?, c.isDigit = false) :
    readInt (ds ++ rest) = some (value ds : Int) := by
  have took := take_run all stop
  have unsigned : splitSign (ds ++ rest) = (false, ds ++ rest) := split_sign_digits some_digit all
  have unblanked : (ds ++ rest).dropWhile isSpace = ds ++ rest :=
    drop_spaces_digits some_digit all
  simp [readInt, unblanked, unsigned, took, some_digit]

theorem read_int_all_digits {ds : Text} (some_digit : ds ≠ []) (all : AllDigits ds) :
    readInt ds = some (value ds : Int) := by
  have ends : ∀ c ∈ ([] : Text).head?, c.isDigit = false := by simp
  have read := read_int_digits some_digit all ends
  rwa [List.append_nil] at read

theorem show_int_nonneg (nonneg : 0 ≤ n) : showInt n = digits n.natAbs := by
  simp [showInt, not_lt.mpr nonneg]

theorem show_int_negative (negative : n < 0) : showInt n = '-' :: digits n.natAbs := by
  simp [showInt, negative]

theorem show_int_length_le {k : Nat} (nonneg : 0 ≤ n) (positive : 0 < k) :
    (showInt n).length ≤ k ↔ n < 10 ^ k := by
  obtain ⟨m, rfl⟩ := Int.eq_ofNat_of_zero_le nonneg
  rw [show_int_nonneg nonneg, Int.natAbs_natCast, digits,
    Nat.length_toDigits_le_iff (by decide) positive]
  exact_mod_cast Iff.rfl

theorem show_int_chars : ∀ c ∈ showInt n, c = '-' ∨ c.isDigit = true := by
  intro c member
  rcases lt_or_ge n 0 with negative | nonneg
  · rw [show_int_negative negative] at member
    rcases List.mem_cons.mp member with sign | digit
    · exact Or.inl sign
    · exact Or.inr (all_digits _ c digit)
  · rw [show_int_nonneg nonneg] at member
    exact Or.inr (all_digits _ c member)

theorem read_show_int (n : Int) : readInt (showInt n) = some n := by
  rcases lt_or_ge n 0 with negative | nonneg
  · have all := all_digits n.natAbs
    have took := List.takeWhile_eq_self_iff.mpr all
    have unblanked : ('-' :: digits n.natAbs).dropWhile isSpace = '-' :: digits n.natAbs := by
      rw [List.dropWhile_cons_of_neg (by decide)]
    rw [show_int_negative negative]
    simp only [readInt, unblanked, splitSign, took, digits_ne_nil, ↓reduceIte, value_digits]
    exact congrArg some (by omega)
  · have read := read_int_all_digits (digits_ne_nil n.natAbs) (all_digits n.natAbs)
    rw [value_digits] at read
    rw [show_int_nonneg nonneg, read]
    exact congrArg some (by omega)

theorem value_zero_iff {ds : Text} (all : AllDigits ds) :
    value ds = 0 ↔ ∀ c ∈ ds, c = '0' := by
  induction ds with
  | nil => simp
  | cons d ds ih =>
    obtain ⟨low, high⟩ := digit_range.mp (all d (by simp))
    have zero : value [d] = 0 ↔ d = '0' := by
      rw [value_singleton]
      constructor
      · intro nothing
        apply Char.toNat_inj.mp
        change d.toNat = 48
        omega
      · intro same
        rw [same]
        rfl
    rw [← List.singleton_append, value_append, Nat.add_eq_zero_iff, Nat.mul_eq_zero, zero,
      ih fun c member => all c (List.mem_cons_of_mem d member)]
    simp

/-- Digits in front of a printed number leave it as it is only when they are zeros and
    no sign follows. -/
theorem read_behind_digits {ds : Text} (some_digit : ds ≠ []) (all : AllDigits ds) :
    readInt (ds ++ showInt n) = some n ↔ (∀ c ∈ ds, c = '0') ∧ 0 ≤ n := by
  rcases lt_or_ge n 0 with negative | nonneg
  · have stop : ∀ c ∈ (showInt n).head?, c.isDigit = false := by
      rw [show_int_negative negative]
      simp
    have read := read_int_digits some_digit all stop
    rw [read, Option.some.injEq]
    constructor
    · intro same
      omega
    · intro zeros
      omega
  · have some_more : ds ++ digits n.natAbs ≠ [] := by simp [digits_ne_nil]
    have read := read_int_all_digits some_more (all.append (all_digits n.natAbs))
    rw [value_append, value_digits] at read
    rw [show_int_nonneg nonneg, read, Option.some.injEq, ← value_zero_iff all]
    have positive : 0 < 10 ^ (digits n.natAbs).length := by positivity
    constructor
    · intro same
      have nothing : value ds * 10 ^ (digits n.natAbs).length = 0 := by omega
      exact ⟨(Nat.mul_eq_zero.mp nothing).resolve_right positive.ne', nonneg⟩
    · intro zeros
      rw [zeros.1]
      omega

theorem read_int_point (t : Text) : readInt ('.' :: t) = none := by
  have unblanked : ('.' :: t).dropWhile isSpace = '.' :: t :=
    List.dropWhile_cons_of_neg (by decide)
  have unsigned : splitSign ('.' :: t) = (false, '.' :: t) := rfl
  have stop : ('.' :: t).takeWhile Char.isDigit = [] := List.takeWhile_cons_of_neg (by decide)
  simp only [readInt, unblanked, unsigned, stop, ↓reduceIte]

theorem stoi_ok : stoi t = .ok n ↔ readInt t = some n ∧ InInt n := by
  unfold stoi
  cases readInt t with
  | none => simp
  | some m =>
    dsimp only
    split
    · rename_i range
      constructor
      · intro same
        cases same
        exact ⟨rfl, range⟩
      · intro same
        cases same.1
        rfl
    · rename_i range
      constructor
      · intro same
        cases same
      · intro same
        cases same.1
        exact absurd same.2 range

theorem atoi_show (range : InInt n) : atoi (showInt n) = some n := by
  simp [atoi, read_show_int, range]

theorem atoi_length (some_char : t ≠ []) (read : atoi t = some n) :
    (showInt n).length ≤ t.length := by
  unfold atoi at read
  dsimp only at read
  split at read
  · cases found : readInt t with
    | none =>
      rw [found] at read
      cases read
      exact List.length_pos_of_ne_nil some_char
    | some m =>
      rw [found] at read
      cases read
      exact read_int_length found
  · cases read

end Integers

section Decimals
variable {whole frac : Text}

theorem read_decimal_digits (some_digit : whole ≠ []) (all : AllDigits whole) :
    readDecimal whole = some (value whole : ℚ) := by
  have unblanked : (whole ++ []).dropWhile isSpace = whole ++ [] :=
    drop_spaces_digits some_digit all
  have unsigned : splitSign (whole ++ []) = (false, whole ++ []) :=
    split_sign_digits some_digit all
  have took := List.takeWhile_eq_self_iff.mpr all
  have left := List.dropWhile_eq_nil_iff.mpr all
  rw [List.append_nil] at unblanked unsigned
  simp [readDecimal, unblanked, scanNumeral, unsigned, took, left, Numeral.value, some_digit]

theorem read_decimal_fixed (some_digit : whole ≠ []) (all : AllDigits whole)
    (behind : AllDigits frac) :
    readDecimal (whole ++ '.' :: frac) = some (value whole + fraction frac) := by
  have unblanked : (whole ++ '.' :: frac).dropWhile isSpace = whole ++ '.' :: frac :=
    drop_spaces_digits some_digit all
  have ends : Ends [] := by simp [Ends]
  have scanned := scan_fixed some_digit all behind ends
  rw [List.append_nil] at scanned
  simp [readDecimal, unblanked, scanned, Numeral.value, some_digit]

theorem digit_lower {c : Char} (digit : c.isDigit = true) : c.toLower = c := by
  obtain ⟨low, high⟩ := digit_range.mp digit
  unfold Char.toLower
  rw [dif_neg]
  rintro ⟨above, below⟩
  have letter : 65 ≤ c.toNat := by simpa [UInt32.le_iff_toNat_le] using above
  omega

theorem behind_word_digit {word : Text} {d w : Char} {t : Text} (digit : d.isDigit = true)
    (other : w.isDigit = false) : behindWord (w :: word) (d :: t) = none := by
  unfold behindWord
  rw [if_neg]
  intro same
  simp only [List.length_cons, List.take_succ_cons, List.map_cons, List.cons.injEq] at same
  rw [← same.1, digit_lower digit, digit] at other
  cases other

/-- Digits begin a decimal number, unless they are a zero in front of an x. -/
theorem scan_special_digits {ds rest : Text} (some_digit : ds ≠ []) (all : AllDigits ds)
    (stop : ∀ c ∈ rest.head?, c.toLower ≠ 'x') : scanSpecial (ds ++ rest) = none := by
  have unsigned : splitSign (ds ++ rest) = (false, ds ++ rest) := split_sign_digits some_digit all
  have second : ∀ d es, ds = d :: es → ∀ c ∈ (es ++ rest).head?, c.toLower ≠ 'x' := by
    intro d es shape c head
    cases es with
    | nil => exact stop c head
    | cons e es =>
      cases head
      have digit := all c (by simp [shape])
      rw [digit_lower digit]
      rintro rfl
      cases digit
  obtain ⟨d, es, shape⟩ := List.exists_cons_of_ne_nil some_digit
  have digit := all d (by simp [shape])
  have follows := second d es shape
  rw [shape, List.cons_append] at unsigned ⊢
  have infinity : behindWord "infinity".toList (d :: (es ++ rest)) = none :=
    behind_word_digit digit rfl
  have inf : behindWord "inf".toList (d :: (es ++ rest)) = none := behind_word_digit digit rfl
  have nan : behindWord "nan".toList (d :: (es ++ rest)) = none := behind_word_digit digit rfl
  unfold scanSpecial
  rw [unsigned]
  split
  · rename_i same
    simp only [Prod.mk.injEq, List.cons.injEq] at same
    rw [if_neg]
    exact follows _ (by simp [same.2.2])
  · rename_i same
    cases same
    rw [infinity, inf, nan]
    rfl

theorem read_float_decimal {ds rest : Text} {q : ℚ} (some_digit : ds ≠ []) (all : AllDigits ds)
    (stop : ∀ c ∈ rest.head?, c.toLower ≠ 'x') (read : readDecimal (ds ++ rest) = some q) :
    readFloat (ds ++ rest) = some (.number false q) := by
  have unblanked : (ds ++ rest).dropWhile isSpace = ds ++ rest :=
    drop_spaces_digits some_digit all
  have unsigned : splitSign (ds ++ rest) = (false, ds ++ rest) := split_sign_digits some_digit all
  have plain := scan_special_digits some_digit all stop
  simp only [readFloat, unblanked, plain, read, unsigned, Option.map_some]

theorem stof_ok {t : Text} {q : ℚ} (read : readFloat t = some (.number false q)) (low : 1 ≤ q)
    (high : q < 2 ^ 24) : stof t = .ok (binary32 q) := by
  have positive : 0 < q := by linarith
  have bounds : ((1 : Int) : ℚ) ≤ binary32 q ∧ binary32 q ≤ ((2 ^ 24 : Int) : ℚ) :=
    binary32_between positive high (by exact_mod_cast low) (by exact_mod_cast high.le)
  push_cast at bounds
  obtain ⟨above, below⟩ := bounds
  have size : |binary32 q| = binary32 q := abs_of_nonneg (by linarith)
  have normal : ¬ |binary32 q| < smallestFloat := by
    rw [size, smallestFloat]
    norm_num
    linarith
  have finite : ¬ largestFloat < |binary32 q| := by
    rw [size, largestFloat]
    norm_num
    linarith
  have same : gradual q = binary32 q := by
    refine gradual_normal positive.ne' ?_
    rw [abs_of_pos positive]
    exact le_trans (zpow_le_one_of_nonpos₀ (by norm_num) (by norm_num)) low
  simp [stof, read, normal, finite, same, positive.ne']

theorem stof_digits (some_digit : whole ≠ []) (all : AllDigits whole)
    (small : value whole < 2 ^ 24) : stof whole = .ok (value whole : ℚ) := by
  have decimal := read_decimal_digits some_digit all
  rw [← List.append_nil whole] at decimal
  have read := read_float_decimal some_digit all (by simp) decimal
  rw [List.append_nil] at read
  have integral : binary32 (value whole : ℚ) = value whole := by
    have range : |(value whole : Int)| < 2 ^ 24 := by
      rw [abs_of_nonneg (by omega)]
      exact_mod_cast small
    exact_mod_cast binary32_int range
  rcases Nat.eq_zero_or_pos (value whole) with zero | positive
  · rw [zero] at read ⊢
    simp [stof, read]
  · rw [stof_ok read (by exact_mod_cast positive) (by exact_mod_cast small), integral]

-- what a C library reads beside decimal numbers: the least float is exact, its half is not
example : stof "0x10".toList = .ok (16 : ℚ) ∧ stof "-Infinity".toList = .ok (.infinity true) ∧
    stof "nan(1)".toList = .ok .nan ∧ stof "0x".toList = .ok (0 : ℚ) ∧
    stof "0x1p-149".toList = .ok (.finite (1 / 2 ^ 149)) ∧
    stof "0x1p-150".toList = .error .outOfRange := by
  decide +kernel

end Decimals
end CString
