import TradingSystems.Library.Binary64

/- Formatted extraction from a string stream: words, integers and floating-point
   numbers, with the end-of-file and failure flags. A variable that an extraction
   does not reach keeps its value, which is `none` here. Floating-point values are
   left unrounded, and one whose double would be beyond the largest fails. -/
namespace Extraction
open Decimal Binary64

structure IStream where
  rest : Text
  eof : Bool
  fail : Bool
  deriving DecidableEq, Repr

def IStream.ofText (t : Text) : IStream := ⟨t, false, false⟩

def IStream.good (s : IStream) : Bool := !s.eof && !s.fail

def isSpace (c : Char) : Bool := c = ' ' || (9 ≤ c.toNat && c.toNat ≤ 13)

/-- The stream behind the leading blanks, or the reason why there is nothing to read. -/
def IStream.sentry (s : IStream) : Except IStream Text :=
  if s.good then
    match s.rest.dropWhile isSpace with
    | [] => .error ⟨[], true, true⟩
    | c :: cs => .ok (c :: cs)
  else .error { s with fail := true }

def IStream.stopped (rest : Text) (fail : Bool) : IStream := ⟨rest, rest.isEmpty, fail⟩

def extractWord (s : IStream) : Option Text × IStream :=
  match s.sentry with
  | .error s => (none, s)
  | .ok t =>
    (some (t.takeWhile fun c => !isSpace c),
      .stopped (t.dropWhile fun c => !isSpace c) false)

def splitSign : Text → Bool × Text
  | '-' :: t => (true, t)
  | '+' :: t => (false, t)
  | t => (false, t)

def intMin : Int := -2 ^ 31
def intMax : Int := 2 ^ 31 - 1

/-- An `int` out of range becomes the nearest one and fails. -/
def clampInt (n : Int) : Int × Bool :=
  if n < intMin then (intMin, true) else if intMax < n then (intMax, true) else (n, false)

def extractInt (s : IStream) : Option Int × IStream :=
  match s.sentry with
  | .error s => (none, s)
  | .ok t =>
    let (negative, t) := splitSign t
    let ds := t.takeWhile Char.isDigit
    let rest := t.dropWhile Char.isDigit
    if ds = [] then (some 0, .stopped rest true)
    else
      let n : Int := value ds
      let (n, fail) := clampInt (if negative then -n else n)
      (some n, .stopped rest fail)

/-- The parts of a floating-point numeral; an exponent has a sign and digits. -/
structure Numeral where
  negative : Bool
  whole : Text
  frac : Text
  exponent : Option (Bool × Text)

def scanNumeral (t : Text) : Numeral × Text :=
  let (negative, t) := splitSign t
  let whole := t.takeWhile Char.isDigit
  let t := t.dropWhile Char.isDigit
  let (frac, t) := match t with
    | '.' :: t => (t.takeWhile Char.isDigit, t.dropWhile Char.isDigit)
    | t => ([], t)
  match t with
  | c :: t' =>
    if (c = 'e' ∨ c = 'E') ∧ whole ++ frac ≠ [] then
      let (down, t') := splitSign t'
      (⟨negative, whole, frac, some (down, t'.takeWhile Char.isDigit)⟩, t'.dropWhile Char.isDigit)
    else (⟨negative, whole, frac, none⟩, t)
  | [] => (⟨negative, whole, frac, none⟩, [])

/-- `none` without a digit in front of the exponent or without one in it. -/
def Numeral.value (n : Numeral) : Option ℚ :=
  let mantissa := (if n.negative then -1 else 1) * (Decimal.value n.whole + fraction n.frac)
  if n.whole ++ n.frac = [] then none
  else match n.exponent with
    | none => some mantissa
    | some (_, []) => none
    | some (true, ds) => some (mantissa / 10 ^ Decimal.value ds)
    | some (false, ds) => some (mantissa * 10 ^ Decimal.value ds)

def largestDouble : ℚ := (2 ^ 53 - 1) * 2 ^ 971

def extractDouble (s : IStream) : Option ℚ × IStream :=
  match s.sentry with
  | .error s => (none, s)
  | .ok t =>
    let (numeral, rest) := scanNumeral t
    match numeral.value with
    | none => (some 0, .stopped rest true)
    | some q =>
      if largestDouble < binary64 q then (some largestDouble, .stopped rest true)
      else if binary64 q < -largestDouble then (some (-largestDouble), .stopped rest true)
      else (some q, .stopped rest false)

section Runs
variable {p : Char → Bool} {run rest run' rest' : Text}

theorem take_run (all : ∀ c ∈ run, p c = true) (stop : ∀ c ∈ rest.head?, p c = false) :
    (run ++ rest).takeWhile p = run := by
  rw [List.takeWhile_append_of_pos all]
  cases rest with
  | nil => simp
  | cons c cs => simp [stop c rfl]

theorem drop_run (all : ∀ c ∈ run, p c = true) (stop : ∀ c ∈ rest.head?, p c = false) :
    (run ++ rest).dropWhile p = rest := by
  rw [List.dropWhile_append_of_pos all]
  cases rest with
  | nil => simp
  | cons c cs => simp [stop c rfl]

theorem run_in_front (p : Char → Bool) (t : Text) : ∃ run rest, t = run ++ rest ∧
    (∀ c ∈ run, p c = true) ∧ ∀ c ∈ rest.head?, p c = false := by
  refine ⟨t.takeWhile p, t.dropWhile p, List.takeWhile_append_dropWhile.symm,
    fun c member => List.mem_takeWhile_imp member, fun c head => ?_⟩
  have stopped := List.head?_dropWhile_not p t
  rw [head] at stopped
  simpa using stopped

theorem run_unique (same : run ++ rest = run' ++ rest') (all : ∀ c ∈ run, p c = true)
    (stop : ∀ c ∈ rest.head?, p c = false) (all' : ∀ c ∈ run', p c = true)
    (stop' : ∀ c ∈ rest'.head?, p c = false) : run = run' ∧ rest = rest' := by
  have taken := congrArg (List.takeWhile p) same
  have left := congrArg (List.dropWhile p) same
  rw [take_run all stop, take_run all' stop'] at taken
  rw [drop_run all stop, drop_run all' stop'] at left
  exact ⟨taken, left⟩

theorem run_longest (front : run' <+: run ++ rest) (all' : ∀ c ∈ run', p c = true)
    (stop : ∀ c ∈ rest.head?, p c = false) : run'.length ≤ run.length := by
  induction run generalizing run' with
  | nil =>
    cases run' with
    | nil => exact le_rfl
    | cons c run' =>
      obtain ⟨more, split⟩ := front
      have other := stop c (by rw [← List.nil_append rest, ← split]; rfl)
      rw [all' c (by simp)] at other
      cases other
  | cons d run ih =>
    cases run' with
    | nil => exact Nat.zero_le _
    | cons c run' =>
      have inner : run' <+: run ++ rest := (List.cons_prefix_cons.mp front).2
      exact Nat.succ_le_succ (ih inner fun e member => all' e (List.mem_cons_of_mem c member))

end Runs

theorem digit_range {c : Char} : c.isDigit = true ↔ 48 ≤ c.toNat ∧ c.toNat ≤ 57 := by
  simp only [Char.isDigit, ge_iff_le, Bool.and_eq_true, decide_eq_true_eq, UInt32.le_iff_toNat_le]
  rfl

theorem digit_not_space {c : Char} (digit : c.isDigit = true) : isSpace c = false := by
  obtain ⟨low, high⟩ := digit_range.mp digit
  have blank : c ≠ ' ' := by
    rintro rfl
    exact absurd low (by decide)
  simp only [isSpace, blank, decide_false, Bool.false_or, Bool.and_eq_false_iff,
    decide_eq_false_iff_not]
  omega

theorem split_sign_digits {ds rest : Text} (some_digit : ds ≠ []) (all : AllDigits ds) :
    splitSign (ds ++ rest) = (false, ds ++ rest) := by
  obtain ⟨d, ds, rfl⟩ := List.exists_cons_of_ne_nil some_digit
  have digit := all d (by simp)
  rw [List.cons_append, splitSign]
  · rintro t ⟨rfl, -⟩
    cases digit
  · rintro t ⟨rfl, -⟩
    cases digit

theorem drop_spaces_digits {ds rest : Text} (some_digit : ds ≠ []) (all : AllDigits ds) :
    (ds ++ rest).dropWhile isSpace = ds ++ rest := by
  obtain ⟨d, es, split⟩ := List.exists_cons_of_ne_nil some_digit
  subst split
  have visible := digit_not_space (all d (by simp))
  simp [visible]

section Failing
variable {s : IStream}

theorem sentry_failed (failed : s.fail = true) : s.sentry = .error s := by
  obtain ⟨rest, eof, fail⟩ := s
  cases failed
  simp [IStream.sentry, IStream.good]

theorem sentry_error {after : IStream} (stuck : s.sentry = .error after) : after.fail = true := by
  unfold IStream.sentry at stuck
  split at stuck
  · split at stuck
    · cases stuck
      rfl
    · cases stuck
  · cases stuck
    rfl

theorem extract_word_none_iff : (extractWord s).1 = none ↔ (extractWord s).2.fail = true := by
  unfold extractWord
  cases read : s.sentry with
  | error after => simp [sentry_error read]
  | ok t => simp [IStream.stopped]

end Failing

section Fields
variable {blanks rest : Text}

/-- A blank or the end of the stream. -/
def Ends (rest : Text) : Prop := ∀ c ∈ rest.head?, isSpace c = true

theorem sentry_blanks {c : Char} {cs : Text} (all : ∀ b ∈ blanks, isSpace b = true)
    (visible : isSpace c = false) :
    (IStream.ofText (blanks ++ c :: cs)).sentry = .ok (c :: cs) := by
  have skipped : (blanks ++ c :: cs).dropWhile isSpace = c :: cs :=
    drop_run all (by simpa using visible)
  simp [IStream.sentry, IStream.ofText, IStream.good, skipped]

theorem Ends.not_digit (ends : Ends rest) : ∀ c ∈ rest.head?, c.isDigit = false := by
  intro c first
  by_contra digit
  have blank := ends c first
  rw [digit_not_space (by simpa using digit)] at blank
  cases blank

theorem extract_word {word : Text} (all : ∀ b ∈ blanks, isSpace b = true) (some_char : word ≠ [])
    (visible : ∀ c ∈ word, isSpace c = false) (ends : Ends rest) :
    extractWord (.ofText (blanks ++ word ++ rest)) = (some word, .stopped rest false) := by
  obtain ⟨c, cs, rfl⟩ := List.exists_cons_of_ne_nil some_char
  have shown : ∀ d ∈ c :: cs, (!isSpace d) = true := fun d member => by simp [visible d member]
  have stop : ∀ d ∈ rest.head?, (!isSpace d) = false := fun d first => by simp [ends d first]
  have took := take_run shown stop
  have left := drop_run shown stop
  rw [List.cons_append] at took left
  rw [extractWord, List.append_assoc, List.cons_append, sentry_blanks all (visible c (by simp))]
  dsimp only
  rw [took, left]

theorem extract_int {n : Nat} (all : ∀ b ∈ blanks, isSpace b = true) (small : (n : Int) ≤ intMax)
    (ends : Ends rest) :
    extractInt (.ofText (blanks ++ digits n ++ rest)) = (some (n : Int), .stopped rest false) := by
  obtain ⟨d, ds, split⟩ := List.exists_cons_of_ne_nil (digits_ne_nil n)
  have digit : AllDigits (d :: ds) := split ▸ all_digits n
  have took := take_run digit ends.not_digit
  have left := drop_run digit ends.not_digit
  have unsigned : splitSign (d :: ds ++ rest) = (false, d :: ds ++ rest) :=
    split_sign_digits (by simp) digit
  have range : clampInt n = ((n : Int), false) := by
    have low : ¬ (n : Int) < intMin := by simp only [intMin]; omega
    simp [clampInt, low, not_lt.mpr small]
  rw [List.cons_append] at took left unsigned
  rw [extractInt, List.append_assoc, split, List.cons_append,
    sentry_blanks all (digit_not_space (digit d (by simp)))]
  simp only [unsigned, took, left, ← split, digits_ne_nil, ↓reduceIte, value_digits,
    Bool.false_eq_true, range]

theorem scan_fixed {whole frac : Text} (some_digit : whole ≠ []) (all : AllDigits whole)
    (behind : AllDigits frac) (ends : Ends rest) :
    scanNumeral (whole ++ '.' :: frac ++ rest) = (⟨false, whole, frac, none⟩, rest) := by
  have stop : ∀ c ∈ ('.' :: (frac ++ rest)).head?, c.isDigit = false := by
    intro c first
    cases first
    rfl
  have took := take_run all stop
  have left := drop_run all stop
  have took' := take_run behind ends.not_digit
  have left' := drop_run behind ends.not_digit
  have unsigned : splitSign (whole ++ '.' :: (frac ++ rest)) =
      (false, whole ++ '.' :: (frac ++ rest)) := split_sign_digits some_digit all
  simp only [scanNumeral, List.append_assoc, List.cons_append, unsigned, took, left, took', left']
  cases rest with
  | nil => rfl
  | cons c cs =>
    have blank := ends c rfl
    have no_exponent : ¬ (c = 'e' ∨ c = 'E') := by
      rintro (rfl | rfl) <;> cases blank
    simp [no_exponent]

end Fields
end Extraction
