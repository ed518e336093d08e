import TradingSystems.FinalProject.Client

/- The client's scan of a broadcast: every line is read back as the entry it was
   printed from, and the two searches skip the lines in front of what they seek. -/
namespace FinalProject
open Decimal Formats Extraction

def IsPrice (t : Text) (v : ℚ) : Prop :=
  ∃ m places : Nat, places ≤ 5 ∧ m < 10 ^ (places + 4) ∧
    t = digits (m / 10 ^ places) ++ pointed (trimmed (padded places (m % 10 ^ places))) ∧
    v = m / 10 ^ places

theorem shown_price {q : ℚ} (low : 1 ≤ q) (high : q < 1000) :
    IsPrice (showGeneral 6 q) (rounded 6 q) := by
  obtain ⟨m, places, few, small, text, value⟩ := show_general_price low high
  exact ⟨m, places, few, small, text, value⟩

/-- Six significant digits of a price are within half the tolerance of the server. -/
theorem rounded_price_near {q : ℚ} (low : 1 ≤ q) (high : q < 1000) :
    |rounded 6 q - q| ≤ 1 / 2000 := by
  have positive : 0 < q := by linarith
  have most : Int.log 10 q < 3 :=
    (Int.lt_zpow_iff_log_lt (by decide) positive).mp (by norm_num; exact high)
  have near := rounded_near 6 positive (by decide)
  have unit : (10 : ℚ) ^ (Int.log 10 q - (((6 : Nat) : Int) - 1)) ≤ 10 ^ (-3 : Int) :=
    zpow_le_zpow_right₀ (by norm_num) (by push_cast; omega)
  have thousandth : (10 : ℚ) ^ (-3 : Int) = 1 / 1000 := by norm_num
  rw [thousandth] at unit
  linarith

section Price
variable {t : Text} {v : ℚ}

theorem IsPrice.parsed (price : IsPrice t v) {c : Char} {rest : Text} (stop : c.isDigit = false)
    (point : c ≠ '.') : parseDouble (t ++ c :: rest) = .ok (v, c :: rest) := by
  obtain ⟨m, places, _, _, rfl, rfl⟩ := price
  rw [parse_double_numeral (all_digits _) (all_digits_padded _ _).trimmed stop point, places_value]

theorem IsPrice.length_le (price : IsPrice t v) : t.length ≤ 10 := by
  obtain ⟨m, places, few, small, rfl, _⟩ := price
  have whole : (digits (m / 10 ^ places)).length ≤ 4 := by
    refine digits_length_le (by decide) (Nat.div_lt_of_lt_mul ?_)
    rwa [← pow_add]
  have behind := pointed_length_le (trimmed (padded places (m % 10 ^ places)))
  have short := trimmed_length_le (padded places (m % 10 ^ places))
  have width : (padded places (m % 10 ^ places)).length ≤ 5 := by
    cases places with
    | zero =>
      rw [pow_zero, Nat.mod_one]
      decide
    | succ k =>
      rw [padded_length (Nat.succ_pos k) (Nat.mod_lt _ (by positivity))]
      exact few
  simp only [List.length_append]
  omega

theorem IsPrice.fixed (price : IsPrice t v) : ∃ M : Nat, M < 10 ^ 10 ∧ v = M / 10 ^ 6 := by
  obtain ⟨m, places, few, small, _, rfl⟩ := price
  refine ⟨m * 10 ^ (6 - places), ?_, ?_⟩
  · calc m * 10 ^ (6 - places) < 10 ^ (places + 4) * 10 ^ (6 - places) := by gcongr
      _ = 10 ^ 10 := by rw [← pow_add]; congr 1; omega
  · have whole : (10 : ℚ) ^ 6 = 10 ^ places * 10 ^ (6 - places) := by
      rw [← pow_add]
      congr 1
      omega
    push_cast
    rw [whole]
    field_simp

end Price

def LineChar (c : Char) : Prop := c.isDigit = true ∨ c ∈ "SEC|BIDAK.".toList

theorem IsPrice.chars {t : Text} {v : ℚ} (price : IsPrice t v) : ∀ c ∈ t, LineChar c := by
  obtain ⟨m, places, _, _, rfl, _⟩ := price
  intro c member
  rcases List.mem_append.mp member with whole | behind
  · exact Or.inl (all_digits _ c whole)
  · unfold pointed at behind
    split at behind
    · cases behind
    · rcases List.mem_cons.mp behind with point | digit
      · subst point
        exact Or.inr (by decide)
      · exact Or.inl ((all_digits_padded _ _).trimmed c digit)

def IsSecurity (t : Text) : Prop :=
  ∃ ds : Text, t = "SEC".toList ++ ds ∧ ds.length = 4 ∧ AllDigits ds

theorem IsSecurity.length {t : Text} (security : IsSecurity t) : t.length = 7 := by
  obtain ⟨ds, rfl, four, _⟩ := security
  simp [four]

theorem IsSecurity.chars {t : Text} (security : IsSecurity t) : ∀ c ∈ t, LineChar c := by
  obtain ⟨ds, rfl, _, all⟩ := security
  intro c member
  rcases List.mem_append.mp member with letter | digit
  · refine Or.inr ?_
    have sub : "SEC".toList ⊆ "SEC|BIDAK.".toList := by decide
    exact sub letter
  · exact Or.inl (all c digit)

/-- A security with prices that are printed in full. -/
structure Quoted (e : Text × ℚ × ℚ) : Prop where
  security : IsSecurity e.1
  bid : IsPrice (showGeneral 6 e.2.1) (rounded 6 e.2.1)
  ask : IsPrice (showGeneral 6 e.2.2) (rounded 6 e.2.2)

def entryOf (e : Text × ℚ × ℚ) : Entry := ⟨e.1 ++ [nul], rounded 6 e.2.1, rounded 6 e.2.2⟩

section Lines
variable {e : Text × ℚ × ℚ} {rest : Text}

theorem security_text_chars (quoted : Quoted e) : ∀ c ∈ securityText e, LineChar c := by
  have literal : ∀ l : String, l.toList ⊆ "SEC|BIDAK.".toList → ∀ c ∈ l.toList, LineChar c :=
    fun l sub c member => Or.inr (sub member)
  intro c member
  unfold securityText at member
  simp only [List.mem_append] at member
  rcases member with ((((first | ticker) | bid) | price) | ask) | price
  · exact literal "SEC|" (by decide) c first
  · exact quoted.security.chars c ticker
  · exact literal "|BID|" (by decide) c bid
  · exact quoted.bid.chars c price
  · exact literal "|ASK|" (by decide) c ask
  · exact quoted.ask.chars c price

theorem security_text_length_le (quoted : Quoted e) : (securityText e).length ≤ 41 := by
  have bid := quoted.bid.length_le
  have ask := quoted.ask.length_le
  have ticker := quoted.security.length
  have first : "SEC|".toList.length = 4 := rfl
  have second : "|BID|".toList.length = 5 := rfl
  have third : "|ASK|".toList.length = 5 := rfl
  unfold securityText
  simp only [List.length_append]
  omega

theorem copy7_of_length {t : Text} (seven : t.length = 7) :
    copy7 (t ++ rest) = .ok (t ++ [nul]) := by
  simp [copy7, seven, List.take_left' seven]

theorem read_entry (quoted : Quoted e) :
    readEntry (securityText e ++ '\n' :: rest) = .ok (entryOf e, '\n' :: rest) := by
  have seven := quoted.security.length
  have text : securityText e ++ '\n' :: rest =
      "SEC|".toList ++ (e.1 ++ ("|BID|".toList ++ (showGeneral 6 e.2.1 ++
        '|' :: ("ASK|".toList ++ (showGeneral 6 e.2.2 ++ '\n' :: rest))))) := by
    have ask : "|ASK|".toList = '|' :: "ASK|".toList := by decide
    unfold securityText
    rw [ask]
    simp only [List.append_assoc, List.cons_append]
  rw [readEntry, text, List.drop_left' (by rfl), copy7_of_length seven]
  simp only [bind, Except.bind, List.drop_left' seven]
  rw [List.drop_left' (by rfl), quoted.bid.parsed rfl (by decide)]
  dsimp only
  rw [List.drop_succ_cons, List.drop_zero, List.drop_left' (by rfl),
    quoted.ask.parsed rfl (by decide)]
  rfl

theorem skip_newline : skipLine ('\n' :: rest) = .ok rest := by
  rw [skipLine, if_neg (by decide), if_pos rfl]

theorem line_marked (e : Text × ℚ × ℚ) (rest : Text) :
    ∃ tail, securityText e ++ '\n' :: rest = "SEC|".toList ++ tail := by
  unfold securityText
  simp only [List.append_assoc]
  exact ⟨_, rfl⟩

theorem scan_line (quoted : Quoted e) (fuel : Nat) {entries : List Entry}
    (room : entries.length < 10) :
    scanEntries (fuel + 1) (securityText e ++ '\n' :: rest) entries =
      scanEntries fuel rest (entries ++ [entryOf e]) := by
  obtain ⟨tail, same⟩ := line_marked e rest
  have seen : deref (securityText e ++ '\n' :: rest) = .ok 'S' := by
    rw [same]
    rfl
  have marked : startsWith (securityText e ++ '\n' :: rest) "SEC|".toList = .ok true := by
    rw [same]
    simp [startsWith]
  have visible : 'S' ≠ nul := by decide
  rw [scanEntries, seen]
  simp only [bind, Except.bind, visible, ne_eq, not_false_eq_true, room, and_self, ↓reduceIte,
    marked, read_entry quoted, skip_newline]

/-- The entry loop reads the quoted lines one by one while there is room for them. -/
theorem scan_lines {es : List (Text × ℚ × ℚ)} (quoted : ∀ e ∈ es, Quoted e) (fuel : Nat)
    {entries : List Entry} (room : entries.length + es.length ≤ 10) :
    scanEntries (fuel + es.length)
        (es.flatMap (fun e => securityText e ++ ['\n']) ++ rest) entries =
      scanEntries fuel rest (entries ++ es.map entryOf) := by
  induction es generalizing entries with
  | nil => simp
  | cons e es ih =>
    simp only [List.length_cons] at room
    have shape : (e :: es).flatMap (fun e => securityText e ++ ['\n']) ++ rest =
        securityText e ++ '\n' :: (es.flatMap (fun e => securityText e ++ ['\n']) ++ rest) := by
      simp
    have others : ∀ e' ∈ es, Quoted e' := fun e' member => quoted e' (by simp [member])
    have room' : (entries ++ [entryOf e]).length + es.length ≤ 10 := by
      simp only [List.length_append, List.length_cons, List.length_nil]
      omega
    rw [shape, List.length_cons, ← Nat.add_assoc, scan_line (quoted e (by simp)) _ (by omega),
      ih others room']
    simp

end Lines

theorem strstr_skip {literal line rest : Text} {x : Char} (inside : x ∈ literal) (absent : x ∉ line)
    (one_line : '\n' ∉ literal) (no_end : nul ∉ line) :
    strstr literal (line ++ '\n' :: rest) = strstr literal rest := by
  have none_here : ∀ l : Text, x ∉ l → literal.isPrefixOf (l ++ '\n' :: rest) = false := by
    intro l lacks
    by_contra found
    have prefixed : literal <+: l ++ '\n' :: rest := by simpa using found
    by_cases short : literal.length ≤ l.length
    · have within := List.prefix_of_prefix_length_le prefixed (List.prefix_append l _) short
      exact lacks (within.subset inside)
    · have whole : l ++ ['\n'] <+: l ++ '\n' :: rest := ⟨rest, by simp⟩
      have within := List.prefix_of_prefix_length_le whole prefixed (by simp; omega)
      exact one_line (within.subset (by simp))
  induction line with
  | nil =>
    have newline : ('\n' : Char) ≠ nul := by decide
    have unmatched := none_here [] absent
    rw [List.nil_append] at unmatched ⊢
    rw [strstr, if_neg newline, unmatched]
    simp
  | cons c l ih =>
    have visible : c ≠ nul := fun same => no_end (by simp [same])
    rw [List.cons_append, strstr, if_neg visible, ← List.cons_append, none_here (c :: l) absent]
    simp only [Bool.false_eq_true, ↓reduceIte]
    exact ih (fun member => absent (by simp [member])) fun member => no_end (by simp [member])

theorem strstr_found {literal rest : Text} {c : Char} (visible : c ≠ nul) :
    strstr (c :: literal) (c :: literal ++ rest) = .ok (some (c :: literal ++ rest)) := by
  rw [List.cons_append, strstr, if_neg visible, if_pos]
  simp

theorem strstr_skip_lines {literal rest : Text} {x : Char} {es : List (Text × ℚ × ℚ)}
    (inside : x ∈ literal) (foreign : ¬ LineChar x) (one_line : '\n' ∉ literal)
    (quoted : ∀ e ∈ es, Quoted e) :
    strstr literal (es.flatMap (fun e => securityText e ++ ['\n']) ++ rest) =
      strstr literal rest := by
  induction es with
  | nil => rfl
  | cons e es ih =>
    have chars := security_text_chars (quoted e (by simp))
    have no_end : nul ∉ securityText e := fun member => absurd (chars nul member) (by
      unfold LineChar; decide)
    rw [List.flatMap_cons, List.append_assoc, List.append_assoc, List.singleton_append,
      strstr_skip inside (fun member => foreign (chars x member)) one_line no_end]
    exact ih fun e member => quoted e (by simp [member])

theorem atoi_digits {n : Nat} {c : Char} {rest : Text} (stop : c.isDigit = false) :
    atoi (digits n ++ c :: rest) = .ok n := by
  have ends : ∀ d ∈ (c :: rest).head?, d.isDigit = false := by simpa using stop
  have took := take_run (all_digits n) ends
  have left := drop_run (all_digits n) ends
  have unsigned : splitSign (digits n ++ c :: rest) = (false, digits n ++ c :: rest) :=
    split_sign_digits (digits_ne_nil n) (all_digits n)
  have unblanked : (digits n ++ c :: rest).dropWhile isSpace = digits n ++ c :: rest :=
    drop_spaces_digits (digits_ne_nil n) (all_digits n)
  simp [atoi, unblanked, unsigned, took, left]

end FinalProject
