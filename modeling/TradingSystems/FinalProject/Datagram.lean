import TradingSystems.FinalProject.Client

/- A datagram in the receive buffer, with the bytes of earlier ones behind its
   terminator. The scan stays within the datagram as long as no fixed advance steps
   over the terminator. -/
namespace FinalProject
open Decimal Extraction

structure Parsed where
  entries : List Entry
  challengeId : Option Int
  target : Option Text

def challengeIdIn (buf : Text) : Except Fault (Option Int) := do
  match ← strstr "CHALLENGE_ID:".toList buf with
  | some p => some <$> atoi (p.drop 13)
  | none => return none

def targetIn (buf : Text) : Except Fault (Option Text) := do
  match ← strstr "TARGET:".toList buf with
  | some p => some <$> copy7 (p.drop 7)
  | none => return none

def parseDatagram (buf : Text) : Except Fault Parsed := do
  let entries ← scanEntries (buf.length + 1) buf []
  let challengeId ← challengeIdIn buf
  let target ← targetIn buf
  return ⟨entries, challengeId, target⟩

def answerParsed (traderName : Text) (s : Client) (d : Parsed) :
    Except Fault (Client × List Entry × Text) := do
  let challengeId := d.challengeId.getD s.challengeId
  let target := d.target.getD s.target
  let (bid, ask) := findEntry d.entries target
  let line := answerLine challengeId (← cString target) bid ask traderName
  return (⟨challengeId, target⟩, d.entries, sendAnswer line)

theorem handle_datagram_parsed (traderName : Text) (s : Client) (buf : Text) :
    handleDatagram traderName s buf = parseDatagram buf >>= answerParsed traderName s := by
  unfold handleDatagram parseDatagram challengeIdIn targetIn
  simp only [bind_assoc]
  apply bind_congr
  intro entries
  apply bind_congr
  intro id_pos
  cases id_pos with
  | none =>
    simp only [pure_bind]
    apply bind_congr
    intro tgt_pos
    cases tgt_pos <;> simp [answerParsed]
  | some p =>
    simp only [bind_map_left]
    apply bind_congr
    intro challengeId
    apply bind_congr
    intro tgt_pos
    cases tgt_pos <;> simp [answerParsed]

/-- No read or write leaves the buffer, and whatever the buffer held before, the same is
    taken from the datagram. -/
def DatagramSafe (d : Text) : Prop :=
  ∃ parsed, ∀ stale : Text, stale.length = 2000 → (receive stale d >>= parseDatagram) = .ok parsed

def afterNumber (p : Text) : Text :=
  match p.dropWhile Char.isDigit with
  | '.' :: q => q.dropWhile Char.isDigit
  | q => q

def afterLine : Text → Text
  | [] => []
  | c :: p => if c = nul then c :: p else if c = '\n' then p else afterLine p

def nextLine (p : Text) : Text :=
  if "SEC|".toList <+: p then afterLine (afterNumber ((afterNumber (p.drop 16)).drop 5))
  else afterLine p

def Looks (ec : Nat) (p : Text) : Prop := ec < 10 ∧ ∃ c ∈ p.head?, c ≠ nul

/-- The places where the entry loop expects a line, with the entries counted by then. -/
inductive LineStart (d : Text) : Nat → Text → Prop where
  | first : LineStart d 0 d
  | next {ec : Nat} {p : Text} (start : LineStart d ec p) (looks : Looks ec p) :
      LineStart d (if "SEC|".toList <+: p then ec + 1 else ec) (nextLine p)

/-- A line with `room` bytes of the buffer from its start. -/
structure LineFits (room : Nat) (p : Text) : Prop where
  compared : 4 ≤ room
  entry : "SEC|".toList <+: p → 16 ≤ p.length ∧ 5 ≤ (afterNumber (p.drop 16)).length

/-- The terminator has a place, no line ends within its fixed parts, and a target is not
    cut off. -/
structure Fits (d : Text) : Prop where
  terminated : d.length < 2000
  lines : ∀ ec p, LineStart d ec p → Looks ec p → LineFits (p.length + (2000 - d.length)) p
  target : ∀ p, strstr "TARGET:".toList (d ++ [nul]) = .ok (some p) → 14 ≤ p.length

section Reading
variable {literal p behind : Text}

theorem drop_until_nul {f : Char → Bool} (stop : f nul = false) (p behind : Text) :
    (p ++ nul :: behind).dropWhile f = p.dropWhile f ++ nul :: behind := by
  induction p with
  | nil => simp [stop]
  | cons c p ih => by_cases more : f c = true <;> simp [more, ih]

theorem take_until_nul {f : Char → Bool} (stop : f nul = false) (p behind : Text) :
    (p ++ nul :: behind).takeWhile f = p.takeWhile f := by
  induction p with
  | nil => simp [stop]
  | cons c p ih => by_cases more : f c = true <;> simp [more, ih]

theorem whole_loop_nul (p : Text) (v : ℚ) : ∃ w, ∀ behind, wholeLoop v (p ++ nul :: behind) =
    .ok (w, p.dropWhile Char.isDigit ++ nul :: behind) := by
  induction p generalizing v with
  | nil => exact ⟨v, fun behind => rfl⟩
  | cons c p ih =>
    by_cases digit : c.isDigit = true
    · obtain ⟨w, read⟩ := ih (v * 10 + (c.toNat - 48 : Nat))
      refine ⟨w, fun behind => ?_⟩
      rw [List.cons_append, wholeLoop, if_pos digit, read, List.dropWhile_cons_of_pos digit]
    · refine ⟨v, fun behind => ?_⟩
      rw [List.cons_append, wholeLoop, if_neg digit, List.dropWhile_cons_of_neg digit,
        List.cons_append]

theorem frac_loop_nul (p : Text) (v place : ℚ) : ∃ w, ∀ behind,
    fracLoop v place (p ++ nul :: behind) = .ok (w, p.dropWhile Char.isDigit ++ nul :: behind) := by
  induction p generalizing v place with
  | nil => exact ⟨v, fun behind => rfl⟩
  | cons c p ih =>
    by_cases digit : c.isDigit = true
    · obtain ⟨w, read⟩ := ih (v + (c.toNat - 48 : Nat) * (place * (1 / 10))) (place * (1 / 10))
      refine ⟨w, fun behind => ?_⟩
      rw [List.cons_append, fracLoop, if_pos digit, List.dropWhile_cons_of_pos digit]
      exact read behind
    · refine ⟨v, fun behind => ?_⟩
      rw [List.cons_append, fracLoop, if_neg digit, List.dropWhile_cons_of_neg digit,
        List.cons_append]

theorem parse_double_nul (p : Text) : ∃ v, ∀ behind,
    parseDouble (p ++ nul :: behind) = .ok (v, afterNumber p ++ nul :: behind) := by
  obtain ⟨w, whole⟩ := whole_loop_nul p 0
  unfold afterNumber
  simp only [parseDouble, whole, bind, Except.bind]
  cases p.dropWhile Char.isDigit with
  | nil => exact ⟨w, fun behind => rfl⟩
  | cons c q =>
    by_cases point : c = '.'
    · subst point
      obtain ⟨v, frac⟩ := frac_loop_nul q w 1
      exact ⟨v, frac⟩
    · refine ⟨w, fun behind => ?_⟩
      simp [point, pure, Except.pure]

theorem skip_line_nul (p behind : Text) :
    skipLine (p ++ nul :: behind) = .ok (afterLine p ++ nul :: behind) := by
  induction p with
  | nil => rfl
  | cons c p ih =>
    rw [List.cons_append, skipLine, afterLine]
    split
    · rfl
    · split
      · rfl
      · exact ih

theorem prefix_before_nul (no_end : nul ∉ literal) :
    literal <+: p ++ nul :: behind ↔ literal <+: p := by
  constructor
  · intro found
    by_cases short : literal.length ≤ p.length
    · exact List.prefix_of_prefix_length_le found (List.prefix_append p _) short
    · have ended : p ++ [nul] <+: p ++ nul :: behind := ⟨behind, by simp⟩
      have within := List.prefix_of_prefix_length_le ended found (by simp; omega)
      exact absurd (within.subset (by simp)) no_end
  · intro found
    exact found.trans (List.prefix_append p _)

theorem starts_with_nul (no_end : nul ∉ literal)
    (room : literal.length ≤ (p ++ nul :: behind).length) :
    startsWith (p ++ nul :: behind) literal = .ok (decide (literal <+: p)) := by
  have same : (p ++ nul :: behind).take literal.length = literal ↔ literal <+: p := by
    have matched : literal <+: p ++ nul :: behind ↔ literal <+: p := prefix_before_nul no_end
    rw [← matched, List.prefix_iff_eq_take]
    exact eq_comm
  rw [startsWith, if_pos room]
  simp only [same]

theorem strstr_nul (no_end : nul ∉ literal) (d : Text) : ∃ found : Option Text,
    (∀ q ∈ found, literal <+: q) ∧
      ∀ behind, strstr literal (d ++ nul :: behind) = .ok (found.map (· ++ nul :: behind)) := by
  induction d with
  | nil => exact ⟨none, by simp, fun behind => rfl⟩
  | cons c d ih =>
    by_cases ended : c = nul
    · refine ⟨none, by simp, fun behind => ?_⟩
      rw [List.cons_append, strstr, if_pos ended]
      rfl
    · by_cases here : literal <+: c :: d
      · refine ⟨some (c :: d), by simpa using here, fun behind => ?_⟩
        have matched : literal.isPrefixOf (c :: (d ++ nul :: behind)) = true := by
          simpa using here.trans (List.prefix_append (c :: d) (nul :: behind))
        rw [List.cons_append, strstr, if_neg ended, if_pos matched]
        rfl
      · obtain ⟨found, literal_first, later⟩ := ih
        refine ⟨found, literal_first, fun behind => ?_⟩
        have unmatched : ¬ literal.isPrefixOf (c :: (d ++ nul :: behind)) = true := by
          rw [List.isPrefixOf_iff_prefix, ← List.cons_append, prefix_before_nul no_end]
          exact here
        rw [List.cons_append, strstr, if_neg ended, if_neg unmatched, later]

theorem atoi_nul (p : Text) : ∃ n, ∀ behind, atoi (p ++ nul :: behind) = .ok n := by
  have unblanked (behind : Text) := drop_until_nul (show isSpace nul = false by decide) p behind
  have signed (q behind : Text) : splitSign (q ++ nul :: behind) =
      ((splitSign q).1, (splitSign q).2 ++ nul :: behind) := by
    cases q with
    | nil => rfl
    | cons c q =>
      by_cases minus : c = '-'
      · simp [minus, splitSign]
      · by_cases plus : c = '+' <;> simp [minus, plus, splitSign]
  simp only [atoi, unblanked, signed, drop_until_nul (show Char.isDigit nul = false by decide),
    take_until_nul (show Char.isDigit nul = false by decide)]
  simp

theorem copy7_nul (enough : 6 ≤ p.length) : ∃ t, ∀ behind, copy7 (p ++ nul :: behind) = .ok t := by
  refine ⟨(p ++ [nul]).take 7 ++ [nul], fun behind => ?_⟩
  have whole : p ++ nul :: behind = (p ++ [nul]) ++ behind := by simp
  have length : (p ++ [nul]).length = p.length + 1 := by simp
  rw [copy7, if_pos (by simp; omega), whole, List.take_append_of_le_length (by omega)]

theorem drop_nul {n : Nat} (enough : n ≤ p.length) (behind : Text) :
    (p ++ nul :: behind).drop n = p.drop n ++ nul :: behind :=
  List.drop_append_of_le_length enough

theorem read_entry_nul (whole : 16 ≤ p.length) (ask : 5 ≤ (afterNumber (p.drop 16)).length) :
    ∃ e, ∀ behind, readEntry (p ++ nul :: behind) =
      .ok (e, afterNumber ((afterNumber (p.drop 16)).drop 5) ++ nul :: behind) := by
  obtain ⟨t, ticker⟩ := copy7_nul (p := p.drop 4) (by simp; omega)
  obtain ⟨bid, first⟩ := parse_double_nul (p.drop 16)
  obtain ⟨ask_value, second⟩ := parse_double_nul ((afterNumber (p.drop 16)).drop 5)
  refine ⟨⟨t, bid, ask_value⟩, fun behind => ?_⟩
  have copied : copy7 ((p ++ nul :: behind).drop 4) = .ok t := by
    rw [drop_nul (by omega), ticker]
  simp only [readEntry, List.drop_drop, Nat.reduceAdd, copied, drop_nul whole, first, bind,
    Except.bind, drop_nul ask, second]
  rfl

end Reading

/-- Old bytes that are neither a number, nor a newline, nor a terminator. -/
def Filler (t : Text) : Prop := ∀ c ∈ t, c = 'x'

section Stale
variable {t p behind : Text}

theorem skip_filler (filler : Filler t) : skipLine t = .error .outOfBounds := by
  induction t with
  | nil => rfl
  | cons c t ih =>
    have first : c = 'x' := filler c (by simp)
    subst first
    rw [skipLine, if_neg (by decide), if_neg (by decide)]
    exact ih fun c member => filler c (by simp [member])

theorem Filler.drop (filler : Filler t) (n : Nat) : Filler (t.drop n) := fun c member =>
  filler c (List.mem_of_mem_drop member)

theorem parse_filler (filler : Filler t) {v : ℚ} {q : Text} (read : parseDouble t = .ok (v, q)) :
    Filler q := by
  cases t with
  | nil => cases read
  | cons c t =>
    have first : c = 'x' := filler c (by simp)
    subst first
    cases read
    exact filler

theorem drop_past {n : Nat} (past : p.length < n) (filler : Filler behind) :
    Filler ((p ++ nul :: behind).drop n) := by
  have whole : p ++ nul :: behind = (p ++ [nul]) ++ behind := by simp
  rw [whole, List.drop_append, List.drop_eq_nil_of_le (by simp; omega), List.nil_append]
  exact filler.drop _

theorem read_entry_cut (filler : Filler behind)
    (cut : ¬ (16 ≤ p.length ∧ 5 ≤ (afterNumber (p.drop 16)).length)) {e : Entry} {q : Text}
    (read : readEntry (p ++ nul :: behind) = .ok (e, q)) : Filler q := by
  simp only [readEntry, List.drop_drop, Nat.reduceAdd, bind, Except.bind] at read
  cases copied : copy7 ((p ++ nul :: behind).drop 4) with
  | error fault =>
    rw [copied] at read
    cases read
  | ok ticker =>
    cases first : parseDouble ((p ++ nul :: behind).drop 16) with
    | error fault =>
      rw [copied, first] at read
      cases read
    | ok bid =>
      have past : Filler (bid.2.drop 5) := by
        by_cases whole : 16 ≤ p.length
        · obtain ⟨v, parsed⟩ := parse_double_nul (p.drop 16)
          rw [drop_nul whole, parsed behind] at first
          cases first
          exact drop_past (by omega) filler
        · exact (parse_filler (drop_past (by omega) filler) first).drop 5
      cases second : parseDouble (bid.2.drop 5) with
      | error fault =>
        simp only [copied, first, second] at read
        cases read
      | ok ask =>
        simp only [copied, first, second] at read
        cases read
        exact parse_filler past second

end Stale

section Scanning
variable {p behind : Text} {es : List Entry} {fuel : Nat}

theorem scan_stops (stops : ¬ Looks es.length p) :
    scanEntries (fuel + 1) (p ++ nul :: behind) es = .ok es := by
  cases p with
  | nil => simp [scanEntries, deref, bind, Except.bind, pure, Except.pure]
  | cons c p =>
    have ended : ¬ (c ≠ nul ∧ es.length < 10) := by
      intro more
      exact stops ⟨more.2, c, rfl, more.1⟩
    simp only [List.cons_append, scanEntries, deref, bind, Except.bind, if_neg ended]
    rfl

theorem scan_looks (looks : Looks es.length p) :
    scanEntries (fuel + 1) (p ++ nul :: behind) es =
      startsWith (p ++ nul :: behind) "SEC|".toList >>= fun marked =>
        if marked then
          readEntry (p ++ nul :: behind) >>= fun r =>
            skipLine r.2 >>= fun q => scanEntries fuel q (es ++ [r.1])
        else skipLine (p ++ nul :: behind) >>= fun q => scanEntries fuel q es := by
  obtain ⟨room, c, first, visible⟩ := looks
  cases p with
  | nil => cases first
  | cons d p =>
    cases first
    have more : c ≠ nul ∧ es.length < 10 := ⟨visible, room⟩
    simp only [List.cons_append, scanEntries, deref, bind, Except.bind, if_pos more]

theorem literal_fits (enough : 4 ≤ p.length + 1 + behind.length) :
    "SEC|".toList.length ≤ (p ++ nul :: behind).length := by
  have four : "SEC|".toList.length = 4 := rfl
  simp only [List.length_append, List.length_cons, four]
  omega

theorem scan_next (looks : Looks es.length p)
    (entry : "SEC|".toList <+: p → 16 ≤ p.length ∧ 5 ≤ (afterNumber (p.drop 16)).length) :
    ∃ es' : List Entry, es'.length = (if "SEC|".toList <+: p then es.length + 1 else es.length) ∧
      ∀ behind fuel, 4 ≤ p.length + 1 + behind.length →
        scanEntries (fuel + 1) (p ++ nul :: behind) es =
          scanEntries fuel (nextLine p ++ nul :: behind) es' := by
  unfold nextLine
  by_cases marked : "SEC|".toList <+: p
  · obtain ⟨whole, ask⟩ := entry marked
    obtain ⟨e, read⟩ := read_entry_nul whole ask
    refine ⟨es ++ [e], by rw [if_pos marked, List.length_append]; rfl, fun behind fuel enough => ?_⟩
    rw [scan_looks looks, starts_with_nul (by decide) (literal_fits enough)]
    simp only [bind, Except.bind, marked, decide_true, ↓reduceIte, read, skip_line_nul]
  · refine ⟨es, by rw [if_neg marked], fun behind fuel enough => ?_⟩
    rw [scan_looks looks, starts_with_nul (by decide) (literal_fits enough)]
    simp only [bind, Except.bind, marked, decide_false, Bool.false_eq_true, ↓reduceIte,
      skip_line_nul]

theorem scan_breaks (filler : Filler behind) (looks : Looks es.length p)
    (unfit : ¬ LineFits (p.length + 1 + behind.length) p) (result : List Entry) :
    scanEntries (fuel + 1) (p ++ nul :: behind) es ≠ .ok result := by
  intro ran
  rw [scan_looks looks] at ran
  by_cases enough : 4 ≤ p.length + 1 + behind.length
  · have marked : "SEC|".toList <+: p := by
      by_contra unmarked
      exact unfit ⟨enough, fun marked => absurd marked unmarked⟩
    have cut : ¬ (16 ≤ p.length ∧ 5 ≤ (afterNumber (p.drop 16)).length) := fun whole =>
      unfit ⟨enough, fun _ => whole⟩
    rw [starts_with_nul (by decide) (literal_fits enough)] at ran
    simp only [bind, Except.bind, marked, decide_true, ↓reduceIte] at ran
    cases read : readEntry (p ++ nul :: behind) with
    | error fault =>
      rw [read] at ran
      cases ran
    | ok r =>
      simp only [read, skip_filler (read_entry_cut filler cut read)] at ran
      cases ran
  · have beyond : ¬ "SEC|".toList.length ≤ (p ++ nul :: behind).length := by
      have four : "SEC|".toList.length = 4 := rfl
      simp only [List.length_append, List.length_cons, four]
      omega
    rw [startsWith, if_neg beyond] at ran
    cases ran

theorem after_number_length (p : Text) : (afterNumber p).length ≤ p.length := by
  have whole := (List.dropWhile_suffix (p := Char.isDigit) (l := p)).length_le
  unfold afterNumber
  cases same : p.dropWhile Char.isDigit with
  | nil => exact Nat.zero_le _
  | cons c q =>
    rw [same] at whole
    have frac := (List.dropWhile_suffix (p := Char.isDigit) (l := q)).length_le
    simp only [List.length_cons] at whole
    split
    · rename_i point
      cases point
      omega
    · exact whole

theorem after_line_length (p : Text) : (afterLine p).length ≤ p.length := by
  induction p with
  | nil => exact Nat.zero_le _
  | cons c p ih =>
    unfold afterLine
    split
    · exact le_rfl
    · split <;> simp only [List.length_cons] <;> omega

theorem next_line_shorter {ec room : Nat} (looks : Looks ec p) (fits : LineFits room p) :
    (nextLine p).length < p.length := by
  unfold nextLine
  split
  · rename_i marked
    have whole := (fits.entry marked).1
    have line := after_line_length (afterNumber ((afterNumber (p.drop 16)).drop 5))
    have ask := after_number_length ((afterNumber (p.drop 16)).drop 5)
    have bid := after_number_length (p.drop 16)
    simp only [List.length_drop] at ask bid
    omega
  · obtain ⟨_, c, first, visible⟩ := looks
    cases p with
    | nil => cases first
    | cons d q =>
      cases first
      have line := after_line_length q
      unfold afterLine
      rw [if_neg visible]
      split <;> simp only [List.length_cons] <;> omega

/-- What the entry loop makes of a datagram that fits does not depend on the old bytes. -/
theorem scan_fits {d : Text} (fits : Fits d) {ec : Nat} (start : LineStart d ec p)
    (count : es.length = ec) : ∃ result, ∀ behind fuel, behind.length + d.length + 1 = 2000 →
      p.length < fuel → scanEntries fuel (p ++ nul :: behind) es = .ok result := by
  induction size : p.length using Nat.strong_induction_on generalizing p ec es with
  | _ n shorter =>
    subst count
    by_cases looks : Looks es.length p
    · have line := fits.lines _ _ start looks
      have less := size ▸ next_line_shorter looks line
      obtain ⟨es', count, next⟩ := scan_next looks line.entry
      obtain ⟨result, rest⟩ := shorter _ less (start.next looks) count rfl
      refine ⟨result, fun behind fuel full enough => ?_⟩
      have room := line.compared
      cases fuel with
      | zero => omega
      | succ fuel => rw [next behind fuel (by omega), rest behind fuel full (by omega)]
    · refine ⟨es, fun behind fuel _ enough => ?_⟩
      cases fuel with
      | zero => omega
      | succ fuel => exact scan_stops looks

theorem line_of_scan (filler : Filler behind) (looks : Looks es.length p) {result : List Entry}
    (ran : scanEntries fuel (p ++ nul :: behind) es = .ok result) :
    LineFits (p.length + 1 + behind.length) p ∧ ∃ es' fuel',
      es'.length = (if "SEC|".toList <+: p then es.length + 1 else es.length) ∧
      scanEntries fuel' (nextLine p ++ nul :: behind) es' = .ok result := by
  cases fuel with
  | zero => cases ran
  | succ fuel =>
    have line : LineFits (p.length + 1 + behind.length) p := by
      by_contra unfit
      exact scan_breaks filler looks unfit result ran
    obtain ⟨es', count, next⟩ := scan_next looks line.entry
    rw [next behind fuel line.compared] at ran
    exact ⟨line, es', fuel, count, ran⟩

theorem scan_reaches {d : Text} (filler : Filler behind) {result : List Entry}
    (ran : scanEntries fuel (d ++ nul :: behind) [] = .ok result) {ec : Nat}
    (start : LineStart d ec p) :
    ∃ es fuel, es.length = ec ∧ scanEntries fuel (p ++ nul :: behind) es = .ok result := by
  induction start with
  | first => exact ⟨[], _, rfl, ran⟩
  | next start looks ih =>
    obtain ⟨es, fuel, count, ran⟩ := ih
    subst count
    exact (line_of_scan filler looks ran).2

end Scanning

section Safety
variable {d : Text}

theorem receive_short (short : d.length < 2000) {stale : Text} (buffer : stale.length = 2000) :
    ∃ behind, receive stale d = .ok (d ++ nul :: behind) ∧ behind.length + d.length + 1 = 2000 ∧
      behind = stale.drop (d.length + 1) := by
  refine ⟨_, by rw [receive, if_pos (by omega)], ?_, rfl⟩
  rw [List.length_drop]
  omega

theorem challenge_id_nul (d : Text) :
    ∃ id, ∀ behind, challengeIdIn (d ++ nul :: behind) = .ok id := by
  obtain ⟨found, literal_first, everywhere⟩ :=
    strstr_nul (show nul ∉ "CHALLENGE_ID:".toList by decide) d
  unfold challengeIdIn
  simp only [everywhere]
  cases found with
  | none => exact ⟨none, fun behind => rfl⟩
  | some q =>
    have long : 13 ≤ q.length := (literal_first q rfl).length_le
    obtain ⟨n, read⟩ := atoi_nul (q.drop 13)
    refine ⟨some n, fun behind => ?_⟩
    have number : atoi ((q ++ nul :: behind).drop 13) = .ok n := by
      rw [drop_nul long, read]
    simp only [Option.map_some, bind, Except.bind, number]
    rfl

theorem target_nul
    (whole : ∀ p, strstr "TARGET:".toList (d ++ [nul]) = .ok (some p) → 14 ≤ p.length) :
    ∃ target, ∀ behind, targetIn (d ++ nul :: behind) = .ok target := by
  obtain ⟨found, literal_first, everywhere⟩ :=
    strstr_nul (show nul ∉ "TARGET:".toList by decide) d
  unfold targetIn
  simp only [everywhere]
  cases found with
  | none => exact ⟨none, fun behind => rfl⟩
  | some q =>
    have long : 7 ≤ q.length := (literal_first q rfl).length_le
    have inside := whole _ (everywhere [])
    simp only [List.length_append, List.length_singleton] at inside
    obtain ⟨t, read⟩ := copy7_nul (p := q.drop 7) (by simp; omega)
    refine ⟨some t, fun behind => ?_⟩
    have copied : copy7 ((q ++ nul :: behind).drop 7) = .ok t := by
      rw [drop_nul long, read]
    simp only [Option.map_some, bind, Except.bind, copied]
    rfl

theorem copy_cut {k : Nat} {c : Char} {u t : Text} (few : u.length ≤ 5)
    (copied : copy7 (u ++ nul :: List.replicate k c) = .ok t) : t[u.length + 1]? = some c := by
  unfold copy7 at copied
  split at copied
  · rename_i room
    cases copied
    simp only [List.length_append, List.length_cons, List.length_replicate] at room
    have within : u.length + 1 < ((u ++ nul :: List.replicate k c).take 7).length := by
      simp only [List.length_take, List.length_append, List.length_cons, List.length_replicate]
      omega
    rw [List.getElem?_append_left within, List.getElem?_take_of_lt (by omega),
      List.getElem?_append_right (by omega), Nat.add_sub_cancel_left, List.getElem?_cons_succ,
      List.getElem?_replicate, if_pos (by omega)]
  · cases copied

theorem target_whole {k : Nat} {target : Option Text}
    (same : ∀ c ∈ ['x', 'y'], targetIn (d ++ nul :: List.replicate k c) = .ok target) {p : Text}
    (occurs : strstr "TARGET:".toList (d ++ [nul]) = .ok (some p)) : 14 ≤ p.length := by
  obtain ⟨found, literal_first, everywhere⟩ :=
    strstr_nul (show nul ∉ "TARGET:".toList by decide) d
  rw [everywhere []] at occurs
  cases found with
  | none => cases occurs
  | some q =>
    cases occurs
    by_contra cut
    change ¬ 14 ≤ (q ++ [nul]).length at cut
    have long : 7 ≤ q.length := (literal_first q rfl).length_le
    have few : (q.drop 7).length ≤ 5 := by
      simp only [List.length_append, List.length_singleton] at cut
      simp only [List.length_drop]
      omega
    have shown (c : Char) (either : c ∈ ['x', 'y']) :
        ∃ t, target = some t ∧ t[(q.drop 7).length + 1]? = some c := by
      have whole := same c either
      simp only [targetIn, everywhere, Option.map_some, bind, Except.bind, drop_nul long] at whole
      cases copied : copy7 (q.drop 7 ++ nul :: List.replicate k c) with
      | error fault =>
        rw [copied] at whole
        cases whole
      | ok t =>
        rw [copied] at whole
        cases whole
        exact ⟨t, rfl, copy_cut few copied⟩
    obtain ⟨t, x_target, x_byte⟩ := shown 'x' (by simp)
    obtain ⟨t', y_target, y_byte⟩ := shown 'y' (by simp)
    rw [x_target] at y_target
    cases y_target
    rw [x_byte] at y_byte
    cases y_byte

theorem safe_of_fits (fits : Fits d) : DatagramSafe d := by
  obtain ⟨entries, scanned⟩ := scan_fits fits .first List.length_nil
  obtain ⟨id, known⟩ := challenge_id_nul d
  obtain ⟨target, named⟩ := target_nul fits.target
  refine ⟨⟨entries, id, target⟩, fun stale buffer => ?_⟩
  obtain ⟨behind, received, full, _⟩ := receive_short fits.terminated buffer
  have enough : d.length < (d ++ nul :: behind).length + 1 := by
    simp only [List.length_append]
    omega
  simp only [received, parseDatagram, bind, Except.bind, scanned behind _ full enough, known, named]
  rfl

theorem parts_of_safe {parsed : Parsed} (same : ∀ stale : Text, stale.length = 2000 →
      (receive stale d >>= parseDatagram) = .ok parsed)
    (terminated : d.length < 2000) (c : Char) :
    (∃ fuel, scanEntries fuel (d ++ nul :: List.replicate (1999 - d.length) c) [] =
      .ok parsed.entries) ∧
      targetIn (d ++ nul :: List.replicate (1999 - d.length) c) = .ok parsed.target := by
  have length : (List.replicate 2000 c).length = 2000 := List.length_replicate
  obtain ⟨behind, received, _, old⟩ := receive_short terminated length
  have whole := same (List.replicate 2000 c) length
  have old : behind = List.replicate (1999 - d.length) c := by
    rw [old, List.drop_replicate]
    congr 1
    omega
  rw [received, old] at whole
  obtain ⟨id, known⟩ := challenge_id_nul d
  simp only [parseDatagram, bind, Except.bind, known] at whole
  split at whole
  · cases whole
  · rename_i entries scanned
    split at whole
    · cases whole
    · rename_i target named
      cases whole
      exact ⟨⟨_, scanned⟩, named⟩

theorem fits_of_safe (safe : DatagramSafe d) : Fits d := by
  obtain ⟨parsed, same⟩ := safe
  have terminated : d.length < 2000 := by
    by_contra long
    have received := same (List.replicate 2000 'x') List.length_replicate
    rw [receive, if_neg (by rw [List.length_replicate]; exact long)] at received
    cases received
  have parts := parts_of_safe same terminated
  have filler : Filler (List.replicate (1999 - d.length) 'x') := fun c member =>
    List.eq_of_mem_replicate member
  refine ⟨terminated, fun ec p start looks => ?_, fun p occurs => ?_⟩
  · obtain ⟨⟨fuel, ran⟩, _⟩ := parts 'x'
    obtain ⟨es, fuel, count, ran⟩ := scan_reaches filler ran start
    subst count
    have line := (line_of_scan filler looks ran).1
    rw [List.length_replicate] at line
    have room : p.length + (2000 - d.length) = p.length + 1 + (1999 - d.length) := by omega
    rwa [room]
  · exact target_whole (fun c _ => (parts c).2) occurs

/-- A datagram is handled within the buffer, and without a trace of earlier ones, exactly
    when it fits. -/
theorem datagram_safe_iff (d : Text) : DatagramSafe d ↔ Fits d :=
  ⟨fits_of_safe, safe_of_fits⟩

/-- A datagram of the size of the buffer has no place for the terminator; a line or a
    target that ends early is completed from the old bytes. -/
theorem datagram_not_safe : ¬ DatagramSafe (List.replicate 2000 'x') ∧
    ¬ DatagramSafe "SEC|SEC0001|BID".toList ∧ ¬ DatagramSafe "TARGET:SEC00".toList := by
  refine ⟨fun safe => ?_, fun safe => ?_, fun safe => ?_⟩
  · have terminated := (fits_of_safe safe).terminated
    rw [List.length_replicate] at terminated
    exact absurd terminated (by decide)
  · have line := (fits_of_safe safe).lines _ _ .first ⟨by decide, 'S', rfl, by decide⟩
    exact absurd (line.entry (by decide)).1 (by decide)
  · exact absurd ((fits_of_safe safe).target _ rfl) (by decide)

theorem safe_turn (safe : DatagramSafe d) (traderName : Text) (s : Client) :
    ∃ outcome, ∀ stale : Text, stale.length = 2000 →
      (receive stale d >>= handleDatagram traderName s) = outcome := by
  obtain ⟨parsed, same⟩ := safe
  refine ⟨answerParsed traderName s parsed, fun stale buffer => ?_⟩
  have whole := funext (handle_datagram_parsed traderName s)
  rw [whole, ← bind_assoc, same stale buffer]
  rfl

end Safety
end FinalProject
