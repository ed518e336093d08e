import TradingSystems.Library.Fields

/- The feed parser. It reads line by line, and every line has a stream of its own. -/
namespace Phase3
open Decimal Extraction Fields Binary64

inductive FeedType where
  | bid
  | ask
  | execution
  | unknown
  deriving DecidableEq, Repr

structure FeedEvent where
  type : FeedType
  price : ℚ
  quantity : Int
  orderId : Int
  deriving DecidableEq, Repr

/-- The calls of std::getline until one fails, with the characters of the current line: what
    stands behind the last newline is a line unless it is empty. -/
def getLinesFrom (line : Text) : Text → List Text
  | [] => if line = [] then [] else [line]
  | c :: t => if c = '\n' then line :: getLinesFrom [] t else getLinesFrom (line ++ [c]) t

def getLines (text : Text) : List Text := getLinesFrom [] text

def extractPair {α : Type} (extract : IStream → Option α × IStream) (iss : IStream) :
    Option (α × Int) :=
  let (x, iss) := extract iss
  let (n, iss) := extractInt iss
  match x, n with
  | some x, some n => if iss.fail then none else some (x, n)
  | _, _ => none

structure LoadedFeed where
  events : List FeedEvent
  cerr : List String

def LoadedFeed.pushBack (f : LoadedFeed) (event : Option FeedEvent) : LoadedFeed :=
  { f with events := f.events ++ event.toList }

/-- The body of the loop. -/
def LoadedFeed.line (f : LoadedFeed) (line : Text) : LoadedFeed :=
  if line.isEmpty || line.head? = some '#' then f
  else
    let (word, iss) := extractWord (.ofText line)
    let type := String.ofList (word.getD [])
    if type = "BID" then
      f.pushBack ((extractPair extractDouble iss).map fun (price, qty) =>
        ⟨.bid, binary64 price, qty, -1⟩)
    else if type = "ASK" then
      f.pushBack ((extractPair extractDouble iss).map fun (price, qty) =>
        ⟨.ask, binary64 price, qty, -1⟩)
    else if type = "EXECUTION" then
      f.pushBack ((extractPair extractInt iss).map fun (orderId, filled) =>
        ⟨.execution, 0, filled, orderId⟩)
    else { f with cerr := f.cerr ++ ["Unknown event type: " ++ String.ofList line ++ "\n"] }

def loadFeed (filename : String) (file : Option Text) : LoadedFeed :=
  match file with
  | none => ⟨[], ["Error: could not open file " ++ filename ++ "\n"]⟩
  | some text => (getLines text).foldl LoadedFeed.line ⟨[], []⟩

def pairOf {α : Type} (extract : IStream → Option α × IStream) (t : Text) : Option (α × Int) :=
  (field extract t).bind fun (x, t) => (field extractInt t).map fun (n, _) => (x, n)

def lineEvent (line : Text) : Option FeedEvent :=
  if line.head? = some '#' then none
  else (field extractWord line).bind fun (word, rest) =>
    if String.ofList word = "BID" then
      (pairOf extractDouble rest).map fun (price, qty) => ⟨.bid, binary64 price, qty, -1⟩
    else if String.ofList word = "ASK" then
      (pairOf extractDouble rest).map fun (price, qty) => ⟨.ask, binary64 price, qty, -1⟩
    else if String.ofList word = "EXECUTION" then
      (pairOf extractInt rest).map fun (orderId, filled) => ⟨.execution, 0, filled, orderId⟩
    else none

section Lines
variable {α : Type} {scan : Text → Scanned α} {t line blanks : Text}

theorem extract_pair_stopped (scan : Text → Scanned α) (t : Text) :
    extractPair (extracted scan) (.stopped t false) = pairOf (extracted scan) t := by
  unfold extractPair pairOf
  cases read : field (extracted scan) t with
  | none =>
    have failed := stopped_none read
    generalize extracted scan (.stopped t false) = r at failed ⊢
    obtain ⟨x, s⟩ := r
    have stuck : extractInt s = (none, s) := by
      rw [extractInt, sentry_failed failed]
    simp only [stuck, Option.bind_none]
  | some found =>
    obtain ⟨x, rest⟩ := found
    rw [stopped_some read, Option.bind_some, extract_int_eq]
    dsimp only
    cases second : field (extracted scanInt) rest with
    | none =>
      have failed := stopped_none second
      generalize extracted scanInt (.stopped rest false) = r at failed ⊢
      obtain ⟨n, s⟩ := r
      cases n with
      | none => rfl
      | some n => exact if_pos failed
    | some found =>
      rw [stopped_some second]
      rfl

theorem pair_padded (stops : Stops scan) (blank : Blank blanks) (t : Text) :
    pairOf (extracted scan) (t ++ blanks) = pairOf (extracted scan) t := by
  rw [pairOf, pairOf, field_padded stops blank, Option.bind_map]
  congr
  funext ⟨x, rest⟩
  simp only [Function.comp_apply]
  rw [extract_int_eq, field_padded int_stops blank, Option.map_map]
  rfl

theorem line_event_padded (blank : Blank blanks) (line : Text) :
    lineEvent (line ++ blanks) = lineEvent line := by
  have word : field extractWord (line ++ blanks) =
      (field extractWord line).map fun (word, rest) => (word, rest ++ blanks) := by
    rw [extract_word_eq]
    exact field_padded word_stops blank line
  unfold lineEvent
  rw [word]
  cases line with
  | nil =>
    have blank_word : field extractWord [] = none := by
      rw [extract_word_eq]
      exact field_blank rfl
    simp [blank_word]
  | cons c line =>
    rw [List.cons_append, List.head?_cons, List.head?_cons, Option.bind_map]
    split_ifs
    · rfl
    · congr
      funext ⟨word, rest⟩
      simp only [Function.comp_apply, extract_double_eq, extract_int_eq,
        pair_padded double_stops blank, pair_padded int_stops blank]

theorem line_pushes (f : LoadedFeed) (line : Text) :
    (f.line line).events = f.events ++ (lineEvent line).toList := by
  unfold LoadedFeed.line lineEvent
  cases line with
  | nil =>
    rw [extract_word_eq, field_blank rfl]
    simp
  | cons c line =>
    by_cases comment : c = '#'
    · simp [comment]
    have stream : IStream.ofText (c :: line) = .stopped (c :: line) false := rfl
    simp only [List.isEmpty_cons, List.head?_cons, Option.some.injEq, comment, decide_false,
      Bool.or_self, Bool.false_eq_true, ↓reduceIte]
    cases read : field (extracted scanWord) (c :: line) with
    | none =>
      have failed := stopped_none read
      rw [← extract_word_eq, ← stream] at failed
      have no_word := extract_word_none_iff.mpr failed
      rw [extract_word_eq, read, ← extract_word_eq, no_word]
      simp
    | some found =>
      obtain ⟨word, rest⟩ := found
      rw [stream, extract_word_eq, stopped_some read, read, Option.bind_some]
      simp only [Option.getD_some, extract_double_eq, extract_int_eq, extract_pair_stopped]
      split_ifs <;> simp [LoadedFeed.pushBack]

theorem lines_push (f : LoadedFeed) (lines : List Text) :
    (lines.foldl LoadedFeed.line f).events = f.events ++ lines.filterMap lineEvent := by
  induction lines generalizing f with
  | nil => simp
  | cons line lines ih =>
    rw [List.foldl_cons, ih, line_pushes, List.append_assoc]
    cases read : lineEvent line <;> simp [read]

end Lines

section Texts
variable {ls padded : List Text} {line text last last' : Text}

def unlines (ls : List Text) : Text := ls.flatMap (· ++ ['\n'])

theorem unlines_cons (l : Text) (ls : List Text) :
    unlines (l :: ls) = l ++ '\n' :: unlines ls := by
  simp [unlines]

/-- Blanks behind a line, but no newline. -/
def Trailing (line line' : Text) : Prop :=
  ∃ blanks, Blank blanks ∧ '\n' ∉ blanks ∧ line' = line ++ blanks

theorem get_lines_from (line : Text) {more : Text} (whole : '\n' ∉ more) (text : Text) :
    getLinesFrom line (more ++ '\n' :: text) = (line ++ more) :: getLines text := by
  induction more generalizing line with
  | nil => simp [getLinesFrom, getLines]
  | cons c more ih =>
    rw [List.mem_cons, not_or] at whole
    rw [List.cons_append, getLinesFrom, if_neg (Ne.symm whole.1), ih _ whole.2,
      List.append_assoc]
    rfl

theorem get_lines_last (line : Text) (whole : '\n' ∉ last) :
    getLinesFrom line last = if line ++ last = [] then [] else [line ++ last] := by
  induction last generalizing line with
  | nil => simp [getLinesFrom]
  | cons c last ih =>
    rw [List.mem_cons, not_or] at whole
    rw [getLinesFrom, if_neg (Ne.symm whole.1), ih _ whole.2, List.append_assoc]
    rfl

theorem get_lines_unlines (whole : ∀ l ∈ ls, '\n' ∉ l) (text : Text) :
    getLines (unlines ls ++ text) = ls ++ getLines text := by
  induction ls with
  | nil => rfl
  | cons l ls ih =>
    rw [unlines_cons, List.append_assoc, List.cons_append, getLines,
      get_lines_from [] (whole l (by simp)), ih fun l member => whole l (by simp [member])]
    rfl

theorem text_lines (text : Text) :
    ∃ ls last, text = unlines ls ++ last ∧ (∀ l ∈ ls, '\n' ∉ l) ∧ '\n' ∉ last := by
  induction text with
  | nil => exact ⟨[], [], rfl, by simp, by simp⟩
  | cons c text ih =>
    obtain ⟨ls, last, rfl, whole, open_line⟩ := ih
    by_cases newline : c = '\n'
    · exact ⟨[] :: ls, last, by simp [unlines, newline], by simpa using whole, open_line⟩
    cases ls with
    | nil => exact ⟨[], c :: last, rfl, by simp, by simp [Ne.symm newline, open_line]⟩
    | cons l ls =>
      refine ⟨(c :: l) :: ls, last, by simp [unlines], ?_, open_line⟩
      intro k member
      rcases List.mem_cons.mp member with rfl | later
      · simpa [Ne.symm newline] using whole l (by simp)
      · exact whole k (by simp [later])

/-- Every newline becomes a carriage return and a newline. -/
def crlf (text : Text) : Text := text.flatMap fun c => if c = '\n' then ['\r', '\n'] else [c]

theorem crlf_line (whole : '\n' ∉ line) : crlf line = line := by
  induction line with
  | nil => rfl
  | cons c line ih =>
    rw [List.mem_cons, not_or] at whole
    rw [crlf, List.flatMap_cons, if_neg (Ne.symm whole.1)]
    exact congrArg (c :: ·) (ih whole.2)

theorem crlf_lines (whole : ∀ l ∈ ls, '\n' ∉ l) (open_line : '\n' ∉ last) :
    crlf (unlines ls ++ last) = unlines (ls.map (· ++ ['\r'])) ++ last := by
  induction ls with
  | nil => exact crlf_line open_line
  | cons l ls ih =>
    have rest := ih fun k member => whole k (by simp [member])
    have newline (t : Text) : crlf ('\n' :: t) = '\r' :: '\n' :: crlf t := rfl
    rw [unlines_cons, List.append_assoc, List.cons_append, crlf, List.flatMap_append, ← crlf,
      ← crlf, newline, rest, crlf_line (whole l (by simp)), List.map_cons, unlines_cons]
    simp

theorem skipped_event (line : Text) :
    (if line ≠ [] ∧ line.head? ≠ some '#' then lineEvent line else none) = lineEvent line := by
  split_ifs with kept
  · rfl
  · by_cases empty : line = []
    · subst empty
      rw [lineEvent, extract_word_eq, field_blank rfl]
      rfl
    · have comment : line.head? = some '#' := by
        by_contra other
        exact kept ⟨empty, other⟩
      rw [lineEvent, if_pos comment]

theorem kept_events (ls : List Text) :
    (ls.filter fun l => l ≠ [] ∧ l.head? ≠ some '#').filterMap lineEvent =
      ls.filterMap lineEvent := by
  rw [List.filterMap_filter]
  refine congrArg (List.filterMap · ls) (funext fun line => ?_)
  simpa only [decide_eq_true_eq] using skipped_event line

theorem trailing_events (trailing : List.Forall₂ Trailing ls padded) :
    padded.filterMap lineEvent = ls.filterMap lineEvent := by
  induction trailing with
  | nil => rfl
  | cons first rest ih =>
    obtain ⟨blanks, blank, -, rfl⟩ := first
    rw [List.filterMap_cons, List.filterMap_cons, line_event_padded blank, ih]

theorem Trailing.whole (trailing : Trailing line last) (whole : '\n' ∉ line) : '\n' ∉ last := by
  obtain ⟨blanks, -, none, rfl⟩ := trailing
  rw [List.mem_append, not_or]
  exact ⟨whole, none⟩

theorem trailing_whole (trailing : List.Forall₂ Trailing ls padded) (whole : ∀ l ∈ ls, '\n' ∉ l) :
    ∀ l ∈ padded, '\n' ∉ l := by
  induction trailing with
  | nil => exact whole
  | cons first rest ih =>
    rw [List.forall_mem_cons] at whole ⊢
    exact ⟨first.whole whole.1, ih whole.2⟩

theorem last_event (open_line : '\n' ∉ last) :
    (getLines last).filterMap lineEvent = (lineEvent last).toList := by
  rw [getLines, get_lines_last [] open_line, List.nil_append]
  split_ifs with empty
  · rw [empty, lineEvent, extract_word_eq, field_blank rfl]
    rfl
  · cases read : lineEvent last <;> simp [read]

theorem load_lines (filename : String) (text : Text) :
    (loadFeed filename (some text)).events = (getLines text).filterMap lineEvent :=
  lines_push ⟨[], []⟩ (getLines text)

theorem load_padded (filename : String) (whole : ∀ l ∈ ls, '\n' ∉ l) (open_line : '\n' ∉ last)
    (trailing : List.Forall₂ Trailing ls padded) (trailing_last : Trailing last last') :
    (loadFeed filename (some (unlines padded ++ last'))).events =
      (loadFeed filename (some (unlines ls ++ last))).events := by
  rw [load_lines, load_lines, get_lines_unlines (trailing_whole trailing whole),
    get_lines_unlines whole, List.filterMap_append, List.filterMap_append,
    trailing_events trailing, last_event open_line,
    last_event (trailing_last.whole open_line)]
  obtain ⟨blanks, blank, -, rfl⟩ := trailing_last
  rw [line_event_padded blank]

theorem load_crlf (filename : String) (text : Text) :
    (loadFeed filename (some (crlf text))).events = (loadFeed filename (some text)).events := by
  obtain ⟨ls, last, rfl, whole, open_line⟩ := text_lines text
  have returned : List.Forall₂ Trailing ls (ls.map (· ++ ['\r'])) := by
    rw [List.forall₂_map_right_iff]
    exact List.forall₂_same.mpr fun l _ => ⟨['\r'], blank_of_all (by decide), by decide, rfl⟩
  rw [crlf_lines whole open_line]
  exact load_padded filename whole open_line returned ⟨[], by simp [Blank], by simp, by simp⟩

/-- The events of a text are those of its lines, one by one. So they do not depend on comments,
    on empty lines, on blanks behind a line or on the way in which lines end. -/
theorem feed_line_local (filename : String) (text : Text) (whole : ∀ l ∈ ls, '\n' ∉ l)
    (open_line : '\n' ∉ last) (trailing : List.Forall₂ Trailing ls padded)
    (trailing_last : Trailing last last') :
    let events (text : Text) := (loadFeed filename (some text)).events
    events text = (getLines text).filterMap lineEvent ∧
    getLines (unlines ls ++ text) = ls ++ getLines text ∧
    events (unlines ls ++ text) = events (unlines ls) ++ events text ∧
    events (unlines (ls.filter fun l => l ≠ [] ∧ l.head? ≠ some '#') ++ text) =
      events (unlines ls ++ text) ∧
    events (unlines padded ++ last') = events (unlines ls ++ last) ∧
    events (crlf text) = events text := by
  intro events
  have lines := get_lines_unlines whole
  have alone : getLines (unlines ls) = ls := by
    have nothing := lines []
    have none : getLines [] = [] := rfl
    rwa [none, List.append_nil, List.append_nil] at nothing
  have kept : ∀ l ∈ ls.filter fun l => l ≠ [] ∧ l.head? ≠ some '#', '\n' ∉ l :=
    fun l member => whole l (List.mem_of_mem_filter member)
  refine ⟨load_lines filename text, lines text, ?_, ?_,
    load_padded filename whole open_line trailing trailing_last, load_crlf filename text⟩
  · simp only [events, load_lines, lines, alone, List.filterMap_append]
  · simp only [events, load_lines, lines, get_lines_unlines kept, List.filterMap_append,
      kept_events]

theorem feed_line_local_padded :
    (loadFeed "feed" (some "BID 101 5 \t\n# none\nASK 7 1\r".toList)).events =
      (loadFeed "feed" (some "BID 101 5\n# none\nASK 7 1".toList)).events := by
  have trailing : List.Forall₂ Trailing ["BID 101 5".toList, "# none".toList]
      ["BID 101 5 \t".toList, "# none".toList] :=
    .cons ⟨" \t".toList, blank_of_all (by decide), by decide, by decide⟩
      (.cons ⟨[], by simp [Blank], by decide, by decide⟩ .nil)
  have trailing_last : Trailing "ASK 7 1".toList "ASK 7 1\r".toList :=
    ⟨"\r".toList, blank_of_all (by decide), by decide, by decide⟩
  exact (feed_line_local "feed" [] (by decide) (by decide) trailing trailing_last).2.2.2.2.1

end Texts
end Phase3
