import TradingSystems.FinalProject.Client
import TradingSystems.Library.Numerals

/- The answer from the formatter of the client to the extraction of the server. The
   fields are separated by single blanks, so a field must not have one, and the line
   must fit into the output array with its terminator. -/
namespace FinalProject
open Decimal Formats Extraction

def answerFields (challengeId : Int) (ticker : Text) (bid ask : ℚ) (traderName : Text) : Text :=
  responseHeader ++ ' ' :: (showInt challengeId ++ ' ' :: (ticker ++
    ' ' :: (showFixed 6 bid ++ ' ' :: (showFixed 6 ask ++ ' ' :: traderName))))

/-- What the client sends is one line that ends within the output array, and the server
    splits it into the same fields, the prices to six decimals, whatever its numeric
    locals held. -/
def Delivered (challengeId : Int) (ticker : Text) (bid ask : ℚ) (traderName : Text) : Prop :=
  ∃ line, sendAnswer (answerLine challengeId ticker bid ask traderName) = line ++ ['\n'] ∧
    '\n' ∉ line ∧ (line ++ ['\n']).length ≤ 128 ∧
    ∀ junk, ∃ submittedBid submittedAsk, (extractFields junk line).1 =
        ⟨responseHeader, challengeId, ticker, submittedBid, submittedAsk, traderName⟩ ∧
      |submittedBid - bid| ≤ 1 / 2 / 10 ^ 6 ∧ |submittedAsk - ask| ≤ 1 / 2 / 10 ^ 6

section Words
variable {word rest : Text}

theorem one_blank : ∀ b ∈ [' '], isSpace b = true := by simp [isSpace]

theorem visible_of_all (all : (word.all fun ch => !isSpace ch) = true) :
    ∀ ch ∈ word, isSpace ch = false := by simpa using all

theorem ends_blank : Ends (' ' :: rest) := by
  intro ch first
  cases first
  rfl

theorem blank_word (some_char : word ≠ []) (visible : ∀ ch ∈ word, isSpace ch = false)
    (ends : Ends rest) : extractWord (.stopped (' ' :: (word ++ rest)) false) =
      (some word, .stopped rest false) := by
  exact extract_word one_blank some_char visible ends

theorem blank_int {n : Int} (range : CString.InInt n) (ends : Ends rest) :
    extractInt (.stopped (' ' :: (showInt n ++ rest)) false) =
      (some n, .stopped rest false) := by
  exact extract_show_int one_blank range ends

theorem blank_fixed {q : ℚ} (short : (showFixed 6 q).length ≤ 300) (ends : Ends rest) :
    extractDouble (.stopped (' ' :: (showFixed 6 q ++ rest)) false) =
      (some (shownFixed 6 q), .stopped rest false) := by
  exact extract_show_fixed (by decide) one_blank short ends

theorem extracted_word_visible (s : IStream) :
    ∀ ch ∈ (extractWord s).1.getD [], isSpace ch = false := by
  intro ch member
  unfold extractWord at member
  cases read : s.sentry with
  | error after =>
    rw [read] at member
    cases member
  | ok t =>
    rw [read] at member
    have visible := List.mem_takeWhile_imp member
    simpa using visible

theorem last_word (visible : ∀ ch ∈ word, isSpace ch = false) :
    (extractWord (.stopped (' ' :: word) false)).1.getD [] = word := by
  rcases eq_or_ne word [] with none | some_char
  · subst none
    rfl
  · have ends : Ends [] := by simp [Ends]
    have read := blank_word some_char visible ends
    rw [List.append_nil] at read
    rw [read]
    rfl

end Words

section Lines
variable {challengeId : Int} {ticker traderName : Text} {bid ask : ℚ}

theorem answer_line_fields : answerLine challengeId ticker bid ask traderName =
    answerFields challengeId ticker bid ask traderName ++ ['\n'] := by
  have header : "CHALLENGE_RESPONSE ".toList = responseHeader ++ [' '] := by decide
  unfold answerLine answerFields
  rw [header]
  simp only [List.append_assoc, List.cons_append, List.nil_append]

theorem answer_line_length (challengeId : Int) (bid ask : ℚ) (traderName : Text)
    (seven : ticker.length = 7) :
    (answerLine challengeId ticker bid ask traderName).length =
      31 + (showInt challengeId).length + (showFixed 6 bid).length + (showFixed 6 ask).length +
        traderName.length := by
  have header : "CHALLENGE_RESPONSE ".toList.length = 19 := rfl
  unfold answerLine
  simp only [List.length_append, List.length_cons, List.length_nil, header, seven]
  omega

theorem extract_answer_fields (range : CString.InInt challengeId) (named : ticker ≠ [])
    (shown : ∀ ch ∈ ticker, isSpace ch = false) (bid_short : (showFixed 6 bid).length ≤ 300)
    (ask_short : (showFixed 6 ask).length ≤ 300) (traderName : Text) (junk : Indeterminate) :
    extractFields junk (answerFields challengeId ticker bid ask traderName) =
      (⟨responseHeader, challengeId, ticker, shownFixed 6 bid, shownFixed 6 ask,
        (extractWord (.stopped (' ' :: traderName) false)).1.getD []⟩,
        (extractWord (.stopped (' ' :: traderName) false)).2) := by
  have header (rest : Text) (ends : Ends rest) :
      extractWord (.ofText (responseHeader ++ rest)) =
        (some responseHeader, .stopped rest false) := by
    have unblanked : ∀ b ∈ ([] : Text), isSpace b = true := by simp
    exact extract_word unblanked (by decide) (visible_of_all (by decide)) ends
  unfold answerFields
  simp only [extractFields, header _ ends_blank, blank_int range ends_blank,
    blank_word named shown ends_blank, blank_fixed bid_short ends_blank,
    blank_fixed ask_short ends_blank, Option.getD_some]

theorem show_fixed_one_line (q : ℚ) : '\n' ∉ showFixed 6 q := by
  obtain ⟨n, printed, text, _⟩ := show_fixed_numeral (show 0 < 6 by decide) q
  rw [text]
  intro member
  rcases printed.chars _ member with digit | sign
  · cases digit
  · revert sign
    decide

theorem show_int_one_line (n : Int) : '\n' ∉ showInt n := by
  intro member
  rcases CString.show_int_chars _ member with minus | digit
  · cases minus
  · cases digit

theorem answer_fields_one_line (shown : ∀ ch ∈ ticker, isSpace ch = false)
    (one_word : ∀ ch ∈ traderName, isSpace ch = false) :
    '\n' ∉ answerFields challengeId ticker bid ask traderName := by
  have absent {word : Text} (visible : ∀ ch ∈ word, isSpace ch = false) : '\n' ∉ word :=
    fun member => by cases visible _ member
  have header : '\n' ∉ responseHeader := by decide
  unfold answerFields
  simp [header, show_int_one_line, show_fixed_one_line, absent shown, absent one_word]

end Lines

section Delivery
variable {challengeId : Int} {ticker traderName : Text} {bid ask : ℚ}

theorem Delivered.short (sent : Delivered challengeId ticker bid ask traderName) :
    (answerLine challengeId ticker bid ask traderName).length < 128 := by
  obtain ⟨line, same, _⟩ := sent
  unfold sendAnswer at same
  split at same
  · assumption
  · exact absurd (List.append_inj_right' same rfl) (by decide)

theorem Delivered.one_word (sent : Delivered challengeId ticker bid ask traderName) :
    ∀ ch ∈ traderName, isSpace ch = false := by
  obtain ⟨line, _, _, _, split⟩ := sent
  obtain ⟨b, a, fields, _⟩ := split ⟨0, 0, 0⟩
  have name := congrArg Fields.clientName fields
  dsimp only [extractFields] at name
  rw [← name]
  exact extracted_word_visible _

theorem delivered_of_short (range : CString.InInt challengeId) (seven : ticker.length = 7)
    (shown : ∀ ch ∈ ticker, isSpace ch = false)
    (one_word : ∀ ch ∈ traderName, isSpace ch = false)
    (short : (answerLine challengeId ticker bid ask traderName).length < 128) :
    Delivered challengeId ticker bid ask traderName := by
  have named : ticker ≠ [] := by
    intro none
    simp [none] at seven
  have parts := answer_line_length challengeId bid ask traderName seven
  refine ⟨answerFields challengeId ticker bid ask traderName, ?_,
    answer_fields_one_line shown one_word, ?_, fun junk => ?_⟩
  · rw [sendAnswer, if_pos short, answer_line_fields]
  · rw [← answer_line_fields]
    omega
  · rw [extract_answer_fields range named shown (by omega) (by omega), last_word one_word]
    exact ⟨_, _, rfl, shown_fixed_near 6 bid, shown_fixed_near 6 ask⟩

/-- The answer arrives as it was meant exactly when the name is one word and the fields
    leave room for the terminator. -/
theorem answer_delivered_iff (range : CString.InInt challengeId) (seven : ticker.length = 7)
    (shown : ∀ ch ∈ ticker, isSpace ch = false) :
    Delivered challengeId ticker bid ask traderName ↔
      (∀ ch ∈ traderName, isSpace ch = false) ∧
        31 + (showInt challengeId).length + (showFixed 6 bid).length +
          (showFixed 6 ask).length + traderName.length < 128 := by
  rw [← answer_line_length challengeId bid ask traderName seven]
  constructor
  · intro sent
    exact ⟨sent.one_word, sent.short⟩
  · intro fits
    exact delivered_of_short range seven shown fits.1 fits.2

theorem answer_delivered_iff_ann : Delivered 1 "SEC0001".toList (21 / 2) 11 "ann".toList := by
  apply (answer_delivered_iff (by decide) (by decide) (visible_of_all (by decide))).mpr
  exact ⟨visible_of_all (by decide), by decide +kernel⟩

theorem answer_not_delivered : ¬ Delivered 1 "SEC0001".toList (21 / 2) 11 "Bob Smith".toList ∧
    ¬ Delivered 1 "SEC0001".toList (21 / 2) 11 (List.replicate 80 'x') := by
  constructor
  · intro sent
    exact absurd (sent.one_word ' ' (by decide)) (by decide)
  · intro sent
    exact absurd sent.short (by decide +kernel)

end Delivery
end FinalProject
