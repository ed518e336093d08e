import TradingSystems.FinalProject.Winner

/- Lines with a field missing. The chain of extractions is never checked, so such a
   line counts with whatever its variables hold: what was read, a zero in place of a
   number that is none, and what was there before behind that. -/
namespace FinalProject
open Decimal Extraction

/-- What the chain assigns; `none` where a variable keeps what it held. -/
structure Assigned where
  header : Option Text
  challengeId : Option Int
  ticker : Option Text
  submittedBid : Option ℚ
  submittedAsk : Option ℚ
  clientName : Option Text

def assigned (msg : Text) : Assigned × IStream :=
  let (header, iss) := extractWord (.ofText msg)
  let (challengeId, iss) := extractInt iss
  let (ticker, iss) := extractWord iss
  let (submittedBid, iss) := extractDouble iss
  let (submittedAsk, iss) := extractDouble iss
  let (clientName, iss) := extractWord iss
  (⟨header, challengeId, ticker, submittedBid, submittedAsk, clientName⟩, iss)

structure Malformed (line : Text) : Prop where
  header : (assigned line).1.header = some responseHeader
  incomplete : (assigned line).2.fail = true

structure AnswersSoFar (current : Challenge) (a : Assigned) : Prop where
  challengeId : ∀ id ∈ a.challengeId, id = current.challengeId
  ticker : a.ticker.getD [] = current.targetTicker
  prices : ∃ expectedBid expectedAsk,
    current.marketData.lookup current.targetTicker = some (expectedBid, expectedAsk) ∧
      (∀ bid ∈ a.submittedBid, WithinTol bid expectedBid) ∧
      ∀ ask ∈ a.submittedAsk, WithinTol ask expectedAsk

section Lines
variable {current : Challenge} {line : Text}

theorem fields_assigned (junk : Indeterminate) (line : Text) : (extractFields junk line).1 =
    ⟨(assigned line).1.header.getD [], (assigned line).1.challengeId.getD junk.challengeId,
      (assigned line).1.ticker.getD [], (assigned line).1.submittedBid.getD junk.submittedBid,
      (assigned line).1.submittedAsk.getD junk.submittedAsk,
      (assigned line).1.clientName.getD []⟩ := by
  simp only [extractFields, assigned]

theorem Malformed.nameless (malformed : Malformed line) : (assigned line).1.clientName = none :=
  extract_word_none_iff.mpr malformed.incomplete

theorem answers_iff_so_far (header : (assigned line).1.header = some responseHeader) :
    (∃ junk, Answers current (extractFields junk line).1) ↔
      AnswersSoFar current (assigned line).1 := by
  constructor
  · intro answered
    obtain ⟨junk, _, id, ticker, bid, ask, found, bid_near, ask_near⟩ := answered
    simp only [fields_assigned] at id ticker found bid_near ask_near
    refine ⟨?_, ticker, bid, ask, ticker ▸ found, ?_, ?_⟩
    · intro n assigned
      rw [assigned] at id
      exact id
    · intro b assigned
      rw [assigned] at bid_near
      exact bid_near
    · intro a assigned
      rw [assigned] at ask_near
      exact ask_near
  · intro so_far
    obtain ⟨id, ticker, bid, ask, found, bid_near, ask_near⟩ := so_far
    refine ⟨⟨current.challengeId, bid, ask⟩, ?_, ?_, ?_, bid, ask, ?_, ?_, ?_⟩
    · rw [fields_assigned, header]
      rfl
    · rw [fields_assigned]
      cases assigned : (assigned line).1.challengeId with
      | none => rfl
      | some n => exact id n assigned
    · rw [fields_assigned]
      exact ticker
    · rw [fields_assigned]
      exact ticker.symm ▸ found
    · rw [fields_assigned]
      cases assigned : (assigned line).1.submittedBid with
      | none => exact within_tol_self bid
      | some b => exact bid_near b assigned
    · rw [fields_assigned]
      cases assigned : (assigned line).1.submittedAsk with
      | none => exact within_tol_self ask
      | some a => exact ask_near a assigned

theorem process_unchanged_iff (junk : Indeterminate) :
    (processOrder junk current line).1 = current ↔
      current.winnerDeclared = true ∨ ¬ Answers current (extractFields junk line).1 := by
  rcases process_cases junk current line with ⟨right, unwon, after⟩ | ⟨wrong, after⟩
  · rw [after]
    constructor
    · intro same
      have declared := congrArg Challenge.winnerDeclared same
      rw [unwon] at declared
      cases declared
    · intro rejected
      rcases rejected with won | wrong
      · rw [unwon] at won
        cases won
      · exact absurd right wrong
  · simp only [after, true_iff]
    by_cases right : Answers current (extractFields junk line).1
    · have won : current.winnerDeclared ≠ false := fun unwon => wrong ⟨right, unwon⟩
      exact Or.inl (by simpa using won)
    · exact Or.inr right

theorem Malformed.accepted (malformed : Malformed line) (junk : Indeterminate) :
    (processOrder junk current line).1 = current ∨ (processOrder junk current line).1 =
      { current with winnerDeclared := true, winnerName := [] } := by
  have name : (extractFields junk line).1.clientName = [] := by
    rw [fields_assigned, malformed.nameless]
    rfl
  rcases process_cases junk current line with ⟨_, _, after⟩ | ⟨_, after⟩
  · rw [name] at after
    exact Or.inr after
  · exact Or.inl after

/-- A malformed line is rejected, whatever the locals held, exactly when somebody has won
    already or what was assigned stands against the answer. -/
theorem malformed_rejected_iff (malformed : Malformed line) :
    (∀ junk, (processOrder junk current line).1 = current) ↔
      current.winnerDeclared = true ∨ ¬ AnswersSoFar current (assigned line).1 := by
  rw [← answers_iff_so_far malformed.header]
  constructor
  · intro rejected
    by_cases won : current.winnerDeclared = true
    · exact Or.inl won
    · refine Or.inr ?_
      intro answered
      obtain ⟨junk, right⟩ := answered
      rcases (process_unchanged_iff junk).mp (rejected junk) with same | wrong
      · exact won same
      · exact wrong right
  · intro apart junk
    apply (process_unchanged_iff junk).mpr
    rcases apart with won | wrong
    · exact Or.inl won
    · exact Or.inr fun right => wrong ⟨junk, right⟩

theorem malformed_rejected_iff_word :
    Malformed "CHALLENGE_RESPONSE 1 SEC0001 ten 11 ann".toList ∧
      ∀ junk, (processOrder junk (generateChallenge 1 flatDraws)
        "CHALLENGE_RESPONSE 1 SEC0001 ten 11 ann".toList).1 = generateChallenge 1 flatDraws := by
  have malformed : Malformed "CHALLENGE_RESPONSE 1 SEC0001 ten 11 ann".toList :=
    ⟨by decide +kernel, by decide +kernel⟩
  refine ⟨malformed, (malformed_rejected_iff malformed).mpr (Or.inr fun so_far => ?_)⟩
  obtain ⟨bid, ask, found, bid_near, _⟩ := so_far.prices
  have prices : (generateChallenge 1 flatDraws).marketData.lookup
      (generateChallenge 1 flatDraws).targetTicker = some (10, 11) := by decide +kernel
  rw [prices] at found
  cases found
  have zero := bid_near 0 (by decide +kernel)
  revert zero
  decide +kernel

theorem malformed_accepted :
    (Malformed "CHALLENGE_RESPONSE 1 SEC0001 10 11".toList ∧
      ¬ ∀ junk, (processOrder junk (generateChallenge 1 flatDraws)
        "CHALLENGE_RESPONSE 1 SEC0001 10 11".toList).1 = generateChallenge 1 flatDraws) ∧
    Malformed "CHALLENGE_RESPONSE 1 SEC0001".toList ∧
      ¬ ∀ junk, (processOrder junk (generateChallenge 1 flatDraws)
        "CHALLENGE_RESPONSE 1 SEC0001".toList).1 = generateChallenge 1 flatDraws := by
  have won (junk : Indeterminate) (line : Text) (declared :
      (processOrder junk (generateChallenge 1 flatDraws) line).1.winnerDeclared = true) :
      ¬ ∀ junk, (processOrder junk (generateChallenge 1 flatDraws) line).1 =
        generateChallenge 1 flatDraws := by
    intro rejected
    rw [rejected junk] at declared
    cases declared
  refine ⟨⟨⟨by decide +kernel, by decide +kernel⟩, ?_⟩, ⟨by decide +kernel, by decide +kernel⟩, ?_⟩
  · exact won ⟨0, 0, 0⟩ _ (by decide +kernel)
  · exact won ⟨0, 10, 11⟩ _ (by decide +kernel)

end Lines
end FinalProject
