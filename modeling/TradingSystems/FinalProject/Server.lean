import TradingSystems.Library.Extraction
import TradingSystems.Library.Runs

/- The challenge server. The broadcast thread generates a challenge and installs it
   in a later critical section; sessions process the lines of their clients, each
   under the same lock. Prices are kept as they were drawn or read, and become doubles
   where they are compared. Signed overflow of the challenge counter is undefined, so no
   challenge follows the largest identifier. -/
namespace FinalProject
open Decimal Extraction Runs Binary64

structure Challenge where
  challengeId : Int
  targetTicker : Text
  marketData : List (Text × ℚ × ℚ)
  winnerDeclared : Bool
  winnerName : Text

def Challenge.initial : Challenge := ⟨0, [], [], false, []⟩

structure Draws where
  bid : Fin 10 → ℚ
  inc : Fin 10 → ℚ
  tickerIndex : Fin 10

def security (i : Nat) : Text := "SEC".toList ++ padded 4 i

def generateChallenge (id : Int) (d : Draws) : Challenge where
  challengeId := id
  targetTicker := security (d.tickerIndex.val + 1)
  marketData := (List.finRange 10).map fun i =>
    (security (i.val + 1), d.bid i, d.bid i + d.inc i)
  winnerDeclared := false
  winnerName := []

structure Fields where
  header : Text
  challengeId : Int
  ticker : Text
  submittedBid : ℚ
  submittedAsk : ℚ
  clientName : Text

structure Indeterminate where
  challengeId : Int
  submittedBid : ℚ
  submittedAsk : ℚ

def extractFields (junk : Indeterminate) (msg : Text) : Fields × IStream :=
  let (header, iss) := extractWord (.ofText msg)
  let (challengeId, iss) := extractInt iss
  let (ticker, iss) := extractWord iss
  let (submittedBid, iss) := extractDouble iss
  let (submittedAsk, iss) := extractDouble iss
  let (clientName, iss) := extractWord iss
  (⟨header.getD [], challengeId.getD junk.challengeId, ticker.getD [],
    submittedBid.getD junk.submittedBid, submittedAsk.getD junk.submittedAsk,
    clientName.getD []⟩, iss)

def responseHeader : Text := "CHALLENGE_RESPONSE".toList

def tol : ℚ := 1 / 1000

/-- `std::abs(submitted - expected) <= tol` for doubles. -/
def WithinTol (submitted expected : ℚ) : Prop :=
  |binary64 (binary64 submitted - binary64 expected)| ≤ binary64 tol

instance (submitted expected : ℚ) : Decidable (WithinTol submitted expected) :=
  inferInstanceAs (Decidable (_ ≤ _))

def checkSubmission (current : Challenge) (f : Fields) : Challenge :=
  if current.challengeId = f.challengeId ∧ current.winnerDeclared = false then
    if current.targetTicker = f.ticker then
      match current.marketData.lookup f.ticker with
      | some (expectedBid, expectedAsk) =>
        if WithinTol f.submittedBid expectedBid ∧ WithinTol f.submittedAsk expectedAsk then
          if current.winnerDeclared = false then
            { current with winnerDeclared := true, winnerName := f.clientName }
          else current
        else current
      | none => current
    else current
  else current

def reply (correct : Bool) (clientName : Text) : Text :=
  if correct then "WINNER ".toList ++ clientName ++ ['\n'] else "INCORRECT\n".toList

/-- `process_order`: the challenge it leaves and what it sends back, if anything.
    The flag that the reply is built from is never assigned. -/
def processOrder (junk : Indeterminate) (current : Challenge) (msg : Text) :
    Challenge × Option Text :=
  let f := (extractFields junk msg).1
  if f.header ≠ responseHeader then (current, none)
  else
    let correct := false
    (checkSubmission current f, some (reply correct f.clientName))

structure Answers (current : Challenge) (f : Fields) : Prop where
  header : f.header = responseHeader
  challengeId : f.challengeId = current.challengeId
  ticker : f.ticker = current.targetTicker
  prices : ∃ expectedBid expectedAsk,
    current.marketData.lookup f.ticker = some (expectedBid, expectedAsk) ∧
      WithinTol f.submittedBid expectedBid ∧ WithinTol f.submittedAsk expectedAsk

section Tolerance
variable {submitted expected : ℚ}

theorem within_tol_self (price : ℚ) : WithinTol price price := by
  unfold WithinTol
  rw [sub_self, binary64_zero, abs_zero]
  exact binary64_nonneg (by norm_num [tol])

theorem within_tol_of_near (near : |submitted - expected| ≤ 1 / 2000) (low : 1 ≤ expected)
    (high : expected < 1000) : WithinTol submitted expected := by
  have price : |expected| < 1000 := abs_lt.mpr ⟨by linarith, high⟩
  have size : |submitted| ≤ 1001 := by
    have apart := abs_sub_abs_le_abs_sub submitted expected
    linarith
  have first := abs_le.mp (binary64_close submitted)
  have second := abs_le.mp (binary64_close expected)
  have exactly := abs_le.mp near
  have apart : |binary64 submitted - binary64 expected| ≤ 6 / 10000 :=
    abs_le.mpr ⟨by linarith, by linarith⟩
  have third := abs_le.mp (binary64_close (binary64 submitted - binary64 expected))
  have limits := abs_le.mp apart
  have bound : 9 / 10000 ≤ binary64 tol := by
    have fourth := (abs_le.mp (binary64_close tol)).1
    have value : |tol| = 1 / 1000 := by norm_num [tol]
    rw [value, tol] at fourth
    rw [tol]
    linarith
  exact (abs_le.mpr ⟨by linarith, by linarith⟩ : _ ≤ (9 : ℚ) / 10000).trans bound

-- at the limit the doubles decide, not the numbers
example : ¬ WithinTol (16001 / 1000) 16 ∧ WithinTol (10001 / 1000 + 1 / 10 ^ 16) 10 := by
  decide +kernel

end Tolerance

theorem check_submission_cases {current : Challenge} {f : Fields}
    (header : f.header = responseHeader) :
    (Answers current f ∧ current.winnerDeclared = false ∧ checkSubmission current f =
      { current with winnerDeclared := true, winnerName := f.clientName }) ∨
    (¬ (Answers current f ∧ current.winnerDeclared = false) ∧
      checkSubmission current f = current) := by
  by_cases answers : Answers current f ∧ current.winnerDeclared = false
  · obtain ⟨right, open_challenge⟩ := answers
    obtain ⟨bid, ask, found, near⟩ := right.prices
    refine Or.inl ⟨right, open_challenge, ?_⟩
    simp [checkSubmission, right.challengeId, ← right.ticker, found, near, open_challenge]
  · refine Or.inr ⟨answers, ?_⟩
    unfold checkSubmission
    split
    · rename_i named
      split
      · rename_i target
        split
        · rename_i bid ask found
          split
          · rename_i near
            have right : Answers current f :=
              ⟨header, named.1.symm, target.symm, bid, ask, found, near⟩
            exact absurd ⟨right, named.2⟩ answers
          · rfl
        · rfl
      · rfl
    · rfl

/-- A processed line, the challenge it met, and how many had been installed by then. -/
structure Processed where
  line : Text
  fields : Fields
  met : Challenge
  installed : Nat
  won : Bool

structure Server where
  globalChallengeId : Int
  newChallenge : Option Challenge
  currentChallenge : Challenge
  installed : Nat
  processed : List Processed

inductive Action where
  | generate (d : Draws)
  | install
  | process (junk : Indeterminate) (line : Text)

namespace Server

def create : Server := ⟨0, none, .initial, 0, []⟩

/-- One critical section, or the generation of a challenge between two of them. -/
def act (s : Server) : Action → Option Server
  | .generate d =>
    match s.newChallenge with
    | none =>
      if s.globalChallengeId < intMax then
        some { s with
          globalChallengeId := s.globalChallengeId + 1
          newChallenge := some (generateChallenge (s.globalChallengeId + 1) d) }
      else none
    | some _ => none
  | .install =>
    match s.newChallenge with
    | some c => some { s with
        newChallenge := none, currentChallenge := c, installed := s.installed + 1 }
    | none => none
  | .process junk line =>
    let after := (processOrder junk s.currentChallenge line).1
    some { s with
      currentChallenge := after
      processed := s.processed ++
        [⟨line, (extractFields junk line).1, s.currentChallenge, s.installed,
          after.winnerDeclared && !s.currentChallenge.winnerDeclared⟩] }

def Step (s : Server) (a : Action) (t : Server) : Prop := s.act a = some t

end Server
end FinalProject
