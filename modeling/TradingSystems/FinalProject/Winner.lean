import TradingSystems.FinalProject.Server
import TradingSystems.Library.Before

/- Who wins. Identifiers only grow from one installed challenge to the next, so a
   declared winner is the mark of a correct answer to the challenge that is current. -/
namespace FinalProject
open Decimal Extraction Runs Before

def Processed.Correct (e : Processed) : Prop := Answers e.met e.fields

def ReadsWell (_ : Server) : Action → Prop
  | .process junk line => (extractFields junk line).2.fail = false
  | _ => True

structure WinnerSafe (s : Server) : Prop where
  read : ∀ e ∈ s.processed, ∃ junk iss, extractFields junk e.line = (e.fields, iss) ∧
    iss.fail = false
  once : s.processed.Pairwise fun d e =>
    d.won = true → e.won = true → d.fields.challengeId ≠ e.fields.challengeId
  earned : ∀ e ∈ s.processed, e.won = true → e.Correct
  first : ∀ before e after, s.processed = before ++ e :: after →
    (e.won = true ↔ e.Correct ∧
      ∀ d ∈ before, d.fields.challengeId = e.fields.challengeId → ¬ d.Correct)
  installed : ∀ e ∈ s.processed, e.won = true → 0 < e.installed

/-- How identifiers, the declared winner and the history of lines hang together. -/
structure Ordered (s : Server) : Prop where
  pending : ∀ c, s.newChallenge = some c →
    s.currentChallenge.challengeId < c.challengeId ∧ c.challengeId ≤ s.globalChallengeId ∧
      c.winnerDeclared = false
  current : s.currentChallenge.challengeId ≤ s.globalChallengeId
  past : ∀ e ∈ s.processed, e.met.challengeId ≤ s.currentChallenge.challengeId
  declared : s.currentChallenge.winnerDeclared = true ↔
    ∃ e ∈ s.processed, e.Correct ∧ e.met.challengeId = s.currentChallenge.challengeId
  empty : s.installed = 0 → s.currentChallenge.marketData = []

theorem create_ordered : Ordered .create where
  pending := by simp [Server.create]
  current := le_rfl
  past := by simp [Server.create]
  declared := by simp [Server.create, Challenge.initial]
  empty := fun _ => rfl

theorem create_safe : WinnerSafe .create := by
  constructor <;> simp [Server.create]

theorem process_cases (junk : Indeterminate) (current : Challenge) (line : Text) :
    (Answers current (extractFields junk line).1 ∧ current.winnerDeclared = false ∧
      (processOrder junk current line).1 = { current with
        winnerDeclared := true, winnerName := (extractFields junk line).1.clientName }) ∨
    (¬ (Answers current (extractFields junk line).1 ∧ current.winnerDeclared = false) ∧
      (processOrder junk current line).1 = current) := by
  by_cases header : (extractFields junk line).1.header = responseHeader
  · have checked := @check_submission_cases current _ header
    simpa only [processOrder, header, ne_eq, not_true_eq_false, ↓reduceIte] using checked
  · refine Or.inr ⟨fun answers => header answers.1.header, ?_⟩
    simp [processOrder, header]

section Steps
variable {s t : Server} {a : Action}

theorem won_iff (junk : Indeterminate) (current : Challenge) (line : Text) :
    ((processOrder junk current line).1.winnerDeclared && !current.winnerDeclared) = true ↔
      Answers current (extractFields junk line).1 ∧ current.winnerDeclared = false := by
  rcases process_cases junk current line with ⟨right, open_challenge, after⟩ | ⟨wrong, after⟩
  · simp [after, right, open_challenge]
  · rw [after, Bool.and_not_self]
    simp only [Bool.false_eq_true, wrong]

theorem process_kept (junk : Indeterminate) (current : Challenge) (line : Text) :
    (processOrder junk current line).1.challengeId = current.challengeId ∧
      (processOrder junk current line).1.marketData = current.marketData ∧
      ((processOrder junk current line).1.winnerDeclared = true ↔
        current.winnerDeclared = true ∨ Answers current (extractFields junk line).1) := by
  rcases process_cases junk current line with ⟨right, open_challenge, after⟩ | ⟨wrong, after⟩
  · rw [after]
    exact ⟨rfl, rfl, by simp [right]⟩
  · rw [after]
    refine ⟨rfl, rfl, ?_⟩
    cases declared : current.winnerDeclared
    · simpa [declared] using wrong
    · simp

def Server.record (s : Server) (junk : Indeterminate) (line : Text) : Processed :=
  ⟨line, (extractFields junk line).1, s.currentChallenge, s.installed,
    (processOrder junk s.currentChallenge line).1.winnerDeclared &&
      !s.currentChallenge.winnerDeclared⟩

theorem step_cases (step : s.Step a t) :
    (∃ d, a = .generate d ∧ t = { s with
      globalChallengeId := s.globalChallengeId + 1
      newChallenge := some (generateChallenge (s.globalChallengeId + 1) d) }) ∨
    (∃ c, a = .install ∧ s.newChallenge = some c ∧ t = { s with
      newChallenge := none, currentChallenge := c, installed := s.installed + 1 }) ∨
    ∃ junk line, a = .process junk line ∧ t = { s with
      currentChallenge := (processOrder junk s.currentChallenge line).1
      processed := s.processed ++ [s.record junk line] } := by
  cases a with
  | generate d =>
    cases idle : s.newChallenge with
    | some c => simp [Server.Step, Server.act, idle] at step
    | none =>
      simp only [Server.Step, Server.act, idle] at step
      split at step
      · cases step
        exact Or.inl ⟨d, rfl, rfl⟩
      · cases step
  | install =>
    cases waiting : s.newChallenge with
    | none => simp [Server.Step, Server.act, waiting] at step
    | some c =>
      simp only [Server.Step, Server.act, waiting, Option.some.injEq] at step
      exact Or.inr (Or.inl ⟨c, rfl, rfl, step.symm⟩)
  | process junk line =>
    simp only [Server.Step, Server.act, Option.some.injEq] at step
    exact Or.inr (Or.inr ⟨junk, line, rfl, step.symm⟩)

theorem Ordered.install (ordered : Ordered s) {c : Challenge} (waiting : s.newChallenge = some c) :
    Ordered { s with
      newChallenge := none, currentChallenge := c, installed := s.installed + 1 } := by
  obtain ⟨later, known, unwon⟩ := ordered.pending c waiting
  refine ⟨by simp, known, fun e member => (ordered.past e member).trans later.le, ?_, by simp⟩
  constructor
  · intro declared
    rw [unwon] at declared
    cases declared
  · rintro ⟨e, member, _, same⟩
    have before := ordered.past e member
    exact absurd same (before.trans_lt later).ne

theorem Ordered.process (ordered : Ordered s) (junk : Indeterminate) (line : Text) :
    Ordered { s with
      currentChallenge := (processOrder junk s.currentChallenge line).1
      processed := s.processed ++ [s.record junk line] } := by
  obtain ⟨sameId, sameData, declared⟩ := process_kept junk s.currentChallenge line
  refine ⟨?_, ?_, ?_, ?_, ?_⟩
  · simpa only [sameId] using ordered.pending
  · simpa only [sameId] using ordered.current
  · rw [sameId]
    exact all_snoc ordered.past le_rfl
  · rw [declared, ordered.declared, sameId]
    constructor
    · rintro (⟨e, member, right, same⟩ | right)
      · exact ⟨e, List.mem_append_left _ member, right, same⟩
      · exact ⟨_, List.mem_append_right _ (List.mem_singleton.mpr rfl), right, rfl⟩
    · rintro ⟨e, member, right, same⟩
      rcases List.mem_append.mp member with old | new
      · exact Or.inl ⟨e, old, right, same⟩
      · rw [List.mem_singleton.mp new] at right
        exact Or.inr right
  · simpa only [sameData] using ordered.empty

theorem step_ordered (step : s.Step a t) (ordered : Ordered s) : Ordered t := by
  rcases step_cases step with ⟨d, _, rfl⟩ | ⟨c, _, waiting, rfl⟩ | ⟨junk, line, _, rfl⟩
  · have known := ordered.current
    refine { ordered with pending := ?_, current := ?_ }
    · rintro c ⟨rfl⟩
      exact ⟨Int.lt_add_one_iff.mpr known, le_rfl, rfl⟩
    · exact known.trans (by simp)
  · exact ordered.install waiting
  · exact ordered.process junk line

theorem Ordered.won_before (ordered : Ordered s) {f : Fields}
    (named : f.challengeId = s.currentChallenge.challengeId) :
    (∃ d ∈ s.processed, d.fields.challengeId = f.challengeId ∧ d.Correct) ↔
      s.currentChallenge.winnerDeclared = true := by
  rw [ordered.declared]
  constructor
  · rintro ⟨d, member, same, right⟩
    exact ⟨d, member, right, right.challengeId.symm.trans (same.trans named)⟩
  · rintro ⟨d, member, right, same⟩
    exact ⟨d, member, right.challengeId.trans (same.trans named.symm), right⟩

theorem WinnerSafe.process (safe : WinnerSafe s) (ordered : Ordered s) {junk : Indeterminate}
    {line : Text} (reads : (extractFields junk line).2.fail = false) :
    WinnerSafe { s with
      currentChallenge := (processOrder junk s.currentChallenge line).1
      processed := s.processed ++ [s.record junk line] } := by
  have won : (s.record junk line).won = true ↔ (s.record junk line).Correct ∧
      s.currentChallenge.winnerDeclared = false := won_iff junk s.currentChallenge line
  refine ⟨?_, ?_, ?_, ?_, ?_⟩
  · exact all_snoc safe.read ⟨junk, _, rfl, reads⟩
  · refine List.pairwise_append.mpr ⟨safe.once, List.pairwise_singleton _ _, ?_⟩
    intro d old e new dWon eWon same
    rw [List.mem_singleton.mp new] at eWon same
    obtain ⟨right, unwon⟩ := won.mp eWon
    have earned := safe.earned d old dWon
    have declared := (ordered.won_before right.challengeId).mp ⟨d, old, same, earned⟩
    rw [unwon] at declared
    cases declared
  · exact all_snoc safe.earned fun eWon => (won.mp eWon).1
  · intro before e after split
    rcases snoc_split split with ⟨rfl, rfl, _⟩ | ⟨rest, _, inside⟩
    · rw [won]
      refine and_congr_right fun right => ?_
      have earlier := ordered.won_before right.challengeId
      constructor
      · intro unwon d member same correct
        rw [earlier.mp ⟨d, member, same, correct⟩] at unwon
        cases unwon
      · intro none
        by_contra declared
        obtain ⟨d, member, same, correct⟩ := earlier.mpr (by simpa using declared)
        exact none d member same correct
    · exact safe.first before e rest inside
  · refine all_snoc safe.installed fun eWon => ?_
    obtain ⟨bid, ask, found, _⟩ := (won.mp eWon).1.prices
    refine Nat.pos_of_ne_zero fun none => ?_
    have empty : s.currentChallenge.marketData = [] := ordered.empty none
    have met : (s.record junk line).met = s.currentChallenge := rfl
    rw [met, empty] at found
    cases found

theorem step_safe (step : s.Step a t) (reads : ReadsWell s a) (ordered : Ordered s)
    (safe : WinnerSafe s) : WinnerSafe t := by
  rcases step_cases step with ⟨d, _, rfl⟩ | ⟨c, _, _, rfl⟩ | ⟨junk, line, rfl, rfl⟩
  · exact ⟨safe.read, safe.once, safe.earned, safe.first, safe.installed⟩
  · exact ⟨safe.read, safe.once, safe.earned, safe.first, safe.installed⟩
  · exact safe.process ordered reads

end Steps

/-- At most one recorded winner for each identifier: the first line to answer the
    challenge that was current, and none before a challenge is installed. -/
theorem winner_safe {actions : List Action} {s : Server}
    (run : Run (Guarded Server.Step ReadsWell) .create actions s) : WinnerSafe s := by
  have both : Ordered s ∧ WinnerSafe s := by
    refine run_invariant (fun s => Ordered s ∧ WinnerSafe s) ?_ run ⟨create_ordered, create_safe⟩
    rintro s a t ⟨step, reads⟩ ⟨ordered, safe⟩
    exact ⟨step_ordered step ordered, step_safe step reads ordered safe⟩
  exact both.2

instance (s : Server) (a : Action) : Decidable (ReadsWell s a) :=
  match a with
  | .generate _ => inferInstanceAs (Decidable True)
  | .install => inferInstanceAs (Decidable True)
  | .process .. => inferInstanceAs (Decidable (_ = false))

def flatDraws : Draws := ⟨fun _ => 10, fun _ => 1, 0⟩

def answerOf (name : String) : Text := ("CHALLENGE_RESPONSE 1 SEC0001 10.0002 11 " ++ name).toList

theorem winner_safe_two_answers : ∃ s : Server,
    Run (Guarded Server.Step ReadsWell) .create
      [.generate flatDraws, .install, .process ⟨0, 0, 0⟩ (answerOf "ann"),
       .process ⟨0, 0, 0⟩ (answerOf "bob")] s ∧
      s.processed.map Processed.won = [true, false] ∧ WinnerSafe s := by
  have replayed : (replay (guarded ReadsWell Server.act) .create
      [.generate flatDraws, .install, .process ⟨0, 0, 0⟩ (answerOf "ann"),
       .process ⟨0, 0, 0⟩ (answerOf "bob")]).map (fun s => s.processed.map Processed.won) =
        some [true, false] := by decide +kernel
  obtain ⟨s, done, won⟩ := Option.map_eq_some_iff.mp replayed
  have run : Run (Guarded Server.Step ReadsWell) _ _ s := run_of_replay (guarded_step id) done
  exact ⟨s, run, won, winner_safe run⟩

def ReplyAgrees (junk : Indeterminate) (current : Challenge) (line : Text) : Prop :=
  let clientName := (extractFields junk line).1.clientName
  let recorded := (processOrder junk current line).1.winnerDeclared = true ∧
    current.winnerDeclared = false
  ((processOrder junk current line).2 = some (reply true clientName) ↔ recorded) ∧
    (¬ recorded → (processOrder junk current line).2 = some (reply false clientName))

theorem reply_incorrect {junk : Indeterminate} {current : Challenge} {line : Text}
    (header : (extractFields junk line).1.header = responseHeader) :
    (processOrder junk current line).2 =
      some (reply false (extractFields junk line).1.clientName) := by
  simp [processOrder, header]

/-- Whatever the state, the reply to a response line agrees with the record if and only
    if the line is not the first correct answer. -/
theorem reply_agrees_iff {junk : Indeterminate} {current : Challenge} {line : Text}
    (header : (extractFields junk line).1.header = responseHeader) :
    ReplyAgrees junk current line ↔
      ¬ (Answers current (extractFields junk line).1 ∧ current.winnerDeclared = false) := by
  have differ : reply false (extractFields junk line).1.clientName ≠
      reply true (extractFields junk line).1.clientName := by simp [reply]
  simp only [ReplyAgrees, reply_incorrect header, Option.some.injEq, differ, false_iff,
    implies_true, and_true]
  have won := won_iff junk current line
  simp only [Bool.and_eq_true, Bool.not_eq_true'] at won
  rw [won]

theorem reply_agrees_iff_wrong_ticker :
    ReplyAgrees ⟨0, 0, 0⟩ (generateChallenge 1 flatDraws)
      "CHALLENGE_RESPONSE 1 SEC0002 10 11 ann".toList := by
  refine (reply_agrees_iff (by decide +kernel)).mpr ?_
  rintro ⟨right, _⟩
  have ticker := right.ticker
  exact absurd ticker (by decide +kernel)

/-- A correct answer to the first challenge is recorded, and told to be incorrect. -/
theorem reply_disagrees : ∃ s : Server,
    Run Server.Step .create [.generate flatDraws, .install] s ∧
      (extractFields ⟨0, 0, 0⟩ (answerOf "ann")).1.header = responseHeader ∧
      (processOrder ⟨0, 0, 0⟩ s.currentChallenge (answerOf "ann")).1.winnerName = "ann".toList ∧
      (processOrder ⟨0, 0, 0⟩ s.currentChallenge (answerOf "ann")).2 =
        some "INCORRECT\n".toList ∧
      ¬ ReplyAgrees ⟨0, 0, 0⟩ s.currentChallenge (answerOf "ann") := by
  have replayed : replay Server.act .create [.generate flatDraws, .install] =
      some ⟨1, none, generateChallenge 1 flatDraws, 1, []⟩ := rfl
  have recorded : (processOrder ⟨0, 0, 0⟩ (generateChallenge 1 flatDraws)
      (answerOf "ann")).1.winnerDeclared = true := by decide +kernel
  have told : (processOrder ⟨0, 0, 0⟩ (generateChallenge 1 flatDraws) (answerOf "ann")).2 =
      some "INCORRECT\n".toList := by decide +kernel
  refine ⟨_, run_of_replay id replayed, by decide +kernel, by decide +kernel, told, ?_⟩
  intro agrees
  have winner := agrees.1.mpr ⟨recorded, rfl⟩
  rw [told] at winner
  simp [reply] at winner

end FinalProject
