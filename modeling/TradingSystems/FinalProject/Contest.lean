import TradingSystems.FinalProject.Arena

/- Who wins the contest, and that it can be won. Every client answers what it receives and
   nothing else, so that it depends on the order of processing alone. -/
namespace FinalProject
open Decimal Extraction Runs Delimited
variable {clients : Nat} {traderName : Fin clients → Text} {s t : Arena clients}

theorem Fair.correct_iff (fair : Fair traderName s) {e : Processed}
    (member : e ∈ s.server.processed) :
    e.Correct ↔ e.fields.challengeId = e.met.challengeId := by
  obtain ⟨i, fields⟩ := fair.answered e member
  exact ⟨fun right => right.challengeId, fields.right⟩

theorem Fair.earlier_correct (fair : Fair traderName s) {before after : List Processed}
    {e d : Processed} (split : s.server.processed = before ++ e :: after) (member : d ∈ before)
    (current : e.fields.challengeId = e.met.challengeId)
    (same : d.fields.challengeId = e.fields.challengeId) : d.Correct := by
  have inside : d ∈ s.server.processed := split ▸ List.mem_append_left _ member
  obtain ⟨i, fields⟩ := fair.answered d inside
  rw [fair.correct_iff inside]
  have in_order := fair.inOrder
  rw [split, List.pairwise_append] at in_order
  have later := in_order.2.2 d member e List.mem_cons_self
  have known := fields.known
  omega

section Contest
variable {buffer target : Fin clients → Text} {events : List (ArenaEvent clients)}

/-- In every interleaving and whatever the network does, an answer wins exactly when its
    challenge is the current one and it is the first answer to it that is processed, and
    the current challenge is won by then if any answer to it was processed. -/
theorem first_answer_wins (participant : ∀ i, Participant (traderName i))
    (sized : ∀ i, (buffer i).length = 2000)
    (run : Run (Arena.Step traderName) (.create buffer target) events s) :
    (∀ before e after, s.server.processed = before ++ e :: after →
      (∃ i, e.fields.clientName = traderName i) ∧
      (e.won = true ↔ e.fields.challengeId = e.met.challengeId ∧
        ∀ d ∈ before, d.fields.challengeId ≠ e.fields.challengeId)) ∧
    (s.server.currentChallenge.winnerDeclared = true ↔ ∃ e ∈ s.server.processed,
      e.won = true ∧ e.fields.challengeId = s.server.currentChallenge.challengeId ∧
        s.server.currentChallenge.winnerName = e.fields.clientName) ∧
    (s.server.currentChallenge.winnerDeclared = true ↔ ∃ e ∈ s.server.processed,
      e.fields.challengeId = s.server.currentChallenge.challengeId) := by
  have fair := run_fair participant sized run
  have any_answer : (∃ e ∈ s.server.processed,
      e.fields.challengeId = s.server.currentChallenge.challengeId) →
        s.server.currentChallenge.winnerDeclared = true := by
    rintro ⟨e, member, same⟩
    obtain ⟨i, fields⟩ := fair.answered e member
    have past := fair.ordered.past e member
    have known := fields.known
    refine fair.ordered.declared.mpr ⟨e, member, (fair.correct_iff member).mpr ?_, ?_⟩ <;> omega
  refine ⟨?_, ⟨fair.winner, ?_⟩, ⟨?_, any_answer⟩⟩
  · intro before e after split
    have member : e ∈ s.server.processed := split ▸ by simp
    obtain ⟨i, fields⟩ := fair.answered e member
    refine ⟨⟨i, fields.named⟩, ?_⟩
    rw [fair.safe.first before e after split, fair.correct_iff member]
    constructor
    · rintro ⟨current, first⟩
      refine ⟨current, fun d earlier same => ?_⟩
      exact first d earlier same (fair.earlier_correct split earlier current same)
    · rintro ⟨current, first⟩
      exact ⟨current, fun d earlier same => absurd same (first d earlier)⟩
  · rintro ⟨e, member, _, same, _⟩
    exact any_answer ⟨e, member, same⟩
  · intro declared
    obtain ⟨e, member, _, same, _⟩ := fair.winner declared
    exact ⟨e, member, same⟩

/-- Every datagram is the whole broadcast of one challenge, and whichever of them reach a
    client, in any order and number, it stays within its buffers and sends one line, the
    answer to the challenge that it last received. -/
theorem no_client_fails (participant : ∀ i, Participant (traderName i))
    (sized : ∀ i, (buffer i).length = 2000)
    (run : Run (Arena.Step traderName) (.create buffer target) events s) (i : Fin clients) :
    ∀ d ∈ s.sent, ∃ c buf entries line, d = challengeMessage c ∧
      receive (s.buffer i) d = .ok buf ∧
      handleDatagram (traderName i) (s.client i) buf =
        .ok (⟨c.challengeId, c.targetTicker ++ [nul]⟩, entries, line ++ ['\n']) ∧
      c.challengeId ≤ s.server.currentChallenge.challengeId ∧
      ∀ junk, (extractFields junk line).1.challengeId = c.challengeId ∧
        (extractFields junk line).1.clientName = traderName i := by
  intro d sent
  have fair := run_fair participant sized run
  obtain ⟨c, announces, same⟩ := fair.announced d (List.mem_append_right _ sent)
  obtain ⟨buf, line, b, a, arrived, _, handled, answers⟩ :=
    handle_honest announces.sendable (s.client i) (fair.sized i) (participant i)
  rw [← same] at arrived
  refine ⟨c, buf, _, line, same, arrived, handled, announces.known, ?_⟩
  intro junk
  rw [answers.read announces.sendable (participant i) junk]
  exact ⟨rfl, rfl⟩

end Contest

section Race
variable {i : Fin clients} {line : Text} {lines : List Text}

def AnswersCurrent (current : Challenge) (traderName line : Text) : Prop :=
  ∃ c b a, Announces current c ∧ c.challengeId = current.challengeId ∧
    AnswersTo c traderName line b a

theorem AnswersTo.ne_nil {c : Challenge} {name : Text} {b a : Nat}
    (answers : AnswersTo c name line b a) : line ≠ [] := by
  have header : responseHeader ≠ [] := by decide
  rw [answers.line]
  exact List.append_ne_nil_of_left_ne_nil header _

theorem send_all (traderName : Fin clients → Text) (s : Arena clients) : ∃ events,
    Run (Arena.Step traderName) s events { s with
      unsent := [], sent := s.sent ++ s.unsent, network := fun i => s.network i ++ s.unsent } := by
  induction left : s.unsent generalizing s with
  | nil =>
    refine ⟨[], ?_⟩
    simp only [List.append_nil]
    rw [← left]
    exact Run.nil s
  | cons d unsent ih =>
    have step : Arena.Step traderName s .send
        { s with unsent, sent := s.sent ++ [d], network := fun i => s.network i ++ [d] } := by
      simp [Arena.Step, Arena.act, left]
    obtain ⟨events, rest⟩ :=
      ih { s with unsent, sent := s.sent ++ [d], network := fun i => s.network i ++ [d] } rfl
    refine ⟨.send :: events, run_cons step ?_⟩
    simpa using rest

theorem read_first (honest : HonestAnswer s.server.currentChallenge (traderName i) line)
    (participant : Participant (traderName i)) (stream : s.stream i = joinLines (line :: lines))
    (junk : Indeterminate) : ∃ t, Arena.Step traderName s (.read i junk) t ∧
      t.server.currentChallenge = (processOrder junk s.server.currentChallenge line).1 ∧
        t.stream i = joinLines lines := by
  have some_byte : line ≠ [] := by
    obtain ⟨_, _, _, _, answers⟩ := honest
    exact answers.ne_nil
  rw [join_lines_cons] at stream
  have taken : takeRecord '\n' (line ++ '\n' :: joinLines lines) = (line, joinLines lines) :=
    take_record_first (honest.one_line participant)
  rw [← stream] at taken
  have whole : '\n' ∈ s.stream i := by simp [stream]
  have processed : ∃ server, s.server.act (.process junk line) = some server ∧
      server.currentChallenge = (processOrder junk s.server.currentChallenge line).1 :=
    ⟨_, rfl, rfl⟩
  obtain ⟨server, acted, challenge⟩ := processed
  refine ⟨{ s with server, stream := Function.update s.stream i (joinLines lines) }, ?_,
    challenge, by simp⟩
  simp only [Arena.Step, Arena.act, if_pos whole, taken, if_neg some_byte, acted, Option.map_some]

theorem won_by (current : AnswersCurrent s.server.currentChallenge (traderName i) line)
    (participant : Participant (traderName i)) (junk : Indeterminate) :
    (processOrder junk s.server.currentChallenge line).1.winnerDeclared = true := by
  obtain ⟨c, b, a, announces, same, answers⟩ := current
  have honest : HonestAnswer s.server.currentChallenge (traderName i) line :=
    ⟨c, b, a, announces, answers⟩
  obtain ⟨_, fields⟩ := honest.read participant junk
  have id : (extractFields junk line).1.challengeId = s.server.currentChallenge.challengeId := by
    rw [answers.read announces.sendable participant junk]
    exact same
  rcases process_cases junk s.server.currentChallenge line with ⟨_, _, after⟩ | ⟨not_now, after⟩
  · rw [after]
  · rw [after]
    exact Bool.of_not_eq_false fun unwon => not_now ⟨fields.right id, unwon⟩

theorem read_until_won (participant : ∀ i, Participant (traderName i))
    (fair : Fair traderName s) (stream : s.stream i = joinLines lines)
    (honest : ∀ l ∈ lines, HonestAnswer s.server.currentChallenge (traderName i) l)
    (current : ∃ l ∈ lines, AnswersCurrent s.server.currentChallenge (traderName i) l) :
    ∃ events t, Run (Arena.Step traderName) s events t ∧
      t.server.currentChallenge.challengeId = s.server.currentChallenge.challengeId ∧
        t.server.currentChallenge.winnerDeclared = true := by
  induction lines generalizing s with
  | nil =>
    obtain ⟨l, member, _⟩ := current
    cases member
  | cons line lines ih =>
    have junk : Indeterminate := ⟨0, 0, 0⟩
    obtain ⟨first, later⟩ := List.forall_mem_cons.mp honest
    obtain ⟨t, step, after, left⟩ := read_first first (participant i) stream junk
    obtain ⟨sameId, _, _⟩ := process_kept junk s.server.currentChallenge line
    rw [← after] at sameId
    obtain ⟨l, member, answers⟩ := current
    rcases List.mem_cons.mp member with own | behind
    · subst own
      refine ⟨_, t, run_one step, sameId, ?_⟩
      rw [after]
      exact won_by answers (participant i) junk
    · have follows : ∀ c, Announces s.server.currentChallenge c →
          Announces t.server.currentChallenge c := by
        intro c announces
        rw [after]
        exact announces_processed junk line announces
      obtain ⟨c, b, a, announces, same, answers⟩ := answers
      obtain ⟨events, u, rest, same_challenge, won⟩ :=
        ih (step_fair participant step fair) left (fun l member => (later l member).mono follows)
          ⟨l, behind, c, b, a, follows c announces, same.trans sameId.symm, answers⟩
      exact ⟨_, u, run_cons step rest, same_challenge.trans sameId, won⟩

/-- The current challenge is announced by this datagram, in one of the orders that the
    map may list it in. -/
def Arena.Broadcasts (s : Arena clients) (datagram : Text) : Prop :=
  ∃ order, order.Perm s.server.currentChallenge.marketData ∧
    datagram = challengeMessage { s.server.currentChallenge with marketData := order }

theorem market_data_listed {c d : Challenge} (sendable : Broadcastable d)
    (same : challengeMessage c = challengeMessage d) : c.marketData ≠ [] := by
  intro empty
  obtain ⟨e, rest, listed⟩ := List.exists_cons_of_length_eq_add_one sendable.ten
  have identifier : (challengeMessage c).head? = some 'C' := by
    rw [challengeMessage, empty]
    rfl
  have first_security : (challengeMessage d).head? = some 'S' := by
    rw [challengeMessage, listed]
    rfl
  rw [same, first_security] at identifier
  exact absurd identifier (by decide)

theorem Fair.announces_current (fair : Fair traderName s) {datagram : Text}
    (announced : datagram ∈ s.unsent ++ s.sent) (current : s.Broadcasts datagram) :
    ∃ c, datagram = challengeMessage c ∧ Announces s.server.currentChallenge c ∧
      c.challengeId = s.server.currentChallenge.challengeId := by
  obtain ⟨order, perm, same⟩ := current
  obtain ⟨d, announces, other⟩ := fair.announced datagram announced
  -- the challenge that is there at the start lists no securities
  have some_challenge : s.server.installed ≠ 0 := by
    intro none_yet
    rw [fair.ordered.empty none_yet] at perm
    exact market_data_listed announces.sendable (same.symm.trans other) perm.eq_nil
  have sendable := (fair.current some_challenge).reordered perm
  exact ⟨_, same, ⟨sendable, le_rfl, fun _ => ⟨rfl, perm⟩⟩, rfl⟩

/-- A challenge can be won as long as its broadcast can still arrive: a client that it
    reaches answers it, and the session processes the answer. -/
theorem race_can_be_won (participant : ∀ i, Participant (traderName i))
    {buffer target : Fin clients → Text} (sized : ∀ i, (buffer i).length = 2000)
    {events : List (ArenaEvent clients)}
    (run : Run (Arena.Step traderName) (.create buffer target) events s)
    {i : Fin clients} {datagram : Text} (under_way : datagram ∈ s.unsent ++ s.network i)
    (current : s.Broadcasts datagram) :
    ∃ more t, Run (Arena.Step traderName) s more t ∧
      t.server.currentChallenge.challengeId = s.server.currentChallenge.challengeId ∧
        t.server.currentChallenge.winnerDeclared = true := by
  have fair := run_fair participant sized run
  have announced : datagram ∈ s.unsent ++ s.sent := by
    rcases List.mem_append.mp under_way with left | on_the_way
    · exact List.mem_append_left _ left
    · exact List.mem_append_right _ (fair.onTheWay i datagram on_the_way)
  obtain ⟨c, message, announces, same⟩ := fair.announces_current announced current
  obtain ⟨sends, sent⟩ := send_all traderName s
  have fair_sent :=
    run_invariant (Fair traderName) (fun step => step_fair participant step) sent fair
  have arrives : datagram ∈ s.network i ++ s.unsent :=
    List.mem_append.mpr (List.mem_append.mp under_way).symm
  obtain ⟨buf, line, b, a, arrived, _, handled, answers⟩ :=
    handle_honest announces.sendable (s.client i) (fair.sized i) (participant i)
  rw [← message] at arrived
  obtain ⟨lines, stream, honest⟩ := fair.streams i
  have received : ∃ t, Arena.Step traderName { s with
      unsent := [], sent := s.sent ++ s.unsent, network := fun i => s.network i ++ s.unsent }
      (.receive i datagram) t ∧ t.server = s.server ∧
        t.stream i = joinLines (lines ++ [line]) := by
    simp only [Arena.Step, Arena.act, if_pos arrives, arrived, handled]
    exact ⟨_, rfl, rfl, by simp [stream, joinLines]⟩
  obtain ⟨t, step, server, bytes⟩ := received
  have fair_received := step_fair participant step fair_sent
  rw [← server] at honest announces same ⊢
  obtain ⟨reads, u, read, same_challenge, won⟩ := read_until_won participant fair_received bytes
    (all_snoc honest ⟨c, b, a, announces, answers⟩)
    ⟨line, by simp, c, b, a, announces, same, answers⟩
  exact ⟨_, u, run_append sent (run_cons step read), same_challenge, won⟩

end Race

def halfDraws : Draws := { flatDraws with inc := fun _ => 1 / 2 }

def annAndBob (i : Fin 2) : Text := if i = 0 then "ann".toList else "bob".toList

def garbage (_ : Fin 2) : Text := List.replicate 2000 'x'

def firstBroadcast : Text := challengeMessage (generateChallenge 1 halfDraws)

def broadcastFirst : List (ArenaEvent 2) :=
  [.generate halfDraws, .install (generateChallenge 1 halfDraws).marketData, .send]

theorem two_participants : ∀ i, Participant (annAndBob i) :=
  Fin.forall_fin_two.mpr ⟨⟨by decide, visible_of_all (by decide), by decide⟩,
    ⟨by decide, visible_of_all (by decide), by decide⟩⟩

theorem garbage_sized : ∀ i, (garbage i).length = 2000 := fun _ => List.length_replicate

theorem first_answer_wins_ann : ∃ s : Arena 2,
    Run (Arena.Step annAndBob) (.create garbage garbage)
      (broadcastFirst ++ [.receive 1 firstBroadcast, .receive 0 firstBroadcast,
        .receive 1 firstBroadcast, .read 0 ⟨0, 0, 0⟩, .read 1 ⟨0, 0, 0⟩]) s ∧
      ∃ e ∈ s.server.processed, e.won = true ∧
        s.server.currentChallenge.winnerName = e.fields.clientName := by
  have replayed : (replay (Arena.act annAndBob) (.create garbage garbage)
      (broadcastFirst ++ [.receive 1 firstBroadcast, .receive 0 firstBroadcast,
        .receive 1 firstBroadcast, .read 0 ⟨0, 0, 0⟩, .read 1 ⟨0, 0, 0⟩])).map
      (fun s => s.server.currentChallenge.winnerDeclared) = some true := by decide +kernel
  obtain ⟨s, done, declared⟩ := Option.map_eq_some_iff.mp replayed
  have run : Run (Arena.Step annAndBob) _ _ s := run_of_replay id done
  obtain ⟨e, member, won, _, name⟩ :=
    (first_answer_wins two_participants garbage_sized run).2.1.mp declared
  exact ⟨s, run, e, member, won, name⟩

theorem no_client_fails_ann : ∃ s : Arena 2,
    Run (Arena.Step annAndBob) (.create garbage garbage) broadcastFirst s ∧
      firstBroadcast ∈ s.sent ∧ ∃ buf, receive (s.buffer 0) firstBroadcast = .ok buf := by
  have replayed : (replay (Arena.act annAndBob) (.create garbage garbage) broadcastFirst).map
      Arena.sent = some [firstBroadcast] := by decide +kernel
  obtain ⟨s, done, sent⟩ := Option.map_eq_some_iff.mp replayed
  have run : Run (Arena.Step annAndBob) _ _ s := run_of_replay id done
  have member : firstBroadcast ∈ s.sent := by simp [sent]
  obtain ⟨_, buf, _, _, _, arrived, _⟩ :=
    no_client_fails two_participants garbage_sized run 0 firstBroadcast member
  exact ⟨s, run, member, buf, arrived⟩

theorem race_can_be_won_broadcast : ∃ s t : Arena 2, ∃ more,
    Run (Arena.Step annAndBob) (.create garbage garbage)
      (broadcastFirst ++ [.lose 0 firstBroadcast]) s ∧ s.network 0 = [] ∧
      Run (Arena.Step annAndBob) s more t ∧
        t.server.currentChallenge.winnerDeclared = true := by
  have replayed : (replay (Arena.act annAndBob) (.create garbage garbage)
      (broadcastFirst ++ [.lose 0 firstBroadcast])).map (fun s =>
        (s.network 0, s.network 1, challengeMessage s.server.currentChallenge)) =
      some ([], [firstBroadcast], firstBroadcast) := by decide +kernel
  obtain ⟨s, done, state⟩ := Option.map_eq_some_iff.mp replayed
  simp only [Prod.mk.injEq] at state
  obtain ⟨lost, kept, announced⟩ := state
  have run : Run (Arena.Step annAndBob) _ _ s := run_of_replay id done
  have current : s.Broadcasts firstBroadcast := ⟨_, List.Perm.refl _, announced.symm⟩
  obtain ⟨more, t, on, _, won⟩ := race_can_be_won two_participants garbage_sized run
    (List.mem_append_right _ (kept ▸ List.mem_singleton_self _)) current
  exact ⟨s, t, more, run, lost, on, won⟩

end FinalProject
