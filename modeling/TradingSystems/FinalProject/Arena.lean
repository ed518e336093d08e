import TradingSystems.FinalProject.HonestAnswer
import TradingSystems.FinalProject.LineFraming

/- The contest of clients that run the program. A datagram that the server sends is on its
   way to every client. The network may lose it for one of them, repeat it, and deliver it
   behind a later one; the bytes of a client reach its session in order, and the session
   takes them line by line. -/
namespace FinalProject
open Decimal Extraction Runs Delimited

structure Arena (clients : Nat) where
  server : Server
  unsent : List Text
  sent : List Text
  network : Fin clients → List Text
  buffer : Fin clients → Text
  client : Fin clients → Client
  stream : Fin clients → Text

inductive ArenaEvent (clients : Nat) where
  | generate (d : Draws)
  | install (order : List (Text × ℚ × ℚ))
  | send
  | sendFails
  | lose (i : Fin clients) (datagram : Text)
  | receive (i : Fin clients) (datagram : Text)
  | read (i : Fin clients) (junk : Indeterminate)

def Draws.Drawn (d : Draws) : Prop :=
  (∀ i, 10 ≤ d.bid i ∧ d.bid i < 100) ∧ ∀ i, 1 / 10 ≤ d.inc i ∧ d.inc i < 1

instance (d : Draws) : Decidable d.Drawn := inferInstanceAs (Decidable (_ ∧ _))

variable {clients : Nat}

namespace Arena

/-- Buffers and targets are not initialised. -/
def create (buffer target : Fin clients → Text) : Arena clients where
  server := .create
  unsent := []
  sent := []
  network _ := []
  buffer
  client i := ⟨0, target i⟩
  stream _ := []

/-- One step of the broadcast thread, of a client, or of a session. -/
def act (traderName : Fin clients → Text) (s : Arena clients) :
    ArenaEvent clients → Option (Arena clients)
  | .generate d =>
    if s.unsent = [] ∧ d.Drawn then
      (s.server.act (.generate d)).map fun server => { s with server }
    else none
  | .install order =>
    match s.server.newChallenge with
    | some c =>
      if order.Perm c.marketData then
        match sendFragments (challengeMessage { c with marketData := order }) with
        | .ok fragments => (s.server.act .install).map fun server =>
          { s with server, unsent := fragments.map Fragment.fragment }
        | .error _ => none
      else none
    | none => none
  | .send =>
    match s.unsent with
    | d :: unsent =>
      some { s with unsent, sent := s.sent ++ [d], network := fun i => s.network i ++ [d] }
    | [] => none
  | .sendFails =>
    -- the error code is printed, and the thread goes on
    match s.unsent with
    | _ :: unsent => some { s with unsent }
    | [] => none
  | .lose i datagram =>
    if datagram ∈ s.network i then
      some { s with network := Function.update s.network i ((s.network i).erase datagram) }
    else none
  | .receive i datagram =>
    -- the datagram stays on its way and can arrive again, until it is lost
    if datagram ∈ s.network i then
      match receive (s.buffer i) datagram with
      | .ok buf =>
        match handleDatagram (traderName i) (s.client i) buf with
        | .ok (client, _, line) => some { s with
            buffer := Function.update s.buffer i buf
            client := Function.update s.client i client
            stream := Function.update s.stream i (s.stream i ++ line) }
        | .error _ => none
      | .error _ => none
    else none
  | .read i junk =>
    if '\n' ∈ s.stream i then
      let (line, rest) := takeRecord '\n' (s.stream i)
      let stream := Function.update s.stream i rest
      if line = [] then some { s with stream }
      else (s.server.act (.process junk line)).map fun server => { s with server, stream }
    else none

def Step (traderName : Fin clients → Text) (s : Arena clients) (e : ArenaEvent clients)
    (t : Arena clients) : Prop := s.act traderName e = some t

end Arena

def joinLines (lines : List Text) : Text := (lines.map (· ++ ['\n'])).flatten

/-- What holds in every interleaving of the contest. -/
structure Fair (traderName : Fin clients → Text) (s : Arena clients) : Prop where
  ordered : Ordered s.server
  safe : WinnerSafe s.server
  global : 0 ≤ s.server.globalChallengeId
  pending : ∀ c, s.server.newChallenge = some c → Broadcastable c
  sized : ∀ i, (s.buffer i).length = 2000
  announced : ∀ d ∈ s.unsent ++ s.sent, ∃ c,
    Announces s.server.currentChallenge c ∧ d = challengeMessage c
  onTheWay : ∀ i, ∀ d ∈ s.network i, d ∈ s.sent
  current : s.server.installed ≠ 0 → Broadcastable s.server.currentChallenge
  streams : ∀ i, ∃ lines, s.stream i = joinLines lines ∧
    ∀ line ∈ lines, HonestAnswer s.server.currentChallenge (traderName i) line
  answered : ∀ e ∈ s.server.processed, ∃ i, HonestFields (traderName i) e.met e.fields
  inOrder : s.server.processed.Pairwise fun d e => d.met.challengeId ≤ e.met.challengeId
  winner : s.server.currentChallenge.winnerDeclared = true → ∃ e ∈ s.server.processed,
    e.won = true ∧ e.fields.challengeId = s.server.currentChallenge.challengeId ∧
      s.server.currentChallenge.winnerName = e.fields.clientName

section Steps
variable {traderName : Fin clients → Text} {s t : Arena clients} {e : ArenaEvent clients}

theorem create_fair {buffer target : Fin clients → Text}
    (sized : ∀ i, (buffer i).length = 2000) : Fair traderName (.create buffer target) where
  ordered := create_ordered
  safe := create_safe
  global := le_rfl
  pending := by simp [Arena.create, Server.create]
  sized := sized
  announced := by simp [Arena.create]
  onTheWay := by simp [Arena.create]
  current := fun some_challenge => absurd rfl some_challenge
  streams := fun _ => ⟨[], rfl, by simp⟩
  answered := by simp [Arena.create, Server.create]
  inOrder := List.Pairwise.nil
  winner := by simp [Arena.create, Server.create, Challenge.initial]

theorem Fair.generate (fair : Fair traderName s) {d : Draws}
    (step : Arena.Step traderName s (.generate d) t) : Fair traderName t := by
  simp only [Arena.Step, Arena.act] at step
  split at step
  · rename_i drawn
    obtain ⟨server, generated, rfl⟩ := Option.map_eq_some_iff.mp step
    have ordered := step_ordered generated fair.ordered
    have safe : WinnerSafe server := step_safe generated trivial fair.ordered fair.safe
    unfold Server.act at generated
    cases idle : s.server.newChallenge with
    | some c => simp [idle] at generated
    | none =>
      simp only [idle] at generated
      split at generated
      · rename_i small
        cases generated
        have global := fair.global
        refine { fair with ordered, safe, global := ?_, pending := ?_ }
        · dsimp only
          omega
        · rintro c ⟨rfl⟩
          exact generated_broadcastable (by omega) (by omega) drawn.2.1
            fun i => ⟨(drawn.2.2 i).1, (drawn.2.2 i).2.le⟩
      · cases generated
  · cases step

theorem Fair.install (fair : Fair traderName s) {order : List (Text × ℚ × ℚ)}
    (step : Arena.Step traderName s (.install order) t) : Fair traderName t := by
  simp only [Arena.Step, Arena.act] at step
  cases waiting : s.server.newChallenge with
  | none => simp [waiting] at step
  | some c =>
    simp only [waiting] at step
    split at step
    · rename_i perm
      have sendable := fair.pending c waiting
      have announces : Announces c { c with marketData := order } :=
        ⟨sendable.reordered perm, le_rfl, fun _ => ⟨rfl, perm⟩⟩
      obtain ⟨later, known, unwon⟩ := fair.ordered.pending c waiting
      rw [one_fragment announces.sendable] at step
      obtain ⟨server, installed, rfl⟩ := Option.map_eq_some_iff.mp step
      have ordered := step_ordered installed fair.ordered
      have safe : WinnerSafe server := step_safe installed trivial fair.ordered fair.safe
      simp only [Server.act, waiting, Option.some.injEq] at installed
      subst installed
      refine ⟨ordered, safe, fair.global, by simp, fair.sized, ?_, fair.onTheWay,
        fun _ => sendable, ?_, fair.answered, fair.inOrder, ?_⟩
      · intro d member
        rcases List.mem_append.mp member with new | old
        · simp only [List.map_cons, List.map_nil, List.mem_singleton] at new
          exact ⟨_, announces, new⟩
        · obtain ⟨c', earlier, same⟩ := fair.announced d (List.mem_append_right _ old)
          exact ⟨c', earlier.later later, same⟩
      · intro i
        obtain ⟨lines, same, honest⟩ := fair.streams i
        exact ⟨lines, same, fun line member =>
          (honest line member).mono fun _ earlier => earlier.later later⟩
      · intro declared
        rw [unwon] at declared
        cases declared
    · cases step

theorem Fair.send (fair : Fair traderName s) (step : Arena.Step traderName s .send t) :
    Fair traderName t := by
  simp only [Arena.Step, Arena.act] at step
  cases left : s.unsent with
  | nil => simp [left] at step
  | cons d unsent =>
    simp only [left, Option.some.injEq] at step
    subst step
    have moved : ∀ x, x ∈ unsent ++ (s.sent ++ [d]) ↔ x ∈ s.unsent ++ s.sent := by
      intro x
      simp only [left, List.mem_append, List.mem_cons, List.not_mem_nil, or_false]
      tauto
    refine { fair with announced := ?_, onTheWay := ?_ }
    · intro x member
      exact fair.announced x ((moved x).mp member)
    · intro i x member
      rcases List.mem_append.mp member with before | new
      · exact List.mem_append_left _ (fair.onTheWay i x before)
      · exact List.mem_append_right _ new

theorem Fair.send_fails (fair : Fair traderName s)
    (step : Arena.Step traderName s .sendFails t) : Fair traderName t := by
  simp only [Arena.Step, Arena.act] at step
  cases left : s.unsent with
  | nil => simp [left] at step
  | cons d unsent =>
    simp only [left, Option.some.injEq] at step
    subst step
    refine { fair with announced := ?_ }
    intro x member
    refine fair.announced x ?_
    rw [left]
    exact List.mem_cons_of_mem d member

theorem Fair.lose (fair : Fair traderName s) {i : Fin clients} {d : Text}
    (step : Arena.Step traderName s (.lose i d) t) : Fair traderName t := by
  simp only [Arena.Step, Arena.act] at step
  split at step
  · cases step
    refine { fair with onTheWay := ?_ }
    intro j x member
    dsimp only at member
    by_cases own : j = i
    · subst own
      rw [Function.update_self] at member
      exact fair.onTheWay j x (List.mem_of_mem_erase member)
    · rw [Function.update_of_ne own] at member
      exact fair.onTheWay j x member
  · cases step

theorem Fair.handles (fair : Fair traderName s) (participant : ∀ i, Participant (traderName i))
    (i : Fin clients) {d : Text} (sent : d ∈ s.sent) :
    ∃ buf client entries line, receive (s.buffer i) d = .ok buf ∧ buf.length = 2000 ∧
      handleDatagram (traderName i) (s.client i) buf = .ok (client, entries, line ++ ['\n']) ∧
        ∃ c b a, Announces s.server.currentChallenge c ∧ d = challengeMessage c ∧
          AnswersTo c (traderName i) line b a := by
  obtain ⟨c, announces, same⟩ := fair.announced d (List.mem_append_right _ sent)
  obtain ⟨buf, line, b, a, arrived, length, handled, answers⟩ :=
    handle_honest announces.sendable (s.client i) (fair.sized i) (participant i)
  rw [← same] at arrived
  exact ⟨buf, _, _, line, arrived, length, handled, c, b, a, announces, same, answers⟩

theorem Fair.receive (fair : Fair traderName s) (participant : ∀ i, Participant (traderName i))
    {i : Fin clients} {d : Text} (step : Arena.Step traderName s (.receive i d) t) :
    Fair traderName t := by
  simp only [Arena.Step, Arena.act] at step
  split at step
  · rename_i on_the_way
    obtain ⟨buf, client, entries, line, arrived, length, handled, c, b, a, announces, _, answers⟩ :=
      fair.handles participant i (fair.onTheWay i d on_the_way)
    simp only [arrived, handled, Option.some.injEq] at step
    subst step
    refine { fair with sized := ?_, streams := ?_ }
    · intro j
      by_cases own : j = i
      · subst own
        simpa using length
      · simpa [Function.update_of_ne own] using fair.sized j
    · intro j
      by_cases own : j = i
      · subst own
        obtain ⟨lines, same, honest⟩ := fair.streams j
        refine ⟨lines ++ [line], ?_, all_snoc honest ⟨c, b, a, announces, answers⟩⟩
        simp [same, joinLines]
      · simpa [Function.update_of_ne own] using fair.streams j
  · cases step

theorem join_lines_cons (line : Text) (lines : List Text) :
    joinLines (line :: lines) = line ++ '\n' :: joinLines lines := by
  simp [joinLines]

theorem Fair.first_line (fair : Fair traderName s) (participant : ∀ i, Participant (traderName i))
    {i : Fin clients} (whole : '\n' ∈ s.stream i) : ∃ line lines,
      takeRecord '\n' (s.stream i) = (line, joinLines lines) ∧
        HonestAnswer s.server.currentChallenge (traderName i) line ∧
          ∀ later ∈ lines, HonestAnswer s.server.currentChallenge (traderName i) later := by
  obtain ⟨lines, same, honest⟩ := fair.streams i
  cases lines with
  | nil =>
    rw [same] at whole
    cases whole
  | cons line lines =>
    obtain ⟨first, later⟩ := List.forall_mem_cons.mp honest
    refine ⟨line, lines, ?_, first, later⟩
    rw [same, join_lines_cons]
    exact take_record_first (first.one_line (participant i))

theorem announces_processed {current c : Challenge} (junk : Indeterminate) (line : Text)
    (announces : Announces current c) : Announces (processOrder junk current line).1 c := by
  rcases process_cases junk current line with ⟨_, _, after⟩ | ⟨_, after⟩ <;> rw [after]
  · exact announces.kept rfl rfl rfl
  · exact announces

theorem broadcastable_processed {current : Challenge} (junk : Indeterminate) (line : Text)
    (sendable : Broadcastable current) : Broadcastable (processOrder junk current line).1 := by
  rcases process_cases junk current line with ⟨_, _, after⟩ | ⟨_, after⟩ <;> rw [after]
  · exact { sendable with }
  · exact sendable

theorem Fair.read (fair : Fair traderName s) (participant : ∀ i, Participant (traderName i))
    {i : Fin clients} {junk : Indeterminate} (step : Arena.Step traderName s (.read i junk) t) :
    Fair traderName t := by
  simp only [Arena.Step, Arena.act] at step
  split at step
  · rename_i whole
    obtain ⟨line, lines, taken, first, later⟩ := fair.first_line participant whole
    rw [taken] at step
    have streams : ∀ j, ∃ ls, Function.update s.stream i (joinLines lines) j = joinLines ls ∧
        ∀ l ∈ ls, HonestAnswer s.server.currentChallenge (traderName j) l := by
      intro j
      by_cases own : j = i
      · subst own
        exact ⟨lines, by simp, later⟩
      · simpa [Function.update_of_ne own] using fair.streams j
    dsimp only at step
    split at step
    · cases step
      exact { fair with streams }
    · obtain ⟨read, fields⟩ := first.read (participant i) junk
      obtain ⟨server, processed, rfl⟩ := Option.map_eq_some_iff.mp step
      have ordered := step_ordered processed fair.ordered
      have safe : WinnerSafe server := step_safe processed read fair.ordered fair.safe
      simp only [Server.act, Option.some.injEq] at processed
      subst processed
      refine ⟨ordered, safe, fair.global, fair.pending, fair.sized, ?_, fair.onTheWay, ?_, ?_,
        ?_, ?_, ?_⟩
      · intro d member
        obtain ⟨c, announces, same⟩ := fair.announced d member
        exact ⟨c, announces_processed junk line announces, same⟩
      · exact fun some_challenge => broadcastable_processed junk line (fair.current some_challenge)
      · intro j
        obtain ⟨ls, same, honest⟩ := streams j
        exact ⟨ls, same, fun l member =>
          (honest l member).mono fun _ => announces_processed junk line⟩
      · exact all_snoc fair.answered ⟨i, fields⟩
      · refine List.pairwise_append.mpr ⟨fair.inOrder, List.pairwise_singleton _ _, ?_⟩
        intro d before e new
        rw [List.mem_singleton.mp new]
        exact fair.ordered.past d before
      · dsimp only
        intro declared
        rcases process_cases junk s.server.currentChallenge line with
          ⟨right, unwon, after⟩ | ⟨_, after⟩
        · refine ⟨_, List.mem_append_right _ (List.mem_singleton.mpr rfl), ?_, ?_, ?_⟩
          · simp [unwon, after]
          · rw [after]
            exact right.challengeId
          · rw [after]
        · rw [after] at declared
          obtain ⟨e, member, won, same, name⟩ := fair.winner declared
          refine ⟨e, List.mem_append_left _ member, won, ?_, ?_⟩
          · rw [after]
            exact same
          · rw [after]
            exact name
  · cases step

theorem step_fair (participant : ∀ i, Participant (traderName i))
    (step : Arena.Step traderName s e t) (fair : Fair traderName s) : Fair traderName t := by
  cases e with
  | generate d => exact fair.generate step
  | install order => exact fair.install step
  | send => exact fair.send step
  | sendFails => exact fair.send_fails step
  | lose i d => exact fair.lose step
  | receive i d => exact fair.receive participant step
  | read i junk => exact fair.read participant step

theorem run_fair (participant : ∀ i, Participant (traderName i))
    {buffer target : Fin clients → Text} (sized : ∀ i, (buffer i).length = 2000)
    {events : List (ArenaEvent clients)}
    (run : Run (Arena.Step traderName) (.create buffer target) events s) : Fair traderName s :=
  run_invariant (Fair traderName) (fun step => step_fair participant step) run (create_fair sized)

end Steps
end FinalProject
