import TradingSystems.Library.Delimited
import TradingSystems.FinalProject.Server

/- The lines that a session makes of a byte stream. async_read_until goes on reading
   until the buffer holds a newline, but it may have read more by then, and what follows
   the newline stays in the buffer for the next read. -/
namespace FinalProject
open Decimal Runs Delimited

/-- A session with the chunks that are still to arrive; `processed` has the arguments of
    the calls of process_order. -/
structure TCPSession where
  arriving : List Text
  streambuf : Text
  reading : Bool
  processed : List Text
  deriving DecidableEq, Repr

def TCPSession.start (chunks : List Text) : TCPSession := ⟨chunks, [], true, []⟩

def TCPSession.handler (s : TCPSession) (ec : Bool) : TCPSession :=
  if ec then { s with reading := false }
  else
    let (line, streambuf) := takeRecord '\n' s.streambuf
    { s with
      streambuf
      processed := if line = [] then s.processed else s.processed ++ [line] }

inductive Completion where
  | arrive
  | newline
  | endOfStream
  deriving DecidableEq, Repr

/-- A chunk may also arrive when a newline is there already. -/
def TCPSession.act (s : TCPSession) : Completion → Option TCPSession
  | .arrive =>
    match s.arriving with
    | chunk :: arriving =>
      if s.reading then some { s with arriving, streambuf := s.streambuf ++ chunk } else none
    | [] => none
  | .newline => if s.reading ∧ '\n' ∈ s.streambuf then some (s.handler false) else none
  | .endOfStream =>
    if s.reading ∧ '\n' ∉ s.streambuf ∧ s.arriving = [] then some (s.handler true) else none

def TCPSession.Step (s : TCPSession) (c : Completion) (t : TCPSession) : Prop := s.act c = some t

def TCPSession.left (s : TCPSession) : Text := s.streambuf ++ s.arriving.flatten

def orderLines (stream : Text) : List Text := (records '\n' stream).filter (· ≠ [])

structure Framed (stream : Text) (s : TCPSession) : Prop where
  processed : s.processed <+: orderLines stream
  ended : s.reading = false → s.processed = orderLines stream
  goes_on : s.reading = true → ∃ c t, s.Step c t

def TCPSession.remaining (s : TCPSession) : Nat :=
  s.arriving.length + (records '\n' s.left).length + if s.reading then 1 else 0

structure Reassembles (stream : Text) (s : TCPSession) : Prop where
  split : orderLines stream = s.processed ++ orderLines s.left
  ended : s.reading = false → orderLines s.left = []

inductive Advance (s t : TCPSession) : Completion → Prop where
  | arrived (more : t.reading = true) (chunks : s.arriving.length = t.arriving.length + 1)
      (left : t.left = s.left) (processed : t.processed = s.processed) : Advance s t .arrive
  | taken (line : Text) (whole : '\n' ∉ line) (more : t.reading = true)
      (chunks : s.arriving.length = t.arriving.length) (left : s.left = line ++ '\n' :: t.left)
      (processed : t.processed = s.processed ++ if line = [] then [] else [line]) :
      Advance s t .newline
  | ended (stopped : t.reading = false) (chunks : s.arriving.length = t.arriving.length)
      (left : t.left = s.left) (unfinished : '\n' ∉ s.left)
      (processed : t.processed = s.processed) : Advance s t .endOfStream

section Steps
variable {stream line rest : Text} {s t : TCPSession} {c : Completion}

theorem order_lines_first (whole : '\n' ∉ line) :
    orderLines (line ++ '\n' :: rest) = (if line = [] then [] else [line]) ++ orderLines rest := by
  rw [orderLines, records_first whole, List.filter_cons]
  by_cases empty : line = []
  · simp [empty, orderLines]
  · simp [empty, orderLines]

theorem handler_line (whole : '\n' ∉ line) (buffer : s.streambuf = line ++ '\n' :: rest) :
    s.handler false = { s with
      streambuf := rest
      processed := s.processed ++ if line = [] then [] else [line] } := by
  have first : takeRecord '\n' s.streambuf = (line, rest) := by
    rw [buffer, take_record_first whole]
  have appended : (if line = [] then s.processed else s.processed ++ [line]) =
      s.processed ++ if line = [] then [] else [line] := by
    split
    · rw [List.append_nil]
    · rfl
  simp only [TCPSession.handler, first, appended, Bool.false_eq_true, ↓reduceIte]

theorem step_advance (step : s.Step c t) : s.reading = true ∧ Advance s t c := by
  unfold TCPSession.Step TCPSession.act at step
  cases c with
  | arrive =>
    simp only at step
    split at step
    · rename_i chunk arriving pending
      split at step
      · rename_i reading
        cases step
        exact ⟨reading, .arrived reading (by simp [pending])
          (by simp [TCPSession.left, pending]) rfl⟩
      · cases step
    · cases step
  | newline =>
    simp only at step
    split at step
    · rename_i ready
      cases step
      obtain ⟨reading, present⟩ := ready
      obtain ⟨line, rest, buffer, whole⟩ := List.eq_append_cons_of_mem present
      rw [handler_line whole buffer]
      exact ⟨reading, .taken line whole reading rfl (by simp [TCPSession.left, buffer]) rfl⟩
    · cases step
  | endOfStream =>
    simp only at step
    split at step
    · rename_i ready
      cases step
      obtain ⟨reading, unfinished, nothing⟩ := ready
      exact ⟨reading, .ended rfl rfl rfl (by simpa [TCPSession.left, nothing] using unfinished) rfl⟩
    · cases step

theorem Reassembles.step (held : Reassembles stream s) (step : s.Step c t) :
    Reassembles stream t := by
  cases (step_advance step).2 with
  | arrived more chunks left processed =>
    refine ⟨?_, fun stopped => absurd (more.symm.trans stopped) (by decide)⟩
    rw [left, processed, held.split]
  | taken line whole more chunks left processed =>
    refine ⟨?_, fun stopped => absurd (more.symm.trans stopped) (by decide)⟩
    rw [held.split, left, order_lines_first whole, processed, List.append_assoc]
  | ended stopped chunks left unfinished processed =>
    refine ⟨?_, fun _ => ?_⟩
    · rw [left, processed, held.split]
    · rw [left, orderLines, records_unfinished unfinished]
      rfl

theorem step_remaining (step : s.Step c t) : t.remaining + 1 = s.remaining := by
  obtain ⟨reading, advance⟩ := step_advance step
  unfold TCPSession.remaining
  cases advance with
  | arrived more chunks left processed =>
    rw [left, reading, more]
    omega
  | taken line whole more chunks left processed =>
    rw [left, records_first whole, List.length_cons, reading, more]
    omega
  | ended stopped chunks left unfinished processed =>
    rw [left, reading, stopped, chunks]
    rfl

theorem goes_on (reading : s.reading = true) : ∃ c t, s.Step c t := by
  by_cases ready : '\n' ∈ s.streambuf
  · exact ⟨.newline, s.handler false, by simp [TCPSession.Step, TCPSession.act, reading, ready]⟩
  · cases pending : s.arriving with
    | nil =>
      exact ⟨.endOfStream, s.handler true, by
        simp [TCPSession.Step, TCPSession.act, reading, ready, pending]⟩
    | cons chunk arriving =>
      refine ⟨.arrive, { s with arriving, streambuf := s.streambuf ++ chunk }, ?_⟩
      simp [TCPSession.Step, TCPSession.act, reading, pending]

end Steps

/-- However the stream arrives, the session processes its lines that are not empty, one by
    one and in order, and comes to an end after a number of steps that is known before. -/
theorem lines_processed {stream : Text} {chunks : List Text} {cs : List Completion}
    {s : TCPSession} (joined : chunks.flatten = stream)
    (run : Run TCPSession.Step (.start chunks) cs s) :
    Framed stream s ∧
      cs.length + s.remaining = chunks.length + (records '\n' stream).length + 1 := by
  have start : Reassembles stream (.start chunks) := ⟨by simp [TCPSession.start, TCPSession.left,
    joined], by simp [TCPSession.start]⟩
  have held := run_invariant (Reassembles stream) (fun step held => held.step step) run start
  refine ⟨⟨⟨_, held.split.symm⟩, ?_, goes_on⟩, ?_⟩
  · intro stopped
    rw [held.split, held.ended stopped, List.append_nil]
  · exact run_history (fun cs s =>
      cs.length + s.remaining = chunks.length + (records '\n' stream).length + 1)
      (fun step counted => by
        have fewer := step_remaining step
        rw [List.length_append, List.length_singleton]
        omega) run (by simp [TCPSession.start, TCPSession.remaining, TCPSession.left, joined])

theorem lines_processed_cut : ∃ s : TCPSession, s.processed = ["ab".toList, "c".toList] ∧
    Framed "ab\nc\n\nd".toList s := by
  have replayed : ∃ s, replay TCPSession.act (.start ["a".toList, "b\nc".toList, "\n\nd".toList])
      [.arrive, .arrive, .newline, .arrive, .newline, .newline, .endOfStream] = some s ∧
        s.processed = ["ab".toList, "c".toList] :=
    ⟨_, rfl, rfl⟩
  obtain ⟨s, done, processed⟩ := replayed
  exact ⟨s, processed, (lines_processed rfl (run_of_replay id done)).1⟩

end FinalProject
