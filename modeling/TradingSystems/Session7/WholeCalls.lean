import TradingSystems.Library.Fifo
import TradingSystems.Library.Prefixes
import TradingSystems.Session7.ConcurrentQueue

/- Whole calls of the ring queue, one after the other. An index is below the capacity, so
   that the additions and subtractions of the source do not wrap. -/
namespace Session7
open Runs CircularWindow Fifo Prefixes

variable {T : Type} {cap : Nat}

namespace ConcurrentQueue

def create (buffer : Nat → T) : ConcurrentQueue T := ⟨buffer, 0, 0⟩

def push (cap : Nat) (q : ConcurrentQueue T) (item : T) : Bool × ConcurrentQueue T :=
  let currentTail := q.tail
  let nextTail := (currentTail + 1) % cap
  if nextTail = q.head then (false, q)
  else (true, { q with buffer := Function.update q.buffer currentTail item, tail := nextTail })

/-- The second component is what the caller's variable holds afterwards. -/
def pop (cap : Nat) (q : ConcurrentQueue T) (item : T) : Bool × T × ConcurrentQueue T :=
  let currentHead := q.head
  if currentHead = q.tail then (false, item, q)
  else (true, q.buffer currentHead, { q with head := (currentHead + 1) % cap })

def empty (q : ConcurrentQueue T) : Bool := q.head = q.tail

def full (cap : Nat) (q : ConcurrentQueue T) : Bool := (q.tail + 1) % cap = q.head

def size (cap : Nat) (q : ConcurrentQueue T) : Nat :=
  let h := q.head
  let t := q.tail
  if t ≥ h then t - h else cap - h + t

def serve (cap : Nat) (q : ConcurrentQueue T) : QueueCall T → QueueAnswer T × ConcurrentQueue T
  | .push item => (.pushed (q.push cap item).1, (q.push cap item).2)
  | .pop item => (.popped (q.pop cap item).1 (q.pop cap item).2.1, (q.pop cap item).2.2)
  | .empty => (.flag q.empty, q)
  | .full => (.flag (q.full cap), q)
  | .size => (.count (q.size cap), q)

/-- The ring shows the items of the queue from its head on. -/
structure Represents (q : ConcurrentQueue T) (f : Queue T cap) : Prop where
  inside : q.head < cap
  tail : q.tail = slot cap q.head f.items.length
  items : f.items = window cap q.buffer q.head f.items.length

section Operations
variable {q : ConcurrentQueue T} {f : Queue T cap}

theorem Represents.empty_iff (shown : Represents q f) : q.head = q.tail ↔ f.items.length = 0 := by
  rw [shown.tail, eq_comm]
  exact slot_self_iff shown.inside f.short

theorem Represents.full_iff (shown : Represents q f) :
    (q.tail + 1) % cap = q.head ↔ f.items.length = cap - 1 := by
  have short := f.short
  rw [shown.tail, slot_next, slot_full_iff shown.inside short]
  omega

theorem Represents.size_eq (shown : Represents q f) : q.size cap = f.items.length := by
  have inside := shown.inside
  have short := f.short
  have tail := shown.tail
  unfold slot at tail
  simp only [size]
  by_cases wraps : q.head + f.items.length < cap
  · rw [Nat.mod_eq_of_lt wraps] at tail
    rw [if_pos (by omega)]
    omega
  · rw [Nat.mod_eq_sub_mod (by omega), Nat.mod_eq_of_lt (by omega)] at tail
    rw [if_neg (by omega)]
    omega

theorem push_represents (shown : Represents q f) (item : T) :
    (q.serve cap (.push item)).1 = (f.serve (.push item)).1 ∧
      Represents (q.serve cap (.push item)).2 (f.serve (.push item)).2 := by
  have short := f.short
  simp only [serve, push, Queue.serve]
  by_cases full : f.items.length = cap - 1
  · rw [if_pos (shown.full_iff.mpr full), dif_neg (by omega)]
    exact ⟨rfl, shown⟩
  · rw [if_neg (mt shown.full_iff.mp full), dif_pos (by omega)]
    refine ⟨rfl, shown.inside, ?_, ?_⟩
    · rw [List.length_append, List.length_singleton, shown.tail, slot_next]
    · rw [List.length_append, List.length_singleton, window_snoc, shown.tail,
        window_write_behind le_rfl short, ← shown.items]
      dsimp only
      rw [Function.update_self]

theorem pop_represents (shown : Represents q f) (item : T) :
    (q.serve cap (.pop item)).1 = (f.serve (.pop item)).1 ∧
      Represents (q.serve cap (.pop item)).2 (f.serve (.pop item)).2 := by
  obtain ⟨items, short⟩ := f
  have none := shown.empty_iff
  cases items with
  | nil =>
    simp only [serve, pop, Queue.serve, if_pos (none.mpr rfl)]
    exact ⟨trivial, shown⟩
  | cons oldest rest =>
    have first := shown.items
    dsimp only [List.length_cons] at first
    rw [window_cons shown.inside, List.cons.injEq] at first
    have some_item : ¬ q.head = q.tail := mt none.mp (by simp)
    simp only [serve, pop, Queue.serve, if_neg some_item, first.1]
    refine ⟨trivial, Nat.mod_lt _ (by omega), ?_, first.2⟩
    have tail := shown.tail
    dsimp only [List.length_cons] at tail
    rw [tail]
    exact (slot_shift q.head rest.length).symm

theorem serve_represents (q : ConcurrentQueue T) (f : Queue T cap) (call : QueueCall T)
    (shown : Represents q f) : (q.serve cap call).1 = (f.serve call).1 ∧
      Represents (q.serve cap call).2 (f.serve call).2 := by
  cases call with
  | push item => exact push_represents shown item
  | pop item => exact pop_represents shown item
  | empty => exact ⟨by simp [serve, empty, Queue.serve, shown.empty_iff], shown⟩
  | full => exact ⟨by simp [serve, full, Queue.serve, shown.full_iff], shown⟩
  | size => exact ⟨by simp [serve, Queue.serve, shown.size_eq], shown⟩

end Operations

/-- From any buffer, the ring answers as a queue for one item less than its capacity; a push
    or a pop that fails changes nothing. -/
theorem refines_fifo (positive : 0 < cap) (buffer : Nat → T) (calls : List (QueueCall T)) :
    answers (serve cap) (create buffer) calls = answers Queue.serve (.create positive) calls ∧
      ∀ (q : ConcurrentQueue T) (item : T),
        ((q.push cap item).1 = false → (q.push cap item).2 = q) ∧
        ((q.pop cap item).1 = false → (q.pop cap item).2 = (item, q)) := by
  have start : Represents (create buffer) (.create positive : Queue T cap) :=
    ⟨positive, (slot_zero positive).symm, rfl⟩
  refine ⟨answers_related Represents serve_represents start calls, ?_⟩
  intro q item
  constructor
  · intro failed
    by_cases full : (q.tail + 1) % cap = q.head
    · simp [push, full]
    · simp [push, full] at failed
  · intro failed
    by_cases none : q.head = q.tail
    · simp [pop, none]
    · simp [pop, none] at failed

theorem refines_fifo_three :
    answers (serve 3) (create fun _ => 0)
        [.push 7, .push 8, .push 9, .full, .pop 0, .push 9, .size, .pop 0, .pop 0, .empty, .pop 0] =
      [.pushed true, .pushed true, .pushed false, .flag true, .popped true 7, .pushed true,
        .count 2, .popped true 8, .popped true 9, .flag true, .popped false 0] :=
  (refines_fifo (by decide) _ _).1.trans rfl

end ConcurrentQueue

section Accesses
variable {Producer Consumer : Type} [DecidableEq Producer] [DecidableEq Consumer]
  {s : Threads T Producer Consumer}

theorem push_accesses {p : Producer} (idle : s.pushers p = .idle) (item : T) :
    ∃ accesses t, Run (Threads.Step cap) s accesses t ∧ t.pushers p = .idle ∧
      t.queue = (s.queue.push cap item).2 ∧
      t.accepted = if (s.queue.push cap item).1 then s.accepted ++ [item] else s.accepted := by
  by_cases full : (s.queue.tail + 1) % cap = s.queue.head
  · have done : replay (Threads.access cap) s [.loadTail p item, .testFull p] =
        some ((s.setPusher p (.loaded item s.queue.tail)).setPusher p .idle) := by
      simp [replay, Threads.access, idle, Threads.setPusher, full]
    refine ⟨_, _, run_of_replay id done, ?_, ?_, ?_⟩
    · simp [Threads.setPusher]
    · simp [Threads.setPusher, ConcurrentQueue.push, full]
    · simp [Threads.setPusher, ConcurrentQueue.push, full]
  · have done : ∃ t, replay (Threads.access cap) s
        [.loadTail p item, .testFull p, .writeSlot p, .storeTail p] = some t ∧
        t.pushers p = .idle ∧ t.queue = (s.queue.push cap item).2 ∧
        t.accepted = s.accepted ++ [item] := by
      simp [replay, Threads.access, idle, Threads.setPusher, full, ConcurrentQueue.push]
    obtain ⟨t, done, idle', queue, accepted⟩ := done
    refine ⟨_, t, run_of_replay id done, idle', queue, ?_⟩
    simp [accepted, ConcurrentQueue.push, full]

theorem pop_accesses {c : Consumer} (idle : s.poppers c = .idle) (item : T) :
    ∃ accesses t, Run (Threads.Step cap) s accesses t ∧ t.poppers c = .idle ∧
      t.queue = (s.queue.pop cap item).2.2 ∧
      t.popped = if (s.queue.pop cap item).1 then s.popped ++ [(s.queue.pop cap item).2.1]
        else s.popped := by
  by_cases none : s.queue.head = s.queue.tail
  · have done : replay (Threads.access cap) s [.loadHead c, .testEmpty c] =
        some ((s.setPopper c (.loaded s.queue.head)).setPopper c .idle) := by
      simp [replay, Threads.access, idle, Threads.setPopper, none]
    refine ⟨_, _, run_of_replay id done, ?_, ?_, ?_⟩
    · simp [Threads.setPopper]
    · simp [Threads.setPopper, ConcurrentQueue.pop, none]
    · simp [Threads.setPopper, ConcurrentQueue.pop, none]
  · have done : ∃ t, replay (Threads.access cap) s
        [.loadHead c, .testEmpty c, .readSlot c, .storeHead c] = some t ∧
        t.poppers c = .idle ∧ t.queue = (s.queue.pop cap item).2.2 ∧
        t.popped = s.popped ++ [(s.queue.pop cap item).2.1] := by
      simp [replay, Threads.access, idle, Threads.setPopper, none, ConcurrentQueue.pop]
    obtain ⟨t, done, idle', queue, popped⟩ := done
    refine ⟨_, t, run_of_replay id done, idle', queue, ?_⟩
    simp [popped, ConcurrentQueue.pop, none]

end Accesses
end Session7
