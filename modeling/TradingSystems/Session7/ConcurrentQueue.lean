import TradingSystems.Library.CircularWindow
import TradingSystems.Library.Exclusive
import TradingSystems.Library.Runs
import Mathlib.Data.Fintype.Basic

/- The ring queue with its memory accesses taken one at a time. Any number of
   threads may be inside `push` and `pop`; each load, buffer access and store is
   one step, and `accepted` and `popped` record what the calls returned. -/
namespace Session7
open Runs CircularWindow Exclusive

structure ConcurrentQueue (T : Type) where
  buffer : Nat → T
  head : Nat
  tail : Nat

inductive PushPc (T : Type) where
  | idle
  | loaded (item : T) (currentTail : Nat)
  | tested (item : T) (currentTail nextTail : Nat)
  | written (item : T) (nextTail : Nat)

inductive PopPc (T : Type) where
  | idle
  | loaded (currentHead : Nat)
  | tested (currentHead : Nat)
  | read (currentHead : Nat) (item : T)

variable {T Producer Consumer : Type}

/-- Between the test that let the thread through and its store. -/
def PushPc.busy : PushPc T → Bool
  | .idle | .loaded _ _ => false
  | .tested _ _ _ | .written _ _ => true

def PopPc.busy : PopPc T → Bool
  | .idle | .loaded _ => false
  | .tested _ | .read _ _ => true

def PushPc.isIdle : PushPc T → Bool
  | .idle => true
  | _ => false

def PopPc.isIdle : PopPc T → Bool
  | .idle => true
  | _ => false

structure Threads (T Producer Consumer : Type) where
  queue : ConcurrentQueue T
  pushers : Producer → PushPc T
  poppers : Consumer → PopPc T
  accepted : List T
  popped : List T

inductive Access (T Producer Consumer : Type) where
  | loadTail (p : Producer) (item : T)
  | testFull (p : Producer)
  | writeSlot (p : Producer)
  | storeTail (p : Producer)
  | loadHead (c : Consumer)
  | testEmpty (c : Consumer)
  | readSlot (c : Consumer)
  | storeHead (c : Consumer)

def ConcurrentQueue.contents (cap : Nat) (q : ConcurrentQueue T) : List T :=
  window cap q.buffer q.head (count cap q.head q.tail)

namespace Threads

def create (buffer : Nat → T) : Threads T Producer Consumer :=
  ⟨⟨buffer, 0, 0⟩, fun _ => .idle, fun _ => .idle, [], []⟩

variable [DecidableEq Producer] [DecidableEq Consumer]

def setPusher (s : Threads T Producer Consumer) (p : Producer) (pc : PushPc T) :
    Threads T Producer Consumer := { s with pushers := Function.update s.pushers p pc }

def setPopper (s : Threads T Producer Consumer) (c : Consumer) (pc : PopPc T) :
    Threads T Producer Consumer := { s with poppers := Function.update s.poppers c pc }

/-- One memory access; `none` when the thread is not at it. -/
def access (cap : Nat) (s : Threads T Producer Consumer) :
    Access T Producer Consumer → Option (Threads T Producer Consumer)
  | .loadTail p item =>
    match s.pushers p with
    | .idle => some (s.setPusher p (.loaded item s.queue.tail))
    | _ => none
  | .testFull p =>
    match s.pushers p with
    | .loaded item currentTail =>
      let nextTail := (currentTail + 1) % cap
      if nextTail = s.queue.head then some (s.setPusher p .idle) -- returns false
      else some (s.setPusher p (.tested item currentTail nextTail))
    | _ => none
  | .writeSlot p =>
    match s.pushers p with
    | .tested item currentTail nextTail =>
      let buffer := Function.update s.queue.buffer currentTail item
      some { s.setPusher p (.written item nextTail) with queue := { s.queue with buffer } }
    | _ => none
  | .storeTail p =>
    match s.pushers p with
    | .written item nextTail => -- returns true
      some { s.setPusher p .idle with
        queue := { s.queue with tail := nextTail }, accepted := s.accepted ++ [item] }
    | _ => none
  | .loadHead c =>
    match s.poppers c with
    | .idle => some (s.setPopper c (.loaded s.queue.head))
    | _ => none
  | .testEmpty c =>
    match s.poppers c with
    | .loaded currentHead =>
      if currentHead = s.queue.tail then some (s.setPopper c .idle) -- returns false
      else some (s.setPopper c (.tested currentHead))
    | _ => none
  | .readSlot c =>
    match s.poppers c with
    | .tested currentHead =>
      some (s.setPopper c (.read currentHead (s.queue.buffer currentHead)))
    | _ => none
  | .storeHead c =>
    match s.poppers c with
    | .read currentHead item => -- returns true
      some { s.setPopper c .idle with
        queue := { s.queue with head := (currentHead + 1) % cap }, popped := s.popped ++ [item] }
    | _ => none

def Step (cap : Nat) (s : Threads T Producer Consumer) (a : Access T Producer Consumer)
    (t : Threads T Producer Consumer) : Prop := s.access cap a = some t

end Threads

def PushPc.passes (cap : Nat) (q : ConcurrentQueue T) : PushPc T → Bool
  | .loaded _ currentTail => (currentTail + 1) % cap ≠ q.head
  | _ => false

def PushPc.current (q : ConcurrentQueue T) : PushPc T → Bool
  | .loaded _ currentTail => currentTail = q.tail
  | _ => true

def PopPc.passes (q : ConcurrentQueue T) : PopPc T → Bool
  | .loaded currentHead => currentHead ≠ q.tail
  | _ => false

def PopPc.current (q : ConcurrentQueue T) : PopPc T → Bool
  | .loaded currentHead => currentHead = q.head
  | _ => true

/-- A thread passes its test with an index that is still current, and only while no
    other thread of its kind is between test and store. -/
def Alone (cap : Nat) (s : Threads T Producer Consumer) : Access T Producer Consumer → Prop
  | .testFull p => (s.pushers p).passes cap s.queue →
      (s.pushers p).current s.queue ∧ ∀ q, (s.pushers q).busy = false
  | .testEmpty c => (s.poppers c).passes s.queue →
      (s.poppers c).current s.queue ∧ ∀ d, (s.poppers d).busy = false
  | _ => True

instance [Fintype Producer] [Fintype Consumer] (cap : Nat) (s : Threads T Producer Consumer)
    (a : Access T Producer Consumer) : Decidable (Alone cap s a) :=
  match a with
  | .testFull _ => inferInstanceAs (Decidable (_ → _ ∧ _))
  | .testEmpty _ => inferInstanceAs (Decidable (_ → _ ∧ _))
  | .loadTail .. | .writeSlot _ | .storeTail _ | .loadHead _ | .readSlot _ | .storeHead _ =>
    inferInstanceAs (Decidable True)

/-- Every accepted item is popped at most once, nothing else is popped, and between
    calls the accepted items are the popped ones and those still in the queue. -/
def Delivered (cap : Nat) (s : Threads T Producer Consumer) : Prop :=
  s.popped.Subperm s.accepted ∧
  ((∀ p, (s.pushers p).isIdle) → (∀ c, (s.poppers c).isIdle) →
    s.accepted.Perm (s.popped ++ s.queue.contents cap))

/-- What a thread inside `push` may rely on while `n` items are queued. -/
def PushHolds (cap : Nat) (q : ConcurrentQueue T) (n : Nat) : PushPc T → Prop
  | .idle | .loaded _ _ => True
  | .tested _ currentTail nextTail =>
    currentTail = q.tail ∧ nextTail = (q.tail + 1) % cap ∧ n + 1 < cap
  | .written item nextTail =>
    q.buffer q.tail = item ∧ nextTail = (q.tail + 1) % cap ∧ n + 1 < cap

def PopHolds (q : ConcurrentQueue T) (n : Nat) : PopPc T → Prop
  | .idle | .loaded _ => True
  | .tested currentHead => currentHead = q.head ∧ 0 < n
  | .read currentHead item => currentHead = q.head ∧ 0 < n ∧ q.buffer q.head = item

/-- With one thread of each kind between test and store, the ring holds `n` items
    and delivers them in the order in which they were accepted. -/
structure Intact (cap n : Nat) (s : Threads T Producer Consumer) : Prop where
  short : n < cap
  inside : s.queue.head < cap
  tail : s.queue.tail = slot cap s.queue.head n
  fifo : s.accepted = s.popped ++ window cap s.queue.buffer s.queue.head n
  onePusher : AtMostOne PushPc.busy s.pushers
  onePopper : AtMostOne PopPc.busy s.poppers
  pushing : ∀ p, PushHolds cap s.queue n (s.pushers p)
  popping : ∀ c, PopHolds s.queue n (s.poppers c)

theorem push_holds_idle {cap n : Nat} {q : ConcurrentQueue T} (pc : PushPc T)
    (idle : pc.busy = false) : PushHolds cap q n pc := by
  cases pc <;> trivial

theorem pop_holds_idle {n : Nat} {q : ConcurrentQueue T} (pc : PopPc T)
    (idle : pc.busy = false) : PopHolds q n pc := by
  cases pc <;> trivial

section Frame
variable {cap n m : Nat} {q : ConcurrentQueue T}

theorem push_holds_popped {pc : PushPc T} (held : PushHolds cap q n pc) (fewer : m ≤ n)
    (head : Nat) : PushHolds cap { q with head } m pc := by
  cases pc with
  | tested item currentTail nextTail =>
    obtain ⟨current, next, room⟩ := held
    exact ⟨current, next, by omega⟩
  | written item nextTail =>
    obtain ⟨stored, next, room⟩ := held
    exact ⟨stored, next, by omega⟩
  | _ => trivial

theorem pop_holds_pushed {pc : PopPc T} (held : PopHolds q n pc) (more : n ≤ m) (tail : Nat) :
    PopHolds { q with tail } m pc := by
  cases pc with
  | tested currentHead => exact ⟨held.1, held.2.trans_le more⟩
  | read currentHead item => exact ⟨held.1, held.2.1.trans_le more, held.2.2⟩
  | _ => trivial

theorem pop_holds_written {pc : PopPc T} (held : PopHolds q n pc) {i : Nat}
    (apart : 0 < n → q.head ≠ i) (item : T) :
    PopHolds { q with buffer := Function.update q.buffer i item } n pc := by
  cases pc with
  | tested currentHead => exact held
  | read currentHead old =>
    obtain ⟨same, some_item, stored⟩ := held
    exact ⟨same, some_item, (Function.update_of_ne (apart some_item) ..).trans stored⟩
  | _ => trivial

end Frame

section Steps
variable {cap n : Nat} {s t : Threads T Producer Consumer}

theorem Intact.set_pusher [DecidableEq Producer] (intact : Intact cap n s) {p : Producer}
    {pc : PushPc T} (one : AtMostOne PushPc.busy (Function.update s.pushers p pc))
    (held : PushHolds cap s.queue n pc) : Intact cap n (s.setPusher p pc) :=
  { intact with onePusher := one, pushing := all_update intact.pushing held }

theorem Intact.set_popper [DecidableEq Consumer] (intact : Intact cap n s) {c : Consumer}
    {pc : PopPc T} (one : AtMostOne PopPc.busy (Function.update s.poppers c pc))
    (held : PopHolds s.queue n pc) : Intact cap n (s.setPopper c pc) :=
  { intact with onePopper := one, popping := all_update intact.popping held }

variable [DecidableEq Producer] [DecidableEq Consumer]

theorem test_full_intact {p : Producer} (step : s.access cap (.testFull p) = some t)
    (alone : Alone cap s (.testFull p)) (intact : Intact cap n s) : Intact cap n t := by
  cases at_pc : s.pushers p with
  | loaded item currentTail =>
    simp only [Threads.access, at_pc] at step
    split at step
    · cases step
      exact intact.set_pusher (at_most_one_idle intact.onePusher rfl) trivial
    · rename_i room
      cases step
      obtain ⟨same, idle⟩ := alone (by simpa [PushPc.passes, at_pc] using room)
      have same : currentTail = s.queue.tail := by simpa [PushPc.current, at_pc] using same
      have free : n + 1 ≠ cap := by
        rw [same, intact.tail, slot_next, slot_full_iff intact.inside intact.short] at room
        exact room
      have short := intact.short
      exact intact.set_pusher (at_most_one_update fun q _ => idle q)
        ⟨same, by rw [same], by omega⟩
  | _ => simp [Threads.access, at_pc] at step

theorem write_slot_intact {p : Producer} (step : s.access cap (.writeSlot p) = some t)
    (intact : Intact cap n s) : Intact cap n t := by
  cases at_pc : s.pushers p with
  | tested item currentTail nextTail =>
    simp only [Threads.access, at_pc] at step
    cases step
    have holds := intact.pushing p
    rw [at_pc] at holds
    obtain ⟨same, next, room⟩ := holds
    have others := others_idle intact.onePusher (p := p) (by simp [at_pc, PushPc.busy])
    subst same
    refine { intact with
      fifo := ?_
      onePusher := at_most_one_update others
      pushing := all_update_alone push_holds_idle others ⟨by simp, next, room⟩
      popping := ?_ }
    · simp only [Threads.setPusher, intact.tail]
      rw [window_write_behind le_rfl intact.short]
      exact intact.fifo
    · intro c
      refine pop_holds_written (intact.popping c) ?_ item
      intro some_item
      rw [intact.tail, Ne, eq_comm, slot_self_iff intact.inside intact.short]
      exact some_item.ne'
  | _ => simp [Threads.access, at_pc] at step

theorem store_tail_intact {p : Producer} (step : s.access cap (.storeTail p) = some t)
    (intact : Intact cap n s) : Intact cap (n + 1) t := by
  cases at_pc : s.pushers p with
  | written item nextTail =>
    simp only [Threads.access, at_pc] at step
    cases step
    have holds := intact.pushing p
    rw [at_pc] at holds
    obtain ⟨stored, next, room⟩ := holds
    have others := others_idle intact.onePusher (p := p) (by simp [at_pc, PushPc.busy])
    refine { intact with
      short := room
      tail := ?_
      fifo := ?_
      onePusher := at_most_one_update others
      pushing := all_update_alone push_holds_idle others trivial
      popping := fun c => pop_holds_pushed (intact.popping c) n.le_succ _ }
    · simp only [next, intact.tail, slot_next]
    · simp only [Threads.setPusher, window_snoc, ← intact.tail, stored]
      rw [intact.fifo, List.append_assoc]
  | _ => simp [Threads.access, at_pc] at step

theorem test_empty_intact {c : Consumer} (step : s.access cap (.testEmpty c) = some t)
    (alone : Alone cap s (.testEmpty c)) (intact : Intact cap n s) : Intact cap n t := by
  cases at_pc : s.poppers c with
  | loaded currentHead =>
    simp only [Threads.access, at_pc] at step
    split at step
    · cases step
      exact intact.set_popper (at_most_one_idle intact.onePopper rfl) trivial
    · rename_i filled
      cases step
      obtain ⟨same, idle⟩ := alone (by simpa [PopPc.passes, at_pc] using filled)
      have same : currentHead = s.queue.head := by simpa [PopPc.current, at_pc] using same
      have some_item : n ≠ 0 := by
        rw [same, intact.tail, eq_comm, slot_self_iff intact.inside intact.short] at filled
        exact filled
      exact intact.set_popper (at_most_one_update fun d _ => idle d)
        ⟨same, Nat.pos_of_ne_zero some_item⟩
  | _ => simp [Threads.access, at_pc] at step

theorem read_slot_intact {c : Consumer} (step : s.access cap (.readSlot c) = some t)
    (intact : Intact cap n s) : Intact cap n t := by
  cases at_pc : s.poppers c with
  | tested currentHead =>
    simp only [Threads.access, at_pc] at step
    cases step
    have holds := intact.popping c
    rw [at_pc] at holds
    obtain ⟨same, some_item⟩ := holds
    have others := others_idle intact.onePopper (p := c) (by simp [at_pc, PopPc.busy])
    exact intact.set_popper (at_most_one_update others) ⟨same, some_item, by rw [same]⟩
  | _ => simp [Threads.access, at_pc] at step

theorem store_head_intact {c : Consumer} (step : s.access cap (.storeHead c) = some t)
    (intact : Intact cap n s) : ∃ m, Intact cap m t := by
  cases at_pc : s.poppers c with
  | read currentHead item =>
    simp only [Threads.access, at_pc] at step
    cases step
    have holds := intact.popping c
    rw [at_pc] at holds
    obtain ⟨same, some_item, taken⟩ := holds
    have others := others_idle intact.onePopper (p := c) (by simp [at_pc, PopPc.busy])
    obtain ⟨m, rfl⟩ := Nat.exists_eq_succ_of_ne_zero some_item.ne'
    have short := intact.short
    subst same
    refine ⟨m, { intact with
      short := by omega
      inside := Nat.mod_lt _ (by omega)
      tail := ?_
      fifo := ?_
      onePopper := at_most_one_update others
      pushing := fun p => push_holds_popped (intact.pushing p) m.le_succ _
      popping := all_update_alone pop_holds_idle others trivial }⟩
    · change s.queue.tail = slot cap (slot cap s.queue.head 1) m
      rw [slot_shift, intact.tail]
    · change s.accepted =
        s.popped ++ [item] ++ window cap s.queue.buffer (slot cap s.queue.head 1) m
      rw [intact.fifo, window_cons intact.inside, taken, List.append_assoc]
      rfl
  | _ => simp [Threads.access, at_pc] at step

theorem step_intact {a : Access T Producer Consumer} (step : Threads.Step cap s a t)
    (alone : Alone cap s a) (intact : Intact cap n s) : ∃ m, Intact cap m t := by
  cases a with
  | loadTail p item =>
    cases at_pc : s.pushers p <;> simp only [Threads.Step, Threads.access, at_pc] at step <;>
      cases step
    exact ⟨n, intact.set_pusher (at_most_one_idle intact.onePusher rfl) trivial⟩
  | loadHead c =>
    cases at_pc : s.poppers c <;> simp only [Threads.Step, Threads.access, at_pc] at step <;>
      cases step
    exact ⟨n, intact.set_popper (at_most_one_idle intact.onePopper rfl) trivial⟩
  | testFull p => exact ⟨n, test_full_intact step alone intact⟩
  | writeSlot p => exact ⟨n, write_slot_intact step intact⟩
  | storeTail p => exact ⟨n + 1, store_tail_intact step intact⟩
  | testEmpty c => exact ⟨n, test_empty_intact step alone intact⟩
  | readSlot c => exact ⟨n, read_slot_intact step intact⟩
  | storeHead c => exact store_head_intact step intact

end Steps

section Queues
variable {cap n : Nat} {s : Threads T Producer Consumer}

theorem create_intact (room : 2 ≤ cap) (buffer : Nat → T) :
    Intact cap 0 (.create buffer : Threads T Producer Consumer) where
  short := by omega
  inside := by change 0 < cap; omega
  tail := by simp [Threads.create, slot]
  fifo := rfl
  onePusher := fun p _ busy => by cases busy
  onePopper := fun c _ busy => by cases busy
  pushing := fun _ => trivial
  popping := fun _ => trivial

theorem Intact.contents (intact : Intact cap n s) :
    s.queue.contents cap = window cap s.queue.buffer s.queue.head n := by
  rw [ConcurrentQueue.contents, intact.tail, count_slot intact.inside intact.short]

theorem Intact.delivered (intact : Intact cap n s) : Delivered cap s := by
  refine ⟨?_, fun _ _ => ?_⟩
  · rw [intact.fifo]
    exact (List.sublist_append_left _ _).subperm
  · rw [intact.contents, intact.fifo]

variable [DecidableEq Producer] [DecidableEq Consumer]

/-- While threads pass their tests alone and with current indices, the ring delivers
    every accepted item at most once and keeps the rest. -/
theorem delivered_alone {buffer : Nat → T} {accesses : List (Access T Producer Consumer)}
    (room : 2 ≤ cap)
    (run : Run (Guarded (Threads.Step cap) (Alone cap)) (.create buffer) accesses s) :
    Delivered cap s := by
  have kept : ∃ n, Intact cap n s := by
    refine run_invariant (fun s => ∃ n, Intact cap n s) ?_ run ⟨0, create_intact room buffer⟩
    rintro s a t step ⟨n, intact⟩
    exact step_intact step.1 step.2 intact
  obtain ⟨n, intact⟩ := kept
  exact intact.delivered

end Queues

/-- One order pushed; two consumers load the same head and both return it. -/
theorem delivered_twice : ∃ s : Threads Nat (Fin 5) (Fin 4),
    Run (Threads.Step 1024) (.create fun _ => 0)
      [.loadTail 0 7, .testFull 0, .writeSlot 0, .storeTail 0, .loadHead 0, .loadHead 1,
       .testEmpty 0, .testEmpty 1, .readSlot 0, .readSlot 1, .storeHead 0, .storeHead 1] s ∧
      s.accepted = [7] ∧ s.popped = [7, 7] ∧ ¬ Delivered 1024 s := by
  have replayed : ∃ s : Threads Nat (Fin 5) (Fin 4),
      replay (Threads.access 1024) (.create fun _ => 0)
        [.loadTail 0 7, .testFull 0, .writeSlot 0, .storeTail 0, .loadHead 0, .loadHead 1,
         .testEmpty 0, .testEmpty 1, .readSlot 0, .readSlot 1, .storeHead 0, .storeHead 1] =
          some s ∧ s.accepted = [7] ∧ s.popped = [7, 7] := ⟨_, rfl, rfl, rfl⟩
  obtain ⟨s, done, accepted, popped⟩ := replayed
  refine ⟨s, run_of_replay id done, accepted, popped, fun delivered => ?_⟩
  have short := delivered.1.length_le
  rw [accepted, popped] at short
  exact absurd short (by decide)

theorem delivered_alone_push_pop : ∃ s : Threads Nat (Fin 5) (Fin 4),
    Run (Guarded (Threads.Step 1024) (Alone 1024)) (.create fun _ => 0)
      [.loadTail 0 7, .testFull 0, .writeSlot 0, .storeTail 0, .loadHead 0, .testEmpty 0,
       .readSlot 0, .storeHead 0] s ∧ s.popped = [7] ∧ Delivered 1024 s := by
  have replayed : ∃ s : Threads Nat (Fin 5) (Fin 4),
      replay (guarded (Alone 1024) (Threads.access 1024)) (.create fun _ => 0)
        [.loadTail 0 7, .testFull 0, .writeSlot 0, .storeTail 0, .loadHead 0, .testEmpty 0,
         .readSlot 0, .storeHead 0] = some s ∧ s.popped = [7] := ⟨_, rfl, rfl⟩
  obtain ⟨s, done, popped⟩ := replayed
  have run : Run (Guarded (Threads.Step 1024) (Alone 1024)) _ _ s :=
    run_of_replay (guarded_step id) done
  exact ⟨s, run, popped, delivered_alone (by decide) run⟩

end Session7
