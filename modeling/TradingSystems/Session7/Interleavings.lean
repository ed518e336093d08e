import TradingSystems.Session7.Synchronisation

/- The accesses taken one at a time on one memory, as in `Threads`, are the runs in which
   every load reads the newest entry. Whatever happens in such an interleaving can happen
   under the orders of every version. -/
namespace Session7
open Runs WeakMemory
variable {T : Type}

def newest (m : Memory Caller Index Nat Nat T) (x : Index) : Option Nat :=
  ((m.history x).getLast?).map Message.value

/-- The last entries and the items are those of the one memory. -/
structure UpToDate (s : Threads T Unit Unit) (q : ExperimentalQueue T) : Prop where
  timely : q.memory.Timely
  head : newest q.memory .head = some s.queue.head
  tail : newest q.memory .tail = some s.queue.tail
  buffer : ∀ p, (q.memory.places p).item = s.queue.buffer p
  pusher : q.pusher = s.pushers ()
  popper : q.popper = s.poppers ()
  accepted : q.accepted = s.accepted
  popped : q.popped = s.popped

section Loads
variable {o : Orderings} {m n : Memory Caller Index Nat Nat T} {c : Caller} {x : Index} {v : Nat}

theorem newest_load (timely : m.Timely) (last : newest m x = some v) (c : Caller)
    (order : MemoryOrder) : ∃ i n, m.load c x order i = some (v, n) ∧ n.Timely ∧
      n.history = m.history ∧ n.places = m.places := by
  obtain ⟨w, found, value⟩ := Option.map_eq_some_iff.mp last
  obtain ⟨i, n, loaded⟩ := load_newest timely found c order
  rw [value] at loaded
  exact ⟨i, n, loaded, timely_load timely loaded, (load_local timely loaded).1.history,
    (load_plain loaded).1⟩

theorem newest_load_other (timely : m.Timely) (last : newest m x = some v) (c : Caller) :
    ∃ i n, ExperimentalQueue.loadOther o m c x i = some (v, n) ∧ n.Timely ∧
      n.history = m.history ∧ n.places = m.places := by
  unfold ExperimentalQueue.loadOther
  split
  · exact newest_load (timely_acquire_fence timely) last c o.other
  · exact newest_load timely last c o.other

theorem newest_store {next : Nat} :
    newest (ExperimentalQueue.storeOwn o m c x next) x = some next := by
  simp [newest, store_own_history]

theorem newest_store_other {y : Index} {next : Nat} (other : y ≠ x) :
    newest (ExperimentalQueue.storeOwn o m c x next) y = newest m y := by
  simp [newest, store_own_history, other]

end Loads

section Steps
variable {cap : Nat} {o : Orderings} {s t : Threads T Unit Unit} {q : ExperimentalQueue T}

/-- After a load that finds the newest entry. -/
theorem UpToDate.quiet {n : Memory Caller Index Nat Nat T} {push : PushPc T} {pop : PopPc T}
    (same : UpToDate s q) (timely : n.Timely)
    (plain : n.history = q.memory.history ∧ n.places = q.memory.places)
    (queue : t.queue = s.queue) (pusher : push = t.pushers ()) (popper : pop = t.poppers ())
    (lists : t.accepted = s.accepted ∧ t.popped = s.popped) :
    UpToDate t { q with memory := n, pusher := push, popper := pop } where
  timely := timely
  head := by simpa [newest, plain.1, queue] using same.head
  tail := by simpa [newest, plain.1, queue] using same.tail
  buffer p := by rw [plain.2, queue]; exact same.buffer p
  pusher := pusher
  popper := popper
  accepted := same.accepted.trans lists.1.symm
  popped := same.popped.trans lists.2.symm

theorem up_to_date_load_tail {p : Unit} {item : T}
    (step : Threads.Step cap s (.loadTail p item) t) (same : UpToDate s q) :
    ∃ turn r, q.Step o cap turn r ∧ UpToDate t r := by
  unfold Threads.Step at step
  cases pc : s.pushers p with
  | idle =>
    simp only [Threads.access, pc, Option.some.injEq] at step
    obtain ⟨i, n, loaded, timely, plain⟩ := newest_load same.timely same.tail .producer o.own
    refine ⟨.loadTail item i, { q with memory := n, pusher := .loaded item s.queue.tail }, ?_, ?_⟩
    · simp [ExperimentalQueue.Step, ExperimentalQueue.access, same.pusher.trans pc, loaded]
    · rw [← step]
      exact same.quiet timely plain rfl rfl same.popper ⟨rfl, rfl⟩
  | loaded _ _ | tested _ _ _ | written _ _ => simp [Threads.access, pc] at step

theorem up_to_date_test_full {p : Unit} (step : Threads.Step cap s (.testFull p) t)
    (same : UpToDate s q) : ∃ turn r, q.Step o cap turn r ∧ UpToDate t r := by
  unfold Threads.Step at step
  cases pc : s.pushers p with
  | loaded item currentTail =>
    simp only [Threads.access, pc] at step
    obtain ⟨i, n, loaded, timely, plain⟩ :=
      newest_load_other (o := o) same.timely same.head .producer
    refine ⟨.testFull i, ?_⟩
    split at step
    · rename_i full
      cases step
      refine ⟨{ q with memory := n, pusher := .idle }, ?_, ?_⟩
      · simp [ExperimentalQueue.Step, ExperimentalQueue.access, same.pusher.trans pc, loaded, full]
      · exact same.quiet timely plain rfl rfl same.popper ⟨rfl, rfl⟩
    · rename_i free
      cases step
      refine ⟨{ q with
        memory := n, pusher := .tested item currentTail ((currentTail + 1) % cap) }, ?_, ?_⟩
      · simp [ExperimentalQueue.Step, ExperimentalQueue.access, same.pusher.trans pc, loaded, free]
      · exact same.quiet timely plain rfl rfl same.popper ⟨rfl, rfl⟩
  | idle | tested _ _ _ | written _ _ => simp [Threads.access, pc] at step

theorem up_to_date_write_slot {p : Unit} (step : Threads.Step cap s (.writeSlot p) t)
    (same : UpToDate s q) : ∃ turn r, q.Step o cap turn r ∧ UpToDate t r := by
  unfold Threads.Step at step
  cases pc : s.pushers p with
  | tested item currentTail nextTail =>
    simp only [Threads.access, pc, Option.some.injEq] at step
    refine ⟨.writeSlot, { q with
      memory := q.memory.write .producer currentTail item
      pusher := .written item nextTail }, ?_, ?_⟩
    · simp [ExperimentalQueue.Step, ExperimentalQueue.access, same.pusher.trans pc]
    · rw [← step]
      refine ⟨timely_write same.timely, same.head, same.tail, fun k => ?_, rfl, same.popper,
        same.accepted, same.popped⟩
      rw [write_places]
      by_cases slot : k = currentTail
      · simp [slot]
      · simpa [slot] using same.buffer k
  | idle | loaded _ _ | written _ _ => simp [Threads.access, pc] at step

theorem up_to_date_store_tail {p : Unit} (step : Threads.Step cap s (.storeTail p) t)
    (same : UpToDate s q) : ∃ turn r, q.Step o cap turn r ∧ UpToDate t r := by
  unfold Threads.Step at step
  cases pc : s.pushers p with
  | written item nextTail =>
    simp only [Threads.access, pc, Option.some.injEq] at step
    refine ⟨.storeTail, { q with
      memory := ExperimentalQueue.storeOwn o q.memory .producer .tail nextTail
      pusher := .idle, accepted := q.accepted ++ [item] }, ?_, ?_⟩
    · simp [ExperimentalQueue.Step, ExperimentalQueue.access, same.pusher.trans pc]
    · rw [← step]
      refine ⟨store_own_timely same.timely, ?_, newest_store, fun k => ?_, rfl, same.popper,
        congrArg (· ++ [item]) same.accepted, same.popped⟩
      · rw [newest_store_other (by decide)]
        exact same.head
      · rw [store_own_plain.2.1]
        exact same.buffer k
  | idle | loaded _ _ | tested _ _ _ => simp [Threads.access, pc] at step

theorem up_to_date_load_head {c : Unit} (step : Threads.Step cap s (.loadHead c) t)
    (same : UpToDate s q) : ∃ turn r, q.Step o cap turn r ∧ UpToDate t r := by
  unfold Threads.Step at step
  cases pc : s.poppers c with
  | idle =>
    simp only [Threads.access, pc, Option.some.injEq] at step
    obtain ⟨i, n, loaded, timely, plain⟩ := newest_load same.timely same.head .consumer o.own
    refine ⟨.loadHead i, { q with memory := n, popper := .loaded s.queue.head }, ?_, ?_⟩
    · simp [ExperimentalQueue.Step, ExperimentalQueue.access, same.popper.trans pc, loaded]
    · rw [← step]
      exact same.quiet timely plain rfl same.pusher rfl ⟨rfl, rfl⟩
  | loaded _ | tested _ | read _ _ => simp [Threads.access, pc] at step

theorem up_to_date_test_empty {c : Unit} (step : Threads.Step cap s (.testEmpty c) t)
    (same : UpToDate s q) : ∃ turn r, q.Step o cap turn r ∧ UpToDate t r := by
  unfold Threads.Step at step
  cases pc : s.poppers c with
  | loaded currentHead =>
    simp only [Threads.access, pc] at step
    obtain ⟨i, n, loaded, timely, plain⟩ :=
      newest_load_other (o := o) same.timely same.tail .consumer
    refine ⟨.testEmpty i, ?_⟩
    split at step
    · rename_i empty
      cases step
      refine ⟨{ q with memory := n, popper := .idle }, ?_, ?_⟩
      · simp [ExperimentalQueue.Step, ExperimentalQueue.access, same.popper.trans pc, loaded, empty]
      · exact same.quiet timely plain rfl same.pusher rfl ⟨rfl, rfl⟩
    · rename_i more
      cases step
      refine ⟨{ q with memory := n, popper := .tested currentHead }, ?_, ?_⟩
      · simp [ExperimentalQueue.Step, ExperimentalQueue.access, same.popper.trans pc, loaded, more]
      · exact same.quiet timely plain rfl same.pusher rfl ⟨rfl, rfl⟩
  | idle | tested _ | read _ _ => simp [Threads.access, pc] at step

theorem up_to_date_read_slot {c : Unit} (step : Threads.Step cap s (.readSlot c) t)
    (same : UpToDate s q) : ∃ turn r, q.Step o cap turn r ∧ UpToDate t r := by
  unfold Threads.Step at step
  cases pc : s.poppers c with
  | tested currentHead =>
    simp only [Threads.access, pc, Option.some.injEq] at step
    refine ⟨.readSlot, { q with
      memory := (q.memory.read .consumer currentHead).2
      popper := .read currentHead (q.memory.places currentHead).item }, ?_, ?_⟩
    · simp [ExperimentalQueue.Step, ExperimentalQueue.access, same.popper.trans pc, Memory.read]
    · rw [← step]
      refine ⟨timely_read same.timely, same.head, same.tail, fun k => ?_, same.pusher, ?_,
        same.accepted, same.popped⟩
      · rw [read_places]
        by_cases slot : k = currentHead
        · simpa [slot, Threads.setPopper] using same.buffer currentHead
        · simpa [slot, Threads.setPopper] using same.buffer k
      · rw [same.buffer]
        rfl
  | idle | loaded _ | read _ _ => simp [Threads.access, pc] at step

theorem up_to_date_store_head {c : Unit} (step : Threads.Step cap s (.storeHead c) t)
    (same : UpToDate s q) : ∃ turn r, q.Step o cap turn r ∧ UpToDate t r := by
  unfold Threads.Step at step
  cases pc : s.poppers c with
  | read currentHead item =>
    simp only [Threads.access, pc, Option.some.injEq] at step
    refine ⟨.storeHead, { q with
      memory := ExperimentalQueue.storeOwn o q.memory .consumer .head ((currentHead + 1) % cap)
      popper := .idle, popped := q.popped ++ [item] }, ?_, ?_⟩
    · simp [ExperimentalQueue.Step, ExperimentalQueue.access, same.popper.trans pc]
    · rw [← step]
      refine ⟨store_own_timely same.timely, newest_store, ?_, fun k => ?_, same.pusher, rfl,
        same.accepted, congrArg (· ++ [item]) same.popped⟩
      · rw [newest_store_other (by decide)]
        exact same.tail
      · rw [store_own_plain.2.1]
        exact same.buffer k
  | idle | loaded _ | tested _ => simp [Threads.access, pc] at step

theorem up_to_date_step {a : Access T Unit Unit} (step : Threads.Step cap s a t)
    (same : UpToDate s q) : ∃ turn r, q.Step o cap turn r ∧ UpToDate t r := by
  cases a with
  | loadTail p item => exact up_to_date_load_tail step same
  | testFull p => exact up_to_date_test_full step same
  | writeSlot p => exact up_to_date_write_slot step same
  | storeTail p => exact up_to_date_store_tail step same
  | loadHead c => exact up_to_date_load_head step same
  | testEmpty c => exact up_to_date_test_empty step same
  | readSlot c => exact up_to_date_read_slot step same
  | storeHead c => exact up_to_date_store_head step same

theorem up_to_date_create (buffer : Nat → T) : UpToDate (.create buffer) (.create buffer) :=
  ⟨timely_create _ _, rfl, rfl, fun _ => rfl, rfl, rfl, rfl, rfl⟩

/-- Every interleaving of the accesses of one producer and one consumer is a run under
    whatever orders, with the same items accepted and popped. -/
theorem interleavings_are_runs {accesses : List (Access T Unit Unit)} (o : Orderings)
    (buffer : Nat → T) (run : Run (Threads.Step cap) (.create buffer) accesses s) :
    ∃ turns q, Run (ExperimentalQueue.Step o cap) (.create buffer) turns q ∧
      UpToDate s q := by
  induction run with
  | nil => exact ⟨[], _, Run.nil _, up_to_date_create buffer⟩
  | snoc before last ih =>
    obtain ⟨turns, q, so_far, same⟩ := ih
    obtain ⟨turn, r, next, after⟩ := up_to_date_step last same
    exact ⟨turns ++ [turn], r, so_far.snoc next, after⟩

end Steps

theorem interleavings_are_runs_relaxed : ∃ turns, ∃ q : ExperimentalQueue Nat,
    Run (ExperimentalQueue.Step relaxedOrderings 2) (.create fun _ => 0) turns q ∧
      q.popped = [7] := by
  have replayed : ∃ s : Threads Nat Unit Unit, replay (Threads.access 2) (.create fun _ => 0)
      [.loadTail () 7, .testFull (), .writeSlot (), .loadHead (), .storeTail (),
        .testEmpty (), .readSlot (), .storeHead ()] = some s ∧ s.popped = [7] := ⟨_, rfl, rfl⟩
  obtain ⟨s, done, popped⟩ := replayed
  have run : Run (Threads.Step 2) (.create fun _ => 0) _ s := run_of_replay id done
  obtain ⟨turns, q, taken, same⟩ := interleavings_are_runs relaxedOrderings _ run
  exact ⟨turns, q, taken, same.popped.trans popped⟩

end Session7
