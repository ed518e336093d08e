import TradingSystems.Library.Fifo
import TradingSystems.Session7.SingleProducer

/- One producer and one consumer on the ring queue, access by access, against the bounded
   queue. A call takes effect at its last access, the failed test or the store, which
   lies between its first access and its return. -/
namespace Session7
open Runs CircularWindow Fifo

/-- What a call returned, with the item that it pushed or popped. -/
inductive Response (T : Type) where
  | push (item : T) (success : Bool)
  | pop (taken : Option T)
  deriving DecidableEq

variable {T : Type} {cap n : Nat}

def Response.accepted : Response T → List T
  | .push item true => [item]
  | _ => []

def Response.popped : Response T → List T
  | .pop taken => taken.toList
  | _ => []

/-- The response of the call that an access ends. -/
def Threads.response (cap : Nat) (s : Threads T Unit Unit) :
    Access T Unit Unit → Option (Response T)
  | .testFull p =>
    match s.pushers p with
    | .loaded item currentTail =>
      if (currentTail + 1) % cap = s.queue.head then some (.push item false) else none
    | _ => none
  | .storeTail p =>
    match s.pushers p with
    | .written item _ => some (.push item true)
    | _ => none
  | .testEmpty c =>
    match s.poppers c with
    | .loaded currentHead => if currentHead = s.queue.tail then some (.pop none) else none
    | _ => none
  | .storeHead c =>
    match s.poppers c with
    | .read _ item => some (.pop (some item))
    | _ => none
  | _ => none

def Threads.StepResponse (cap : Nat) (s : Threads T Unit Unit)
    (l : Access T Unit Unit × Option (Response T)) (t : Threads T Unit Unit) : Prop :=
  Threads.Step cap s l.1 t ∧ s.response cap l.1 = l.2

/-- The bounded queue gives this response and goes on as `r`. -/
def Answers (q : Queue T cap) (response : Response T) (r : Queue T cap) : Prop :=
  match response with
  | .push item success => q.serve (.push item) = (.pushed success, r)
  | .pop taken => ∀ old, q.serve (.pop old) = (.popped taken.isSome (taken.getD old), r)

section Serving
variable {q : Queue T cap}

theorem answers_push {item : T} (room : q.items.length + 1 < cap) :
    ∃ r, Answers q (.push item true) r ∧ r.items = q.items ++ [item] := by
  have free : q.items.length < cap - 1 := by omega
  exact ⟨⟨q.items ++ [item], by simpa using room⟩, by simp [Answers, Queue.serve, free], rfl⟩

theorem answers_push_full {item : T} (full : q.items.length + 1 = cap) :
    Answers q (.push item false) q := by
  have none_free : ¬ q.items.length < cap - 1 := by omega
  simp [Answers, Queue.serve, none_free]

theorem answers_pop {item : T} {rest : List T} (held : q.items = item :: rest) :
    ∃ r, Answers q (.pop (some item)) r ∧ r.items = rest := by
  obtain ⟨items, short⟩ := q
  cases held
  exact ⟨⟨rest, Nat.lt_of_succ_lt short⟩, fun _ => rfl, rfl⟩

theorem answers_pop_empty (empty : q.items = []) : Answers q (.pop none) q := by
  obtain ⟨items, short⟩ := q
  cases empty
  exact fun _ => rfl

end Serving

structure Shows (s : Threads T Unit Unit) (q : Queue T cap) : Prop where
  current : Current s
  intact : Intact cap q.items.length s
  fifo : s.accepted = s.popped ++ q.items

section Steps
variable {s t : Threads T Unit Unit} {a : Access T Unit Unit} {q : Queue T cap}

theorem step_recorded (step : Threads.Step cap s a t) :
    t.accepted = s.accepted ++ (s.response cap a).elim [] Response.accepted ∧
      t.popped = s.popped ++ (s.response cap a).elim [] Response.popped := by
  unfold Threads.Step at step
  cases a with
  | loadTail p item | writeSlot p =>
    cases at_pc : s.pushers p <;> simp only [Threads.access, at_pc] at step <;> cases step
    simp [Threads.response, Threads.setPusher]
  | testFull p =>
    cases at_pc : s.pushers p <;> simp only [Threads.access, at_pc] at step <;> try cases step
    split at step <;> cases step <;>
      simp_all [Threads.response, Threads.setPusher, Response.accepted, Response.popped]
  | storeTail p =>
    cases at_pc : s.pushers p <;> simp only [Threads.access, at_pc] at step <;> cases step
    simp [Threads.response, Threads.setPusher, at_pc, Response.accepted, Response.popped]
  | loadHead c | readSlot c =>
    cases at_pc : s.poppers c <;> simp only [Threads.access, at_pc] at step <;> cases step
    simp [Threads.response, Threads.setPopper]
  | testEmpty c =>
    cases at_pc : s.poppers c <;> simp only [Threads.access, at_pc] at step <;> try cases step
    split at step <;> cases step <;>
      simp_all [Threads.response, Threads.setPopper, Response.accepted, Response.popped]
  | storeHead c =>
    cases at_pc : s.poppers c <;> simp only [Threads.access, at_pc] at step <;> cases step
    simp [Threads.response, Threads.setPopper, at_pc, Response.accepted, Response.popped]

theorem Intact.full (intact : Intact cap n s) (current : Current s) {item : T}
    (failed : s.response cap a = some (.push item false)) : n + 1 = cap := by
  cases a with
  | testFull p =>
    cases at_pc : s.pushers p with
    | loaded held currentTail =>
      have same : currentTail = s.queue.tail := by
        simpa [PushPc.current, at_pc] using current.pusher
      simp only [Threads.response, at_pc] at failed
      split at failed
      · rename_i full
        rwa [same, intact.tail, slot_next, slot_full_iff intact.inside intact.short] at full
      · cases failed
    | _ => simp [Threads.response, at_pc] at failed
  | storeTail p =>
    cases at_pc : s.pushers p <;> simp [Threads.response, at_pc] at failed
  | testEmpty c =>
    cases at_pc : s.poppers c <;> simp [Threads.response, at_pc] at failed
  | storeHead c =>
    cases at_pc : s.poppers c <;> simp [Threads.response, at_pc] at failed
  | _ => cases failed

theorem Intact.empty (intact : Intact cap n s) (current : Current s)
    (failed : s.response cap a = some (.pop none)) : n = 0 := by
  cases a with
  | testEmpty c =>
    cases at_pc : s.poppers c with
    | loaded currentHead =>
      have same : currentHead = s.queue.head := by
        simpa [PopPc.current, at_pc] using current.popper
      simp only [Threads.response, at_pc] at failed
      split at failed
      · rename_i empty
        rwa [same, intact.tail, eq_comm, slot_self_iff intact.inside intact.short] at empty
      · cases failed
    | _ => simp [Threads.response, at_pc] at failed
  | testFull p =>
    cases at_pc : s.pushers p <;> simp [Threads.response, at_pc] at failed
  | storeTail p =>
    cases at_pc : s.pushers p <;> simp [Threads.response, at_pc] at failed
  | storeHead c =>
    cases at_pc : s.poppers c <;> simp [Threads.response, at_pc] at failed
  | _ => cases failed

theorem Intact.left (intact : Intact cap n s) {items : List T}
    (fifo : s.accepted = s.popped ++ items) :
    items = window cap s.queue.buffer s.queue.head n ∧ items.length = n := by
  have same := List.append_cancel_left (fifo.symm.trans intact.fifo)
  exact ⟨same, by simp [same, window]⟩

theorem Shows.step (shows : Shows s q) (step : Threads.Step cap s a t) :
    Current t ∧ ∃ n, Intact cap n t ∧
      ∀ r : Queue T cap, t.accepted = t.popped ++ r.items → Shows t r := by
  have current := step_current step shows.current
  obtain ⟨n, intact⟩ := step_intact step (shows.current.alone a) shows.intact
  refine ⟨current, n, intact, ?_⟩
  intro r fifo
  exact ⟨current, (intact.left fifo).2 ▸ intact, fifo⟩

theorem Shows.quiet (shows : Shows s q) (step : Threads.Step cap s a t)
    (silent : s.response cap a = none) : Shows t q := by
  obtain ⟨accepted, popped⟩ := step_recorded step
  obtain ⟨_, _, _, shown⟩ := shows.step step
  apply shown
  rw [accepted, popped, silent]
  simpa using shows.fifo

theorem Shows.matched (shows : Shows s q) (step : Threads.Step cap s a t)
    {response : Response T} (given : s.response cap a = some response) :
    ∃ r : Queue T cap, Answers q response r ∧ Shows t r := by
  obtain ⟨accepted, popped⟩ := step_recorded step
  obtain ⟨_, n, intact, shown⟩ := shows.step step
  rw [given] at accepted popped
  have fifo := shows.fifo
  cases response with
  | push item success =>
    simp only [Option.elim, Response.popped, List.append_nil] at popped
    cases success with
    | false =>
      simp only [Option.elim, Response.accepted, List.append_nil] at accepted
      have full := shows.intact.full shows.current given
      exact ⟨q, answers_push_full full, shown q (by rw [accepted, popped, fifo])⟩
    | true =>
      simp only [Option.elim, Response.accepted] at accepted
      have longer : t.accepted = t.popped ++ (q.items ++ [item]) := by
        rw [accepted, popped, fifo, List.append_assoc]
      have length := (intact.left longer).2
      have short := intact.short
      rw [List.length_append, List.length_singleton] at length
      obtain ⟨r, answered, items⟩ := answers_push (q := q) (by omega : q.items.length + 1 < cap)
      exact ⟨r, answered, shown r (items ▸ longer)⟩
  | pop taken =>
    simp only [Option.elim, Response.accepted, List.append_nil] at accepted
    cases taken with
    | none =>
      simp only [Option.elim, Response.popped, Option.toList, List.append_nil] at popped
      have empty := List.length_eq_zero_iff.mp (shows.intact.empty shows.current given)
      exact ⟨q, answers_pop_empty empty, shown q (by rw [accepted, popped, fifo])⟩
    | some item =>
      simp only [Option.elim, Response.popped, Option.toList] at popped
      have split := intact.fifo
      rw [accepted, popped, fifo, List.append_assoc] at split
      have held : q.items = item :: window cap t.queue.buffer t.queue.head n :=
        List.append_cancel_left split
      obtain ⟨r, answered, items⟩ := answers_pop held
      exact ⟨r, answered, shown r (items ▸ intact.fifo)⟩

theorem create_shows (room : 2 ≤ cap) (buffer : Nat → T) :
    Shows (.create buffer) (Queue.create (Nat.zero_lt_of_lt room)) :=
  ⟨create_current buffer, create_intact room buffer, rfl⟩

/-- In every interleaving of the accesses of one producer and one consumer, the responses
    in the order of their last accesses are those of the bounded queue. A push fails only
    when `cap - 1` items are queued, a pop only when none is, and what the queue holds at
    the end is what lies between head and tail. -/
theorem linearizable (room : 2 ≤ cap) {buffer : Nat → T}
    {labels : List (Access T Unit Unit × Option (Response T))}
    (run : Run (Threads.StepResponse cap) (.create buffer) labels s) :
    ∃ q : Queue T cap,
      Run Answers (Queue.create (Nat.zero_lt_of_lt room)) (labels.filterMap Prod.snd) q ∧
        s.accepted = s.popped ++ q.items ∧ s.queue.contents cap = q.items := by
  obtain ⟨q, served, shows⟩ := run_simulates Prod.snd Shows
    (fun step silent shows => shows.quiet step.1 (step.2.trans silent))
    (fun step given shows => shows.matched step.1 (step.2.trans given)) run
    (create_shows room buffer)
  have contents := shows.intact.contents.trans (shows.intact.left shows.fifo).1.symm
  exact ⟨q, served, shows.fifo, contents⟩

end Steps

theorem linearizable_overlap : ∃ (s : Threads Nat Unit Unit) (q : Queue Nat 2),
    Run (Threads.StepResponse 2) (.create fun _ => 0)
      [(.loadHead (), none), (.loadTail () 7, none), (.testFull (), none), (.writeSlot (), none),
       (.testEmpty (), some (.pop none)), (.storeTail (), some (.push 7 true))] s ∧
      Run Answers (Queue.create (by decide)) [.pop none, .push 7 true] q ∧
        s.queue.contents 2 = [7] ∧ q.items = [7] := by
  have replayed : ∃ s : Threads Nat Unit Unit,
      replay (guarded (fun s l => s.response 2 l.1 = l.2) fun s l => s.access 2 l.1)
        (.create fun _ => 0)
        [(.loadHead (), none), (.loadTail () 7, none), (.testFull (), none), (.writeSlot (), none),
         (.testEmpty (), some (.pop none)), (.storeTail (), some (.push 7 true))] = some s ∧
        s.queue.contents 2 = [7] := ⟨_, rfl, rfl⟩
  obtain ⟨s, done, contents⟩ := replayed
  have run : Run (Threads.StepResponse 2) _ _ s := run_of_replay (guarded_step id) done
  obtain ⟨q, served, _, held⟩ := linearizable (by decide) run
  exact ⟨s, q, run, served, contents, held.symm.trans contents⟩

section Looks
variable {s t u : Threads T Unit Unit}

/-- `size()` whose load of head sees `first` and whose load of tail sees `second`. -/
def sizeAcross (cap : Nat) (first second : ConcurrentQueue T) : Nat :=
  let h := first.head
  let t := second.tail
  if t ≥ h then t - h else cap - h + t

def emptyAcross (headSeen tailSeen : ConcurrentQueue T) : Bool := headSeen.head = tailSeen.tail

def fullAcross (cap : Nat) (tailSeen headSeen : ConcurrentQueue T) : Bool :=
  (tailSeen.tail + 1) % cap = headSeen.head

structure Counted (cap : Nat) (s : Threads T Unit Unit) : Prop where
  current : Current s
  intact : ∃ n, Intact cap n s
  head : s.queue.head = s.popped.length % cap

theorem create_counted (room : 2 ≤ cap) (buffer : Nat → T) :
    Counted cap (.create buffer : Threads T Unit Unit) :=
  ⟨create_current buffer, ⟨0, create_intact room buffer⟩, (Nat.zero_mod cap).symm⟩

theorem step_moves {a : Access T Unit Unit} (step : Threads.Step cap s a t) :
    (a ≠ .storeHead () → t.queue.head = s.queue.head ∧ t.popped = s.popped) ∧
      (a ≠ .storeTail () → t.queue.tail = s.queue.tail ∧ t.accepted = s.accepted) := by
  unfold Threads.Step at step
  cases a with
  | loadTail p item | writeSlot p =>
    cases at_pc : s.pushers p <;> simp only [Threads.access, at_pc] at step <;> cases step
    exact ⟨fun _ => ⟨rfl, rfl⟩, fun _ => ⟨rfl, rfl⟩⟩
  | testFull p =>
    cases at_pc : s.pushers p <;> simp only [Threads.access, at_pc] at step <;> try cases step
    split at step <;> cases step <;> exact ⟨fun _ => ⟨rfl, rfl⟩, fun _ => ⟨rfl, rfl⟩⟩
  | storeTail p =>
    cases at_pc : s.pushers p <;> simp only [Threads.access, at_pc] at step <;> cases step
    exact ⟨fun _ => ⟨rfl, rfl⟩, fun other => absurd rfl other⟩
  | loadHead c | readSlot c =>
    cases at_pc : s.poppers c <;> simp only [Threads.access, at_pc] at step <;> cases step
    exact ⟨fun _ => ⟨rfl, rfl⟩, fun _ => ⟨rfl, rfl⟩⟩
  | testEmpty c =>
    cases at_pc : s.poppers c <;> simp only [Threads.access, at_pc] at step <;> try cases step
    split at step <;> cases step <;> exact ⟨fun _ => ⟨rfl, rfl⟩, fun _ => ⟨rfl, rfl⟩⟩
  | storeHead c =>
    cases at_pc : s.poppers c <;> simp only [Threads.access, at_pc] at step <;> cases step
    exact ⟨fun other => absurd rfl other, fun _ => ⟨rfl, rfl⟩⟩

theorem step_counted {a : Access T Unit Unit} (step : Threads.Step cap s a t)
    (counted : Counted cap s) : Counted cap t := by
  obtain ⟨current, ⟨n, intact⟩, head⟩ := counted
  refine ⟨step_current step current, step_intact step (current.alone a) intact, ?_⟩
  by_cases stores : a = .storeHead ()
  · subst stores
    unfold Threads.Step at step
    cases at_pc : s.poppers () <;> simp only [Threads.access, at_pc] at step <;> cases step
    have holds := intact.popping ()
    rw [at_pc] at holds
    simp [holds.1, head]
  · obtain ⟨stays, same⟩ := (step_moves step).1 stores
    rw [stays, same, head]

theorem Counted.tail (counted : Counted cap s) : s.queue.tail = s.accepted.length % cap := by
  obtain ⟨_, ⟨n, intact⟩, head⟩ := counted
  rw [intact.tail, intact.fifo, slot, head, Nat.mod_add_mod]
  simp [window]

theorem Counted.between (counted : Counted cap s) :
    s.popped.length ≤ s.accepted.length ∧ s.accepted.length - s.popped.length < cap := by
  obtain ⟨_, ⟨n, intact⟩, _⟩ := counted
  have short := intact.short
  rw [intact.fifo]
  simp only [List.length_append, window, List.length_map, List.length_range]
  omega

theorem Counted.empty_iff (counted : Counted cap s) :
    s.queue.head = s.queue.tail ↔ s.accepted.length = s.popped.length := by
  obtain ⟨_, ⟨n, intact⟩, _⟩ := counted
  rw [eq_comm, intact.tail, slot_self_iff intact.inside intact.short, intact.fifo]
  simp [window]

theorem Counted.full_iff (counted : Counted cap s) :
    (s.queue.tail + 1) % cap = s.queue.head ↔ s.accepted.length + 1 = s.popped.length + cap := by
  obtain ⟨_, ⟨n, intact⟩, _⟩ := counted
  rw [intact.tail, slot_next, slot_full_iff intact.inside intact.short, intact.fifo]
  simp [window, Nat.add_assoc]

variable {accesses : List (Access T Unit Unit)}

theorem run_counted (run : Run (Threads.Step cap) s accesses t) (counted : Counted cap s) :
    Counted cap t :=
  run_invariant (Counted cap) (fun step => step_counted step) run counted

theorem run_moves (run : Run (Threads.Step cap) s accesses t) :
    (s.popped <+: t.popped ∧ s.accepted <+: t.accepted) ∧
      (.storeHead () ∉ accesses → t.queue.head = s.queue.head ∧ t.popped = s.popped) ∧
      (.storeTail () ∉ accesses → t.queue.tail = s.queue.tail ∧ t.accepted = s.accepted) := by
  induction run with
  | nil => simp
  | @snoc t u accesses a before last ih =>
    obtain ⟨⟨popped, accepted⟩, heads, tails⟩ := ih
    obtain ⟨more_accepted, more_popped⟩ := step_recorded last
    refine ⟨⟨popped.trans ?_, accepted.trans ?_⟩, ?_, ?_⟩
    · rw [more_popped]
      exact List.prefix_append _ _
    · rw [more_accepted]
      exact List.prefix_append _ _
    · intro none
      rw [List.mem_append, List.mem_singleton, not_or] at none
      obtain ⟨head, same⟩ := (step_moves last).1 (Ne.symm none.2)
      rw [head, same]
      exact heads none.1
    · intro none
      rw [List.mem_append, List.mem_singleton, not_or] at none
      obtain ⟨tail, same⟩ := (step_moves last).2 (Ne.symm none.2)
      rw [tail, same]
      exact tails none.1

theorem turn_back {p k : Nat} (positive : 0 < cap) :
    (if (p + k) % cap ≥ p % cap then (p + k) % cap - p % cap
      else cap - p % cap + (p + k) % cap) = k % cap := by
  have first := Nat.mod_lt p positive
  have second := Nat.mod_lt k positive
  rw [Nat.add_mod]
  generalize p % cap = i at *
  generalize k % cap = j at *
  by_cases wraps : i + j < cap
  · rw [Nat.mod_eq_of_lt wraps, if_pos (by omega)]
    omega
  · rw [Nat.mod_eq_sub_mod (by omega), Nat.mod_eq_of_lt (by omega), if_neg (by omega)]
    omega

/-- What `size()` returns is the number of items pushed until it loaded the tail less those
    popped until it loaded the head, up to whole turns of the ring. The consumer, that pops
    nothing meanwhile, gets the size at the second load, the producer that at the first. -/
theorem size_across_loads (room : 2 ≤ cap) {buffer : Nat → T}
    {before : List (Access T Unit Unit)} (run : Run (Threads.Step cap) (.create buffer) before s)
    (meanwhile : Run (Threads.Step cap) s accesses t) :
    sizeAcross cap s.queue t.queue = (t.accepted.length - s.popped.length) % cap ∧
      (.storeHead () ∉ accesses →
        sizeAcross cap s.queue t.queue = t.accepted.length - t.popped.length) ∧
      (.storeTail () ∉ accesses →
        sizeAcross cap s.queue t.queue = s.accepted.length - s.popped.length) := by
  have first := run_counted run (create_counted room buffer)
  have second := run_counted meanwhile first
  obtain ⟨⟨_, accepted⟩, heads, tails⟩ := run_moves meanwhile
  have size : sizeAcross cap s.queue t.queue = (t.accepted.length - s.popped.length) % cap := by
    have later : t.accepted.length = s.popped.length +
        (t.accepted.length - s.popped.length) := by
      have := accepted.length_le
      have := first.between
      omega
    rw [sizeAcross, first.head, second.tail]
    generalize t.accepted.length - s.popped.length = k at *
    rw [later]
    exact turn_back (by omega)
  refine ⟨size, ?_, ?_⟩
  · intro none
    rw [size, ← (heads none).2, Nat.mod_eq_of_lt second.between.2]
  · intro none
    rw [size, (tails none).2, Nat.mod_eq_of_lt first.between.2]

/-- What the consumer learns from `empty()` and the producer from `full()` lasts until its
    own next store: after `false`, the next pop, or push, does not fail. -/
theorem looks_last (room : 2 ≤ cap) {buffer : Nat → T}
    {before later : List (Access T Unit Unit)}
    (run : Run (Threads.Step cap) (.create buffer) before s)
    (meanwhile : Run (Threads.Step cap) s accesses t) (on : Run (Threads.Step cap) t later u) :
    (.storeHead () ∉ accesses → .storeHead () ∉ later →
      emptyAcross s.queue t.queue = false ∨ emptyAcross t.queue s.queue = false →
        u.response cap (.testEmpty ()) ≠ some (.pop none)) ∧
    (.storeTail () ∉ accesses → .storeTail () ∉ later →
      fullAcross cap s.queue t.queue = false ∨ fullAcross cap t.queue s.queue = false →
        ∀ item, u.response cap (.testFull ()) ≠ some (.push item false)) := by
  have first := run_counted run (create_counted room buffer)
  have second := run_counted meanwhile first
  have third := run_counted on second
  obtain ⟨⟨popped, accepted⟩, heads, tails⟩ := run_moves meanwhile
  obtain ⟨⟨more_popped, more_accepted⟩, later_heads, later_tails⟩ := run_moves on
  obtain ⟨n, intact⟩ := third.intact
  have queued : u.accepted.length = u.popped.length + n := by
    rw [intact.fifo]
    simp [window]
  simp only [emptyAcross, fullAcross, decide_eq_false_iff_not]
  constructor
  · intro quiet still seen failed
    obtain ⟨head, same⟩ := heads quiet
    -- Whichever index was loaded first, the ring was not empty at that load of the tail.
    have waiting : t.accepted.length ≠ t.popped.length := by
      have longer := accepted.length_le
      have between := first.between
      rw [← same] at between
      rcases seen with seen | seen
      · rwa [← head, second.empty_iff] at seen
      · rw [head, first.empty_iff, ← same] at seen
        omega
    have longer := more_accepted.length_le
    have between := second.between
    have gone := intact.empty third.current failed
    rw [(later_heads still).2] at queued
    omega
  · intro quiet still seen item failed
    obtain ⟨tail, same⟩ := tails quiet
    have free : t.accepted.length + 1 ≠ t.popped.length + cap := by
      have longer := popped.length_le
      have between := first.between
      rw [← same] at between
      rcases seen with seen | seen
      · rwa [← tail, second.full_iff] at seen
      · rw [tail, first.full_iff, ← same] at seen
        omega
    have longer := more_popped.length_le
    have between := second.between
    have full := intact.full third.current failed
    rw [(later_tails still).2] at queued
    omega

end Looks

theorem size_across_loads_turn : ∃ s t : Threads Nat Unit Unit,
    Run (Threads.Step 3) (.create fun _ => 0)
      [.loadTail () 7, .testFull (), .writeSlot (), .storeTail ()] s ∧
    Run (Threads.Step 3) s
      [.loadTail () 8, .testFull (), .writeSlot (), .storeTail (), .loadHead (), .testEmpty (),
       .readSlot (), .storeHead (), .loadTail () 9, .testFull (), .writeSlot (), .storeTail ()] t ∧
      t.accepted = [7, 8, 9] ∧ sizeAcross 3 s.queue t.queue = 0 := by
  have replayed : ∃ s t : Threads Nat Unit Unit,
      replay (Threads.access 3) (.create fun _ => 0)
        [.loadTail () 7, .testFull (), .writeSlot (), .storeTail ()] = some s ∧
      replay (Threads.access 3) s
        [.loadTail () 8, .testFull (), .writeSlot (), .storeTail (), .loadHead (), .testEmpty (),
         .readSlot (), .storeHead (), .loadTail () 9, .testFull (), .writeSlot (),
         .storeTail ()] = some t ∧
      s.popped = [] ∧ t.accepted = [7, 8, 9] := ⟨_, _, rfl, rfl, rfl, rfl⟩
  obtain ⟨s, t, done, on, popped, accepted⟩ := replayed
  have first : Run (Threads.Step 3) _ _ s := run_of_replay id done
  have second : Run (Threads.Step 3) s _ t := run_of_replay id on
  refine ⟨s, t, first, second, accepted, ?_⟩
  rw [(size_across_loads (by decide) first second).1, popped, accepted]
  rfl

theorem looks_last_item : ∃ s u : Threads Nat Unit Unit,
    Run (Threads.Step 3) (.create fun _ => 0)
      [.loadTail () 7, .testFull (), .writeSlot (), .storeTail ()] s ∧
    Run (Threads.Step 3) s [.loadTail () 8, .testFull (), .loadHead ()] u ∧
      u.response 3 (.testEmpty ()) ≠ some (.pop none) := by
  have replayed : ∃ s u : Threads Nat Unit Unit,
      replay (Threads.access 3) (.create fun _ => 0)
        [.loadTail () 7, .testFull (), .writeSlot (), .storeTail ()] = some s ∧
      replay (Threads.access 3) s [.loadTail () 8, .testFull (), .loadHead ()] = some u ∧
      emptyAcross s.queue s.queue = false := ⟨_, _, rfl, rfl, rfl⟩
  obtain ⟨s, u, done, on, seen⟩ := replayed
  have first : Run (Threads.Step 3) _ _ s := run_of_replay id done
  have later : Run (Threads.Step 3) s _ u := run_of_replay id on
  have last := (looks_last (by decide) first (Run.nil s) later).1
  exact ⟨s, u, first, later, last (by simp) (by simp) (Or.inl seen)⟩

end Session7
