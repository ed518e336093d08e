import Mathlib.Data.Fintype.Basic
import Mathlib.Logic.Function.Basic

/- Memory with acquire and release. An atomic keeps its modification order, and a load may
   read any entry that its thread does not know to be overwritten. What happened before a
   release store or fence is passed on to the acquire load or fence that reads from it, and a
   plain access races with a conflicting one that is not known to have happened before.
   A store ends the modification order, as it does when one thread stores the atomic. -/
namespace WeakMemory

inductive MemoryOrder where
  | relaxed
  | acquire
  | release
  | seqCst
deriving DecidableEq

/-- A load or fence of this order acquires; of `seqCst` only this much is kept. -/
def MemoryOrder.acquires : MemoryOrder → Bool
  | .acquire | .seqCst => true
  | .relaxed | .release => false

def MemoryOrder.releases : MemoryOrder → Bool
  | .release | .seqCst => true
  | .relaxed | .acquire => false

/-- What happened before some point: so many plain accesses of each thread, and each
    modification order up to some entry. -/
structure View (Thread Atomic : Type) where
  accesses : Thread → Nat
  entries : Atomic → Nat

structure Message (Thread Atomic Value : Type) where
  value : Value
  view : View Thread Atomic

/-- A plain variable with the last access of each kind by each thread, 0 for none. -/
structure Plain (Thread Item : Type) where
  item : Item
  wrote : Thread → Nat
  read : Thread → Nat

structure Memory (Thread Atomic Value Place Item : Type) where
  history : Atomic → List (Message Thread Atomic Value)
  places : Place → Plain Thread Item
  known : Thread → View Thread Atomic
  fenced : Thread → View Thread Atomic -- known at the last release fence
  pending : Thread → View Thread Atomic -- read from, for an acquire fence to come
  raced : Bool

variable {Thread Atomic Value Place Item : Type}

namespace View

def start : View Thread Atomic := ⟨fun _ => 0, fun _ => 0⟩

def join (v w : View Thread Atomic) : View Thread Atomic :=
  ⟨fun t => max (v.accesses t) (w.accesses t), fun x => max (v.entries x) (w.entries x)⟩

def Below (v w : View Thread Atomic) : Prop :=
  (∀ t, v.accesses t ≤ w.accesses t) ∧ ∀ x, v.entries x ≤ w.entries x

def reach [DecidableEq Atomic] (v : View Thread Atomic) (x : Atomic) (i : Nat) :
    View Thread Atomic := { v with entries := Function.update v.entries x i }

def tick [DecidableEq Thread] (v : View Thread Atomic) (t : Thread) : View Thread Atomic :=
  { v with accesses := Function.update v.accesses t (v.accesses t + 1) }

end View

namespace Memory

def create (first : Atomic → Value) (items : Place → Item) :
    Memory Thread Atomic Value Place Item where
  history x := [⟨first x, .start⟩]
  places p := ⟨items p, fun _ => 0, fun _ => 0⟩
  known _ := .start
  fenced _ := .start
  pending _ := .start
  raced := false

section Operations
variable [DecidableEq Thread] (m : Memory Thread Atomic Value Place Item) (t : Thread)

def setKnown (v : View Thread Atomic) : Memory Thread Atomic Value Place Item :=
  { m with known := Function.update m.known t v }

/-- The load that reads entry `i`; `none` where there is no such entry or the thread knows
    a later one. -/
def load [DecidableEq Atomic] (x : Atomic) (order : MemoryOrder) (i : Nat) :
    Option (Value × Memory Thread Atomic Value Place Item) :=
  match (m.history x)[i]? with
  | none => none
  | some w =>
    if i < (m.known t).entries x then none
    else
      let seen := if order.acquires then (m.known t).join w.view else (m.known t).reach x i
      some (w.value, { m.setKnown t seen with
        pending := Function.update m.pending t ((m.pending t).join w.view) })

/-- A release store passes on what its thread knows, another one what it knew at its last
    release fence. -/
def store [DecidableEq Atomic] (x : Atomic) (order : MemoryOrder) (v : Value) :
    Memory Thread Atomic Value Place Item :=
  let i := (m.history x).length
  let told := if order.releases then m.known t else m.fenced t
  { m.setKnown t ((m.known t).reach x i) with
    history := Function.update m.history x (m.history x ++ [⟨v, told.reach x i⟩]) }

def acquireFence : Memory Thread Atomic Value Place Item :=
  m.setKnown t ((m.known t).join (m.pending t))

def releaseFence : Memory Thread Atomic Value Place Item :=
  { m with fenced := Function.update m.fenced t (m.known t) }

variable [Fintype Thread] [DecidableEq Place] (p : Place)

/-- A read races with a write that it is not ordered after. -/
def read : Item × Memory Thread Atomic Value Place Item :=
  let place := m.places p
  let seen := (m.known t).tick t
  (place.item, { m.setKnown t seen with
    places := Function.update m.places p
      { place with read := Function.update place.read t (seen.accesses t) }
    raced := m.raced || decide (∃ u, (m.known t).accesses u < place.wrote u) })

def write (item : Item) : Memory Thread Atomic Value Place Item :=
  let place := m.places p
  let seen := (m.known t).tick t
  { m.setKnown t seen with
    places := Function.update m.places p
      { place with item, wrote := Function.update place.wrote t (seen.accesses t) }
    raced := m.raced ||
      decide (∃ u, (m.known t).accesses u < place.wrote u ∨ (m.known t).accesses u < place.read u) }

end Operations

/-- Every view kept anywhere in the memory is of this kind. -/
structure All (good : View Thread Atomic → Prop)
    (m : Memory Thread Atomic Value Place Item) : Prop where
  known : ∀ t, good (m.known t)
  fenced : ∀ t, good (m.fenced t)
  pending : ∀ t, good (m.pending t)
  messages : ∀ x, ∀ w : Message Thread Atomic Value, w ∈ m.history x → good w.view

/-- Not ahead of these numbers of accesses and lengths of modification orders. -/
def Within (accesses : Thread → Nat) (lengths : Atomic → Nat) (v : View Thread Atomic) : Prop :=
  (∀ t, v.accesses t ≤ accesses t) ∧ ∀ x, v.entries x < lengths x

def times (m : Memory Thread Atomic Value Place Item) (t : Thread) : Nat :=
  (m.known t).accesses t

def lengths (m : Memory Thread Atomic Value Place Item) (x : Atomic) : Nat :=
  (m.history x).length

/-- Nothing is known before it happens, a thread knows all that it did itself, and an entry
    tells its own place. -/
structure Timely (m : Memory Thread Atomic Value Place Item) : Prop where
  views : m.All (Within m.times m.lengths)
  labels : ∀ {x i} {w : Message Thread Atomic Value},
    (m.history x)[i]? = some w → w.view.entries x = i
  places : ∀ p t, (m.places p).wrote t ≤ m.times t ∧ (m.places p).read t ≤ m.times t

/-- A step of thread `t` that stores no atomic. -/
structure Local (t : Thread) (m n : Memory Thread Atomic Value Place Item) : Prop where
  history : n.history = m.history
  others : ∀ {u}, u ≠ t → n.known u = m.known u
  grows : (m.known t).Below (n.known t)

end Memory

section Views
variable {v w : View Thread Atomic}

theorem below_refl (v : View Thread Atomic) : v.Below v :=
  ⟨fun _ => le_rfl, fun _ => le_rfl⟩

theorem below_trans {u : View Thread Atomic} (first : u.Below v) (second : v.Below w) :
    u.Below w :=
  ⟨fun t => (first.1 t).trans (second.1 t), fun x => (first.2 x).trans (second.2 x)⟩

theorem below_join (v w : View Thread Atomic) : v.Below (v.join w) :=
  ⟨fun _ => Nat.le_max_left _ _, fun _ => Nat.le_max_left _ _⟩

theorem joined_below (v w : View Thread Atomic) : w.Below (v.join w) :=
  ⟨fun _ => Nat.le_max_right _ _, fun _ => Nat.le_max_right _ _⟩

theorem join_self (v : View Thread Atomic) : v.join v = v := by
  simp [View.join]

theorem below_reach [DecidableEq Atomic] {x : Atomic} {i : Nat} (later : v.entries x ≤ i) :
    v.Below (v.reach x i) := by
  refine ⟨fun _ => le_rfl, fun y => ?_⟩
  by_cases same : y = x
  · simpa [View.reach, same] using later
  · simp [View.reach, same]

theorem reach_self [DecidableEq Atomic] (v : View Thread Atomic) (x : Atomic) :
    v.reach x (v.entries x) = v := by
  simp [View.reach]

theorem below_tick [DecidableEq Thread] (v : View Thread Atomic) (t : Thread) :
    v.Below (v.tick t) := by
  refine ⟨fun u => ?_, fun _ => le_rfl⟩
  by_cases same : u = t
  · simp [View.tick, same]
  · simp [View.tick, same]

theorem within_join {accesses : Thread → Nat} {lengths : Atomic → Nat}
    (hv : Memory.Within accesses lengths v) (hw : Memory.Within accesses lengths w) :
    Memory.Within accesses lengths (v.join w) :=
  ⟨fun t => max_le (hv.1 t) (hw.1 t), fun x => max_lt (hv.2 x) (hw.2 x)⟩

theorem within_reach [DecidableEq Atomic] {accesses : Thread → Nat} {lengths : Atomic → Nat}
    {x : Atomic} {i : Nat} (hv : Memory.Within accesses lengths v) (inside : i < lengths x) :
    Memory.Within accesses lengths (v.reach x i) := by
  refine ⟨hv.1, fun y => ?_⟩
  by_cases same : y = x
  · simpa [View.reach, same] using inside
  · simpa [View.reach, same] using hv.2 y

theorem within_mono {a b : Thread → Nat} {h k : Atomic → Nat} (later : ∀ t, a t ≤ b t)
    (longer : ∀ x, h x ≤ k x) (hv : Memory.Within a h v) : Memory.Within b k v :=
  ⟨fun t => (hv.1 t).trans (later t), fun x => (hv.2 x).trans_le (longer x)⟩

end Views

section Laws
variable [DecidableEq Thread] {m n : Memory Thread Atomic Value Place Item} {t u : Thread}
  {good : View Thread Atomic → Prop}

omit [DecidableEq Thread] in
theorem Memory.All.imp {kind : View Thread Atomic → Prop} (all : m.All good)
    (weaken : ∀ {v}, good v → kind v) : m.All kind :=
  ⟨fun t => weaken (all.known t), fun t => weaken (all.fenced t), fun t => weaken (all.pending t),
    fun x w member => weaken (all.messages x w member)⟩

theorem known_set (v : View Thread Atomic) :
    (m.setKnown t v).known u = if u = t then v else m.known u := by
  simp [Memory.setKnown, Function.update_apply]

/-- A thread counts its own accesses itself. -/
theorem set_known_times {v : View Thread Atomic} (same : v.accesses t = m.times t) :
    (m.setKnown t v).times = m.times := by
  funext u
  simp only [Memory.times, known_set]
  split
  · rename_i own
    rw [own]
    exact same
  · rfl

theorem all_set_known {v : View Thread Atomic} (all : m.All good) (next : good v) :
    (m.setKnown t v).All good := by
  refine ⟨fun u => ?_, all.fenced, all.pending, all.messages⟩
  rw [known_set]
  split
  · exact next
  · exact all.known u

theorem all_acquire_fence (joins : ∀ {v w}, good v → good w → good (v.join w))
    (all : m.All good) : (m.acquireFence t).All good :=
  all_set_known all (joins (all.known t) (all.pending t))

theorem all_release_fence (all : m.All good) : (m.releaseFence t).All good := by
  refine ⟨all.known, fun u => ?_, all.pending, all.messages⟩
  by_cases same : u = t
  · simpa [Memory.releaseFence, same] using all.known t
  · simpa [Memory.releaseFence, same] using all.fenced u

theorem times_grow (step : m.Local t n) (u : Thread) : m.times u ≤ n.times u := by
  by_cases same : u = t
  · rw [same]
    exact step.grows.1 t
  · exact (congrArg (View.accesses · u) (step.others same)).ge

theorem entries_grow (step : m.Local t n) (u : Thread) (x : Atomic) :
    (m.known u).entries x ≤ (n.known u).entries x := by
  by_cases same : u = t
  · rw [same]
    exact step.grows.2 x
  · exact (congrArg (View.entries · x) (step.others same)).ge

omit [DecidableEq Thread] in
theorem local_refl (t : Thread) (m : Memory Thread Atomic Value Place Item) : m.Local t m :=
  ⟨rfl, fun _ => rfl, below_refl _⟩

omit [DecidableEq Thread] in
theorem local_trans {k : Memory Thread Atomic Value Place Item} (first : m.Local t k)
    (second : k.Local t n) : m.Local t n :=
  ⟨second.history.trans first.history,
    fun other => (second.others other).trans (first.others other),
    below_trans first.grows second.grows⟩

section Atomics
variable [DecidableEq Atomic] {x : Atomic} {order : MemoryOrder} {i : Nat} {value : Value}

theorem load_cases (loaded : m.load t x order i = some (value, n)) :
    ∃ w, (m.history x)[i]? = some w ∧ w.value = value ∧ (m.known t).entries x ≤ i ∧
      n = { m.setKnown t
          (if order.acquires then (m.known t).join w.view else (m.known t).reach x i) with
        pending := Function.update m.pending t ((m.pending t).join w.view) } := by
  unfold Memory.load at loaded
  cases found : (m.history x)[i]? with
  | none => simp [found] at loaded
  | some w =>
    simp only [found] at loaded
    split at loaded
    · cases loaded
    · rename_i known
      simp only [Option.some.injEq, Prod.mk.injEq] at loaded
      exact ⟨w, rfl, loaded.1, not_lt.mp known, loaded.2.symm⟩

/-- A load that tells its thread nothing new changes nothing. -/
theorem load_nothing {w : Message Thread Atomic Value} (found : (m.history x)[i]? = some w)
    (newest : (m.known t).entries x = i) (known : (m.known t).join w.view = m.known t)
    (pending : (m.pending t).join w.view = m.pending t) :
    m.load t x order i = some (w.value, m) := by
  have seen : (if order.acquires then (m.known t).join w.view else (m.known t).reach x i) =
      m.known t := by
    split
    · exact known
    · rw [← newest, reach_self]
  simp [Memory.load, found, newest, seen, pending, Memory.setKnown]

theorem all_load (joins : ∀ {v w}, good v → good w → good (v.join w)) (all : m.All good)
    (loaded : m.load t x order i = some (value, n))
    (reached : order.acquires = false → good ((m.known t).reach x i)) : n.All good := by
  obtain ⟨w, found, -, -, after⟩ := load_cases loaded
  have member := all.messages x w (List.mem_of_getElem? found)
  have seen : good
      (if order.acquires then (m.known t).join w.view else (m.known t).reach x i) := by
    split
    · exact joins (all.known t) member
    · rename_i relaxed
      exact reached (Bool.eq_false_iff.mpr relaxed)
  rw [after]
  have known := all_set_known (t := t) all seen
  refine ⟨known.known, known.fenced, fun u => ?_, known.messages⟩
  by_cases same : u = t
  · simpa [same] using joins (all.pending t) member
  · simpa [same] using all.pending u

theorem all_store (all : m.All good)
    (seen : good ((m.known t).reach x (m.history x).length))
    (told : good ((if order.releases then m.known t else m.fenced t).reach x
      (m.history x).length)) : (m.store t x order value).All good := by
  have known := all_set_known (t := t) all seen
  refine ⟨known.known, known.fenced, known.pending, fun y w member => ?_⟩
  by_cases same : y = x
  · subst same
    simp only [Memory.store, Function.update_self, List.mem_append, List.mem_singleton] at member
    rcases member with old | new
    · exact all.messages y w old
    · rw [new]
      exact told
  · simp only [Memory.store, Function.update_of_ne same] at member
    exact all.messages y w member

theorem load_local (timely : m.Timely) (loaded : m.load t x order i = some (value, n)) :
    m.Local t n ∧ i ≤ (n.known t).entries x := by
  obtain ⟨w, found, -, later, after⟩ := load_cases loaded
  have seen : n.known t =
      if order.acquires then (m.known t).join w.view else (m.known t).reach x i := by
    rw [after]
    exact known_set _ |>.trans (if_pos rfl)
  refine ⟨⟨by rw [after]; rfl, fun {u} other => ?_, ?_⟩, ?_⟩
  · rw [after]
    exact known_set _ |>.trans (if_neg other)
  · rw [seen]
    split
    · exact below_join _ _
    · exact below_reach later
  · rw [seen]
    split
    · exact (timely.labels found).symm.le.trans ((joined_below _ _).2 x)
    · simp [View.reach]

/-- The newest entry can always be read. -/
theorem load_newest {w : Message Thread Atomic Value} (timely : m.Timely)
    (newest : (m.history x).getLast? = some w) (t : Thread) (order : MemoryOrder) :
    ∃ i n, m.load t x order i = some (w.value, n) := by
  rw [List.getLast?_eq_getElem?] at newest
  have known := (timely.views.known t).2 x
  have last : ¬ (m.history x).length - 1 < (m.known t).entries x := by
    simp only [Memory.lengths] at known
    omega
  exact ⟨_, _, by rw [Memory.load, newest]; exact if_neg last⟩

theorem load_times (timely : m.Timely) (loaded : m.load t x order i = some (value, n)) :
    n.times = m.times := by
  obtain ⟨w, found, -, -, after⟩ := load_cases loaded
  have told := (timely.views.messages x w (List.mem_of_getElem? found)).1 t
  rw [after]
  refine set_known_times (m := m) ?_
  split
  · exact Nat.max_eq_left told
  · rfl

theorem load_plain (loaded : m.load t x order i = some (value, n)) :
    n.places = m.places ∧ n.raced = m.raced := by
  obtain ⟨w, -, -, -, after⟩ := load_cases loaded
  rw [after]
  exact ⟨rfl, rfl⟩

theorem store_times : (m.store t x order value).times = m.times :=
  set_known_times (m := m) rfl

theorem timely_load (timely : m.Timely) (loaded : m.load t x order i = some (value, n)) :
    n.Timely := by
  obtain ⟨step, -⟩ := load_local timely loaded
  obtain ⟨w, found, -, later, after⟩ := load_cases loaded
  have lengths : n.lengths = m.lengths := funext fun y => congrArg List.length
    (congrFun step.history y)
  have views : m.All (Memory.Within n.times n.lengths) :=
    timely.views.imp (within_mono (times_grow step) fun y => (congrFun lengths y).ge)
  refine ⟨all_load within_join views loaded fun _ => ?_, fun {y j e} entry => ?_, fun p u => ?_⟩
  · refine within_reach (views.known t) ?_
    rw [lengths]
    exact (List.getElem?_eq_some_iff.mp found).1
  · rw [step.history] at entry
    exact timely.labels entry
  · have places : n.places = m.places := by rw [after]; rfl
    rw [places]
    have before := timely.places p u
    exact ⟨before.1.trans (times_grow step u), before.2.trans (times_grow step u)⟩

theorem timely_store (timely : m.Timely) : (m.store t x order value).Timely := by
  have times : (m.store t x order value).times = m.times := store_times
  have longer : ∀ y, m.lengths y ≤ (m.store t x order value).lengths y := by
    intro y
    by_cases same : y = x
    · simp [Memory.lengths, Memory.store, same]
    · simp [Memory.lengths, Memory.store, same]
  have views : m.All (Memory.Within (m.store t x order value).times
      (m.store t x order value).lengths) :=
    timely.views.imp (within_mono (fun u => (congrFun times u).ge) longer)
  have inside : (m.history x).length < (m.store t x order value).lengths x := by
    simp [Memory.lengths, Memory.store]
  refine ⟨all_store views (within_reach (views.known t) inside) ?_, fun {y i w} entry => ?_,
    fun p u => by rw [times]; exact timely.places p u⟩
  · split
    · exact within_reach (views.known t) inside
    · exact within_reach (views.fenced t) inside
  · by_cases same : y = x
    · subst same
      simp only [Memory.store, Function.update_self, List.getElem?_append] at entry
      split at entry
      · exact timely.labels entry
      · obtain ⟨last, new⟩ := List.getElem?_eq_some_iff.mp entry
        simp only [List.length_singleton] at last
        simp only [List.getElem_singleton] at new
        rw [← new]
        simp only [View.reach, Function.update_self]
        omega
    · simp only [Memory.store, Function.update_of_ne same] at entry
      exact timely.labels entry

end Atomics

theorem acquire_fence_local : m.Local t (m.acquireFence t) := by
  refine ⟨rfl, fun other => known_set _ |>.trans (if_neg other), ?_⟩
  rw [Memory.acquireFence, known_set, if_pos rfl]
  exact below_join _ _

theorem acquire_fence_nothing (known : (m.known t).join (m.pending t) = m.known t) :
    m.acquireFence t = m := by
  simp [Memory.acquireFence, Memory.setKnown, known]

theorem acquire_fence_times (timely : m.Timely) : (m.acquireFence t).times = m.times :=
  set_known_times (Nat.max_eq_left ((timely.views.pending t).1 t))

theorem timely_acquire_fence (timely : m.Timely) : (m.acquireFence t).Timely := by
  have later := times_grow (acquire_fence_local : m.Local t (m.acquireFence t))
  have views := timely.views.imp (within_mono later fun _ => le_rfl)
  refine ⟨all_acquire_fence within_join views, timely.labels, fun p u => ?_⟩
  have before := timely.places p u
  exact ⟨before.1.trans (later u), before.2.trans (later u)⟩

theorem timely_release_fence (timely : m.Timely) : (m.releaseFence t).Timely :=
  ⟨all_release_fence timely.views, timely.labels, timely.places⟩

section Accesses
variable [Fintype Thread] [DecidableEq Place] {p : Place} {item : Item}

theorem read_known : (m.read t p).2.known = (m.setKnown t ((m.known t).tick t)).known := rfl

theorem write_known :
    (m.write t p item).known = (m.setKnown t ((m.known t).tick t)).known := rfl

theorem read_local : m.Local t (m.read t p).2 := by
  refine ⟨rfl, fun other => ?_, ?_⟩
  · rw [read_known, known_set, if_neg other]
  · rw [read_known, known_set, if_pos rfl]
    exact below_tick _ _

theorem write_local : m.Local t (m.write t p item) := by
  refine ⟨rfl, fun other => ?_, ?_⟩
  · rw [write_known, known_set, if_neg other]
  · rw [write_known, known_set, if_pos rfl]
    exact below_tick _ _

theorem read_places (q : Place) : (m.read t p).2.places q = if q = p then
    { m.places p with read := Function.update (m.places p).read t (m.times t + 1) }
    else m.places q := by
  by_cases same : q = p
  · simp [Memory.read, same, View.tick, Memory.times]
  · simp [Memory.read, same]

theorem write_places (q : Place) : (m.write t p item).places q = if q = p then
    { m.places p with item, wrote := Function.update (m.places p).wrote t (m.times t + 1) }
    else m.places q := by
  by_cases same : q = p
  · simp [Memory.write, same, View.tick, Memory.times]
  · simp [Memory.write, same]

theorem times_read : (m.read t p).2.times t = m.times t + 1 := by
  simp [Memory.times, read_known, known_set, View.tick]

theorem times_write : (m.write t p item).times t = m.times t + 1 := by
  simp [Memory.times, write_known, known_set, View.tick]

theorem all_read (all : m.All good) (ticked : good ((m.known t).tick t)) :
    (m.read t p).2.All good :=
  have known := all_set_known (t := t) all ticked
  ⟨known.known, known.fenced, known.pending, known.messages⟩

theorem all_write (all : m.All good) (ticked : good ((m.known t).tick t)) :
    (m.write t p item).All good :=
  have known := all_set_known (t := t) all ticked
  ⟨known.known, known.fenced, known.pending, known.messages⟩

omit [Fintype Thread] [DecidableEq Place] in
/-- One more access of `t` is in time after it. -/
theorem within_tick (timely : m.Timely) (step : m.Local t n) (next : n.times t = m.times t + 1) :
    Memory.Within n.times n.lengths ((m.known t).tick t) := by
  have lengths : n.lengths = m.lengths := funext fun y => congrArg List.length
    (congrFun step.history y)
  have known := timely.views.known t
  refine ⟨fun u => ?_, fun x => (known.2 x).trans_eq (congrFun lengths x).symm⟩
  by_cases same : u = t
  · rw [same, next]
    simp [View.tick, Memory.times]
  · simpa [View.tick, same] using (known.1 u).trans (times_grow step u)

theorem timely_read (timely : m.Timely) : (m.read t p).2.Timely := by
  have later := times_grow (read_local : m.Local t (m.read t p).2)
  have views := timely.views.imp (within_mono later fun _ => le_rfl)
  refine ⟨all_read views (within_tick timely read_local times_read), timely.labels, fun q u => ?_⟩
  have before := timely.places q u
  rw [read_places]
  split
  · rename_i same
    subst same
    refine ⟨before.1.trans (later u), ?_⟩
    by_cases own : u = t
    · simp [own, times_read]
    · simpa [own] using before.2.trans (later u)
  · exact ⟨before.1.trans (later u), before.2.trans (later u)⟩

theorem timely_write (timely : m.Timely) : (m.write t p item).Timely := by
  have later := times_grow (write_local : m.Local t (m.write t p item))
  have views := timely.views.imp (within_mono later fun _ => le_rfl)
  refine ⟨all_write views (within_tick timely write_local times_write), timely.labels,
    fun q u => ?_⟩
  have before := timely.places q u
  rw [write_places]
  split
  · rename_i same
    subst same
    refine ⟨?_, before.2.trans (later u)⟩
    by_cases own : u = t
    · simp [own, times_write]
    · simpa [own] using before.1.trans (later u)
  · exact ⟨before.1.trans (later u), before.2.trans (later u)⟩

theorem read_races (unseen : (m.known t).accesses u < (m.places p).wrote u) :
    (m.read t p).2.raced = true := by
  simp only [Memory.read, Bool.or_eq_true, decide_eq_true_eq]
  exact .inr ⟨u, unseen⟩

/-- A read of an item that no other thread has written unseen. -/
theorem read_calm (calm : m.raced = false)
    (seen : ∀ u, (m.places p).wrote u ≤ (m.known t).accesses u) :
    (m.read t p).2.raced = false := by
  simp [Memory.read, calm, seen]

theorem write_calm (calm : m.raced = false)
    (written : ∀ u, (m.places p).wrote u ≤ (m.known t).accesses u)
    (read : ∀ u, (m.places p).read u ≤ (m.known t).accesses u) :
    (m.write t p item).raced = false := by
  simp [Memory.write, calm, written, read]

end Accesses

omit [DecidableEq Thread] in
theorem timely_create (first : Atomic → Value) (items : Place → Item) :
    (Memory.create first items : Memory Thread Atomic Value Place Item).Timely := by
  have start : Memory.Within (Memory.times (Memory.create first items :
      Memory Thread Atomic Value Place Item)) (Memory.lengths (Memory.create first items :
      Memory Thread Atomic Value Place Item)) View.start :=
    ⟨fun _ => Nat.zero_le _, fun _ => Nat.one_pos⟩
  refine ⟨⟨fun _ => start, fun _ => start, fun _ => start, fun x w member => ?_⟩,
    fun {x i w} entry => ?_, fun _ _ => ⟨Nat.zero_le _, Nat.zero_le _⟩⟩
  · rw [List.mem_singleton.mp member]
    exact start
  · obtain ⟨only, same⟩ := List.getElem?_eq_some_iff.mp entry
    simp only [Memory.create, List.length_singleton, Nat.lt_one_iff] at only
    subst only
    rw [← same]
    rfl

end Laws
end WeakMemory
