import TradingSystems.Library.WeakMemory
import TradingSystems.Session7.ConcurrentQueue

/- The ring queue with the memory orders that its versions ask for, one producer and one
   consumer. A load may miss stores of the other thread, but never goes back, and that alone
   keeps the indices right: no version ever counts more than is there. -/
namespace Session7
open Runs CircularWindow WeakMemory

/-- The orders of one version; its `push` and `pop` have the same. -/
structure Orderings where
  own : MemoryOrder -- load of the index that the caller stores itself
  fenceBefore : Bool -- an acquire fence before the other index is loaded
  other : MemoryOrder
  fenceAfter : Bool -- a release fence before the store
  store : MemoryOrder

def mixedOrderings : Orderings := ⟨.relaxed, false, .acquire, true, .release⟩

def relaxedOrderings : Orderings := ⟨.relaxed, false, .relaxed, false, .relaxed⟩

def seqCstOrderings : Orderings := ⟨.seqCst, false, .seqCst, false, .seqCst⟩

def fencedOrderings : Orderings := ⟨.relaxed, true, .relaxed, true, .relaxed⟩

/-- What a store says is passed on before it, and the load of it takes it in. -/
def Orderings.Synchronise (o : Orderings) : Prop :=
  o.other.acquires ∧ (o.fenceAfter ∨ o.store.releases)

instance (o : Orderings) : Decidable o.Synchronise := inferInstanceAs (Decidable (_ ∧ (_ ∨ _)))

inductive Caller where
  | producer
  | consumer
deriving DecidableEq

instance : Fintype Caller := ⟨{.producer, .consumer}, fun c => by cases c <;> decide⟩

inductive Index where
  | head
  | tail
deriving DecidableEq

structure ExperimentalQueue (T : Type) where
  memory : Memory Caller Index Nat Nat T
  pusher : PushPc T
  popper : PopPc T
  accepted : List T
  popped : List T

/-- The accesses of the two threads; a load names the entry that it reads. -/
inductive Turn (T : Type) where
  | loadTail (item : T) (entry : Nat)
  | testFull (entry : Nat)
  | writeSlot
  | storeTail
  | loadHead (entry : Nat)
  | testEmpty (entry : Nat)
  | readSlot
  | storeHead

variable {T : Type}

namespace ExperimentalQueue

def create (buffer : Nat → T) : ExperimentalQueue T :=
  ⟨.create (fun _ => 0) buffer, .idle, .idle, [], []⟩

/-- The load of the other index, behind the fence if there is one. -/
def loadOther (o : Orderings) (m : Memory Caller Index Nat Nat T) (c : Caller) (x : Index)
    (entry : Nat) : Option (Nat × Memory Caller Index Nat Nat T) :=
  (if o.fenceBefore then m.acquireFence c else m).load c x o.other entry

def storeOwn (o : Orderings) (m : Memory Caller Index Nat Nat T) (c : Caller) (x : Index)
    (next : Nat) : Memory Caller Index Nat Nat T :=
  (if o.fenceAfter then m.releaseFence c else m).store c x o.store next

/-- One access; a fence is taken with the access that follows it, as it changes only what
    its own thread knows. -/
def access (o : Orderings) (cap : Nat) (s : ExperimentalQueue T) :
    Turn T → Option (ExperimentalQueue T)
  | .loadTail item entry =>
    match s.pusher with
    | .idle => (s.memory.load .producer .tail o.own entry).map fun (currentTail, memory) =>
      { s with memory, pusher := .loaded item currentTail }
    | _ => none
  | .testFull entry =>
    match s.pusher with
    | .loaded item currentTail =>
      let nextTail := (currentTail + 1) % cap
      (loadOther o s.memory .producer .head entry).map fun (head, memory) =>
        if nextTail = head then { s with memory, pusher := .idle } -- returns false
        else { s with memory, pusher := .tested item currentTail nextTail }
    | _ => none
  | .writeSlot =>
    match s.pusher with
    | .tested item currentTail nextTail =>
      some { s with
        memory := s.memory.write .producer currentTail item, pusher := .written item nextTail }
    | _ => none
  | .storeTail =>
    match s.pusher with
    | .written item nextTail => -- returns true
      some { s with
        memory := storeOwn o s.memory .producer .tail nextTail
        pusher := .idle, accepted := s.accepted ++ [item] }
    | _ => none
  | .loadHead entry =>
    match s.popper with
    | .idle => (s.memory.load .consumer .head o.own entry).map fun (currentHead, memory) =>
      { s with memory, popper := .loaded currentHead }
    | _ => none
  | .testEmpty entry =>
    match s.popper with
    | .loaded currentHead =>
      (loadOther o s.memory .consumer .tail entry).map fun (tail, memory) =>
        if currentHead = tail then { s with memory, popper := .idle } -- returns false
        else { s with memory, popper := .tested currentHead }
    | _ => none
  | .readSlot =>
    match s.popper with
    | .tested currentHead =>
      let (item, memory) := s.memory.read .consumer currentHead
      some { s with memory, popper := .read currentHead item }
    | _ => none
  | .storeHead =>
    match s.popper with
    | .read currentHead item => -- returns true
      some { s with
        memory := storeOwn o s.memory .consumer .head ((currentHead + 1) % cap)
        popper := .idle, popped := s.popped ++ [item] }
    | _ => none

def Step (o : Orderings) (cap : Nat) (s : ExperimentalQueue T) (turn : Turn T)
    (t : ExperimentalQueue T) : Prop := s.access o cap turn = some t

/-- How often an index has been stored. -/
def stores (s : ExperimentalQueue T) : Index → Nat
  | .head => s.popped.length
  | .tail => s.accepted.length

end ExperimentalQueue

/-- After `n` stores of the tail. -/
def PushAt (cap n : Nat) : PushPc T → Prop
  | .idle => True
  | .loaded _ currentTail => currentTail = n % cap
  | .tested _ currentTail nextTail => currentTail = n % cap ∧ nextTail = (n + 1) % cap
  | .written _ nextTail => nextTail = (n + 1) % cap

def PopAt (cap n : Nat) : PopPc T → Prop
  | .idle => True
  | .loaded currentHead | .tested currentHead | .read currentHead _ => currentHead = n % cap

/-- Each thread knows its own stores, and as many of the other's as its tests relied on. -/
structure Counts (cap : Nat) (s : ExperimentalQueue T) : Prop where
  timely : s.memory.Timely
  values : ∀ x, (s.memory.history x).map Message.value =
    (List.range (s.stores x + 1)).map (· % cap)
  ownTail : (s.memory.known .producer).entries .tail = s.accepted.length
  ownHead : (s.memory.known .consumer).entries .head = s.popped.length
  room : s.accepted.length + s.pusher.busy.toNat <
    (s.memory.known .producer).entries .head + cap
  items : s.popped.length + s.popper.busy.toNat ≤ (s.memory.known .consumer).entries .tail
  push : PushAt cap s.accepted.length s.pusher
  pop : PopAt cap s.popped.length s.popper

section Steps
variable {cap : Nat} {o : Orderings} {s t : ExperimentalQueue T} {item : T} {entry : Nat}

theorem load_tail_step (step : s.Step o cap (.loadTail item entry) t) :
    s.pusher = .idle ∧ ∃ v m, s.memory.load .producer .tail o.own entry = some (v, m) ∧
      t = { s with memory := m, pusher := .loaded item v } := by
  unfold ExperimentalQueue.Step ExperimentalQueue.access at step
  cases pc : s.pusher with
  | idle =>
    simp only [pc, Option.map_eq_some_iff] at step
    obtain ⟨⟨v, m⟩, loaded, rfl⟩ := step
    exact ⟨rfl, v, m, loaded, rfl⟩
  | loaded _ _ | tested _ _ _ | written _ _ => simp [pc] at step

theorem test_full_step (step : s.Step o cap (.testFull entry) t) :
    ∃ item currentTail v m, s.pusher = .loaded item currentTail ∧
      ExperimentalQueue.loadOther o s.memory .producer .head entry = some (v, m) ∧
      (((currentTail + 1) % cap = v ∧ t = { s with memory := m, pusher := .idle }) ∨
        ((currentTail + 1) % cap ≠ v ∧
          t = { s with
            memory := m
            pusher := .tested item currentTail ((currentTail + 1) % cap) })) := by
  unfold ExperimentalQueue.Step ExperimentalQueue.access at step
  cases pc : s.pusher with
  | loaded item currentTail =>
    simp only [pc, Option.map_eq_some_iff] at step
    obtain ⟨⟨v, m⟩, loaded, after⟩ := step
    refine ⟨item, currentTail, v, m, rfl, loaded, ?_⟩
    split at after
    · exact .inl ⟨‹_›, after.symm⟩
    · exact .inr ⟨‹_›, after.symm⟩
  | idle | tested _ _ _ | written _ _ => simp [pc] at step

theorem write_slot_step (step : s.Step o cap .writeSlot t) :
    ∃ item currentTail nextTail, s.pusher = .tested item currentTail nextTail ∧
      t = { s with
        memory := s.memory.write .producer currentTail item
        pusher := .written item nextTail } := by
  unfold ExperimentalQueue.Step ExperimentalQueue.access at step
  cases pc : s.pusher with
  | tested item currentTail nextTail =>
    simp only [pc, Option.some.injEq] at step
    exact ⟨item, currentTail, nextTail, rfl, step.symm⟩
  | idle | loaded _ _ | written _ _ => simp [pc] at step

theorem store_tail_step (step : s.Step o cap .storeTail t) :
    ∃ item nextTail, s.pusher = .written item nextTail ∧
      t = { s with
        memory := ExperimentalQueue.storeOwn o s.memory .producer .tail nextTail
        pusher := .idle, accepted := s.accepted ++ [item] } := by
  unfold ExperimentalQueue.Step ExperimentalQueue.access at step
  cases pc : s.pusher with
  | written item nextTail =>
    simp only [pc, Option.some.injEq] at step
    exact ⟨item, nextTail, rfl, step.symm⟩
  | idle | loaded _ _ | tested _ _ _ => simp [pc] at step

theorem load_head_step (step : s.Step o cap (.loadHead entry) t) :
    s.popper = .idle ∧ ∃ v m, s.memory.load .consumer .head o.own entry = some (v, m) ∧
      t = { s with memory := m, popper := .loaded v } := by
  unfold ExperimentalQueue.Step ExperimentalQueue.access at step
  cases pc : s.popper with
  | idle =>
    simp only [pc, Option.map_eq_some_iff] at step
    obtain ⟨⟨v, m⟩, loaded, rfl⟩ := step
    exact ⟨rfl, v, m, loaded, rfl⟩
  | loaded _ | tested _ | read _ _ => simp [pc] at step

theorem test_empty_step (step : s.Step o cap (.testEmpty entry) t) :
    ∃ currentHead v m, s.popper = .loaded currentHead ∧
      ExperimentalQueue.loadOther o s.memory .consumer .tail entry = some (v, m) ∧
      ((currentHead = v ∧ t = { s with memory := m, popper := .idle }) ∨
        (currentHead ≠ v ∧ t = { s with memory := m, popper := .tested currentHead })) := by
  unfold ExperimentalQueue.Step ExperimentalQueue.access at step
  cases pc : s.popper with
  | loaded currentHead =>
    simp only [pc, Option.map_eq_some_iff] at step
    obtain ⟨⟨v, m⟩, loaded, after⟩ := step
    refine ⟨currentHead, v, m, rfl, loaded, ?_⟩
    split at after
    · exact .inl ⟨‹_›, after.symm⟩
    · exact .inr ⟨‹_›, after.symm⟩
  | idle | tested _ | read _ _ => simp [pc] at step

theorem read_slot_step (step : s.Step o cap .readSlot t) :
    ∃ currentHead, s.popper = .tested currentHead ∧
      t = { s with
        memory := (s.memory.read .consumer currentHead).2
        popper := .read currentHead (s.memory.places currentHead).item } := by
  unfold ExperimentalQueue.Step ExperimentalQueue.access at step
  cases pc : s.popper with
  | tested currentHead =>
    simp only [pc, Option.some.injEq] at step
    exact ⟨currentHead, rfl, step.symm⟩
  | idle | loaded _ | read _ _ => simp [pc] at step

theorem store_head_step (step : s.Step o cap .storeHead t) :
    ∃ currentHead item, s.popper = .read currentHead item ∧
      t = { s with
        memory := ExperimentalQueue.storeOwn o s.memory .consumer .head ((currentHead + 1) % cap)
        popper := .idle, popped := s.popped ++ [item] } := by
  unfold ExperimentalQueue.Step ExperimentalQueue.access at step
  cases pc : s.popper with
  | read currentHead item =>
    simp only [pc, Option.some.injEq] at step
    exact ⟨currentHead, item, rfl, step.symm⟩
  | idle | loaded _ | tested _ => simp [pc] at step

end Steps

section Counting
variable {cap : Nat} {o : Orderings} {s t : ExperimentalQueue T} {c : Caller} {x : Index}
  {m n : Memory Caller Index Nat Nat T} {v entry : Nat}

theorem load_other_spec (timely : m.Timely)
    (loaded : ExperimentalQueue.loadOther o m c x entry = some (v, n)) :
    m.Local c n ∧ n.Timely ∧ (m.known c).entries x ≤ entry ∧ entry ≤ (n.known c).entries x ∧
      ∃ w, (m.history x)[entry]? = some w ∧ w.value = v := by
  have fence : ∀ {k}, k = (if o.fenceBefore then m.acquireFence c else m) →
      m.Local c k ∧ k.Timely := by
    intro k which
    rw [which]
    split
    · exact ⟨acquire_fence_local, timely_acquire_fence timely⟩
    · exact ⟨local_refl c m, timely⟩
  obtain ⟨before, ready⟩ := fence rfl
  obtain ⟨after, seen⟩ := load_local ready loaded
  obtain ⟨w, found, value, later, -⟩ := load_cases loaded
  rw [before.history] at found
  exact ⟨local_trans before after, timely_load ready loaded,
    (before.grows.2 x).trans later, seen, w, found, value⟩

/-- What the entry of a store passes on. -/
def told (o : Orderings) (m : Memory Caller Index Nat Nat T) (c : Caller) : View Caller Index :=
  if o.fenceAfter || o.store.releases then m.known c else m.fenced c

theorem store_own_history : (ExperimentalQueue.storeOwn o m c x v).history =
    Function.update m.history x
      (m.history x ++ [⟨v, (told o m c).reach x (m.history x).length⟩]) := by
  unfold ExperimentalQueue.storeOwn told
  cases fenced : o.fenceAfter <;> cases released : o.store.releases <;>
    simp [Memory.store, Memory.releaseFence, released]

theorem store_own_known : (ExperimentalQueue.storeOwn o m c x v).known =
    (m.setKnown c ((m.known c).reach x (m.history x).length)).known := by
  unfold ExperimentalQueue.storeOwn
  split <;> rfl

theorem store_own_timely (timely : m.Timely) :
    (ExperimentalQueue.storeOwn o m c x v).Timely := by
  unfold ExperimentalQueue.storeOwn
  split
  · exact timely_store (timely_release_fence timely)
  · exact timely_store timely

namespace Counts

theorem entry_value (held : Counts cap s) {w : Message Caller Index Nat}
    (found : (s.memory.history x)[entry]? = some w) :
    w.value = entry % cap ∧ entry ≤ s.stores x := by
  have mapped := congrArg (fun l : List Nat => l[entry]?) (held.values x)
  simp only [List.getElem?_map, found, Option.map_some] at mapped
  obtain ⟨i, inside, value⟩ := Option.map_eq_some_iff.mp mapped.symm
  obtain ⟨short, same⟩ := List.getElem?_eq_some_iff.mp inside
  rw [List.length_range] at short
  rw [List.getElem_range] at same
  exact ⟨by rw [← value, ← same], by omega⟩

theorem lengths (held : Counts cap s) (x : Index) : s.memory.lengths x = s.stores x + 1 := by
  simpa [Memory.lengths] using congrArg List.length (held.values x)

theorem known_le (held : Counts cap s) (c : Caller) (x : Index) :
    (s.memory.known c).entries x ≤ s.stores x := by
  have known := (held.timely.views.known c).2 x
  rw [held.lengths] at known
  omega

theorem move (held : Counts cap s) (step : s.memory.Local c m) (timely : m.Timely)
    {q : PushPc T} {r : PopPc T}
    (room : s.accepted.length + q.busy.toNat < (m.known .producer).entries .head + cap)
    (items : s.popped.length + r.busy.toNat ≤ (m.known .consumer).entries .tail)
    (push : PushAt cap s.accepted.length q) (pop : PopAt cap s.popped.length r) :
    Counts cap { s with memory := m, pusher := q, popper := r } := by
  have values : ∀ x, (m.history x).map Message.value =
      (List.range (s.stores x + 1)).map (· % cap) := by
    intro x
    rw [step.history]
    exact held.values x
  have known : ∀ c x, (m.known c).entries x < s.stores x + 1 := by
    intro c x
    have before := (timely.views.known c).2 x
    simpa [Memory.lengths, step.history, ← held.lengths] using before
  have tail := entries_grow step .producer .tail
  have head := entries_grow step .consumer .head
  rw [held.ownTail] at tail
  rw [held.ownHead] at head
  exact ⟨timely, values, le_antisymm (Nat.le_of_lt_succ (known .producer .tail)) tail,
    le_antisymm (Nat.le_of_lt_succ (known .consumer .head)) head, room, items, push, pop⟩

theorem room_after (held : Counts cap s) (step : s.memory.Local c m) :
    s.accepted.length + s.pusher.busy.toNat < (m.known .producer).entries .head + cap :=
  held.room.trans_le (Nat.add_le_add_right (entries_grow step _ _) cap)

theorem items_after (held : Counts cap s) (step : s.memory.Local c m) :
    s.popped.length + s.popper.busy.toNat ≤ (m.known .consumer).entries .tail :=
  held.items.trans (entries_grow step _ _)

theorem popped_le (held : Counts cap s) :
    s.popped.length + s.popper.busy.toNat ≤ s.accepted.length :=
  held.items.trans (held.known_le .consumer .tail)

theorem accepted_lt (held : Counts cap s) :
    s.accepted.length + s.pusher.busy.toNat < s.popped.length + cap :=
  held.room.trans_le (Nat.add_le_add_right (held.known_le .producer .head) cap)

theorem room_found (held : Counts cap s) (later : (s.memory.known .producer).entries .head ≤ entry)
    (different : (s.accepted.length + 1) % cap ≠ entry % cap) :
    s.accepted.length + 1 < entry + cap := by
  have room := held.room
  have apart : s.accepted.length + 1 ≠ entry + cap := by
    intro full
    rw [full, Nat.add_mod_right] at different
    exact different rfl
  omega

theorem item_found (held : Counts cap s) (later : (s.memory.known .consumer).entries .tail ≤ entry)
    (different : s.popped.length % cap ≠ entry % cap) : s.popped.length < entry := by
  have items := held.items
  have apart : s.popped.length ≠ entry := by
    intro empty
    rw [empty] at different
    exact different rfl
  omega

end Counts

theorem counts_load_tail {item : T} (held : Counts cap s)
    (step : s.Step o cap (.loadTail item entry) t) : Counts cap t := by
  obtain ⟨pc, v, m, loaded, rfl⟩ := load_tail_step step
  obtain ⟨taken, -⟩ := load_local held.timely loaded
  obtain ⟨w, found, value, later, -⟩ := load_cases loaded
  obtain ⟨index, stored⟩ := held.entry_value found
  rw [held.ownTail] at later
  have newest : entry = s.accepted.length := le_antisymm stored later
  have room := held.room_after taken
  rw [pc] at room
  refine held.move taken (timely_load held.timely loaded) room (held.items_after taken) ?_ held.pop
  rw [PushAt, ← value, index, newest]

theorem counts_test_full (held : Counts cap s) (step : s.Step o cap (.testFull entry) t) :
    Counts cap t := by
  obtain ⟨item, currentTail, v, m, pc, loaded, after⟩ := test_full_step step
  obtain ⟨taken, timely, later, seen, w, found, value⟩ := load_other_spec held.timely loaded
  obtain ⟨index, -⟩ := held.entry_value found
  have current := held.push
  have room := held.room_after taken
  rw [pc] at current room
  rcases after with ⟨-, rfl⟩ | ⟨different, rfl⟩
  · exact held.move taken timely room (held.items_after taken) trivial held.pop
  · have next : (currentTail + 1) % cap = (s.accepted.length + 1) % cap := by
      rw [show currentTail = _ from current, Nat.mod_add_mod]
    have free : s.accepted.length + 1 < entry + cap := by
      rw [next, ← value, index] at different
      exact held.room_found later different
    refine held.move taken timely ?_ (held.items_after taken) ⟨current, next⟩ held.pop
    exact free.trans_le (Nat.add_le_add_right seen cap)

theorem counts_write_slot (held : Counts cap s) (step : s.Step o cap .writeSlot t) :
    Counts cap t := by
  obtain ⟨item, currentTail, nextTail, pc, rfl⟩ := write_slot_step step
  have taken : s.memory.Local .producer (s.memory.write .producer currentTail item) := write_local
  have current := held.push
  have room := held.room_after taken
  rw [pc] at current room
  exact held.move taken (timely_write held.timely) room (held.items_after taken) current.2 held.pop

theorem counts_load_head (held : Counts cap s) (step : s.Step o cap (.loadHead entry) t) :
    Counts cap t := by
  obtain ⟨pc, v, m, loaded, rfl⟩ := load_head_step step
  obtain ⟨taken, -⟩ := load_local held.timely loaded
  obtain ⟨w, found, value, later, -⟩ := load_cases loaded
  obtain ⟨index, stored⟩ := held.entry_value found
  rw [held.ownHead] at later
  have newest : entry = s.popped.length := le_antisymm stored later
  have items := held.items_after taken
  rw [pc] at items
  refine held.move taken (timely_load held.timely loaded) (held.room_after taken) items held.push ?_
  rw [PopAt, ← value, index, newest]

theorem counts_test_empty (held : Counts cap s) (step : s.Step o cap (.testEmpty entry) t) :
    Counts cap t := by
  obtain ⟨currentHead, v, m, pc, loaded, after⟩ := test_empty_step step
  obtain ⟨taken, timely, later, seen, w, found, value⟩ := load_other_spec held.timely loaded
  obtain ⟨index, -⟩ := held.entry_value found
  have current := held.pop
  have items := held.items_after taken
  rw [pc] at current items
  rcases after with ⟨-, rfl⟩ | ⟨different, rfl⟩
  · exact held.move taken timely (held.room_after taken) items held.push trivial
  · have more : s.popped.length < entry := by
      rw [show currentHead = _ from current, ← value, index] at different
      exact held.item_found later different
    exact held.move taken timely (held.room_after taken) (more.trans_le seen) held.push current

theorem counts_read_slot (held : Counts cap s) (step : s.Step o cap .readSlot t) :
    Counts cap t := by
  obtain ⟨currentHead, pc, rfl⟩ := read_slot_step step
  have taken : s.memory.Local .consumer (s.memory.read .consumer currentHead).2 := read_local
  have current := held.pop
  have items := held.items_after taken
  rw [pc] at current items
  exact held.move taken (timely_read held.timely) (held.room_after taken) items held.push current

theorem values_snoc {values : List Nat} {k : Nat}
    (before : values = (List.range (k + 1)).map (· % cap)) :
    values ++ [(k + 1) % cap] = (List.range (k + 1 + 1)).map (· % cap) := by
  rw [before, List.range_succ (n := k + 1), List.map_append]
  rfl

theorem counts_store_tail (held : Counts cap s) (step : s.Step o cap .storeTail t) :
    Counts cap t := by
  obtain ⟨item, nextTail, pc, rfl⟩ := store_tail_step step
  have next := held.push
  have room := held.room
  rw [pc] at next room
  have length := held.lengths .tail
  refine ⟨store_own_timely held.timely, fun x => ?_, ?_, ?_, ?_, ?_, trivial, held.pop⟩
  · rw [store_own_history]
    cases x with
    | head => exact held.values .head
    | tail =>
      rw [Function.update_self, show nextTail = _ from next]
      simpa [ExperimentalQueue.stores] using values_snoc (held.values .tail)
  · rw [store_own_known, known_set, if_pos rfl]
    simpa [View.reach, Memory.lengths, ExperimentalQueue.stores] using length
  · rw [store_own_known, known_set, if_neg (by decide)]
    exact held.ownHead
  · rw [store_own_known, known_set, if_pos rfl]
    simpa [View.reach, PushPc.busy] using room
  · rw [store_own_known, known_set, if_neg (by decide)]
    exact held.items

theorem counts_store_head (held : Counts cap s) (step : s.Step o cap .storeHead t) :
    Counts cap t := by
  obtain ⟨currentHead, item, pc, rfl⟩ := store_head_step step
  have current := held.pop
  have items := held.items
  rw [pc] at current items
  have next : (currentHead + 1) % cap = (s.popped.length + 1) % cap := by
    rw [show currentHead = _ from current, Nat.mod_add_mod]
  have length := held.lengths .head
  refine ⟨store_own_timely held.timely, fun x => ?_, ?_, ?_, ?_, ?_, held.push, trivial⟩
  · rw [store_own_history]
    cases x with
    | head =>
      rw [Function.update_self, next]
      simpa [ExperimentalQueue.stores] using values_snoc (held.values .head)
    | tail => exact held.values .tail
  · rw [store_own_known, known_set, if_neg (by decide)]
    exact held.ownTail
  · rw [store_own_known, known_set, if_pos rfl]
    simpa [View.reach, Memory.lengths, ExperimentalQueue.stores] using length
  · rw [store_own_known, known_set, if_neg (by decide)]
    exact held.room
  · rw [store_own_known, known_set, if_pos rfl]
    simpa [View.reach, PopPc.busy] using items

theorem counts_step {turn : Turn T} (held : Counts cap s) (step : s.Step o cap turn t) :
    Counts cap t := by
  cases turn with
  | loadTail item entry => exact counts_load_tail held step
  | testFull entry => exact counts_test_full held step
  | writeSlot => exact counts_write_slot held step
  | storeTail => exact counts_store_tail held step
  | loadHead entry => exact counts_load_head held step
  | testEmpty entry => exact counts_test_empty held step
  | readSlot => exact counts_read_slot held step
  | storeHead => exact counts_store_head held step

theorem counts_create (pos : 0 < cap) (buffer : Nat → T) :
    Counts cap (ExperimentalQueue.create buffer) := by
  refine ⟨timely_create _ _, fun x => ?_, rfl, rfl, ?_, Nat.le_refl 0, trivial, trivial⟩
  · cases x <;> simp [ExperimentalQueue.create, Memory.create, ExperimentalQueue.stores]
  · simpa [ExperimentalQueue.create, Memory.create, View.start, PushPc.busy] using pos

/-- Whatever the orders are, the counts are right: at most `cap - 1` items are queued, and a
    thread that its test let through has its slot to itself as far as the indices go. -/
theorem counts_in_any_order {turns : List (Turn T)} (pos : 0 < cap) (buffer : Nat → T)
    (run : Run (ExperimentalQueue.Step o cap) (.create buffer) turns s) :
    s.popped.length ≤ s.accepted.length ∧ s.accepted.length < s.popped.length + cap ∧
    (∀ item currentTail nextTail, s.pusher = .tested item currentTail nextTail →
      currentTail = s.accepted.length % cap ∧ s.accepted.length + 1 < s.popped.length + cap) ∧
    ∀ currentHead, s.popper = .tested currentHead →
      currentHead = s.popped.length % cap ∧ s.popped.length < s.accepted.length := by
  have held := run_invariant (Counts cap) (fun step held => counts_step held step) run
    (counts_create pos buffer)
  have le := held.popped_le
  have lt := held.accepted_lt
  refine ⟨by omega, by omega, fun item currentTail nextTail pc => ?_, fun currentHead pc => ?_⟩
  · have push := held.push
    rw [pc] at push lt
    exact ⟨push.1, lt⟩
  · have pop := held.pop
    rw [pc] at pop le
    exact ⟨pop, le⟩

end Counting

theorem counts_in_any_order_relaxed : ∃ s : ExperimentalQueue Nat,
    s.pusher = .tested 8 1 0 ∧ s.popped = [7] ∧ s.accepted.length + 1 < s.popped.length + 2 := by
  have replayed : ∃ s, replay (ExperimentalQueue.access relaxedOrderings 2)
      (.create fun _ => (0 : Nat)) [.loadTail 7 0, .testFull 0, .writeSlot, .storeTail, .loadHead 0,
        .testEmpty 1, .readSlot, .storeHead, .loadTail 8 1, .testFull 1] = some s ∧
      s.pusher = .tested 8 1 0 ∧ s.popped = [7] := ⟨_, rfl, rfl, rfl⟩
  obtain ⟨s, done, pusher, popped⟩ := replayed
  have run : Run (ExperimentalQueue.Step relaxedOrderings 2) (.create fun _ => 0) _ s :=
    run_of_replay id done
  have counts := counts_in_any_order (by decide) _ run
  exact ⟨s, pusher, popped, (counts.2.2.1 8 1 0 pusher).2⟩

end Session7
