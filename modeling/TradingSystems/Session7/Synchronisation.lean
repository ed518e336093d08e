import TradingSystems.Session7.MemoryOrders
import Mathlib.Data.List.Infix

/- Which orders make the slots safe. An index that is loaded with acquire brings what its
   store passed on, and so every access of a slot is ordered after the last one of the other
   thread; with weaker orders the first item handed over is already a race. -/
namespace Session7
open Runs CircularWindow WeakMemory
variable {T : Type}

/-- Written to its slot, but the tail is not stored yet. -/
def PushPc.holding : PushPc T → List T
  | .written item _ => [item]
  | .idle | .loaded _ _ | .tested _ _ _ => []

def PopPc.holding : PopPc T → List T
  | .read _ item => [item]
  | .idle | .loaded _ | .tested _ => []

namespace ExperimentalQueue

def written (s : ExperimentalQueue T) : List T := s.accepted ++ s.pusher.holding

def taken (s : ExperimentalQueue T) : List T := s.popped ++ s.popper.holding

end ExperimentalQueue

/-- Who knows of a store knows of the access to the slot before it. -/
def Backed (v : View Caller Index) : Prop :=
  v.entries .head ≤ v.accesses .consumer ∧ v.entries .tail ≤ v.accesses .producer

/-- Every slot holds the last item written to it, and no access has raced. -/
structure Ordered (cap : Nat) (s : ExperimentalQueue T) : Prop where
  counts : Counts cap s
  backed : s.memory.All Backed
  writes : s.memory.times .producer = s.written.length
  reads : s.memory.times .consumer = s.taken.length
  wrote : ∀ p, (s.memory.places p).wrote .consumer = 0 ∧
    ∀ k, (s.memory.places p).wrote .producer = k + 1 → k % cap = p
  read : ∀ p, (s.memory.places p).read .producer = 0 ∧
    ∀ k, (s.memory.places p).read .consumer = k + 1 → k % cap = p
  stored : ∀ j item, s.popped.length ≤ j → s.written[j]? = some item →
    (s.memory.places (j % cap)).item = item
  fifo : s.taken <+: s.accepted
  calm : s.memory.raced = false

section Handover
variable {cap : Nat} {o : Orderings} {s t : ExperimentalQueue T} {c : Caller} {x : Index}
  {m n : Memory Caller Index Nat Nat T} {v entry : Nat}

theorem backed_join {v w : View Caller Index} (hv : Backed v) (hw : Backed w) :
    Backed (v.join w) :=
  ⟨max_le_max hv.1 hw.1, max_le_max hv.2 hw.2⟩

theorem Ordered.quiet (held : Ordered cap s) (counts : Counts cap t)
    (backed : t.memory.All Backed) (times : t.memory.times = s.memory.times)
    (plain : t.memory.places = s.memory.places ∧ t.memory.raced = s.memory.raced)
    (written : t.written = s.written) (taken : t.taken = s.taken)
    (popped : s.popped.length ≤ t.popped.length) (accepted : s.accepted <+: t.accepted) :
    Ordered cap t := by
  refine ⟨counts, backed, ?_, ?_, ?_, ?_, fun j item later inside => ?_, ?_, ?_⟩
  · rw [times, written]
    exact held.writes
  · rw [times, taken]
    exact held.reads
  · rw [plain.1]
    exact held.wrote
  · rw [plain.1]
    exact held.read
  · rw [written] at inside
    rw [plain.1]
    exact held.stored j item (popped.trans later) inside
  · rw [taken]
    exact held.fifo.trans accepted
  · rw [plain.2]
    exact held.calm

theorem load_other_backed (acquires : o.other.acquires = true) (all : m.All Backed)
    (loaded : ExperimentalQueue.loadOther o m c x entry = some (v, n)) : n.All Backed := by
  unfold ExperimentalQueue.loadOther at loaded
  refine all_load backed_join ?_ loaded fun relaxed => ?_
  · split
    · exact all_acquire_fence backed_join all
    · exact all
  · rw [acquires] at relaxed
    cases relaxed

theorem load_other_plain (timely : m.Timely)
    (loaded : ExperimentalQueue.loadOther o m c x entry = some (v, n)) :
    n.times = m.times ∧ n.places = m.places ∧ n.raced = m.raced := by
  unfold ExperimentalQueue.loadOther at loaded
  split at loaded
  · have times := (load_times (timely_acquire_fence timely) loaded).trans
      (acquire_fence_times timely)
    have plain := load_plain loaded
    exact ⟨times, plain⟩
  · exact ⟨load_times timely loaded, load_plain loaded⟩

theorem load_own_backed (all : m.All Backed) (newest : entry ≤ (m.known c).entries x)
    (loaded : m.load c x o.own entry = some (v, n)) : n.All Backed := by
  refine all_load backed_join all loaded fun _ => ?_
  have known := all.known c
  cases x with
  | head => exact ⟨newest.trans known.1, known.2⟩
  | tail => exact ⟨known.1, newest.trans known.2⟩

theorem store_own_backed (passed : (o.fenceAfter || o.store.releases) = true) (all : m.All Backed)
    (reached : Backed ((m.known c).reach x (m.history x).length)) :
    (ExperimentalQueue.storeOwn o m c x v).All Backed := by
  unfold ExperimentalQueue.storeOwn
  split
  · refine all_store (all_release_fence all) reached ?_
    split
    · exact reached
    · simpa [Memory.releaseFence] using reached
  · rename_i bare
    rw [Bool.eq_false_iff.mpr bare, Bool.false_or] at passed
    refine all_store all reached ?_
    rw [if_pos passed]
    exact reached

theorem store_own_plain : (ExperimentalQueue.storeOwn o m c x v).times = m.times ∧
    (ExperimentalQueue.storeOwn o m c x v).places = m.places ∧
    (ExperimentalQueue.storeOwn o m c x v).raced = m.raced := by
  unfold ExperimentalQueue.storeOwn
  split
  · exact ⟨store_times, rfl, rfl⟩
  · exact ⟨store_times, rfl, rfl⟩

theorem ordered_load_tail {item : T} (held : Ordered cap s)
    (step : s.Step o cap (.loadTail item entry) t) : Ordered cap t := by
  have counts := counts_load_tail held.counts step
  obtain ⟨pc, v, m, loaded, rfl⟩ := load_tail_step step
  obtain ⟨w, found, -⟩ := load_cases loaded
  have newest := (held.counts.entry_value found).2.trans_eq held.counts.ownTail.symm
  exact held.quiet counts (load_own_backed held.backed newest loaded)
    (load_times held.counts.timely loaded) (load_plain loaded)
    (by simp [ExperimentalQueue.written, pc, PushPc.holding]) rfl le_rfl (List.prefix_refl _)

theorem ordered_load_head (held : Ordered cap s) (step : s.Step o cap (.loadHead entry) t) :
    Ordered cap t := by
  have counts := counts_load_head held.counts step
  obtain ⟨pc, v, m, loaded, rfl⟩ := load_head_step step
  obtain ⟨w, found, -⟩ := load_cases loaded
  have newest := (held.counts.entry_value found).2.trans_eq held.counts.ownHead.symm
  exact held.quiet counts (load_own_backed held.backed newest loaded)
    (load_times held.counts.timely loaded) (load_plain loaded) rfl
    (by simp [ExperimentalQueue.taken, pc, PopPc.holding]) le_rfl (List.prefix_refl _)

theorem ordered_test_full (acquires : o.other.acquires = true) (held : Ordered cap s)
    (step : s.Step o cap (.testFull entry) t) : Ordered cap t := by
  have counts := counts_test_full held.counts step
  obtain ⟨item, currentTail, v, m, pc, loaded, after⟩ := test_full_step step
  obtain ⟨times, plain⟩ := load_other_plain held.counts.timely loaded
  have backed := load_other_backed acquires held.backed loaded
  rcases after with ⟨-, rfl⟩ | ⟨-, rfl⟩
  · exact held.quiet counts backed times plain
      (by simp [ExperimentalQueue.written, pc, PushPc.holding]) rfl le_rfl (List.prefix_refl _)
  · exact held.quiet counts backed times plain
      (by simp [ExperimentalQueue.written, pc, PushPc.holding]) rfl le_rfl (List.prefix_refl _)

theorem ordered_test_empty (acquires : o.other.acquires = true) (held : Ordered cap s)
    (step : s.Step o cap (.testEmpty entry) t) : Ordered cap t := by
  have counts := counts_test_empty held.counts step
  obtain ⟨currentHead, v, m, pc, loaded, after⟩ := test_empty_step step
  obtain ⟨times, plain⟩ := load_other_plain held.counts.timely loaded
  have backed := load_other_backed acquires held.backed loaded
  rcases after with ⟨-, rfl⟩ | ⟨-, rfl⟩
  · exact held.quiet counts backed times plain rfl
      (by simp [ExperimentalQueue.taken, pc, PopPc.holding]) le_rfl (List.prefix_refl _)
  · exact held.quiet counts backed times plain rfl
      (by simp [ExperimentalQueue.taken, pc, PopPc.holding]) le_rfl (List.prefix_refl _)

theorem ordered_store_tail (passed : (o.fenceAfter || o.store.releases) = true)
    (held : Ordered cap s) (step : s.Step o cap .storeTail t) : Ordered cap t := by
  have counts := counts_store_tail held.counts step
  obtain ⟨item, nextTail, pc, rfl⟩ := store_tail_step step
  have known := held.backed.known .producer
  have reached : Backed
      ((s.memory.known .producer).reach .tail (s.memory.history .tail).length) := by
    refine ⟨known.1, ?_⟩
    have entries := held.counts.lengths .tail
    have writes := held.writes
    simp only [Memory.lengths, Memory.times, ExperimentalQueue.stores, ExperimentalQueue.written,
      pc, PushPc.holding, List.length_append, List.length_singleton] at entries writes
    simp [View.reach, entries, writes]
  obtain ⟨times, plain⟩ := store_own_plain (o := o) (m := s.memory) (c := .producer) (x := .tail)
    (v := nextTail)
  exact held.quiet counts (store_own_backed passed held.backed reached) times plain
    (by simp [ExperimentalQueue.written, pc, PushPc.holding]) rfl le_rfl (List.prefix_append _ _)

theorem ordered_store_head (passed : (o.fenceAfter || o.store.releases) = true)
    (held : Ordered cap s) (step : s.Step o cap .storeHead t) : Ordered cap t := by
  have counts := counts_store_head held.counts step
  obtain ⟨currentHead, item, pc, rfl⟩ := store_head_step step
  have known := held.backed.known .consumer
  have reached : Backed
      ((s.memory.known .consumer).reach .head (s.memory.history .head).length) := by
    refine ⟨?_, known.2⟩
    have entries := held.counts.lengths .head
    have reads := held.reads
    simp only [Memory.lengths, Memory.times, ExperimentalQueue.stores, ExperimentalQueue.taken,
      pc, PopPc.holding, List.length_append, List.length_singleton] at entries reads
    simp [View.reach, entries, reads]
  obtain ⟨times, plain⟩ := store_own_plain (o := o) (m := s.memory) (c := .consumer) (x := .head)
    (v := (currentHead + 1) % cap)
  exact held.quiet counts (store_own_backed passed held.backed reached) times plain rfl
    (by simp [ExperimentalQueue.taken, pc, PopPc.holding]) (by simp) (List.prefix_refl _)

namespace Ordered

theorem slot_free (held : Ordered cap s) (busy : s.pusher.busy = true) :
    (s.memory.places (s.accepted.length % cap)).read .consumer ≤
      (s.memory.known .producer).accesses .consumer := by
  cases last : (s.memory.places (s.accepted.length % cap)).read .consumer with
  | zero => exact Nat.zero_le _
  | succ k =>
    have slot := (held.read _).2 k last
    have done := (held.counts.timely.places (s.accepted.length % cap) .consumer).2
    rw [last, held.reads] at done
    have before := done.trans held.fifo.length_le
    have room := held.counts.room
    rw [busy, Bool.toNat_true] at room
    have turn : k + cap ≤ s.accepted.length := by
      by_contra near
      have same := position_injective (by omega) (not_le.mp near) slot
      omega
    have known := (held.backed.known .producer).1
    omega

theorem slot_written (held : Ordered cap s) (busy : s.popper.busy = true) :
    (s.memory.places (s.popped.length % cap)).wrote .producer ≤
      (s.memory.known .consumer).accesses .producer := by
  cases last : (s.memory.places (s.popped.length % cap)).wrote .producer with
  | zero => exact Nat.zero_le _
  | succ k =>
    have slot := (held.wrote _).2 k last
    have done := (held.counts.timely.places (s.popped.length % cap) .producer).1
    have held_back : s.pusher.holding.length ≤ s.pusher.busy.toNat := by
      cases s.pusher <;> simp [PushPc.holding, PushPc.busy]
    rw [last, held.writes, ExperimentalQueue.written, List.length_append] at done
    have short := held.counts.accepted_lt
    have items := held.counts.items
    rw [busy, Bool.toNat_true] at items
    have first : k ≤ s.popped.length := by
      by_contra later
      have same := position_injective (not_le.mp later).le (by omega) slot.symm
      omega
    have known := (held.backed.known .consumer).2
    omega

end Ordered

theorem ordered_write_slot (held : Ordered cap s) (step : s.Step o cap .writeSlot t) :
    Ordered cap t := by
  have counts := counts_write_slot held.counts step
  obtain ⟨item, currentTail, nextTail, pc, rfl⟩ := write_slot_step step
  have current := held.counts.push
  have free := held.slot_free (by rw [pc]; rfl)
  have lt := held.counts.accepted_lt
  rw [pc] at current lt
  rw [← current.1] at free
  have written : s.written = s.accepted := by simp [ExperimentalQueue.written, pc, PushPc.holding]
  have writes := held.writes
  rw [written] at writes
  refine ⟨counts, all_write held.backed ?_, ?_, held.reads, fun p => ?_, fun p => ?_,
    fun j new later inside => ?_, held.fifo, write_calm held.calm (fun u => ?_) fun u => ?_⟩
  · have known := held.backed.known .producer
    exact ⟨known.1, known.2.trans (Nat.le_succ _)⟩
  · rw [times_write, writes]
    simp [ExperimentalQueue.written, PushPc.holding]
  · rw [write_places]
    split
    · rename_i same
      refine ⟨(held.wrote currentTail).1, fun k last => ?_⟩
      simp only [Function.update_self, Nat.add_right_cancel_iff] at last
      rw [same, ← last, writes, current.1]
    · exact held.wrote p
  · rw [write_places]
    split
    · rename_i same
      rw [same]
      exact held.read currentTail
    · exact held.read p
  · replace later : s.popped.length ≤ j := later
    simp only [ExperimentalQueue.written, PushPc.holding, List.getElem?_append] at inside
    rw [write_places]
    split at inside
    · rename_i old
      have apart : j % cap ≠ currentTail := by
        intro same
        have slot := position_injective old.le (by simp [PushPc.busy] at lt; omega)
          (same.trans current.1)
        omega
      rw [if_neg apart]
      exact held.stored j new later (by rw [written]; exact inside)
    · rename_i new_item
      obtain ⟨last, same⟩ := List.getElem?_eq_some_iff.mp inside
      simp only [List.length_singleton, Nat.lt_one_iff] at last
      have slot : j = s.accepted.length := by omega
      rw [if_pos (by rw [slot, current.1])]
      simpa using same
  · cases u with
    | producer => exact (held.counts.timely.places currentTail .producer).1
    | consumer => exact (held.wrote currentTail).1.le.trans (Nat.zero_le _)
  · cases u with
    | producer => exact (held.read currentTail).1.le.trans (Nat.zero_le _)
    | consumer => exact free

theorem ordered_read_slot (held : Ordered cap s) (step : s.Step o cap .readSlot t) :
    Ordered cap t := by
  have counts := counts_read_slot held.counts step
  obtain ⟨currentHead, pc, rfl⟩ := read_slot_step step
  have current := held.counts.pop
  have seen := held.slot_written (by rw [pc]; rfl)
  have le := held.counts.popped_le
  rw [pc] at current le
  rw [← show currentHead = _ from current] at seen
  have taken : s.taken = s.popped := by simp [ExperimentalQueue.taken, pc, PopPc.holding]
  have reads := held.reads
  rw [taken] at reads
  refine ⟨counts, all_read held.backed ?_, held.writes, ?_, fun p => ?_, fun p => ?_,
    fun j item later inside => ?_, ?_, read_calm held.calm fun u => ?_⟩
  · have known := held.backed.known .consumer
    exact ⟨known.1.trans (Nat.le_succ _), known.2⟩
  · rw [times_read, reads]
    simp [ExperimentalQueue.taken, PopPc.holding]
  · rw [read_places]
    split
    · rename_i same
      rw [same]
      exact held.wrote currentHead
    · exact held.wrote p
  · rw [read_places]
    split
    · rename_i same
      refine ⟨(held.read currentHead).1, fun k last => ?_⟩
      simp only [Function.update_self, Nat.add_right_cancel_iff] at last
      rw [same, ← last, reads]
      exact current.symm
    · exact held.read p
  · rw [read_places]
    split
    · rename_i same
      rw [← same]
      exact held.stored j item later inside
    · exact held.stored j item later inside
  · have before := held.fifo
    rw [taken] at before
    have next := List.concat_get_prefix before le
    have item := held.stored s.popped.length _ le_rfl
      ((List.getElem?_append_left le).trans (List.getElem?_eq_getElem le))
    rw [← show currentHead = _ from current] at item
    change s.popped ++ [(s.memory.places currentHead).item] <+: s.accepted
    rw [item]
    exact next
  · cases u with
    | producer => exact seen
    | consumer => exact (held.wrote currentHead).1.le.trans (Nat.zero_le _)

theorem ordered_step {turn : Turn T} (syncs : o.Synchronise) (held : Ordered cap s)
    (step : s.Step o cap turn t) : Ordered cap t := by
  have passed : (o.fenceAfter || o.store.releases) = true := by simpa using syncs.2
  cases turn with
  | loadTail item entry => exact ordered_load_tail held step
  | testFull entry => exact ordered_test_full syncs.1 held step
  | writeSlot => exact ordered_write_slot held step
  | storeTail => exact ordered_store_tail passed held step
  | loadHead entry => exact ordered_load_head held step
  | testEmpty entry => exact ordered_test_empty syncs.1 held step
  | readSlot => exact ordered_read_slot held step
  | storeHead => exact ordered_store_head passed held step

theorem ordered_create (pos : 0 < cap) (buffer : Nat → T) :
    Ordered cap (ExperimentalQueue.create buffer) := by
  have start : Backed View.start := ⟨le_rfl, le_rfl⟩
  refine ⟨counts_create pos buffer, ⟨fun _ => start, fun _ => start, fun _ => start,
    fun x w member => ?_⟩, rfl, rfl, fun p => ⟨rfl, fun k last => ?_⟩,
    fun p => ⟨rfl, fun k last => ?_⟩, fun j item _ inside => ?_, List.prefix_refl _, rfl⟩
  · rw [List.mem_singleton.mp member]
    exact start
  · cases last
  · cases last
  · cases inside

end Handover

section FirstItem
variable {cap : Nat} {o : Orderings}

/-- The memory when the first item is in its slot. -/
def firstWrite (buffer : Nat → T) : Memory Caller Index Nat Nat T :=
  (Memory.create (fun _ => 0) buffer).write .producer 0 (buffer 0)

theorem first_push_run (two : 2 ≤ cap) (buffer : Nat → T) :
    Run (ExperimentalQueue.Step o cap) (.create buffer)
      [.loadTail (buffer 0) 0, .testFull 0, .writeSlot, .storeTail]
      ⟨ExperimentalQueue.storeOwn o (firstWrite buffer) .producer .tail 1, .idle, .idle,
        [buffer 0], []⟩ := by
  have one : 1 % cap = 1 := Nat.mod_eq_of_lt two
  have load : ∀ c x order, (ExperimentalQueue.create buffer).memory.load c x order 0 =
      some (0, (ExperimentalQueue.create buffer).memory) :=
    fun c x order => load_nothing (w := ⟨0, .start⟩) rfl rfl (join_self _) (join_self _)
  have fence : ∀ c, (ExperimentalQueue.create buffer).memory.acquireFence c =
      (ExperimentalQueue.create buffer).memory := fun c => acquire_fence_nothing (join_self _)
  have first : (ExperimentalQueue.create buffer).Step o cap (.loadTail (buffer 0) 0)
      { ExperimentalQueue.create buffer with pusher := .loaded (buffer 0) 0 } := by
    simp only [ExperimentalQueue.Step, ExperimentalQueue.access]
    rw [show (ExperimentalQueue.create buffer).pusher = .idle from rfl, load]
    rfl
  have second : ExperimentalQueue.Step o cap
      { ExperimentalQueue.create buffer with pusher := .loaded (buffer 0) 0 } (.testFull 0)
      { ExperimentalQueue.create buffer with pusher := .tested (buffer 0) 0 1 } := by
    simp only [ExperimentalQueue.Step, ExperimentalQueue.access, ExperimentalQueue.loadOther]
    rw [fence, ite_self, load]
    simp [one]
  have third : ExperimentalQueue.Step o cap
      { ExperimentalQueue.create buffer with pusher := .tested (buffer 0) 0 1 } .writeSlot
      ⟨firstWrite buffer, .written (buffer 0) 1, .idle, [], []⟩ := rfl
  exact run_cons first (run_cons second (run_cons third (run_one rfl)))

theorem first_told (buffer : Nat → T) (silent : (o.fenceAfter || o.store.releases) = false) :
    (told o (firstWrite buffer) .producer).accesses .producer = 0 := by
  simp [told, silent, firstWrite, Memory.write, Memory.create, Memory.setKnown, View.start]

theorem first_pop_races (two : 2 ≤ cap) (apart : ¬ o.Synchronise) (buffer : Nat → T) :
    ∃ turns s, Run (ExperimentalQueue.Step o cap) (.create buffer) turns s ∧
      s.memory.raced = true := by
  have pushed := first_push_run (o := o) two buffer
  have tail : (ExperimentalQueue.storeOwn o (firstWrite buffer) .producer .tail 1).history .tail =
      [⟨0, .start⟩, ⟨1, (told o (firstWrite buffer) .producer).reach .tail 1⟩] := by
    rw [store_own_history, Function.update_self]
    rfl
  have head : (ExperimentalQueue.storeOwn o (firstWrite buffer) .producer .tail 1).history .head =
      [⟨0, .start⟩] := by
    rw [store_own_history]
    rfl
  have known : (ExperimentalQueue.storeOwn o (firstWrite buffer) .producer .tail 1).known
      .consumer = .start := by
    rw [store_own_known]
    rfl
  have pending : (ExperimentalQueue.storeOwn o (firstWrite buffer) .producer .tail 1).pending
      .consumer = .start := by
    unfold ExperimentalQueue.storeOwn
    split <;> rfl
  have places := (store_own_plain (o := o) (m := firstWrite buffer) (c := .producer) (x := .tail)
    (v := 1)).2.1
  generalize ExperimentalQueue.storeOwn o (firstWrite buffer) .producer .tail 1 = m at *
  have load : m.load .consumer .head o.own 0 = some (0, m) :=
    load_nothing (w := ⟨0, .start⟩) (by rw [head]; rfl) (by rw [known]; rfl)
      (by rw [known]; exact join_self _) (by rw [pending]; exact join_self _)
  have fence : m.acquireFence .consumer = m :=
    acquire_fence_nothing (by rw [known, pending]; exact join_self _)
  have test : ∃ n, m.load .consumer .tail o.other 1 = some (1, n) := by
    simp [Memory.load, tail, known, View.start]
  obtain ⟨n, test⟩ := test
  have other : ExperimentalQueue.loadOther o m .consumer .tail 1 = some (1, n) := by
    rw [ExperimentalQueue.loadOther, fence, ite_self, test]
  have blind : (n.known .consumer).accesses .producer = 0 := by
    obtain ⟨w, found, -, -, after⟩ := load_cases test
    rw [tail] at found
    cases found
    rw [after]
    change ((m.setKnown _ _).known .consumer).accesses .producer = 0
    rw [known_set, if_pos rfl, known]
    split
    · rename_i acquires
      have silent : (o.fenceAfter || o.store.releases) = false := by
        simpa [Orderings.Synchronise, acquires] using apart
      exact Nat.max_eq_zero_iff.mpr ⟨rfl, first_told buffer silent⟩
    · rfl
  have unseen : (n.known .consumer).accesses .producer < (n.places 0).wrote .producer := by
    rw [blind, (load_plain test).1, places]
    simp [firstWrite, Memory.write, Memory.create, View.tick, View.start]
  have first : ExperimentalQueue.Step o cap ⟨m, .idle, .idle, [buffer 0], []⟩ (.loadHead 0)
      ⟨m, .idle, .loaded 0, [buffer 0], []⟩ := by
    simp [ExperimentalQueue.Step, ExperimentalQueue.access, load]
  have second : ExperimentalQueue.Step o cap ⟨m, .idle, .loaded 0, [buffer 0], []⟩ (.testEmpty 1)
      ⟨n, .idle, .tested 0, [buffer 0], []⟩ := by
    simp [ExperimentalQueue.Step, ExperimentalQueue.access, other]
  have third : ExperimentalQueue.Step o cap ⟨n, .idle, .tested 0, [buffer 0], []⟩ .readSlot
      ⟨(n.read .consumer 0).2, .idle, .read 0 (n.places 0).item, [buffer 0], []⟩ := rfl
  exact ⟨_, _, ((pushed.snoc first).snoc second).snoc third, read_races unseen⟩

/-- With one producer and one consumer the slots are safe in every run if and only if the
    other index is loaded with acquire and stored with release or behind a release fence. -/
theorem race_free_iff (two : 2 ≤ cap) (o : Orderings) (buffer : Nat → T) :
    (∀ turns s, Run (ExperimentalQueue.Step o cap) (.create buffer) turns s →
      s.memory.raced = false ∧ s.popped <+: s.accepted) ↔ o.Synchronise := by
  constructor
  · intro safe
    by_contra apart
    obtain ⟨turns, s, run, raced⟩ := first_pop_races two apart buffer
    rw [(safe turns s run).1] at raced
    cases raced
  · intro syncs turns s run
    have held := run_invariant (Ordered cap) (fun step held => ordered_step syncs held step) run
      (ordered_create (by omega) buffer)
    exact ⟨held.calm, (List.prefix_append _ _).trans held.fifo⟩

example : mixedOrderings.Synchronise ∧ seqCstOrderings.Synchronise ∧
    ¬ relaxedOrderings.Synchronise ∧ ¬ fencedOrderings.Synchronise := by decide

end FirstItem

theorem race_free_iff_fenced :
    (∀ turns s, Run (ExperimentalQueue.Step mixedOrderings 2) (.create fun _ => (0 : Nat)) turns s →
      s.memory.raced = false ∧ s.popped <+: s.accepted) ∧
    ¬ ∀ turns s,
      Run (ExperimentalQueue.Step fencedOrderings 2) (.create fun _ => (0 : Nat)) turns s →
      s.memory.raced = false ∧ s.popped <+: s.accepted :=
  ⟨(race_free_iff (by decide) mixedOrderings _).mpr (by decide), fun safe =>
    absurd ((race_free_iff (by decide) fencedOrderings _).mp safe) (by decide)⟩

end Session7
