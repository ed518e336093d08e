import TradingSystems.Phase4.MemoryPool
import TradingSystems.Library.DistinctKeys
import TradingSystems.Library.Prefixes

/- Histories of the pool. A constructor may throw, and then the slot that was found for
   its object stays marked: the marked slots are those of the live objects and those
   that were lost in this way. -/
namespace Phase4
open Bitmap DistinctKeys Prefixes
variable {T Error : Type}

inductive PoolCall (Error T : Type) where
  | allocate (construct : Except Error T)
  | deallocate (ptr : Option Nat)

/-- A live object: its pointer, the slot that the scan found for it, and its value. -/
structure Held (T : Type) where
  ptr : Nat
  slot : Nat
  object : T

structure PoolSession (T : Type) where
  pool : MemoryPool T
  live : List (Held T)
  lost : List Nat

namespace PoolSession

def create (layout : Layout) (size : Nat) : PoolSession T := ⟨.create layout size, [], []⟩

def call (s : PoolSession T) : PoolCall Error T → PoolSession T
  | .allocate construct =>
    match s.pool.allocate construct, s.pool.firstFree, construct with
    | (.ok (some ptr), pool), some slot, .ok object =>
      { s with pool, live := ⟨ptr, slot, object⟩ :: s.live }
    | (.error _, pool), some slot, _ => { s with pool, lost := slot :: s.lost }
    | (_, pool), _, _ => { s with pool }
  | .deallocate ptr =>
    { s with pool := s.pool.deallocate ptr, live := s.live.filter fun h => some h.ptr ≠ ptr }

/-- A pointer is given back only while its object is live. -/
def Owned (s : PoolSession T) : PoolCall Error T → Prop
  | .deallocate (some ptr) => ptr ∈ s.live.map Held.ptr
  | _ => True

structure Accounted (s : PoolSession T) : Prop where
  marks : Marks s.pool.inUse (s.live.map Held.slot ++ s.lost)
  address : ∀ h ∈ s.live, h.ptr = s.pool.layout.addr h.slot
  holds : ∀ h ∈ s.live, s.pool.slots h.slot = some h.object

section Calls
variable {s : PoolSession T}

theorem create_accounted (layout : Layout) (size : Nat) :
    Accounted (create layout size : PoolSession T) where
  marks := marks_replicate size
  address := by simp [create]
  holds := by simp [create]

theorem call_full (full : s.pool.firstFree = none) (construct : Except Error T) :
    s.call (.allocate construct) = s := by
  simp [call, MemoryPool.allocate_full full]

theorem call_constructed {i : Nat} (free : s.pool.firstFree = some i) (object : T) :
    s.call (.allocate (.ok object) : PoolCall Error T) =
      { s with
        pool := s.pool.occupy i object
        live := ⟨s.pool.layout.addr i, i, object⟩ :: s.live } := by
  simp [call, MemoryPool.allocate_ok free, free]

theorem call_threw {i : Nat} (free : s.pool.firstFree = some i) (e : Error) :
    s.call (.allocate (.error e) : PoolCall Error T) =
      { s with
        pool := { s.pool with inUse := s.pool.inUse.set i true }
        lost := i :: s.lost } := by
  simp [call, MemoryPool.allocate, free]

theorem call_null : s.call (.deallocate none : PoolCall Error T) = s := by
  simp [call, MemoryPool.deallocate]

namespace Accounted

theorem slots_nodup (accounted : Accounted s) : (s.live.map Held.slot).Nodup :=
  (List.nodup_append.mp accounted.marks.distinct).1

theorem pointers_nodup (accounted : Accounted s) : (s.live.map Held.ptr).Nodup := by
  refine List.Nodup.map_on ?_ (List.Nodup.of_map _ accounted.slots_nodup)
  intro g hg h hh same
  apply eq_of_key accounted.slots_nodup hg hh
  rw [accounted.address g hg, accounted.address h hh] at same
  exact addr_injective _ same

theorem slot_inside (accounted : Accounted s) {h : Held T} (member : h ∈ s.live) :
    h.slot < s.pool.size :=
  accounted.marks.inside (List.mem_append_left _ (List.mem_map.mpr ⟨h, member, rfl⟩))

theorem slot_of_pointer (accounted : Accounted s) {h : Held T} (member : h ∈ s.live) :
    s.pool.layout.index h.ptr = h.slot := by
  rw [accounted.address h member, index_addr]

theorem deallocated (accounted : Accounted s) {h : Held T} (member : h ∈ s.live) :
    s.pool.deallocate (some h.ptr) =
      { s.pool with
        inUse := s.pool.inUse.set h.slot false
        slots := Function.update s.pool.slots h.slot none } := by
  have inside : h.slot < s.pool.inUse.length := accounted.slot_inside member
  simp only [MemoryPool.deallocate, accounted.slot_of_pointer member, inside, ↓reduceIte]

theorem constructed (accounted : Accounted s) {i : Nat} (free : s.pool.firstFree = some i)
    (object : T) : Accounted (s.call (.allocate (.ok object) : PoolCall Error T)) := by
  have clear := MemoryPool.first_free_spec free
  have absent := accounted.marks.absent clear
  rw [call_constructed free]
  refine ⟨accounted.marks.set clear, ?_, ?_⟩
  · intro h member
    rcases List.mem_cons.mp member with new | old
    · subst new
      rfl
    · exact accounted.address h old
  · intro h member
    rcases List.mem_cons.mp member with new | old
    · subst new
      exact Function.update_self ..
    · have differ : h.slot ≠ i := by
        intro same
        subst same
        exact absent (List.mem_append_left _ (List.mem_map.mpr ⟨h, old, rfl⟩))
      exact (Function.update_of_ne differ ..).trans (accounted.holds h old)

theorem threw (accounted : Accounted s) {i : Nat} (free : s.pool.firstFree = some i) (e : Error) :
    Accounted (s.call (.allocate (.error e) : PoolCall Error T)) := by
  rw [call_threw free]
  exact {
    marks := (accounted.marks.set (MemoryPool.first_free_spec free)).perm List.perm_middle.symm
    address := accounted.address
    holds := accounted.holds }

theorem released (accounted : Accounted s) {h : Held T} (member : h ∈ s.live) :
    Accounted (s.call (.deallocate (some h.ptr) : PoolCall Error T)) := by
  have split := perm_cons_filter accounted.pointers_nodup member
  have remains : s.live.filter (fun g => some g.ptr ≠ some h.ptr) =
      s.live.filter (fun g => g.ptr ≠ h.ptr) := by simp
  simp only [call, accounted.deallocated member, remains]
  refine ⟨?_, ?_, ?_⟩
  · apply Marks.clear
    exact accounted.marks.perm ((split.map Held.slot).append_right s.lost)
  · intro g left
    exact accounted.address g (List.mem_of_mem_filter left)
  · intro g left
    obtain ⟨inside, other⟩ := List.mem_filter.mp left
    have differ : g.slot ≠ h.slot := by
      intro same
      have eq := eq_of_key accounted.slots_nodup inside member same
      subst eq
      simp at other
    exact (Function.update_of_ne differ ..).trans (accounted.holds g inside)

end Accounted

theorem call_accounted (accounted : Accounted s) {c : PoolCall Error T} (owned : s.Owned c) :
    Accounted (s.call c) := by
  cases c with
  | allocate construct =>
    cases free : s.pool.firstFree with
    | none =>
      rw [call_full free]
      exact accounted
    | some i =>
      cases construct with
      | error e => exact accounted.threw free e
      | ok object => exact accounted.constructed free object
  | deallocate ptr =>
    cases ptr with
    | none =>
      rw [call_null]
      exact accounted
    | some ptr =>
      obtain ⟨h, member, same⟩ := List.mem_map.mp owned
      subst same
      exact accounted.released member

theorem call_size (c : PoolCall Error T) : (s.call c).pool.size = s.pool.size := by
  cases c with
  | allocate construct =>
    cases free : s.pool.firstFree with
    | none => rw [call_full free]
    | some i =>
      cases construct with
      | error e => simp [call_threw free, MemoryPool.size]
      | ok object => simp [call_constructed free, MemoryPool.occupy, MemoryPool.size]
  | deallocate ptr =>
    cases ptr with
    | none => rw [call_null]
    | some ptr =>
      simp only [call, MemoryPool.deallocate, MemoryPool.size]
      split <;> simp

end Calls

section Histories
variable {layout : Layout} {size : Nat}

theorem exec_accounted {calls : List (PoolCall Error T)}
    (given : Each call Owned (create layout size) calls) :
    Accounted (exec call (create layout size) calls) ∧
      (exec call (create layout size) calls).pool.size = size := by
  refine exec_invariant (fun s => Accounted s ∧ s.pool.size = size) ?_
    ⟨create_accounted layout size, by simp [create, MemoryPool.create, MemoryPool.size]⟩ given
  rintro s c ⟨accounted, same⟩ owned
  exact ⟨call_accounted accounted owned, (call_size c).trans same⟩

theorem exec_none_lost {calls : List (PoolCall Empty T)} (s : PoolSession T) :
    (exec call s calls).lost = s.lost := by
  induction calls generalizing s with
  | nil => rfl
  | cons c calls ih =>
    have step : (s.call c).lost = s.lost := by
      cases c with
      | deallocate ptr => rfl
      | allocate construct =>
        cases free : s.pool.firstFree with
        | none => rw [call_full free]
        | some i =>
          cases construct with
          | error impossible => exact impossible.elim
          | ok object => rw [call_constructed free]
    exact (ih (s.call c)).trans step

/-- The live objects have slots of their own, these are the marked slots, allocate fails
    when there are no more, and deallocate frees the slot of its pointer and no other. -/
structure SlotDiscipline (size : Nat) (s : PoolSession T) : Prop where
  apart : (s.live.map Held.slot).Nodup
  marked_iff : ∀ i, s.pool.inUse[i]? = some true ↔ ∃ h ∈ s.live, h.slot = i
  alive : ∀ h ∈ s.live, s.pool.deref h.ptr = some h.object
  null_iff : ∀ object : T, (s.pool.allocate (.ok object : Except Empty T)).1 = .ok none ↔
    s.live.length = size
  frees : ∀ h ∈ s.live, h.slot < size ∧
    (s.pool.deallocate (some h.ptr)).inUse = s.pool.inUse.set h.slot false
  spares : ∀ h ∈ s.live, ∀ g ∈ s.live, g.slot ≠ h.slot →
    (s.pool.deallocate (some h.ptr)).deref g.ptr = some g.object

theorem slot_discipline {calls : List (PoolCall Empty T)}
    (given : Each call Owned (create layout size) calls) :
    SlotDiscipline size (exec call (create layout size) calls) := by
  obtain ⟨accounted, same_size⟩ := exec_accounted given
  have none_lost : (exec call (create layout size) calls).lost = [] := exec_none_lost _
  have marks := accounted.marks
  rw [none_lost, List.append_nil] at marks
  refine ⟨accounted.slots_nodup, ?_, ?_, ?_, ?_, ?_⟩
  · intro i
    rw [← List.mem_map]
    exact marks.exact i
  · intro h member
    rw [MemoryPool.deref, accounted.slot_of_pointer member]
    exact accounted.holds h member
  · intro object
    have bits : (exec call (create layout size) calls).pool.inUse.length = size := same_size
    have full := marks.full_iff
    rw [List.length_map, bits] at full
    rw [MemoryPool.allocate_null_iff]
    exact full
  · intro h member
    rw [accounted.deallocated member]
    exact ⟨same_size ▸ accounted.slot_inside member, rfl⟩
  · intro h member g other differ
    rw [accounted.deallocated member, MemoryPool.deref]
    dsimp only
    rw [accounted.slot_of_pointer other, Function.update_of_ne differ]
    exact accounted.holds g other

theorem slot_discipline_hole : ∃ s : PoolSession String,
    s = exec call (create ⟨4096, 64, by decide⟩ 2)
      [(.allocate (.ok "a") : PoolCall Empty String), .allocate (.ok "b"),
       .deallocate (some 4096), .allocate (.ok "c")] ∧
      s.live.map Held.slot = [0, 1] ∧ SlotDiscipline 2 s := by
  refine ⟨_, rfl, by decide, slot_discipline ?_⟩
  refine each_cons.mpr ⟨trivial, each_cons.mpr ⟨trivial, each_cons.mpr ⟨?_, ?_⟩⟩⟩
  · change 4096 ∈ List.map Held.ptr _
    decide
  · exact each_cons.mpr ⟨trivial, each_nil⟩

def Balanced (s : PoolSession T) : Prop := s.pool.inUse.count true = s.live.length

def Atomic (s : PoolSession T) : PoolCall Error T → Prop
  | .allocate (.error e) =>
    (s.call (.allocate (.error e) : PoolCall Error T)).pool.inUse = s.pool.inUse
  | _ => True

/-- No constructor throws: one that would is not run, since no slot is free for it. -/
def NeverThrows (s : PoolSession T) : PoolCall Error T → Prop
  | .allocate (.error _) => s.pool.firstFree = none
  | _ => True

theorem Accounted.balanced_iff {s : PoolSession T} (accounted : Accounted s) :
    s.Balanced ↔ s.lost = [] := by
  rw [Balanced, accounted.marks.count, List.length_append, List.length_map]
  simp

theorem call_balanced_iff {s : PoolSession T} (accounted : Accounted s) (balanced : s.Balanced)
    {c : PoolCall Error T} (owned : s.Owned c) : (s.call c).Balanced ↔ s.NeverThrows c := by
  rw [(call_accounted accounted owned).balanced_iff]
  have none_lost := accounted.balanced_iff.mp balanced
  cases c with
  | deallocate ptr => simpa [NeverThrows, call] using none_lost
  | allocate construct =>
    cases free : s.pool.firstFree with
    | none => cases construct <;> simp [NeverThrows, call_full free, none_lost, free]
    | some i =>
      cases construct with
      | error e => simp [NeverThrows, call_threw free, free]
      | ok object => simp [NeverThrows, call_constructed free, none_lost]

/-- Failed constructions are atomic, and the marked slots are as many as the live
    objects after every call, if and only if no constructor throws. -/
theorem construction_atomic_iff {calls : List (PoolCall Error T)}
    (given : Each call Owned (create layout size) calls) :
    Always call Balanced (create layout size) calls ∧ Each call Atomic (create layout size) calls ↔
      Each call NeverThrows (create layout size) calls := by
  have start : (create layout size : PoolSession T).Balanced :=
    (create_accounted layout size).balanced_iff.mpr rfl
  have one : ∀ (s : PoolSession T) (c : PoolCall Error T), s.Accounted → s.Balanced → s.Owned c →
      ((s.call c).Balanced ∧ True ↔ s.NeverThrows c) := by
    intro s c accounted balanced owned
    rw [and_true]
    exact call_balanced_iff accounted balanced owned
  have lawful := lawful_iff_each (fun _ _ => True) Accounted Owned (fun _ => trivial)
    (fun _ _ _ _ _ => trivial) (fun _ _ accounted owned => call_accounted accounted owned) one
    (create_accounted layout size) start given
  constructor
  · rintro ⟨always, _⟩
    exact lawful.mp ⟨always, fun _ _ _ _ => trivial⟩
  · intro never
    refine ⟨(lawful.mpr never).1, ?_⟩
    intro before c after split
    have full := never before c after split
    match c with
    | .deallocate _ => trivial
    | .allocate (.ok _) => trivial
    | .allocate (.error e) => simp only [Atomic, call_full full]

theorem construction_atomic_iff_full_pool : ∃ calls : List (PoolCall String String),
    calls = [.allocate (.ok "a"), .allocate (.error "bad_alloc"), .deallocate (some 4096)] ∧
      Always call Balanced (create ⟨4096, 64, by decide⟩ 1) calls ∧
      Each call Atomic (create ⟨4096, 64, by decide⟩ 1) calls := by
  refine ⟨_, rfl, (construction_atomic_iff ?_).mpr ?_⟩
  · refine each_cons.mpr ⟨trivial, each_cons.mpr ⟨trivial, each_cons.mpr ⟨?_, each_nil⟩⟩⟩
    change 4096 ∈ List.map Held.ptr _
    decide
  · exact each_cons.mpr ⟨trivial, each_cons.mpr ⟨rfl, each_cons.mpr ⟨trivial, each_nil⟩⟩⟩

/-- One constructor that throws takes the only slot of a pool for good: nothing is live,
    and the next order finds no slot. -/
theorem construction_not_atomic : ∃ calls : List (PoolCall String String),
    calls = [.allocate (.error "bad_alloc")] ∧
      Each call Owned (create ⟨4096, 64, by decide⟩ 1) calls ∧
      ¬ Always call Balanced (create ⟨4096, 64, by decide⟩ 1) calls ∧
      ¬ Each call Atomic (create ⟨4096, 64, by decide⟩ 1) calls ∧
      ((exec call (create ⟨4096, 64, by decide⟩ 1) calls).pool.allocate
        (.ok "b" : Except String String)).1 = .ok none := by
  refine ⟨_, rfl, each_cons.mpr ⟨trivial, each_nil⟩, ?_, ?_, rfl⟩
  · intro always
    have one_more : 1 = 0 := always [.allocate (.error "bad_alloc")] [] rfl
    cases one_more
  · intro atomic
    have unmarked : [true] = [false] := (each_cons.mp atomic).1
    cases unmarked

end Histories
end PoolSession
end Phase4
