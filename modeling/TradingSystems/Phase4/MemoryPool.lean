import TradingSystems.Library.Bitmap
import Mathlib.Logic.Function.Basic
import Mathlib.Tactic.Cases

/- The fixed pool of object slots. Pointers are byte addresses, and deallocate
   recovers the slot by the division that the source performs. A slot whose
   object was destroyed, or never built, reads as `none`. -/
namespace Phase4
open Bitmap

/-- Where `pool_.data()` lies and how wide a slot is. -/
structure Layout where
  base : Nat
  slotSize : Nat
  sized : 0 < slotSize

def Layout.addr (m : Layout) (i : Nat) : Nat := m.base + i * m.slotSize
def Layout.index (m : Layout) (ptr : Nat) : Nat := (ptr - m.base) / m.slotSize

@[simp] theorem index_addr (m : Layout) (i : Nat) : m.index (m.addr i) = i := by
  simp only [Layout.index, Layout.addr, Nat.add_sub_cancel_left]
  exact Nat.mul_div_cancel i m.sized

theorem addr_injective (m : Layout) {i j : Nat} (same : m.addr i = m.addr j) : i = j := by
  rw [← index_addr m i, same, index_addr]

structure MemoryPool (T : Type) where
  layout : Layout
  inUse : List Bool
  slots : Nat → Option T

namespace MemoryPool
variable {T Error : Type}

def create (layout : Layout) (size : Nat) : MemoryPool T :=
  ⟨layout, List.replicate size false, fun _ => none⟩

def size (p : MemoryPool T) : Nat := p.inUse.length

/-- The scan for the first slot whose bit is clear. -/
def firstFree (p : MemoryPool T) : Option Nat := p.inUse.findIdx? (fun used => !used)

/-- The bit is set before the constructor runs, so a constructor that throws
    leaves it set. A null pointer is `none`. -/
def allocate (p : MemoryPool T) (construct : Except Error T) :
    Except Error (Option Nat) × MemoryPool T :=
  match p.firstFree with
  | none => (.ok none, p)
  | some i =>
    let marked := { p with inUse := p.inUse.set i true }
    match construct with
    | .error e => (.error e, marked)
    | .ok object =>
      (.ok (some (p.layout.addr i)),
       { marked with slots := Function.update p.slots i (some object) })

def deallocate (p : MemoryPool T) : Option Nat → MemoryPool T
  | none => p
  | some ptr =>
    let idx := p.layout.index ptr
    { p with
      slots := Function.update p.slots idx none
      inUse := if idx < p.inUse.length then p.inUse.set idx false else p.inUse }

/-- The object behind a pointer, when there is a live one. -/
def deref (p : MemoryPool T) (ptr : Nat) : Option T := p.slots (p.layout.index ptr)

/-- An assignment through a pointer. -/
def store (p : MemoryPool T) (ptr : Nat) (object : T) : MemoryPool T :=
  { p with slots := Function.update p.slots (p.layout.index ptr) (some object) }

/-- The pool after `object` was built in slot `i`. -/
def occupy (p : MemoryPool T) (i : Nat) (object : T) : MemoryPool T :=
  { p with inUse := p.inUse.set i true, slots := Function.update p.slots i (some object) }

/-- `live` lists the pointers that were handed out and not yet given back. -/
structure Owns (p : MemoryPool T) (live : List Nat) : Prop where
  chosen : ∀ ptr ∈ live, ∃ i, i < p.size ∧ ptr = p.layout.addr i
  distinct : live.Nodup
  marked : ∀ i, p.inUse[i]? = some true ↔ p.layout.addr i ∈ live
  alive : ∀ ptr ∈ live, ∃ object, p.deref ptr = some object

theorem first_free_spec {p : MemoryPool T} {i : Nat} (free : p.firstFree = some i) :
    p.inUse[i]? = some false := first_clear_spec free

section Ownership
variable {p : MemoryPool T} {live : List Nat}

theorem create_owns (layout : Layout) (size : Nat) :
    (create layout size : MemoryPool T).Owns [] where
  chosen := by simp
  distinct := List.nodup_nil
  marked i := by simpa only [create, List.not_mem_nil] using (marks_replicate size).exact i
  alive := by simp

theorem Owns.perm {other : List Nat} (owns : p.Owns live) (same : live.Perm other) :
    p.Owns other where
  chosen ptr member := owns.chosen ptr (same.mem_iff.mpr member)
  distinct := same.nodup_iff.mp owns.distinct
  marked i := (owns.marked i).trans same.mem_iff
  alive ptr member := owns.alive ptr (same.mem_iff.mpr member)

theorem Owns.index_inside (owns : p.Owns live) {ptr : Nat} (member : ptr ∈ live) :
    p.layout.index ptr < p.size ∧ p.layout.addr (p.layout.index ptr) = ptr := by
  obtain ⟨i, inside, chosen⟩ := owns.chosen ptr member
  subst chosen
  simpa using inside

theorem Owns.index_ne (owns : p.Owns live) {ptr other : Nat} (member : ptr ∈ live)
    (member' : other ∈ live) (differ : ptr ≠ other) :
    p.layout.index ptr ≠ p.layout.index other := by
  intro same
  apply differ
  rw [← (owns.index_inside member).2, same, (owns.index_inside member').2]

theorem Owns.slots_nodup (owns : p.Owns live) : (live.map p.layout.index).Nodup := by
  refine List.Nodup.map_on ?_ owns.distinct
  intro a ha b hb same
  by_contra differ
  exact owns.index_ne ha hb differ same

theorem mem_slots_iff {m : Layout} (chosen : ∀ ptr ∈ live, ∃ i, ptr = m.addr i) {i : Nat} :
    i ∈ live.map m.index ↔ m.addr i ∈ live := by
  rw [List.mem_map]
  constructor
  · intro held
    obtain ⟨ptr, member, same⟩ := held
    obtain ⟨j, address⟩ := chosen ptr member
    rw [address, index_addr] at same
    rwa [← same, ← address]
  · intro member
    exact ⟨_, member, index_addr _ _⟩

theorem Owns.marks (owns : p.Owns live) : Marks p.inUse (live.map p.layout.index) where
  distinct := owns.slots_nodup
  exact i := by
    have chosen : ∀ ptr ∈ live, ∃ i, ptr = p.layout.addr i := fun ptr member =>
      (owns.chosen ptr member).imp fun _ => And.right
    rw [owns.marked i, mem_slots_iff chosen]

theorem owns_of_marks (marks : Marks p.inUse (live.map p.layout.index))
    (chosen : ∀ ptr ∈ live, ∃ i, ptr = p.layout.addr i)
    (alive : ∀ ptr ∈ live, ∃ object, p.deref ptr = some object) : p.Owns live where
  chosen ptr member := by
    obtain ⟨i, address⟩ := chosen ptr member
    subst address
    exact ⟨i, marks.inside ((mem_slots_iff chosen).mpr member), rfl⟩
  distinct := List.Nodup.of_map _ marks.distinct
  marked i := (marks.exact i).trans (mem_slots_iff chosen)
  alive := alive

theorem allocate_full (full : p.firstFree = none) (construct : Except Error T) :
    p.allocate construct = (.ok none, p) := by
  simp [allocate, full]

theorem allocate_ok {i : Nat} (free : p.firstFree = some i) (object : T) :
    p.allocate (.ok object : Except Error T) =
      (.ok (some (p.layout.addr i)), p.occupy i object) := by
  simp [allocate, free, occupy]

theorem allocate_null_iff (p : MemoryPool T) (object : T) :
    (p.allocate (.ok object : Except Error T)).1 = .ok none ↔ p.firstFree = none := by
  cases free : p.firstFree with
  | none => simp [allocate_full free]
  | some i => simp [allocate_ok free]

section Occupied
variable {i : Nat} {object : T}

theorem fresh_address (owns : p.Owns live) (free : p.firstFree = some i) :
    p.layout.addr i ∉ live := by
  intro member
  have used := (owns.marked i).mpr member
  rw [first_free_spec free] at used
  cases used

@[simp] theorem occupied_deref_new : (p.occupy i object).deref (p.layout.addr i) = some object := by
  simp [occupy, deref]

theorem occupied_deref_old (owns : p.Owns live) (free : p.firstFree = some i) {ptr : Nat}
    (member : ptr ∈ live) : (p.occupy i object).deref ptr = p.deref ptr := by
  have other : p.layout.index ptr ≠ i := by
    intro same
    apply fresh_address owns free
    rw [← same, (owns.index_inside member).2]
    exact member
  simp [occupy, deref, Function.update_of_ne other]

theorem occupied_owns (owns : p.Owns live) (free : p.firstFree = some i) :
    (p.occupy i object).Owns (p.layout.addr i :: live) := by
  apply owns_of_marks
  · have marks := owns.marks.set (first_free_spec free)
    simpa [occupy] using marks
  · intro ptr member
    rcases List.mem_cons.mp member with same | old
    · exact ⟨i, same⟩
    · exact (owns.chosen ptr old).imp fun _ => And.right
  · intro ptr member
    rcases List.mem_cons.mp member with same | old
    · exact ⟨object, same ▸ occupied_deref_new⟩
    · rw [occupied_deref_old owns free old]
      exact owns.alive ptr old

end Occupied

section Deallocated
variable {ptr : Nat}

theorem deallocated_deref (owns : p.Owns (ptr :: live)) {other : Nat} (member : other ∈ live) :
    (p.deallocate (some ptr)).deref other = p.deref other := by
  have differ : other ≠ ptr := by
    intro same
    exact (List.nodup_cons.mp owns.distinct).1 (same ▸ member)
  have apart := owns.index_ne (by simp [member]) (by simp) differ
  simp [deallocate, deref, Function.update_of_ne apart]

theorem deallocated_owns (owns : p.Owns (ptr :: live)) : (p.deallocate (some ptr)).Owns live := by
  have bound : p.layout.index ptr < p.inUse.length :=
    (owns.index_inside (List.mem_cons_self : ptr ∈ ptr :: live)).1
  apply owns_of_marks
  · have marks := owns.marks.clear
    simpa only [deallocate, bound, ↓reduceIte] using marks
  · intro other member
    exact (owns.chosen other (by simp [member])).imp fun _ => And.right
  · intro other member
    rw [deallocated_deref owns member]
    exact owns.alive other (by simp [member])

end Deallocated

section Stored
variable {ptr : Nat} {object : T}

@[simp] theorem stored_deref_same : (p.store ptr object).deref ptr = some object := by
  simp [store, deref]

theorem stored_deref_other (owns : p.Owns live) (member : ptr ∈ live) {other : Nat}
    (member' : other ∈ live) (differ : other ≠ ptr) :
    (p.store ptr object).deref other = p.deref other := by
  simp [store, deref, Function.update_of_ne (owns.index_ne member' member differ)]

theorem stored_owns (owns : p.Owns live) (member : ptr ∈ live) :
    (p.store ptr object).Owns live where
  chosen := owns.chosen
  distinct := owns.distinct
  marked := owns.marked
  alive := by
    intro other member'
    by_cases same : other = ptr
    · exact ⟨object, by rw [same]; exact stored_deref_same⟩
    · rw [stored_deref_other owns member member' same]
      exact owns.alive other member'

end Stored

theorem Owns.used_count (owns : p.Owns live) : p.inUse.count true = live.length := by
  rw [owns.marks.count, List.length_map]

theorem Owns.length_le (owns : p.Owns live) : live.length ≤ p.size := by
  rw [← owns.used_count]
  exact List.count_le_length

theorem full_iff_all_live (owns : p.Owns live) : p.firstFree = none ↔ live.length = p.size := by
  have full := owns.marks.full_iff
  rw [List.length_map] at full
  exact full

end Ownership
end MemoryPool
end Phase4
