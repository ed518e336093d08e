import Mathlib.Data.List.Count
import Mathlib.Data.List.Nodup
import Mathlib.Data.List.Perm.Basic
import Mathlib.Data.List.Range
import Mathlib.Data.Option.Basic

/- Bitmaps of slots. A bitmap and a list of slots without duplicates mark the same
   slots; setting the first clear bit and clearing a set one keep them together, and
   the number of set bits is the number of slots. -/
namespace Bitmap

structure Marks (bits : List Bool) (slots : List Nat) : Prop where
  distinct : slots.Nodup
  exact : ∀ i, bits[i]? = some true ↔ i ∈ slots

def firstClear (bits : List Bool) : Option Nat := bits.findIdx? (fun used => !used)

section Laws
variable {bits : List Bool} {slots : List Nat} {i : Nat}

theorem marks_replicate (size : Nat) : Marks (List.replicate size false) [] where
  distinct := List.nodup_nil
  exact := by
    intro i
    simp only [List.getElem?_replicate, List.not_mem_nil, iff_false]
    split <;> simp

theorem Marks.perm {other : List Nat} (marks : Marks bits slots) (same : slots.Perm other) :
    Marks bits other where
  distinct := same.nodup_iff.mp marks.distinct
  exact i := (marks.exact i).trans same.mem_iff

theorem Marks.inside (marks : Marks bits slots) (member : i ∈ slots) : i < bits.length :=
  (List.getElem?_eq_some_iff.mp ((marks.exact i).mpr member)).1

theorem Marks.absent (marks : Marks bits slots) (clear : bits[i]? = some false) : i ∉ slots := by
  intro member
  rw [(marks.exact i).mpr member] at clear
  cases clear

theorem first_clear_spec (free : firstClear bits = some i) : bits[i]? = some false := by
  obtain ⟨inside, clear, _⟩ := List.findIdx?_eq_some_iff_getElem.mp free
  rw [List.getElem?_eq_getElem inside]
  simpa using clear

theorem Marks.set (marks : Marks bits slots) (clear : bits[i]? = some false) :
    Marks (bits.set i true) (i :: slots) where
  distinct := List.nodup_cons.mpr ⟨marks.absent clear, marks.distinct⟩
  exact := by
    obtain ⟨inside, _⟩ := List.getElem?_eq_some_iff.mp clear
    intro j
    by_cases same : j = i
    · subst same
      simp [List.getElem?_set_self inside]
    · simp [List.getElem?_set_ne (Ne.symm same), marks.exact j, same]

theorem Marks.clear (marks : Marks bits (i :: slots)) : Marks (bits.set i false) slots where
  distinct := (List.nodup_cons.mp marks.distinct).2
  exact := by
    have inside := marks.inside List.mem_cons_self
    have absent := (List.nodup_cons.mp marks.distinct).1
    intro j
    by_cases same : j = i
    · subst same
      simp [List.getElem?_set_self inside, absent]
    · simp [List.getElem?_set_ne (Ne.symm same), marks.exact j, same]

theorem set_clear (clear : bits[i]? = some false) : (bits.set i true).set i false = bits := by
  obtain ⟨inside, value⟩ := List.getElem?_eq_some_iff.mp clear
  rw [List.set_set, ← value, List.set_getElem_self]

/-- The set bits, counted through the positions at which they are. -/
theorem count_positions (bits : List Bool) :
    bits.count true = ((List.range bits.length).filter fun i => bits[i]? = some true).length := by
  have positions : (List.range bits.length).map (fun i => bits[i]?) = bits.map some := by
    apply List.ext_getElem
    · simp
    · intro i left right
      simp only [List.length_map, List.length_range] at left
      simp [List.getElem?_eq_getElem left]
  calc bits.count true
      = (bits.map some).count (some true) :=
        (List.count_map_of_injective bits some (Option.some_injective Bool) true).symm
    _ = ((List.range bits.length).filter fun i => bits[i]? = some true).length := by
        rw [← positions, List.count, List.countP_map, List.countP_eq_length_filter]
        exact congrArg List.length (List.filter_congr fun i _ => beq_eq_decide _ _)

theorem Marks.count (marks : Marks bits slots) : bits.count true = slots.length := by
  rw [count_positions]
  apply List.Perm.length_eq
  rw [List.perm_ext_iff_of_nodup (List.nodup_range.filter _) marks.distinct]
  intro i
  simp only [List.mem_filter, List.mem_range, decide_eq_true_eq, marks.exact]
  exact ⟨And.right, fun member => ⟨marks.inside member, member⟩⟩

/-- No bit is clear exactly when there are as many slots as bits. -/
theorem Marks.full_iff (marks : Marks bits slots) :
    firstClear bits = none ↔ slots.length = bits.length := by
  rw [← marks.count, List.count_eq_length, firstClear, List.findIdx?_eq_none_iff]
  constructor
  · intro set bit member
    simpa using (set bit member).symm
  · intro set bit member
    simp [← set bit member]

end Laws
end Bitmap
