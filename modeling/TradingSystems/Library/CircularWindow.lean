import Mathlib.Data.Nat.ModEq
import Mathlib.Data.List.Basic
import Mathlib.Logic.Function.Basic

/- A window of consecutive slots in a circular buffer. The window starts at slot
   `head` and holds `n` items; positions are taken modulo the capacity. -/
namespace CircularWindow
variable {T : Type} {cap : Nat}

def slot (cap head i : Nat) : Nat := (head + i) % cap

def window (cap : Nat) (buffer : Nat → T) (head n : Nat) : List T :=
  (List.range n).map fun i => buffer (slot cap head i)

def count (cap head tail : Nat) : Nat := (tail + cap - head) % cap

theorem slot_next (head i : Nat) : (slot cap head i + 1) % cap = slot cap head (i + 1) := by
  simp [slot, Nat.add_assoc]

theorem slot_shift (head i : Nat) : slot cap (slot cap head 1) i = slot cap head (i + 1) := by
  simp [slot, Nat.add_comm, Nat.add_left_comm]

theorem slot_zero {head : Nat} (inside : head < cap) : slot cap head 0 = head :=
  Nat.mod_eq_of_lt inside

/-- Fewer than a full turn apart, equal slots are equal positions. -/
theorem slot_injective {head i j : Nat} (hi : i < cap) (hj : j < cap)
    (same : slot cap head i = slot cap head j) : i = j := by
  have shifted : i % cap = j % cap := Nat.ModEq.add_left_cancel' head same
  rwa [Nat.mod_eq_of_lt hi, Nat.mod_eq_of_lt hj] at shifted

theorem position_injective {i j : Nat} (near : i ≤ j) (short : j < i + cap)
    (same : i % cap = j % cap) : i = j := by
  have slots : slot cap i 0 = slot cap i (j - i) := by
    simpa [slot, Nat.add_sub_cancel' near] using same
  have apart := slot_injective (by omega) (by omega) slots
  omega

theorem slot_self_iff {head i : Nat} (inside : head < cap) (hi : i < cap) :
    slot cap head i = head ↔ i = 0 := by
  constructor
  · intro same
    exact slot_injective hi (by omega) (same.trans (slot_zero inside).symm)
  · intro first
    rw [first, slot_zero inside]

theorem slot_full_iff {head i : Nat} (inside : head < cap) (hi : i < cap) :
    slot cap head (i + 1) = head ↔ i + 1 = cap := by
  by_cases turn : i + 1 = cap
  · simp [slot, turn, Nat.mod_eq_of_lt inside]
  · rw [slot_self_iff inside (by omega)]
    omega

theorem count_slot {head n : Nat} (inside : head < cap) (short : n < cap) :
    count cap head (slot cap head n) = n := by
  unfold count slot
  by_cases wraps : head + n < cap
  · rw [Nat.mod_eq_of_lt wraps, show head + n + cap - head = n + cap by omega,
      Nat.add_mod_right, Nat.mod_eq_of_lt short]
  · have turned : (head + n) % cap = head + n - cap := by
      rw [Nat.mod_eq_sub_mod (by omega), Nat.mod_eq_of_lt (by omega)]
    rw [turned, show head + n - cap + cap - head = n by omega, Nat.mod_eq_of_lt short]

theorem window_write_behind {buffer : Nat → T} {head n m : Nat} (behind : n ≤ m) (room : m < cap)
    (item : T) : window cap (Function.update buffer (slot cap head m) item) head n =
      window cap buffer head n := by
  apply List.map_congr_left
  intro i member
  have before := List.mem_range.mp member
  have apart : slot cap head i ≠ slot cap head m := by
    intro same
    have := slot_injective (by omega) room same
    omega
  rw [Function.update_of_ne apart]

theorem window_snoc (buffer : Nat → T) (head n : Nat) :
    window cap buffer head (n + 1) = window cap buffer head n ++ [buffer (slot cap head n)] := by
  simp [window, List.range_succ]

theorem window_get {buffer : Nat → T} {head n i : Nat} (inside : i < n) :
    (window cap buffer head n)[i]? = some (buffer (slot cap head i)) := by
  simp [window, List.getElem?_range inside]

/-- Taking the first item off moves the window by one slot. -/
theorem window_cons {buffer : Nat → T} {head n : Nat} (inside : head < cap) :
    window cap buffer head (n + 1) = buffer head :: window cap buffer (slot cap head 1) n := by
  simp only [window, List.range_succ_eq_map, List.map_cons, List.map_map, slot_zero inside]
  congr 1
  apply List.map_congr_left
  intro i _
  simp [slot_shift]

end CircularWindow
