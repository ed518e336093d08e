import Mathlib.Order.RelClasses

/- Maps with one value for a key, kept in the order of a strict comparison: what an ordered
   map of a standard library shows of itself, without its tree. -/
namespace OrderedMap
variable {Key Value : Type} {before : Key → Key → Prop}

structure Map (Key Value : Type) (before : Key → Key → Prop) where
  entries : List (Key × Value)
  sorted : entries.Pairwise fun a b => before a.1 b.1

def Map.empty : Map Key Value before := ⟨[], List.Pairwise.nil⟩

def Map.first (m : Map Key Value before) : Option (Key × Value) := m.entries.head?

def Map.Holds (m : Map Key Value before) (k : Key) (v : Value) : Prop := (k, v) ∈ m.entries

/-- A key equal to `k` is replaced, and a new one takes its place in the order. -/
def assigned (before : Key → Key → Prop) [DecidableRel before] (k : Key) (v : Value) :
    List (Key × Value) → List (Key × Value)
  | [] => [(k, v)]
  | e :: rest =>
    if before k e.1 then (k, v) :: e :: rest
    else if before e.1 k then e :: assigned before k v rest
    else (k, v) :: rest

section Lists
variable {k : Key} {v : Value} {e : Key × Value} {es : List (Key × Value)}

theorem mem_of_assigned [DecidableRel before] (member : e ∈ assigned before k v es) :
    e = (k, v) ∨ e ∈ es := by
  induction es with
  | nil => exact .inl (List.mem_singleton.mp member)
  | cons d rest ih =>
    simp only [assigned] at member
    split_ifs at member
    · exact List.mem_cons.mp member
    · rcases List.mem_cons.mp member with rfl | later
      · exact .inr List.mem_cons_self
      · exact (ih later).imp_right (List.mem_cons_of_mem d)
    · exact (List.mem_cons.mp member).imp_right (List.mem_cons_of_mem d)

variable [IsStrictTotalOrder Key before]

theorem equal_of_neither {a b : Key} (left : ¬ before a b) (right : ¬ before b a) : a = b := by
  rcases trichotomous_of before a b with first | same | second
  · exact absurd first left
  · exact same
  · exact absurd second right

theorem ne_of_ahead (ahead : ∀ e ∈ es, before k e.1) (member : e ∈ es) : e.1 ≠ k := by
  intro same
  have self := ahead e member
  rw [same] at self
  exact irrefl_of before k self

variable [DecidableRel before]

theorem assigned_sorted (sorted : es.Pairwise fun a b => before a.1 b.1) :
    (assigned before k v es).Pairwise fun a b => before a.1 b.1 := by
  induction es with
  | nil => exact List.pairwise_singleton _ _
  | cons d rest ih =>
    obtain ⟨ahead, tail⟩ := List.pairwise_cons.mp sorted
    simp only [assigned]
    split_ifs with less more
    · refine List.pairwise_cons.mpr ⟨?_, sorted⟩
      intro e member
      rcases List.mem_cons.mp member with rfl | later
      · exact less
      · exact trans_of before less (ahead e later)
    · refine List.pairwise_cons.mpr ⟨?_, ih tail⟩
      intro e member
      rcases mem_of_assigned member with rfl | later
      · exact more
      · exact ahead e later
    · rw [equal_of_neither less more]
      exact List.pairwise_cons.mpr ⟨ahead, tail⟩

theorem mem_assigned (sorted : es.Pairwise fun a b => before a.1 b.1) :
    e ∈ assigned before k v es ↔ e = (k, v) ∨ e.1 ≠ k ∧ e ∈ es := by
  induction es with
  | nil => simp [assigned]
  | cons d rest ih =>
    obtain ⟨ahead, tail⟩ := List.pairwise_cons.mp sorted
    simp only [assigned]
    split_ifs with less more
    · have all : ∀ e ∈ d :: rest, before k e.1 := by
        intro e member
        rcases List.mem_cons.mp member with rfl | later
        · exact less
        · exact trans_of before less (ahead e later)
      rw [List.mem_cons]
      exact or_congr_right ⟨fun member => ⟨ne_of_ahead all member, member⟩, And.right⟩
    · have other : d.1 ≠ k := by
        intro same
        rw [same] at more
        exact irrefl_of before k more
      rw [List.mem_cons, ih tail, List.mem_cons]
      constructor
      · rintro (rfl | rfl | ⟨differ, later⟩)
        · exact .inr ⟨other, .inl rfl⟩
        · exact .inl rfl
        · exact .inr ⟨differ, .inr later⟩
      · rintro (rfl | ⟨differ, rfl | later⟩)
        · exact .inr (.inl rfl)
        · exact .inl rfl
        · exact .inr (.inr ⟨differ, later⟩)
    · have same := equal_of_neither less more
      rw [← same] at ahead
      rw [List.mem_cons, List.mem_cons]
      refine or_congr_right ⟨fun later => ⟨ne_of_ahead ahead later, .inr later⟩, ?_⟩
      rintro ⟨differ, rfl | later⟩
      · exact absurd same.symm differ
      · exact later

end Lists

section Maps
variable [DecidableRel before] [IsStrictTotalOrder Key before] {m : Map Key Value before}
  {j k : Key} {v w : Value}

def Map.assign (m : Map Key Value before) (k : Key) (v : Value) : Map Key Value before :=
  ⟨assigned before k v m.entries, assigned_sorted m.sorted⟩

def Map.erase (m : Map Key Value before) (k : Key) : Map Key Value before :=
  ⟨m.entries.filter fun e => before e.1 k ∨ before k e.1, m.sorted.sublist List.filter_sublist⟩

theorem holds_assign : (m.assign k v).Holds j w ↔ (j = k ∧ w = v) ∨ j ≠ k ∧ m.Holds j w := by
  rw [Map.Holds, Map.assign, mem_assigned m.sorted, Prod.mk.injEq]
  rfl

theorem holds_erase : (m.erase k).Holds j w ↔ j ≠ k ∧ m.Holds j w := by
  simp only [Map.Holds, Map.erase, List.mem_filter, decide_eq_true_eq]
  rw [and_comm]
  refine and_congr_left fun _ => ⟨?_, ?_⟩
  · rintro (less | more) rfl
    · exact irrefl_of before j less
    · exact irrefl_of before j more
  · intro differ
    rcases trichotomous_of before j k with less | same | more
    · exact .inl less
    · exact absurd same differ
    · exact .inr more

end Maps

section Reading
variable {m : Map Key Value before} {k : Key} {v w : Value}

theorem not_holds_empty : ¬ (Map.empty : Map Key Value before).Holds k v := List.not_mem_nil

theorem first_none_iff : m.first = none ↔ ∀ k v, ¬ m.Holds k v := by
  rw [Map.first, List.head?_eq_none_iff, List.eq_nil_iff_forall_not_mem, Prod.forall]
  rfl

theorem first_holds {e : Key × Value} (first : m.first = some e) : m.Holds e.1 e.2 :=
  List.mem_of_head? first

variable [IsStrictTotalOrder Key before]

/-- The first entry is the one that no other key comes before. -/
theorem first_iff {e : Key × Value} :
    m.first = some e ↔ m.Holds e.1 e.2 ∧ ∀ k v, m.Holds k v → k = e.1 ∨ before e.1 k := by
  obtain ⟨entries, sorted⟩ := m
  simp only [Map.first, Map.Holds]
  cases entries with
  | nil => simp
  | cons d rest =>
    obtain ⟨ahead, -⟩ := List.pairwise_cons.mp sorted
    rw [List.head?_cons, Option.some.injEq]
    constructor
    · rintro rfl
      refine ⟨List.mem_cons_self, fun k v member => ?_⟩
      rcases List.mem_cons.mp member with same | later
      · exact .inl (congrArg Prod.fst same)
      · exact .inr (ahead (k, v) later)
    · rintro ⟨member, least⟩
      rcases List.mem_cons.mp member with same | later
      · exact same.symm
      · have less := ahead e later
        rcases least d.1 d.2 List.mem_cons_self with same | more
        · rw [same] at less
          exact absurd less (irrefl_of before e.1)
        · exact absurd (trans_of before less more) (irrefl_of before d.1)

end Reading
end OrderedMap
