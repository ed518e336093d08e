import Mathlib.Logic.Function.Basic
import Mathlib.Algebra.Order.Ring.Int
import Mathlib.Tactic.SplitIfs

/- The life cycle of an order, apart from what the order is for: a counter that grows
   towards a quantity, and a stage that is told by the counter until the order is
   cancelled. A table of orders is sound when each of its orders is consistent, and it
   freezes the orders that are over. -/
namespace Lifecycle

inductive Stage where
  | new
  | partiallyFilled
  | filled
  | cancelled
  deriving DecidableEq, Repr

structure Progress where
  quantity : Int
  filled : Int
  stage : Stage
  deriving DecidableEq, Repr

structure Progress.Consistent (p : Progress) : Prop where
  started : 0 ≤ p.filled
  within : p.filled ≤ p.quantity
  new_iff : p.stage ≠ .cancelled → (p.stage = .new ↔ p.filled = 0)
  partially_iff : p.stage ≠ .cancelled →
    (p.stage = .partiallyFilled ↔ 0 < p.filled ∧ p.filled < p.quantity)
  filled_iff : p.stage ≠ .cancelled → (p.stage = .filled ↔ p.filled = p.quantity)

def Progress.Over (p : Progress) : Prop := p.stage = .filled ∨ p.stage = .cancelled

def Progress.Same (p q : Progress) : Prop := q.stage = p.stage ∧ q.filled = p.filled

section Tables
variable {Id Order : Type} {view : Order → Progress}

def Sound (view : Order → Progress) (table : Id → Option Order) : Prop :=
  ∀ id o, table id = some o → (view o).Consistent

/-- Orders that are over in the first table stand unchanged in the second. -/
def Frozen (view : Order → Progress) (table later : Id → Option Order) : Prop :=
  ∀ id o, table id = some o → (view o).Over → later id = some o

theorem frozen_refl (table : Id → Option Order) : Frozen view table table :=
  fun _ _ held _ => held

theorem frozen_trans (first second third : Id → Option Order) (early : Frozen view first second)
    (late : Frozen view second third) : Frozen view first third :=
  fun id o held ended => late id o (early id o held ended) ended

variable [DecidableEq Id] {table : Id → Option Order} {id : Id} {o p : Order}

theorem held_update {keep : Id → Order → Prop} (before : ∀ id o, table id = some o → keep id o)
    (new : keep id p) : ∀ other q, Function.update table id (some p) other = some q →
      keep other q := by
  intro other q held
  by_cases same : other = id
  · subst same
    rw [Function.update_self] at held
    cases held
    exact new
  · rw [Function.update_of_ne same] at held
    exact before other q held

/-- A change of one order keeps the law of the table exactly when the new entry is
    consistent and an order that is over stays as it is. -/
theorem change_iff (sound : Sound view table) (held : table id = some o) :
    Sound view (Function.update table id (some p)) ∧
        Frozen view table (Function.update table id (some p)) ↔
      (view p).Consistent ∧ ((view o).Over → p = o) := by
  constructor
  · rintro ⟨sound', frozen⟩
    refine ⟨sound' id p (Function.update_self ..), fun ended => ?_⟩
    have kept := frozen id o held ended
    rw [Function.update_self] at kept
    exact Option.some.inj kept
  · rintro ⟨consistent, kept⟩
    refine ⟨held_update sound consistent, ?_⟩
    intro other q held' ended
    by_cases same : other = id
    · subst same
      rw [held] at held'
      cases held'
      rw [Function.update_self, kept ended]
    · rw [Function.update_of_ne same]
      exact held'

theorem insert_new (sound : Sound view table) (unused : table id = none)
    (consistent : (view p).Consistent) : Sound view (Function.update table id (some p)) ∧
      Frozen view table (Function.update table id (some p)) := by
  refine ⟨held_update sound consistent, ?_⟩
  intro other q held _
  have apart : other ≠ id := by
    intro same
    rw [same, unused] at held
    cases held
  rw [Function.update_of_ne apart]
  exact held

structure Changes (table later : Id → Option Order) (id : Id) (change : Order → Order) : Prop where
  absent : table id = none → later = table
  present : ∀ o, table id = some o → later = Function.update table id (some (change o))

section Changes
variable {later : Id → Option Order} {change : Order → Order}

theorem changes_keep {keep : Id → Order → Prop} (changes : Changes table later id change)
    (before : ∀ id o, table id = some o → keep id o) (new : ∀ o, keep id o → keep id (change o)) :
    ∀ other q, later other = some q → keep other q := by
  cases held : table id with
  | none =>
    rw [changes.absent held]
    exact before
  | some o =>
    rw [changes.present o held]
    exact held_update before (new o (before id o held))

theorem changes_iff {may : Order → Prop} (changes : Changes table later id change)
    (sound : Sound view table)
    (each : ∀ o, table id = some o →
      ((view (change o)).Consistent ∧ ((view o).Over → change o = o) ↔ may o)) :
    Sound view later ∧ Frozen view table later ↔ ∀ o, table id = some o → may o := by
  cases held : table id with
  | none =>
    rw [changes.absent held]
    simpa using And.intro sound (frozen_refl table)
  | some o =>
    rw [changes.present o held, change_iff sound held, each o held]
    simp

end Changes
end Tables

section Changes
variable {p q : Progress}

/-- A change that does not cancel may touch an order that is over only when it is filled,
    and then not its counter. -/
theorem live_change_iff (consistent : p.Consistent) (terms : q.quantity = p.quantity)
    (live : q.stage ≠ .cancelled) :
    q.Consistent ∧ (p.Over → p.Same q) ↔
      q.Consistent ∧ p.stage ≠ .cancelled ∧ (p.stage = .filled → q.filled = p.filled) := by
  constructor
  · rintro ⟨consistent', kept⟩
    refine ⟨consistent', ?_, fun ended => (kept (Or.inl ended)).2⟩
    intro ended
    exact live ((kept (Or.inr ended)).1.trans ended)
  · rintro ⟨consistent', open_before, same⟩
    refine ⟨consistent', ?_⟩
    rintro (ended | ended)
    · have reached := (consistent.filled_iff open_before).mp ended
      have filled := (consistent'.filled_iff live).mpr
        ((same ended).trans (reached.trans terms.symm))
      exact ⟨filled.trans ended.symm, same ended⟩
    · exact absurd ended open_before

theorem cancel_iff (consistent : p.Consistent) :
    Progress.Consistent ⟨p.quantity, p.filled, .cancelled⟩ ∧
        (p.Over → p.Same ⟨p.quantity, p.filled, .cancelled⟩) ↔ p.stage ≠ .filled := by
  have counter : Progress.Consistent ⟨p.quantity, p.filled, .cancelled⟩ :=
    ⟨consistent.started, consistent.within, fun live => absurd rfl live,
      fun live => absurd rfl live, fun live => absurd rfl live⟩
  constructor
  · rintro ⟨_, kept⟩ ended
    have stays := (kept (Or.inl ended)).1
    rw [ended] at stays
    cases stays
  · intro unfilled
    refine ⟨counter, ?_⟩
    rintro (ended | ended)
    · exact absurd ended unfilled
    · exact ⟨ended.symm, rfl⟩

end Changes

section Entries
variable {quantity filled : Int}

theorem fresh_consistent (positive : 0 < quantity) : Progress.Consistent ⟨quantity, 0, .new⟩ where
  started := le_rfl
  within := positive.le
  new_iff := by simp
  partially_iff := by simp
  filled_iff := by simp [positive.ne]

theorem told_consistent_iff (positive : 0 < quantity) {stage : Stage}
    (told : stage = if filled = 0 then .new else if quantity ≤ filled then .filled
      else .partiallyFilled) :
    Progress.Consistent ⟨quantity, filled, stage⟩ ↔ 0 ≤ filled ∧ filled ≤ quantity := by
  constructor
  · intro consistent
    exact ⟨consistent.started, consistent.within⟩
  · rintro ⟨started, within⟩
    subst told
    refine ⟨started, within, fun _ => ?_, fun _ => ?_, fun _ => ?_⟩
    · split_ifs <;> simp <;> omega
    · split_ifs <;> simp <;> omega
    · split_ifs <;> simp <;> omega

theorem begun_consistent_iff {stage : Stage}
    (told : stage = if quantity ≤ filled then .filled else .partiallyFilled) :
    Progress.Consistent ⟨quantity, filled, stage⟩ ↔ 0 < filled ∧ filled ≤ quantity := by
  constructor
  · intro consistent
    have started := consistent.started
    have within := consistent.within
    have new_iff := consistent.new_iff
    subst told
    refine ⟨?_, within⟩
    by_contra empty
    have zero : filled = 0 := by
      simp only at started
      omega
    simp only [zero] at new_iff
    split_ifs at new_iff <;> simp at new_iff
  · rintro ⟨started, within⟩
    subst told
    refine ⟨started.le, within, fun _ => ?_, fun _ => ?_, fun _ => ?_⟩
    · split_ifs <;> simp <;> omega
    · split_ifs <;> simp <;> omega
    · split_ifs <;> simp <;> omega

end Entries
end Lifecycle
