import Mathlib.Logic.Basic

/- Runs of a labelled step relation. A run records its labels in the order in
   which the steps were taken; nothing is assumed about determinism. -/
namespace Runs
variable {State Label : Type}

inductive Run (step : State → Label → State → Prop) : State → List Label → State → Prop where
  | nil (s : State) : Run step s [] s
  | snoc {s t u : State} {ls : List Label} {l : Label}
      (before : Run step s ls t) (last : step t l u) : Run step s (ls ++ [l]) u

/-- The steps of `step` taken from a state in which `allowed` holds of the label. -/
def Guarded (step : State → Label → State → Prop) (allowed : State → Label → Prop) :
    State → Label → State → Prop :=
  fun s l t => step s l t ∧ allowed s l

def replay (act : State → Label → Option State) : State → List Label → Option State
  | s, [] => some s
  | s, l :: ls => (act s l).bind fun t => replay act t ls

def guarded (allowed : State → Label → Prop) [∀ s l, Decidable (allowed s l)]
    (act : State → Label → Option State) (s : State) (l : Label) : Option State :=
  if allowed s l then act s l else none

section Laws
variable {step : State → Label → State → Prop} {allowed : State → Label → Prop}

theorem run_append {s t u : State} {ls ms : List Label} (first : Run step s ls t)
    (second : Run step t ms u) : Run step s (ls ++ ms) u := by
  induction second with
  | nil => simpa using first
  | snoc before last ih =>
    rw [← List.append_assoc]
    exact ih.snoc last

theorem run_cons {s t u : State} {l : Label} {ls : List Label} (head : step s l t)
    (tail : Run step t ls u) : Run step s (l :: ls) u :=
  run_append (Run.snoc (Run.nil s) head) tail

theorem all_snoc {Record : Type} {holds : Record → Prop} {records : List Record}
    {next : Record} (so_far : ∀ r ∈ records, holds r) (new : holds next) :
    ∀ r ∈ records ++ [next], holds r :=
  List.forall_mem_append.mpr ⟨so_far, List.forall_mem_singleton.mpr new⟩

theorem run_history (keep : List Label → State → Prop)
    (one : ∀ {ls s l t}, step s l t → keep ls s → keep (ls ++ [l]) t)
    {s t : State} {ls : List Label} (run : Run step s ls t) (start : keep [] s) :
    keep ls t := by
  induction run with
  | nil => exact start
  | snoc before last ih => exact one last ih

theorem run_invariant (keep : State → Prop)
    (one : ∀ {s l t}, step s l t → keep s → keep t)
    {s t : State} {ls : List Label} (run : Run step s ls t) (start : keep s) : keep t :=
  run_history (fun _ => keep) (fun taken held => one taken held) run start

/-- A step shows nothing, and what it is related to stays, or it is matched by a step there. -/
theorem run_simulates {Abstract Shown : Type} (shows : Label → Option Shown)
    {next : Abstract → Shown → Abstract → Prop} (related : State → Abstract → Prop)
    (quiet : ∀ {s l t a}, step s l t → shows l = none → related s a → related t a)
    (matched : ∀ {s l t a m}, step s l t → shows l = some m → related s a →
      ∃ b, next a m b ∧ related t b)
    {s t : State} {ls : List Label} {a : Abstract} (run : Run step s ls t) (start : related s a) :
    ∃ b, Run next a (ls.filterMap shows) b ∧ related t b := by
  induction run with
  | nil => exact ⟨a, Run.nil a, start⟩
  | @snoc t u ls l before last ih =>
    obtain ⟨b, so_far, held⟩ := ih
    rw [List.filterMap_append]
    cases shown : shows l with
    | none => exact ⟨b, by simpa [shown] using so_far, quiet last shown held⟩
    | some m =>
      obtain ⟨c, taken, after⟩ := matched last shown held
      exact ⟨c, by simpa [shown] using so_far.snoc taken, after⟩

/-- Where every unfinished state can come down in a measure, a finished one is in reach. -/
theorem run_finishes (measure : State → Nat) (finished keep : State → Prop)
    (one : ∀ {s l t}, step s l t → keep s → keep t)
    (down : ∀ s, keep s → ¬ finished s → ∃ ls t, Run step s ls t ∧ measure t < measure s)
    {s : State} (start : keep s) : ∃ ls t, Run step s ls t ∧ finished t := by
  induction size : measure s using Nat.strongRecOn generalizing s with
  | ind n ih =>
    by_cases done : finished s
    · exact ⟨[], s, Run.nil s, done⟩
    · obtain ⟨ls, t, first, smaller⟩ := down s start done
      have kept := run_invariant keep one first start
      obtain ⟨ms, u, rest, end_reached⟩ := ih (measure t) (size ▸ smaller) kept rfl
      exact ⟨ls ++ ms, u, run_append first rest, end_reached⟩

theorem run_one {s t : State} {l : Label} (taken : step s l t) : Run step s [l] t :=
  (Run.nil s).snoc taken

theorem run_mono {step' : State → Label → State → Prop}
    (weaken : ∀ {s l t}, step s l t → step' s l t)
    {s t : State} {ls : List Label} (run : Run step s ls t) : Run step' s ls t := by
  induction run with
  | nil => exact Run.nil _
  | snoc before last ih => exact ih.snoc (weaken last)

theorem guarded_run_is_run {s t : State} {ls : List Label}
    (run : Run (Guarded step allowed) s ls t) : Run step s ls t :=
  run_mono And.left run

theorem run_of_replay {act : State → Label → Option State}
    (sound : ∀ {s l t}, act s l = some t → step s l t) {s t : State} {ls : List Label}
    (done : replay act s ls = some t) : Run step s ls t := by
  induction ls generalizing s with
  | nil =>
    cases done
    exact Run.nil _
  | cons l ls ih =>
    obtain ⟨u, first, rest⟩ := Option.bind_eq_some_iff.mp done
    exact run_cons (sound first) (ih rest)

theorem guarded_step [∀ s l, Decidable (allowed s l)] {act : State → Label → Option State}
    (sound : ∀ {s l t}, act s l = some t → step s l t) {s t : State} {l : Label}
    (done : guarded allowed act s l = some t) : Guarded step allowed s l t := by
  unfold guarded at done
  split at done
  · rename_i held
    exact ⟨sound done, held⟩
  · cases done

end Laws
end Runs
