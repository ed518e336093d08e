import Mathlib.Logic.Basic

/- Histories of total calls. A law about every state of a history, or about every two
   states of which one comes later, is settled call by call: if from a good state a
   call keeps the law exactly when a condition holds of it, then a history keeps the
   law throughout exactly when the condition holds of each of its calls. -/
namespace Prefixes
variable {State Call : Type}

def exec (step : State → Call → State) (s : State) (calls : List Call) : State :=
  calls.foldl step s

def Always (step : State → Call → State) (good : State → Prop) (s : State)
    (calls : List Call) : Prop :=
  ∀ before after, calls = before ++ after → good (exec step s before)

def Throughout (step : State → Call → State) (rel : State → State → Prop) (s : State)
    (calls : List Call) : Prop :=
  ∀ before middle after, calls = before ++ middle ++ after →
    rel (exec step s before) (exec step s (before ++ middle))

/-- Of each call, in the state in which it is made. -/
def Each (step : State → Call → State) (cond : State → Call → Prop) (s : State)
    (calls : List Call) : Prop :=
  ∀ before call after, calls = before ++ call :: after → cond (exec step s before) call

section Laws
variable {step : State → Call → State} {good : State → Prop} {rel : State → State → Prop}
  {cond : State → Call → Prop} {s : State} {call : Call} {calls : List Call}

theorem always_cons :
    Always step good s (call :: calls) ↔ good s ∧ Always step good (step s call) calls := by
  constructor
  · intro always
    exact ⟨always [] (call :: calls) rfl, fun before after split =>
      always (call :: before) after (by rw [split]; rfl)⟩
  · rintro ⟨first, later⟩ before after split
    cases before with
    | nil => exact first
    | cons c before =>
      cases split
      exact later before after rfl

theorem each_nil : Each step cond s [] := by
  intro before call after split
  simp at split

theorem each_cons : Each step cond s (call :: calls) ↔
    cond s call ∧ Each step cond (step s call) calls := by
  constructor
  · intro each
    exact ⟨each [] call calls rfl, fun before c after split =>
      each (call :: before) c after (by rw [split]; rfl)⟩
  · rintro ⟨first, later⟩ before c after split
    cases before with
    | nil =>
      cases split
      exact first
    | cons d before =>
      cases split
      exact later before c after rfl

theorem exec_invariant (inv : State → Prop)
    (keep : ∀ s call, inv s → cond s call → inv (step s call)) (start : inv s)
    (given : Each step cond s calls) : inv (exec step s calls) := by
  induction calls generalizing s with
  | nil => exact start
  | cons call calls ih =>
    obtain ⟨permitted, rest⟩ := each_cons.mp given
    exact ih (keep s call start permitted) rest

theorem begins (good : State → Prop) (start : ¬ good s) (now : good (exec step s calls)) :
    ∃ before call after, calls = before ++ call :: after ∧
      ¬ good (exec step s before) ∧ good (exec step s (before ++ [call])) := by
  induction calls generalizing s with
  | nil => exact absurd now start
  | cons call calls ih =>
    by_cases first : good (step s call)
    · exact ⟨[], call, calls, rfl, start, first⟩
    · obtain ⟨before, c, after, rfl, earlier, later⟩ := ih first now
      exact ⟨call :: before, c, after, rfl, earlier, later⟩

theorem throughout_cons (refl : ∀ s, rel s s) (trans : ∀ s t u, rel s t → rel t u → rel s u) :
    Throughout step rel s (call :: calls) ↔
      rel s (step s call) ∧ Throughout step rel (step s call) calls := by
  constructor
  · intro law
    exact ⟨law [] [call] calls rfl, fun before middle after split =>
      law (call :: before) middle after (by rw [split]; rfl)⟩
  · rintro ⟨first, later⟩ before middle after split
    cases before with
    | cons c before =>
      cases split
      exact later before middle after rfl
    | nil =>
      cases middle with
      | nil => exact refl s
      | cons c middle =>
        cases split
        exact trans _ _ _ first (later [] middle after rfl)

/-- The law of a history, call by call; `inv` is what allowed calls keep anyway. -/
theorem lawful_iff_each (rel : State → State → Prop) (inv : State → Prop)
    (allowed : State → Call → Prop)
    (refl : ∀ s, rel s s) (trans : ∀ s t u, rel s t → rel t u → rel s u)
    (keep : ∀ s call, inv s → allowed s call → inv (step s call))
    (one : ∀ s call, inv s → good s → allowed s call →
      (good (step s call) ∧ rel s (step s call) ↔ cond s call))
    (held : inv s) (start : good s) (given : Each step allowed s calls) :
    Always step good s calls ∧ Throughout step rel s calls ↔ Each step cond s calls := by
  induction calls generalizing s with
  | nil =>
    refine ⟨fun _ => each_nil, fun _ => ⟨?_, ?_⟩⟩
    · intro before after split
      obtain ⟨first, _⟩ := List.append_eq_nil_iff.mp split.symm
      subst first
      exact start
    · intro before middle after split
      obtain ⟨front, _⟩ := List.append_eq_nil_iff.mp split.symm
      obtain ⟨first, second⟩ := List.append_eq_nil_iff.mp front
      subst first second
      exact refl s
  | cons call calls ih =>
    obtain ⟨permitted, rest⟩ := each_cons.mp given
    have held' := keep s call held permitted
    rw [always_cons, throughout_cons refl trans, each_cons, ← one s call held start permitted]
    constructor
    · rintro ⟨⟨_, always⟩, kept, later⟩
      have next : good (step s call) := always [] calls rfl
      exact ⟨⟨next, kept⟩, (ih held' next rest).mp ⟨always, later⟩⟩
    · rintro ⟨⟨next, kept⟩, each⟩
      obtain ⟨always, later⟩ := (ih held' next rest).mpr each
      exact ⟨⟨start, always⟩, kept, later⟩

theorem always_iff_each (one : ∀ s call, good s → (good (step s call) ↔ cond s call))
    (start : good s) : Always step good s calls ↔ Each step cond s calls := by
  have both : ∀ s call, True → good s → True → (good (step s call) ∧ True ↔ cond s call) := by
    intro s call _ held _
    rw [and_true]
    exact one s call held
  have free : Each step (fun _ _ => True) s calls := fun _ _ _ _ => trivial
  have lawful := lawful_iff_each (fun _ _ => True) (fun _ => True) (fun _ _ => True)
    (fun _ => trivial) (fun _ _ _ _ _ => trivial) (fun _ _ _ _ => trivial) both trivial start free
  rw [← lawful]
  exact ⟨fun always => ⟨always, fun _ _ _ _ => trivial⟩, fun kept => kept.1⟩

end Laws

section Answers
variable {Answer Other : Type}

def answers (serve : State → Call → Answer × State) : State → List Call → List Answer
  | _, [] => []
  | s, call :: calls => (serve s call).1 :: answers serve (serve s call).2 calls

theorem answers_related {serve : State → Call → Answer × State}
    {other : Other → Call → Answer × Other} (rel : State → Other → Prop)
    (one : ∀ s t call, rel s t → (serve s call).1 = (other t call).1 ∧
      rel (serve s call).2 (other t call).2)
    {s : State} {t : Other} (start : rel s t) (calls : List Call) :
    answers serve s calls = answers other t calls := by
  induction calls generalizing s t with
  | nil => rfl
  | cons call calls ih =>
    obtain ⟨same, next⟩ := one s t call start
    rw [answers, answers, same, ih next]

end Answers
end Prefixes
