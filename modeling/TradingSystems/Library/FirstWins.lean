import TradingSystems.Library.Before
import Mathlib.Data.List.Induction

/- Claims to keys. A key has to be opened, and the first claim to it after that wins; the
   verdict on a claim depends only on the log in front of it, and nobody hears of a key
   before it is open. -/
namespace FirstWins
open Before
variable {Key Claimant : Type}

inductive Verdict where
  | won
  | taken
  | unknown
  deriving DecidableEq, Repr

inductive Entry (Key Claimant : Type) where
  | opened (k : Key)
  | told (c : Claimant) (k : Key)
  | claimed (c : Claimant) (k : Key) (v : Verdict)
  deriving DecidableEq, Repr

def Opened (log : List (Entry Key Claimant)) (k : Key) : Prop := .opened k ∈ log

def Won (log : List (Entry Key Claimant)) (k : Key) : Prop := ∃ c, .claimed c k .won ∈ log

def Valid (log : List (Entry Key Claimant)) (k : Key) : Prop :=
  ∃ before c v after, log = before ++ .claimed c k v :: after ∧ Opened before k

/-- The verdict that the log asks for. -/
def Just (log : List (Entry Key Claimant)) (k : Key) : Verdict → Prop
  | .won => Opened log k ∧ ¬ Won log k
  | .taken => Won log k
  | .unknown => ¬ Opened log k ∧ ¬ Won log k

def Allowed (log : List (Entry Key Claimant)) : Entry Key Claimant → Prop
  | .opened _ => True
  | .told _ k => Opened log k
  | .claimed _ k v => Just log k v

def Judged (log : List (Entry Key Claimant)) : Prop :=
  ∀ before e after, log = before ++ e :: after → Allowed before e

def winners (log : List (Entry Key Claimant)) : List (Claimant × Key) :=
  log.filterMap fun
    | .claimed c k .won => some (c, k)
    | _ => none

section Laws
variable {log before after : List (Entry Key Claimant)} {e : Entry Key Claimant} {c : Claimant}
  {k : Key} {v : Verdict}

theorem judged_nil : Judged ([] : List (Entry Key Claimant)) := by
  intro before e after split
  simp at split

theorem judged_snoc (judged : Judged log) (allowed : Allowed log e) : Judged (log ++ [e]) := by
  intro before d after split
  rcases snoc_split split with ⟨front, last, _⟩ | ⟨rest, _, inside⟩
  · rw [front, last]
    exact allowed
  · exact judged before d rest inside

theorem judged_front (judged : Judged (before ++ after)) : Judged before := by
  intro front d back split
  exact judged front d (back ++ after) (by rw [split, List.append_assoc, List.cons_append])

theorem Opened.append (opened : Opened log k) : Opened (log ++ after) k :=
  List.mem_append_left after opened

theorem opened_snoc_iff : Opened (log ++ [e]) k ↔ Opened log k ∨ e = .opened k := by
  simp only [Opened, List.mem_append, List.mem_singleton, eq_comm]

theorem winners_snoc : winners (log ++ [e]) = winners log ++ winners [e] :=
  List.filterMap_append

theorem won_snoc_iff : Won (log ++ [e]) k ↔ Won log k ∨ ∃ c, e = .claimed c k .won := by
  simp only [Won, List.mem_append, List.mem_singleton, exists_or, eq_comm]

theorem won_mem_winners : k ∈ (winners log).map Prod.snd ↔ Won log k := by
  constructor
  · intro member
    obtain ⟨⟨c, j⟩, inside, same⟩ := List.mem_map.mp member
    subst same
    obtain ⟨e, logged, read⟩ := List.mem_filterMap.mp inside
    split at read
    · cases read
      exact ⟨c, logged⟩
    · cases read
  · rintro ⟨c, logged⟩
    exact List.mem_map.mpr ⟨(c, k), List.mem_filterMap.mpr ⟨_, logged, rfl⟩, rfl⟩

/-- Somebody has won exactly when somebody made a valid claim. -/
theorem won_iff_valid (judged : Judged log) : Won log k ↔ Valid log k := by
  constructor
  · rintro ⟨c, logged⟩
    obtain ⟨before, after, split⟩ := List.mem_iff_append.mp logged
    exact ⟨before, c, .won, after, split, (judged before _ after split).1⟩
  · rintro ⟨before, c, v, after, split, opened⟩
    have just := judged before _ after split
    cases v with
    | won => exact ⟨c, by simp [split]⟩
    | taken =>
      obtain ⟨d, logged⟩ := just
      exact ⟨d, by simp [split, logged]⟩
    | unknown => exact absurd opened just.1

/-- The winner is the first whose claim is valid. -/
theorem first_valid_wins (judged : Judged (before ++ .claimed c k v :: after)) :
    v = .won ↔ Opened before k ∧ ¬ Valid before k := by
  have just := judged before _ after rfl
  rw [← won_iff_valid (judged_front judged)]
  cases v with
  | won => exact ⟨fun _ => just, fun _ => rfl⟩
  | taken =>
    constructor
    · intro same
      cases same
    · intro first
      exact absurd just first.2
  | unknown =>
    constructor
    · intro same
      cases same
    · intro first
      exact absurd first.1 just.1

theorem told_known (judged : Judged (before ++ .claimed c k v :: after))
    (told : .told c k ∈ before) : v ≠ .unknown := by
  intro same
  subst same
  obtain ⟨front, back, split⟩ := List.mem_iff_append.mp told
  have opened : Opened front k := judged_front judged front _ back split
  have just := judged before _ after rfl
  exact just.1 (split ▸ opened.append)

theorem won_once (judged : Judged log) : ((winners log).map Prod.snd).Nodup := by
  induction log using List.reverseRecOn with
  | nil => simp [winners]
  | append_singleton log e ih =>
    have held := ih (judged_front judged)
    have allowed := judged log e [] rfl
    rw [winners_snoc, List.map_append]
    cases e with
    | opened k => simpa [winners] using held
    | told c k => simpa [winners] using held
    | claimed c k v =>
      cases v with
      | won =>
        have fresh : k ∉ (winners log).map Prod.snd := fun member =>
          allowed.2 (won_mem_winners.mp member)
        exact held.append (List.nodup_singleton k) (by simpa [winners] using fresh)
      | taken => simpa [winners] using held
      | unknown => simpa [winners] using held

end Laws
end FirstWins
