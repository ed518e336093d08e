import Mathlib.Logic.Basic

/- A first-in first-out queue that holds fewer items than its capacity. It never fails
   but for want of room or of an item, and then it stays as it is. -/
namespace Fifo
variable {T : Type} {cap : Nat}

structure Queue (T : Type) (cap : Nat) where
  items : List T
  short : items.length < cap

inductive QueueCall (T : Type) where
  | push (item : T)
  | pop (item : T)
  | empty
  | full
  | size

inductive QueueAnswer (T : Type) where
  | pushed (success : Bool)
  | popped (success : Bool) (item : T)
  | flag (holds : Bool)
  | count (n : Nat)
  deriving DecidableEq

def Queue.create (positive : 0 < cap) : Queue T cap := ⟨[], positive⟩

def Queue.serve (q : Queue T cap) : QueueCall T → QueueAnswer T × Queue T cap
  | .push item =>
    if room : q.items.length < cap - 1 then
      (.pushed true, ⟨q.items ++ [item], by
        rw [List.length_append]
        exact Nat.add_lt_of_lt_sub room⟩)
    else (.pushed false, q)
  | .pop item =>
    match held : q.items with
    | [] => (.popped false item, q)
    | oldest :: rest =>
      (.popped true oldest, ⟨rest, by
        have short := q.short
        rw [held] at short
        exact Nat.lt_of_succ_lt short⟩)
  | .empty => (.flag (q.items.length = 0), q)
  | .full => (.flag (q.items.length = cap - 1), q)
  | .size => (.count q.items.length, q)

end Fifo
