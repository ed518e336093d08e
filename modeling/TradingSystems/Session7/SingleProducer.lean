import TradingSystems.Session7.ConcurrentQueue

/- The ring queue with one producer and one consumer. Each of them is the only one to
   move its own index, so the copy that it loaded is still current at its test, and
   the queue delivers the accepted items in order without any further condition. -/
namespace Session7
open Runs CircularWindow

variable {T : Type} {cap n : Nat}

def Threads.accessSeqCst {Producer Consumer : Type} [DecidableEq Producer] [DecidableEq Consumer]
    (cap : Nat) (s : Threads T Producer Consumer) (a : Access T Producer Consumer) :
    Option (Threads T Producer Consumer) := s.access cap a

def Threads.StepSeqCst {Producer Consumer : Type} [DecidableEq Producer] [DecidableEq Consumer]
    (cap : Nat) (s : Threads T Producer Consumer) (a : Access T Producer Consumer)
    (t : Threads T Producer Consumer) : Prop := s.accessSeqCst cap a = some t

/-- Between head and tail: an accepted item that no pop has removed lies here. -/
def ConcurrentQueue.Unread (cap : Nat) (q : ConcurrentQueue T) (k : Nat) : Prop :=
  ∃ i, i < count cap q.head q.tail ∧ k = slot cap q.head i

structure Current (s : Threads T Unit Unit) : Prop where
  pusher : (s.pushers ()).current s.queue
  popper : (s.poppers ()).current s.queue

section Steps
variable {s t : Threads T Unit Unit}

theorem create_current (buffer : Nat → T) : Current (.create buffer : Threads T Unit Unit) :=
  ⟨rfl, rfl⟩

theorem Current.alone (current : Current s) (a : Access T Unit Unit) : Alone cap s a := by
  cases a with
  | testFull p =>
    intro passes
    refine ⟨current.pusher, ?_⟩
    intro q
    cases at_pc : s.pushers p with
    | loaded => rfl
    | _ => simp [at_pc, PushPc.passes] at passes
  | testEmpty c =>
    intro passes
    refine ⟨current.popper, ?_⟩
    intro d
    cases at_pc : s.poppers c with
    | loaded => rfl
    | _ => simp [at_pc, PopPc.passes] at passes
  | _ => trivial

theorem step_current {a : Access T Unit Unit} (step : Threads.Step cap s a t)
    (current : Current s) : Current t := by
  obtain ⟨pusher, popper⟩ := current
  unfold Threads.Step at step
  cases a with
  | loadTail p item =>
    cases at_pc : s.pushers p <;> simp only [Threads.access, at_pc] at step <;> cases step
    exact ⟨by simp [Threads.setPusher, PushPc.current], popper⟩
  | testFull p =>
    cases at_pc : s.pushers p <;> simp only [Threads.access, at_pc] at step <;> try cases step
    split at step
    · cases step
      exact ⟨rfl, popper⟩
    · cases step
      exact ⟨rfl, popper⟩
  | writeSlot p =>
    cases at_pc : s.pushers p <;> simp only [Threads.access, at_pc] at step <;> cases step
    exact ⟨rfl, popper⟩
  | storeTail p =>
    cases at_pc : s.pushers p <;> simp only [Threads.access, at_pc] at step <;> cases step
    exact ⟨rfl, popper⟩
  | loadHead c =>
    cases at_pc : s.poppers c <;> simp only [Threads.access, at_pc] at step <;> cases step
    exact ⟨pusher, by simp [Threads.setPopper, PopPc.current]⟩
  | testEmpty c =>
    cases at_pc : s.poppers c <;> simp only [Threads.access, at_pc] at step <;> try cases step
    split at step
    · cases step
      exact ⟨pusher, rfl⟩
    · cases step
      exact ⟨pusher, rfl⟩
  | readSlot c =>
    cases at_pc : s.poppers c <;> simp only [Threads.access, at_pc] at step <;> cases step
    exact ⟨pusher, rfl⟩
  | storeHead c =>
    cases at_pc : s.poppers c <;> simp only [Threads.access, at_pc] at step <;> cases step
    exact ⟨pusher, rfl⟩

end Steps

structure SingleSafe (cap : Nat) (s : Threads T Unit Unit) : Prop where
  inOrder : s.popped <+: s.accepted
  writes : ∀ item currentTail nextTail, s.pushers () = .tested item currentTail nextTail →
    ¬ s.queue.Unread cap currentTail
  reads : ∀ currentHead, s.poppers () = .tested currentHead →
    s.queue.Unread cap currentHead ∧
      s.accepted[s.popped.length]? = some (s.queue.buffer currentHead)
  headInside : s.queue.head < cap
  tailInside : s.queue.tail < cap

section Queues
variable {s : Threads T Unit Unit}

theorem Intact.unread_iff (intact : Intact cap n s) {k : Nat} :
    s.queue.Unread cap k ↔ ∃ i, i < n ∧ k = slot cap s.queue.head i := by
  rw [ConcurrentQueue.Unread, intact.tail, count_slot intact.inside intact.short]

theorem Intact.single_safe (intact : Intact cap n s) : SingleSafe cap s := by
  have inside := intact.inside
  have short := intact.short
  refine ⟨?_, ?_, ?_, inside, ?_⟩
  · rw [intact.fifo]
    exact List.prefix_append _ _
  · intro item currentTail nextTail at_pc
    have holds := intact.pushing ()
    rw [at_pc] at holds
    rw [intact.unread_iff, holds.1, intact.tail]
    rintro ⟨i, queued, same⟩
    have := slot_injective short (by omega) same
    omega
  · intro currentHead at_pc
    have holds := intact.popping ()
    rw [at_pc] at holds
    obtain ⟨same, some_item⟩ := holds
    rw [intact.unread_iff, intact.fifo, List.getElem?_append_right le_rfl, Nat.sub_self,
      window_get some_item, slot_zero inside, same]
    exact ⟨⟨0, some_item, (slot_zero inside).symm⟩, rfl⟩
  · rw [intact.tail]
    exact Nat.mod_lt _ (by omega)

/-- One producer and one consumer, in any interleaving of their memory accesses: what
    pops return is a prefix of what was pushed, the producer writes no slot with an
    unread item, and the consumer reads the oldest item that it has not read. -/
theorem single_producer_single_consumer {buffer : Nat → T} {accesses : List (Access T Unit Unit)}
    (room : 2 ≤ cap)
    (run : Run (Threads.Step cap) (.create buffer) accesses s ∨
      Run (Threads.StepSeqCst cap) (.create buffer) accesses s) : SingleSafe cap s := by
  have steps : Run (Threads.Step cap) (.create buffer) accesses s := run.elim id id
  have kept : Current s ∧ ∃ n, Intact cap n s := by
    apply run_invariant (fun s => Current s ∧ ∃ n, Intact cap n s) _ steps
    · exact ⟨create_current buffer, 0, create_intact room buffer⟩
    · rintro s a t step ⟨current, n, intact⟩
      exact ⟨step_current step current, step_intact step (current.alone a) intact⟩
  obtain ⟨_, n, intact⟩ := kept
  exact intact.single_safe

theorem single_producer_single_consumer_wrap : ∃ s : Threads Nat Unit Unit,
    Run (Threads.Step 2) (.create fun _ => 0)
      [.loadTail () 7, .testFull (), .writeSlot (), .storeTail (), .loadHead (), .loadTail () 8,
       .testEmpty (), .readSlot (), .storeHead (), .testFull (), .writeSlot ()] s ∧
      s.popped = [7] ∧ SingleSafe 2 s := by
  have replayed : ∃ s : Threads Nat Unit Unit, replay (Threads.access 2) (.create fun _ => 0)
      [.loadTail () 7, .testFull (), .writeSlot (), .storeTail (), .loadHead (), .loadTail () 8,
       .testEmpty (), .readSlot (), .storeHead (), .testFull (), .writeSlot ()] = some s ∧
      s.popped = [7] := ⟨_, rfl, rfl⟩
  obtain ⟨s, done, popped⟩ := replayed
  have run : Run (Threads.Step 2) _ _ s := run_of_replay id done
  exact ⟨s, run, popped, single_producer_single_consumer (by decide) (Or.inl run)⟩

end Queues
end Session7
