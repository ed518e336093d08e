import TradingSystems.Library.Runs
import Mathlib.Data.List.Range
import Mathlib.Data.List.Nodup

/- Who receives a broadcast. The vector of clients only ever grows, handleClient closes
   its socket without a word to that vector, and the system may give the descriptor to
   the next connection. A broadcast locks the vector and sends to the descriptor of each
   entry in turn; connections may be accepted and closed between two sends. -/
namespace Phase2
open Runs

structure ClientInfo where
  socket : Nat
  running : Bool
  deriving DecidableEq, Repr

/-- A connection while the vector is locked: an entry of it, or the one that was
    accepted and waits to be pushed. -/
inductive Peer where
  | listed (i : Nat)
  | waiting
  deriving DecidableEq, Repr

/-- The loop of one broadcast. It records who had the descriptor of each send open, if
    anyone, and which connections have been open since the loop began. -/
structure Sweep where
  next : Nat
  sent : List (Option Peer)
  steady : List Peer
  deriving DecidableEq, Repr

structure Server where
  clients : List ClientInfo
  accepted : Option Nat
  sweep : Option Sweep
  finished : List Sweep
  deriving DecidableEq, Repr

inductive Action where
  | accept (fd : Nat)
  | pushBack
  | close (i : Nat)
  | lock
  | send
  | unlock
  deriving DecidableEq, Repr

namespace Server

def create : Server := ⟨[], none, none, []⟩

def peer (s : Server) (fd : Nat) : Option Peer :=
  match s.clients.findIdx? fun c => c.running && c.socket == fd with
  | some i => some (.listed i)
  | none => if s.accepted = some fd then some .waiting else none

def peers (s : Server) : List Peer :=
  ((List.range s.clients.length).filter fun i => (s.clients[i]?).any ClientInfo.running).map
    Peer.listed ++ (s.accepted.map fun _ => Peer.waiting).toList

/-- One step; `none` where it cannot be taken. The vector is locked during a sweep, and
    a descriptor that is open is not given out. -/
def act (s : Server) : Action → Option Server
  | .accept fd =>
    if s.accepted = none ∧ s.peer fd = none then some { s with accepted := some fd } else none
  | .pushBack =>
    match s.accepted, s.sweep with
    | some fd, none => some { s with clients := s.clients ++ [⟨fd, true⟩], accepted := none }
    | _, _ => none
  | .close i =>
    match s.clients[i]? with
    | some ⟨fd, true⟩ =>
      let sweep := s.sweep.map fun w => { w with steady := w.steady.filter (· ≠ .listed i) }
      some { s with clients := s.clients.set i ⟨fd, false⟩, sweep }
    | _ => none
  | .lock =>
    match s.sweep with
    | none => some { s with sweep := some ⟨0, [], s.peers⟩ }
    | some _ => none
  | .send =>
    match s.sweep with
    | some w => (s.clients[w.next]?).map fun c =>
        { s with sweep := some { w with next := w.next + 1, sent := w.sent ++ [s.peer c.socket] } }
    | none => none
  | .unlock =>
    match s.sweep with
    | some w =>
      if w.next = s.clients.length then
        some { s with sweep := none, finished := s.finished ++ [w] }
      else none
    | none => none

def Step (s : Server) (a : Action) (t : Server) : Prop := s.act a = some t

end Server

/-- No send to a closed socket, none to one connection twice, and one to every
    connection that was open all along. -/
structure Sweep.Exact (w : Sweep) : Prop where
  noneClosed : none ∉ w.sent
  noneTwice : w.sent.Nodup
  everyOne : ∀ p ∈ w.steady, some p ∈ w.sent

def Attended (s : Server) : Action → Prop
  | .lock => s.accepted = none
  | .send => s.sweep.all fun w => (s.clients[w.next]?).all ClientInfo.running
  | _ => True

instance (s : Server) (a : Action) : Decidable (Attended s a) :=
  match a with
  | .lock => inferInstanceAs (Decidable (s.accepted = none))
  | .send => inferInstanceAs (Decidable (_ = true))
  | .accept _ | .pushBack | .close _ | .unlock => inferInstanceAs (Decidable True)

structure Apart (s : Server) : Prop where
  listed : ∀ (i j : Nat) c d, s.clients[i]? = some c → s.clients[j]? = some d →
    c.running → d.running → c.socket = d.socket → i = j
  waiting : ∀ fd, s.accepted = some fd → ∀ c ∈ s.clients, c.running → c.socket ≠ fd

structure Served (s : Server) (w : Sweep) : Prop where
  sent : w.sent = (List.range w.next).map fun i => some (Peer.listed i)
  steady : ∀ p ∈ w.steady, ∃ i, i < s.clients.length ∧ p = .listed i

inductive Effect (s : Server) : Action → Server → Prop where
  | accept {fd : Nat} (free : s.accepted = none) (unused : s.peer fd = none) :
      Effect s (.accept fd) { s with accepted := some fd }
  | pushBack {fd : Nat} (waits : s.accepted = some fd) (idle : s.sweep = none) :
      Effect s .pushBack { s with clients := s.clients ++ [⟨fd, true⟩], accepted := none }
  | close {i fd : Nat} (entry : s.clients[i]? = some ⟨fd, true⟩) :
      Effect s (.close i) { s with
        clients := s.clients.set i ⟨fd, false⟩
        sweep := s.sweep.map fun w => { w with steady := w.steady.filter (· ≠ .listed i) } }
  | lock (idle : s.sweep = none) : Effect s .lock { s with sweep := some ⟨0, [], s.peers⟩ }
  | send {w : Sweep} {c : ClientInfo} (sweep : s.sweep = some w)
      (entry : s.clients[w.next]? = some c) :
      Effect s .send { s with
        sweep := some { w with next := w.next + 1, sent := w.sent ++ [s.peer c.socket] } }
  | unlock {w : Sweep} (sweep : s.sweep = some w) (all : w.next = s.clients.length) :
      Effect s .unlock { s with sweep := none, finished := s.finished ++ [w] }

section Steps
variable {s t : Server}

theorem step_effect {a : Action} (step : s.Step a t) : Effect s a t := by
  unfold Server.Step Server.act at step
  cases a with
  | accept fd =>
    simp only at step
    split at step
    · rename_i free
      cases step
      exact Effect.accept free.1 free.2
    · cases step
  | pushBack =>
    simp only at step
    split at step
    · rename_i fd waits idle
      cases step
      exact Effect.pushBack waits idle
    · cases step
  | close i =>
    simp only at step
    split at step
    · rename_i fd entry
      cases step
      exact Effect.close entry
    · cases step
  | lock =>
    simp only at step
    split at step
    · rename_i idle
      cases step
      exact Effect.lock idle
    · cases step
  | send =>
    simp only at step
    split at step
    · rename_i w sweep
      obtain ⟨c, entry, same⟩ := Option.map_eq_some_iff.mp step
      subst same
      exact Effect.send sweep entry
    · cases step
  | unlock =>
    simp only at step
    split at step
    · rename_i w sweep
      split at step
      · rename_i all
        cases step
        exact Effect.unlock sweep all
      · cases step
    · cases step

theorem peer_none {fd : Nat} (unused : s.peer fd = none) :
    (∀ c ∈ s.clients, c.running → c.socket ≠ fd) ∧ s.accepted ≠ some fd := by
  unfold Server.peer at unused
  split at unused
  · cases unused
  · rename_i absent
    split at unused
    · cases unused
    · rename_i other
      refine ⟨?_, other⟩
      intro c member running same
      have no := List.findIdx?_eq_none_iff.mp absent c member
      simp [running, same] at no

theorem peer_listed (apart : Apart s) {i : Nat} {c : ClientInfo} (entry : s.clients[i]? = some c)
    (running : c.running = true) : s.peer c.socket = some (.listed i) := by
  unfold Server.peer
  split
  · rename_i j found
    obtain ⟨inside, holds, _⟩ := List.findIdx?_eq_some_iff_getElem.mp found
    simp only [Bool.and_eq_true, beq_iff_eq] at holds
    have found := List.getElem?_eq_getElem inside
    have same := apart.listed j i _ c found entry holds.1 running holds.2
    rw [same]
  · rename_i absent
    have no := List.findIdx?_eq_none_iff.mp absent c (List.mem_of_getElem? entry)
    simp [running] at no

theorem pushed_entry {l : List ClientInfo} {x c : ClientInfo} {i : Nat}
    (entry : (l ++ [x])[i]? = some c) : l[i]? = some c ∨ (i = l.length ∧ c = x) := by
  rw [List.getElem?_append] at entry
  split at entry
  · exact Or.inl entry
  · obtain ⟨inside, value⟩ := List.getElem?_eq_some_iff.mp entry
    simp only [List.length_singleton] at inside
    refine Or.inr ⟨by omega, ?_⟩
    simpa [show i - l.length = 0 by omega] using value.symm

theorem closed_entry {l : List ClientInfo} {fd i j : Nat} {c : ClientInfo}
    (entry : (l.set i ⟨fd, false⟩)[j]? = some c) (running : c.running = true) :
    l[j]? = some c ∧ j ≠ i := by
  rw [List.getElem?_set] at entry
  split at entry
  · split at entry
    · cases entry
      cases running
    · cases entry
  · rename_i differ
    exact ⟨entry, fun same => differ same.symm⟩

theorem push_apart {fd : Nat} (apart : Apart s) (waits : s.accepted = some fd) :
    Apart { s with clients := s.clients ++ [⟨fd, true⟩], accepted := none } := by
  refine ⟨?_, by simp⟩
  intro i j c d first second live live' same
  rcases pushed_entry first with old | ⟨last, new⟩
  · rcases pushed_entry second with old' | ⟨last', new'⟩
    · exact apart.listed i j c d old old' live live' same
    · subst new'
      exact absurd same (apart.waiting fd waits c (List.mem_of_getElem? old) live)
  · rcases pushed_entry second with old' | ⟨last', new'⟩
    · subst new
      exact absurd same.symm (apart.waiting fd waits d (List.mem_of_getElem? old') live')
    · exact last.trans last'.symm

theorem close_apart {fd i : Nat} (apart : Apart s) (sweep : Option Sweep) :
    Apart { s with clients := s.clients.set i ⟨fd, false⟩, sweep } := by
  constructor
  · intro j k c d first second live live' same
    exact apart.listed j k c d (closed_entry first live).1 (closed_entry second live').1 live live'
      same
  · intro fd' waits c member live
    rcases List.mem_or_eq_of_mem_set member with old | new
    · exact apart.waiting fd' waits c old live
    · subst new
      cases live

theorem step_apart {a : Action} (step : s.Step a t) (apart : Apart s) : Apart t := by
  cases step_effect step with
  | accept free unused =>
    refine ⟨apart.listed, ?_⟩
    intro fd same
    cases same
    exact (peer_none unused).1
  | pushBack waits idle => exact push_apart apart waits
  | close entry => exact close_apart apart _
  | lock idle => exact ⟨apart.listed, apart.waiting⟩
  | send sweep entry => exact ⟨apart.listed, apart.waiting⟩
  | unlock sweep all => exact ⟨apart.listed, apart.waiting⟩

structure Attending (s : Server) : Prop where
  apart : Apart s
  served : ∀ w, s.sweep = some w → Served s w
  exactly : ∀ w ∈ s.finished, w.Exact

theorem lock_served (none_waiting : s.accepted = none) :
    Served { s with sweep := some ⟨0, [], s.peers⟩ } ⟨0, [], s.peers⟩ := by
  refine ⟨rfl, ?_⟩
  intro p member
  simp only [Server.peers, none_waiting, Option.map_none, Option.toList_none, List.append_nil,
    List.mem_map, List.mem_filter, List.mem_range] at member
  obtain ⟨i, ⟨inside, _⟩, same⟩ := member
  exact ⟨i, inside, same.symm⟩

theorem served_exact {w : Sweep} (served : Served s w) (all : w.next = s.clients.length) :
    w.Exact := by
  refine ⟨?_, ?_, ?_⟩
  · rw [served.sent]
    simp
  · rw [served.sent]
    refine List.Nodup.map ?_ List.nodup_range
    intro i j same
    cases same
    rfl
  · intro p member
    obtain ⟨i, inside, same⟩ := served.steady p member
    rw [served.sent, all]
    exact List.mem_map.mpr ⟨i, List.mem_range.mpr inside, by rw [same]⟩

theorem step_attending {a : Action} (step : s.Step a t) (attended : Attended s a)
    (held : Attending s) : Attending t := by
  have apart := step_apart step held.apart
  obtain ⟨before, served, exactly⟩ := held
  cases step_effect step with
  | accept free unused =>
    exact ⟨apart, fun w same => ⟨(served w same).sent, (served w same).steady⟩, exactly⟩
  | pushBack waits idle =>
    refine ⟨apart, ?_, exactly⟩
    intro w same
    rw [idle] at same
    cases same
  | close entry =>
    refine ⟨apart, ?_, exactly⟩
    intro w same
    obtain ⟨w', before', shorter⟩ := Option.map_eq_some_iff.mp same
    subst shorter
    refine ⟨(served w' before').sent, ?_⟩
    intro p member
    obtain ⟨j, inside, named⟩ := (served w' before').steady p (List.mem_filter.mp member).1
    exact ⟨j, by simpa using inside, named⟩
  | lock idle =>
    refine ⟨apart, ?_, exactly⟩
    intro w same
    cases same
    exact lock_served attended
  | @send w c sweep entry =>
    refine ⟨apart, ?_, exactly⟩
    intro w' same
    cases same
    refine ⟨?_, (served w sweep).steady⟩
    have running : c.running = true := by simpa [Attended, sweep, entry] using attended
    rw [peer_listed before entry running, (served w sweep).sent]
    simp [List.range_succ]
  | @unlock w sweep all =>
    exact ⟨apart, by simp, all_snoc exactly (served_exact (served w sweep) all)⟩

end Steps

/-- While no connection waits at the lock and every entry still runs at its turn, each
    broadcast reaches every open connection exactly once and nobody else. -/
theorem broadcasts_exact {actions : List Action} {s : Server}
    (run : Run (Guarded Server.Step Attended) .create actions s) : ∀ w ∈ s.finished, w.Exact := by
  have start : Attending .create :=
    ⟨⟨by simp [Server.create], by simp [Server.create]⟩, by simp [Server.create],
      by simp [Server.create]⟩
  exact (run_invariant Attending (fun step held => step_attending step.1 step.2 held) run
    start).exactly

theorem broadcasts_exact_two : ∃ s : Server, s.finished =
    [⟨2, [some (.listed 0), some (.listed 1)], [.listed 0, .listed 1]⟩] ∧
    ∀ w ∈ s.finished, w.Exact := by
  have replayed : ∃ s, replay (guarded Attended Server.act) .create
      [.accept 5, .pushBack, .accept 6, .pushBack, .lock, .send, .send, .unlock, .close 0] =
        some s ∧ s.finished = [⟨2, [some (.listed 0), some (.listed 1)], [.listed 0, .listed 1]⟩] :=
    ⟨_, rfl, rfl⟩
  obtain ⟨s, done, finished⟩ := replayed
  exact ⟨s, finished, broadcasts_exact (run_of_replay (guarded_step id) done)⟩

theorem broadcast_twice : ∃ s : Server, Run Server.Step .create
    [.accept 5, .pushBack, .close 0, .accept 5, .pushBack, .lock, .send, .send, .unlock] s ∧
    ∃ w ∈ s.finished, w.sent = [some (.listed 1), some (.listed 1)] ∧ ¬ w.Exact := by
  have replayed : ∃ s, replay Server.act .create
      [.accept 5, .pushBack, .close 0, .accept 5, .pushBack, .lock, .send, .send, .unlock] =
        some s ∧ s.finished = [⟨2, [some (.listed 1), some (.listed 1)], [.listed 1]⟩] :=
    ⟨_, rfl, rfl⟩
  obtain ⟨s, done, finished⟩ := replayed
  refine ⟨s, run_of_replay id done, ⟨2, [some (.listed 1), some (.listed 1)], [.listed 1]⟩, ?_,
    rfl, ?_⟩
  · rw [finished]
    exact List.mem_singleton_self _
  · intro exactly
    exact absurd exactly.noneTwice (by decide)

end Phase2
