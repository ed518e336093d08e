import TradingSystems.Phase2.HitProtocol

/- The latencies that are printed. A handler reads the clock before it waits for
   priceMutex, so the broadcaster can record a price in between; only an order that names
   the price in advance is there to wait. -/
namespace Phase2.HitProtocol
open Binary32 Runs

def Action.reading : Action → Option Int
  | .record now => some now
  | .receive _ _ now => some now
  | .connect | .leave _ | .takeId _ | .sendTo _ | .finish | .deliver _ _ | .submit _ _
  | .enter _ => none

def readings (actions : List Action) : List Int := actions.filterMap Action.reading

def Forward (actions : List Action) : Prop := (readings actions).Pairwise (· ≤ ·)

instance (actions : List Action) : Decidable (Forward actions) :=
  inferInstanceAs (Decidable (List.Pairwise _ _))

def Server.Held (s : Server) (id seen : Int) : Prop := ∃ k ∈ s.clients, k.handler = some (id, seen)

def Broadcaster.recording : Broadcaster → Option Int
  | .taken id _ => some id
  | _ => none

theorem recording_iff {b : Broadcaster} {id : Int} :
    id ∈ b.recording ↔ ∃ price, b = .taken id price := by
  cases b <;> simp [Broadcaster.recording]

/-- No order that can still score waits for a price whose time is recorded later than the
    order arrived. -/
def Undisturbed (s : Server) : Action → Prop
  | .record now => ∀ id ∈ s.broadcaster.recording, id ∉ s.priceAlreadyHit →
      ∀ k ∈ s.clients, ∀ order ∈ k.handler, order.1 = id → now ≤ order.2
  | _ => True

instance (s : Server) (a : Action) : Decidable (Undisturbed s a) :=
  match a with
  | .record _ => inferInstanceAs (Decidable (∀ id ∈ s.broadcaster.recording, _))
  | .connect | .leave _ | .takeId _ | .sendTo _ | .finish | .deliver _ _ | .submit _ _
  | .receive _ _ _ | .enter _ => inferInstanceAs (Decidable True)

/-- What enters next was not seen before its price was recorded, and neither was what
    has been credited. -/
structure Timely (s : Server) : Prop where
  held : ∀ id seen, s.Held id seen → id ∉ s.priceAlreadyHit →
    ∀ stamp, s.priceTimestamps id = some stamp → stamp ≤ seen
  credited : ∀ h ∈ s.hits, 0 ≤ h.latency

inductive Timing (s t : Server) : Action → Prop where
  | other {a : Action} (silent : a.reading = none)
      (stamps : t.priceTimestamps = s.priceTimestamps) (same : SameScore s t)
      (held : ∀ id seen, t.Held id seen → s.Held id seen) : Timing s t a
  | recorded (id : Int) (price : Number) (now : Int) (taken : s.broadcaster = .taken id price)
      (stamps : t.priceTimestamps = Function.update s.priceTimestamps id (some now))
      (same : SameScore s t) (held : ∀ id seen, t.Held id seen → s.Held id seen) :
      Timing s t (.record now)
  | received (c i : Nat) (id now : Int) (stamps : t.priceTimestamps = s.priceTimestamps)
      (same : SameScore s t)
      (held : ∀ other seen, t.Held other seen → s.Held other seen ∨ other = id ∧ seen = now) :
      Timing s t (.receive c i now)
  | credited (c : Nat) (id seen stamp : Int) (waited : s.Held id seen)
      (fresh : id ∉ s.priceAlreadyHit) (present : s.priceTimestamps id = some stamp)
      (stamps : t.priceTimestamps = s.priceTimestamps)
      (hit : t.priceAlreadyHit = insert id s.priceAlreadyHit)
      (hits : t.hits = s.hits ++ [⟨c, id, milliseconds (seen - stamp)⟩])
      (held : ∀ id seen, t.Held id seen → s.Held id seen) : Timing s t (.enter c)

section Steps
variable {s t : Server} {c : Nat} {id seen : Int} {k l : Client}

theorem held_set (held : (s.setClient c l).Held id seen) :
    s.Held id seen ∨ l.handler = some (id, seen) := by
  obtain ⟨m, member, waits⟩ := held
  rcases List.mem_or_eq_of_mem_set member with old | new
  · exact Or.inl ⟨m, old, waits⟩
  · exact Or.inr (new ▸ waits)

theorem held_kept (client : s.clients[c]? = some k) (same : l.handler = k.handler) :
    ∀ id seen, (s.setClient c l).Held id seen → s.Held id seen := by
  intro id seen held
  rcases held_set held with old | new
  · exact old
  · exact ⟨k, List.mem_of_getElem? client, same ▸ new⟩

theorem step_timing {a : Action} (step : s.Step a t) : Timing s t a := by
  cases step_acts step with
  | connect =>
    refine .other rfl rfl ⟨rfl, rfl⟩ ?_
    intro id seen held
    obtain ⟨k, member, waits⟩ := held
    rcases List.mem_append.mp member with old | new
    · exact ⟨k, old, waits⟩
    · rw [List.mem_singleton.mp new] at waits
      cases waits
  | leave client => exact .other rfl rfl ⟨rfl, rfl⟩ (held_kept client rfl)
  | takeId idle => exact .other rfl rfl ⟨rfl, rfl⟩ fun _ _ held => held
  | record taken => exact .recorded _ _ _ taken rfl ⟨rfl, rfl⟩ fun _ _ held => held
  | sendTo recorded client => exact .other rfl rfl ⟨rfl, rfl⟩ (held_kept client rfl)
  | finish recorded => exact .other rfl rfl ⟨rfl, rfl⟩ fun _ _ held => held
  | deliver client message read => exact .other rfl rfl ⟨rfl, rfl⟩ (held_kept client rfl)
  | skip client message other running => exact .other rfl rfl ⟨rfl, rfl⟩ (held_kept client rfl)
  | submit range client => exact .other rfl rfl ⟨rfl, rfl⟩ (held_kept client rfl)
  | @receive c i k id now client free =>
    refine .received c i id now rfl ⟨rfl, rfl⟩ ?_
    intro other seen held
    rcases held_set held with old | new
    · exact Or.inl old
    · cases new
      exact Or.inr ⟨rfl, rfl⟩
  | @enter c k id now client held =>
    have freed : ∀ other seen,
        ((s.setClient c { k with handler := none }).enter c id now).Held other seen →
          s.Held other seen := by
      intro other seen waits
      rw [Server.Held, Server.enter, hit_clients] at waits
      rcases held_set waits with old | new
      · exact old
      · cases new
    by_cases opened : s.Open id
    · obtain ⟨stamp, present⟩ := Option.ne_none_iff_exists'.mp opened.2
      have waited : s.Held id now := ⟨k, List.mem_of_getElem? client, held⟩
      obtain ⟨hit, hits⟩ := hit_open (s := s.setClient c { k with handler := none }) opened.1
        present c now
      exact .credited c id now stamp waited opened.1 present (hit_stamps c now) hit hits freed
    · have same := hit_closed (s := s.setClient c { k with handler := none }) opened c now
      exact .other rfl (hit_stamps c now) ⟨same.priceAlreadyHit, same.hits⟩ freed

theorem readings_snoc (actions : List Action) (a : Action) :
    readings (actions ++ [a]) = readings actions ++ a.reading.toList := by
  simp only [readings, List.filterMap_append, List.filterMap_cons, List.filterMap_nil]
  cases a.reading <;> rfl

theorem forward_snoc {actions : List Action} {a : Action} (forward : Forward (actions ++ [a])) :
    Forward actions ∧ ∀ now, a.reading = some now → ∀ before ∈ readings actions, before ≤ now := by
  rw [Forward, readings_snoc, List.pairwise_append] at forward
  refine ⟨forward.1, ?_⟩
  intro now read before member
  exact forward.2.2 before member now (by simp [read])

structure InTime (actions : List Action) (s : Server) : Prop extends Timely s where
  stamped : ∀ id stamp, s.priceTimestamps id = some stamp → stamp ∈ readings actions

theorem create_in_time : InTime [] .create := by
  refine ⟨⟨?_, by simp [Server.create]⟩, by simp [Server.create]⟩
  intro id seen held
  obtain ⟨k, member, _⟩ := held
  cases member

theorem InTime.step {actions : List Action} {a : Action} (held : InTime actions s)
    (step : s.Step a t) (undisturbed : Undisturbed s a)
    (later : ∀ now, a.reading = some now → ∀ before ∈ readings actions, before ≤ now) :
    InTime (actions ++ [a]) t := by
  have older : ∀ {stamp}, stamp ∈ readings actions → stamp ∈ readings (actions ++ [a]) := by
    intro stamp member
    rw [readings_snoc]
    exact List.mem_append_left _ member
  have stamped : t.priceTimestamps = s.priceTimestamps → ∀ id stamp,
      t.priceTimestamps id = some stamp → stamp ∈ readings (actions ++ [a]) := by
    intro stamps id stamp present
    rw [stamps] at present
    exact older (held.stamped id stamp present)
  cases step_timing step with
  | other silent stamps same waits =>
    refine ⟨⟨?_, same.hits ▸ held.credited⟩, stamped stamps⟩
    rw [same.priceAlreadyHit, stamps]
    intro id seen waiting
    exact held.held id seen (waits id seen waiting)
  | recorded id price now taken stamps same waits =>
    refine ⟨⟨?_, same.hits ▸ held.credited⟩, ?_⟩
    · rw [same.priceAlreadyHit, stamps]
      intro other seen waiting fresh stamp present
      obtain ⟨k, member, order⟩ := waits other seen waiting
      by_cases here : other = id
      · subst here
        rw [Function.update_self] at present
        cases present
        have next : other ∈ s.broadcaster.recording := recording_iff.mpr ⟨price, taken⟩
        exact undisturbed other next fresh k member (other, seen) order rfl
      · rw [Function.update_of_ne here] at present
        exact held.held other seen ⟨k, member, order⟩ fresh stamp present
    · rw [stamps]
      intro other stamp present
      by_cases here : other = id
      · rw [here, Function.update_self] at present
        cases present
        simp [readings_snoc, Action.reading]
      · rw [Function.update_of_ne here] at present
        exact older (held.stamped other stamp present)
  | received c i id now stamps same waits =>
    refine ⟨⟨?_, same.hits ▸ held.credited⟩, stamped stamps⟩
    rw [same.priceAlreadyHit, stamps]
    intro other seen waiting fresh stamp present
    rcases waits other seen waiting with old | ⟨_, new⟩
    · exact held.held other seen old fresh stamp present
    · rw [new]
      exact later now rfl stamp (held.stamped other stamp present)
  | credited c id seen stamp waited fresh present stamps hit hits waits =>
    have inside := held.held id seen waited fresh stamp present
    refine ⟨⟨?_, ?_⟩, stamped stamps⟩
    · rw [hit, stamps]
      intro other seen waiting unhit
      apply held.held other seen (waits other seen waiting)
      exact fun old => unhit (Finset.mem_insert_of_mem old)
    · rw [hits]
      refine all_snoc held.credited ?_
      apply Int.tdiv_nonneg (Int.sub_nonneg_of_le inside)
      decide

end Steps

/-- As long as no price is recorded while an earlier order for it waits, no reading of a
    handler is earlier than the time of the price it is credited for. -/
theorem latencies_in_time {actions : List Action} {s : Server}
    (run : Run (Guarded Server.Step Undisturbed) .create actions s) (forward : Forward actions) :
    Timely s := by
  have kept := run_history (fun actions s => Forward actions → InTime actions s)
    (fun step held forward => by
      obtain ⟨before, later⟩ := forward_snoc forward
      exact (held before).step step.1 step.2 later)
    run fun _ => create_in_time
  exact (kept forward).toTimely

theorem latencies_in_time_guess : ∃ s : Server, s.hits = [⟨0, 0, 5⟩] ∧ Timely s := by
  have replayed : (replay (guarded Undisturbed Server.act) .create [.connect, .connect, .submit 1 0,
      .receive 1 0 50, .enter 1, .takeId 500, .submit 0 0, .record 100, .receive 0 0 5000100,
      .enter 0]).map Server.hits = some [⟨0, 0, 5⟩] := by
    decide +kernel
  obtain ⟨s, done, hits⟩ := Option.map_eq_some_iff.mp replayed
  exact ⟨s, hits, latencies_in_time (run_of_replay (guarded_step id) done) (by decide)⟩

/-- An order that waits for the mutex while its price is recorded hits it in advance. -/
theorem latency_negative : ∃ (actions : List Action) (s : Server),
    Run Server.Step .create actions s ∧ Forward actions ∧ s.hits = [⟨0, 0, -5⟩] ∧ ¬ Timely s := by
  have replayed : (replay Server.act .create [.connect, .submit 0 0, .receive 0 0 100,
      .takeId 500, .record 5000100, .enter 0]).map Server.hits = some [⟨0, 0, -5⟩] := by
    decide +kernel
  obtain ⟨s, done, hits⟩ := Option.map_eq_some_iff.mp replayed
  refine ⟨_, s, run_of_replay id done, by decide, hits, fun timely => ?_⟩
  have credited := timely.credited ⟨0, 0, -5⟩ (by simp [hits])
  exact absurd credited (by decide)

theorem enter_credits {s : Server} {c : Nat} {k : Client} {id seen stamp : Int}
    (client : s.clients[c]? = some k) (order : k.handler = some (id, seen))
    (fresh : id ∉ s.priceAlreadyHit) (present : s.priceTimestamps id = some stamp) :
    ∃ t, s.Step (.enter c) t ∧
      t.hits = s.hits ++ [⟨c, id, milliseconds (seen - stamp)⟩] := by
  refine ⟨(s.setClient c { k with handler := none }).enter c id seen, ?_, ?_⟩
  · simp [Server.Step, Server.act, client, order]
  · exact (hit_open (s := s.setClient c { k with handler := none }) fresh present c seen).2

theorem disturbed_late {s t : Server} {a : Action} (step : s.Step a t)
    (disturbed : ¬ Undisturbed s a) : ∃ c u id seen stamp, t.Step (.enter c) u ∧ seen < stamp ∧
      t.priceTimestamps id = some stamp ∧
      u.hits = t.hits ++ [⟨c, id, milliseconds (seen - stamp)⟩] := by
  cases step_acts step with
  | @record id now price taken =>
    simp only [Undisturbed] at disturbed
    push Not at disturbed
    obtain ⟨next, recording, fresh, k, member, ⟨other, seen⟩, order, here, late⟩ := disturbed
    obtain ⟨_, same⟩ := recording_iff.mp recording
    cases taken.symm.trans same
    cases here
    obtain ⟨c, client⟩ := List.mem_iff_getElem?.mp member
    have present : Function.update s.priceTimestamps other (some now) other = some now :=
      Function.update_self ..
    obtain ⟨u, entered, hits⟩ := enter_credits (s := { s with
      priceTimestamps := Function.update s.priceTimestamps other (some now)
      broadcaster := .recorded other price
      log := s.log ++ [.opened other] }) client order fresh present
    exact ⟨c, u, other, seen, now, entered, late, present, hits⟩
  | _ => exact absurd trivial disturbed

end Phase2.HitProtocol
