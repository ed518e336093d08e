import TradingSystems.Phase2.Latency
import TradingSystems.Phase2.Momentum
import Mathlib.Data.List.Perm.Basic

/- The race when every client is the one of the repository. An order then leaves a client
   only in answer to a price that it was told, so the server sees the signals of the prices
   and nothing else: no order is lost or doubled on the way, none is for an unknown price,
   and none comes before its price. -/
namespace Phase2.HitProtocol
open Decimal CString Binary32 Runs FirstWins Wrapping Newest Momentum

def Honest (_ : Server) : Action → Prop
  | .submit _ _ => False
  | .connect | .leave _ | .takeId _ | .record _ | .sendTo _ | .finish | .deliver _ _
  | .receive _ _ _ | .enter _ => True

instance (s : Server) (a : Action) : Decidable (Honest s a) :=
  match a with
  | .submit _ _ => inferInstanceAs (Decidable False)
  | .connect | .leave _ | .takeId _ | .record _ | .sendTo _ | .finish | .deliver _ _
  | .receive _ _ _ | .enter _ => inferInstanceAs (Decidable True)

def Server.client (s : Server) (c : Nat) : Client := (s.clients[c]?).getD .create

def Action.draws : Action → List Nat
  | .takeId random => [random]
  | .connect | .leave _ | .record _ | .sendTo _ | .finish | .deliver _ _ | .submit _ _
  | .receive _ _ _ | .enter _ => []

def announced (actions : List Action) : List (Int × Number) :=
  (actions.flatMap Action.draws).mapIdx fun n random => (wrapped 32 n, broadcastPrice random)

def toldTo (log : List (Entry Int Nat)) (c : Nat) : List Int :=
  log.filterMap fun
    | .told d id => if d = c then some id else none
    | _ => none

def claimedBy (log : List (Entry Int Nat)) (c : Nat) : List Int :=
  log.filterMap fun
    | .claimed d id _ => if d = c then some id else none
    | _ => none

def Client.waiting (k : Client) : List Int := (k.handler.map Prod.fst).toList

section Announced
variable {actions : List Action} {a : Action} {m : Int × Number}

theorem announced_snoc (actions : List Action) (a : Action) :
    announced (actions ++ [a]) = announced actions ++ a.draws.map fun random =>
      (wrapped 32 (announced actions).length, (broadcastPrice random : Number)) := by
  have one : a.draws = [] ∨ ∃ random, a.draws = [random] := by
    cases a with
    | takeId random => exact .inr ⟨random, rfl⟩
    | _ => exact .inl rfl
  rw [announced, List.flatMap_append, List.flatMap_singleton]
  obtain none | ⟨random, drawn⟩ := one
  · simp [none, announced]
  · simp [drawn, announced]

theorem announced_quiet (quiet : a.draws = []) :
    announced (actions ++ [a]) = announced actions := by
  rw [announced_snoc, quiet, List.map_nil, List.append_nil]

theorem announced_grows (member : m ∈ announced actions) (a : Action) :
    m ∈ announced (actions ++ [a]) := by
  rw [announced_snoc]
  exact List.mem_append_left _ member

theorem announced_sendable (member : m ∈ announced actions) : Sendable m := by
  obtain ⟨n, bound, same⟩ := List.mem_mapIdx.mp member
  obtain ⟨low, high⟩ := wrapped_range n
  have range : InInt (wrapped 32 n) := ⟨low, Int.le_sub_one_of_lt high⟩
  subst same
  constructor
  · dsimp only
    exact range
  · exact ⟨_, rfl⟩

/-- Identifiers come round after 2 ^ 32 prices. -/
theorem announced_apart (few : (announced actions).length ≤ 2 ^ 32) :
    ((announced actions).map Prod.fst).Nodup := by
  rw [List.Nodup, List.pairwise_iff_getElem]
  intro i j left right before
  rw [List.length_map] at right
  simp only [announced, List.getElem_map, List.getElem_mapIdx]
  intro same
  have equal := wrapped_injective (by omega) (by omega) same
  omega

end Announced

/-- A client whose memory is that of its messages: an order for each signal among them, which
    is on its way, waits, or has been entered. -/
structure Tracked (drawn : List (Int × Number)) (told claims : List Int) (k : Client)
    (received : List (Int × Number)) : Prop where
  prices : ∀ t ∈ k.prices, ∃ m ∈ drawn, t = priceMessage m
  heard : received.map Prod.fst = told
  drawn : ∀ m ∈ received, m ∈ drawn
  history : k.priceHistory = newest 3 (received.map Prod.snd)
  orders : ∃ pending, k.orders = pending.map orderMessage ∧
    (claims ++ k.waiting ++ pending).Perm (signals received)

section Tracking
variable {drawn : List (Int × Number)} {told claims : List Int} {k : Client}
  {heard : List (Int × Number)} {m : Int × Number}

theorem create_tracked : Tracked drawn [] [] .create [] where
  prices := by simp [Client.create]
  heard := rfl
  drawn := by simp
  history := rfl
  orders := ⟨[], rfl, .refl _⟩

theorem Tracked.more (tracked : Tracked drawn told claims k heard)
    {drawn' : List (Int × Number)} (grows : ∀ m ∈ drawn, m ∈ drawn') :
    Tracked drawn' told claims k heard := by
  refine { tracked with prices := ?_, drawn := fun m member => grows m (tracked.drawn m member) }
  intro t member
  obtain ⟨m, inside, text⟩ := tracked.prices t member
  exact ⟨m, grows m inside, text⟩

theorem Tracked.left (tracked : Tracked drawn told claims k heard) (running : Bool) :
    Tracked drawn told claims { k with running } heard := { tracked with }

theorem Tracked.send (tracked : Tracked drawn told claims k heard) (member : m ∈ drawn) :
    Tracked drawn told claims { k with prices := k.prices ++ [priceMessage m] } heard :=
  { tracked with prices := all_snoc tracked.prices ⟨m, member, rfl⟩ }

theorem Tracked.deliver (tracked : Tracked drawn told claims k heard) {i : Nat}
    (member : m ∈ drawn) :
    Tracked drawn (told ++ [m.1]) claims
      ({ k with prices := k.prices.eraseIdx i }.respond m.1 m.2) (heard ++ [m]) := by
  have window : remember k.priceHistory m.2 = newest 3 ((heard ++ [m]).map Prod.snd) := by
    rw [tracked.history, remember_newest, List.map_append]
    rfl
  refine ⟨fun t inside => tracked.prices t (List.eraseIdx_subset inside), ?_,
    all_snoc tracked.drawn member, window, ?_⟩
  · rw [List.map_append, tracked.heard]
    rfl
  · obtain ⟨pending, orders, sent⟩ := tracked.orders
    rw [signals_snoc, ← window]
    simp only [Client.respond, Client.waiting]
    split
    · refine ⟨pending ++ [m.1], by rw [orders, List.map_append]; rfl, ?_⟩
      rw [← List.append_assoc]
      exact sent.append_right _
    · exact ⟨pending, orders, by rwa [List.append_nil]⟩

theorem signals_received {id : Int} (member : id ∈ signals heard) : ∃ m ∈ heard, m.1 = id := by
  induction heard using signals.induct with
  | case1 a b c rest ih =>
    rw [signals, List.mem_append] at member
    rcases member with here | later
    · split at here
      · exact ⟨c, by simp, (List.mem_singleton.mp here).symm⟩
      · cases here
    · obtain ⟨m, inside, same⟩ := ih later
      exact ⟨m, List.mem_cons_of_mem a inside, same⟩
  | case2 ms short =>
    rw [signals] at member
    · cases member
    · exact short

theorem Tracked.receive (tracked : Tracked drawn told claims k heard) {i : Nat} {buffer : Text}
    {id now : Int} (free : k.handler = none) (message : k.orders[i]? = some buffer)
    (range : ∀ m ∈ heard, InInt m.1) (read : receiveOrders [buffer] = .ok [id]) :
    Tracked drawn told claims
      { k with orders := k.orders.eraseIdx i, handler := some (id, now) } heard := by
  refine { tracked with orders := ?_ }
  obtain ⟨pending, orders, sent⟩ := tracked.orders
  rw [orders, List.getElem?_map, Option.map_eq_some_iff] at message
  obtain ⟨order, position, rfl⟩ := message
  have member : order ∈ signals heard :=
    sent.subset (List.mem_append_right _ (List.mem_of_getElem? position))
  obtain ⟨m, inside, same⟩ := signals_received member
  have single : ∀ id ∈ [order], InInt id := by simpa [same] using range m inside
  have whole := orders_whole single
  rw [List.map_singleton, read, Except.ok.injEq, List.cons.injEq] at whole
  obtain ⟨bound, here⟩ := List.getElem?_eq_some_iff.mp position
  have taken := List.getElem_cons_eraseIdx_perm bound
  rw [here] at taken
  refine ⟨pending.eraseIdx i, by rw [orders, List.eraseIdx_map], ?_⟩
  have moved : claims ++ k.waiting ++ pending = claims ++ pending := by
    simp [Client.waiting, free]
  rw [moved] at sent
  rw [whole.1]
  refine (List.Perm.trans ?_ (taken.append_left claims)).trans sent
  simp [Client.waiting]

/-- The handler enters the critical section. -/
theorem Tracked.enter (tracked : Tracked drawn told claims k heard) {id now : Int}
    (held : k.handler = some (id, now)) :
    Tracked drawn told (claims ++ [id]) { k with handler := none } heard := by
  refine { tracked with orders := ?_ }
  obtain ⟨pending, orders, sent⟩ := tracked.orders
  exact ⟨pending, orders, by simpa [Client.waiting, held] using sent⟩

end Tracking

structure Drawing (drawn : List (Int × Number)) (s : Server) : Prop where
  counted : s.priceId = wrapped 32 drawn.length
  current : ∀ id price, s.broadcaster = .taken id price ∨ s.broadcaster = .recorded id price →
    (id, price) ∈ drawn

def Heard (actions : List Action) (s : Server) (received : Nat → List (Int × Number)) : Prop :=
  ∀ c, Tracked (announced actions) (toldTo s.log c) (claimedBy s.log c) (s.client c) (received c)

section Steps
variable {actions : List Action} {a : Action} {s t : Server} {c d : Nat} {k l : Client}
  {received : Nat → List (Int × Number)} {e : Entry Int Nat} {id : Int}

theorem client_of (client : s.clients[c]? = some k) : s.client c = k := by
  rw [Server.client, client]
  rfl

theorem set_client_same (client : s.clients[c]? = some k) (l : Client) :
    (s.setClient c l).client c = l := by
  have bound := (List.getElem?_eq_some_iff.mp client).1
  simp [Server.client, Server.setClient, bound]

theorem set_client_other (other : d ≠ c) (l : Client) :
    (s.setClient c l).client d = s.client d := by
  simp [Server.client, Server.setClient, other.symm]

theorem connect_client (s : Server) (c : Nat) :
    ({ s with clients := s.clients ++ [.create] } : Server).client c = s.client c := by
  unfold Server.client
  rcases lt_trichotomy c s.clients.length with there | new | beyond
  · rw [List.getElem?_append_left there]
  · simp [new]
  · rw [List.getElem?_eq_none (by simp; omega), List.getElem?_eq_none (by omega)]

theorem enter_log (s : Server) (c : Nat) (id now : Int) :
    ∃ v, (s.enter c id now).log = s.log ++ [.claimed c id v] := ⟨_, rfl⟩

theorem enter_client (s : Server) (c : Nat) (id now : Int) (d : Nat) :
    (s.enter c id now).client d = s.client d := by
  rw [Server.client, Server.enter, hit_clients]
  rfl

theorem enter_drawing (s : Server) (c : Nat) (id now : Int) :
    (s.enter c id now).priceId = s.priceId ∧
      (s.enter c id now).broadcaster = s.broadcaster := by
  unfold Server.enter Server.hit
  split
  · exact ⟨rfl, rfl⟩
  · split <;> exact ⟨rfl, rfl⟩

theorem Drawing.still (drawing : Drawing (announced actions) s) (quiet : a.draws = [])
    (same : t.priceId = s.priceId) (still : t.broadcaster = s.broadcaster) :
    Drawing (announced (actions ++ [a])) t := by
  rw [announced_quiet quiet]
  exact ⟨same.trans drawing.counted, by rw [still]; exact drawing.current⟩

theorem step_drawing (step : s.Step a t) (drawing : Drawing (announced actions) s) :
    Drawing (announced (actions ++ [a])) t := by
  cases step_acts step with
  | takeId idle =>
    rw [announced_snoc]
    refine ⟨?_, ?_⟩
    · simp only [Action.draws, List.map_singleton, List.length_append, List.length_singleton,
        drawing.counted]
      exact Int.bmod_add_bmod
    · rintro id price (taken | recorded)
      · cases taken
        simp [Action.draws, drawing.counted]
      · cases recorded
  | record taken =>
    rw [announced_quiet rfl]
    refine ⟨drawing.counted, ?_⟩
    rintro id price (again | recorded)
    · cases again
    · cases recorded
      exact drawing.current _ _ (.inl taken)
  | finish recorded =>
    rw [announced_quiet rfl]
    refine ⟨drawing.counted, ?_⟩
    rintro id price (taken | recorded)
    · cases taken
    · cases recorded
  | @enter c k id now client held =>
    obtain ⟨same, still⟩ := enter_drawing (s.setClient c { k with handler := none }) c id now
    exact drawing.still rfl same still
  | connect => exact drawing.still rfl rfl rfl
  | leave client => exact drawing.still rfl rfl rfl
  | sendTo recorded client => exact drawing.still rfl rfl rfl
  | deliver client message read => exact drawing.still rfl rfl rfl
  | skip client message other running => exact drawing.still rfl rfl rfl
  | submit range client => exact drawing.still rfl rfl rfl
  | receive client free => exact drawing.still rfl rfl rfl

theorem Heard.move (heard : Heard actions s received) {r : List (Int × Number)}
    (others : ∀ d, d ≠ c → t.client d = s.client d ∧ toldTo t.log d = toldTo s.log d ∧
      claimedBy t.log d = claimedBy s.log d)
    (own : Tracked (announced actions) (toldTo t.log c) (claimedBy t.log c) (t.client c) r) :
    Heard actions t (Function.update received c r) := by
  intro d
  by_cases same : d = c
  · subst same
    rw [Function.update_self]
    exact own
  · obtain ⟨client, told, claims⟩ := others d same
    rw [Function.update_of_ne same, client, told, claims]
    exact heard d

theorem Heard.set (heard : Heard actions s received) (client : s.clients[c]? = some k)
    (tracked : Tracked (announced actions) (toldTo s.log c) (claimedBy s.log c) l (received c)) :
    Heard actions (s.setClient c l) received := by
  have moved := heard.move (t := s.setClient c l) (r := received c)
    (fun d other => ⟨set_client_other other l, rfl, rfl⟩)
    (by rw [set_client_same client]; exact tracked)
  rwa [Function.update_eq_self] at moved

theorem receive_reads {i : Nat} {now : Int} (step : s.Step (.receive c i now) t) :
    ∃ k buffer id, s.clients[c]? = some k ∧ k.orders[i]? = some buffer ∧ k.handler = none ∧
      receiveOrders [buffer] = .ok [id] ∧
      t = s.setClient c { k with orders := k.orders.eraseIdx i, handler := some (id, now) } := by
  unfold Server.Step Server.act at step
  obtain ⟨k, client, rest⟩ := Option.bind_eq_some_iff.mp step
  obtain ⟨buffer, message, rest⟩ := Option.bind_eq_some_iff.mp rest
  split at rest
  · rename_i free read
    cases rest
    exact ⟨k, buffer, _, client, message, free, read, rfl⟩
  · cases rest

theorem Heard.at (heard : Heard actions s received) (client : s.clients[c]? = some k) :
    Tracked (announced actions) (toldTo s.log c) (claimedBy s.log c) k (received c) := by
  have tracked := heard c
  rwa [client_of client] at tracked

theorem Heard.later (heard : Heard actions s received) (a : Action) :
    Heard (actions ++ [a]) s received :=
  fun c => (heard c).more fun _ member => announced_grows member a

/-- A price comes from the broadcaster, and an order is for a price that was received. -/
theorem step_heard (step : s.Step a t) (honest : Honest s a)
    (drawing : Drawing (announced actions) s) (heard : Heard actions s received) :
    ∃ received', Heard (actions ++ [a]) t received' := by
  cases step_acts step with
  | connect =>
    refine ⟨received, Heard.later (fun c => ?_) _⟩
    rw [connect_client]
    exact heard c
  | leave client => exact ⟨received, (heard.set client ((heard.at client).left false)).later _⟩
  | takeId idle => exact ⟨received, Heard.later (fun c => heard c) _⟩
  | record taken =>
    refine ⟨received, Heard.later (fun c => ?_) _⟩
    have tracked := heard c
    simpa [toldTo, claimedBy, Server.client] using tracked
  | sendTo recorded client =>
    have member := drawing.current _ _ (.inr recorded)
    exact ⟨received, (heard.set client ((heard.at client).send member)).later _⟩
  | finish recorded => exact ⟨received, Heard.later (fun c => heard c) _⟩
  | @deliver c i k buffer id price client message read =>
    have tracked := heard.at client
    obtain ⟨m, member, text⟩ := tracked.prices buffer (List.mem_of_getElem? message)
    have single : ∀ n ∈ [m], Sendable n := by simpa using announced_sendable member
    have whole := receive_whole single
    rw [List.map_singleton, ← text, read, Except.ok.injEq, List.cons.injEq] at whole
    obtain ⟨rfl, -⟩ := whole
    refine ⟨_, (heard.move (c := c) (r := received c ++ [(id, price)]) ?_ ?_).later _⟩
    · intro d other
      refine ⟨set_client_other other _, ?_, ?_⟩
      · simp [toldTo, other.symm]
      · simp [claimedBy]
    · have asked : claimedBy (s.log ++ [.told c id]) c = claimedBy s.log c := by
        simp [claimedBy]
      have here : toldTo (s.log ++ [.told c id]) c = toldTo s.log c ++ [id] := by
        simp [toldTo]
      have placed := set_client_same client
        ({ k with prices := k.prices.eraseIdx i }.respond id price)
      have answered : Tracked _ _ _ ((s.setClient c _).client c) _ :=
        placed ▸ tracked.deliver member
      rw [← here, ← asked] at answered
      exact answered
  | @skip c i k buffer client message other running =>
    have tracked := heard.at client
    obtain ⟨m, member, text⟩ := tracked.prices buffer (List.mem_of_getElem? message)
    have single : ∀ n ∈ [m], Sendable n := by simpa using announced_sendable member
    have whole := receive_whole single
    rw [List.map_singleton, ← text] at whole
    exact absurd whole (other m)
  | submit range client => exact absurd honest id
  | @receive c i k' id' now client free =>
    obtain ⟨k, buffer, id, client, message, free, read, moved⟩ := receive_reads step
    rw [moved]
    have tracked := heard.at client
    have range : ∀ m ∈ received c, InInt m.1 := fun m inside =>
      (announced_sendable (tracked.drawn m inside)).1
    exact ⟨received, (heard.set client (tracked.receive free message range read)).later _⟩
  | @enter c k id now client held =>
    obtain ⟨v, log⟩ := enter_log (s.setClient c { k with handler := none }) c id now
    have clients := enter_client (s.setClient c { k with handler := none }) c id now
    refine ⟨_, (heard.move (c := c) (r := received c) ?_ ?_).later _⟩
    · intro d other
      rw [clients, log]
      refine ⟨set_client_other other _, ?_, ?_⟩
      · simp [toldTo, Server.setClient]
      · simp [claimedBy, other.symm, Server.setClient]
    · have told : toldTo (s.log ++ [.claimed c id v]) c = toldTo s.log c := by
        simp [toldTo]
      have here : claimedBy (s.log ++ [.claimed c id v]) c = claimedBy s.log c ++ [id] := by
        simp [claimedBy]
      have entered := (heard.at client).enter held
      rw [← told, ← here] at entered
      rw [clients, log, set_client_same client]
      exact entered

theorem waiting_told {now : Int} (heard : Heard actions s received)
    (client : s.clients[c]? = some k) (held : k.handler = some (id, now)) :
    .told c id ∈ s.log := by
  have tracked := heard.at client
  obtain ⟨pending, -, sent⟩ := tracked.orders
  have waits : id ∈ claimedBy s.log c ++ k.waiting ++ pending := by
    simp [Client.waiting, held]
  obtain ⟨m, inside, rfl⟩ := signals_received (sent.subset waits)
  have told : m.1 ∈ toldTo s.log c := tracked.heard ▸ List.mem_map_of_mem inside
  obtain ⟨e, logged, read⟩ := List.mem_filterMap.mp told
  split at read
  · split_ifs at read with same
    cases read
    exact same ▸ logged
  · cases read

def Known (s : Server) : Prop := ∀ c id v, .claimed c id v ∈ s.log → v ≠ .unknown

theorem step_known (step : s.Step a t) (sound : Sound s) (heard : Heard actions s received)
    (known : Known s) : Known t := by
  have judged := (step_sound step sound).judged
  cases step_acts step with
  | record taken =>
    intro c id v logged
    exact known c id v (by simpa using logged)
  | deliver client message read =>
    intro c id v logged
    exact known c id v (by simpa [Server.setClient] using logged)
  | @enter c k id now client held =>
    obtain ⟨v, log⟩ := enter_log (s.setClient c { k with handler := none }) c id now
    have told := waiting_told heard client held
    rw [log] at judged
    intro d j w logged
    rw [log, List.mem_append, List.mem_singleton] at logged
    rcases logged with old | new
    · exact known d j w old
    · cases new
      exact told_known judged told
  | connect => exact known
  | leave client => exact known
  | takeId idle => exact known
  | sendTo recorded client => exact known
  | finish recorded => exact known
  | skip client message other running => exact known
  | submit range client => exact known
  | receive client free => exact known

/-- What holds in every state of a race among clients of the repository. -/
structure Fair (actions : List Action) (s : Server) : Prop where
  sound : Sound s
  drawing : Drawing (announced actions) s
  known : Known s
  heard : ∃ received, Heard actions s received

theorem create_fair : Fair [] .create where
  sound := create_sound
  drawing := ⟨rfl, by simp [Server.create]⟩
  known := by simp [Known, Server.create]
  heard := ⟨fun _ => [], fun _ => create_tracked⟩

theorem step_fair (step : s.Step a t) (honest : Honest s a) (fair : Fair actions s) :
    Fair (actions ++ [a]) t := by
  obtain ⟨received, heard⟩ := fair.heard
  exact ⟨step_sound step fair.sound, step_drawing step fair.drawing,
    step_known step fair.sound heard fair.known, step_heard step honest fair.drawing heard⟩

theorem run_fair (run : Run (Guarded Server.Step Honest) .create actions s) : Fair actions s :=
  run_history Fair (fun step fair => step_fair step.1 step.2 fair) run create_fair

theorem claimed_by_iff : id ∈ claimedBy s.log c ↔ ∃ v, .claimed c id v ∈ s.log := by
  constructor
  · intro claimed
    obtain ⟨e, logged, read⟩ := List.mem_filterMap.mp claimed
    split at read
    · rename_i d j v
      split_ifs at read with same
      cases read
      exact ⟨v, same ▸ logged⟩
    · cases read
  · rintro ⟨v, logged⟩
    exact List.mem_filterMap.mpr ⟨_, logged, if_pos rfl⟩

/-- Where every order was for a known price, the prices that are hit are those that were
    claimed. -/
theorem hit_iff_claimed (sound : Sound s) (known : Known s) :
    id ∈ s.priceAlreadyHit ↔ ∃ c, id ∈ claimedBy s.log c := by
  rw [sound.hit]
  simp only [claimed_by_iff]
  constructor
  · rintro ⟨c, won⟩
    exact ⟨c, .won, won⟩
  · rintro ⟨c, v, logged⟩
    obtain ⟨before, after, split⟩ := List.mem_iff_append.mp logged
    have just := sound.judged before _ after split
    cases v with
    | won => exact ⟨c, logged⟩
    | taken =>
      obtain ⟨d, earlier⟩ := just
      exact ⟨d, by simp [split, earlier]⟩
    | unknown => exact absurd rfl (known c id .unknown logged)

def risingRace : List Action := [.connect, .connect,
  .takeId 500, .record 100, .sendTo 0, .sendTo 1, .finish, .deliver 0 0, .deliver 1 0,
  .takeId 600, .record 200, .sendTo 0, .sendTo 1, .finish, .deliver 0 0, .deliver 1 0,
  .takeId 700, .record 300, .sendTo 0, .sendTo 1, .finish, .deliver 0 0, .deliver 1 0,
  .receive 1 0 7000300, .receive 0 0 9000300, .enter 1, .enter 0]

theorem rising_race_replayed : ∃ s, replay (guarded Honest Server.act) .create risingRace = some s ∧
    s.hits = [⟨1, 2, 7⟩] ∧ ∀ k ∈ s.clients, k.handler = none ∧ k.orders = [] := by
  have replayed : (replay (guarded Honest Server.act) .create risingRace).map
        (fun s => (s.hits, s.clients.all fun k => k.handler.isNone && k.orders.isEmpty)) =
      some ([⟨1, 2, 7⟩], true) := by
    decide +kernel
  obtain ⟨s, done, shown⟩ := Option.map_eq_some_iff.mp replayed
  rw [Prod.mk.injEq] at shown
  refine ⟨s, done, shown.1, ?_⟩
  intro k member
  simpa using List.all_eq_true.mp shown.2 k member

/-- The price that is recorded next has not been recorded before it was drawn. -/
structure Fresh (actions : List Action) (s : Server) : Prop where
  opened : ∀ id, Opened s.log id → id ∈ (announced actions).map Prod.fst
  taken : ∀ id price, s.broadcaster = .taken id price → ∃ front,
    announced actions = front ++ [(id, price)] ∧ ∀ j, Opened s.log j → j ∈ front.map Prod.fst

theorem Fresh.still (fresh : Fresh actions s) (quiet : a.draws = [])
    (still : t.broadcaster = s.broadcaster) (same : ∀ id, Opened t.log id ↔ Opened s.log id) :
    Fresh (actions ++ [a]) t := by
  constructor
  · intro id opened
    rw [announced_quiet quiet]
    exact fresh.opened id ((same id).mp opened)
  · intro id price taken
    rw [announced_quiet quiet]
    rw [still] at taken
    obtain ⟨front, split, before⟩ := fresh.taken id price taken
    exact ⟨front, split, fun j opened => before j ((same j).mp opened)⟩

theorem step_fresh (step : s.Step a t) (drawing : Drawing (announced actions) s)
    (fresh : Fresh actions s) : Fresh (actions ++ [a]) t := by
  cases step_acts step with
  | @takeId random idle =>
    have grown : announced (actions ++ [.takeId random]) =
        announced actions ++ [(s.priceId, (broadcastPrice random : Number))] := by
      rw [announced_snoc, drawing.counted]
      rfl
    constructor
    · intro id opened
      rw [grown, List.map_append]
      exact List.mem_append_left _ (fresh.opened id opened)
    · intro id price taken
      cases taken
      exact ⟨announced actions, grown, fresh.opened⟩
  | @record id now price taken =>
    constructor
    · intro j opened
      rw [announced_quiet rfl]
      rcases opened_snoc_iff.mp opened with old | new
      · exact fresh.opened j old
      · cases new
        exact List.mem_map_of_mem (drawing.current id price (.inl taken))
    · intro j q again
      cases again
  | finish recorded =>
    constructor
    · intro j opened
      rw [announced_quiet rfl]
      exact fresh.opened j opened
    · intro j q taken
      cases taken
  | deliver client message read =>
    exact fresh.still rfl rfl fun id => by simp [Opened]
  | @enter c k id now client held =>
    obtain ⟨v, log⟩ := enter_log (s.setClient c { k with handler := none }) c id now
    have still := (enter_drawing (s.setClient c { k with handler := none }) c id now).2
    refine fresh.still rfl still fun j => ?_
    rw [log, opened_snoc_iff, or_iff_left (by simp)]
    rfl
  | connect => exact fresh.still rfl rfl fun _ => Iff.rfl
  | leave client => exact fresh.still rfl rfl fun _ => Iff.rfl
  | sendTo recorded client => exact fresh.still rfl rfl fun _ => Iff.rfl
  | skip client message other running => exact fresh.still rfl rfl fun _ => Iff.rfl
  | submit range client => exact fresh.still rfl rfl fun _ => Iff.rfl
  | receive client free => exact fresh.still rfl rfl fun _ => Iff.rfl

/-- No order waits for a price that is still to be recorded. -/
theorem fair_undisturbed (fair : Fair actions s) (fresh : Fresh actions s)
    (few : (announced actions).length ≤ 2 ^ 32) (a : Action) : Undisturbed s a := by
  cases a with
  | record now =>
    intro id recording _ k member order held same
    obtain ⟨price, taken⟩ := recording_iff.mp recording
    obtain ⟨front, split, opened⟩ := fresh.taken id price taken
    obtain ⟨received, heard⟩ := fair.heard
    obtain ⟨c, client⟩ := List.mem_iff_getElem?.mp member
    have told := waiting_told heard client held
    obtain ⟨before, after, logged⟩ := List.mem_iff_append.mp told
    have known : Opened before order.1 := fair.sound.judged before _ after logged
    have earlier := opened order.1 (by rw [logged]; exact known.append)
    have apart := announced_apart few
    rw [split, List.map_append, List.nodup_append] at apart
    exact absurd same (apart.2.2 _ earlier _ (by simp))
  | _ => trivial

end Steps
end Phase2.HitProtocol
