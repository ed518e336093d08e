import TradingSystems.Library.FirstWins
import TradingSystems.Library.Runs
import TradingSystems.Library.Wrapping
import TradingSystems.Phase2.Framing
import Mathlib.Data.Finset.Insert

/- The race for a price. Messages arrive whole, in any order and after any delay; which
   clients a broadcast reaches, and how often, is left open here. The handlers and the
   broadcaster take turns at priceMutex. The log of what happened is for the proofs. -/
namespace Phase2.HitProtocol
open Decimal CString Binary32 Runs FirstWins Wrapping

/-- A connection: what is on its way to the client and from it, what the client remembers,
    and the order that its handler is about to take into the critical section, with the
    time of its arrival. -/
structure Client where
  running : Bool
  prices : List Text
  orders : List Text
  priceHistory : List Number
  handler : Option (Int × Int)
  deriving DecidableEq, Repr

def Client.create : Client := ⟨true, [], [], [], none⟩

inductive Broadcaster where
  | idle
  | taken (id : Int) (price : Number)
  | recorded (id : Int) (price : Number)
  deriving DecidableEq, Repr

/-- A line that handleClient prints, with the latency in milliseconds. -/
structure Hit where
  client : Nat
  priceId : Int
  latency : Int
  deriving DecidableEq, Repr

structure Server where
  priceId : Int
  broadcaster : Broadcaster
  priceTimestamps : Int → Option Int
  priceAlreadyHit : Finset Int
  clients : List Client
  hits : List Hit
  log : List (Entry Int Nat)

def Server.create : Server := ⟨0, .idle, fun _ => none, ∅, [], [], []⟩

def remember (priceHistory : List Number) (currentPrice : Number) : List Number :=
  (if 3 ≤ priceHistory.length then priceHistory.tail else priceHistory) ++ [currentPrice]

def momentum : List Number → Bool
  | [a, b, c] => (a < b && b < c) || (a > b && b > c)
  | _ => false

def Client.respond (k : Client) (priceId : Int) (price : Number) : Client :=
  let priceHistory := remember k.priceHistory price
  let orders := if momentum priceHistory then k.orders ++ [orderMessage priceId] else k.orders
  { k with priceHistory, orders }

/-- `duration_cast<milliseconds>` of nanoseconds. -/
def milliseconds (duration : Int) : Int := duration.tdiv (10 ^ 6)

/-- What handleClient does under priceMutex with an order that arrived at `now`. -/
def Server.hit (s : Server) (c : Nat) (receivedPriceId now : Int) : Server :=
  if receivedPriceId ∈ s.priceAlreadyHit then s
  else
    match s.priceTimestamps receivedPriceId with
    | none => s
    | some stamp =>
      { s with
        priceAlreadyHit := insert receivedPriceId s.priceAlreadyHit
        hits := s.hits ++ [⟨c, receivedPriceId, milliseconds (now - stamp)⟩] }

def Server.verdict (s : Server) (id : Int) : Verdict :=
  if id ∈ s.priceAlreadyHit then .taken
  else if (s.priceTimestamps id).isSome then .won
  else .unknown

/-- The log has every order that enters, whatever the handler makes of it. -/
def Server.enter (s : Server) (c : Nat) (id now : Int) : Server :=
  { s.hit c id now with log := s.log ++ [.claimed c id (s.verdict id)] }

/-- Times are nanoseconds; indices are those of connections and of messages on their way.
    `submit` is an order that a client sends of its own accord. -/
inductive Action where
  | connect
  | leave (c : Nat)
  | takeId (random : Nat)
  | record (now : Int)
  | sendTo (c : Nat)
  | finish
  | deliver (c i : Nat)
  | submit (c : Nat) (priceId : Int)
  | receive (c i : Nat) (now : Int)
  | enter (c : Nat)
  deriving DecidableEq, Repr

def Server.setClient (s : Server) (c : Nat) (k : Client) : Server :=
  { s with clients := s.clients.set c k }

/-- One step; `none` where it cannot be taken. An uncaught conversion error ends the
    client. -/
def Server.act (s : Server) : Action → Option Server
  | .connect => some { s with clients := s.clients ++ [.create] }
  | .leave c => (s.clients[c]?).map fun k => s.setClient c { k with running := false }
  | .takeId random =>
    if s.broadcaster = .idle then
      some { s with
        priceId := wrapped 32 (s.priceId + 1)
        broadcaster := .taken s.priceId (broadcastPrice random) }
    else none
  | .record now =>
    match s.broadcaster with
    | .taken id price =>
      some { s with
        priceTimestamps := Function.update s.priceTimestamps id (some now)
        broadcaster := .recorded id price
        log := s.log ++ [.opened id] }
    | _ => none
  | .sendTo c =>
    match s.broadcaster with
    | .recorded id price => (s.clients[c]?).map fun k =>
        s.setClient c { k with prices := k.prices ++ [priceMessage (id, price)] }
    | _ => none
  | .finish =>
    match s.broadcaster with
    | .recorded _ _ => some { s with broadcaster := .idle }
    | _ => none
  | .deliver c i => do
    let k ← s.clients[c]?
    let buffer ← k.prices[i]?
    if k.running then
      let k := { k with prices := k.prices.eraseIdx i }
      match receivePrices [buffer] with
      | .ok [(priceId, price)] =>
        some { s.setClient c (k.respond priceId price) with log := s.log ++ [.told c priceId] }
      | .ok _ => some (s.setClient c k)
      | .error _ => some (s.setClient c { k with running := false })
    else none
  | .submit c priceId =>
    if InInt priceId then (s.clients[c]?).map fun k =>
      s.setClient c { k with orders := k.orders ++ [orderMessage priceId] }
    else none
  | .receive c i now => do
    let k ← s.clients[c]?
    let buffer ← k.orders[i]?
    match k.handler, receiveOrders [buffer] with
    | none, .ok [receivedPriceId] =>
      some (s.setClient c
        { k with orders := k.orders.eraseIdx i, handler := some (receivedPriceId, now) })
    | _, _ => none
  | .enter c => do
    let k ← s.clients[c]?
    let (receivedPriceId, now) ← k.handler
    some ((s.setClient c { k with handler := none }).enter c receivedPriceId now)

def Server.Step (s : Server) (a : Action) (t : Server) : Prop := s.act a = some t

inductive Acts (s : Server) : Action → Server → Prop where
  | connect : Acts s .connect { s with clients := s.clients ++ [.create] }
  | leave {c : Nat} {k : Client} (client : s.clients[c]? = some k) :
      Acts s (.leave c) (s.setClient c { k with running := false })
  | takeId {random : Nat} (idle : s.broadcaster = .idle) : Acts s (.takeId random) { s with
      priceId := wrapped 32 (s.priceId + 1)
      broadcaster := .taken s.priceId (broadcastPrice random) }
  | record {id now : Int} {price : Number} (taken : s.broadcaster = .taken id price) :
      Acts s (.record now) { s with
        priceTimestamps := Function.update s.priceTimestamps id (some now)
        broadcaster := .recorded id price
        log := s.log ++ [.opened id] }
  | sendTo {c : Nat} {k : Client} {id : Int} {price : Number}
      (recorded : s.broadcaster = .recorded id price) (client : s.clients[c]? = some k) :
      Acts s (.sendTo c) (s.setClient c { k with prices := k.prices ++ [priceMessage (id, price)] })
  | finish {id : Int} {price : Number} (recorded : s.broadcaster = .recorded id price) :
      Acts s .finish { s with broadcaster := .idle }
  | deliver {c i : Nat} {k : Client} {buffer : Text} {id : Int} {price : Number}
      (client : s.clients[c]? = some k) (message : k.prices[i]? = some buffer)
      (read : receivePrices [buffer] = .ok [(id, price)]) :
      Acts s (.deliver c i) { s.setClient c
        ({ k with prices := k.prices.eraseIdx i }.respond id price) with
          log := s.log ++ [.told c id] }
  | skip {c i : Nat} {k : Client} {buffer : Text} (client : s.clients[c]? = some k)
      (message : k.prices[i]? = some buffer)
      (other : ∀ m, receivePrices [buffer] ≠ .ok [m]) (running : Bool) :
      Acts s (.deliver c i) (s.setClient c { k with prices := k.prices.eraseIdx i, running })
  | submit {c : Nat} {k : Client} {id : Int} (range : InInt id)
      (client : s.clients[c]? = some k) :
      Acts s (.submit c id) (s.setClient c { k with orders := k.orders ++ [orderMessage id] })
  | receive {c i : Nat} {k : Client} {id now : Int} (client : s.clients[c]? = some k)
      (free : k.handler = none) : Acts s (.receive c i now) (s.setClient c
        { k with orders := k.orders.eraseIdx i, handler := some (id, now) })
  | enter {c : Nat} {k : Client} {id now : Int} (client : s.clients[c]? = some k)
      (held : k.handler = some (id, now)) :
      Acts s (.enter c) ((s.setClient c { k with handler := none }).enter c id now)

theorem step_acts {s t : Server} {a : Action} (step : s.Step a t) : Acts s a t := by
  unfold Server.Step Server.act at step
  cases a with
  | connect =>
    cases step
    exact .connect
  | leave c =>
    obtain ⟨k, client, rfl⟩ := Option.map_eq_some_iff.mp step
    exact .leave client
  | takeId random =>
    simp only at step
    split at step
    · rename_i idle
      cases step
      exact .takeId idle
    · cases step
  | record now =>
    simp only at step
    split at step
    · rename_i id price taken
      cases step
      exact .record taken
    · cases step
  | sendTo c =>
    simp only at step
    split at step
    · rename_i id price recorded
      obtain ⟨k, client, rfl⟩ := Option.map_eq_some_iff.mp step
      exact .sendTo recorded client
    · cases step
  | finish =>
    simp only at step
    split at step
    · rename_i id price recorded
      cases step
      exact .finish recorded
    · cases step
  | deliver c i =>
    obtain ⟨k, client, rest⟩ := Option.bind_eq_some_iff.mp step
    obtain ⟨buffer, message, rest⟩ := Option.bind_eq_some_iff.mp rest
    split at rest
    · split at rest
      · rename_i read
        cases rest
        exact .deliver client message read
      · rename_i ms unread read
        cases rest
        have other : ∀ m, receivePrices [buffer] ≠ .ok [m] := by
          intro m whole
          exact unread m.1 m.2 (Except.ok.inj (read.symm.trans whole))
        exact .skip client message other k.running
      · rename_i threw
        cases rest
        exact .skip client message (fun m read => by cases threw.symm.trans read) false
    · cases rest
  | submit c id =>
    simp only at step
    split at step
    · rename_i range
      obtain ⟨k, client, rfl⟩ := Option.map_eq_some_iff.mp step
      exact .submit range client
    · cases step
  | receive c i now =>
    obtain ⟨k, client, rest⟩ := Option.bind_eq_some_iff.mp step
    obtain ⟨buffer, message, rest⟩ := Option.bind_eq_some_iff.mp rest
    split at rest
    · rename_i free _
      cases rest
      exact .receive client free
    · cases rest
  | enter c =>
    obtain ⟨k, client, rest⟩ := Option.bind_eq_some_iff.mp step
    obtain ⟨⟨id, now⟩, held, rest⟩ := Option.bind_eq_some_iff.mp rest
    cases rest
    exact .enter client held

structure Client.Carries (log : List (Entry Int Nat)) (k : Client) : Prop where
  prices : ∀ t ∈ k.prices, ∃ m, Sendable m ∧ t = priceMessage m ∧ Opened log m.1
  orders : ∀ t ∈ k.orders, ∃ id, InInt id ∧ t = orderMessage id

def Broadcaster.Announces (log : List (Entry Int Nat)) : Broadcaster → Prop
  | .idle => True
  | .taken id price => Sendable (id, price)
  | .recorded id price => Sendable (id, price) ∧ Opened log id

structure Sound (s : Server) : Prop where
  judged : Judged s.log
  stamped : ∀ id, (s.priceTimestamps id).isSome ↔ Opened s.log id
  hit : ∀ id, id ∈ s.priceAlreadyHit ↔ Won s.log id
  credited : s.hits.map (fun h => (h.client, h.priceId)) = winners s.log
  range : InInt s.priceId
  announced : s.broadcaster.Announces s.log
  carried : ∀ k ∈ s.clients, k.Carries s.log

theorem create_sound : Sound .create where
  judged := judged_nil
  stamped := by simp [Server.create, Opened]
  hit := by simp [Server.create, Won]
  credited := rfl
  range := by decide
  announced := trivial
  carried := by simp [Server.create]

section Logs
variable {log : List (Entry Int Nat)} {e : Entry Int Nat} {k : Client} {b : Broadcaster} {id : Int}

theorem Client.Carries.snoc (carried : k.Carries log) : k.Carries (log ++ [e]) := by
  refine ⟨?_, carried.orders⟩
  intro t member
  obtain ⟨m, sendable, text, opened⟩ := carried.prices t member
  exact ⟨m, sendable, text, opened.append⟩

theorem Client.Carries.order (carried : k.Carries log) (range : InInt id) :
    ∀ t ∈ k.orders ++ [orderMessage id], ∃ id, InInt id ∧ t = orderMessage id :=
  all_snoc carried.orders ⟨id, range, rfl⟩

theorem respond_carries (carried : k.Carries log) (range : InInt id) (price : Number) :
    (k.respond id price).Carries log := by
  refine ⟨carried.prices, ?_⟩
  simp only [Client.respond]
  split
  · exact carried.order range
  · exact carried.orders

theorem Broadcaster.Announces.snoc (announced : b.Announces log) : b.Announces (log ++ [e]) := by
  cases b with
  | idle => trivial
  | taken id price => exact announced
  | recorded id price => exact ⟨announced.1, announced.2.append⟩

end Logs

section Steps
variable {s t : Server} {c : Nat} {id : Int} {k : Client} {e : Entry Int Nat}

theorem client_carries (sound : Sound s) (client : s.clients[c]? = some k) : k.Carries s.log :=
  sound.carried k (List.mem_of_getElem? client)

theorem set_client_sound (sound : Sound s) (carried : k.Carries s.log) :
    Sound (s.setClient c k) := by
  refine { sound with carried := ?_ }
  intro other member
  rcases List.mem_or_eq_of_mem_set member with old | new
  · exact sound.carried other old
  · exact new ▸ carried

theorem log_sound (sound : Sound s) (allowed : Allowed s.log e) (opens : ∀ id, e ≠ .opened id)
    (wins : ∀ c id, e ≠ .claimed c id .won) : Sound { s with log := s.log ++ [e] } where
  judged := judged_snoc sound.judged allowed
  stamped := by
    intro id
    rw [opened_snoc_iff, or_iff_left (opens id)]
    exact sound.stamped id
  hit := by
    intro id
    rw [won_snoc_iff, or_iff_left fun won => won.elim fun c same => wins c id same]
    exact sound.hit id
  credited := by
    have nothing : winners [e] = [] := by
      cases e with
      | opened id => exact absurd rfl (opens id)
      | told c id => rfl
      | claimed c id v =>
        cases v with
        | won => exact absurd rfl (wins c id)
        | taken => rfl
        | unknown => rfl
    rw [winners_snoc, nothing, List.append_nil]
    exact sound.credited
  range := sound.range
  announced := sound.announced.snoc
  carried := fun k member => (sound.carried k member).snoc

theorem enter_sound (sound : Sound s) (now : Int) : Sound (s.enter c id now) := by
  by_cases taken : id ∈ s.priceAlreadyHit
  · have entered : s.enter c id now = { s with log := s.log ++ [.claimed c id .taken] } := by
      simp [Server.enter, Server.hit, Server.verdict, taken]
    rw [entered]
    exact log_sound sound ((sound.hit id).mp taken) (by simp) (by simp)
  · have not_won : ¬ Won s.log id := fun won => taken ((sound.hit id).mpr won)
    cases present : s.priceTimestamps id with
    | none =>
      have entered : s.enter c id now = { s with log := s.log ++ [.claimed c id .unknown] } := by
        simp [Server.enter, Server.hit, Server.verdict, taken, present]
      have closed : ¬ Opened s.log id := fun opened => by
        have stamped := (sound.stamped id).mpr opened
        rw [present] at stamped
        cases stamped
      rw [entered]
      exact log_sound sound ⟨closed, not_won⟩ (by simp) (by simp)
    | some stamp =>
      have entered : s.enter c id now = { s with
          priceAlreadyHit := insert id s.priceAlreadyHit
          hits := s.hits ++ [⟨c, id, milliseconds (now - stamp)⟩]
          log := s.log ++ [.claimed c id .won] } := by
        simp [Server.enter, Server.hit, Server.verdict, taken, present]
      have opened : Opened s.log id := (sound.stamped id).mp (by rw [present]; rfl)
      rw [entered]
      refine ⟨judged_snoc sound.judged ⟨opened, not_won⟩, ?_, ?_, ?_, sound.range,
        sound.announced.snoc, fun k member => (sound.carried k member).snoc⟩
      · intro other
        rw [opened_snoc_iff, or_iff_left (by simp)]
        exact sound.stamped other
      · intro other
        rw [won_snoc_iff, ← sound.hit other]
        simp [or_comm, eq_comm]
      · rw [winners_snoc, ← sound.credited]
        simp [winners]

theorem record_sound {price : Number} (sound : Sound s) (taken : s.broadcaster = .taken id price)
    (now : Int) : Sound { s with
      priceTimestamps := Function.update s.priceTimestamps id (some now)
      broadcaster := .recorded id price
      log := s.log ++ [.opened id] } where
  judged := judged_snoc sound.judged trivial
  stamped := by
    intro other
    rw [opened_snoc_iff, ← sound.stamped other]
    by_cases same : other = id
    · simp [same]
    · simp [same, Ne.symm same]
  hit := by
    intro other
    rw [won_snoc_iff, or_iff_left (by simp)]
    exact sound.hit other
  credited := by
    rw [winners_snoc, ← sound.credited]
    simp [winners]
  range := sound.range
  announced := by
    have drawn := sound.announced
    rw [taken] at drawn
    exact ⟨drawn, opened_snoc_iff.mpr (Or.inr rfl)⟩
  carried := fun k member => (sound.carried k member).snoc

theorem deliver_sound {i : Nat} {buffer : Text} (sound : Sound s) (client : s.clients[c]? = some k)
    (message : k.prices[i]? = some buffer) :
    ∃ id price, receivePrices [buffer] = .ok [(id, price)] ∧
      Sound { s.setClient c ({ k with prices := k.prices.eraseIdx i }.respond id price) with
        log := s.log ++ [.told c id] } := by
  have carried := client_carries sound client
  obtain ⟨m, sendable, text, opened⟩ := carried.prices buffer (List.mem_of_getElem? message)
  have single : ∀ n ∈ [m], Sendable n := by simpa using sendable
  have read := receive_whole single
  rw [List.map_singleton, ← text] at read
  refine ⟨m.1, m.2, read, ?_⟩
  have rest : ({ k with prices := k.prices.eraseIdx i } : Client).Carries s.log :=
    ⟨fun t member => carried.prices t (List.eraseIdx_subset member), carried.orders⟩
  have answered := respond_carries rest sendable.1 m.2
  exact log_sound (set_client_sound sound answered) opened (by simp) (by simp)

theorem send_sound {price : Number} (sound : Sound s)
    (recorded : s.broadcaster = .recorded id price) (client : s.clients[c]? = some k) :
    Sound (s.setClient c { k with prices := k.prices ++ [priceMessage (id, price)] }) := by
  have announced := sound.announced
  rw [recorded] at announced
  have carried := client_carries sound client
  apply set_client_sound sound
  exact ⟨all_snoc carried.prices ⟨(id, price), announced.1, rfl, announced.2⟩, carried.orders⟩

theorem step_sound {a : Action} (step : s.Step a t) (sound : Sound s) : Sound t := by
  cases step_acts step with
  | connect =>
    refine { sound with carried := all_snoc sound.carried ?_ }
    exact ⟨by simp [Client.create], by simp [Client.create]⟩
  | leave client =>
    have carried := client_carries sound client
    exact set_client_sound sound ⟨carried.prices, carried.orders⟩
  | takeId idle =>
    obtain ⟨low, high⟩ := wrapped_range (s.priceId + 1)
    refine { sound with range := ?_, announced := ⟨sound.range, _, rfl⟩ }
    exact ⟨low, Int.le_sub_one_of_lt high⟩
  | record taken => exact record_sound sound taken _
  | sendTo recorded client => exact send_sound sound recorded client
  | finish recorded => exact { sound with announced := trivial }
  | deliver client message read =>
    obtain ⟨id, price, whole, after⟩ := deliver_sound sound client message
    cases read.symm.trans whole
    exact after
  | skip client message other running =>
    obtain ⟨id, price, whole, _⟩ := deliver_sound sound client message
    exact absurd whole (other (id, price))
  | submit range client =>
    have carried := client_carries sound client
    exact set_client_sound sound ⟨carried.prices, carried.order range⟩
  | receive client free =>
    have carried := client_carries sound client
    apply set_client_sound sound
    exact ⟨carried.prices, fun t member => carried.orders t (List.eraseIdx_subset member)⟩
  | @enter c k id now client held =>
    have carried := client_carries sound client
    have freed : ({ k with handler := none } : Client).Carries s.log :=
      ⟨carried.prices, carried.orders⟩
    exact enter_sound (set_client_sound sound freed) now

end Steps

def Server.Open (s : Server) (id : Int) : Prop :=
  id ∉ s.priceAlreadyHit ∧ s.priceTimestamps id ≠ none

structure SameScore (s t : Server) : Prop where
  priceAlreadyHit : t.priceAlreadyHit = s.priceAlreadyHit
  hits : t.hits = s.hits

section Credits
variable {s : Server} {id stamp : Int}

theorem hit_stamps (c : Nat) (now : Int) :
    (s.hit c id now).priceTimestamps = s.priceTimestamps := by
  unfold Server.hit
  split
  · rfl
  · split <;> rfl

theorem hit_clients (c : Nat) (now : Int) : (s.hit c id now).clients = s.clients := by
  unfold Server.hit
  split
  · rfl
  · split <;> rfl

theorem hit_closed (closed : ¬ s.Open id) (c : Nat) (now : Int) :
    SameScore s (s.hit c id now) := by
  unfold Server.hit
  split
  · exact ⟨rfl, rfl⟩
  · rename_i fresh
    split
    · exact ⟨rfl, rfl⟩
    · rename_i stamp present
      have known : s.priceTimestamps id ≠ none := by simp [present]
      exact absurd ⟨fresh, known⟩ closed

theorem hit_open (fresh : id ∉ s.priceAlreadyHit) (present : s.priceTimestamps id = some stamp)
    (c : Nat) (now : Int) :
    (s.hit c id now).priceAlreadyHit = insert id s.priceAlreadyHit ∧
      (s.hit c id now).hits = s.hits ++ [⟨c, id, milliseconds (now - stamp)⟩] := by
  simp [Server.hit, fresh, present]

end Credits

theorem run_sound {actions : List Action} {s : Server} (run : Run Server.Step .create actions s) :
    Sound s :=
  run_invariant Sound (fun step held => step_sound step held) run create_sound

theorem messages_read {actions : List Action} {s : Server} {k : Client}
    (run : Run Server.Step .create actions s) (member : k ∈ s.clients) :
    (∀ t ∈ k.prices, ∃ m, receivePrices [t] = .ok [m]) ∧
      ∀ t ∈ k.orders, ∃ id, receiveOrders [t] = .ok [id] := by
  have carried := (run_sound run).carried k member
  constructor
  · intro t price
    obtain ⟨m, sendable, text, _⟩ := carried.prices t price
    have single : ∀ n ∈ [m], Sendable n := by simpa using sendable
    exact ⟨m, text ▸ receive_whole single⟩
  · intro t order
    obtain ⟨id, range, text⟩ := carried.orders t order
    have single : ∀ i ∈ [id], InInt i := by simpa using range
    exact ⟨id, text ▸ orders_whole single⟩

structure HitSafe (s : Server) : Prop where
  credited : s.hits.map (fun h => (h.client, h.priceId)) = winners s.log
  once : (s.hits.map Hit.priceId).Nodup
  first : ∀ before c id v after, s.log = before ++ .claimed c id v :: after →
    (v = .won ↔ Opened before id ∧ ¬ Valid before id)
  known : ∀ before c id v after, s.log = before ++ .claimed c id v :: after →
    .told c id ∈ before → v ≠ .unknown

/-- Every price is credited at most once, to the first order that enters after its time
    was recorded, and an order for a price that the client received is never unknown. -/
theorem hit_protocol_safe {actions : List Action} {s : Server}
    (run : Run Server.Step .create actions s) : HitSafe s := by
  have sound := run_sound run
  refine ⟨sound.credited, ?_, ?_, ?_⟩
  · have once := won_once sound.judged
    rw [← sound.credited, List.map_map] at once
    exact once
  · intro before c id v after split
    exact first_valid_wins (split ▸ sound.judged)
  · intro before c id v after split told
    exact told_known (split ▸ sound.judged) told

theorem hit_protocol_safe_race : ∃ s : Server,
    s.log = [.opened 0, .told 1 0, .claimed 1 0 .won, .claimed 0 0 .taken,
      .claimed 0 1 .unknown] ∧ HitSafe s := by
  have replayed : (replay Server.act .create [.connect, .connect, .takeId 500, .record 100,
      .sendTo 1, .deliver 1 0, .submit 0 0, .submit 0 1, .submit 1 0, .receive 0 0 7000100,
      .receive 1 0 9000100, .enter 1, .enter 0, .receive 0 0 9900100, .enter 0]).map Server.log =
      some [.opened 0, .told 1 0, .claimed 1 0 .won, .claimed 0 0 .taken,
        .claimed 0 1 .unknown] := by
    decide +kernel
  obtain ⟨s, done, log⟩ := Option.map_eq_some_iff.mp replayed
  exact ⟨s, log, hit_protocol_safe (run_of_replay id done)⟩

end Phase2.HitProtocol
