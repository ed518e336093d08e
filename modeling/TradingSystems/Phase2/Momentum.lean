import TradingSystems.Library.Newest
import TradingSystems.Phase2.HitProtocol

/- The loop of a client: three prices at most are remembered, and a price that continues a
   rise or a fall is answered. A message without a comma is skipped, and nothing catches
   what the conversions of any other message throw. -/
namespace Phase2.Momentum
open Decimal Extraction CString Binary32 Newest HitProtocol

structure Responder where
  priceHistory : List Number
  sent : List Text

def Responder.create (name : Text) : Responder := ⟨[], [name]⟩

def Responder.respond (s : Responder) (priceId : Int) (price : Number) : Responder where
  priceHistory := remember s.priceHistory price
  sent :=
    if momentum (remember s.priceHistory price) then s.sent ++ [orderMessage priceId] else s.sent

/-- One turn of the loop, with the bytes that recv put into the buffer. -/
def Responder.receive (s : Responder) (buffer : Text) : Except Thrown Responder :=
  let data := cString buffer
  match data.dropWhile (fun c => c ≠ ',') with
  | [] => .ok s
  | _ :: behind => do
    let priceId ← stoi (data.takeWhile fun c => c ≠ ',')
    let price ← stof behind
    return s.respond priceId price

def receiveAndRespond (name : Text) (buffers : List Text) : Except Thrown Responder :=
  buffers.foldlM Responder.receive (.create name)

structure Converts (buffer : Text) (m : Int × Number) : Prop where
  parts : ∃ front behind, cString buffer = front ++ ',' :: behind ∧ ',' ∉ front ∧
    stoi front = .ok m.1 ∧ stof behind = .ok m.2

structure WellFormed (buffer : Text) : Prop where
  parts : ∃ front behind, cString buffer = front ++ ',' :: behind ∧
    AllDigits (splitSign front).2 ∧ (∃ priceId, stoi front = .ok priceId) ∧
    WholeNumber behind ∧ ∃ price, stof behind = .ok price

/-- The messages of a stream that are read as prices; those without a comma are not. -/
inductive Stream : List Text → List (Int × Number) → Prop where
  | nil : Stream [] []
  | skip {buffer : Text} {buffers : List Text} {ms : List (Int × Number)}
      (no_comma : ',' ∉ cString buffer) (rest : Stream buffers ms) : Stream (buffer :: buffers) ms
  | price {buffer : Text} {buffers : List Text} {m : Int × Number} {ms : List (Int × Number)}
      (converts : Converts buffer m) (rest : Stream buffers ms) :
      Stream (buffer :: buffers) (m :: ms)

def signals : List (Int × Number) → List Int
  | a :: b :: c :: rest =>
    (if (a.2 < b.2 ∧ b.2 < c.2) ∨ (a.2 > b.2 ∧ b.2 > c.2) then [c.1] else []) ++
      signals (b :: c :: rest)
  | _ => []

section Windows
variable {history : List Number} {ms : List (Int × Number)} {m : Int × Number}

theorem remember_newest (prices : List Number) (price : Number) :
    remember (newest 3 prices) price = newest 3 (prices ++ [price]) := by
  unfold remember
  rw [newest_length]
  by_cases full : 3 ≤ prices.length
  · rw [if_pos (by omega), newest_sliding (by decide) full]
  · rw [if_neg (by omega), newest_filling (by omega)]

theorem signals_snoc (ms : List (Int × Number)) (m : Int × Number) :
    signals (ms ++ [m]) =
      signals ms ++ if momentum (newest 3 ((ms ++ [m]).map Prod.snd)) then [m.1] else [] := by
  induction ms with
  | nil => rfl
  | cons a ms ih =>
    match ms, ih with
    | [], _ => rfl
    | [b], _ =>
      simp [signals, newest, momentum]
    | b :: c :: rest, ih =>
      have window : newest 3 ((a :: b :: c :: rest ++ [m]).map Prod.snd) =
          newest 3 ((b :: c :: rest ++ [m]).map Prod.snd) := by
        refine newest_cons ?_ a.2
        simp
      rw [window, List.cons_append, List.cons_append, List.cons_append, signals]
      rw [List.cons_append, List.cons_append] at ih
      rw [ih, signals, List.append_assoc]

theorem momentum_constant {price : Number} (constant : ∀ q ∈ history, q = price) :
    momentum history = false := by
  match history with
  | [] => rfl
  | [_] => rfl
  | [_, _] => rfl
  | [a, b, c] =>
    have first := constant a (by simp)
    have second := constant b (by simp)
    simp [momentum, first, second, price.not_lt_self]
  | _ :: _ :: _ :: _ :: _ => rfl

end Windows

section Turns
variable {s : Responder} {buffer front behind : Text} {buffers : List Text} {m : Int × Number}
  {ms : List (Int × Number)}

theorem turn_no_comma (no_comma : ',' ∉ cString buffer) : s.receive buffer = .ok s := by
  simp only [Responder.receive, drop_no_comma no_comma]

theorem turn_at_comma (data : cString buffer = front ++ ',' :: behind) (first : ',' ∉ front) :
    s.receive buffer = (do
      let priceId ← stoi front
      let price ← stof behind
      return s.respond priceId price) := by
  obtain ⟨took, left⟩ := comma_parts first behind
  simp only [Responder.receive, data, took, left]

theorem turn_converts (converts : Converts buffer m) :
    s.receive buffer = .ok (s.respond m.1 m.2) := by
  obtain ⟨front, behind, data, first, read, value⟩ := converts.parts
  rw [turn_at_comma data first, read, value]
  rfl

theorem receive_stream (stream : Stream buffers ms) :
    buffers.foldlM Responder.receive s =
      .ok (ms.foldl (fun s m => s.respond m.1 m.2) s) := by
  induction stream generalizing s with
  | nil => rfl
  | skip no_comma rest ih =>
    rw [List.foldlM_cons, turn_no_comma no_comma]
    exact ih
  | price converts rest ih =>
    rw [List.foldlM_cons, turn_converts converts]
    exact ih

theorem responded (s : Responder) (start : s.priceHistory = []) (ms : List (Int × Number)) :
    ms.foldl (fun s m => s.respond m.1 m.2) s =
      ⟨newest 3 (ms.map Prod.snd), s.sent ++ (signals ms).map orderMessage⟩ := by
  obtain ⟨history, sent⟩ := s
  subst start
  induction ms using List.reverseRecOn with
  | nil => simp [signals, newest]
  | append_singleton ms m ih =>
    have slide := remember_newest (ms.map Prod.snd) m.2
    rw [List.foldl_append, ih, List.foldl_cons, List.foldl_nil, Responder.respond, signals_snoc,
      List.map_append, List.map_singleton]
    dsimp only
    rw [slide]
    congr 1
    split <;> simp

/-- The client sends its name and then exactly the signals of the stream, in order. -/
theorem momentum_orders (stream : Stream buffers ms) (name : Text) :
    ∃ s, receiveAndRespond name buffers = .ok s ∧
      s.sent = name :: (signals ms).map orderMessage := by
  refine ⟨_, receive_stream stream, ?_⟩
  rw [responded _ rfl]
  rfl

theorem momentum_orders_rise : ∃ s, receiveAndRespond "ann".toList
    ["1,100".toList, "2,101".toList, "hello".toList, "3,102".toList] = .ok s ∧
      s.sent = ["ann".toList, "3".toList] := by
  have price (front behind : Text) (n v : Nat) (first : ',' ∉ front)
      (data : cString (front ++ ',' :: behind) = front ++ ',' :: behind)
      (read : stoi front = .ok n) (some_digit : behind ≠ []) (all : behind.all Char.isDigit = true)
      (digits : value behind = v) (small : v < 2 ^ 24) :
      Converts (front ++ ',' :: behind) (n, (v : ℚ)) := by
    refine ⟨front, behind, data, first, read, ?_⟩
    rw [stof_digits some_digit (List.all_eq_true.mp all) (digits ▸ small), digits]
  have stream : Stream ["1,100".toList, "2,101".toList, "hello".toList, "3,102".toList]
      [(1, (100 : ℚ)), (2, (101 : ℚ)), (3, (102 : ℚ))] := by
    refine .price (price ['1'] ['1', '0', '0'] 1 100 ?_ ?_ ?_ ?_ ?_ ?_ ?_)
      (.price (price ['2'] ['1', '0', '1'] 2 101 ?_ ?_ ?_ ?_ ?_ ?_ ?_)
        (.skip ?_ (.price (price ['3'] ['1', '0', '2'] 3 102 ?_ ?_ ?_ ?_ ?_ ?_ ?_) .nil)))
    all_goals decide
  exact momentum_orders stream "ann".toList

/-- A message leaves the client as it is when it has no comma, or when it is read as the
    price that fills the whole history already. -/
theorem left_alone_iff (s : Responder) (buffer : Text) : s.receive buffer = .ok s ↔
    ',' ∉ cString buffer ∨ ∃ m, Converts buffer m ∧ 3 ≤ s.priceHistory.length ∧
      ∀ q ∈ s.priceHistory, q = m.2 := by
  constructor
  · intro same
    by_cases comma : ',' ∈ cString buffer
    · refine Or.inr ?_
      obtain ⟨front, behind, data, first⟩ := List.eq_append_cons_of_mem comma
      rw [turn_at_comma data first] at same
      cases read : stoi front with
      | error thrown =>
        rw [read] at same
        cases same
      | ok priceId =>
        cases value : stof behind with
        | error thrown =>
          rw [read, value] at same
          cases same
        | ok price =>
          rw [read, value] at same
          have kept := congrArg Responder.priceHistory (Except.ok.inj same)
          have full : 3 ≤ s.priceHistory.length := by
            by_contra short
            have longer := congrArg List.length kept
            simp only [Responder.respond, remember, if_neg short, List.length_append,
              List.length_singleton] at longer
            omega
          refine ⟨(priceId, price), ⟨front, behind, data, first, read, value⟩, full, ?_⟩
          have some_price : s.priceHistory ≠ [] := List.ne_nil_of_length_pos (by omega)
          simp only [Responder.respond, remember, if_pos full] at kept
          exact (slides_onto_itself some_price price).mp kept
    · exact Or.inl comma
  · rintro (no_comma | ⟨m, converts, full, constant⟩)
    · exact turn_no_comma no_comma
    · have some_price : s.priceHistory ≠ [] := List.ne_nil_of_length_pos (by omega)
      have kept : remember s.priceHistory m.2 = s.priceHistory := by
        rw [remember, if_pos full]
        exact (slides_onto_itself some_price m.2).mpr constant
      rw [turn_converts converts, Responder.respond, kept, momentum_constant constant]
      rfl

theorem sign_digits_no_comma (digits : AllDigits (splitSign front).2) : ',' ∉ front := by
  intro member
  unfold splitSign at digits
  split at digits
  · exact absurd (digits ',' (by simpa using member)) (by decide)
  · exact absurd (digits ',' (by simpa using member)) (by decide)
  · exact absurd (digits ',' member) (by decide)

theorem WellFormed.converts (formed : WellFormed buffer) : ∃ m, Converts buffer m := by
  obtain ⟨front, behind, data, digits, ⟨priceId, read⟩, _, price, value⟩ := formed.parts
  exact ⟨(priceId, price), front, behind, data, sign_digits_no_comma digits, read, value⟩

theorem thrown_malformed (thrown : Thrown) (threw : s.receive buffer = .error thrown) :
    ¬ WellFormed buffer ∧ s.receive buffer ≠ .ok s := by
  constructor
  · intro formed
    obtain ⟨m, converts⟩ := formed.converts
    rw [turn_converts converts] at threw
    cases threw
  · rw [threw]
    intro same
    cases same

theorem malformed_not_left_alone :
    (¬ WellFormed ",100".toList ∧ (Responder.create "ann".toList).receive ",100".toList ≠
      .ok (.create "ann".toList)) ∧
    (¬ WellFormed "7,".toList ∧ (Responder.create "ann".toList).receive "7,".toList ≠
      .ok (.create "ann".toList)) ∧
    (¬ WellFormed "4294967296,100".toList ∧
      (Responder.create "ann".toList).receive "4294967296,100".toList ≠
        .ok (.create "ann".toList)) := by
  refine ⟨?_, ?_, ?_⟩
  · exact thrown_malformed .invalidArgument rfl
  · exact thrown_malformed .invalidArgument rfl
  · exact thrown_malformed .outOfRange rfl

end Turns

theorem client_responds (k : Client) (priceId : Int) (price : Number) :
    (k.respond priceId price).priceHistory =
        (Responder.respond ⟨k.priceHistory, k.orders⟩ priceId price).priceHistory ∧
      (k.respond priceId price).orders =
        (Responder.respond ⟨k.priceHistory, k.orders⟩ priceId price).sent := ⟨rfl, rfl⟩

end Phase2.Momentum
