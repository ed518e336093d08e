import TradingSystems.Phase2.Messages

/- Which buffers are read as what was sent. Nothing marks the end of a message, so the
   order stream must be cut at every end, and the price stream so that each comma comes
   with its whole identifier and with enough of its price. -/
namespace Phase2
open Decimal Formats CString Binary32

section Pieces

theorem flatten_length_le {cs ss : List Text}
    (longer : List.Forall₂ (fun c s => s.length ≤ c.length) cs ss) :
    ss.flatten.length ≤ cs.flatten.length := by
  induction longer with
  | nil => simp
  | cons head _ ih =>
    simp only [List.flatten_cons, List.length_append]
    omega

/-- Two cuts of one text, one of them with pieces that are never shorter, are the same. -/
theorem pieces_eq {cs ss : List Text}
    (longer : List.Forall₂ (fun c s => s.length ≤ c.length) cs ss)
    (joined : cs.flatten = ss.flatten) : cs = ss := by
  induction longer with
  | nil => rfl
  | @cons c s cs ss head tail ih =>
    have rest := flatten_length_le tail
    have total := congrArg List.length joined
    simp only [List.flatten_cons, List.length_append] at total
    obtain ⟨first, others⟩ := List.append_inj joined (by omega)
    rw [first, ih others]

theorem first_mark {buffers : List Text} {front rest : Text} {mark : Char}
    (joined : buffers.flatten = front ++ mark :: rest) (absent : mark ∉ front) :
    ∃ skipped before behind more, buffers = skipped ++ (before ++ mark :: behind) :: more ∧
      skipped.flatten ++ before = front ∧ behind ++ more.flatten = rest := by
  induction buffers generalizing front with
  | nil => simp at joined
  | cons b bs ih =>
    rw [List.flatten_cons] at joined
    rcases List.append_eq_append_iff.mp joined with ⟨a, longer, others⟩ | ⟨c, longer, others⟩
    · subst longer
      obtain ⟨skipped, before, behind, more, split, inside, after⟩ :=
        ih others fun member => absent (List.mem_append_right b member)
      refine ⟨b :: skipped, before, behind, more, by rw [split]; rfl, ?_, after⟩
      rw [List.flatten_cons, List.append_assoc, inside]
    · cases c with
      | nil =>
        rw [List.append_nil] at longer
        have starts : bs.flatten = [] ++ mark :: rest := others.symm
        obtain ⟨skipped, before, behind, more, split, inside, after⟩ := ih starts (by simp)
        refine ⟨b :: skipped, before, behind, more, by rw [split]; rfl, ?_, after⟩
        rw [List.flatten_cons, List.append_assoc, inside, List.append_nil, longer]
      | cons d ds =>
        obtain ⟨same, after⟩ := List.cons.inj others
        subst same
        exact ⟨[], front, ds, bs, by rw [longer]; rfl, rfl, after.symm⟩

end Pieces

section Orders
variable {buffers : List Text} {name : Text} {ids : List Int}

theorem show_int_no_nul (n : Int) : nul ∉ showInt n := by
  intro member
  rcases show_int_chars nul member with same | digit
  · exact absurd same (by decide)
  · exact absurd digit (by decide)

theorem orders_longer (nonempty : ∀ b ∈ buffers, b ≠ [])
    (handled : receiveOrders buffers = .ok ids) :
    List.Forall₂ (fun c s => s.length ≤ c.length) buffers (ids.map orderMessage) := by
  induction buffers generalizing ids with
  | nil =>
    cases handled
    exact List.Forall₂.nil
  | cons b bs ih =>
    unfold receiveOrders at handled
    split at handled
    · cases handled
    · rename_i id read
      cases later : receiveOrders bs with
      | error fault =>
        rw [later] at handled
        cases handled
      | ok rest =>
        rw [later] at handled
        cases handled
        refine List.Forall₂.cons ?_ (ih (fun c member => nonempty c (by simp [member])) later)
        by_cases some_char : cString b = []
        · rw [some_char] at read
          cases read
          exact List.length_pos_of_ne_nil (nonempty b (by simp))
        · exact (atoi_length some_char read).trans (cString_length_le b)

theorem orders_whole (range : ∀ id ∈ ids, InInt id) :
    receiveOrders (ids.map orderMessage) = .ok ids := by
  induction ids with
  | nil => rfl
  | cons id ids ih =>
    have text : cString (orderMessage id) = showInt id := cString_whole.mpr (show_int_no_nul id)
    rw [List.map_cons, receiveOrders, text, atoi_show (range id (by simp)),
      ih fun other member => range other (by simp [member])]
    rfl

/-- A connection is read as sent when the name holds no terminator and every message has
    a buffer of its own. -/
theorem handle_client_iff (range : ∀ id ∈ ids, InInt id)
    (cut : Segmented (name ++ ids.flatMap orderMessage) buffers) :
    handleClient buffers = .ok (name, ids) ↔
      nul ∉ name ∧ buffers = name :: ids.map orderMessage := by
  constructor
  · intro handled
    cases buffers with
    | nil => cases handled
    | cons first orders =>
      cases later : receiveOrders orders with
      | error fault =>
        rw [handleClient, later] at handled
        cases handled
      | ok rest =>
        rw [handleClient, later] at handled
        cases handled
        have longer := orders_longer (fun b member => cut.nonempty b (by simp [member])) later
        have joined := cut.joined
        rw [List.flatMap_def, ← List.flatten_cons] at joined
        have same := pieces_eq (List.Forall₂.cons (cString_length_le first) longer) joined
        obtain ⟨whole, others⟩ := List.cons.inj same
        have no_end := cString_whole.mp whole.symm
        exact ⟨whole ▸ no_end, by rw [← whole, others]⟩
  · rintro ⟨no_end, whole⟩
    rw [whole, handleClient, orders_whole range, cString_whole.mpr no_end]
    rfl

end Orders

def Sendable (m : Int × Number) : Prop := InInt m.1 ∧ ∃ random, m.2 = broadcastPrice random

/-- The buffers that are read as the messages when `left` of the price before them is
    still to come. Each comma has its whole identifier in front of it, with nothing
    before that but zeros of the price before, and these only without a sign; behind the
    comma comes as much of the price as reads the same. What comes without a comma is
    the rest of a price. -/
inductive Framed : Text → List (Int × Number) → List Text → Prop where
  | nil (buffers : List Text) : Framed buffers.flatten [] buffers
  | cons {skipped more : List Text} {zeros behind left : Text} {id : Int} {price : Number}
      {ms : List (Int × Number)} (onlyZeros : ∀ c ∈ zeros, c = '0') (unsigned : zeros = [] ∨ 0 ≤ id)
      (text : priceText price = behind ++ left) (enough : stof behind = .ok price)
      (rest : Framed left ms more) :
      Framed (skipped.flatten ++ zeros) ((id, price) :: ms)
        (skipped ++ (zeros ++ showInt id ++ ',' :: behind) :: more)

section Prices
variable {m : Int × Number} {ms : List (Int × Number)} {buffers : List Text} {left : Text}

def PriceChar (c : Char) : Prop := c = '.' ∨ c.isDigit = true

theorem price_chars {p : ℚ} {whole frac : Text} (parts : PriceDigits p whole frac) :
    ∀ c ∈ priceText p, PriceChar c := by
  intro c member
  rw [parts.text] at member
  rcases List.mem_append.mp member with inside | behind
  · exact Or.inr (parts.wholeDigits c inside)
  · rcases List.mem_cons.mp behind with point | digit
    · exact Or.inl point
    · exact Or.inr (parts.fracDigits c digit)

theorem Sendable.chars (sendable : Sendable m) : ∀ c ∈ priceText m.2, PriceChar c := by
  obtain ⟨_, random, same⟩ := sendable
  obtain ⟨whole, frac, parts⟩ := price_digits random
  rw [same]
  exact price_chars parts

def Plain (t : Text) : Prop := ',' ∉ t ∧ nul ∉ t

theorem price_chars_plain {t : Text} (chars : ∀ c ∈ t, PriceChar c) : Plain t := by
  constructor <;> intro member
  · exact absurd (chars _ member) (by unfold PriceChar; decide)
  · exact absurd (chars _ member) (by unfold PriceChar; decide)

theorem show_int_plain (n : Int) : Plain (showInt n) := by
  refine ⟨?_, show_int_no_nul n⟩
  intro member
  rcases show_int_chars ',' member with same | digit
  · exact absurd same (by decide)
  · exact absurd digit (by decide)

theorem plain_append {t u : Text} : Plain (t ++ u) ↔ Plain t ∧ Plain u := by
  simp only [Plain, List.mem_append, not_or]
  exact and_and_and_comm

theorem stream_no_nul (sendable : ∀ m ∈ ms, Sendable m) : nul ∉ ms.flatMap priceMessage := by
  intro member
  obtain ⟨m, inside, char⟩ := List.mem_flatMap.mp member
  rcases List.mem_append.mp char with id | price
  · exact (show_int_plain m.1).2 id
  · rcases List.mem_cons.mp price with comma | digit
    · exact absurd comma (by decide)
    · exact (price_chars_plain (sendable m inside).chars).2 digit

theorem stream_commas (sendable : ∀ m ∈ ms, Sendable m) :
    (ms.flatMap priceMessage).count ',' = ms.length := by
  induction ms with
  | nil => rfl
  | cons m ms ih =>
    have id := List.count_eq_zero.mpr (show_int_plain m.1).1
    have price := List.count_eq_zero.mpr (price_chars_plain (sendable m (by simp)).chars).1
    rw [List.flatMap_cons, priceMessage, List.count_append, List.count_append,
      List.count_cons_self, id, price, ih fun other member => sendable other (by simp [member]),
      List.length_cons]
    omega

theorem drop_no_comma {t : Text} (no_comma : ',' ∉ t) : t.dropWhile (fun c => c ≠ ',') = [] :=
  List.dropWhile_eq_nil_iff.mpr fun _ member =>
    decide_eq_true fun same => no_comma (same ▸ member)

theorem receive_no_comma {b : Text} (no_comma : ',' ∉ cString b) :
    receivePrices (b :: buffers) = receivePrices buffers := by
  simp only [receivePrices, drop_no_comma no_comma]

theorem receive_plain {b : Text} (plain : Plain b) :
    receivePrices (b :: buffers) = receivePrices buffers :=
  receive_no_comma fun member => plain.1 ((List.takeWhile_prefix _).subset member)

theorem comma_parts {before : Text} (first : ',' ∉ before) (behind : Text) :
    (before ++ ',' :: behind).takeWhile (fun c => c ≠ ',') = before ∧
      (before ++ ',' :: behind).dropWhile (fun c => c ≠ ',') = ',' :: behind := by
  have all : ∀ c ∈ before, decide (c ≠ ',') = true := fun _ member =>
    decide_eq_true fun same => first (same ▸ member)
  have stop : ∀ c ∈ (',' :: behind).head?, decide (c ≠ ',') = false := by simp
  exact ⟨Extraction.take_run all stop, Extraction.drop_run all stop⟩

theorem receive_comma {b before behind : Text} (data : cString b = before ++ ',' :: behind)
    (first : ',' ∉ before) : receivePrices (b :: buffers) = .ok ms ↔
      ∃ id price later, stoi before = .ok id ∧ stof behind = .ok price ∧
        receivePrices buffers = .ok later ∧ ms = (id, price) :: later := by
  obtain ⟨took, left⟩ := comma_parts first behind
  rw [← data] at took left
  simp only [receivePrices, took, left]
  cases stoi before with
  | error thrown => simp [bind, Except.bind]
  | ok id =>
    cases stof behind with
    | error thrown => simp [bind, Except.bind]
    | ok price =>
      cases receivePrices buffers with
      | error thrown => simp [bind, Except.bind]
      | ok later => simp [bind, Except.bind, pure, Except.pure, eq_comm]

theorem receive_length (handled : receivePrices buffers = .ok ms) :
    ms.length ≤ buffers.flatten.count ',' := by
  induction buffers generalizing ms with
  | nil =>
    cases handled
    simp
  | cons b bs ih =>
    rw [List.flatten_cons, List.count_append]
    by_cases comma : ',' ∈ cString b
    · obtain ⟨before, behind, data, first⟩ := List.eq_append_cons_of_mem comma
      obtain ⟨id, price, later, _, _, rest, same⟩ := (receive_comma data first).mp handled
      have counted := List.count_pos_iff.mpr ((List.takeWhile_prefix _).subset comma)
      have fewer := ih rest
      rw [same, List.length_cons]
      omega
    · rw [receive_no_comma comma] at handled
      have fewer := ih handled
      omega

theorem receive_first {skipped more : List Text} {before behind : Text}
    (plain : Plain (skipped.flatten ++ before)) (no_end : nul ∉ behind) :
    receivePrices (skipped ++ (before ++ ',' :: behind) :: more) = .ok ms ↔
      ∃ id price later, stoi before = .ok id ∧ stof behind = .ok price ∧
        receivePrices more = .ok later ∧ ms = (id, price) :: later := by
  induction skipped with
  | nil =>
    have data : cString (before ++ ',' :: behind) = before ++ ',' :: behind := by
      apply cString_whole.mpr
      intro member
      rcases List.mem_append.mp member with front | rest
      · exact plain.2 front
      · rcases List.mem_cons.mp rest with comma | back
        · exact absurd comma (by decide)
        · exact no_end back
    exact receive_comma data plain.1
  | cons b bs ih =>
    rw [List.flatten_cons, List.append_assoc, plain_append] at plain
    rw [List.cons_append, receive_plain plain.1]
    exact ih plain.2

/-- What may be left of a price whose front was read as the whole. -/
def PriceTail (left : Text) : Prop := AllDigits left ∨ ∃ ds, left = '.' :: ds ∧ AllDigits ds

theorem tail_chars (tail : PriceTail left) : ∀ c ∈ left, PriceChar c := by
  intro c member
  rcases tail with digits | ⟨ds, same, digits⟩
  · exact Or.inr (digits c member)
  · rw [same] at member
    rcases List.mem_cons.mp member with point | digit
    · exact Or.inl point
    · exact Or.inr (digits c digit)

theorem price_tail {behind : Text} {price : ℚ} {whole frac : Text}
    (parts : PriceDigits price whole frac) (text : priceText price = behind ++ left)
    (enough : stof behind = .ok price) (hundred : 100 ≤ price) : PriceTail left := by
  rw [parts.text] at text
  rcases List.append_eq_append_iff.mp text with ⟨a, _, point⟩ | ⟨a, front, point⟩
  · cases a with
    | nil => exact Or.inr ⟨frac, point.symm, parts.fracDigits⟩
    | cons c cs =>
      obtain ⟨_, digits⟩ := List.cons.inj point
      exact Or.inl fun c member => parts.fracDigits c (digits ▸ List.mem_append_right cs member)
  · cases a with
    | nil => exact Or.inr ⟨frac, by simpa using point, parts.fracDigits⟩
    | cons c cs =>
      have digits : AllDigits behind := fun d member =>
        parts.wholeDigits d (front ▸ List.mem_append_left _ member)
      have two : behind.length ≤ 2 := by
        have three := parts.three
        rw [front, List.length_append, List.length_cons] at three
        omega
      by_cases nothing : behind = []
      · rw [nothing] at enough
        cases enough
      · have small : value behind < 10 ^ 2 :=
          (value_lt behind digits).trans_le (Nat.pow_le_pow_right (by decide) two)
        rw [stof_digits nothing digits (by omega)] at enough
        injection enough with same
        injection same with same
        have small : (value behind : ℚ) < 10 ^ 2 := by exact_mod_cast small
        linarith

theorem swallowed_identifier {front rest : Text} (no_comma : ',' ∉ front)
    (joined : priceMessage m ++ rest = front ++ buffers.flatten) :
    ∃ v, showInt m.1 = front ++ v ∧ buffers.flatten = v ++ ',' :: (priceText m.2 ++ rest) := by
  simp only [priceMessage, List.append_assoc, List.cons_append] at joined
  rcases List.append_eq_append_iff.mp joined with ⟨a, longer, behind⟩ | ⟨a, longer, behind⟩
  · cases a with
    | nil => exact ⟨[], by simpa using longer.symm, behind.symm⟩
    | cons c cs =>
      obtain ⟨same, _⟩ := List.cons.inj behind
      exact absurd (by rw [longer, ← same]; simp) no_comma
  · exact ⟨a, longer, behind⟩

theorem swallowed_unhandled {front : Text} (sendable : ∀ m ∈ ms, Sendable m)
    (joined : ms.flatMap priceMessage = front ++ buffers.flatten) (some_char : front ≠ []) :
    receivePrices buffers ≠ .ok ms := by
  intro handled
  have no_end := stream_no_nul sendable
  have counted := stream_commas sendable
  rw [joined, List.count_append] at counted
  have enough := receive_length handled
  have no_comma : ',' ∉ front := fun member => by
    have one := List.count_pos_iff.mpr member
    omega
  cases ms with
  | nil => exact some_char (List.append_eq_nil_iff.mp joined.symm).1
  | cons m ms =>
    rw [joined] at no_end
    rw [List.flatMap_cons] at joined
    obtain ⟨v, text, rest⟩ := swallowed_identifier no_comma joined
    have plain := show_int_plain m.1
    rw [text, plain_append] at plain
    obtain ⟨skipped, before, behind, more, same, inside, after⟩ := first_mark rest plain.2.1
    have pieces : Plain (skipped.flatten ++ before) := inside ▸ plain.2
    have no_nul : nul ∉ behind := fun member => no_end (by simp [same, member])
    rw [same] at handled
    obtain ⟨id', _, _, read, _, _, first⟩ := (receive_first pieces no_nul).mp handled
    cases first
    have long := read_int_length (stoi_ok.mp read).1
    have total := congrArg List.length inside
    rw [text] at long
    have positive := List.length_pos_of_ne_nil some_char
    simp only [List.length_append] at long total
    omega

theorem read_front {skipped before : Text} {id : Int} (tail : PriceTail left)
    (inside : skipped ++ before = left ++ showInt id) (read : readInt before = some id) :
    ∃ zeros, left = skipped ++ zeros ∧ before = zeros ++ showInt id ∧
      (∀ c ∈ zeros, c = '0') ∧ (zeros = [] ∨ 0 ≤ id) := by
  have long := read_int_length read
  have split : ∃ zeros, left = skipped ++ zeros ∧ before = zeros ++ showInt id := by
    rcases List.append_eq_append_iff.mp inside with ⟨a, whole, rest⟩ | ⟨a, longer, rest⟩
    · exact ⟨a, whole, rest⟩
    · have nothing : a = [] := by
        rw [rest, List.length_append] at long
        exact List.length_eq_zero_iff.mp (by omega)
      subst nothing
      exact ⟨[], by simpa using longer.symm, by simpa using rest.symm⟩
  obtain ⟨zeros, whole, front⟩ := split
  refine ⟨zeros, whole, front, ?_⟩
  by_cases nothing : zeros = []
  · subst nothing
    exact ⟨by simp, Or.inl rfl⟩
  · rw [front] at read
    have behind_point : AllDigits zeros → (∀ c ∈ zeros, c = '0') ∧ (zeros = [] ∨ 0 ≤ id) := by
      intro digits
      obtain ⟨only, nonneg⟩ := (read_behind_digits nothing digits).mp read
      exact ⟨only, Or.inr nonneg⟩
    rcases tail with digits | ⟨ds, point, digits⟩
    · exact behind_point fun c member => digits c (whole ▸ List.mem_append_right _ member)
    · cases skipped with
      | nil =>
        rw [List.nil_append] at whole
        rw [← whole, point, List.cons_append, read_int_point] at read
        cases read
      | cons c cs =>
        rw [point, List.cons_append] at whole
        obtain ⟨_, rest⟩ := List.cons.inj whole
        exact behind_point fun c member => digits c (rest ▸ List.mem_append_right _ member)

/-- What is left of a price when the messages behind it are handled. -/
theorem price_cut {price : Number} {behind : Text} {more : List Text}
    (sendable : ∀ m ∈ ms, Sendable m)
    (joined : behind ++ more.flatten = priceText price ++ ms.flatMap priceMessage)
    (handled : receivePrices more = .ok ms) : ∃ left, priceText price = behind ++ left ∧
      more.flatten = left ++ ms.flatMap priceMessage := by
  rcases List.append_eq_append_iff.mp joined with ⟨a, text, follows⟩ | ⟨a, longer, follows⟩
  · exact ⟨a, text, follows⟩
  · cases a with
    | nil => exact ⟨[], by simpa using longer.symm, by simpa using follows.symm⟩
    | cons c cs => exact absurd handled (swallowed_unhandled sendable follows (by simp))

theorem handled_framed (sendable : ∀ m ∈ ms, Sendable m) (tail : PriceTail left)
    (joined : buffers.flatten = left ++ ms.flatMap priceMessage)
    (handled : receivePrices buffers = .ok ms) : Framed left ms buffers := by
  induction ms generalizing left buffers with
  | nil =>
    have same : buffers.flatten = left := by simpa using joined
    rw [← same]
    exact Framed.nil buffers
  | cons m ms ih =>
    obtain ⟨id, price⟩ := m
    have first := sendable (id, price) (by simp)
    have others : ∀ m ∈ ms, Sendable m := fun m member => sendable m (by simp [member])
    have stream : buffers.flatten =
        (left ++ showInt id) ++ ',' :: (priceText price ++ ms.flatMap priceMessage) := by
      simp [joined, priceMessage]
    have front_plain := plain_append.mpr ⟨price_chars_plain (tail_chars tail), show_int_plain id⟩
    obtain ⟨skipped, before, behind, more, same, inside, after⟩ :=
      first_mark stream front_plain.1
    have no_nul : nul ∉ behind := by
      intro member
      have later : nul ∈ priceText price ++ ms.flatMap priceMessage :=
        after ▸ List.mem_append_left _ member
      rcases List.mem_append.mp later with inside | rest
      · exact (price_chars_plain first.chars).2 inside
      · exact stream_no_nul others rest
    rw [same] at handled
    obtain ⟨id', price', ms', read, enough, rest, equal⟩ :=
      (receive_first (by rw [inside]; exact front_plain) no_nul).mp handled
    cases equal
    obtain ⟨zeros, whole_left, front, only, unsigned⟩ :=
      read_front tail inside (stoi_ok.mp read).1
    obtain ⟨left', text, follows⟩ := price_cut others after rest
    obtain ⟨random, drawn⟩ := first.2
    obtain ⟨whole, frac, parts⟩ := price_digits random
    dsimp only at drawn
    subst drawn
    have hundred := (broadcast_price_range random).1
    rw [same, whole_left, front]
    exact Framed.cons only unsigned text enough
      (ih others (price_tail parts text enough hundred) follows rest)

theorem framed_handled (framed : Framed left ms buffers) (sendable : ∀ m ∈ ms, Sendable m)
    (plain : Plain left) : receivePrices buffers = .ok ms := by
  induction framed with
  | nil buffers =>
    induction buffers with
    | nil => rfl
    | cons b bs ih =>
      rw [List.flatten_cons, plain_append] at plain
      rw [receive_plain plain.1]
      exact ih plain.2
  | @cons skipped more zeros behind left id price ms only unsigned text enough _ ih =>
    have first := sendable (id, price) (by simp)
    have chars := price_chars_plain first.chars
    rw [text, plain_append] at chars
    have rest := ih (fun m member => sendable m (by simp [member])) chars.2
    have read : readInt (zeros ++ showInt id) = some id := by
      by_cases nothing : zeros = []
      · rw [nothing]
        exact read_show_int id
      · have digits : AllDigits zeros := fun c member => by
          rw [only c member]
          rfl
        exact (read_behind_digits nothing digits).mpr ⟨only, unsigned.resolve_left nothing⟩
    have front : Plain (skipped.flatten ++ (zeros ++ showInt id)) := by
      rw [← List.append_assoc]
      exact plain_append.mpr ⟨plain, show_int_plain id⟩
    exact (receive_first front chars.1.2).mpr
      ⟨id, price, ms, stoi_ok.mpr ⟨read, first.1⟩, enough, rest, rfl⟩

theorem receive_prices_iff (sendable : ∀ m ∈ ms, Sendable m)
    (cut : Segmented (ms.flatMap priceMessage) buffers) :
    receivePrices buffers = .ok ms ↔ Framed [] ms buffers := by
  constructor
  · intro handled
    exact handled_framed sendable (Or.inl fun _ member => absurd member (List.not_mem_nil))
      (by simpa using cut.joined) handled
  · intro framed
    exact framed_handled framed sendable ⟨List.not_mem_nil, List.not_mem_nil⟩

theorem whole_messages_framed (sendable : ∀ m ∈ ms, Sendable m) :
    Framed [] ms (ms.map priceMessage) := by
  induction ms with
  | nil => exact Framed.nil []
  | cons m ms ih =>
    obtain ⟨id, price⟩ := m
    obtain ⟨_, random, drawn⟩ := sendable (id, price) (by simp)
    have enough : stof (priceText price) = .ok price := by
      rw [show price = broadcastPrice random from drawn]
      exact price_read_back random
    have rest := ih fun m member => sendable m (by simp [member])
    exact @Framed.cons [] _ [] _ _ id price ms (by simp) (Or.inl rfl) (List.append_nil _).symm
      enough rest

theorem receive_whole (sendable : ∀ m ∈ ms, Sendable m) :
    receivePrices (ms.map priceMessage) = .ok ms :=
  framed_handled (whole_messages_framed sendable) sendable ⟨List.not_mem_nil, List.not_mem_nil⟩

end Prices

/-- Both streams: what the server handles is the name and the orders that were sent, and
    what a client handles is the prices that were broadcast, in just these cases. -/
theorem streams_handled_iff {name : Text} {ids : List Int} {ms : List (Int × Number)}
    {orders prices : List Text} (range : ∀ id ∈ ids, InInt id) (sendable : ∀ m ∈ ms, Sendable m)
    (ordersCut : Segmented (name ++ ids.flatMap orderMessage) orders)
    (pricesCut : Segmented (ms.flatMap priceMessage) prices) :
    (handleClient orders = .ok (name, ids) ↔
      nul ∉ name ∧ orders = name :: ids.map orderMessage) ∧
    (receivePrices prices = .ok ms ↔ Framed [] ms prices) :=
  ⟨handle_client_iff range ordersCut, receive_prices_iff sendable pricesCut⟩

theorem streams_handled_alone :
    handleClient ["bob".toList, ['7']] = .ok ("bob".toList, [7]) ∧
      receivePrices [priceMessage (7, broadcastPrice 123), priceMessage (8, broadcastPrice 999)] =
        .ok [(7, broadcastPrice 123), (8, broadcastPrice 999)] := by
  have sendable : ∀ m ∈ ([(7, broadcastPrice 123), (8, broadcastPrice 999)] :
      List (Int × Number)), Sendable m := by
    intro m member
    rcases List.mem_pair.mp member with first | second
    · exact first ▸ ⟨by decide, 123, rfl⟩
    · exact second ▸ ⟨by decide, 999, rfl⟩
  have ordersCut : Segmented ("bob".toList ++ [(7 : Int)].flatMap orderMessage)
      ["bob".toList, ['7']] := ⟨by decide, by decide, by decide⟩
  have both := streams_handled_iff (by decide) sendable ordersCut
    ⟨rfl, by decide +kernel, by decide +kernel⟩
  exact ⟨both.1.mpr ⟨by decide, by decide⟩, both.2.mpr (whole_messages_framed sendable)⟩

/-- A name and an order in one buffer, and two prices in one buffer. -/
theorem merged_messages_lost :
    Segmented ("bob".toList ++ [(1 : Int)].flatMap orderMessage) ["bob1".toList] ∧
      handleClient ["bob1".toList] = .ok ("bob1".toList, []) ∧
      Segmented (([(0, broadcastPrice 0), (1, broadcastPrice 0)] :
        List (Int × Number)).flatMap priceMessage) ["0,100.0000001,100.000000".toList] ∧
      receivePrices ["0,100.0000001,100.000000".toList] = .ok [(0, broadcastPrice 0)] :=
  ⟨⟨by decide, by decide, by decide⟩, by decide,
    ⟨by decide +kernel, by decide, by decide⟩, by decide +kernel⟩

end Phase2
