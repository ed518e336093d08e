import TradingSystems.Library.CString

/- What the server and its clients write to each other and what they make of a stream.
   Each recv gives some bytes of it in a buffer of zeros, so the buffer holds a C string;
   characters stand for bytes. -/
namespace Phase2
open Decimal Formats CString Binary32

def bufferSize : Nat := 1024

def broadcastPrice (random : Nat) : ℚ := binary32 (100 + binary32 ((random % 1000 : Nat) / 10))

def priceText : Number → Text
  | .finite price => showFixed 6 price
  | .negativeZero => '-' :: showFixed 6 0
  | .infinity negative => if negative then "-inf".toList else "inf".toList
  | .nan => "nan".toList

def priceMessage (m : Int × Number) : Text := showInt m.1 ++ ',' :: priceText m.2

def orderMessage (priceId : Int) : Text := showInt priceId

inductive Fault where
  | noName
  | undefinedNumber
  deriving DecidableEq, Repr

def receiveOrders : List Text → Except Fault (List Int)
  | [] => .ok []
  | buffer :: rest =>
    match atoi (cString buffer) with
    | none => .error .undefinedNumber
    | some receivedPriceId => (receiveOrders rest).map (receivedPriceId :: ·)

/-- The name that is registered and the identifiers that are handled, until recv fails. -/
def handleClient : List Text → Except Fault (Text × List Int)
  | [] => .error .noName
  | buffer :: rest => (receiveOrders rest).map (cString buffer, ·)

/-- The loop of receiveAndRespond: the prices it goes on with, until recv fails. A buffer
    without a comma is skipped, and nothing catches what a conversion throws. -/
def receivePrices : List Text → Except Thrown (List (Int × Number))
  | [] => .ok []
  | buffer :: rest =>
    let data := cString buffer
    match data.dropWhile (fun c => c ≠ ',') with
    | [] => receivePrices rest
    | _ :: behind => do
      let priceId ← stoi (data.takeWhile fun c => c ≠ ',')
      let price ← stof behind
      return (priceId, price) :: (← receivePrices rest)

/-- What the calls of recv may make of a stream. -/
structure Segmented (stream : Text) (buffers : List Text) : Prop where
  joined : buffers.flatten = stream
  nonempty : ∀ b ∈ buffers, b ≠ []
  bounded : ∀ b ∈ buffers, b.length ≤ bufferSize - 1

section Prices

theorem tenths_range (random : Nat) :
    (0 : ℚ) ≤ (random % 1000 : Nat) / 10 ∧ ((random % 1000 : Nat) / 10 : ℚ) ≤ 100 := by
  have small : random % 1000 ≤ 1000 := (Nat.mod_lt random (by decide)).le
  have small : ((random % 1000 : Nat) : ℚ) ≤ 1000 := by exact_mod_cast small
  constructor
  · positivity
  · linarith

theorem rounded_tenths_range (random : Nat) :
    0 ≤ binary32 ((random % 1000 : Nat) / 10) ∧ binary32 ((random % 1000 : Nat) / 10) ≤ 100 := by
  obtain ⟨low, high⟩ := tenths_range random
  rcases low.eq_or_lt with zero | positive
  · rw [← zero]
    have exact_zero := binary32_int (n := 0) (by decide)
    push_cast at exact_zero
    rw [exact_zero]
    norm_num
  · exact_mod_cast binary32_between positive (by linarith) (by exact_mod_cast low)
      (by exact_mod_cast high)

theorem broadcast_price_range (random : Nat) :
    100 ≤ broadcastPrice random ∧ broadcastPrice random ≤ 200 := by
  obtain ⟨low, high⟩ := rounded_tenths_range random
  have positive : (0 : ℚ) < 100 + binary32 ((random % 1000 : Nat) / 10) := by linarith
  have above : ((100 : Int) : ℚ) ≤ 100 + binary32 ((random % 1000 : Nat) / 10) := by
    push_cast
    linarith
  have below : 100 + binary32 ((random % 1000 : Nat) / 10) ≤ ((200 : Int) : ℚ) := by
    push_cast
    linarith
  exact_mod_cast binary32_between positive (by linarith) above below

theorem broadcast_price_single (random : Nat) : Single (broadcastPrice random) := by
  have low := (rounded_tenths_range random).1
  exact binary32_single (by linarith)

end Prices

structure PriceDigits (p : ℚ) (whole frac : Text) : Prop where
  text : priceText p = whole ++ '.' :: frac
  someWhole : whole ≠ []
  wholeDigits : AllDigits whole
  fracDigits : AllDigits frac
  three : whole.length ≤ 3
  near : |value whole + fraction frac - p| ≤ 1 / 2 / 10 ^ 6
  low : (100 : ℚ) ≤ value whole + fraction frac

theorem price_digits (random : Nat) :
    ∃ whole frac, PriceDigits (broadcastPrice random) whole frac := by
  obtain ⟨low, high⟩ := broadcast_price_range random
  obtain ⟨m, rounded, text⟩ := show_fixed_parts (by decide : 0 < 6)
    (show 0 ≤ broadcastPrice random by linarith)
  have near := round_half_even_near (broadcastPrice random * 10 ^ 6)
  have least : (10 ^ 8 : Int) ≤ roundHalfEven (broadcastPrice random * 10 ^ 6) :=
    le_round_half_even (by push_cast; linarith)
  have most : roundHalfEven (broadcastPrice random * 10 ^ 6) ≤ 2 * 10 ^ 8 :=
    round_half_even_le (by push_cast; linarith)
  rw [rounded] at near least most
  have small : m % 10 ^ 6 < 10 ^ 6 := Nat.mod_lt _ (by positivity)
  have sum : (value (digits (m / 10 ^ 6)) : ℚ) + fraction (padded 6 (m % 10 ^ 6)) =
      m / 10 ^ 6 := by
    rw [value_digits, fraction_padded (by decide : 0 < 6) small]
    exact_mod_cast split_places m 6
  refine ⟨digits (m / 10 ^ 6), padded 6 (m % 10 ^ 6), text, digits_ne_nil _, all_digits _,
    all_digits_padded _ _, digits_length_le (by decide) (by omega), ?_, ?_⟩
  · rw [sum]
    push_cast at near
    have scaled : (m : ℚ) / 10 ^ 6 - broadcastPrice random =
        (m - broadcastPrice random * 10 ^ 6) / 10 ^ 6 := by
      field_simp
    rw [scaled, abs_div, abs_of_pos (show (0 : ℚ) < 10 ^ 6 by norm_num)]
    exact div_le_div_of_nonneg_right near (by norm_num)
  · rw [sum, le_div_iff₀ (by norm_num)]
    have least : ((10 ^ 8 : Int) : ℚ) ≤ ((m : Int) : ℚ) := by exact_mod_cast least
    push_cast at least
    linarith

theorem price_read_back (random : Nat) :
    stof (priceText (broadcastPrice random)) = .ok (broadcastPrice random) := by
  obtain ⟨low, high⟩ := broadcast_price_range random
  obtain ⟨whole, frac, parts⟩ := price_digits random
  have decimal := read_decimal_fixed parts.someWhole parts.wholeDigits parts.fracDigits
  have point : ∀ c ∈ ('.' :: frac).head?, c.toLower ≠ 'x' := by
    intro c head
    cases head
    decide
  have read := read_float_decimal parts.someWhole parts.wholeDigits point decimal
  obtain ⟨left, right⟩ := abs_le.mp parts.near
  have unit : 1 / 10 ^ 5 ≤ 4 * ulp (broadcastPrice random) := by
    have top := (ulps_bounds (show 0 < broadcastPrice random by linarith)).2
    linarith
  rw [parts.text, stof_ok read (by linarith [parts.low]) (by linarith)]
  have near : |value whole + fraction frac - broadcastPrice random| <
      1 / 4 * ulp (broadcastPrice random) := by
    linarith [parts.near]
  rw [binary32_read_back (broadcast_price_single random) (by linarith) near]

end Phase2
