import TradingSystems.Library.CString
import TradingSystems.Library.Pieces

/- The fragments in which the broadcast thread sends a message. Sizes are unsigned 64-bit
   numbers and wrap; a message is shorter than half their range. -/
namespace FinalProject
open Decimal CString Pieces

def maxUdpPayload : Nat := 1400

def sizeAdd (m n : Nat) : Nat := (m + n) % 2 ^ 64
def sizeMul (m n : Nat) : Nat := m * n % 2 ^ 64
def sizeSub (m n : Nat) : Nat := (m + (2 ^ 64 - n)) % 2 ^ 64

structure Fragment where
  start : Nat
  fragment : Text
  deriving DecidableEq

def fragmentLoop (outMessage : Text) (totalSize fragmentSize : Nat) :
    Nat → Nat → Except Thrown (List Fragment)
  | 0, _ => return []
  | left + 1, i => do
    let start := sizeMul i fragmentSize
    let len := min fragmentSize (sizeSub totalSize start)
    let rest ← substr outMessage start
    let fragment := rest.take len
    let later ← fragmentLoop outMessage totalSize fragmentSize left (sizeAdd i 1)
    return { start, fragment } :: later

def sendFragments (outMessage : Text) : Except Thrown (List Fragment) :=
  let totalSize := outMessage.length % 2 ^ 64
  let fragmentSize := maxUdpPayload
  let numFragments := sizeSub (sizeAdd totalSize fragmentSize) 1 / fragmentSize
  fragmentLoop outMessage totalSize fragmentSize numFragments 0

section Sizes
variable {m n : Nat}

theorem size_sub_of_le (below : n ≤ m) (small : m < 2 ^ 64) : sizeSub m n = m - n := by
  have turned : m + (2 ^ 64 - n) = m - n + 2 ^ 64 := by omega
  rw [sizeSub, turned, Nat.add_mod_right, Nat.mod_eq_of_lt (by omega)]

end Sizes

section Loop
variable {outMessage : Text} {i left : Nat}

theorem fragment_loop_pieces (small : outMessage.length < 2 ^ 63)
    (within : i + left ≤ count maxUdpPayload outMessage.length) :
    fragmentLoop outMessage outMessage.length maxUdpPayload left i =
      .ok ((List.range' i left).map fun j =>
        ⟨j * maxUdpPayload, piece maxUdpPayload outMessage j⟩) := by
  induction left generalizing i with
  | zero => rfl
  | succ left ih =>
    have inside : i * maxUdpPayload < outMessage.length :=
      (below_count (by decide) _).mp (by omega)
    have counted : i ≤ i * maxUdpPayload := Nat.le_mul_of_pos_right i (by decide)
    have start : sizeMul i maxUdpPayload = i * maxUdpPayload := Nat.mod_eq_of_lt (by omega)
    have next : sizeAdd i 1 = i + 1 := Nat.mod_eq_of_lt (by omega)
    have rest : substr outMessage (i * maxUdpPayload) =
        .ok (outMessage.drop (i * maxUdpPayload)) := if_pos inside.le
    have len : (outMessage.drop (i * maxUdpPayload)).take
        (min maxUdpPayload (outMessage.length - i * maxUdpPayload)) =
          piece maxUdpPayload outMessage i := by
      rw [piece, ← List.length_drop, List.take_eq_take_min, Nat.min_assoc, Nat.min_self,
        ← List.take_eq_take_min]
    have later := ih (i := i + 1) (by omega)
    rw [fragmentLoop, start, next, size_sub_of_le inside.le (by omega), rest]
    simp only [bind, Except.bind, later, len]
    rfl

end Loop

/-- What the fragments of a message are to be. -/
structure Fragmented (outMessage : Text) (sent : List Fragment) : Prop where
  nonempty : ∀ f ∈ sent, f.fragment ≠ []
  fits : ∀ f ∈ sent, f.fragment.length ≤ maxUdpPayload
  full : ∀ f ∈ sent.dropLast, f.fragment.length = maxUdpPayload
  no_underflow : ∀ f ∈ sent, f.start ≤ outMessage.length
  whole : (sent.map Fragment.fragment).flatten = outMessage

theorem fragmented_of_pieces {outMessage : Text} {sent : List Fragment}
    (texts : sent.map Fragment.fragment = pieces maxUdpPayload outMessage)
    (inside : ∀ f ∈ sent, f.start ≤ outMessage.length) : Fragmented outMessage sent := by
  have positive : 0 < maxUdpPayload := by decide
  have text_of : ∀ f ∈ sent, f.fragment ∈ pieces maxUdpPayload outMessage := by
    intro f member
    rw [← texts]
    exact List.mem_map_of_mem member
  have full : ∀ t ∈ (pieces maxUdpPayload outMessage).dropLast, t.length = maxUdpPayload :=
    pieces_full positive
  refine ⟨fun f member => (pieces_nonempty positive _ (text_of f member)).1,
    fun f member => (pieces_nonempty positive _ (text_of f member)).2, fun f member => ?_, inside,
    by rw [texts, pieces_flatten positive]⟩
  refine full _ ?_
  rw [← texts, ← List.map_dropLast]
  exact List.mem_map_of_mem member

/-- Every message is sent in fragments that fit, and nothing of it is lost. -/
theorem message_fragmented {outMessage : Text} (small : outMessage.length < 2 ^ 63) :
    ∃ sent, sendFragments outMessage = .ok sent ∧ Fragmented outMessage sent := by
  have payload : maxUdpPayload = 1400 := rfl
  have total : outMessage.length % 2 ^ 64 = outMessage.length := Nat.mod_eq_of_lt (by omega)
  have sum : sizeAdd outMessage.length maxUdpPayload = outMessage.length + maxUdpPayload :=
    Nat.mod_eq_of_lt (by omega)
  have number : sizeSub (sizeAdd outMessage.length maxUdpPayload) 1 / maxUdpPayload =
      count maxUdpPayload outMessage.length := by
    rw [sum, size_sub_of_le (by omega) (by omega), count]
  have sent := fragment_loop_pieces (i := 0) small (Nat.zero_add _).le
  refine ⟨_, by rw [sendFragments, total, number]; exact sent, fragmented_of_pieces ?_ ?_⟩
  · rw [← List.range_eq_range', List.map_map]
    rfl
  · intro f member
    obtain ⟨j, inside, rfl⟩ := List.mem_map.mp member
    rw [← List.range_eq_range', List.mem_range, below_count (by decide)] at inside
    exact inside.le

theorem message_fragmented_three : ∃ sent, sendFragments (List.replicate 3000 'x') = .ok sent ∧
    Fragmented (List.replicate 3000 'x') sent :=
  message_fragmented (by rw [List.length_replicate]; decide)

end FinalProject
