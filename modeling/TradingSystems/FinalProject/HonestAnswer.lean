import TradingSystems.FinalProject.Codec
import TradingSystems.FinalProject.Fragments
import TradingSystems.Library.DistinctKeys

/- What a client that runs the program answers to a broadcast. The answer is to a
   challenge that was announced, and while that challenge is the current one it is right;
   a later challenge has a larger identifier, so it is never taken for an answer to that. -/
namespace FinalProject
open Decimal Formats Extraction Pieces DistinctKeys

/-- A trader name that fits its line and is read back as one word. -/
structure Participant (traderName : Text) : Prop where
  some_char : traderName ≠ []
  one_word : ∀ ch ∈ traderName, isSpace ch = false
  short : traderName.length ≤ 64

section Orders
variable {c : Challenge} {es order : List (Text × ℚ × ℚ)} {t : Text} {prices : ℚ × ℚ}

theorem lookup_perm (distinct : (es.map Prod.fst).Nodup) (perm : es.Perm order)
    (found : es.lookup t = some prices) : order.lookup t = some prices := by
  obtain ⟨front, back, split, _⟩ := List.lookup_eq_some_iff.mp found
  have member : (t, prices) ∈ es := by simp [split]
  have distinct_order : (order.map Prod.fst).Nodup := (perm.map _).nodup_iff.mp distinct
  have key : t ∈ order.map Prod.fst := List.mem_map.mpr ⟨_, perm.mem_iff.mp member, rfl⟩
  obtain ⟨bid, ask, there, listed⟩ := lookup_key key
  have same := eq_of_key distinct_order (perm.mem_iff.mp member) listed rfl
  rw [there, ← (Prod.mk.inj same).2]

theorem Broadcastable.reordered (sendable : Broadcastable c) (perm : order.Perm c.marketData) :
    Broadcastable { c with marketData := order } where
  ten := perm.length_eq.trans sendable.ten
  distinct := (perm.map _).nodup_iff.mpr sendable.distinct
  securities := fun e member => sendable.securities e (perm.mem_iff.mp member)
  bids := fun e member => sendable.bids e (perm.mem_iff.mp member)
  asks := fun e member => sendable.asks e (perm.mem_iff.mp member)
  target := (perm.map _).mem_iff.mpr sendable.target
  positive := sendable.positive
  small := sendable.small

theorem one_fragment (sendable : Broadcastable c) :
    sendFragments (challengeMessage c) = .ok [⟨0, challengeMessage c⟩] := by
  have payload : maxUdpPayload = 1400 := rfl
  have length := sendable.message_length
  have some_byte : 0 < (challengeMessage c).length := by
    simp only [challengeMessage, List.length_append, List.length_cons]
    omega
  have total : (challengeMessage c).length % 2 ^ 64 = (challengeMessage c).length :=
    Nat.mod_eq_of_lt (by omega)
  have sum : sizeAdd (challengeMessage c).length maxUdpPayload =
      (challengeMessage c).length + maxUdpPayload := Nat.mod_eq_of_lt (by omega)
  have one : count maxUdpPayload (challengeMessage c).length = 1 := by
    rw [count, payload]
    omega
  have number : sizeSub (sizeAdd (challengeMessage c).length maxUdpPayload) 1 / maxUdpPayload =
      1 := by
    rw [sum, size_sub_of_le (by omega) (by omega)]
    exact one
  have sent : fragmentLoop (challengeMessage c) (challengeMessage c).length maxUdpPayload 1 0 =
      _ := fragment_loop_pieces (by omega) (by omega)
  have whole : (challengeMessage c).take maxUdpPayload = challengeMessage c :=
    List.take_of_length_le (by omega)
  rw [sendFragments, total, number]
  simpa [piece, whole] using sent

end Orders

/-- `c` was broadcast: an earlier challenge, or the current one in some order. -/
structure Announces (current c : Challenge) : Prop where
  sendable : Broadcastable c
  known : c.challengeId ≤ current.challengeId
  same : c.challengeId = current.challengeId →
    c.targetTicker = current.targetTicker ∧ c.marketData.Perm current.marketData

section Announced
variable {current next c : Challenge} {traderName line : Text}

theorem Announces.later (announces : Announces current c)
    (after : current.challengeId < next.challengeId) : Announces next c := by
  have known := announces.known
  exact ⟨announces.sendable, by omega, fun same => by omega⟩

theorem Announces.kept (announces : Announces current c)
    (sameId : next.challengeId = current.challengeId)
    (sameTarget : next.targetTicker = current.targetTicker)
    (sameData : next.marketData = current.marketData) : Announces next c := by
  obtain ⟨sendable, known, same⟩ := announces
  exact ⟨sendable, sameId ▸ known, by rw [sameId, sameTarget, sameData]; exact same⟩

/-- The client's answer to `c`, with prices as millionths that are near those announced. -/
structure AnswersTo (c : Challenge) (traderName line : Text) (b a : Nat) : Prop where
  bid : b < 10 ^ 10
  ask : a < 10 ^ 10
  near : ∃ bid ask, c.marketData.lookup c.targetTicker = some (bid, ask) ∧
    WithinTol (b / 10 ^ 6) bid ∧ WithinTol (a / 10 ^ 6) ask
  line : line = answerText c (b / 10 ^ 6) (a / 10 ^ 6) traderName

def HonestAnswer (current : Challenge) (traderName line : Text) : Prop :=
  ∃ c b a, Announces current c ∧ AnswersTo c traderName line b a

structure HonestFields (traderName : Text) (met : Challenge) (f : Fields) : Prop where
  named : f.clientName = traderName
  known : f.challengeId ≤ met.challengeId
  right : f.challengeId = met.challengeId → Answers met f

theorem HonestAnswer.mono (honest : HonestAnswer current traderName line)
    (follows : ∀ c, Announces current c → Announces next c) :
    HonestAnswer next traderName line := by
  obtain ⟨c, b, a, announces, answers⟩ := honest
  exact ⟨c, b, a, follows c announces, answers⟩

theorem HonestAnswer.one_line (honest : HonestAnswer current traderName line)
    (participant : Participant traderName) : '\n' ∉ line := by
  obtain ⟨c, b, a, announces, answers⟩ := honest
  rw [answers.line]
  exact answer_one_line announces.sendable participant.one_word

theorem AnswersTo.read {b a : Nat} (answers : AnswersTo c traderName line b a)
    (sendable : Broadcastable c) (participant : Participant traderName) (junk : Indeterminate) :
    extractFields junk line =
      (⟨responseHeader, c.challengeId, c.targetTicker, b / 10 ^ 6, a / 10 ^ 6, traderName⟩,
        .stopped [] false) := by
  rw [answers.line]
  exact extract_answer sendable answers.bid answers.ask participant.some_char
    participant.one_word junk

theorem HonestAnswer.read (honest : HonestAnswer current traderName line)
    (participant : Participant traderName) (junk : Indeterminate) :
    (extractFields junk line).2.fail = false ∧
      HonestFields traderName current (extractFields junk line).1 := by
  obtain ⟨c, b, a, announces, answers⟩ := honest
  rw [answers.read announces.sendable participant junk]
  refine ⟨rfl, rfl, announces.known, fun same => ?_⟩
  obtain ⟨target, perm⟩ := announces.same same
  obtain ⟨bid, ask, found, near⟩ := answers.near
  have listed := lookup_perm announces.sendable.distinct perm found
  exact ⟨rfl, same, target, bid, ask, listed, near⟩

theorem fixed_price_length {M : Nat} (small : M < 10 ^ 10) :
    (showFixed 6 ((M : ℚ) / 10 ^ 6)).length ≤ 11 := by
  have whole : (digits (M / 10 ^ 6)).length ≤ 4 :=
    digits_length_le (by decide) (Nat.div_lt_of_lt_mul (by omega))
  have behind := padded_length (show 0 < 6 by decide) (Nat.mod_lt M (show 0 < 10 ^ 6 by decide))
  rw [show_fixed_exact M (by decide)]
  simp only [List.length_append, List.length_cons, behind]
  omega

theorem handle_honest {stale : Text} (sendable : Broadcastable c) (client : Client)
    (buffer : stale.length = 2000) (participant : Participant traderName) :
    ∃ buf line b a, receive stale (challengeMessage c) = .ok buf ∧ buf.length = 2000 ∧
      handleDatagram traderName client buf = .ok (⟨c.challengeId, c.targetTicker ++ [nul]⟩,
        c.marketData.map entryOf, line ++ ['\n']) ∧ AnswersTo c traderName line b a := by
  obtain ⟨bid, ask, found, member⟩ := lookup_key sendable.target
  have quoted := sendable.quoted _ member
  have bids := sendable.bid_range member
  have asks := sendable.ask_range member
  obtain ⟨b, bid_small, bid_value⟩ := quoted.bid.fixed
  obtain ⟨a, ask_small, ask_value⟩ := quoted.ask.fixed
  dsimp only at bids asks bid_value ask_value
  have near_bid := rounded_price_near bids.1 bids.2
  have near_ask := rounded_price_near asks.1 asks.2
  have fits : (answerLine c.challengeId c.targetTicker (rounded 6 bid) (rounded 6 ask)
      traderName).length < 128 := by
    obtain ⟨n, _, small, text⟩ := sendable.showInt_id
    have number : (digits n).length ≤ 10 := digits_length_le (by decide) small
    have first := fixed_price_length bid_small
    have second := fixed_price_length ask_small
    have name := participant.short
    rw [answer_line_length _ _ _ _ sendable.target_security.length, text, bid_value, ask_value]
    omega
  obtain ⟨buf, arrived, handled⟩ := handle_message sendable buffer found fits
  have short : (challengeMessage c).length < 2000 := by
    have := sendable.message_length
    omega
  obtain ⟨behind, same, length, _⟩ := receive_short short buffer
  rw [bid_value, ask_value] at handled
  rw [bid_value] at near_bid
  rw [ask_value] at near_ask
  refine ⟨buf, _, b, a, arrived, ?_, handled, bid_small, ask_small,
    ⟨bid, ask, found, within_tol_of_near near_bid bids.1 bids.2,
      within_tol_of_near near_ask asks.1 asks.2⟩, rfl⟩
  rw [arrived] at same
  cases same
  simp only [List.length_append, List.length_cons]
  omega

end Announced
end FinalProject
