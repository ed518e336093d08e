import TradingSystems.FinalProject.AnswerLine
import TradingSystems.FinalProject.ClientScan
import TradingSystems.FinalProject.Datagram
import TradingSystems.FinalProject.Winner

/- From the broadcast to the accepted answer. The server prints six significant
   digits, the client reads and prints them with six decimals, and the server reads
   that; only the first printing loses anything, and less than the tolerance. -/
namespace FinalProject
open Decimal Formats Extraction

/-- A challenge as the generator makes it, listed in any order. -/
structure Broadcastable (c : Challenge) : Prop where
  ten : c.marketData.length = 10
  distinct : (c.marketData.map Prod.fst).Nodup
  securities : ∀ e ∈ c.marketData, IsSecurity e.1
  bids : ∀ e ∈ c.marketData, 10 ≤ e.2.1 ∧ e.2.1 < 100
  asks : ∀ e ∈ c.marketData, e.2.1 + 1 / 10 ≤ e.2.2 ∧ e.2.2 ≤ e.2.1 + 1
  target : c.targetTicker ∈ c.marketData.map Prod.fst
  positive : 0 < c.challengeId
  small : c.challengeId ≤ intMax

theorem is_security {i : Nat} (small : i < 10 ^ 4) : IsSecurity (security i) :=
  ⟨padded 4 i, rfl, padded_length (by decide) small, all_digits_padded 4 i⟩

theorem generated_broadcastable {id : Int} {d : Draws} (positive : 0 < id) (small : id ≤ intMax)
    (bids : ∀ i, 10 ≤ d.bid i ∧ d.bid i < 100) (incs : ∀ i, 1 / 10 ≤ d.inc i ∧ d.inc i ≤ 1) :
    Broadcastable (generateChallenge id d) where
  ten := by simp [generateChallenge]
  distinct := by
    have keys : (generateChallenge id d).marketData.map Prod.fst =
        (List.finRange 10).map fun i => security (i.val + 1) := by
      simp [generateChallenge, Function.comp_def]
    rw [keys]
    decide
  securities := by
    intro e member
    obtain ⟨i, _, rfl⟩ := List.mem_map.mp member
    exact is_security (by have := i.isLt; omega)
  bids := by
    intro e member
    obtain ⟨i, _, rfl⟩ := List.mem_map.mp member
    exact bids i
  asks := by
    intro e member
    obtain ⟨i, _, rfl⟩ := List.mem_map.mp member
    have inc := incs i
    constructor <;> dsimp only <;> linarith
  target := List.mem_map.mpr ⟨_, List.mem_map.mpr ⟨d.tickerIndex, List.mem_finRange _, rfl⟩, rfl⟩
  positive := positive
  small := small

section Prices
variable {c : Challenge} {e : Text × ℚ × ℚ}

theorem Broadcastable.bid_range (sendable : Broadcastable c) (member : e ∈ c.marketData) :
    1 ≤ e.2.1 ∧ e.2.1 < 1000 := by
  have bid := sendable.bids e member
  constructor <;> linarith

theorem Broadcastable.ask_range (sendable : Broadcastable c) (member : e ∈ c.marketData) :
    1 ≤ e.2.2 ∧ e.2.2 < 1000 := by
  have bid := sendable.bids e member
  have ask := sendable.asks e member
  constructor <;> linarith

theorem Broadcastable.quoted (sendable : Broadcastable c) : ∀ e ∈ c.marketData, Quoted e := by
  intro e member
  have bid := sendable.bid_range member
  have ask := sendable.ask_range member
  exact ⟨sendable.securities e member, shown_price bid.1 bid.2, shown_price ask.1 ask.2⟩

theorem Broadcastable.showInt_id (sendable : Broadcastable c) :
    ∃ n : Nat, c.challengeId = n ∧ n < 10 ^ 10 ∧ showInt c.challengeId = digits n := by
  obtain ⟨n, same⟩ := Int.eq_ofNat_of_zero_le sendable.positive.le
  have small := sendable.small
  rw [same] at small ⊢
  refine ⟨n, rfl, ?_, ?_⟩
  · simp only [intMax] at small
    omega
  · have nonneg : ¬ (n : Int) < 0 := by omega
    simp [showInt, nonneg]

/-- The message is far shorter than the buffer, and than one fragment. -/
theorem Broadcastable.message_length (sendable : Broadcastable c) :
    (challengeMessage c).length ≤ 460 := by
  have lines : ∀ es : List (Text × ℚ × ℚ), (∀ e ∈ es, Quoted e) →
      (es.flatMap fun e => securityText e ++ ['\n']).length ≤ 42 * es.length := by
    intro es quoted
    induction es with
    | nil => simp
    | cons e es ih =>
      have line := security_text_length_le (quoted e (by simp))
      have others := ih fun e member => quoted e (by simp [member])
      simp only [List.flatMap_cons, List.length_append, List.length_cons, List.length_nil]
      omega
  have securities := lines c.marketData sendable.quoted
  obtain ⟨n, _, small, text⟩ := sendable.showInt_id
  have number : (digits n).length ≤ 10 := digits_length_le (by decide) small
  clear small
  obtain ⟨e, member, named⟩ := List.mem_map.mp sendable.target
  have ticker := (sendable.securities e member).length
  have first : "CHALLENGE_ID:".toList.length = 13 := rfl
  have second : "TARGET:".toList.length = 7 := rfl
  rw [sendable.ten] at securities
  rw [named] at ticker
  unfold challengeMessage challengeIdText targetText
  simp only [text, List.length_append, List.length_cons, List.length_nil]
  omega

end Prices

theorem lookup_key {es : List (Text × ℚ × ℚ)} {t : Text} (key : t ∈ es.map Prod.fst) :
    ∃ bid ask, es.lookup t = some (bid, ask) ∧ (t, bid, ask) ∈ es := by
  induction es with
  | nil => cases key
  | cons e es ih =>
    obtain ⟨name, bid, ask⟩ := e
    by_cases same : t = name
    · subst same
      exact ⟨bid, ask, by simp, by simp⟩
    · obtain ⟨bid', ask', found, member⟩ := ih (by simpa [same] using key)
      have other : (t == name) = false := by simpa using same
      exact ⟨bid', ask', by simp [List.lookup_cons, other, found], by simp [member]⟩

theorem find_entry {es : List (Text × ℚ × ℚ)} {t : Text} {bid ask : ℚ}
    (found : es.lookup t = some (bid, ask)) :
    findEntry (es.map entryOf) (t ++ [nul]) = (rounded 6 bid, rounded 6 ask) := by
  induction es with
  | nil => cases found
  | cons e es ih =>
    obtain ⟨name, bid', ask'⟩ := e
    by_cases same : t = name
    · subst same
      simp only [List.lookup_cons, beq_self_eq_true, Option.some.injEq, Prod.mk.injEq] at found
      obtain ⟨rfl, rfl⟩ := found
      simp [findEntry, entryOf]
    · have unequal : (t == name) = false := by simpa using same
      have later : es.lookup t = some (bid, ask) := by
        simpa [List.lookup_cons, unequal] using found
      have other : ¬ name = t := fun h => same h.symm
      simpa [findEntry, entryOf, other] using ih later

section Message
variable {c : Challenge} {behind : Text}

def fromTarget (c : Challenge) (behind : Text) : Text :=
  "TARGET:".toList ++ (c.targetTicker ++ '\n' :: nul :: behind)

def fromId (c : Challenge) (behind : Text) : Text :=
  "CHALLENGE_ID:".toList ++ (showInt c.challengeId ++ '\n' :: fromTarget c behind)

theorem message_parts : challengeMessage c ++ nul :: behind =
    c.marketData.flatMap (fun e => securityText e ++ ['\n']) ++ fromId c behind := by
  unfold challengeMessage challengeIdText targetText fromId fromTarget
  simp only [List.append_assoc, List.cons_append, List.nil_append]

theorem Broadcastable.target_security (sendable : Broadcastable c) : IsSecurity c.targetTicker := by
  obtain ⟨e, member, named⟩ := List.mem_map.mp sendable.target
  exact named ▸ sendable.securities e member

/-- The ten lines are read and the loop stops, with room for nothing more. -/
theorem scan_message (sendable : Broadcastable c) (fuel : Nat) :
    scanEntries (fuel + 1 + 10) (challengeMessage c ++ nul :: behind) [] =
      .ok (c.marketData.map entryOf) := by
  have seen : deref (fromId c behind) = .ok 'C' := rfl
  rw [message_parts, ← sendable.ten, scan_lines sendable.quoted (fuel + 1) (by simp [sendable.ten]),
    scanEntries, seen]
  simp [bind, Except.bind, sendable.ten, pure, Except.pure]

theorem find_id (sendable : Broadcastable c) :
    strstr "CHALLENGE_ID:".toList (challengeMessage c ++ nul :: behind) =
      .ok (some (fromId c behind)) := by
  rw [message_parts, strstr_skip_lines (x := 'H') (by decide) (by unfold LineChar; decide)
    (by decide) sendable.quoted]
  exact strstr_found (by decide)

theorem id_line_lacks (sendable : Broadcastable c) {x : Char}
    (letter : x ∉ "CHALLENGE_ID:".toList) (symbol : x.isDigit = false) :
    x ∉ "CHALLENGE_ID:".toList ++ showInt c.challengeId := by
  obtain ⟨n, _, _, number⟩ := sendable.showInt_id
  rw [number]
  intro inside
  rcases List.mem_append.mp inside with first | digit
  · exact letter first
  · rw [all_digits n x digit] at symbol
    cases symbol

theorem find_target (sendable : Broadcastable c) :
    strstr "TARGET:".toList (challengeMessage c ++ nul :: behind) =
      .ok (some (fromTarget c behind)) := by
  have line : fromId c behind =
      ("CHALLENGE_ID:".toList ++ showInt c.challengeId) ++ '\n' :: fromTarget c behind := by
    unfold fromId
    rw [List.append_assoc]
  rw [message_parts, strstr_skip_lines (x := 'T') (by decide) (by unfold LineChar; decide)
    (by decide) sendable.quoted, line, strstr_skip (x := 'T') (by decide)
    (id_line_lacks sendable (by decide) rfl) (by decide) (id_line_lacks sendable (by decide) rfl)]
  exact strstr_found (by decide)

theorem read_id (sendable : Broadcastable c) :
    atoi ((fromId c behind).drop 13) = .ok c.challengeId := by
  obtain ⟨n, same, _, number⟩ := sendable.showInt_id
  unfold fromId
  rw [List.drop_left' (by rfl), number, same]
  exact atoi_digits rfl

theorem read_target (sendable : Broadcastable c) :
    copy7 ((fromTarget c behind).drop 7) = .ok (c.targetTicker ++ [nul]) := by
  unfold fromTarget
  rw [List.drop_left' (by rfl)]
  exact copy7_of_length sendable.target_security.length

theorem target_string (sendable : Broadcastable c) :
    cString (c.targetTicker ++ [nul]) = .ok c.targetTicker := by
  have shown : ∀ ch ∈ c.targetTicker, decide (ch ≠ nul) = true := by
    intro ch inside
    have line := sendable.target_security.chars ch inside
    have visible : ch ≠ nul := by
      rintro rfl
      exact absurd line (by unfold LineChar; decide)
    simpa using visible
  have ended : ∀ ch ∈ [nul].head?, decide (ch ≠ nul) = false := by simp
  rw [cString, if_pos (by simp), take_run shown ended]

theorem parse_message (sendable : Broadcastable c) {stale : Text} (buffer : stale.length = 2000) :
    ∃ buf, receive stale (challengeMessage c) = .ok buf ∧ parseDatagram buf =
      .ok ⟨c.marketData.map entryOf, some c.challengeId, some (c.targetTicker ++ [nul])⟩ := by
  have short : (challengeMessage c).length < 2000 := by
    have length := sendable.message_length
    omega
  obtain ⟨behind, arrived, length, _⟩ := receive_short short buffer
  have full : (challengeMessage c ++ nul :: behind).length = 1990 + 10 := by
    simp only [List.length_append, List.length_cons]
    omega
  have scanned : scanEntries ((challengeMessage c ++ nul :: behind).length + 1)
      (challengeMessage c ++ nul :: behind) [] = .ok (c.marketData.map entryOf) := by
    rw [full]
    exact scan_message sendable 1990
  refine ⟨_, arrived, ?_⟩
  simp only [parseDatagram, challengeIdIn, targetIn, bind, Except.bind, scanned, find_id sendable,
    read_id sendable, find_target sendable, read_target sendable]
  rfl

theorem broadcast_safe (sendable : Broadcastable c) : DatagramSafe (challengeMessage c) := by
  refine ⟨⟨c.marketData.map entryOf, some c.challengeId, some (c.targetTicker ++ [nul])⟩,
    fun stale buffer => ?_⟩
  obtain ⟨buf, arrived, parsed⟩ := parse_message sendable buffer
  rw [arrived]
  exact parsed

end Message

section Answer
variable {c : Challenge} {stale traderName : Text} {client : Client} {bid ask : ℚ}

def answerText (c : Challenge) (bid ask : ℚ) (traderName : Text) : Text :=
  answerFields c.challengeId c.targetTicker bid ask traderName

theorem answer_line_text : answerLine c.challengeId c.targetTicker bid ask traderName =
    answerText c bid ask traderName ++ ['\n'] := answer_line_fields

theorem handle_message (sendable : Broadcastable c) (buffer : stale.length = 2000)
    (found : c.marketData.lookup c.targetTicker = some (bid, ask))
    (fits : (answerLine c.challengeId c.targetTicker (rounded 6 bid) (rounded 6 ask)
      traderName).length < 128) :
    ∃ buf, receive stale (challengeMessage c) = .ok buf ∧
      handleDatagram traderName client buf = .ok (⟨c.challengeId, c.targetTicker ++ [nul]⟩,
        c.marketData.map entryOf,
        answerText c (rounded 6 bid) (rounded 6 ask) traderName ++ ['\n']) := by
  obtain ⟨buf, arrived, parsed⟩ := parse_message sendable buffer
  refine ⟨buf, arrived, ?_⟩
  rw [handle_datagram_parsed, parsed]
  simp only [bind, Except.bind, answerParsed, Option.getD_some, find_entry found,
    target_string sendable, pure, Except.pure]
  rw [sendAnswer, if_pos fits, answer_line_text]

end Answer

theorem LineChar.visible {ch : Char} (line : LineChar ch) : isSpace ch = false := by
  rcases line with digit | letter
  · exact digit_not_space digit
  · exact visible_of_all (by decide) ch letter

theorem Broadcastable.target_visible {c : Challenge} (sendable : Broadcastable c) :
    ∀ ch ∈ c.targetTicker, isSpace ch = false := fun ch inside =>
  (sendable.target_security.chars ch inside).visible

theorem fixed_price_short {M : Nat} (small : M < 10 ^ 10) :
    (showFixed 6 ((M : ℚ) / 10 ^ 6)).length ≤ 300 := by
  have whole : (digits (M / 10 ^ 6)).length ≤ 4 :=
    digits_length_le (by decide) (Nat.div_lt_of_lt_mul (by omega))
  have behind := padded_length (show 0 < 6 by decide) (Nat.mod_lt M (show 0 < 10 ^ 6 by decide))
  rw [show_fixed_exact M (by decide)]
  simp only [List.length_append, List.length_cons, behind]
  omega

section Accepted
variable {c : Challenge} {stale traderName : Text} {client : Client} {bid ask : ℚ}

theorem extract_answer (sendable : Broadcastable c) {b a : Nat} (bid : b < 10 ^ 10)
    (ask : a < 10 ^ 10) (some_char : traderName ≠ [])
    (one_word : ∀ ch ∈ traderName, isSpace ch = false) (junk : Indeterminate) :
    extractFields junk (answerText c (b / 10 ^ 6) (a / 10 ^ 6) traderName) =
      (⟨responseHeader, c.challengeId, c.targetTicker, b / 10 ^ 6, a / 10 ^ 6, traderName⟩,
        .stopped [] false) := by
  have range : CString.InInt c.challengeId := by
    have positive := sendable.positive
    have small := sendable.small
    constructor
    · simp only [intMin]
      omega
    · exact small
  have named : c.targetTicker ≠ [] := by
    intro none
    have seven := sendable.target_security.length
    simp [none] at seven
  have ends : Ends [] := by simp [Ends]
  have name := blank_word some_char one_word ends
  have split := extract_answer_fields range named sendable.target_visible (fixed_price_short bid)
    (fixed_price_short ask) traderName junk
  rw [List.append_nil] at name
  rw [name, shown_fixed_exact, shown_fixed_exact] at split
  exact split

theorem answer_one_line (sendable : Broadcastable c) {bid ask : ℚ}
    (one_word : ∀ ch ∈ traderName, isSpace ch = false) :
    '\n' ∉ answerText c bid ask traderName :=
  answer_fields_one_line sendable.target_visible one_word

/-- The whole way: the client recovers what was broadcast, and its answer wins a
    challenge that nobody has won. -/
theorem broadcast_answer_accepted (client : Client) (sendable : Broadcastable c)
    (buffer : stale.length = 2000) (some_char : traderName ≠ [])
    (one_word : ∀ ch ∈ traderName, isSpace ch = false) :
    ∃ bid ask, c.marketData.lookup c.targetTicker = some (bid, ask) ∧
      ((answerLine c.challengeId c.targetTicker (rounded 6 bid) (rounded 6 ask)
          traderName).length < 128 →
        ∃ buf line, receive stale (challengeMessage c) = .ok buf ∧
          handleDatagram traderName client buf = .ok (⟨c.challengeId, c.targetTicker ++ [nul]⟩,
            c.marketData.map entryOf, line ++ ['\n']) ∧
          '\n' ∉ line ∧
          ∀ junk, ∃ f, extractFields junk line = (f, .stopped [] false) ∧
            f.challengeId = c.challengeId ∧ f.ticker = c.targetTicker ∧
            |f.submittedBid - bid| ≤ tol ∧ |f.submittedAsk - ask| ≤ tol ∧
            (c.winnerDeclared = false → (processOrder junk c line).1 =
              { c with winnerDeclared := true, winnerName := traderName })) := by
  obtain ⟨bid, ask, found, member⟩ := lookup_key sendable.target
  refine ⟨bid, ask, found, fun fits => ?_⟩
  have quoted := sendable.quoted _ member
  have bids := sendable.bid_range member
  have asks := sendable.ask_range member
  obtain ⟨buf, arrived, handled⟩ := handle_message sendable buffer found fits
  obtain ⟨b, bid_small, bid_value⟩ := quoted.bid.fixed
  obtain ⟨a, ask_small, ask_value⟩ := quoted.ask.fixed
  dsimp only at bids asks bid_value ask_value
  have near_bid := rounded_price_near bids.1 bids.2
  have near_ask := rounded_price_near asks.1 asks.2
  have half : 1 / 2000 ≤ tol := by norm_num [tol]
  rw [bid_value, ask_value] at handled
  rw [bid_value] at near_bid
  rw [ask_value] at near_ask
  refine ⟨buf, _, arrived, handled, answer_one_line sendable one_word, fun junk => ?_⟩
  have split := extract_answer sendable bid_small ask_small some_char one_word junk
  refine ⟨_, split, rfl, rfl, near_bid.trans half, near_ask.trans half, fun unwon => ?_⟩
  have answers : Answers c (extractFields junk (answerText c (b / 10 ^ 6) (a / 10 ^ 6)
      traderName)).1 := by
    rw [split]
    exact ⟨rfl, rfl, rfl, bid, ask, found, within_tol_of_near near_bid bids.1 bids.2,
      within_tol_of_near near_ask asks.1 asks.2⟩
  rcases process_cases junk c (answerText c (b / 10 ^ 6) (a / 10 ^ 6) traderName) with
    ⟨_, _, after⟩ | ⟨wrong, _⟩
  · rw [after, split]
  · exact absurd ⟨answers, unwon⟩ wrong

theorem broadcast_answer_accepted_ann : ∃ buf line,
    receive (List.replicate 2000 'x') (challengeMessage (generateChallenge 1 flatDraws)) = .ok buf ∧
      handleDatagram "ann".toList ⟨0, []⟩ buf = .ok (⟨1, "SEC0001".toList ++ [nul]⟩,
        (generateChallenge 1 flatDraws).marketData.map entryOf, line ++ ['\n']) ∧
      (processOrder ⟨0, 0, 0⟩ (generateChallenge 1 flatDraws) line).1.winnerName =
        "ann".toList := by
  have sendable : Broadcastable (generateChallenge 1 flatDraws) :=
    generated_broadcastable (by decide) (by decide) (by simp [flatDraws]; norm_num)
      (by simp [flatDraws]; norm_num)
  have named : "ann".toList ≠ [] := by decide
  obtain ⟨bid, ask, found, answered⟩ := broadcast_answer_accepted ⟨0, []⟩ sendable
    List.length_replicate named (visible_of_all (by decide))
  have prices : (generateChallenge 1 flatDraws).marketData.lookup
      (generateChallenge 1 flatDraws).targetTicker = some (10, 11) := by decide +kernel
  rw [prices] at found
  cases found
  obtain ⟨buf, line, arrived, handled, _, split⟩ := answered (by decide +kernel)
  obtain ⟨f, _, _, _, _, _, wins⟩ := split ⟨0, 0, 0⟩
  exact ⟨buf, line, arrived, handled, by rw [wins rfl]⟩

end Accepted
end FinalProject
