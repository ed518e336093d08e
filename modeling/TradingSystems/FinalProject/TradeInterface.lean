import TradingSystems.Library.CString
import TradingSystems.Library.Runs

/- The trade interface: the intake of a challenge, and the response to it. A packet is cut
   off at the room that `recvfrom` is given, which is 16 in the source and any size here.
   The pointers of the source lead to strings that are gone; here the texts are kept. -/
namespace FinalProject
open Decimal Formats CString Runs

def receiveRoom : Nat := 16

/-- What a zeroed buffer holds after `recvfrom`. -/
def received (room : Nat) (packet : Text) : Text := CString.cString (packet.take room)

/-- The values that one call of `receiveValueHandler` gives to its threads, and the number
    of strings that were stored for it. -/
structure Handed where
  values : List (Option Text)
  howFull : Nat

structure Intake where
  secStorage : Nat → Option Text
  howFull : Nat
  indices : List Nat
  handed : List Handed

def Intake.start : Intake := ⟨fun _ => none, 0, [], []⟩

def receiveValueHandler (values : Nat → Option Text) (numValues : Nat) : List (Option Text) :=
  (List.range numValues).map values

def Intake.hand (s : Intake) (numValues : Nat) : Intake :=
  { s with handed := s.handed ++ [⟨receiveValueHandler s.secStorage numValues, s.howFull⟩] }

def Intake.store (s : Intake) (secBuffer : Text) : Intake :=
  let s := { s with
    secStorage := Function.update s.secStorage s.howFull (some secBuffer)
    howFull := s.howFull + 1
    indices := s.indices ++ [s.howFull] }
  if s.howFull = 7 then { s.hand 8 with howFull := 0 } else s

inductive Halt where
  | blocked
  | thrown (exception : Thrown)
  deriving DecidableEq

def Stops (secBuffer : Text) : Prop := secBuffer.head? = some 'T' ∨ secBuffer.head? = some 'S'

instance (secBuffer : Text) : Decidable (Stops secBuffer) :=
  inferInstanceAs (Decidable (_ ∨ _))

def intakeLoop (room : Nat) : Intake → List Text → Except Halt (Text × Intake × List Text)
  | _, [] => .error .blocked
  | s, packet :: packets =>
    let secBuffer := received room packet
    if Stops secBuffer then .ok (secBuffer, s.hand (s.howFull + 1), packets)
    else intakeLoop room (s.store secBuffer) packets

structure Challenged where
  challengeId : Text
  ticker : Text
  intake : Intake
  behindLoop : List Text

def getChallenge (room : Nat) (packets : List Text) : Except Halt Challenged := do
  let (chalBuffer, intake, behindLoop) ← intakeLoop room .start packets
  let challengeId ← (substr chalBuffer 12).mapError .thrown
  match behindLoop with
  | [] => .error .blocked
  | packet :: _ =>
    let ticker ← (substr (received room packet) 7).mapError .thrown
    return { challengeId, ticker, intake, behindLoop }

def challengePacket (id : Text) : Text := "CHALLENGE_ID:".toList ++ id

def targetPacket (ticker : Text) : Text := "TARGET:".toList ++ ticker

structure Challenged.TakesIn (room : Nat) (securities : List Text) (id ticker : Text)
    (later : List Text) (r : Challenged) : Prop where
  each_once : (r.intake.handed.flatMap Handed.values).Perm
    (securities.map fun packet => some (received room packet))
  counted : ∀ h ∈ r.intake.handed, h.values.length ≤ h.howFull
  indices : ∀ i ∈ r.intake.indices, i < 8
  loop_end : r.behindLoop = targetPacket ticker :: later
  challengeId : r.challengeId = id
  ticker : r.ticker = ticker

section Loop
variable {room : Nat} {s t : Intake} {packet chalBuffer : Text}
  {packets securities later left : List Text} {r : Challenged} {id ticker : Text}

theorem received_head {c : Char} {rest : Text} (some_room : 1 ≤ room)
    (visible : c ≠ CString.nul) :
    (received room (c :: rest)).head? = some c := by
  obtain ⟨n, rfl⟩ := Nat.exists_eq_add_of_le' some_room
  rw [received, CString.cString, List.take_succ_cons, List.takeWhile_cons_of_pos (by simpa)]
  rfl

theorem loop_stops (stops : Stops (received room packet)) :
    intakeLoop room s (packet :: packets) =
      .ok (received room packet, s.hand (s.howFull + 1), packets) := if_pos stops

theorem loop_stores (other : ¬ Stops (received room packet)) :
    intakeLoop room s (packet :: packets) =
      intakeLoop room (s.store (received room packet)) packets := if_neg other

theorem store_indices : (s.store packet).indices = s.indices ++ [s.howFull] := by
  simp only [Intake.store]
  split <;> rfl

theorem store_below (below : s.howFull < 7) : (s.store packet).howFull < 7 := by
  simp only [Intake.store]
  split
  · exact Nat.zero_lt_succ 6
  · rename_i room_left
    exact lt_of_le_of_ne below room_left

theorem indices_below (below : s.howFull < 7) (before : ∀ i ∈ s.indices, i < 8)
    (ended : intakeLoop room s packets = .ok (chalBuffer, t, left)) : ∀ i ∈ t.indices, i < 8 := by
  induction packets generalizing s with
  | nil => cases ended
  | cons packet packets ih =>
    by_cases stops : Stops (received room packet)
    · rw [loop_stops stops] at ended
      cases ended
      exact before
    · rw [loop_stores stops] at ended
      refine ih (store_below below) ?_ ended
      rw [store_indices]
      exact all_snoc before (below.trans (by decide))

theorem last_call_overcounts (ended : intakeLoop room s packets = .ok (chalBuffer, t, left)) :
    ∃ h ∈ t.handed, h.howFull < h.values.length := by
  induction packets generalizing s with
  | nil => cases ended
  | cons packet packets ih =>
    by_cases stops : Stops (received room packet)
    · rw [loop_stops stops] at ended
      cases ended
      exact ⟨_, List.mem_append_right _ (List.mem_singleton_self _), by
        simp [receiveValueHandler]⟩
    · rw [loop_stores stops] at ended
      exact ih ended

theorem get_challenge_loop (done : getChallenge room packets = .ok r) :
    ∃ chalBuffer, intakeLoop room .start packets = .ok (chalBuffer, r.intake, r.behindLoop) := by
  obtain ⟨⟨chalBuffer, intake, behindLoop⟩, loop, done⟩ := bind_ok done
  obtain ⟨challengeId, _, done⟩ := bind_ok done
  cases behindLoop with
  | nil => cases done
  | cons packet later =>
    obtain ⟨ticker, _, done⟩ := bind_ok done
    cases done
    exact ⟨chalBuffer, loop⟩

theorem challenge_is_stored (some_room : 1 ≤ room) (id : Text) :
    ¬ Stops (received room (challengePacket id)) := by
  have head : (received room (challengePacket id)).head? = some 'C' :=
    received_head some_room (by decide)
  rw [Stops, head]
  decide

theorem target_stops (some_room : 1 ≤ room) (ticker : Text) :
    Stops (received room (targetPacket ticker)) :=
  Or.inl (received_head some_room (by decide))

theorem security_stops (some_room : 1 ≤ room) (security : "SEC|".toList <+: packet) :
    Stops (received room packet) := by
  obtain ⟨rest, rfl⟩ := security
  exact Or.inr (received_head some_room (by decide))

/-- The loop ends at the first security, or without one at the target. No security is
    stored: what is handed on is an empty cell, behind the challenge packet if anything. -/
theorem loop_wrong (some_room : 1 ≤ room)
    (all : ∀ packet ∈ securities, "SEC|".toList <+: packet)
    (ended : intakeLoop room .start
      (securities ++ challengePacket id :: targetPacket ticker :: later) =
        .ok (chalBuffer, t, left)) :
    left.length ≠ later.length + 1 ∧ none ∈ t.handed.flatMap Handed.values := by
  cases securities with
  | nil =>
    rw [List.nil_append, loop_stores (challenge_is_stored some_room id),
      loop_stops (target_stops some_room ticker)] at ended
    cases ended
    constructor
    · omega
    · simp [Intake.hand, Intake.store, Intake.start, receiveValueHandler, List.range_succ]
  | cons packet securities =>
    rw [List.cons_append, loop_stops (security_stops some_room (all packet (by simp)))] at ended
    cases ended
    constructor
    · simp only [List.length_append, List.length_cons]
      omega
    · simp [Intake.hand, Intake.start, receiveValueHandler]

/-- No sequence of packets is taken in as it was sent: neither the strings handed on, nor
    their counts, nor the end of the loop are right. -/
theorem challenge_never_taken_in (some_room : 1 ≤ room)
    (all : ∀ packet ∈ securities, "SEC|".toList <+: packet) :
    (¬ ∃ r, getChallenge room
        (securities ++ challengePacket id :: targetPacket ticker :: later) = .ok r ∧
      r.TakesIn room securities id ticker later) ∧
    ∀ r, getChallenge room
        (securities ++ challengePacket id :: targetPacket ticker :: later) = .ok r →
      none ∈ r.intake.handed.flatMap Handed.values ∧
      (∃ h ∈ r.intake.handed, h.howFull < h.values.length) ∧
      r.behindLoop ≠ targetPacket ticker :: later := by
  have wrong : ∀ r, getChallenge room
        (securities ++ challengePacket id :: targetPacket ticker :: later) = .ok r →
      none ∈ r.intake.handed.flatMap Handed.values ∧
      (∃ h ∈ r.intake.handed, h.howFull < h.values.length) ∧
      r.behindLoop ≠ targetPacket ticker :: later := by
    intro r done
    obtain ⟨chalBuffer, loop⟩ := get_challenge_loop done
    obtain ⟨ends, empty⟩ := loop_wrong some_room all loop
    exact ⟨empty, last_call_overcounts loop, fun same => ends (by rw [same]; rfl)⟩
  refine ⟨?_, wrong⟩
  rintro ⟨r, done, right⟩
  exact (wrong r done).2.2 right.loop_end

end Loop

theorem challenge_with_one_security :
    (¬ ∃ r, getChallenge 16 (["SEC|SEC0005|BID|64.642|ASK|65.0693".toList] ++
        challengePacket "7".toList :: targetPacket "SEC0005".toList :: []) = .ok r ∧
      r.TakesIn 16 ["SEC|SEC0005|BID|64.642|ASK|65.0693".toList] "7".toList
        "SEC0005".toList []) ∧
    ∀ r, getChallenge 16 (["SEC|SEC0005|BID|64.642|ASK|65.0693".toList] ++
        challengePacket "7".toList :: targetPacket "SEC0005".toList :: []) = .ok r →
      none ∈ r.intake.handed.flatMap Handed.values ∧
      (∃ h ∈ r.intake.handed, h.howFull < h.values.length) ∧
      r.behindLoop ≠ [targetPacket "SEC0005".toList] :=
  challenge_never_taken_in (by decide) (by decide)

/-- The security is taken for the challenge, and the challenge for the target. -/
theorem security_taken_for_challenge :
    ∃ r, getChallenge receiveRoom ["SEC|SEC0005|BID|64.642|ASK|65.0693".toList,
        challengePacket "7".toList, targetPacket "SEC0005".toList] = .ok r ∧
      r.challengeId = "BID|".toList ∧ r.ticker = "GE_ID:7".toList ∧
      r.intake.handed.map Handed.values = [[none]] ∧
      ¬ r.TakesIn receiveRoom ["SEC|SEC0005|BID|64.642|ASK|65.0693".toList] "7".toList
        "SEC0005".toList [] := by
  have done : getChallenge receiveRoom ["SEC|SEC0005|BID|64.642|ASK|65.0693".toList,
      challengePacket "7".toList, targetPacket "SEC0005".toList] =
        .ok ⟨"BID|".toList, "GE_ID:7".toList, Intake.start.hand 1,
          [challengePacket "7".toList, targetPacket "SEC0005".toList]⟩ := by rfl
  refine ⟨_, done, rfl, rfl, rfl, fun right => ?_⟩
  exact absurd right.challengeId (by decide)

structure TradeInterface where
  header : Text := "CHALLENGE_RESPONSE".toList
  challengeId : Text
  ticker : Text
  clientName : Text := "Group5".toList

def TradeInterface.response (s : TradeInterface) (submittedBid submittedAsk : Text) : Text :=
  s.header ++ [' '] ++ s.challengeId ++ [' '] ++ s.ticker ++ [' '] ++ submittedBid ++ [' '] ++
    submittedAsk ++ [' '] ++ s.clientName

def sendResponseSize : Nat := 55

section Response
variable {id : Int} {ticker submittedBid submittedAsk : Text}

theorem response_length (s : TradeInterface) : (s.response submittedBid submittedAsk).length =
    s.header.length + s.challengeId.length + s.ticker.length + submittedBid.length +
      submittedAsk.length + s.clientName.length + 5 := by
  simp only [TradeInterface.response, List.length_append, List.length_singleton]
  omega

/-- With its terminator the response fits as long as the digits of the identifier and the
    two prices take 18 characters together. -/
theorem response_fits_iff (first : 1 ≤ id) (seven : ticker.length = 7)
    (short_bid : submittedBid.length ≤ 7) (short_ask : submittedAsk.length ≤ 7) :
    (TradeInterface.response { challengeId := showInt id, ticker }
        submittedBid submittedAsk).length + 1 ≤ sendResponseSize ↔
      id < 10 ^ (18 - submittedBid.length - submittedAsk.length) := by
  have header : "CHALLENGE_RESPONSE".toList.length = 18 := rfl
  have name : "Group5".toList.length = 6 := rfl
  rw [← show_int_length_le (by omega) (by omega), response_length, seven, header, name,
    sendResponseSize]
  dsimp only
  constructor
  · intro fits
    omega
  · intro fits
    omega

end Response

theorem response_fits_to_9999 :
    (TradeInterface.response { challengeId := showInt 9999, ticker := "SEC0005".toList }
        "64.6421".toList "65.0693".toList).length + 1 ≤ sendResponseSize ↔
      (9999 : Int) < 10 ^ (18 - "64.6421".toList.length - "65.0693".toList.length) :=
  response_fits_iff (by decide) (by decide) (by decide) (by decide)

theorem response_too_long :
    ¬ (TradeInterface.response { challengeId := showInt 10000, ticker := "SEC0005".toList }
        "64.6421".toList "65.0693".toList).length + 1 ≤ sendResponseSize := by
  decide

end FinalProject
