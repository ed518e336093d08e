import TradingSystems.Library.CString
import TradingSystems.Library.Loops
import TradingSystems.Library.Runs

/- The buffer of the trade engine: three sections, of which the one at `startingIndex` is
   filled while the others should be cleared. The arrays have the sizes that the
   constructor computes. Sizes have no bound here; in the source a packet is at most a
   thousand. -/
namespace FinalProject
open Decimal Loops Runs CString

def bufferSpace : Int := 3

inductive Write where
  | buffer (i : Int)
  | map (i : Int)
  deriving DecidableEq

inductive Crash where
  | thrown (thrown : Thrown)
  | invalidDelete (clearIdx : Int)
  | nullString
  deriving DecidableEq

structure Buffer where
  packetSize : Int
  maxID : Int
  startingIndex : Int
  clearables : Int → Bool
  buffer : Int → Text
  map : Int → Text
  written : List Write

def tickerNumber (value : Text) : Except Thrown Int := do
  let number ← substr value 7
  stoi (number.take 4)

namespace Buffer

def create (packetSize maxID : Int) : Buffer where
  packetSize
  maxID
  startingIndex := 0
  clearables := fun _ => false
  buffer := fun _ => []
  map := fun _ => []
  written := []

def storeValue (s : Buffer) (place : Int) (value : Text) : Buffer :=
  { s with
    buffer := Function.update s.buffer place value
    written := s.written ++ [Write.buffer place] }

def mapValue (s : Buffer) (secIdx place : Int) : Buffer :=
  { s with
    map := Function.update s.map secIdx (s.buffer place)
    written := s.written ++ [Write.map secIdx] }

def receiveValue (s : Buffer) (value : Text) (index : Int) : Except Thrown Buffer := do
  let s := s.storeValue (s.startingIndex + index) value
  let secIdx ← tickerNumber value
  return s.mapValue secIdx (s.startingIndex + index)

def markSection (s : Buffer) (i : Int) : Buffer :=
  { s with clearables := Function.update s.clearables (i / s.packetSize) (i ≠ s.startingIndex) }

def markSections (s : Buffer) : Buffer :=
  (forBelow (bufferSpace * s.packetSize) s.packetSize (fun i s => s.markSection i) 0 s).2

-- The cells were made together, by one `new[]`: the address of one of them is no pointer
-- that `delete` takes.
def deleteCell (_ : Buffer) (clearIdx : Int) : Except Crash Unit :=
  .error (.invalidDelete clearIdx)

def assign (s : Buffer) (place : Int) : Option Text → Except Crash Buffer
  | none => .error .nullString
  | some value => .ok (s.storeValue place value)

def clearCell (s : Buffer) (clearIdx : Int) : Except Crash Buffer := do
  s.deleteCell clearIdx
  s.assign clearIdx none

def clearSection (s : Buffer) (i : Int) : Except Crash Buffer :=
  (forBelow s.packetSize 1 (fun j (r : Except Crash Buffer) => do
    let s ← r
    s.clearCell (i * s.packetSize + j)) 0 (.ok s)).2

def clearSections (s : Buffer) : Except Crash Buffer :=
  (forBelow bufferSpace 1 (fun i (r : Except Crash Buffer) => do
    let s ← r
    if s.clearables i then s.clearSection i else return s) 0 (.ok s)).2

def advance (s : Buffer) : Buffer :=
  let startingIndex := s.startingIndex + s.packetSize
  { s with
    startingIndex := if startingIndex > s.packetSize * bufferSpace then 0 else startingIndex }

def clearValues (s : Buffer) : Except Crash Buffer := do
  let s ← s.markSections.clearSections
  return s.advance

end Buffer

inductive Call where
  | receiveValue (value : Text) (index : Int)
  | clearValues
  deriving DecidableEq

def Buffer.act (s : Buffer) : Call → Except Crash Buffer
  | .receiveValue value index => (s.receiveValue value index).mapError .thrown
  | .clearValues => s.clearValues

def Buffer.Step (s : Buffer) (call : Call) (t : Buffer) : Prop := s.act call = .ok t

/-- The index is one of the packet, and the ticker has a number up to `maxID`. -/
def Call.Proper (packetSize maxID : Int) : Call → Prop
  | .receiveValue value index => (0 ≤ index ∧ index < packetSize) ∧
      ∃ number, tickerNumber value = .ok number ∧ 0 ≤ number ∧ number ≤ maxID
  | .clearValues => True

def Write.Inside (packetSize maxID : Int) : Write → Prop
  | .buffer i => 0 ≤ i ∧ i < packetSize * bufferSpace
  | .map i => 0 ≤ i ∧ i < maxID

namespace Buffer

structure InBounds (s : Buffer) : Prop where
  section_inside : 0 ≤ s.startingIndex ∧ s.startingIndex + s.packetSize ≤ s.packetSize * bufferSpace
  writes_inside : ∀ w ∈ s.written, w.Inside s.packetSize s.maxID

/-- The cell that `clearValues` ends the program at is not in the section in use. -/
def SparesSection (s : Buffer) : Prop :=
  ∀ clearIdx, s.clearValues = .error (.invalidDelete clearIdx) →
    ¬ (s.startingIndex ≤ clearIdx ∧ clearIdx < s.startingIndex + s.packetSize)

section Clearing
variable {s t : Buffer} {i : Int}

structure Marked (s : Buffer) (i : Int) (t : Buffer) : Prop where
  marks : ∃ k, 0 ≤ k ∧ i = k * s.packetSize ∧
    ∀ j, 0 ≤ j → j < k → t.clearables j = decide (j * s.packetSize ≠ s.startingIndex)
  same : t = { s with clearables := t.clearables }

theorem mark_section_marked (sized : 1 ≤ s.packetSize) (marked : Marked s i t) :
    Marked s (i + s.packetSize) (t.markSection i) := by
  obtain ⟨⟨k, nonneg, reached, marks⟩, same⟩ := marked
  have sizes : t.packetSize = s.packetSize ∧ t.startingIndex = s.startingIndex := by
    rw [same]
    exact ⟨rfl, rfl⟩
  have section_of : i / s.packetSize = k := by
    rw [reached]
    exact Int.mul_ediv_cancel k (by omega)
  refine ⟨⟨k + 1, by omega, by rw [reached, Int.add_mul, Int.one_mul], ?_⟩, ?_⟩
  · intro j low high
    simp only [markSection, sizes, section_of]
    by_cases here : j = k
    · rw [here, Function.update_self, reached]
    · rw [Function.update_of_ne here]
      exact marks j low (by omega)
  · rw [markSection, same]

theorem sections_marked (sized : 1 ≤ s.packetSize) :
    (∀ i, 0 ≤ i → i < bufferSpace →
      s.markSections.clearables i = decide (i * s.packetSize ≠ s.startingIndex)) ∧
      s.markSections = { s with clearables := s.markSections.clearables } := by
  have start : Marked s 0 s := ⟨⟨0, le_rfl, (Int.zero_mul _).symm, by omega⟩, rfl⟩
  obtain ⟨⟨⟨k, _, reached, marks⟩, same⟩, past⟩ :=
    for_below_rule (Marked s) (show 0 < s.packetSize by omega)
      (fun i t (_ : i < bufferSpace * s.packetSize) => mark_section_marked sized) start
  rw [reached] at past
  have passed : bufferSpace ≤ k := Int.le_of_mul_le_mul_right past (by omega)
  exact ⟨fun i low high => marks i low (high.trans_le passed), same⟩

theorem clear_section_faults (sized : 1 ≤ s.packetSize) :
    s.clearSection i = .error (.invalidDelete (i * s.packetSize)) := by
  have ended : s.clearSection i =
      if s.packetSize = 0 then .ok s else .error (.invalidDelete (i * s.packetSize)) := by
    refine count_rule (fun j (r : Except Crash Buffer) =>
      r = if j = 0 then .ok s else .error (.invalidDelete (i * s.packetSize))) ?_ (by omega) rfl
    rintro j _ low high rfl
    rw [if_neg (by omega : j + 1 ≠ 0)]
    split
    · rename_i first
      change s.clearCell (i * s.packetSize + j) = _
      rw [first, add_zero]
      rfl
    · rfl
  rwa [if_neg (by omega)] at ended

theorem clear_sections_faults (sized : 1 ≤ s.packetSize)
    (marks : ∀ i, 0 ≤ i → i < bufferSpace →
      s.clearables i = decide (i * s.packetSize ≠ s.startingIndex)) :
    ∃ i, i * s.packetSize ≠ s.startingIndex ∧
      s.clearSections = .error (.invalidDelete (i * s.packetSize)) := by
  have ended : (s.clearSections = .ok s ∧
      ∀ i, 0 ≤ i → i < bufferSpace → i * s.packetSize = s.startingIndex) ∨
      ∃ i, i * s.packetSize ≠ s.startingIndex ∧
        s.clearSections = .error (.invalidDelete (i * s.packetSize)) := by
    refine count_rule (fun j (r : Except Crash Buffer) =>
      (r = .ok s ∧ ∀ i, 0 ≤ i → i < j → i * s.packetSize = s.startingIndex) ∨
      ∃ i, i * s.packetSize ≠ s.startingIndex ∧ r = .error (.invalidDelete (i * s.packetSize)))
      ?_ (by decide) (.inl ⟨rfl, fun i nonneg below => by omega⟩)
    rintro j _ low high (⟨rfl, used⟩ | ⟨i, differ, rfl⟩)
    · change ((if s.clearables j then s.clearSection j else .ok s) = _ ∧ _) ∨ ∃ i, _ ∧
        (if s.clearables j then s.clearSection j else .ok s) = _
      rw [marks j low high]
      by_cases here : j * s.packetSize = s.startingIndex
      · refine .inl ⟨if_neg (by simp [here]), fun i nonneg below => ?_⟩
        obtain rfl | earlier : i = j ∨ i < j := by omega
        · exact here
        · exact used i nonneg earlier
      · exact .inr ⟨j, here, (if_pos (by simp [here])).trans (clear_section_faults sized)⟩
    · exact .inr ⟨i, differ, rfl⟩
  -- two sections cannot both be the one in use
  obtain ⟨_, used⟩ | faults := ended
  · have first := used 0 le_rfl (by decide)
    have second := used 1 (by decide) (by decide)
    omega
  · exact faults

/-- No call of `clearValues` returns: it ends in a section that is not in use. -/
theorem clear_values_faults (sized : 1 ≤ s.packetSize) :
    ∃ i, i * s.packetSize ≠ s.startingIndex ∧
      s.clearValues = .error (.invalidDelete (i * s.packetSize)) := by
  obtain ⟨marks, same⟩ := sections_marked sized
  have sizes : s.markSections.packetSize = s.packetSize ∧
      s.markSections.startingIndex = s.startingIndex := by
    rw [same]
    exact ⟨rfl, rfl⟩
  rw [← sizes.1, ← sizes.2] at marks
  obtain ⟨i, differ, faults⟩ := clear_sections_faults (sizes.1 ▸ sized) marks
  rw [sizes.1, sizes.2] at differ
  rw [sizes.1] at faults
  refine ⟨i, differ, ?_⟩
  rw [clearValues, faults]
  rfl

theorem section_spared {c : Int} (sized : 1 ≤ s.packetSize)
    (place : s.startingIndex = c * s.packetSize) : s.SparesSection := by
  rintro clearIdx ended ⟨low, high⟩
  obtain ⟨i, differ, faults⟩ := clear_values_faults sized
  cases faults.symm.trans ended
  rw [place] at low high differ
  have inside : c * s.packetSize + (i - c) * s.packetSize = i * s.packetSize := by
    rw [← Int.add_mul, add_sub_cancel]
  have row : (c * s.packetSize + (i - c) * s.packetSize) / s.packetSize = c :=
    place_row (by omega) (by omega)
  rw [inside, Int.mul_ediv_cancel i (by omega)] at row
  exact differ (congrArg (· * s.packetSize) row)

end Clearing

section Calls
variable {s t : Buffer} {value : Text} {index number packetSize maxID : Int} {calls : List Call}

theorem receive_value_ok (read : tickerNumber value = .ok number) :
    s.receiveValue value index =
      .ok ((s.storeValue (s.startingIndex + index) value).mapValue number
        (s.startingIndex + index)) := by
  simp only [receiveValue, read]
  rfl

theorem receive_step (read : tickerNumber value = .ok number) :
    s.Step (.receiveValue value index)
      ((s.storeValue (s.startingIndex + index) value).mapValue number
        (s.startingIndex + index)) := by
  rw [Step, act, receive_value_ok read]
  rfl

theorem receive_step_cases (step : s.Step (.receiveValue value index) t) :
    ∃ number, tickerNumber value = .ok number ∧
      t = (s.storeValue (s.startingIndex + index) value).mapValue number
        (s.startingIndex + index) := by
  cases read : tickerNumber value with
  | error thrown =>
    rw [Step, act, receiveValue, read] at step
    cases step
  | ok number =>
    rw [Step, show _ = _ from receive_step read] at step
    cases step
    exact ⟨number, rfl, rfl⟩

theorem clear_no_step (sized : 1 ≤ s.packetSize) : ¬ s.Step .clearValues t := by
  intro step
  obtain ⟨_, _, faults⟩ := clear_values_faults sized
  cases faults.symm.trans step

theorem receive_in_bounds (bounds : s.InBounds) (low : 0 ≤ index) (high : index < s.packetSize)
    (nonneg : 0 ≤ number) (below : number < s.maxID) :
    ((s.storeValue (s.startingIndex + index) value).mapValue number
      (s.startingIndex + index)).InBounds := by
  obtain ⟨first, last⟩ := bounds.section_inside
  have place : 0 ≤ s.startingIndex + index ∧
      s.startingIndex + index < s.packetSize * bufferSpace := by omega
  exact ⟨⟨first, last⟩, all_snoc (all_snoc bounds.writes_inside place) ⟨nonneg, below⟩⟩

end Calls

def Sparing (maxID : Int) (calls : List Call) : Prop :=
  .clearValues ∉ calls ∧
    ∀ value index, .receiveValue value index ∈ calls → tickerNumber value ≠ .ok maxID

structure First (packetSize maxID : Int) (s : Buffer) : Prop where
  packet : s.packetSize = packetSize
  largest : s.maxID = maxID
  place : s.startingIndex = 0

section History
variable {packetSize maxID : Int} {s t : Buffer} {call : Call} {calls : List Call}

theorem step_first (sized : 1 ≤ packetSize) (step : s.Step call t)
    (first : First packetSize maxID s) : First packetSize maxID t := by
  cases call with
  | receiveValue value index =>
    obtain ⟨number, _, rfl⟩ := receive_step_cases step
    exact ⟨first.packet, first.largest, first.place⟩
  | clearValues => exact absurd step (clear_no_step (first.packet ▸ sized))

theorem step_in_bounds (sized : 1 ≤ packetSize) (step : s.Step call t)
    (first : First packetSize maxID s) (proper : call.Proper packetSize maxID)
    (small : ∀ value index, call = .receiveValue value index → tickerNumber value ≠ .ok maxID)
    (bounds : s.InBounds) : t.InBounds := by
  cases call with
  | receiveValue value index =>
    obtain ⟨number, read, rfl⟩ := receive_step_cases step
    obtain ⟨⟨low, high⟩, number', read', nonneg, most⟩ := proper
    cases read.symm.trans read'
    have not_largest : number ≠ maxID := by
      rintro rfl
      exact small value index rfl read
    rw [← first.packet] at high
    rw [← first.largest] at most not_largest
    exact receive_in_bounds bounds low high nonneg (by omega)
  | clearValues => exact absurd step (clear_no_step (first.packet ▸ sized))

theorem create_in_bounds (sized : 1 ≤ packetSize) : (create packetSize maxID).InBounds := by
  refine ⟨⟨le_rfl, ?_⟩, by simp [create]⟩
  change 0 + packetSize ≤ packetSize * 3
  omega

theorem run_first (sized : 1 ≤ packetSize) (run : Run Step (create packetSize maxID) calls s) :
    First packetSize maxID s :=
  run_invariant (First packetSize maxID) (step_first sized) run ⟨rfl, rfl, rfl⟩

/-- Whatever a run has reached, before it ends early or not, is inside. -/
theorem run_in_bounds (sized : 1 ≤ packetSize) (run : Run Step (create packetSize maxID) calls s)
    (proper : ∀ call ∈ calls, call.Proper packetSize maxID)
    (small : ∀ value index, .receiveValue value index ∈ calls → tickerNumber value ≠ .ok maxID) :
    s.InBounds := by
  induction run with
  | nil => exact create_in_bounds sized
  | snoc before last ih =>
    simp only [List.mem_append, List.mem_singleton] at proper small
    refine step_in_bounds sized last (run_first sized before) (proper _ (.inr rfl))
      (fun value index same => small value index (.inr same.symm)) (ih ?_ ?_)
    · exact fun call member => proper call (.inl member)
    · exact fun value index member => small value index (.inl member)

theorem proper_run (proper : ∀ call ∈ calls, call.Proper packetSize maxID)
    (kept : .clearValues ∉ calls) (s : Buffer) : ∃ t, Run Step s calls t := by
  induction calls generalizing s with
  | nil => exact ⟨s, Run.nil s⟩
  | cons call calls ih =>
    cases call with
    | receiveValue value index =>
      obtain ⟨_, number, read, _⟩ := proper _ (List.mem_cons_self ..)
      obtain ⟨t, run⟩ := ih (fun c member => proper c (List.mem_cons_of_mem _ member))
        (fun member => kept (List.mem_cons_of_mem _ member)) _
      exact ⟨t, run_cons (receive_step read) run⟩
    | clearValues => exact absurd (List.mem_cons_self ..) kept

theorem run_calls (sized : 1 ≤ packetSize) (run : Run Step (create packetSize maxID) calls s) :
    .clearValues ∉ calls ∧ ∀ value index number, .receiveValue value index ∈ calls →
      tickerNumber value = .ok number → .map number ∈ s.written := by
  induction run with
  | nil => exact ⟨List.not_mem_nil, fun _ _ _ member => absurd member List.not_mem_nil⟩
  | @snoc s t calls call before last ih =>
    obtain ⟨kept, mapped⟩ := ih
    cases call with
    | receiveValue value index =>
      obtain ⟨number, read, rfl⟩ := receive_step_cases last
      refine ⟨by simpa using kept, fun value' index' number' member read' => ?_⟩
      rcases List.mem_append.mp member with earlier | here
      · exact List.mem_append_left _ (List.mem_append_left _
          (mapped value' index' number' earlier read'))
      · cases List.mem_singleton.mp here
        cases read.symm.trans read'
        exact List.mem_append_right _ (List.mem_singleton_self _)
    | clearValues =>
      exact absurd last (clear_no_step ((run_first sized before).packet ▸ sized))

/-- Every call of the run returns, with all in bounds and the section in use spared,
    exactly when there is no clearing and no ticker has the largest number. -/
theorem rotation_in_bounds_iff (sized : 1 ≤ packetSize)
    (proper : ∀ call ∈ calls, call.Proper packetSize maxID) :
    (∀ before after, calls = before ++ after →
      ∃ s, Run Step (create packetSize maxID) before s ∧ s.InBounds ∧ s.SparesSection) ↔
      Sparing maxID calls := by
  constructor
  · intro good
    obtain ⟨s, run, bounds, _⟩ := good calls [] (List.append_nil calls).symm
    obtain ⟨kept, mapped⟩ := run_calls sized run
    refine ⟨kept, fun value index member largest => ?_⟩
    have inside := bounds.writes_inside _ (mapped value index maxID member largest)
    rw [(run_first sized run).largest] at inside
    exact lt_irrefl _ inside.2
  · rintro ⟨kept, small⟩ before after rfl
    have proper' : ∀ call ∈ before, call.Proper packetSize maxID :=
      fun call member => proper call (List.mem_append_left _ member)
    obtain ⟨s, run⟩ := proper_run proper' (fun member => kept (List.mem_append_left _ member))
      (create packetSize maxID)
    have first := run_first sized run
    refine ⟨s, run, run_in_bounds sized run proper' fun value index member =>
      small value index (List.mem_append_left _ member), ?_⟩
    exact section_spared (first.packet ▸ sized) (first.place.trans (Int.zero_mul _).symm)

end History

theorem rotation_in_bounds_received : ∃ s, Run Step (create 10 9999)
    [.receiveValue "SEC|SEC0005|BID|64.642|ASK|65.0693".toList 0,
      .receiveValue "SEC|SEC9998|BID|0.5|ASK|0.75".toList 9] s ∧ s.InBounds ∧ s.SparesSection := by
  have first : tickerNumber "SEC|SEC0005|BID|64.642|ASK|65.0693".toList = .ok 5 := by rfl
  have last : tickerNumber "SEC|SEC9998|BID|0.5|ASK|0.75".toList = .ok 9998 := by rfl
  refine (rotation_in_bounds_iff (by decide) ?_).mpr ⟨by decide, ?_⟩ _ [] (List.append_nil _).symm
  · simp only [List.mem_cons, List.not_mem_nil, or_false, forall_eq_or_imp, forall_eq]
    exact ⟨⟨by decide, 5, first, by decide⟩, ⟨by decide, 9998, last, by decide⟩⟩
  · simp only [List.mem_cons, List.not_mem_nil, or_false, Call.receiveValue.injEq]
    rintro value index (⟨rfl, -⟩ | ⟨rfl, -⟩) largest
    · cases first.symm.trans largest
    · cases last.symm.trans largest

/-- The first clearing does not return, and a ticker with the number 9999 is stored
    behind the map. -/
theorem rotation_out_of_bounds :
    (create 10 9999).clearValues = .error (.invalidDelete 10) ∧
    (Call.receiveValue "SEC|SEC9999|BID|64.642|ASK|65.0693".toList 0).Proper 10 9999 ∧
    ∃ s, (create 10 9999).Step (.receiveValue "SEC|SEC9999|BID|64.642|ASK|65.0693".toList 0) s ∧
      .map 9999 ∈ s.written ∧ ¬ (Write.map 9999).Inside 10 9999 := by
  have read : tickerNumber "SEC|SEC9999|BID|64.642|ASK|65.0693".toList = .ok 9999 := by rfl
  refine ⟨by rfl, ⟨by decide, 9999, read, by decide⟩, _, receive_step read, ?_, ?_⟩
  · exact List.mem_append_right _ (List.mem_singleton_self _)
  · exact fun inside => absurd inside.2 (by decide)

end Buffer
end FinalProject
