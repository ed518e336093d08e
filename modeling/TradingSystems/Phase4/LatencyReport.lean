import TradingSystems.Library.Summary
import TradingSystems.Library.Binary64
import TradingSystems.Phase4.TickLoop

/- The latency driver with its clock, and the figures that it prints. The mean and the
   variance are exact here; the position of P99 is computed in doubles as the driver does.
   The latencies are not sorted before P99 is looked up, so it is the latency of one
   particular tick and may be any of them. -/
namespace Phase4
open Runs Summary Binary64 Decimal
variable {Price Id : Type}

structure LatencyReport where
  min : Int
  max : Int
  mean : ℚ
  variance : ℚ -- the square of the printed deviation
  p99 : Int

def p99Position (size : Nat) : Int :=
  ⌊binary64 (binary64 size * binary64 (99 / 100))⌋

/-- What is printed; `none` without latencies, and where P99 is not one of them. -/
def analyzeLatencies (latencies : List Int) : Option LatencyReport :=
  if latencies.isEmpty then none
  else do
    let min ← latencies.min?
    let max ← latencies.max?
    let doubles : List ℚ := latencies.map Int.cast
    let position := p99Position latencies.length
    let p99 ← if 0 ≤ position ∧ position ≤ intMax then latencies[position.toNat]? else none
    some { min, max, mean := mean doubles, variance := variance doubles, p99 }

structure TimedTick (Price Id : Type) where
  t0 : Int
  tick : Tick Price Id
  t1 : Int

structure LatencyTest (Price Id : Type) where
  loop : TickLoop Price Id
  latencies : List Int

namespace LatencyTest

def create (layout : Layout) (poolSize : Nat) : LatencyTest Price Id :=
  ⟨.create layout poolSize, []⟩

def Step [LinearOrder Price] [DecidableEq Id] (s : LatencyTest Price Id)
    (e : TimedTick Price Id) (t : LatencyTest Price Id) : Prop :=
  s.loop.Step e.tick t.loop ∧ t.latencies = s.latencies ++ [e.t1 - e.t0]

end LatencyTest

section Position
variable {q : ℚ} {n : Nat}

theorem p99_position_inside (some_latency : 0 < n) :
    0 ≤ p99Position n ∧ p99Position n < n := by
  have one : (1 : ℚ) ≤ n := by exact_mod_cast some_latency
  have size := binary64_le (q := n) (by linarith)
  have size_nonneg := binary64_nonneg (q := n) (by linarith)
  have factor := binary64_le (q := 99 / 100) (by norm_num)
  have factor_nonneg := binary64_nonneg (q := 99 / 100) (by norm_num)
  have product_nonneg := mul_nonneg size_nonneg factor_nonneg
  have product := binary64_le product_nonneg
  unfold p99Position
  constructor
  · exact Int.floor_nonneg.mpr (binary64_nonneg product_nonneg)
  · rw [Int.floor_lt]
    have bounded : binary64 n * binary64 (99 / 100) ≤
        1002 / 1000 * n * (992 / 1000) :=
      mul_le_mul (by linarith) (by linarith) factor_nonneg (by positivity)
    push_cast
    linarith

end Position

section Reports
variable {latencies : List Int} {a : LatencyReport}

theorem analyzed (some_latency : latencies ≠ []) (few : latencies.length ≤ intMax) :
    ∃ a, analyzeLatencies latencies = some a ∧ latencies.min? = some a.min ∧
      latencies.max? = some a.max ∧ a.mean = mean (latencies.map Int.cast) ∧
      a.variance = variance (latencies.map Int.cast) ∧
      latencies[(p99Position latencies.length).toNat]? = some a.p99 := by
  obtain ⟨least, low⟩ := Option.isSome_iff_exists.mp (List.isSome_min?_of_ne_nil some_latency)
  obtain ⟨greatest, high⟩ := Option.isSome_iff_exists.mp (List.isSome_max?_of_ne_nil some_latency)
  obtain ⟨start, inside⟩ := p99_position_inside (List.length_pos_iff.mpr some_latency)
  have place : (p99Position latencies.length).toNat < latencies.length := by omega
  have range : 0 ≤ p99Position latencies.length ∧ p99Position latencies.length ≤ intMax :=
    ⟨start, by omega⟩
  have filled : latencies.isEmpty = false := by simpa using some_latency
  unfold analyzeLatencies
  rw [filled]
  simp [low, high, range, List.getElem?_eq_getElem place]

theorem report_reordered {others : List Int} (same : others.Perm latencies)
    (few : latencies.length ≤ intMax) (report : analyzeLatencies latencies = some a) {x : Int}
    (placed : others[(p99Position latencies.length).toNat]? = some x) :
    analyzeLatencies others = some { a with p99 := x } := by
  have some_latency : latencies ≠ [] := by
    intro empty
    rw [empty] at report
    cases report
  have some_other : others ≠ [] := fun empty => some_latency (by simpa [empty] using same.symm)
  obtain ⟨a', reported, low, high, average, spread, -⟩ := analyzed some_latency few
  rw [report] at reported
  cases reported
  obtain ⟨b, other, low', high', average', spread', at_place⟩ :=
    analyzed some_other (same.length_eq ▸ few)
  have doubles := same.map (Int.cast : Int → ℚ)
  rw [min_perm same, low] at low'
  rw [max_perm same, high] at high'
  rw [mean_perm doubles, ← average] at average'
  rw [variance_perm doubles, ← spread] at spread'
  rw [same.length_eq, placed] at at_place
  rw [other]
  cases b
  simp_all

end Reports

section Tests
variable [LinearOrder Price] [DecidableEq Id] {layout : Layout} {poolSize : Nat}
  {events : List (TimedTick Price Id)} {s : LatencyTest Price Id}

theorem test_latencies (run : Run LatencyTest.Step (.create layout poolSize) events s) :
    s.latencies = events.map fun e => e.t1 - e.t0 := by
  refine run_history (fun ls t => t.latencies = ls.map fun e => e.t1 - e.t0) ?_ run rfl
  intro ls s e t step so_far
  rw [step.2, so_far, List.map_append]
  rfl

/-- In every run whose clock does not go back within a tick there is one latency for each
    tick and the figures lie in order. P99 has the rank that it should have if the latencies
    came in ascending order, but it can be any of them: in another order the same latencies
    give the same other figures with that one for P99. -/
theorem latencies_analyzed (run : Run LatencyTest.Step (.create layout poolSize) events s)
    (forward : ∀ e ∈ events, e.t0 ≤ e.t1) (some_tick : events ≠ [])
    (few : events.length ≤ intMax) :
    ∃ a, analyzeLatencies s.latencies = some a ∧ s.latencies.length = events.length ∧
      0 ≤ a.min ∧ a.min ≤ a.p99 ∧ a.p99 ≤ a.max ∧ a.min ≤ a.mean ∧ a.mean ≤ a.max ∧
      a.variance ≤ (a.max - a.mean) * (a.mean - a.min) ∧
      (s.latencies.Pairwise (· ≤ ·) →
        nthElement s.latencies (p99Position s.latencies.length).toNat = some a.p99) ∧
      ∀ x ∈ s.latencies, ∃ others : List Int, others.Perm s.latencies ∧
        analyzeLatencies others = some { a with p99 := x } := by
  have each := test_latencies run
  have length : s.latencies.length = events.length := by rw [each, List.length_map]
  have some_latency : s.latencies ≠ [] := by simpa [each] using some_tick
  have short : s.latencies.length ≤ intMax := length ▸ few
  obtain ⟨a, report, least, greatest, average, spread, at_place⟩ := analyzed some_latency short
  obtain ⟨attained, low⟩ := min_bounds least
  obtain ⟨-, high⟩ := max_bounds greatest
  have inside := List.mem_of_getElem? at_place
  have some_double : s.latencies.map (Int.cast : Int → ℚ) ≠ [] := by
    rwa [ne_eq, List.map_eq_nil_iff]
  have low_double : ∀ x ∈ s.latencies.map (Int.cast : Int → ℚ), (a.min : ℚ) ≤ x :=
    List.forall_mem_map.mpr fun l member => Int.cast_le.mpr (low l member)
  have high_double : ∀ x ∈ s.latencies.map (Int.cast : Int → ℚ), x ≤ (a.max : ℚ) :=
    List.forall_mem_map.mpr fun l member => Int.cast_le.mpr (high l member)
  refine ⟨a, report, length, ?_, low _ inside, high _ inside, ?_, ?_, ?_, fun ordered => ?_,
    fun x member => ?_⟩
  · rw [each, List.mem_map] at attained
    obtain ⟨e, member, same⟩ := attained
    have later := forward e member
    omega
  · rw [average]
    exact le_mean some_double low_double
  · rw [average]
    exact mean_le some_double high_double
  · rw [average, spread]
    exact variance_le some_double low_double high_double
  · rw [nthElement, ordered.insertionSort_eq]
    exact at_place
  · have place := (p99_position_inside (List.length_pos_iff.mpr some_latency)).2
    have start := (p99_position_inside (List.length_pos_iff.mpr some_latency)).1
    obtain ⟨others, same, placed⟩ := placed_anywhere member
      (show (p99Position s.latencies.length).toNat < s.latencies.length by omega)
    exact ⟨others, same, report_reordered same short report placed⟩

end Tests

theorem latencies_analyzed_two : ∃ s : LatencyTest Int Nat, s.latencies = [5, 2] ∧ ∃ a others,
    analyzeLatencies s.latencies = some a ∧ others.Perm [5, 2] ∧
      analyzeLatencies others = some { a with p99 := 5 } := by
  have ran : ∃ t u, ((TickLoop.create ⟨4096, 64, by decide⟩ 4 : TickLoop Int Nat).body 4
        ⟨0, "AAPL", 100, 10, true⟩).toOption = some t ∧
      (t.body 4 ⟨1, "AAPL", 90, 4, false⟩).toOption = some u := ⟨_, _, rfl, rfl⟩
  obtain ⟨t, u, first, second⟩ := ran
  have run : Run LatencyTest.Step (.create ⟨4096, 64, by decide⟩ 4)
      [⟨0, ⟨0, "AAPL", 100, 10, true⟩, 5⟩, ⟨7, ⟨1, "AAPL", 90, 4, false⟩, 9⟩] ⟨u, [5, 2]⟩ :=
    run_cons (t := ⟨t, [5]⟩) ⟨step_of_body first, rfl⟩ (run_one ⟨step_of_body second, rfl⟩)
  obtain ⟨a, report, -, -, -, -, -, -, -, -, any⟩ :=
    latencies_analyzed run (by decide) (by decide) (by decide)
  obtain ⟨others, same, reordered⟩ := any 5 (by simp)
  exact ⟨_, rfl, a, others, report, same, reordered⟩

end Phase4
