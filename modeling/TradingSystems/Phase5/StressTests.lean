import TradingSystems.Library.Formats
import TradingSystems.Phase5.OptimizedOrderBook

/- The stress tests and the main program around them. Its inner loops declare an index of
   their own under the name of the outer one, so that every round measures the first size
   and the first book. What the generators draw is left open. -/
namespace Phase5
open Decimal Formats Newest
open Extraction (intMax)
variable {Price : Type}

abbrev Draws (Price : Type) := Nat → Price × Int

def orderName (i : Nat) : Text := "ORD".toList ++ digits i

def stressOrder (draws : Draws Price) (i : Nat) : Order Price Text :=
  ⟨orderName i, (draws i).1, (draws i).2, true⟩

def stressOrders (draws : Draws Price) (numOrders : Nat) : List (Order Price Text) :=
  (List.range numOrders).map (stressOrder draws)

def stressTestUnopt [DecidableEq Price] (book : OrderBook Price Text) (draws : Draws Price)
    (numOrders : Nat) : OrderBook Price Text :=
  (stressOrders draws numOrders).foldl
    (fun book o => book.addOrder o.id o.price o.quantity o.isBuy) book

def stressTestOpt (book : OptimizedOrderBook Price Text) (draws : Draws Price) (numOrders : Nat) :
    Except Fault (OptimizedOrderBook Price Text) :=
  book.processOrders (stressOrders draws numOrders)

/-- The runs on the unoptimised book; the inner index reads the sizes. -/
def measureUnopt [DecidableEq Price] (testSizes : List Nat) (draws : Nat → Draws Price)
    (numRuns : Nat) (book : OrderBook Price Text) : Except Fault (OrderBook Price Text) :=
  (List.range numRuns).foldlM (fun book i =>
    match testSizes[i]? with
    | some numOrders => .ok (stressTestUnopt book (draws i) numOrders)
    | none => .error .outOfBounds) book

/-- The runs on the optimised books; the inner index reads the sizes and the books. -/
def measureOpt (testSizes : List Nat) (draws : Nat → Draws Price) (numRuns : Nat)
    (optBooks : List (OptimizedOrderBook Price Text)) :
    Except Fault (List (OptimizedOrderBook Price Text)) :=
  (List.range numRuns).foldlM (fun optBooks i =>
    match testSizes[i]?, optBooks[i]? with
    | some numOrders, some book => do
      let book ← stressTestOpt book (draws i) numOrders
      return optBooks.set i book
    | _, _ => .error .outOfBounds) optBooks

def measure [DecidableEq Price] (testSizes : List Nat) (drawsU drawsO : Nat → Nat → Draws Price)
    (numRuns : Nat) (optBooks : List (OptimizedOrderBook Price Text)) (round : Nat × Nat) :
    Except Fault (List (OptimizedOrderBook Price Text)) := do
  let optBooks := optBooks ++ [.create (some round.1)]
  let _ ← measureUnopt testSizes (drawsU round.2) numRuns .create
  measureOpt testSizes (drawsO round.2) numRuns optBooks

def mainBooks [DecidableEq Price] (testSizes : List Nat) (drawsU drawsO : Nat → Nat → Draws Price)
    (numRuns : Nat) : Except Fault (List (OptimizedOrderBook Price Text)) :=
  testSizes.zipIdx.foldlM (measure testSizes drawsU drawsO numRuns) []

section Rounds
variable [DecidableEq Price] {size : Nat} {sizes : List Nat} {draws : Nat → Draws Price}
  {drawsU drawsO : Nat → Nat → Draws Price} {numRuns : Nat}
  {b : OptimizedOrderBook Price Text} {books : List (OptimizedOrderBook Price Text)}
  {received : List (Order Price Text)}

omit [DecidableEq Price] in
theorem measure_opt_once (books : List (OptimizedOrderBook Price Text)) :
    measureOpt (size :: sizes) draws 1 (b :: books) =
      (b.handleOrders (stressOrders (draws 0) size)).map (· :: books) := by
  simp only [measureOpt, List.range_one, List.foldlM_cons, List.foldlM_nil, stressTestOpt,
    process_orders_eq, List.getElem?_cons_zero, List.set_cons_zero]
  cases b.handleOrders (stressOrders (draws 0) size) <;> rfl

theorem measure_once {round : Nat × Nat} {rest : List (OptimizedOrderBook Price Text)}
    (pushed : books ++ [.create (some round.1)] = b :: rest) :
    measure (size :: sizes) drawsU drawsO 1 books round =
      (b.handleOrders (stressOrders (drawsO round.2 0) size)).map (· :: rest) := by
  rw [measure, pushed, measure_opt_once]
  rfl

omit [DecidableEq Price] in
theorem measure_opt_twice (more : 2 ≤ numRuns) :
    ∀ c, measureOpt (size :: sizes) draws numRuns [b] ≠ .ok c := by
  obtain ⟨k, rfl⟩ := Nat.exists_eq_add_of_le more
  intro c done
  have two : List.range 2 = [0, 1] := rfl
  rw [measureOpt, List.range_add, List.foldlM_append, two] at done
  simp only [List.foldlM_cons, List.foldlM_nil, List.getElem?_cons_zero, List.set_cons_zero] at done
  cases first : stressTestOpt b (draws 0) size with
  | error fault =>
    rw [first] at done
    cases done
  | ok d =>
    rw [first] at done
    cases second : sizes[0]? <;> simp [second, bind, Except.bind, pure, Except.pure] at done

theorem rounds_ring (sizes : List Nat) (drawsU drawsO : Nat → Nat → Draws Price)
    (small : size ≤ intMax) (rounds : List (Nat × Nat))
    (ring : Ring size received b) (rest : List (OptimizedOrderBook Price Text)) :
    ∃ c, rounds.foldlM (measure (size :: sizes) drawsU drawsO 1) (b :: rest) =
        .ok (c :: rest ++ rounds.map fun round => .create (some round.1)) ∧
      Ring size (received ++ rounds.flatMap fun round => stressOrders (drawsO round.2 0) size)
        c := by
  induction rounds generalizing b received rest with
  | nil => exact ⟨b, by simp; rfl, by simpa using ring⟩
  | cons round rounds ih =>
    obtain ⟨c, handled, next⟩ := handle_orders_ring (stressOrders (drawsO round.2 0) size) ring
      (.inl small)
    obtain ⟨d, done, last⟩ := ih next (rest ++ [.create (some round.1)])
    refine ⟨d, ?_, by simpa using last⟩
    rw [List.foldlM_cons, measure_once (List.cons_append), handled]
    simpa [Except.map, bind, Except.bind] using done

omit [DecidableEq Price] in
theorem newest_batch (batches : List (Order Price Text)) (numOrders : Nat) (draws : Draws Price) :
    newest numOrders (batches ++ stressOrders draws numOrders) = stressOrders draws numOrders := by
  have length : (stressOrders draws numOrders).length = numOrders := by simp [stressOrders]
  rw [newest, List.length_append, length, Nat.add_sub_cancel, List.drop_left]

theorem idle_rounds (rounds : List (Nat × Nat)) (testSizes : List Nat)
    (books : List (OptimizedOrderBook Price Text)) :
    rounds.foldlM (measure testSizes drawsU drawsO 0) books =
      .ok (books ++ rounds.map fun round => .create (some round.1)) := by
  induction rounds generalizing books with
  | nil => simp; rfl
  | cons round rounds ih =>
    have made : measure testSizes drawsU drawsO 0 books round =
        .ok (books ++ [.create (some round.1)]) := rfl
    have rest := ih (books ++ [.create (some round.1)])
    rw [List.append_assoc] at rest
    rw [List.foldlM_cons, made]
    exact rest

theorem busy_rounds (more : 2 ≤ numRuns) (books : List (OptimizedOrderBook Price Text)) :
    mainBooks (size :: sizes) drawsU drawsO numRuns ≠ .ok books := by
  intro done
  rw [mainBooks, List.zipIdx_cons, List.foldlM_cons, measure] at done
  cases unopt : measureUnopt (size :: sizes) (drawsU 0) numRuns .create with
  | error fault =>
    rw [unopt] at done
    cases done
  | ok book =>
    rw [unopt] at done
    cases opt : measureOpt (size :: sizes) (drawsO 0) numRuns [.create (some size)] with
    | error fault =>
      simp only [List.nil_append, opt] at done
      cases done
    | ok c => exact measure_opt_twice more c opt

omit [DecidableEq Price] in
theorem last_round (sizes : List Nat) (batch : Nat → List (Order Price Text)) :
    ∃ earlier, batch 0 ++ (sizes.zipIdx 1).flatMap (fun round => batch round.2) =
      earlier ++ batch sizes.length := by
  induction sizes using List.reverseRecOn with
  | nil => exact ⟨[], by simp⟩
  | append_singleton sizes n _ =>
    refine ⟨batch 0 ++ (sizes.zipIdx 1).flatMap fun round => batch round.2, ?_⟩
    simp [List.zipIdx_append, Nat.add_comm]

/-- The main program indexes nothing outside exactly when there is at most one run; with one
    run its first book ends with the orders of the last round alone, read from the oldest
    on, and its other books are empty. -/
theorem main_books (sizes : List Nat) (drawsU drawsO : Nat → Nat → Draws Price) (numRuns : Nat)
    (positive : 1 ≤ size) (small : size ≤ intMax) :
    ((∃ books, mainBooks (size :: sizes) drawsU drawsO numRuns = .ok books) ↔ numRuns ≤ 1) ∧
    ∃ b, mainBooks (size :: sizes) drawsU drawsO 1 =
        .ok (b :: sizes.map fun n => .create (some n)) ∧
      b.orderPool.rotate b.oldestOrder.toNat = stressOrders (drawsO sizes.length 0) size := by
  have filled : ∃ b, mainBooks (size :: sizes) drawsU drawsO 1 =
      .ok (b :: sizes.map fun n => .create (some n)) ∧
        b.orderPool.rotate b.oldestOrder.toNat = stressOrders (drawsO sizes.length 0) size := by
    obtain ⟨c, handled, first⟩ := handle_orders_ring (stressOrders (drawsO 0 0) size)
      (create_ring positive) (.inl small)
    obtain ⟨b, done, ring⟩ := rounds_ring sizes drawsU drawsO small (sizes.zipIdx 1) first []
    refine ⟨b, ?_, ?_⟩
    · rw [mainBooks, List.zipIdx_cons, List.foldlM_cons, measure_once (List.nil_append _), handled]
      have sized : (sizes.zipIdx 1).map (fun round => OptimizedOrderBook.create (some round.1)) =
          sizes.map fun n => (OptimizedOrderBook.create (some n) :
            OptimizedOrderBook Price Text) := by
        rw [← List.zipIdx_map_fst 1 sizes, List.map_map]
        simp [Function.comp_def]
      rw [← sized]
      exact done
    · obtain ⟨earlier, split⟩ := last_round sizes fun round => stressOrders (drawsO round 0) size
      rw [ring.window, List.nil_append, split, newest_batch]
  refine ⟨⟨?_, ?_⟩, filled⟩
  · rintro ⟨books, done⟩
    by_contra more
    exact busy_rounds (not_le.mp more) books done
  · intro few
    rcases Nat.le_one_iff_eq_zero_or_eq_one.mp few with rfl | rfl
    · exact ⟨_, idle_rounds _ _ []⟩
    · obtain ⟨b, done, -⟩ := filled
      exact ⟨_, done⟩

theorem main_books_two : ∃ b : OptimizedOrderBook Int Text,
    mainBooks [2, 3] (fun _ _ _ => (50, 1)) (fun round _ i => (60, 10 * round + i)) 1 =
        .ok [b, .create (some 3)] ∧
      (b.orderPool.rotate b.oldestOrder.toNat).map Order.quantity = [10, 11] := by
  obtain ⟨b, done, window⟩ := (main_books [3] (fun _ _ _ => ((50 : Int), 1))
    (fun round _ i => (60, 10 * round + i)) 1 (show 1 ≤ 2 by decide) (by decide)).2
  exact ⟨b, done, by rw [window]; rfl⟩

end Rounds
end Phase5
