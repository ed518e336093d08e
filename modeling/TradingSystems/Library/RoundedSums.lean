import Mathlib.Algebra.BigOperators.Fin
import Mathlib.Algebra.BigOperators.Group.Multiset.Basic
import Mathlib.Algebra.BigOperators.Intervals
import Mathlib.Algebra.Order.BigOperators.Group.Multiset
import Mathlib.Algebra.Order.Ring.Abs
import Mathlib.Tactic.Abel
import Mathlib.Tactic.Linarith
import Mathlib.Tactic.Ring

/- Sums of products in an arithmetic that may round its results. A tally says in which order
   the operations come; its terms do not depend on that order, its value may. -/
namespace RoundedSums

/-- What an arithmetic makes of `x + y` and of `x + a * b`. -/
structure Arithmetic (K : Type) where
  add : K → K → K
  addProduct : K → K → K → K

section Operations
variable {K : Type} [CommRing K]

def unrounded : Arithmetic K where
  add x y := x + y
  addProduct x a b := x + a * b

def rounded (round : K → K) : Arithmetic K where
  add x y := round (x + y)
  addProduct x a b := round (x + round (a * b))

/-- The product is added before it is rounded. -/
def fused (round : K → K) : Arithmetic K where
  add x y := round (x + y)
  addProduct x a b := round (x + a * b)

end Operations

inductive Tally (K : Type) where
  | nothing
  | product (before : Tally K) (a b : K)
  | sum (left right : Tally K)

namespace Tally
variable {K : Type}

def value [Zero K] (ops : Arithmetic K) : Tally K → K
  | nothing => 0
  | product before a b => ops.addProduct (before.value ops) a b
  | sum left right => ops.add (left.value ops) (right.value ops)

def terms : Tally K → Multiset (K × K)
  | nothing => 0
  | product before a b => before.terms + {(a, b)}
  | sum left right => left.terms + right.terms

/-- How many roundings may lie between a factor and the value. -/
def depth : Tally K → Nat
  | nothing => 0
  | product before _ _ => max before.depth 1 + 1
  | sum left right => max left.depth right.depth + 1

def roundings : Tally K → Nat
  | nothing => 0
  | product before _ _ => before.roundings + 1 + 1
  | sum left right => left.roundings + right.roundings + 1

def upTo (before : Tally K) (f g : Nat → K) : Nat → Tally K
  | 0 => before
  | n + 1 => (before.upTo f g n).product (f n) (g n)

def lane (f g : Nat → K) (k : Nat) : Nat → Tally K :=
  nothing.upTo (fun t => f (4 * t + k)) (fun t => g (4 * t + k))

/-- Four sums that grow side by side and are added up at the end. -/
def lanes (f g : Nat → K) (n : Nat) : Tally K :=
  (((lane f g 0 n).sum (lane f g 1 n)).sum (lane f g 2 n)).sum (lane f g 3 n)

def unrolled (f g : Nat → K) (n : Nat) : Tally K :=
  (lanes f g (n / 4)).upTo (fun k => f (4 * (n / 4) + k)) (fun k => g (4 * (n / 4) + k)) (n % 4)

section Shape
variable {before : Tally K} {f g : Nat → K}

theorem up_to_congr {f' g' : Nat → K} {n : Nat} (left : ∀ i < n, f i = f' i)
    (right : ∀ i < n, g i = g' i) : before.upTo f g n = before.upTo f' g' n := by
  induction n with
  | zero => rfl
  | succ n ih =>
    rw [upTo, upTo, ih (fun i below => left i (by omega)) (fun i below => right i (by omega)),
      left n (by omega), right n (by omega)]

theorem up_to_terms (n : Nat) :
    (before.upTo f g n).terms = before.terms + ∑ i ∈ Finset.range n, {(f i, g i)} := by
  induction n with
  | zero => simp [upTo]
  | succ n ih => rw [upTo, terms, ih, Finset.sum_range_succ, add_assoc]

theorem up_to_depth (n : Nat) : (before.upTo f g n).depth ≤ max before.depth 1 + n := by
  induction n with
  | zero => exact le_max_left _ _
  | succ n ih =>
    rw [upTo, depth]
    omega

theorem up_to_roundings (n : Nat) :
    (before.upTo f g n).roundings = before.roundings + 2 * n := by
  induction n with
  | zero => rfl
  | succ n ih =>
    rw [upTo, roundings, ih]
    omega

theorem lanes_terms (n : Nat) :
    (lanes f g n).terms = ∑ i ∈ Finset.range (4 * n), {(f i, g i)} := by
  simp only [lanes, lane, terms, up_to_terms, zero_add]
  induction n with
  | zero => rfl
  | succ n ih =>
    rw [show 4 * (n + 1) = 4 * n + 1 + 1 + 1 + 1 by omega]
    simp only [Finset.sum_range_succ, ← ih, add_zero]
    abel

theorem unrolled_terms (n : Nat) :
    (unrolled f g n).terms = ∑ i ∈ Finset.range n, {(f i, g i)} := by
  rw [unrolled, up_to_terms, lanes_terms, ← Finset.sum_range_add, Nat.div_add_mod]

theorem unrolled_depth (n : Nat) : (unrolled f g n).depth ≤ n / 4 + n % 4 + 4 := by
  have lane_depth (k : Nat) : (lane f g k (n / 4)).depth ≤ 1 + n / 4 := up_to_depth _
  have first := lane_depth 0
  have second := lane_depth 1
  have third := lane_depth 2
  have fourth := lane_depth 3
  refine (up_to_depth _).trans ?_
  simp only [lanes, depth]
  omega

theorem unrolled_roundings (n : Nat) : (unrolled f g n).roundings = 2 * n + 3 := by
  simp only [unrolled, lanes, lane, up_to_roundings, roundings]
  omega

theorem unrolled_congr {f' g' : Nat → K} {n : Nat} (left : ∀ i < n, f i = f' i)
    (right : ∀ i < n, g i = g' i) : unrolled f g n = unrolled f' g' n := by
  have lane_congr (k : Nat) (low : k < 4) : lane f g k (n / 4) = lane f' g' k (n / 4) :=
    up_to_congr (fun i below => left _ (by omega)) (fun i below => right _ (by omega))
  unfold unrolled lanes
  rw [lane_congr 0 (by decide), lane_congr 1 (by decide), lane_congr 2 (by decide),
    lane_congr 3 (by decide)]
  exact up_to_congr (fun i below => left _ (by omega)) (fun i below => right _ (by omega))

end Shape

section Values
variable [CommRing K]

theorem unrounded_value (t : Tally K) :
    t.value unrounded = (t.terms.map fun term => term.1 * term.2).sum := by
  induction t with
  | nothing => rfl
  | product before a b ih =>
    rw [terms, Multiset.map_add, Multiset.sum_add, Multiset.map_singleton, Multiset.sum_singleton,
      ← ih]
    rfl
  | sum left right left_ih right_ih =>
    rw [terms, Multiset.map_add, Multiset.sum_add, ← left_ih, ← right_ih]
    rfl

end Values
end Tally

section Errors
variable {K : Type} [CommRing K] [LinearOrder K] [IsStrictOrderedRing K] {u η : K}
  {ops : Arithmetic K}

/-- Every result is rounded with the relative error `u` and the absolute error `η`; the product
    may or may not have a rounding of its own. -/
structure Within (u η : K) (ops : Arithmetic K) : Prop where
  add : ∀ x y, |ops.add x y - (x + y)| ≤ u * |x + y| + η
  product : ∀ x a b, ∃ p, |p - a * b| ≤ u * |a * b| + η ∧
    |ops.addProduct x a b - (x + p)| ≤ u * |x + p| + η

omit [IsStrictOrderedRing K] in
theorem rounded_within {round : K → K} (near : ∀ x, |round x - x| ≤ u * |x| + η) :
    Within u η (rounded round) where
  add x y := near (x + y)
  product x a b := ⟨round (a * b), near (a * b), near (x + round (a * b))⟩

theorem fused_within {round : K → K} (near : ∀ x, |round x - x| ≤ u * |x| + η) (u_nonneg : 0 ≤ u)
    (η_nonneg : 0 ≤ η) : Within u η (fused round) where
  add x y := near (x + y)
  product x a b := by
    refine ⟨a * b, ?_, near (x + a * b)⟩
    rw [sub_self, abs_zero]
    exact add_nonneg (mul_nonneg u_nonneg (abs_nonneg _)) η_nonneg

/-- The error after `depth` roundings one behind the other and `roundings` in all. -/
def errorBound (u η : K) (depth roundings : Nat) (mass : K) : K :=
  ((1 + u) ^ depth - 1) * mass + (1 + u) ^ depth * roundings * η

/-- `found` is meant to be `value`, a sum of terms whose sizes add up to `mass`. -/
structure Near (u η : K) (depth roundings : Nat) (mass value found : K) : Prop where
  size : |value| ≤ mass
  error : |found - value| ≤ errorBound u η depth roundings mass

theorem error_bound_mono {depth more roundings : Nat} {mass : K} (u_nonneg : 0 ≤ u)
    (η_nonneg : 0 ≤ η) (le : depth ≤ more) (mass_nonneg : 0 ≤ mass) :
    errorBound u η depth roundings mass ≤ errorBound u η more roundings mass := by
  have powers : (1 + u) ^ depth ≤ (1 + u) ^ more := pow_le_pow_right₀ (by linarith) le
  have one := mul_le_mul_of_nonneg_right (sub_le_sub_right powers 1) mass_nonneg
  have two := mul_le_mul_of_nonneg_right
    (mul_le_mul_of_nonneg_right powers (Nat.cast_nonneg roundings)) η_nonneg
  exact add_le_add one two

theorem Near.deeper {depth more roundings : Nat} {mass value found : K}
    (near : Near u η depth roundings mass value found) (u_nonneg : 0 ≤ u) (η_nonneg : 0 ≤ η)
    (le : depth ≤ more) : Near u η more roundings mass value found where
  size := near.size
  error := near.error.trans
    (error_bound_mono u_nonneg η_nonneg le ((abs_nonneg value).trans near.size))

theorem Near.add {depth first second : Nat} {mass rest x y found other z : K}
    (left : Near u η depth first mass x found) (right : Near u η depth second rest y other)
    (u_nonneg : 0 ≤ u) (η_nonneg : 0 ≤ η)
    (near : |z - (found + other)| ≤ u * |found + other| + η) :
    Near u η (depth + 1) (first + second + 1) (mass + rest) (x + y) z := by
  have size : |x + y| ≤ mass + rest := (abs_add_le x y).trans (add_le_add left.size right.size)
  refine ⟨size, ?_⟩
  have before : |found + other - (x + y)| ≤
      errorBound u η depth first mass + errorBound u η depth second rest := by
    calc |found + other - (x + y)| = |(found - x) + (other - y)| := by
          rw [add_sub_add_comm]
      _ ≤ |found - x| + |other - y| := abs_add_le _ _
      _ ≤ _ := add_le_add left.error right.error
  have large : |found + other| ≤ mass + rest + |found + other - (x + y)| := by
    have split := abs_add_le (x + y) (found + other - (x + y))
    rw [add_sub_cancel] at split
    linarith
  have rounding := mul_le_mul_of_nonneg_left large u_nonneg
  have grown := mul_le_mul_of_nonneg_left before (by linarith : 0 ≤ 1 + u)
  have power : 1 ≤ (1 + u) ^ (depth + 1) := one_le_pow₀ (by linarith)
  have fresh := mul_le_mul_of_nonneg_right power η_nonneg
  calc |z - (x + y)| = |(z - (found + other)) + (found + other - (x + y))| := by
        rw [sub_add_sub_cancel]
    _ ≤ |z - (found + other)| + |found + other - (x + y)| := abs_add_le _ _
    _ ≤ (1 + u) * (errorBound u η depth first mass + errorBound u η depth second rest) +
          u * (mass + rest) + 1 * η := by linarith
    _ ≤ (1 + u) * (errorBound u η depth first mass + errorBound u η depth second rest) +
          u * (mass + rest) + (1 + u) ^ (depth + 1) * η := by linarith
    _ = errorBound u η (depth + 1) (first + second + 1) (mass + rest) := by
        unfold errorBound
        push_cast
        ring

namespace Tally

def mass (t : Tally K) : K := (t.terms.map fun term => |term.1 * term.2|).sum

theorem near (held : Within u η ops) (u_nonneg : 0 ≤ u) (η_nonneg : 0 ≤ η) (t : Tally K) :
    Near u η t.depth t.roundings t.mass (t.value unrounded) (t.value ops) := by
  induction t with
  | nothing =>
    refine ⟨?_, ?_⟩ <;>
    simp [value, mass, terms, errorBound, roundings]
  | product before a b ih =>
    obtain ⟨p, multiplied, added⟩ := held.product (before.value ops) a b
    have term : Near u η 1 1 |a * b| (a * b) p := by
      refine ⟨le_rfl, multiplied.trans ?_⟩
      have more := mul_nonneg u_nonneg η_nonneg
      unfold errorBound
      push_cast
      linarith
    have summed := (ih.deeper u_nonneg η_nonneg (le_max_left _ 1)).add
      (term.deeper u_nonneg η_nonneg (le_max_right before.depth 1)) u_nonneg η_nonneg added
    have masses : (before.product a b).mass = before.mass + |a * b| := by
      simp [mass, terms]
    rw [masses]
    exact summed
  | sum left right left_ih right_ih =>
    have summed := (left_ih.deeper u_nonneg η_nonneg (le_max_left _ right.depth)).add
      (right_ih.deeper u_nonneg η_nonneg (le_max_right left.depth _)) u_nonneg η_nonneg
      (held.add (left.value ops) (right.value ops))
    have masses : (left.sum right).mass = left.mass + right.mass := by
      simp [mass, terms]
    rw [masses]
    exact summed

end Tally
end Errors

section Integers
variable {K : Type} [CommRing K] {ops : Arithmetic K} {x y : K} {a b limit : Nat}

def Whole (bound : Nat) (x : K) : Prop := ∃ n : Int, x = n ∧ n.natAbs ≤ bound

theorem Whole.add (left : Whole a x) (right : Whole b y) : Whole (a + b) (x + y) := by
  obtain ⟨m, rfl, m_le⟩ := left
  obtain ⟨n, rfl, n_le⟩ := right
  refine ⟨m + n, (Int.cast_add m n).symm, ?_⟩
  have triangle := Int.natAbs_add_le m n
  omega

theorem Whole.mul (left : Whole a x) (right : Whole b y) : Whole (a * b) (x * y) := by
  obtain ⟨m, rfl, m_le⟩ := left
  obtain ⟨n, rfl, n_le⟩ := right
  refine ⟨m * n, (Int.cast_mul m n).symm, ?_⟩
  rw [Int.natAbs_mul]
  exact Nat.mul_le_mul m_le n_le

theorem Whole.mono (whole : Whole a x) (le : a ≤ b) : Whole b x := by
  obtain ⟨n, same, n_le⟩ := whole
  exact ⟨n, same, n_le.trans le⟩

structure ExactWithin (limit : Nat) (ops : Arithmetic K) : Prop where
  add : ∀ x y, Whole limit (x + y) → ops.add x y = x + y
  product : ∀ x a b, Whole limit (a * b) → Whole limit (x + a * b) →
    ops.addProduct x a b = x + a * b

theorem rounded_exact_within {round : K → K} (fixed : ∀ x, Whole limit x → round x = x) :
    ExactWithin limit (rounded round) where
  add x y whole := fixed (x + y) whole
  product x a b factor whole := by
    change round (x + round (a * b)) = _
    rw [fixed _ factor, fixed _ whole]

theorem fused_exact_within {round : K → K} (fixed : ∀ x, Whole limit x → round x = x) :
    ExactWithin limit (fused round) where
  add x y whole := fixed (x + y) whole
  product x a b _ whole := fixed (x + a * b) whole

namespace Tally
variable {t : Tally K} {bound : Nat}

theorem unrounded_whole (whole : ∀ term ∈ t.terms, Whole bound (term.1 * term.2)) :
    Whole (t.terms.card * bound) (t.value unrounded) := by
  induction t with
  | nothing => exact ⟨0, Int.cast_zero.symm, Nat.zero_le _⟩
  | product before a b ih =>
    have rest := ih fun term member => whole term (Multiset.mem_add.mpr (.inl member))
    have last := whole (a, b) (Multiset.mem_add.mpr (.inr (Multiset.mem_singleton_self _)))
    have count : (before.product a b).terms.card * bound = before.terms.card * bound + bound := by
      rw [terms, Multiset.card_add, Multiset.card_singleton, Nat.add_mul, Nat.one_mul]
    rw [count]
    exact rest.add last
  | sum left right left_ih right_ih =>
    have first := left_ih fun term member => whole term (Multiset.mem_add.mpr (.inl member))
    have second := right_ih fun term member => whole term (Multiset.mem_add.mpr (.inr member))
    rw [terms, Multiset.card_add, Nat.add_mul]
    exact first.add second

/-- Nothing is rounded where the largest sum of so many terms is within the limit. -/
theorem value_eq_unrounded (held : ExactWithin limit ops)
    (whole : ∀ term ∈ t.terms, Whole bound (term.1 * term.2))
    (room : t.terms.card * bound ≤ limit) : t.value ops = t.value unrounded := by
  induction t with
  | nothing => rfl
  | product before a b ih =>
    have sum := (unrounded_whole whole).mono room
    have last := whole (a, b) (Multiset.mem_add.mpr (.inr (Multiset.mem_singleton_self _)))
    rw [terms, Multiset.card_add, Multiset.card_singleton, Nat.add_mul, Nat.one_mul] at room
    have same := ih (fun term member => whole term (Multiset.mem_add.mpr (.inl member)))
      (by omega)
    rw [value, same, held.product _ a b (last.mono (by omega)) sum]
    rfl
  | sum left right left_ih right_ih =>
    have sum := (unrounded_whole whole).mono room
    rw [terms, Multiset.card_add, Nat.add_mul] at room
    have first := left_ih (fun term member => whole term (Multiset.mem_add.mpr (.inl member)))
      (by omega)
    have second := right_ih (fun term member => whole term (Multiset.mem_add.mpr (.inr member)))
      (by omega)
    rw [value, first, second, held.add _ _ sum]
    rfl

end Tally
end Integers
section Dots
variable {K : Type} {n : Nat}

def extended [Zero K] (x : Fin n → K) (k : Nat) : K := if below : k < n then x ⟨k, below⟩ else 0

def dot [Zero K] (x y : Fin n → K) : Tally K := .upTo .nothing (extended x) (extended y) n

def unrolledDot [Zero K] (x y : Fin n → K) : Tally K := .unrolled (extended x) (extended y) n

theorem extended_eq [Zero K] {x : Fin n → K} {f : Nat → K} (same : ∀ k : Fin n, f k = x k) :
    ∀ k < n, f k = extended x k := by
  intro k below
  rw [extended, dif_pos below]
  exact same ⟨k, below⟩

def Adds (t : Tally K) (x y : Fin n → K) : Prop := t.terms = ∑ k, {(x k, y k)}

section Terms
variable [Zero K] {x y : Fin n → K}

theorem extended_terms :
    (∑ k ∈ Finset.range n, {(extended x k, extended y k)} : Multiset (K × K)) =
      ∑ k, {(x k, y k)} := by
  rw [Finset.sum_range]
  simp [extended]

theorem dot_adds : Adds (dot x y) x y := by
  rw [Adds, dot, Tally.up_to_terms, extended_terms, Tally.terms, zero_add]

theorem unrolled_adds : Adds (unrolledDot x y) x y := by
  rw [Adds, unrolledDot, Tally.unrolled_terms, extended_terms]

end Terms

section Figures
variable {t : Tally K} {x y : Fin n → K}

theorem Adds.sum {L : Type} [AddCommMonoid L] (held : Adds t x y) (figure : K × K → L) :
    (t.terms.map figure).sum = ∑ k, figure (x k, y k) := by
  rw [held, ← Multiset.coe_mapAddMonoidHom, map_sum, ← Multiset.coe_sumAddMonoidHom, map_sum]
  simp

theorem Adds.card (held : Adds t x y) : t.terms.card = n := by
  rw [held]
  simp

theorem Adds.mem (held : Adds t x y) {term : K × K} (member : term ∈ t.terms) :
    ∃ k, term = (x k, y k) := by
  rw [held] at member
  simpa [Multiset.mem_sum] using member

theorem Adds.unrounded [CommRing K] (held : Adds t x y) :
    t.value unrounded = ∑ k, x k * y k := by
  rw [t.unrounded_value, held.sum]

theorem Adds.near [CommRing K] [LinearOrder K] [IsStrictOrderedRing K] {u η : K}
    {ops : Arithmetic K} (held : Adds t x y) (within : Within u η ops) (u_nonneg : 0 ≤ u)
    (η_nonneg : 0 ≤ η) :
    |t.value ops - ∑ k, x k * y k| ≤
      errorBound u η t.depth t.roundings (∑ k, |x k * y k|) := by
  have near := (t.near within u_nonneg η_nonneg).error
  rwa [held.unrounded, Tally.mass, held.sum] at near

theorem Adds.whole [CommRing K] {ops : Arithmetic K} {a b limit : Nat} (held : Adds t x y)
    (within : ExactWithin limit ops) (left : ∀ k, Whole a (x k)) (right : ∀ k, Whole b (y k))
    (room : n * (a * b) ≤ limit) : t.value ops = ∑ k, x k * y k := by
  rw [← held.unrounded]
  refine Tally.value_eq_unrounded within ?_ (held.card.symm ▸ room)
  intro term member
  obtain ⟨k, rfl⟩ := held.mem member
  exact (left k).mul (right k)

end Figures
end Dots
end RoundedSums
