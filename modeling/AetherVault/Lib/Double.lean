import Mathlib.Algebra.Order.Ring.Rat
import Mathlib.Tactic.Linarith

/-! Floating-point numbers by their values, with sums that are rounded. Of the rounding only what
IEEE 754 asks of every one is used: that it keeps the order and the values of the format. -/
namespace AetherVault.Lib

inductive Double
  | nan
  | infinity (negative : Bool)
  | finite (x : Rat)
  deriving DecidableEq

namespace Double

def le : Double → Double → Bool
  | nan,_ => false
  | _,nan => false
  | infinity negative,infinity other => negative || !other
  | infinity negative,finite _ => negative
  | finite _,infinity negative => !negative
  | finite x,finite y => decide (x ≤ y)

def lt (a b : Double) : Bool := a.le b && !b.le a

class Rounding where
  round : Rat → Double
  monotone : ∀ x y, x ≤ y → (round x).le (round y) = true
  idempotent : ∀ x y, round x = finite y → round y = finite y
  zero : round 0 = finite 0

/-- Exact sums are rounded too. -/
@[reducible] def unrounded : Rounding where
  round := finite
  monotone x y below := decide_eq_true below
  idempotent x y same := by
    cases same
    rfl
  zero := rfl

def add [Rounding] : Double → Double → Double
  | nan,_ => nan
  | _,nan => nan
  | infinity negative,infinity other => if negative = other then infinity negative else nan
  | infinity negative,finite _ => infinity negative
  | finite _,infinity negative => infinity negative
  | finite x,finite y => Rounding.round (x + y)

theorem le_trans {a b c : Double} (first : a.le b = true) (second : b.le c = true) : a.le c = true := by
  cases a <;> cases b <;> cases c <;> grind [le]

theorem lt_of_lt_of_le {a b c : Double} (first : a.lt b = true) (second : b.le c = true) : a.lt c = true := by
  simp only [lt,Bool.and_eq_true,Bool.not_eq_true'] at first ⊢
  constructor
  · exact le_trans first.1 second
  · by_contra back
    have below := le_trans second (by simpa using back)
    rw [first.2] at below
    contradiction

variable [Rounding]

/-- A value of the format that is not negative. -/
structure Counter (a : Double) : Prop where
  nonnegative : (finite 0).le a = true
  rounded : ∀ x, a = finite x → Rounding.round x = finite x

theorem counter_zero : Counter (finite 0) where
  nonnegative := by decide
  rounded x same := by
    cases same
    exact Rounding.zero

theorem Counter.ne_nan {a : Double} (counter : Counter a) : a ≠ nan := by
  rintro rfl
  have nonnegative := counter.nonnegative
  contradiction

theorem Counter.le_refl {a : Double} (counter : Counter a) : a.le a = true := by
  cases a with
  | nan => exact absurd rfl counter.ne_nan
  | infinity negative => cases negative <;> rfl
  | finite x => simp [le]

/-- Adding what is not negative takes a counter no further down, however it is rounded. -/
theorem Counter.le_add {a b : Double} (counter : Counter a) (nonnegative : (finite 0).le b = true) : a.le (a.add b) = true := by
  cases a with
  | nan => exact absurd rfl counter.ne_nan
  | infinity negative =>
    cases negative with
    | true =>
      have below := counter.nonnegative
      contradiction
    | false => cases b <;> simp_all [le,Double.add]
  | finite x =>
    cases b with
    | nan => contradiction
    | infinity negative => exact nonnegative
    | finite y =>
      have grows : x ≤ x + y := by
        have positive : 0 ≤ y := of_decide_eq_true nonnegative
        linarith
      have rounds := Rounding.monotone x (x + y) grows
      rw [counter.rounded x rfl] at rounds
      exact rounds

theorem Counter.add {a b : Double} (counter : Counter a) (nonnegative : (finite 0).le b = true) : Counter (a.add b) where
  nonnegative := le_trans counter.nonnegative (counter.le_add nonnegative)
  rounded x same := by
    cases a with
    | nan => contradiction
    | infinity negative =>
      cases b with
      | nan => contradiction
      | infinity other =>
        simp only [Double.add] at same
        split at same <;> contradiction
      | finite y => contradiction
    | finite x' =>
      cases b with
      | nan => contradiction
      | infinity negative => contradiction
      | finite y => exact Rounding.idempotent (x' + y) x same

end Double

end AetherVault.Lib
