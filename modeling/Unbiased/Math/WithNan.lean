/-
# Numbers, and what is not a number

Floating-point values over exact numbers. One more value stands for the result of an operation
that has none, such as zero divided by zero. What is computed from it is not a number either,
and it is neither smaller nor greater than anything.
-/

import Mathlib.Algebra.Notation.Defs
import Mathlib.Order.Defs.Unbundled

namespace Unbiased.Math

universe u

/-- A number, or none. -/
inductive WithNan (R : Type u) where
  | num (value : R)
  | nan
  deriving DecidableEq, Repr

namespace WithNan

variable {R : Type u}

instance [Zero R] : Zero (WithNan R) := ⟨num 0⟩

instance [Add R] : Add (WithNan R) where
  add
    | num first, num second => num (first + second)
    | _, _ => nan

instance [Mul R] : Mul (WithNan R) where
  mul
    | num first, num second => num (first * second)
    | _, _ => nan

instance [LT R] : LT (WithNan R) where
  lt
    | num first, num second => first < second
    | _, _ => False

instance [LT R] [DecidableLT R] : DecidableLT (WithNan R)
  | num first, num second => inferInstanceAs (Decidable (first < second))
  | num _, nan => isFalse id
  | nan, _ => isFalse id

@[simp]
theorem nan_add [Add R] (value : WithNan R) : nan + value = nan := rfl

@[simp]
theorem not_nan_lt [LT R] (value : WithNan R) : ¬ nan < value := id

end WithNan

end Unbiased.Math
