import Mathlib.Algebra.Group.Nat.Defs
import Mathlib.Algebra.Ring.Int.Defs
import Mathlib.Data.Int.Order.Basic

/-!
# Double-precision scores

A score is an `f64` in the service and a `double precision` in the database. `F64` is its
IEEE-754 bit pattern, so `to_bits` equality is equality of `F64`. Every finite double is an
integer multiple of `2⁻¹⁰⁷⁴`; `F64.scaled` is that integer, and comparing scores as exact
numbers is comparing `scaled`. The two zeros have different bits and the same `scaled`.
-/

namespace Leaderboards

/-- An `f64`, as its bit pattern. -/
structure F64 where
  /-- `f64::to_bits`. -/
  bits : BitVec 64
deriving DecidableEq

namespace F64

/-- The sign bit. -/
def sign (x : F64) : Bool := x.bits.msb

/-- The biased exponent field. -/
def exponent (x : F64) : ℕ := x.bits.toNat / 2 ^ 52 % 2 ^ 11

/-- The trailing significand field. -/
def mantissa (x : F64) : ℕ := x.bits.toNat % 2 ^ 52

/-- `f64::is_nan`. -/
def isNan (x : F64) : Bool := x.exponent == 2047 && x.mantissa != 0

/-- `f64::is_infinite`. -/
def isInfinite (x : F64) : Bool := x.exponent == 2047 && x.mantissa == 0

/-- A finite score: what every score validation asks for. -/
def isFinite (x : F64) : Bool := !(x.isNan || x.isInfinite)

/-- The absolute value of a finite double, in units of `2⁻¹⁰⁷⁴`. -/
def magnitude (x : F64) : ℕ :=
  if x.exponent = 0 then x.mantissa else (2 ^ 52 + x.mantissa) * 2 ^ (x.exponent - 1)

/-- The exact value of a finite double, in units of `2⁻¹⁰⁷⁴`. -/
def scaled (x : F64) : ℤ := if x.sign then -(x.magnitude : ℤ) else x.magnitude

/-- The sort key of the database for `double precision`: infinities beyond every finite value,
NaN above everything. -/
def sqlKey (x : F64) : ℤ :=
  if x.isNan then 2 ^ 2101
  else if x.isInfinite then (if x.sign then -(2 ^ 2100) else 2 ^ 2100)
  else x.scaled

/-- On finite scores the database compares exact values. -/
theorem sqlKey_of_isFinite {x : F64} (h : x.isFinite = true) : x.sqlKey = x.scaled := by
  simp only [isFinite, Bool.not_eq_true', Bool.or_eq_false_iff] at h
  simp [sqlKey, h.1, h.2]

end F64

end Leaderboards
