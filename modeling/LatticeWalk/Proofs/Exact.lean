import Mathlib
import LatticeWalk.Amplitude
import LatticeWalk.Decimal.Literal
import LatticeWalk.Scalar.Double

/-! # Exact arithmetic

The real numbers as scalars. Amplitudes over them are the complex numbers, with the operations that
the library computes with, so that statements about exact amplitudes can use the laws of a ring.

* `Scalar ℝ`: exact roots, cosines and sines.
* `CommRing (Amplitude ℝ)`: the laws; `Amplitude.scale_eq`, `Amplitude.unit_mul_unit_neg`.
* `BitExact`: scalars in which products with zero and one and their sums are exact wherever a flip
  uses them. Doubles are among these. -/

namespace LatticeWalk

open LatticeWalk.Decimal

/-- The real number that a literal denotes, if it is finite. -/
noncomputable def Decimal.Literal.toReal? : Literal → Option ℝ
  | .number negative digits power => some ((if negative then -1 else 1) * digits * 10 ^ power)
  | _ => none

/-- A real number is written by its whole part. -/
noncomputable instance : Numeral ℝ where
  spell x := toString ⌊x⌋
  spellTo _ x := toString ⌊x⌋
  read? s := (Literal.read s).bind Literal.toReal?

open Classical in
noncomputable instance : Scalar ℝ where
  decidableLT := inferInstance
  decidableLE := inferInstance
  sqrt := Real.sqrt
  cos := Real.cos
  sin := Real.sin
  arccos := Real.arccos
  pi := Real.pi
  round x := if 0 ≤ x then ⌊x + 1 / 2⌋ else ⌈x - 1 / 2⌉

theorem Scalar.sum_eq (xs : List ℝ) : Scalar.sum xs = xs.sum := by
  rw [Scalar.sum, List.sum_eq_foldl, neg_zero]

namespace Amplitude

@[ext] theorem ext {R : Type} {a b : Amplitude R} (hre : a.re = b.re) (him : a.im = b.im) :
    a = b := by
  cases a; cases b; simp_all

section parts
variable (a b : Amplitude ℝ)

@[simp] theorem re_zero : (0 : Amplitude ℝ).re = 0 := rfl
@[simp] theorem im_zero : (0 : Amplitude ℝ).im = 0 := rfl
@[simp] theorem re_one : (1 : Amplitude ℝ).re = 1 := rfl
@[simp] theorem im_one : (1 : Amplitude ℝ).im = 0 := rfl
@[simp] theorem re_add : (a + b).re = a.re + b.re := rfl
@[simp] theorem im_add : (a + b).im = a.im + b.im := rfl
@[simp] theorem re_mul : (a * b).re = a.re * b.re - a.im * b.im := rfl
@[simp] theorem im_mul : (a * b).im = a.re * b.im + a.im * b.re := rfl
@[simp] theorem re_neg : (-a).re = -a.re := rfl
@[simp] theorem im_neg : (-a).im = -a.im := rfl
@[simp] theorem re_conj : a.conj.re = a.re := rfl
@[simp] theorem im_conj : a.conj.im = -a.im := rfl
@[simp] theorem re_scale (s : ℝ) : (a.scale s).re = a.re * s := rfl
@[simp] theorem im_scale (s : ℝ) : (a.scale s).im = a.im * s := rfl
@[simp] theorem re_unit (φ : ℝ) : (unit φ).re = Real.cos φ := rfl
@[simp] theorem im_unit (φ : ℝ) : (unit φ).im = Real.sin φ := rfl

end parts

/-- **Exact amplitudes form a commutative ring** under the operations of the library. -/
noncomputable instance : CommRing (Amplitude ℝ) where
  add_assoc a b c := by ext <;> simp <;> ring
  zero_add a := by ext <;> simp
  add_zero a := by ext <;> simp
  add_comm a b := by ext <;> simp <;> ring
  left_distrib a b c := by ext <;> simp <;> ring
  right_distrib a b c := by ext <;> simp <;> ring
  zero_mul a := by ext <;> simp
  mul_zero a := by ext <;> simp
  mul_assoc a b c := by ext <;> simp <;> ring
  one_mul a := by ext <;> simp
  mul_one a := by ext <;> simp
  mul_comm a b := by ext <;> simp <;> ring
  neg_add_cancel a := by ext <;> simp
  nsmul := nsmulRec
  zsmul := zsmulRec

/-- A real number as an amplitude. -/
def ofReal (s : ℝ) : Amplitude ℝ := ⟨s, 0⟩

theorem scale_eq (a : Amplitude ℝ) (s : ℝ) : a.scale s = ofReal s * a := by
  ext <;> simp [ofReal] <;> ring

theorem conj_mul (a b : Amplitude ℝ) : (a * b).conj = a.conj * b.conj := by
  ext
  · simp
  · simp
    ring

theorem conj_neg (a : Amplitude ℝ) : (-a).conj = -a.conj := by
  ext <;> simp

theorem conj_ofReal (s : ℝ) : (ofReal s).conj = ofReal s := by
  ext <;> simp [ofReal]

theorem conj_unit (φ : ℝ) : (unit φ).conj = unit (-φ) := by
  ext <;> simp

theorem ofReal_cos_sq_add_sin_sq (φ : ℝ) :
    ofReal (Real.cos φ) ^ 2 + ofReal (Real.sin φ) ^ 2 = 1 := by
  have h := Real.cos_sq_add_sin_sq φ
  ext
  · simp only [ofReal, sq, re_add, re_mul, re_one]
    linear_combination h
  · simp [ofReal, sq]

theorem unit_mul_unit_neg (φ : ℝ) : unit φ * unit (-φ) = 1 := by
  have h := Real.cos_sq_add_sin_sq φ
  ext
  · simp; linear_combination h
  · simp; ring

end Amplitude

/-! ### Flips of zeros and ones -/

/-- Scalars in which the products and sums of a flip are exact on the amplitudes zero and one. -/
class BitExact (R : Type) [Scalar R] : Prop where
  pick_right : ∀ a ∈ [(0 : Amplitude R), 1], ∀ b ∈ [(0 : Amplitude R), 1], 0 * a + 1 * b = b
  pick_left : ∀ a ∈ [(0 : Amplitude R), 1], ∀ b ∈ [(0 : Amplitude R), 1], 1 * a + 0 * b = a

instance : BitExact ℝ where
  pick_right a _ b _ := by ring
  pick_left a _ b _ := by ring

/-- Doubles round none of these. -/
instance : BitExact Float where
  pick_right := by decide
  pick_left := by decide

end LatticeWalk
