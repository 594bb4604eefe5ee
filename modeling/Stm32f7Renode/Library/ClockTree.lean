import Mathlib.Algebra.Order.Field.Rat
import Mathlib.Algebra.Order.Floor.Semifield
import Mathlib.Data.Nat.Cast.Field
import Mathlib.Data.Nat.Cast.Order.Field
import Mathlib.Data.Rat.Floor
import Mathlib.Tactic.Positivity
import Mathlib.Tactic.Linarith
import Mathlib.Tactic.Ring
import Mathlib.Tactic.GCongr
import Mathlib.Tactic.FieldSimp

/-!
A clock is an oscillator that is divided, multiplied by a phase-locked loop and divided again.
A program computes its frequency with truncating divisions in words of a fixed width; the
results here say when that number is the frequency of the tree up to its fraction.
-/

namespace Stm32f7Renode

structure ClockTree where
  source : ℕ
  prescaler : ℕ
  multiplier : ℕ
  divider : ℕ
  shift : ℕ
deriving DecidableEq, Repr

namespace ClockTree

variable (t : ClockTree)

def scale : ℕ := t.divider * 2 ^ t.shift

/-- The frequency of the clock. -/
def rate : ℚ := (t.source : ℚ) / t.prescaler * t.multiplier / t.scale

def vco : ℕ := t.source / t.prescaler * t.multiplier

/-- What a program with words of `w` bits computes. -/
def computed (w : ℕ) : ℕ := t.vco % 2 ^ w / t.divider / 2 ^ t.shift

/-- What the truncated divisions can lose. -/
def slack : ℚ := (t.multiplier : ℚ) / t.scale + 1

/-- `v` is the frequency, less what truncation loses. -/
def Accurate (v : ℕ) : Prop := (v : ℚ) ≤ t.rate ∧ t.rate < v + t.slack

variable {t}

theorem computed_eq (w : ℕ) : t.computed w = t.vco % 2 ^ w / t.scale :=
  Nat.div_div_eq_div_mul _ _ _

theorem scale_pos (hd : 0 < t.divider) : 0 < t.scale :=
  Nat.mul_pos hd (Nat.two_pow_pos _)

theorem vco_le : (t.vco : ℚ) ≤ (t.source : ℚ) / t.prescaler * t.multiplier := by
  unfold vco
  push_cast
  gcongr
  exact Nat.cast_div_le

theorem cast_div_lt (a b : ℕ) : (a : ℚ) / b < (a / b : ℕ) + 1 := by
  rw [← Nat.floor_div_eq_div (K := ℚ)]
  exact Nat.lt_floor_add_one _

theorem le_vco : (t.source : ℚ) / t.prescaler * t.multiplier ≤ t.vco + t.multiplier := by
  have hq := (cast_div_lt t.source t.prescaler).le
  calc (t.source : ℚ) / t.prescaler * t.multiplier
      ≤ ((t.source / t.prescaler : ℕ) + 1) * t.multiplier := by gcongr
    _ = t.vco + t.multiplier := by
      unfold vco
      push_cast
      ring

theorem vco_div_le : (t.vco : ℚ) / t.scale ≤ t.rate := by
  unfold rate
  gcongr
  exact vco_le

theorem le_vco_div : t.rate ≤ (t.vco : ℚ) / t.scale + (t.multiplier : ℚ) / t.scale := by
  unfold rate
  rw [← add_div]
  gcongr
  exact le_vco

theorem Accurate.of_fits {w : ℕ} (hw : t.vco < 2 ^ w) : t.Accurate (t.computed w) := by
  rw [computed_eq, Nat.mod_eq_of_lt hw]
  constructor
  · calc ((t.vco / t.scale : ℕ) : ℚ) ≤ (t.vco : ℚ) / t.scale := Nat.cast_div_le
      _ ≤ t.rate := vco_div_le
  · have hv := cast_div_lt t.vco t.scale
    have hr := t.le_vco_div
    unfold slack
    linarith

/-- A product that wraps loses at least `2 ^ w`, more than truncation does. -/
theorem Accurate.fits {w : ℕ} (hd : 0 < t.divider) (hroom : t.multiplier + t.scale ≤ 2 ^ w)
    (ha : t.Accurate (t.computed w)) : t.vco < 2 ^ w := by
  by_contra! hw
  have hs : (0 : ℚ) < t.scale := by exact_mod_cast scale_pos hd
  have hmod : t.vco % 2 ^ w + 2 ^ w ≤ t.vco := by
    have hdiv := Nat.mod_add_div t.vco (2 ^ w)
    have hone : 1 ≤ t.vco / 2 ^ w := Nat.div_pos hw (Nat.two_pow_pos _)
    have hle := Nat.mul_le_mul_left (2 ^ w) hone
    omega
  have hv : (t.computed w : ℚ) ≤ ((t.vco % 2 ^ w : ℕ) : ℚ) / t.scale := by
    rw [computed_eq]
    exact Nat.cast_div_le
  have hsum : ((t.vco % 2 ^ w : ℕ) : ℚ) + (t.multiplier + t.scale) ≤ t.vco := by
    exact_mod_cast (Nat.add_le_add_left hroom _).trans hmod
  have hfar : (t.computed w : ℚ) + t.slack ≤ t.rate :=
    calc (t.computed w : ℚ) + t.slack
        ≤ ((t.vco % 2 ^ w : ℕ) : ℚ) / t.scale + t.slack := by gcongr
      _ = (((t.vco % 2 ^ w : ℕ) : ℚ) + (t.multiplier + t.scale)) / t.scale := by
        unfold slack
        field_simp
      _ ≤ (t.vco : ℚ) / t.scale := by gcongr
      _ ≤ t.rate := vco_div_le
  exact absurd ha.2 (not_lt.mpr hfar)

theorem accurate_computed_iff {w : ℕ} (hd : 0 < t.divider)
    (hroom : t.multiplier + t.scale ≤ 2 ^ w) : t.Accurate (t.computed w) ↔ t.vco < 2 ^ w :=
  ⟨Accurate.fits hd hroom, Accurate.of_fits⟩

theorem computed_exact {w : ℕ} (hp : t.prescaler ∣ t.source) (hs : t.scale ∣ t.vco)
    (hw : t.vco < 2 ^ w) : (t.computed w : ℚ) = t.rate := by
  rw [computed_eq, Nat.mod_eq_of_lt hw, Nat.cast_div_charZero hs]
  unfold vco rate
  rw [Nat.cast_mul, Nat.cast_div_charZero hp]

end ClockTree

end Stm32f7Renode
