import Mathlib.Algebra.Ring.GeomSum
import Mathlib.Algebra.Ring.Periodic
import Mathlib.Data.Nat.Factorization.Basic
import Mathlib.Data.ZMod.Basic
import Mathlib.Dynamics.PeriodicPts.Lemmas
import Mathlib.Tactic.LinearCombination
import Mathlib.Tactic.Ring

/-!
The map `x ↦ a * x + c` on `ZMod (2 ^ k)` with `a % 4 = 1` and `c` odd runs
through all residues in a single cycle. Dropping the low `h < k` bits of the
state does not shorten that cycle: the top bit alone has the full period.
-/

namespace AffineGenerator
open Function Finset

section Iterates

variable {R : Type*} [CommRing R]

def affine (a c x : R) : R := a * x + c

theorem iterate_affine_sub (a c x : R) (n : ℕ) :
    (affine a c)^[n] x - x = (∑ i ∈ range n, a ^ i) * ((a - 1) * x + c) := by
  induction n with
  | zero => simp
  | succ n ih =>
    rw [iterate_succ_apply', geom_sum_succ, affine]
    linear_combination a * ih

end Iterates

section GeometricSum

variable {a : ℕ}

theorem geom_sum_double (a m : ℕ) :
    ∑ i ∈ range (2 * m), a ^ i = (∑ i ∈ range m, a ^ i) * (1 + a ^ m) := by
  rw [two_mul, sum_range_add]
  simp_rw [pow_add]
  rw [← mul_sum]
  ring

theorem pow_mod_four (ha : a % 4 = 1) (m : ℕ) : a ^ m % 4 = 1 := by
  rw [Nat.pow_mod, ha, one_pow, Nat.one_mod_eq_one.mpr (by omega)]

theorem geom_sum_mod_two (ha : a % 4 = 1) (n : ℕ) : (∑ i ∈ range n, a ^ i) % 2 = n % 2 := by
  induction n with
  | zero => rfl
  | succ n ih =>
    have := pow_mod_four ha n
    rw [sum_range_succ]
    omega

/-- The sum of `n` powers of `a` is exactly as divisible by two as `n` is. -/
theorem two_pow_dvd_geom_sum_iff (ha : a % 4 = 1) (k n : ℕ) :
    2 ^ k ∣ ∑ i ∈ range n, a ^ i ↔ 2 ^ k ∣ n := by
  induction k generalizing n with
  | zero => simp
  | succ k ih =>
    rcases Nat.even_or_odd' n with ⟨m, rfl | rfl⟩
    · obtain ⟨r, hr⟩ : ∃ r, 1 + a ^ m = 2 * (2 * r + 1) :=
        ⟨a ^ m / 4, by have := pow_mod_four ha m; omega⟩
      have hodd : Nat.Coprime (2 ^ k) (2 * r + 1) :=
        Nat.Coprime.pow_left _ (Nat.coprime_two_left.mpr ⟨r, rfl⟩)
      rw [geom_sum_double, hr, pow_succ', mul_left_comm, Nat.mul_dvd_mul_iff_left two_pos,
        Nat.mul_dvd_mul_iff_left two_pos, hodd.dvd_mul_right, ih]
    · have hd : ∀ t, t % 2 = 1 → ¬ 2 ^ (k + 1) ∣ t := by
        intro t ht h
        have := (dvd_pow_self 2 k.succ_ne_zero).trans h
        omega
      exact iff_of_false (hd _ (by rw [geom_sum_mod_two ha]; omega)) (hd _ (by omega))

end GeometricSum

section FullPeriod

variable {a c k : ℕ} (ha : a % 4 = 1) (hc : c % 2 = 1)
include ha hc

/-- Hull and Dobell: a state recurs exactly after the multiples of the modulus. -/
theorem iterate_eq_self_iff (x : ZMod (2 ^ k)) (n : ℕ) :
    (affine (a : ZMod (2 ^ k)) c)^[n] x = x ↔ 2 ^ k ∣ n := by
  obtain ⟨b, rfl⟩ : ∃ b, a = 4 * b + 1 := ⟨a / 4, by omega⟩
  -- the first displacement is the cast of an odd number
  have hw : ((4 * b + 1 : ℕ) - 1 : ZMod (2 ^ k)) * x + c =
      ((4 * b * x.val + c : ℕ) : ZMod (2 ^ k)) := by
    push_cast
    rw [ZMod.natCast_zmod_val]
    ring
  have hodd : Nat.Coprime (2 ^ k) (4 * b * x.val + c) := by
    apply Nat.Coprime.pow_left _ (Nat.coprime_two_left.mpr (Nat.odd_iff.mpr _))
    rw [mul_assoc]
    omega
  rw [← sub_eq_zero, iterate_affine_sub, hw, ← two_pow_dvd_geom_sum_iff ha k n,
    ← hodd.dvd_mul_right, ← ZMod.natCast_eq_zero_iff]
  push_cast
  rfl

theorem minimalPeriod_affine (x : ZMod (2 ^ k)) :
    minimalPeriod (affine (a : ZMod (2 ^ k)) c) x = 2 ^ k := by
  apply Nat.dvd_antisymm
  · exact isPeriodicPt_iff_minimalPeriod_dvd.mp ((iterate_eq_self_iff ha hc x _).mpr dvd_rfl)
  · exact (iterate_eq_self_iff ha hc x _).mp (isPeriodicPt_minimalPeriod _ _)

theorem iterate_add_two_pow (x : ZMod (2 ^ k)) (n : ℕ) :
    (affine (a : ZMod (2 ^ k)) c)^[n + 2 ^ k] x = (affine (a : ZMod (2 ^ k)) c)^[n] x := by
  rw [iterate_add_apply, (iterate_eq_self_iff ha hc x _).mpr dvd_rfl]

theorem affine_injective : Injective (affine (a : ZMod (2 ^ k)) c) := by
  intro x y h
  have hpred : 2 ^ k - 1 + 1 = 2 ^ k := Nat.sub_add_cancel Nat.one_le_two_pow
  have := congrArg (affine (a : ZMod (2 ^ k)) c)^[2 ^ k - 1] h
  rwa [← iterate_succ_apply, ← iterate_succ_apply, Nat.succ_eq_add_one, hpred,
    (iterate_eq_self_iff ha hc _ _).mpr dvd_rfl,
    (iterate_eq_self_iff ha hc _ _).mpr dvd_rfl] at this

/-- Any `2 ^ k` consecutive states are all the residues, each once. -/
theorem window_bijective (x : ZMod (2 ^ k)) (w : ℕ) :
    Bijective fun i : Fin (2 ^ k) => (affine (a : ZMod (2 ^ k)) c)^[w + i] x := by
  rw [Fintype.bijective_iff_injective_and_card]
  refine ⟨fun i j h => ?_, by simp [ZMod.card]⟩
  simp only [add_comm w, iterate_add_apply] at h
  have hm := minimalPeriod_affine ha hc ((affine (a : ZMod (2 ^ k)) c)^[w] x)
  exact Fin.ext ((iterate_eq_iterate_iff_of_lt_minimalPeriod
    (i.isLt.trans_eq hm.symm) (j.isLt.trans_eq hm.symm)).mp h)

theorem window_existsUnique (x y : ZMod (2 ^ k)) (w : ℕ) :
    ∃! i, i < 2 ^ k ∧ (affine (a : ZMod (2 ^ k)) c)^[w + i] x = y := by
  obtain ⟨i, hi, huniq⟩ := (window_bijective ha hc x w).existsUnique y
  refine ⟨i, ⟨i.isLt, hi⟩, fun j ⟨hj, hy⟩ => ?_⟩
  exact congrArg Fin.val (huniq ⟨j, hj⟩ hy)

theorem card_window_filter (x : ZMod (2 ^ k)) (w : ℕ) (P : ZMod (2 ^ k) → Prop) [DecidablePred P] :
    #{i ∈ range (2 ^ k) | P ((affine (a : ZMod (2 ^ k)) c)^[w + i] x)} = #{y | P y} := by
  refine card_bij (fun i _ => (affine (a : ZMod (2 ^ k)) c)^[w + i] x) ?_ ?_ ?_
  · intro i hi
    simpa using (mem_filter.mp hi).2
  · intro i hi j hj h
    have hi' := mem_range.mp (mem_filter.mp hi).1
    have hj' := mem_range.mp (mem_filter.mp hj).1
    have he : (⟨i, hi'⟩ : Fin (2 ^ k)) = ⟨j, hj'⟩ := (window_bijective ha hc x w).1 h
    exact congrArg Fin.val he
  · intro y hy
    obtain ⟨i, rfl⟩ := (window_bijective ha hc x w).2 y
    exact ⟨i, mem_filter.mpr ⟨mem_range.mpr i.isLt, (mem_filter.mp hy).2⟩, rfl⟩

end FullPeriod

section HighPart

variable {h b : ℕ}

def highPart (h : ℕ) (x : ZMod (2 ^ (h + b))) : ℕ := x.val / 2 ^ h

theorem card_highPart_eq {v : ℕ} (hv : v < 2 ^ b) :
    #{x : ZMod (2 ^ (h + b)) | highPart h x = v} = 2 ^ h := by
  have hpos : 0 < 2 ^ h := Nat.two_pow_pos h
  have hlt : ∀ n ∈ Ico (2 ^ h * v) (2 ^ h * (v + 1)), n < 2 ^ (h + b) := by
    intro n hn
    rw [pow_add]
    exact (mem_Ico.mp hn).2.trans_le (Nat.mul_le_mul_left _ hv)
  have hcard : #(Ico (2 ^ h * v) (2 ^ h * (v + 1))) = 2 ^ h := by
    rw [Nat.card_Ico, mul_add, mul_one, Nat.add_sub_cancel_left]
  rw [← hcard]
  have hdiv : ∀ n, n / 2 ^ h = v ↔ n ∈ Ico (2 ^ h * v) (2 ^ h * (v + 1)) := by
    intro n
    rw [Nat.div_eq_iff hpos, mem_Ico, mul_add, mul_comm v]
    omega
  refine card_nbij' ZMod.val (fun n => (n : ZMod (2 ^ (h + b)))) ?_ ?_ ?_ ?_
  · intro x hx
    exact mem_coe.mpr ((hdiv _).mp (mem_filter.mp (mem_coe.mp hx)).2)
  · intro n hn
    refine mem_coe.mpr (mem_filter.mpr ⟨mem_univ _, ?_⟩)
    rw [highPart, ZMod.val_natCast_of_lt (hlt n hn), (hdiv n).mpr hn]
  · intro x _
    exact ZMod.natCast_zmod_val x
  · intro n hn
    exact ZMod.val_natCast_of_lt (hlt n hn)

variable {a c : ℕ} (ha : a % 4 = 1) (hc : c % 2 = 1)
include ha hc

/-- Half a cycle adds half the modulus. -/
theorem iterate_half (k : ℕ) (x : ZMod (2 ^ (k + 1))) :
    (affine (a : ZMod (2 ^ (k + 1))) c)^[2 ^ k] x = x + 2 ^ k := by
  set y := (affine (a : ZMod (2 ^ (k + 1))) c)^[2 ^ k] x
  have hd : (2 : ZMod (2 ^ (k + 1))) ^ (k + 1) = 0 := by
    exact_mod_cast ZMod.natCast_self (2 ^ (k + 1))
  -- the displacement doubles to zero but is not zero
  have hne : y - x ≠ 0 := by
    intro he
    have := (iterate_eq_self_iff ha hc x (2 ^ k)).mp (sub_eq_zero.mp he)
    exact absurd (Nat.le_of_dvd (Nat.two_pow_pos k) this)
      (Nat.not_le.mpr (Nat.pow_lt_pow_right one_lt_two k.lt_succ_self))
  obtain ⟨t, ht⟩ : ∃ t : ℕ, y - x = 2 ^ k * (t : ZMod (2 ^ (k + 1))) := by
    have hdvd := (two_pow_dvd_geom_sum_iff ha k (2 ^ k)).mpr dvd_rfl
    obtain ⟨s, hs⟩ := hdvd
    have hs' : (∑ i ∈ range (2 ^ k), (a : ZMod (2 ^ (k + 1))) ^ i) =
        2 ^ k * (s : ZMod (2 ^ (k + 1))) := by
      exact_mod_cast congrArg (Nat.cast (R := ZMod (2 ^ (k + 1)))) hs
    refine ⟨(s * (((a : ZMod (2 ^ (k + 1))) - 1) * x + c)).val, ?_⟩
    rw [iterate_affine_sub, hs', ZMod.natCast_zmod_val, mul_assoc]
  rcases Nat.even_or_odd' t with ⟨r, rfl | rfl⟩
  · refine absurd ?_ hne
    rw [ht]
    push_cast
    linear_combination (r : ZMod (2 ^ (k + 1))) * hd
  · push_cast at ht
    linear_combination ht + (r : ZMod (2 ^ (k + 1))) * hd

omit ha hc in
theorem highPart_add_half (x : ZMod (2 ^ (h + b + 1))) :
    highPart (b := b + 1) h (x + 2 ^ (h + b)) ≠ highPart (b := b + 1) h x := by
  have hv : (x + 2 ^ (h + b)).val = (x.val + 2 ^ h * 2 ^ b) % (2 ^ h * (2 ^ b * 2)) := by
    have hm : (2 : ℕ) ^ (h + b + 1) = 2 ^ h * (2 ^ b * 2) := by ring
    rw [← hm, ← pow_add, ← ZMod.val_natCast]
    push_cast
    rw [ZMod.natCast_zmod_val]
  have hlt : x.val / 2 ^ h < 2 ^ b * 2 := by
    apply Nat.div_lt_of_lt_mul
    rw [← pow_succ, ← pow_add]
    exact ZMod.val_lt x
  have hpos : 0 < 2 ^ b := Nat.two_pow_pos b
  unfold highPart
  rw [hv, Nat.mod_mul_right_div_self, Nat.add_mul_div_left _ _ (Nat.two_pow_pos h)]
  generalize x.val / 2 ^ h = q at *
  intro he
  rcases lt_or_ge (q + 2 ^ b) (2 ^ b * 2) with hq | hq
  · rw [Nat.mod_eq_of_lt hq] at he
    omega
  · rw [Nat.mod_eq_sub_mod hq, Nat.mod_eq_of_lt (by omega)] at he
    omega

/-- The truncated states have exactly the period of the full ones. -/
theorem periodic_highPart_iff (x : ZMod (2 ^ (h + b + 1))) (p : ℕ) :
    Periodic (fun n => highPart (b := b + 1) h
      ((affine (a : ZMod (2 ^ (h + b + 1))) c)^[n] x)) p ↔ 2 ^ (h + b + 1) ∣ p := by
  set f := affine (a : ZMod (2 ^ (h + b + 1))) c
  have hfull : Periodic (fun n => f^[n] x) (2 ^ (h + b + 1)) := iterate_add_two_pow ha hc x
  constructor
  · intro hp
    by_contra hnd
    have hp0 : p ≠ 0 := by
      rintro rfl
      exact hnd (dvd_zero _)
    obtain ⟨j, o, ⟨i, rfl⟩, rfl⟩ := Nat.exists_eq_two_pow_mul_odd hp0
    have hj : j ≤ h + b := by
      by_contra hj
      exact hnd (Dvd.dvd.mul_right (pow_dvd_pow 2 (by omega)) _)
    -- a multiple of `p` is half a cycle past a whole number of cycles
    have hm : 2 ^ (h + b - j) * (2 ^ j * (2 * i + 1)) = 2 ^ (h + b) + i * 2 ^ (h + b + 1) := by
      rw [← mul_assoc, ← pow_add, Nat.sub_add_cancel hj]
      ring
    have hper := hp.nat_mul (2 ^ (h + b - j)) 0
    have hcyc := hfull.nat_mul i (2 ^ (h + b))
    simp only [Nat.cast_id, hm, zero_add] at hper hcyc
    rw [hcyc, iterate_half ha hc] at hper
    exact highPart_add_half x hper
  · rintro ⟨q, rfl⟩ n
    have := hfull.nat_mul q n
    simp only [Nat.cast_id, mul_comm q] at this
    simp only [this]

theorem highPart_agree_iff (x y : ZMod (2 ^ (h + b + 1))) :
    (∀ n, highPart (b := b + 1) h ((affine (a : ZMod (2 ^ (h + b + 1))) c)^[n] x) =
      highPart (b := b + 1) h ((affine (a : ZMod (2 ^ (h + b + 1))) c)^[n] y)) ↔ x = y := by
  refine ⟨fun hxy => ?_, fun hxy n => by rw [hxy]⟩
  obtain ⟨d, -, hd⟩ := (window_existsUnique ha hc x y 0).exists
  rw [zero_add] at hd
  subst hd
  have hp := (periodic_highPart_iff ha hc x d).mp fun n => by
    simp only [iterate_add_apply]
    exact (hxy n).symm
  exact ((iterate_eq_self_iff ha hc x d).mpr hp).symm

end HighPart

end AffineGenerator
