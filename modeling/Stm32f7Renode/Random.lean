import Mathlib.Data.UInt
import Stm32f7Renode.Library.AffineGenerator

/-!
`app-hardware.c` draws a seed from the RNG peripheral and stores it with
`prvSRand`; `app-network.c` iterates a linear congruential generator for the IP
stack. Both files declare `static UBaseType_t ulNextRand`, so there are two
variables of that name and neither file sees the other's.
-/

namespace Stm32f7Renode.Random
open Function Finset AffineGenerator

structure HardwareStatics where
  ulNextRand : UInt32 := 0
  ulInitialSeed : UInt32 := 0
  ulSeed : UInt32 := 0
deriving DecidableEq, Repr

structure NetworkStatics where
  ulNextRand : UInt32 := 0
deriving DecidableEq, Repr

structure Board where
  hardware : HardwareStatics := {}
  network : NetworkStatics := {}
  rngReads : ℕ := 0
deriving DecidableEq, Repr

/-- The outcome of each `HAL_RNG_GenerateRandomNumber`: a value with `HAL_OK`, or
another status with the destination left alone. -/
abbrev Rng := ℕ → Option UInt32

def halRngGenerateRandomNumber (rng : Rng) (b : Board) : Option UInt32 × Board :=
  (rng b.rngReads, { b with rngReads := b.rngReads + 1 })

/-- Returns `pdPASS` or `pdFAIL`, what `*pulValue` holds afterwards, and the board. -/
def xApplicationGetRandomNumber (rng : Rng) (pulValue : UInt32) (b : Board) :
    Bool × UInt32 × Board :=
  match halRngGenerateRandomNumber rng b with
  | (some ulValue, b) => (true, ulValue, b)
  | (none, b) => (false, pulValue, b)

def xRandom32 (rng : Rng) (pulValue : UInt32) (b : Board) : Bool × UInt32 × Board :=
  xApplicationGetRandomNumber rng pulValue b

def prvSRand (ulSeed : UInt32) (b : Board) : Board :=
  { b with hardware := { b.hardware with ulNextRand := ulSeed } }

/-- The RNG part of `vSetupHardware`: one read straight into `ulSeed`, a second one
through `xRandom32`, whose return value is ignored. -/
def vSetupHardware (rng : Rng) (b : Board) : Board :=
  let (value, b) := halRngGenerateRandomNumber rng b
  let b := { b with hardware := { b.hardware with ulSeed := value.getD b.hardware.ulSeed } }
  let (_, ulSeed, b) := xRandom32 rng b.hardware.ulSeed b
  let b := prvSRand ulSeed { b with hardware := { b.hardware with ulSeed := ulSeed } }
  { b with hardware := { b.hardware with ulInitialSeed := b.hardware.ulSeed } }

def boot (rng : Rng) : Board := vSetupHardware rng {}

def ulMultiplier : UInt32 := 0x015a4e35

def ulIncrement : UInt32 := 1

def uxRand (s : NetworkStatics) : UInt32 × NetworkStatics :=
  let ulNextRand := ulMultiplier * s.ulNextRand + ulIncrement
  ((ulNextRand >>> 16) &&& 0x7fff, { s with ulNextRand })

def ulApplicationGetNextSequenceNumber (_ulSourceAddress : UInt32) (_usSourcePort : UInt16)
    (_ulDestinationAddress : UInt32) (_usDestinationPort : UInt16) (s : NetworkStatics) :
    UInt32 × NetworkStatics := uxRand s

def ipconfigRAND32 (s : NetworkStatics) : UInt32 × NetworkStatics := uxRand s

inductive RandCall
  | uxRand
  | ipconfigRAND32
  | ulApplicationGetNextSequenceNumber (ulSourceAddress : UInt32) (usSourcePort : UInt16)
      (ulDestinationAddress : UInt32) (usDestinationPort : UInt16)
deriving DecidableEq, Repr

def RandCall.run : RandCall → NetworkStatics → UInt32 × NetworkStatics
  | .uxRand, s => Random.uxRand s
  | .ipconfigRAND32, s => Random.ipconfigRAND32 s
  | .ulApplicationGetNextSequenceNumber sa sp da dp, s =>
    Random.ulApplicationGetNextSequenceNumber sa sp da dp s

/-- The statics after the first `n` calls. -/
def staticsAfter (calls : ℕ → RandCall) (s : NetworkStatics) : ℕ → NetworkStatics
  | 0 => s
  | n + 1 => ((calls n).run (staticsAfter calls s n)).2

/-- The value that call `n` returns. -/
def returned (calls : ℕ → RandCall) (s : NetworkStatics) (n : ℕ) : UInt32 :=
  ((calls n).run (staticsAfter calls s n)).1

theorem RandCall.run_eq (call : RandCall) (s : NetworkStatics) : call.run s = Random.uxRand s := by
  cases call <;> rfl

theorem cast_mod_two_pow {j : ℕ} (hj : j ≤ 32) (n : ℕ) :
    ((n % 2 ^ 32 : ℕ) : ZMod (2 ^ j)) = n := by
  rw [ZMod.natCast_eq_natCast_iff', Nat.mod_mod_of_dvd _ (pow_dvd_pow 2 hj)]

def residue (j : ℕ) (s : NetworkStatics) : ZMod (2 ^ j) := s.ulNextRand.toNat

abbrev step (j : ℕ) : ZMod (2 ^ j) → ZMod (2 ^ j) :=
  affine ((0x015a4e35 : ℕ) : ZMod (2 ^ j)) ((1 : ℕ) : ZMod (2 ^ j))

theorem multiplier_mod_four : 0x015a4e35 % 4 = 1 := by decide

theorem increment_mod_two : 1 % 2 = 1 := by decide

theorem residue_uxRand {j : ℕ} (hj : j ≤ 32) (s : NetworkStatics) :
    residue j (uxRand s).2 = step j (residue j s) := by
  have h : (ulMultiplier * s.ulNextRand + ulIncrement).toNat =
      (0x015a4e35 * s.ulNextRand.toNat + 1) % 2 ^ 32 := by
    rw [UInt32.toNat_add, UInt32.toNat_mul, Nat.mod_add_mod]
    rfl
  change (((ulMultiplier * s.ulNextRand + ulIncrement).toNat : ℕ) : ZMod (2 ^ j)) = _
  rw [h, cast_mod_two_pow hj, step, affine, residue, Nat.cast_add, Nat.cast_mul]

theorem residue_staticsAfter {j : ℕ} (hj : j ≤ 32) (calls : ℕ → RandCall) (s : NetworkStatics)
    (n : ℕ) : residue j (staticsAfter calls s n) = (step j)^[n] (residue j s) := by
  induction n with
  | zero => rfl
  | succ n ih => rw [iterate_succ_apply', ← ih, ← residue_uxRand hj, staticsAfter, RandCall.run_eq]

theorem residue_injective : Injective (residue 32) := by
  intro s t h
  have hv := congrArg ZMod.val h
  simp only [residue, ZMod.val_natCast_of_lt (UInt32.toNat_lt _)] at hv
  cases s
  cases t
  exact congrArg NetworkStatics.mk (UInt32.toNat_inj.mp hv)

theorem uxRand_toNat (s : NetworkStatics) :
    (uxRand s).1.toNat = highPart (b := 15) 16 (residue 31 (uxRand s).2) := by
  have hval : (residue 31 (uxRand s).2).val = (uxRand s).2.ulNextRand.toNat % 2 ^ 31 :=
    ZMod.val_natCast _ _
  change ((uxRand s).2.ulNextRand >>> 16 &&& 0x7fff).toNat = _
  rw [highPart, hval, UInt32.toNat_and, UInt32.toNat_shiftRight]
  change (uxRand s).2.ulNextRand.toNat >>> 16 &&& (2 ^ 15 - 1) = _
  rw [Nat.and_two_pow_sub_one_eq_mod, Nat.shiftRight_eq_div_pow]
  exact (Nat.mod_mul_right_div_self _ (2 ^ 16) (2 ^ 15)).symm

theorem returned_toNat (calls : ℕ → RandCall) (s : NetworkStatics) (n : ℕ) :
    (returned calls s n).toNat =
      highPart (b := 15) 16 ((step 31)^[n] (step 31 (residue 31 s))) := by
  rw [returned, RandCall.run_eq, uxRand_toNat, residue_uxRand (by norm_num),
    residue_staticsAfter (by norm_num), ← iterate_succ_apply' (step 31), iterate_succ_apply]

theorem periodic_returned_iff (calls : ℕ → RandCall) (s : NetworkStatics) (p : ℕ) :
    Periodic (returned calls s) p ↔ 2 ^ 31 ∣ p := by
  rw [← periodic_highPart_iff (h := 16) (b := 14) multiplier_mod_four increment_mod_two
    (step 31 (residue 31 s)) p]
  simp only [Periodic, ← UInt32.toNat_inj, returned_toNat]

theorem card_returned_eq (calls : ℕ → RandCall) (s : NetworkStatics) (w : ℕ) (v : Fin 0x8000) :
    #{i ∈ range (2 ^ 31) | (returned calls s (w + i)).toNat = v} = 65536 := by
  have hv : (v : ℕ) < 2 ^ 15 := v.isLt.trans_eq (by norm_num)
  calc
    _ = #{i ∈ range (2 ^ 31) |
        highPart (b := 15) 16 ((step 31)^[w + i] (step 31 (residue 31 s))) = v} := by
      rw [filter_congr fun i _ => by rw [returned_toNat]]
    _ = 2 ^ 16 := (card_window_filter multiplier_mod_four increment_mod_two _ w
        (fun y => highPart (b := 15) 16 y = v)).trans (card_highPart_eq hv)
    _ = 65536 := by norm_num

theorem staticsAfter_existsUnique (calls : ℕ → RandCall) (s : NetworkStatics) (w : ℕ)
    (t : NetworkStatics) : ∃! i, i < 2 ^ 32 ∧ staticsAfter calls s (w + i) = t := by
  have h := window_existsUnique multiplier_mod_four increment_mod_two
    (residue 32 s) (residue 32 t) w
  simpa only [← residue_staticsAfter le_rfl calls, residue_injective.eq_iff] using h

/-- Whatever mixture of calls is made and wherever the state starts, the returned values
have least period `2 ^ 31` and are equidistributed over it, and the state has period `2 ^ 32`. -/
theorem random_number_cycle (calls : ℕ → RandCall) (s : NetworkStatics) :
    (∀ p, Periodic (returned calls s) p ↔ 2 ^ 31 ∣ p) ∧
    (∀ (w : ℕ) (v : Fin 0x8000),
      #{i ∈ range (2 ^ 31) | (returned calls s (w + i)).toNat = v} = 65536) ∧
    (∀ (w : ℕ) (t : NetworkStatics), ∃! i, i < 2 ^ 32 ∧ staticsAfter calls s (w + i) = t) :=
  ⟨periodic_returned_iff calls s, card_returned_eq calls s, staticsAfter_existsUnique calls s⟩

/-- Two starting states give the same values exactly when they agree modulo `2 ^ 31`. -/
theorem returned_agree_iff (calls calls' : ℕ → RandCall) (s t : NetworkStatics) :
    (∀ n, returned calls s n = returned calls' t n) ↔
      s.ulNextRand.toNat % 2 ^ 31 = t.ulNextRand.toNat % 2 ^ 31 := by
  simp only [← UInt32.toNat_inj, returned_toNat]
  rw [highPart_agree_iff (h := 16) (b := 14) multiplier_mod_four increment_mod_two,
    (affine_injective multiplier_mod_four increment_mod_two).eq_iff, residue, residue,
    ZMod.natCast_eq_natCast_iff']

theorem boot_network (rng : Rng) : (boot rng).network = {} := by
  simp only [boot, vSetupHardware, halRngGenerateRandomNumber, xRandom32,
    xApplicationGetRandomNumber, prvSRand]
  cases rng (0 + 1) <;> rfl

/-- The random numbers after two boots differ somewhere. -/
def BootsDiffer (rng rng' : Rng) (calls calls' : ℕ → RandCall) : Prop :=
  ∃ n, returned calls (boot rng).network n ≠ returned calls' (boot rng').network n

/-- No two boots, whatever their seeds, are told apart by their random numbers. -/
theorem boots_never_differ (rng rng' : Rng) (calls calls' : ℕ → RandCall) :
    ¬ BootsDiffer rng rng' calls calls' := by
  rintro ⟨n, hn⟩
  rw [boot_network, boot_network] at hn
  exact hn ((returned_agree_iff calls calls' {} {}).mpr rfl n)

/-- Seeds 1 and 2 differ modulo `2 ^ 31`, both reads succeed, and yet the values agree. -/
theorem seeds_one_two_agree :
    ¬ ∀ (rng rng' : Rng) (s s' : UInt32), rng 0 ≠ none → rng' 0 ≠ none →
      rng 1 = some s → rng' 1 = some s' → s.toNat % 2 ^ 31 ≠ s'.toNat % 2 ^ 31 →
      BootsDiffer rng rng' (fun _ => .uxRand) (fun _ => .uxRand) := by
  intro h
  obtain ⟨n, hn⟩ :=
    h (fun _ => some 1) (fun _ => some 2) 1 2 (by simp) (by simp) rfl rfl (by decide)
  rw [boot_network, boot_network] at hn
  exact hn rfl

end Stm32f7Renode.Random
