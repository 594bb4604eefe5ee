import Mathlib.Data.UInt
import Stm32f7Renode.Library.ClockTree

namespace Stm32f7Renode.SystemClock

structure Registers where
  CR : UInt32
  CFGR : UInt32
  PLLCFGR : UInt32
  CIR : UInt32
deriving DecidableEq, Repr

/-- The masks that the device header defines, and how wide it makes the fields. -/
structure DeviceHeader where
  RCC_CFGR_SWS : UInt32
  RCC_CFGR_HPRE : UInt32
  RCC_PLLCFGR_PLLSRC : UInt32
  RCC_PLLCFGR_PLLM : UInt32
  RCC_PLLCFGR_PLLN : UInt32
  RCC_PLLCFGR_PLLP : UInt32
  hpre_width : RCC_CFGR_HPRE.toNat >>> 4 < 2 ^ 4
  plln_width : RCC_PLLCFGR_PLLN.toNat >>> 6 < 2 ^ 9
  pllp_width : RCC_PLLCFGR_PLLP.toNat >>> 16 < 2 ^ 2

def HSE_VALUE : UInt32 := 25000000
def HSI_VALUE : UInt32 := 16000000

def SystemCoreClock : UInt32 := 16000000

def AHBPrescTable : List UInt8 := [0, 0, 0, 0, 0, 0, 0, 0, 1, 2, 3, 4, 6, 7, 8, 9]

def SystemInit (RCC : Registers) : Registers where
  CR := ((RCC.CR ||| 0x00000001) &&& 0xFEF6FFFF) &&& 0xFFFBFFFF
  CFGR := 0x00000000
  PLLCFGR := 0x24003010
  CIR := 0x00000000

variable (dev : DeviceHeader) (RCC : Registers)

/-- The system clock from the loop, or `none` where the code divides by zero. -/
def pllClock : Option UInt32 :=
  let pllsource := (RCC.PLLCFGR &&& dev.RCC_PLLCFGR_PLLSRC) >>> 22
  let pllm := RCC.PLLCFGR &&& dev.RCC_PLLCFGR_PLLM
  if pllm = 0 then none
  else
    let plln := (RCC.PLLCFGR &&& dev.RCC_PLLCFGR_PLLN) >>> 6
    let pllvco :=
      if pllsource ≠ 0 then (HSE_VALUE / pllm) * plln else (HSI_VALUE / pllm) * plln
    let pllp := (((RCC.PLLCFGR &&& dev.RCC_PLLCFGR_PLLP) >>> 16) + 1) * 2
    some (pllvco / pllp)

def sysclk : Option UInt32 :=
  let tmp := RCC.CFGR &&& dev.RCC_CFGR_SWS
  if tmp = 0x00 then some HSI_VALUE
  else if tmp = 0x04 then some HSE_VALUE
  else if tmp = 0x08 then pllClock dev RCC
  else some HSI_VALUE

def SystemCoreClockUpdate : Option UInt32 := do
  let clock ← sysclk dev RCC
  let tmp ← AHBPrescTable[((RCC.CFGR &&& dev.RCC_CFGR_HPRE) >>> 4).toNat]?
  return clock >>> tmp.toUInt32

def pllm : ℕ := (RCC.PLLCFGR &&& dev.RCC_PLLCFGR_PLLM).toNat
def plln : ℕ := (RCC.PLLCFGR &&& dev.RCC_PLLCFGR_PLLN).toNat >>> 6
def pllp : ℕ := (RCC.PLLCFGR &&& dev.RCC_PLLCFGR_PLLP).toNat >>> 16
def hpre : ℕ := (RCC.CFGR &&& dev.RCC_CFGR_HPRE).toNat >>> 4

def ahbShift (code : ℕ) : ℕ :=
  if code < 8 then 0 else if code < 12 then code - 7 else code - 6

def clockTree : ClockTree :=
  if RCC.CFGR &&& dev.RCC_CFGR_SWS = 0x08 then
    { source := if (RCC.PLLCFGR &&& dev.RCC_PLLCFGR_PLLSRC) >>> 22 = 0 then 16000000
        else 25000000
      prescaler := pllm dev RCC
      multiplier := plln dev RCC
      divider := (pllp dev RCC + 1) * 2
      shift := ahbShift (hpre dev RCC) }
  else
    { source := if RCC.CFGR &&& dev.RCC_CFGR_SWS = 0x04 then 25000000 else 16000000
      prescaler := 1
      multiplier := 1
      divider := 1
      shift := ahbShift (hpre dev RCC) }

theorem shifted_lt {x m : UInt32} {k w : ℕ} (hm : m.toNat >>> k < w) :
    (x &&& m).toNat >>> k < w := by
  apply lt_of_le_of_lt _ hm
  rw [UInt32.toNat_and, Nat.shiftRight_eq_div_pow, Nat.shiftRight_eq_div_pow]
  exact Nat.div_le_div_right Nat.and_le_right

theorem plln_lt : plln dev RCC < 2 ^ 9 := shifted_lt dev.plln_width
theorem pllp_lt : pllp dev RCC < 2 ^ 2 := shifted_lt dev.pllp_width
theorem hpre_lt : hpre dev RCC < 2 ^ 4 := shifted_lt dev.hpre_width

theorem ahbPrescTable_code {code : ℕ} (h : code < 2 ^ 4) :
    ∃ e : UInt8, AHBPrescTable[code]? = some e ∧ e.toNat = ahbShift code ∧
      ahbShift code < 10 := by
  revert code
  decide

variable {dev RCC}

theorem plln_toNat :
    ((RCC.PLLCFGR &&& dev.RCC_PLLCFGR_PLLN) >>> 6).toNat = plln dev RCC :=
  UInt32.toNat_shiftRight _ _

/-- The divider after the loop is at most 8: the addition and the product do not wrap. -/
theorem pllp_toNat :
    ((((RCC.PLLCFGR &&& dev.RCC_PLLCFGR_PLLP) >>> 16) + 1) * 2).toNat =
      (pllp dev RCC + 1) * 2 := by
  have hp := pllp_lt dev RCC
  have hs : ((RCC.PLLCFGR &&& dev.RCC_PLLCFGR_PLLP) >>> 16).toNat = pllp dev RCC :=
    UInt32.toNat_shiftRight _ _
  rw [UInt32.toNat_mul, UInt32.toNat_add, hs]
  show (pllp dev RCC + 1) % 2 ^ 32 * 2 % 2 ^ 32 = _
  omega

theorem pllClock_toNat (hsws : RCC.CFGR &&& dev.RCC_CFGR_SWS = 0x08) {v : UInt32}
    (h : pllClock dev RCC = some v) :
    v.toNat = (clockTree dev RCC).vco % 2 ^ 32 / (clockTree dev RCC).divider := by
  simp only [pllClock] at h
  split at h
  case isTrue => cases h
  case isFalse hm =>
    rw [← Option.some.inj h, UInt32.toNat_div, pllp_toNat, clockTree, if_pos hsws]
    by_cases hsrc : (RCC.PLLCFGR &&& dev.RCC_PLLCFGR_PLLSRC) >>> 22 = 0
    · rw [if_neg (not_not.mpr hsrc), UInt32.toNat_mul, UInt32.toNat_div, plln_toNat]
      simp only [hsrc, if_true]
      rfl
    · rw [if_pos hsrc, UInt32.toNat_mul, UInt32.toNat_div, plln_toNat]
      simp only [hsrc, if_false]
      rfl

theorem undivided_vco {n s : ℕ} (h : n < 2 ^ 32) :
    (ClockTree.mk n 1 1 1 s).vco % 2 ^ 32 / (ClockTree.mk n 1 1 1 s).divider = n := by
  simp only [ClockTree.vco, Nat.div_one, Nat.mul_one]
  exact Nat.mod_eq_of_lt h

theorem sysclk_toNat {v : UInt32} (h : sysclk dev RCC = some v) :
    v.toNat = (clockTree dev RCC).vco % 2 ^ 32 / (clockTree dev RCC).divider := by
  simp only [sysclk] at h
  split_ifs at h with hsi hse hpll
  case pos =>
    have h8 : RCC.CFGR &&& dev.RCC_CFGR_SWS ≠ 0x08 := by rw [hsi]; decide
    have h4 : RCC.CFGR &&& dev.RCC_CFGR_SWS ≠ 0x04 := by rw [hsi]; decide
    rw [← Option.some.inj h, clockTree, if_neg h8, if_neg h4]
    exact (undivided_vco (by decide)).symm
  case pos =>
    have h8 : RCC.CFGR &&& dev.RCC_CFGR_SWS ≠ 0x08 := by rw [hse]; decide
    rw [← Option.some.inj h, clockTree, if_neg h8, if_pos hse]
    exact (undivided_vco (by decide)).symm
  case pos => exact pllClock_toNat hpll h
  case neg =>
    rw [← Option.some.inj h, clockTree, if_neg hpll, if_neg hse]
    exact (undivided_vco (by decide)).symm

theorem clockTree_shift : (clockTree dev RCC).shift = ahbShift (hpre dev RCC) := by
  unfold clockTree
  split <;> rfl

/-- The code computes the frequency of the selected tree with truncating divisions. -/
theorem coreClock_toNat {v : UInt32} (h : SystemCoreClockUpdate dev RCC = some v) :
    v.toNat = (clockTree dev RCC).computed 32 := by
  obtain ⟨e, he, hshift, hlt⟩ := ahbPrescTable_code (hpre_lt dev RCC)
  have hcode : ((RCC.CFGR &&& dev.RCC_CFGR_HPRE) >>> 4).toNat = hpre dev RCC :=
    UInt32.toNat_shiftRight _ _
  obtain ⟨clock, hclock, h⟩ := Option.bind_eq_some_iff.mp h
  rw [hcode, he] at h
  rw [← Option.some.inj h, UInt32.toNat_shiftRight, UInt8.toNat_toUInt32, hshift,
    Nat.mod_eq_of_lt (by omega), Nat.shiftRight_eq_div_pow, sysclk_toNat hclock,
    ← clockTree_shift]
  rfl

theorem clockTree_divider : 0 < (clockTree dev RCC).divider := by
  unfold clockTree
  split
  · exact Nat.mul_pos (Nat.succ_pos _) Nat.two_pos
  · exact Nat.one_pos

/-- The fields are too narrow for truncation to lose as much as a wrap does. -/
theorem clockTree_room :
    (clockTree dev RCC).multiplier + (clockTree dev RCC).scale ≤ 2 ^ 32 := by
  have hn := plln_lt dev RCC
  have hp := pllp_lt dev RCC
  obtain ⟨_, _, _, hs⟩ := ahbPrescTable_code (hpre_lt dev RCC)
  have hpow : 2 ^ ahbShift (hpre dev RCC) ≤ 2 ^ 9 := Nat.pow_le_pow_right Nat.two_pos (by omega)
  unfold clockTree ClockTree.scale
  split
  · have hscale := Nat.mul_le_mul (show (pllp dev RCC + 1) * 2 ≤ 8 by omega) hpow
    show plln dev RCC + (pllp dev RCC + 1) * 2 * 2 ^ ahbShift (hpre dev RCC) ≤ 2 ^ 32
    omega
  · show 1 + 1 * 2 ^ ahbShift (hpre dev RCC) ≤ 2 ^ 32
    omega

/-- The number in `SystemCoreClock` is the frequency of the core clock, less than what the
divisions truncate away, exactly when the product for the loop fits in 32 bits. -/
theorem core_clock_accurate {v : UInt32} (h : SystemCoreClockUpdate dev RCC = some v) :
    (clockTree dev RCC).Accurate v.toNat ↔ (clockTree dev RCC).vco < 2 ^ 32 := by
  rw [coreClock_toNat h]
  exact ClockTree.accurate_computed_iff clockTree_divider clockTree_room

def stm32f746 : DeviceHeader where
  RCC_CFGR_SWS := 0x0000000C
  RCC_CFGR_HPRE := 0x000000F0
  RCC_PLLCFGR_PLLSRC := 0x00400000
  RCC_PLLCFGR_PLLM := 0x0000003F
  RCC_PLLCFGR_PLLN := 0x00007FC0
  RCC_PLLCFGR_PLLP := 0x00030000
  hpre_width := by decide
  plln_width := by decide
  pllp_width := by decide

/-- With an input divider of 25 the number is right, with one of 2 the product wraps. -/
theorem core_clock_accurate_wraps :
    (clockTree stm32f746 ⟨0, 0x8, 0x406C19, 0⟩).Accurate 216000000 ∧
      ¬(clockTree stm32f746 ⟨0, 0x8, 0x407FC2, 0⟩).Accurate 1046266352 :=
  ⟨(core_clock_accurate (v := 216000000) (by decide)).mpr (by decide),
    (core_clock_accurate (v := 1046266352) (by decide)).not.mpr (by decide)⟩

/-- With an input divider of at least 3 the product fits, whatever the other fields are. -/
theorem vco_fits (hm : RCC.CFGR &&& dev.RCC_CFGR_SWS = 0x08 → 3 ≤ pllm dev RCC) :
    (clockTree dev RCC).vco < 2 ^ 32 := by
  have hn := plln_lt dev RCC
  by_cases hsws : RCC.CFGR &&& dev.RCC_CFGR_SWS = 0x08
  · rw [clockTree, if_pos hsws]
    have hq : (if (RCC.PLLCFGR &&& dev.RCC_PLLCFGR_PLLSRC) >>> 22 = 0 then 16000000
        else 25000000) / pllm dev RCC ≤ 25000000 / 3 :=
      Nat.div_le_div (by split <;> decide) (hm hsws) (by decide)
    apply lt_of_le_of_lt (Nat.mul_le_mul hq (show plln dev RCC ≤ 511 by omega))
    decide
  · rw [clockTree, if_neg hsws]
    simp only [ClockTree.vco, Nat.div_one, Nat.mul_one]
    split <;> decide

/-- The code divides by zero exactly when the loop is used with an input divider of zero. -/
theorem coreClock_eq_none : SystemCoreClockUpdate dev RCC = none ↔
    RCC.CFGR &&& dev.RCC_CFGR_SWS = 0x08 ∧ pllm dev RCC = 0 := by
  obtain ⟨e, he, -, -⟩ := ahbPrescTable_code (hpre_lt dev RCC)
  have hcode : ((RCC.CFGR &&& dev.RCC_CFGR_HPRE) >>> 4).toNat = hpre dev RCC :=
    UInt32.toNat_shiftRight _ _
  have hclock : SystemCoreClockUpdate dev RCC = none ↔ sysclk dev RCC = none := by
    unfold SystemCoreClockUpdate
    rw [hcode, he]
    cases sysclk dev RCC <;> simp
  have hzero : pllm dev RCC = 0 ↔ RCC.PLLCFGR &&& dev.RCC_PLLCFGR_PLLM = 0 :=
    UInt32.toNat_inj (b := 0)
  rw [hclock, hzero]
  simp only [sysclk, pllClock]
  split_ifs with hsi hse hpll hm
  · simp [hsi]
  · simp [hse]
  · simp [hpll, hm]
  · simp [hm]
  · simp [hpll]

def SystemClock_Config : ClockTree where
  source := 25000000
  prescaler := 25
  multiplier := 432
  divider := 2
  shift := 0

/-- Registers that hold these settings give the 216 MHz of its comment, with nothing lost. -/
theorem configured_clock (h : clockTree dev RCC = SystemClock_Config) :
    SystemCoreClockUpdate dev RCC = some 216000000 ∧ SystemClock_Config.rate = 216000000 := by
  have hv : SystemClock_Config.computed 32 = 216000000 := by decide
  constructor
  · cases hclock : SystemCoreClockUpdate dev RCC with
    | none =>
      obtain ⟨hsws, hm⟩ := coreClock_eq_none.mp hclock
      have hprescaler := congrArg ClockTree.prescaler h
      rw [clockTree, if_pos hsws] at hprescaler
      exact absurd (hm.symm.trans hprescaler) (by decide)
    | some v =>
      have hn := coreClock_toNat hclock
      rw [h, hv] at hn
      rw [← UInt32.toNat_inj.mp (hn.trans (by decide : 216000000 = (216000000 : UInt32).toNat))]
  · rw [← ClockTree.computed_exact (t := SystemClock_Config) (w := 32) (by decide) (by decide)
      (by decide), hv]
    rfl

theorem reset_clock : SystemCoreClockUpdate dev (SystemInit RCC) = some SystemCoreClock := by
  simp [SystemCoreClockUpdate, sysclk, SystemInit]
  rfl

end Stm32f7Renode.SystemClock
