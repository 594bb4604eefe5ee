import Stm32f7Renode.Library.Thumb

namespace Stm32f7Renode.Startup
open Thumb

inductive Label
  | CopyDataInit | LoopCopyDataInit | FillZerobss | LoopFillZerobss
deriving DecidableEq, Repr

inductive Function
  | SystemInit | __libc_init_array | main
deriving DecidableEq, Repr

/-- The addresses that the startup code takes from the linker. -/
structure Symbols where
  _estack : Word
  _sidata : Word
  _sdata : Word
  _edata : Word
  _sbss : Word
  _ebss : Word
deriving DecidableEq, Repr

variable (y : Symbols)

def loopFillZerobss : List (Instr Label Function) :=
  [.ldrConst .r3 y._ebss, .cmp .r2 .r3, .bcc .FillZerobss,
    .bl .SystemInit, .bl .__libc_init_array, .bl .main, .bxLr]

def fillZerobss : List (Instr Label Function) :=
  [.movs .r3 0, .strPost .r3 .r2 4, .label .LoopFillZerobss] ++ loopFillZerobss y

def loopCopyDataInit : List (Instr Label Function) :=
  [.ldrConst .r0 y._sdata, .ldrConst .r3 y._edata, .adds .r2 .r0 .r1, .cmp .r2 .r3,
    .bcc .CopyDataInit, .ldrConst .r2 y._sbss, .b .LoopFillZerobss, .label .FillZerobss] ++
  fillZerobss y

def copyDataInit : List (Instr Label Function) :=
  [.ldrConst .r3 y._sidata, .ldr .r3 .r3 .r1, .str .r3 .r0 .r1, .addsImm .r1 .r1 4,
    .label .LoopCopyDataInit] ++ loopCopyDataInit y

def Reset_Handler : List (Instr Label Function) :=
  [.ldrConst .sp y._estack, .movs .r1 0, .b .LoopCopyDataInit, .label .CopyDataInit] ++
  copyDataInit y

/-- The listing from the first call on. -/
def calls : List (Instr Label Function) :=
  [.bl .SystemInit, .bl .__libc_init_array, .bl .main, .bxLr]

namespace Symbols

def dataSize : ℕ := offset y._sdata y._edata

def bssSize : ℕ := offset y._sbss y._ebss

/-- What the two loops rely on: sections of whole words that do not wrap around, initial
values that can be read and are not overwritten by their copy, and both sections writable. -/
structure WellPlaced (map : MemoryMap) : Prop where
  data_order : y._sdata.toNat ≤ y._edata.toNat
  data_words : 4 ∣ y.dataSize
  bss_order : y._sbss.toNat ≤ y._ebss.toNat
  bss_words : 4 ∣ y.bssSize
  image_readable : Block map.readable y._sidata y.dataSize
  image_apart : ∀ i < y.dataSize, y.dataSize ≤ offset y._sdata (y._sidata + BitVec.ofNat 32 i)
  data_writable : Block map.writable y._sdata y.dataSize
  bss_writable : Block map.writable y._sbss y.bssSize

def copied (mem : Memory) (n : ℕ) : Memory :=
  fill mem y._sdata n fun i => mem (y._sidata + BitVec.ofNat 32 i)

/-- The memory `main` relies on. -/
def initialised (mem : Memory) : Memory :=
  fill (y.copied mem y.dataSize) y._sbss y.bssSize fun _ => 0

end Symbols

variable {y} {map : MemoryMap}

/-- The loop head with `4 * k` bytes copied. -/
structure CopyHead (y : Symbols) (mem : Memory) (k : ℕ) (s : State Label Function) : Prop where
  code : s.code = loopCopyDataInit y
  sp : s.cpu.reg .sp = y._estack
  r1 : s.cpu.reg .r1 = BitVec.ofNat 32 (4 * k)
  mem : s.cpu.mem = y.copied mem (4 * k)

theorem block_word {p : Word → Bool} {a : Word} {n k : ℕ} (h : Block p a n) (hk : 4 * k + 4 ≤ n) :
    Block p (a + BitVec.ofNat 32 (4 * k)) 4 := by
  intro i hi
  rw [add_assoc, ← BitVec.ofNat_add]
  exact h _ (by omega)

theorem storeWord_copied (h : y.WellPlaced map) {mem : Memory} {k : ℕ}
    (hk : 4 * k + 4 ≤ y.dataSize) :
    storeWord (y.copied mem (4 * k)) (y._sdata + BitVec.ofNat 32 (4 * k))
      (loadWord (y.copied mem (4 * k)) (y._sidata + BitVec.ofNat 32 (4 * k))) =
      y.copied mem (4 * (k + 1)) := by
  have hsize : y.dataSize < 2 ^ 32 := (y._edata - y._sdata).isLt
  unfold storeWord
  apply fill_fill _ _ _ _ (by omega)
  intro i hi
  rw [byte_loadWord _ _ hi, add_assoc, ← BitVec.ofNat_add]
  apply fill_of_le
  have := h.image_apart (4 * k + i) (by omega)
  omega

theorem copy_test (h : y.WellPlaced map) {k : ℕ} (hk : 4 * k ≤ y.dataSize) :
    y._edata.toNat ≤ (y._sdata + BitVec.ofNat 32 (4 * k)).toNat ↔ y.dataSize ≤ 4 * k := by
  have horder := h.data_order
  unfold Symbols.dataSize offset at *
  bv_omega

theorem target_copyDataInit : target .CopyDataInit (Reset_Handler y) = some (copyDataInit y) := rfl

theorem target_fillZerobss : target .FillZerobss (Reset_Handler y) = some (fillZerobss y) := rfl

theorem target_loopCopyDataInit :
    target .LoopCopyDataInit (Reset_Handler y) = some (loopCopyDataInit y) := rfl

theorem target_loopFillZerobss :
    target .LoopFillZerobss (Reset_Handler y) = some (loopFillZerobss y) := rfl

theorem copy_round (h : y.WellPlaced map) (mem : Memory) (k : ℕ) (hk : k < y.dataSize / 4)
    (s : State Label Function) (hs : CopyHead y mem k s) :
    Leads map (Reset_Handler y) s (CopyHead y mem (k + 1)) := by
  obtain ⟨code, c⟩ := s
  obtain ⟨rfl, hsp, hr1, hmem⟩ := hs
  dsimp only at hsp hr1 hmem
  have hread : Block map.readable (y._sidata + c.reg .r1) 4 :=
    hr1 ▸ block_word h.image_readable (by omega)
  have hwrite : Block map.writable (y._sdata + c.reg .r1) 4 :=
    hr1 ▸ block_word h.data_writable (by omega)
  have htest : (y._sdata + c.reg .r1).toNat < y._edata.toNat := by
    have := copy_test (k := k) h (by omega)
    rw [hr1]
    omega
  iterate 3 apply Leads.next rfl
  apply Leads.cmp_bcc_lower (by simpa using htest) target_copyDataInit
  apply Leads.next rfl
  apply Leads.next (step_ldr (by simpa using hread))
  apply Leads.next (step_str (by simpa using hwrite))
  iterate 2 apply Leads.next rfl
  apply Leads.here
  refine ⟨rfl, by simpa using hsp, ?_, ?_⟩
  · simp [hr1, Nat.mul_add, BitVec.ofNat_add]
  · rw [← storeWord_copied h (by omega)]
    simp [hr1, hmem]

/-- The loop head with `4 * k` bytes of `.bss` cleared in the memory `mem`. -/
structure FillHead (y : Symbols) (mem : Memory) (k : ℕ) (s : State Label Function) : Prop where
  code : s.code = loopFillZerobss y
  sp : s.cpu.reg .sp = y._estack
  r2 : s.cpu.reg .r2 = y._sbss + BitVec.ofNat 32 (4 * k)
  mem : s.cpu.mem = fill mem y._sbss (4 * k) fun _ => 0

theorem storeWord_cleared (mem : Memory) {k : ℕ} (hk : 4 * k + 4 ≤ y.bssSize) :
    storeWord (fill mem y._sbss (4 * k) fun _ => 0) (y._sbss + BitVec.ofNat 32 (4 * k)) 0 =
      fill mem y._sbss (4 * (k + 1)) fun _ => 0 := by
  have hsize : y.bssSize < 2 ^ 32 := (y._ebss - y._sbss).isLt
  exact fill_fill _ _ _ _ (by omega) fun i _ => byte_zero i

theorem fill_test (h : y.WellPlaced map) {k : ℕ} (hk : 4 * k ≤ y.bssSize) :
    y._ebss.toNat ≤ (y._sbss + BitVec.ofNat 32 (4 * k)).toNat ↔ y.bssSize ≤ 4 * k := by
  have horder := h.bss_order
  unfold Symbols.bssSize offset at *
  bv_omega

theorem fill_round (h : y.WellPlaced map) (mem : Memory) (k : ℕ) (hk : k < y.bssSize / 4)
    (s : State Label Function) (hs : FillHead y mem k s) :
    Leads map (Reset_Handler y) s (FillHead y mem (k + 1)) := by
  obtain ⟨code, c⟩ := s
  obtain ⟨rfl, hsp, hr2, hmem⟩ := hs
  dsimp only at hsp hr2 hmem
  have hwrite : Block map.writable (c.reg .r2) 4 := hr2 ▸ block_word h.bss_writable (by omega)
  have htest : (c.reg .r2).toNat < y._ebss.toNat := by
    have := fill_test (k := k) h (by omega)
    rw [hr2]
    omega
  apply Leads.next rfl
  apply Leads.cmp_bcc_lower (by simpa using htest) target_fillZerobss
  apply Leads.next rfl
  apply Leads.next (step_strPost (by simpa using hwrite))
  apply Leads.next rfl
  apply Leads.here
  refine ⟨rfl, by simpa using hsp, ?_, ?_⟩
  · simp [hr2, Nat.mul_add, BitVec.ofNat_add, add_assoc]
  · rw [← storeWord_cleared mem (by omega)]
    simp [hr2, hmem]

structure Started (y : Symbols) (mem : Memory) (s : State Label Function) : Prop where
  code : s.code = calls
  sp : s.cpu.reg .sp = y._estack
  mem : s.cpu.mem = y.initialised mem

theorem enter_copy (c : Cpu) :
    Leads map (Reset_Handler y) ⟨Reset_Handler y, c⟩ (CopyHead y c.mem 0) := by
  iterate 2 apply Leads.next rfl
  apply Leads.next (step_b target_loopCopyDataInit)
  apply Leads.here
  refine ⟨rfl, by simp, by simp, ?_⟩
  simp [Symbols.copied, fill_zero]

theorem leave_copy (h : y.WellPlaced map) (mem : Memory) (s : State Label Function)
    (hs : CopyHead y mem (y.dataSize / 4) s) :
    Leads map (Reset_Handler y) s (FillHead y (y.copied mem y.dataSize) 0) := by
  obtain ⟨code, c⟩ := s
  obtain ⟨rfl, hsp, hr1, hmem⟩ := hs
  dsimp only at hsp hr1 hmem
  have hsize : 4 * (y.dataSize / 4) = y.dataSize := Nat.mul_div_cancel' h.data_words
  have htest : y._edata.toNat ≤ (y._sdata + c.reg .r1).toNat := by
    have := copy_test (k := y.dataSize / 4) h (by omega)
    rw [hr1]
    omega
  iterate 3 apply Leads.next rfl
  apply Leads.cmp_bcc_same (by simpa using htest)
  apply Leads.next rfl
  apply Leads.next (step_b target_loopFillZerobss)
  apply Leads.here
  refine ⟨rfl, by simpa using hsp, by simp, ?_⟩
  simp [hmem, hsize, fill_zero]

theorem leave_fill (h : y.WellPlaced map) (mem : Memory) (s : State Label Function)
    (hs : FillHead y (y.copied mem y.dataSize) (y.bssSize / 4) s) :
    Leads map (Reset_Handler y) s (Started y mem) := by
  obtain ⟨code, c⟩ := s
  obtain ⟨rfl, hsp, hr2, hmem⟩ := hs
  dsimp only at hsp hr2 hmem
  have hsize : 4 * (y.bssSize / 4) = y.bssSize := Nat.mul_div_cancel' h.bss_words
  have htest : y._ebss.toNat ≤ (c.reg .r2).toNat := by
    have := fill_test (k := y.bssSize / 4) h (by omega)
    rw [hr2]
    omega
  apply Leads.next rfl
  apply Leads.cmp_bcc_same (by simpa using htest)
  apply Leads.here
  refine ⟨rfl, by simpa using hsp, ?_⟩
  simp [hmem, hsize, Symbols.initialised]

/-- From any state of the processor the handler arrives in front of the call of `SystemInit`
with both sections initialised and no access outside the memory map. -/
theorem resetHandler_leads (h : y.WellPlaced map) (c : Cpu) :
    Leads map (Reset_Handler y) ⟨Reset_Handler y, c⟩ (Started y c.mem) := by
  have hcopy : Leads map (Reset_Handler y) ⟨Reset_Handler y, c⟩
      (CopyHead y c.mem (y.dataSize / 4)) :=
    (enter_copy c).bind fun _ => Leads.loop (copy_round h c.mem)
  have hclear : Leads map (Reset_Handler y) ⟨Reset_Handler y, c⟩
      (FillHead y (y.copied c.mem y.dataSize) (y.bssSize / 4)) :=
    (hcopy.bind (leave_copy h c.mem)).bind fun _ => Leads.loop (fill_round h _)
  exact hclear.bind (leave_fill h c.mem)

end Stm32f7Renode.Startup
