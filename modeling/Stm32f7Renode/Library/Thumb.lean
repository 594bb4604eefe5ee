import Mathlib.Data.BitVec
import Mathlib.Logic.Function.Basic

/-!
Straight-line code with labels over core registers, the carry flag and a byte-addressed
little-endian memory. A memory map says which bytes can be read and which can be written;
an access outside it has no successor state. The flags that no modelled instruction reads
are left out.
-/

namespace Thumb

abbrev Word := BitVec 32

abbrev Memory := Word → BitVec 8

inductive Reg
  | r0 | r1 | r2 | r3 | sp
deriving DecidableEq, Repr

/-- The instructions, over the labels `L` of the listing and the functions `F` it calls. -/
inductive Instr (L F : Type*)
  | label (l : L)
  /-- `ldr rd, =value` -/
  | ldrConst (rd : Reg) (value : Word)
  | movs (rd : Reg) (imm : Word)
  | ldr (rt rn rm : Reg)
  | str (rt rn rm : Reg)
  /-- `str rt, [rn], #imm` -/
  | strPost (rt rn : Reg) (imm : Word)
  | addsImm (rd rn : Reg) (imm : Word)
  | adds (rd rn rm : Reg)
  | cmp (rn rm : Reg)
  | b (l : L)
  | bcc (l : L)
  | bl (f : F)
  | bxLr
deriving DecidableEq, Repr

structure MemoryMap where
  readable : Word → Bool
  writable : Word → Bool

/-- The offset of an address in the block that starts at `a`. -/
def offset (a x : Word) : ℕ := (x - a).toNat

def Block (p : Word → Bool) (a : Word) (n : ℕ) : Prop := ∀ i < n, p (a + BitVec.ofNat 32 i) = true

instance (p : Word → Bool) (a : Word) (n : ℕ) : Decidable (Block p a n) :=
  inferInstanceAs (Decidable (∀ i < n, _))

def loadWord (mem : Memory) (a : Word) : Word :=
  BitVec.ofNat 32 ((mem a).toNat + 256 * ((mem (a + 1)).toNat +
    256 * ((mem (a + 2)).toNat + 256 * (mem (a + 3)).toNat)))

def Word.byte (v : Word) (i : ℕ) : BitVec 8 := BitVec.ofNat 8 (v.toNat / 256 ^ i)

/-- The first `n` bytes from `dst` on are those that `f` gives for their offsets. -/
def fill (mem : Memory) (dst : Word) (n : ℕ) (f : ℕ → BitVec 8) : Memory := fun x =>
  if offset dst x < n then f (offset dst x) else mem x

def storeWord (mem : Memory) (a v : Word) : Memory := fill mem a 4 (Word.byte v)

theorem offset_add (a : Word) {n : ℕ} (hn : n < 2 ^ 32) : offset a (a + BitVec.ofNat 32 n) = n := by
  unfold offset
  bv_omega

theorem offset_add_lt_iff (a x : Word) {k n : ℕ} (h : k + n ≤ 2 ^ 32) :
    offset (a + BitVec.ofNat 32 k) x < n ↔ k ≤ offset a x ∧ offset a x < k + n := by
  unfold offset
  bv_omega

theorem offset_add_left (a x : Word) {k : ℕ} (h : k ≤ offset a x) :
    offset (a + BitVec.ofNat 32 k) x = offset a x - k := by
  unfold offset at *
  bv_omega

theorem fill_zero (mem : Memory) (dst : Word) (f : ℕ → BitVec 8) : fill mem dst 0 f = mem :=
  funext fun _ => if_neg (Nat.not_lt_zero _)

theorem fill_of_lt {mem : Memory} {dst x : Word} {n : ℕ} {f : ℕ → BitVec 8}
    (h : offset dst x < n) : fill mem dst n f x = f (offset dst x) :=
  if_pos h

theorem fill_of_le {mem : Memory} {dst x : Word} {n : ℕ} {f : ℕ → BitVec 8}
    (h : n ≤ offset dst x) : fill mem dst n f x = mem x :=
  if_neg (Nat.not_lt.mpr h)

theorem fill_fill (mem : Memory) (dst : Word) {k n : ℕ} (f g : ℕ → BitVec 8)
    (h : k + n ≤ 2 ^ 32) (hg : ∀ i < n, g i = f (k + i)) :
    fill (fill mem dst k f) (dst + BitVec.ofNat 32 k) n g = fill mem dst (k + n) f := by
  funext x
  by_cases hx : k ≤ offset dst x ∧ offset dst x < k + n
  · have hlt := (offset_add_lt_iff dst x h).mpr hx
    rw [fill_of_lt hlt, fill_of_lt hx.2, hg _ hlt, offset_add_left dst x hx.1]
    congr 1
    omega
  · have hle : n ≤ offset (dst + BitVec.ofNat 32 k) x :=
      Nat.not_lt.mp fun hlt => hx ((offset_add_lt_iff dst x h).mp hlt)
    rw [fill_of_le hle]
    by_cases hk : offset dst x < k
    · rw [fill_of_lt hk, fill_of_lt (by omega)]
    · rw [fill_of_le (by omega), fill_of_le (by omega)]

theorem byte_loadWord (mem : Memory) (a : Word) {i : ℕ} (hi : i < 4) :
    (loadWord mem a).byte i = mem (a + BitVec.ofNat 32 i) := by
  have h0 := (mem a).isLt
  have h1 := (mem (a + 1)).isLt
  have h2 := (mem (a + 2)).isLt
  have h3 := (mem (a + 3)).isLt
  have hcases : i = 0 ∨ i = 1 ∨ i = 2 ∨ i = 3 := by omega
  apply BitVec.eq_of_toNat_eq
  rcases hcases with rfl | rfl | rfl | rfl <;>
    simp only [Word.byte, loadWord, BitVec.toNat_ofNat, BitVec.ofNat_eq_ofNat, BitVec.add_zero] <;>
    omega

theorem byte_zero (i : ℕ) : Word.byte 0 i = 0 := by
  simp [Word.byte]

structure Cpu where
  reg : Reg → Word
  carry : Bool
  mem : Memory

def Cpu.set (c : Cpu) (rd : Reg) (v : Word) : Cpu := { c with reg := Function.update c.reg rd v }

def Cpu.store (c : Cpu) (a v : Word) : Cpu := { c with mem := storeWord c.mem a v }

@[simp] theorem Cpu.set_reg (c : Cpu) (rd r : Reg) (v : Word) :
    (c.set rd v).reg r = if r = rd then v else c.reg r :=
  Function.update_apply ..

@[simp] theorem Cpu.set_mem (c : Cpu) (rd : Reg) (v : Word) : (c.set rd v).mem = c.mem := rfl

@[simp] theorem Cpu.store_reg (c : Cpu) (a v : Word) : (c.store a v).reg = c.reg := rfl

@[simp] theorem Cpu.store_mem (c : Cpu) (a v : Word) :
    (c.store a v).mem = storeWord c.mem a v := rfl

/-- A state of a run: the lines still ahead, and the processor. -/
structure State (L F : Type*) where
  code : List (Instr L F)
  cpu : Cpu

section Step

variable {L F : Type*} [DecidableEq L]

def target (l : L) : List (Instr L F) → Option (List (Instr L F))
  | [] => none
  | .label k :: code => if k = l then some code else target l code
  | _ :: code => target l code

/-- One line of the listing `prog`. Calls and the return stand outside of it. -/
def step (map : MemoryMap) (prog : List (Instr L F)) : State L F → Option (State L F)
  | ⟨[], _⟩ => none
  | ⟨.label _ :: code, c⟩ => some ⟨code, c⟩
  | ⟨.ldrConst rd v :: code, c⟩ => some ⟨code, c.set rd v⟩
  | ⟨.movs rd imm :: code, c⟩ => some ⟨code, c.set rd imm⟩
  | ⟨.ldr rt rn rm :: code, c⟩ =>
    let a := c.reg rn + c.reg rm
    if Block map.readable a 4 then some ⟨code, c.set rt (loadWord c.mem a)⟩ else none
  | ⟨.str rt rn rm :: code, c⟩ =>
    let a := c.reg rn + c.reg rm
    if Block map.writable a 4 then some ⟨code, c.store a (c.reg rt)⟩ else none
  | ⟨.strPost rt rn imm :: code, c⟩ =>
    let a := c.reg rn
    if Block map.writable a 4 then some ⟨code, (c.store a (c.reg rt)).set rn (a + imm)⟩ else none
  | ⟨.addsImm rd rn imm :: code, c⟩ =>
    let a := c.reg rn
    some ⟨code, { c with carry := a.uaddOverflow imm }.set rd (a + imm)⟩
  | ⟨.adds rd rn rm :: code, c⟩ =>
    let a := c.reg rn
    some ⟨code, { c with carry := a.uaddOverflow (c.reg rm) }.set rd (a + c.reg rm)⟩
  | ⟨.cmp rn rm :: code, c⟩ =>
    some ⟨code, { c with carry := decide ((c.reg rm).toNat ≤ (c.reg rn).toNat) }⟩
  | ⟨.b l :: _, c⟩ => (target l prog).map fun code => ⟨code, c⟩
  | ⟨.bcc l :: code, c⟩ =>
    if c.carry then some ⟨code, c⟩ else (target l prog).map fun code => ⟨code, c⟩
  | ⟨.bl _ :: _, _⟩ => none
  | ⟨.bxLr :: _, _⟩ => none

def run (map : MemoryMap) (prog : List (Instr L F)) : ℕ → State L F → Option (State L F)
  | 0, s => some s
  | n + 1, s => (step map prog s).bind (run map prog n)

variable {map : MemoryMap} {prog : List (Instr L F)} {s t u : State L F}

/-- The run from `s` arrives at a state with `Q`. -/
def Leads (map : MemoryMap) (prog : List (Instr L F)) (s : State L F) (Q : State L F → Prop) :
    Prop :=
  ∃ n t, run map prog n s = some t ∧ Q t

variable {P Q : State L F → Prop}

theorem run_add (m n : ℕ) (s : State L F) :
    run map prog (m + n) s = (run map prog m s).bind (run map prog n) := by
  induction m generalizing s with
  | zero => simp only [run, Nat.zero_add, Option.bind_some]
  | succ m ih =>
    rw [Nat.succ_add, run, run, Option.bind_assoc]
    exact congrArg _ (funext ih)

theorem Leads.here (h : Q s) : Leads map prog s Q := ⟨0, s, rfl, h⟩

theorem Leads.next (h : step map prog s = some t) (ht : Leads map prog t Q) :
    Leads map prog s Q := by
  obtain ⟨n, u, hu, hQ⟩ := ht
  exact ⟨n + 1, u, by rw [run, h, Option.bind_some, hu], hQ⟩

theorem Leads.bind (h : Leads map prog s P) (hPQ : ∀ t, P t → Leads map prog t Q) :
    Leads map prog s Q := by
  obtain ⟨m, t, ht, hP⟩ := h
  obtain ⟨n, u, hu, hQ⟩ := hPQ t hP
  exact ⟨m + n, u, by rw [run_add, ht, Option.bind_some, hu], hQ⟩

/-- The loop rule: each round leads from the loop head back to it. -/
theorem Leads.loop {I : ℕ → State L F → Prop} {n : ℕ}
    (hround : ∀ k < n, ∀ s, I k s → Leads map prog s (I (k + 1))) (h : I 0 s) :
    Leads map prog s (I n) := by
  induction n with
  | zero => exact .here h
  | succ n ih => exact (ih fun k hk => hround k (by omega)).bind (hround n (by omega))

section Rules

variable {code code' : List (Instr L F)} {c : Cpu} {rt rn rm : Reg} {imm : Word} {l : L}

theorem step_ldr (h : Block map.readable (c.reg rn + c.reg rm) 4) :
    step map prog ⟨.ldr rt rn rm :: code, c⟩ =
      some ⟨code, c.set rt (loadWord c.mem (c.reg rn + c.reg rm))⟩ :=
  if_pos h

theorem step_str (h : Block map.writable (c.reg rn + c.reg rm) 4) :
    step map prog ⟨.str rt rn rm :: code, c⟩ =
      some ⟨code, c.store (c.reg rn + c.reg rm) (c.reg rt)⟩ :=
  if_pos h

theorem step_strPost (h : Block map.writable (c.reg rn) 4) :
    step map prog ⟨.strPost rt rn imm :: code, c⟩ =
      some ⟨code, (c.store (c.reg rn) (c.reg rt)).set rn (c.reg rn + imm)⟩ :=
  if_pos h

theorem step_b (hl : target l prog = some code') :
    step map prog ⟨.b l :: code, c⟩ = some ⟨code', c⟩ := by
  rw [step, hl, Option.map_some]

/-- A comparison and the branch behind it, when the first register is lower. -/
theorem Leads.cmp_bcc_lower (h : (c.reg rn).toNat < (c.reg rm).toNat)
    (hl : target l prog = some code')
    (ht : Leads map prog ⟨code', { c with carry := false }⟩ Q) :
    Leads map prog ⟨.cmp rn rm :: .bcc l :: code, c⟩ Q := by
  have hcmp : step map prog ⟨.cmp rn rm :: .bcc l :: code, c⟩ =
      some ⟨.bcc l :: code, { c with carry := false }⟩ := by
    rw [step, decide_eq_false (by omega)]
  have hbcc : step map prog ⟨.bcc l :: code, { c with carry := false }⟩ =
      some ⟨code', { c with carry := false }⟩ := by
    simp only [step, hl, Option.map_some, Bool.false_eq_true, if_false]
  exact .next hcmp (.next hbcc ht)

/-- A comparison and the branch behind it, when the first register is not lower. -/
theorem Leads.cmp_bcc_same (h : (c.reg rm).toNat ≤ (c.reg rn).toNat)
    (ht : Leads map prog ⟨code, { c with carry := true }⟩ Q) :
    Leads map prog ⟨.cmp rn rm :: .bcc l :: code, c⟩ Q := by
  have hcmp : step map prog ⟨.cmp rn rm :: .bcc l :: code, c⟩ =
      some ⟨.bcc l :: code, { c with carry := true }⟩ := by
    rw [step, decide_eq_true h]
  exact .next hcmp (.next rfl ht)

end Rules

end Step

end Thumb
