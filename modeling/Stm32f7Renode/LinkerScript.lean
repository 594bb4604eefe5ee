import Stm32f7Renode.Startup

/-!
The placement of the output sections by `STM32F746NGHX_FLASH.ld`, as far as the addresses of
`.data` and `.bss` depend on it, and what it means for the code that runs after a reset.
-/

namespace Stm32f7Renode.LinkerScript
open Thumb Startup

structure Region where
  origin : ℕ
  length : ℕ

def FLASH : Region := ⟨0x08000000, 1024 * 1024⟩

def RAM : Region := ⟨0x20000000, 307 * 1024⟩

def Region.limit (r : Region) : ℕ := r.origin + r.length

def Region.contains (r : Region) (a : Word) : Bool :=
  decide (r.origin ≤ a.toNat) && decide (a.toNat < r.limit)

def memoryMap : MemoryMap where
  readable a := FLASH.contains a || RAM.contains a
  writable a := RAM.contains a

/-- A section of an object file: its size, and its alignment as a power of two. -/
structure InputSection where
  size : ℕ
  alignment : ℕ
deriving DecidableEq, Repr

structure DataSection where
  contents : List (BitVec 8)
  alignment : ℕ
deriving DecidableEq, Repr

def DataSection.input (d : DataSection) : InputSection := ⟨d.contents.length, d.alignment⟩

/-- `ALIGN(a)` at the location counter `dot`. -/
def align (dot a : ℕ) : ℕ := (dot + a - 1) / a * a

/-- The location counter behind the input sections. -/
def place (dot : ℕ) (inputs : List InputSection) : ℕ :=
  inputs.foldl (fun dot i => align dot (2 ^ i.alignment) + i.size) dot

def placed (dot : ℕ) : List DataSection → List (ℕ × DataSection)
  | [] => []
  | d :: ds =>
    let a := align dot (2 ^ d.alignment)
    (a, d) :: placed (a + d.contents.length) ds

/-- The alignment of an output section is the strictest one of its input sections. -/
def alignmentOf (inputs : List InputSection) : ℕ :=
  2 ^ inputs.foldr (fun i k => max i.alignment k) 0

/-- `{ . = ALIGN(4); inputs . = ALIGN(4); }` -/
def alignedSection (dot : ℕ) (inputs : List InputSection) : ℕ :=
  align (place (align (align dot (alignmentOf inputs)) 4) inputs) 4

def plainSection (dot : ℕ) (inputs : List InputSection) : ℕ :=
  place (align dot (alignmentOf inputs)) inputs

structure Objects where
  isr_vector : List InputSection
  text : List InputSection
  rodata : List InputSection
  ARM_extab : List InputSection
  ARM : List InputSection
  preinit_array : List InputSection
  init_array : List InputSection
  fini_array : List InputSection
  data : List DataSection
  bss : List InputSection

def _Min_Heap_Size : ℕ := 0x200

def _Min_Stack_Size : ℕ := 0x460

def _estack : ℕ := 0x20050000

namespace Objects

variable (o : Objects)

/-- The end of the sections in front of the initial values of `.data`. -/
def flashEnd : ℕ :=
  let dot := alignedSection FLASH.origin o.isr_vector
  let dot := alignedSection dot o.text
  let dot := alignedSection dot o.rodata
  let dot := plainSection dot o.ARM_extab
  let dot := plainSection dot o.ARM
  let dot := plainSection dot o.preinit_array
  let dot := plainSection dot o.init_array
  plainSection dot o.fini_array

/-- `LOADADDR(.data)`. With `AT> FLASH` the alignment of the section is that of its address in
`RAM` only. -/
def _sidata : ℕ := o.flashEnd

def dataInputs : List InputSection := o.data.map DataSection.input

def dataStart : ℕ := align RAM.origin (alignmentOf o.dataInputs)

def _sdata : ℕ := align o.dataStart 4

def _edata : ℕ := align (place o._sdata o.dataInputs) 4

def _sbss : ℕ := align (align o._edata 4) (alignmentOf o.bss)

def _ebss : ℕ := align (place o._sbss o.bss) 4

/-- The end of `._user_heap_stack`. -/
def ramEnd : ℕ := align (align o._ebss 8 + _Min_Heap_Size + _Min_Stack_Size) 8

def symbols : Symbols where
  _estack := BitVec.ofNat 32 LinkerScript._estack
  _sidata := BitVec.ofNat 32 o._sidata
  _sdata := BitVec.ofNat 32 o._sdata
  _edata := BitVec.ofNat 32 o._edata
  _sbss := BitVec.ofNat 32 o._sbss
  _ebss := BitVec.ofNat 32 o._ebss

/-- The link fails where a region overflows. -/
def link : Option Symbols :=
  if o._sidata + (o._edata - o.dataStart) ≤ FLASH.limit ∧ o.ramEnd ≤ RAM.limit then some o.symbols
  else none

end Objects

def Holds (mem : Memory) (a : ℕ) (bytes : List (BitVec 8)) : Prop :=
  ∀ i (h : i < bytes.length), mem (BitVec.ofNat 32 (a + i)) = bytes[i]

instance (mem : Memory) (a : ℕ) (bytes : List (BitVec 8)) : Decidable (Holds mem a bytes) :=
  inferInstanceAs (Decidable (∀ i (_ : i < bytes.length), _))

/-- The image is in the flash: the contents of each section of `.data` at its load address. -/
def Programmed (o : Objects) (mem : Memory) : Prop :=
  ∀ x ∈ placed o._sdata o.data, Holds mem (o._sidata + (x.1 - o.dataStart)) x.2.contents

instance (o : Objects) (mem : Memory) : Decidable (Programmed o mem) :=
  inferInstanceAs (Decidable (∀ x ∈ placed o._sdata o.data, _))

theorem dvd_align (dot a : ℕ) : a ∣ align dot a := Dvd.intro_left _ rfl

theorem le_align (dot : ℕ) {a : ℕ} (ha : 0 < a) : dot ≤ align dot a := by
  have hdiv := Nat.div_add_mod (dot + a - 1) a
  have hmod := Nat.mod_lt (dot + a - 1) ha
  unfold align
  rw [Nat.mul_comm]
  omega

theorem align_of_dvd {dot a : ℕ} (ha : 0 < a) (h : a ∣ dot) : align dot a = dot := by
  obtain ⟨q, rfl⟩ := h
  unfold align
  rw [show a * q + a - 1 = a - 1 + a * q by omega, Nat.add_mul_div_left _ _ ha,
    Nat.div_eq_of_lt (by omega), Nat.zero_add, Nat.mul_comm]

theorem four_dvd_align {dot : ℕ} (h : 4 ∣ dot) (k : ℕ) : 4 ∣ align dot (2 ^ k) := by
  have hpos : 0 < 2 ^ k := Nat.two_pow_pos k
  by_cases hk : k ≤ 2
  · rw [align_of_dvd hpos ((Nat.pow_dvd_pow 2 hk).trans h)]
    exact h
  · exact (Nat.pow_dvd_pow 2 (show 2 ≤ k by omega)).trans (dvd_align dot _)

theorem le_place (dot : ℕ) (inputs : List InputSection) : dot ≤ place dot inputs := by
  induction inputs generalizing dot with
  | nil => exact le_rfl
  | cons i inputs ih =>
    have halign := le_align dot (Nat.two_pow_pos i.alignment)
    have := ih (align dot (2 ^ i.alignment) + i.size)
    simp only [place, List.foldl_cons] at this ⊢
    omega

theorem placed_within {dot : ℕ} {ds : List DataSection} {x : ℕ × DataSection}
    (hx : x ∈ placed dot ds) :
    dot ≤ x.1 ∧ x.1 + x.2.contents.length ≤ place dot (ds.map DataSection.input) := by
  induction ds generalizing dot with
  | nil => cases hx
  | cons d ds ih =>
    have halign := le_align dot (Nat.two_pow_pos d.alignment)
    have hrest := le_place (align dot (2 ^ d.alignment) + d.contents.length)
      (ds.map DataSection.input)
    rw [List.map_cons, place, List.foldl_cons, ← place]
    rcases List.mem_cons.mp hx with rfl | hx
    · exact ⟨halign, hrest⟩
    · obtain ⟨hbegin, hend⟩ := ih hx
      exact ⟨by omega, hend⟩

theorem alignmentOf_pos (inputs : List InputSection) : 0 < alignmentOf inputs := Nat.two_pow_pos _

theorem le_alignedSection (dot : ℕ) (inputs : List InputSection) :
    dot ≤ alignedSection dot inputs := by
  have h1 := le_align dot (alignmentOf_pos inputs)
  have h2 := le_align (align dot (alignmentOf inputs)) (show 0 < 4 by omega)
  have h3 := le_place (align (align dot (alignmentOf inputs)) 4) inputs
  have h4 := le_align (place (align (align dot (alignmentOf inputs)) 4) inputs)
    (show 0 < 4 by omega)
  unfold alignedSection
  omega

theorem le_plainSection (dot : ℕ) (inputs : List InputSection) : dot ≤ plainSection dot inputs :=
  (le_align dot (alignmentOf_pos inputs)).trans (le_place _ inputs)

/-- Where `RAM` begins every alignment holds that a section in it can have. -/
theorem align_origin (k : ℕ) (h : align RAM.origin (2 ^ k) ≤ RAM.limit) :
    align RAM.origin (2 ^ k) = RAM.origin := by
  have horigin : RAM.origin = 2 ^ 29 := by decide
  have hlimit : RAM.limit < 2 ^ 30 := by decide
  by_cases hk : k ≤ 29
  · rw [horigin]
    exact align_of_dvd (Nat.two_pow_pos k) (Nat.pow_dvd_pow 2 hk)
  · have hdvd : 2 ^ 30 ∣ align RAM.origin (2 ^ k) :=
      (Nat.pow_dvd_pow 2 (by omega)).trans (dvd_align _ _)
    have hle := le_align RAM.origin (Nat.two_pow_pos k)
    have := Nat.le_of_dvd (by omega) hdvd
    omega

/-- Where a successful link puts the sections that the startup code knows. -/
structure Placement (o : Objects) : Prop where
  data_start : o._sdata = 0x20000000
  data_begin : o.dataStart = o._sdata
  data_order : o._sdata ≤ o._edata
  bss_after : o._edata ≤ o._sbss
  bss_order : o._sbss ≤ o._ebss
  edata_words : 4 ∣ o._edata
  sbss_words : 4 ∣ o._sbss
  ebss_words : 4 ∣ o._ebss
  image_begin : 0x08000000 ≤ o._sidata
  image_end : o._sidata + (o._edata - o._sdata) ≤ 0x08100000
  reserve : o._ebss + _Min_Heap_Size + _Min_Stack_Size ≤ RAM.limit

theorem flashEnd_ge (o : Objects) : FLASH.origin ≤ o.flashEnd := by
  unfold Objects.flashEnd
  exact (le_alignedSection _ _).trans <| (le_alignedSection _ _).trans <|
    (le_alignedSection _ _).trans <| (le_plainSection _ _).trans <| (le_plainSection _ _).trans <|
    (le_plainSection _ _).trans <| (le_plainSection _ _).trans (le_plainSection _ _)

theorem placement (o : Objects)
    (hflash : o._sidata + (o._edata - o.dataStart) ≤ FLASH.limit) (hram : o.ramEnd ≤ RAM.limit) :
    Placement o := by
  have hsdata : o.dataStart ≤ o._sdata := le_align _ (by omega)
  have hplace : o._sdata ≤ place o._sdata o.dataInputs := le_place _ _
  have hedata : place o._sdata o.dataInputs ≤ o._edata := le_align _ (by omega)
  have hedata4 : 4 ∣ o._edata := dvd_align _ _
  have hdot : align o._edata 4 = o._edata := align_of_dvd (by omega) hedata4
  have hsbss : align o._edata 4 ≤ o._sbss := le_align _ (alignmentOf_pos _)
  have hsbss4 : 4 ∣ o._sbss := four_dvd_align (dvd_align _ _) _
  have hfill : o._sbss ≤ place o._sbss o.bss := le_place _ _
  have hebss : place o._sbss o.bss ≤ o._ebss := le_align _ (by omega)
  have hheap : o._ebss ≤ align o._ebss 8 := le_align _ (by omega)
  have hend : align o._ebss 8 + _Min_Heap_Size + _Min_Stack_Size ≤ o.ramEnd := le_align _ (by omega)
  -- an alignment that `RAM` cannot satisfy at its origin would not leave room in it
  have horigin : o.dataStart = RAM.origin := align_origin _ (show o.dataStart ≤ _ by omega)
  have hword : o._sdata = o.dataStart := align_of_dvd (by omega) (by rw [horigin]; decide)
  have himage : FLASH.origin ≤ o._sidata := flashEnd_ge o
  exact
    { data_start := hword.trans horigin
      data_begin := hword.symm
      data_order := by omega
      bss_after := by omega
      bss_order := by omega
      edata_words := hedata4
      sbss_words := hsbss4
      ebss_words := dvd_align _ _
      image_begin := himage
      image_end := hword ▸ hflash
      reserve := by omega }

theorem offset_ofNat {a b : ℕ} (hab : a ≤ b) (hb : b < 2 ^ 32) :
    offset (BitVec.ofNat 32 a) (BitVec.ofNat 32 b) = b - a := by
  unfold offset
  bv_omega

theorem offset_ofNat_of_lt {a b : ℕ} (hab : b < a) (ha : a < 2 ^ 32) :
    offset (BitVec.ofNat 32 a) (BitVec.ofNat 32 b) = b + 2 ^ 32 - a := by
  unfold offset
  bv_omega

theorem toNat_ofNat {a : ℕ} (ha : a < 2 ^ 32) : (BitVec.ofNat 32 a).toNat = a := by
  rw [BitVec.toNat_ofNat, Nat.mod_eq_of_lt ha]

theorem block_region {r : Region} {p : Word → Bool} (hp : ∀ a, r.contains a = true → p a = true)
    {a n : ℕ} (ha : r.origin ≤ a) (hn : a + n ≤ r.limit) (hr : r.limit < 2 ^ 32) :
    Block p (BitVec.ofNat 32 a) n := by
  intro i hi
  apply hp
  have hmod : (BitVec.ofNat 32 (a + i)).toNat = a + i := toNat_ofNat (by omega)
  rw [← BitVec.ofNat_add, Region.contains, hmod, decide_eq_true (by omega),
    decide_eq_true (by omega), Bool.and_self]

theorem limits : FLASH.limit = 0x08100000 ∧ RAM.limit = 0x2004cc00 := by decide

section Linked

variable {o : Objects} {y : Symbols}

theorem link_eq_some (h : o.link = some y) : Placement o ∧ y = o.symbols := by
  unfold Objects.link at h
  obtain ⟨hfits, h⟩ := Option.ite_none_right_eq_some.mp h
  exact ⟨placement o hfits.1 hfits.2, (Option.some.inj h).symm⟩

theorem Placement.below (h : Placement o) : o._ebss < 2 ^ 30 ∧ o._sidata < 2 ^ 30 := by
  have hreserve := h.reserve
  have hend := h.image_end
  have hram := limits.2
  omega

theorem Placement.dataSize_eq (h : Placement o) : o.symbols.dataSize = o._edata - o._sdata := by
  have hbelow := h.below
  have hafter := h.bss_after
  have horder := h.bss_order
  exact offset_ofNat h.data_order (by omega)

theorem Placement.bssSize_eq (h : Placement o) : o.symbols.bssSize = o._ebss - o._sbss := by
  have hbelow := h.below
  exact offset_ofNat h.bss_order (by omega)

theorem Placement.wellPlaced (h : Placement o) : o.symbols.WellPlaced memoryMap := by
  have hdata := h.dataSize_eq
  have hbss := h.bssSize_eq
  have hbelow := h.below
  obtain ⟨hstart, -, horder, hafter, hclear, he4, hs4, hb4, hbegin, hend, hreserve⟩ := h
  obtain ⟨hflash, hram⟩ := limits
  have horigin : RAM.origin = 0x20000000 := rfl
  have hword : 4 ∣ o._sdata := by
    rw [hstart]
    decide
  refine ⟨?_, ?_, ?_, ?_, ?_, ?_, ?_, ?_⟩
  · change (BitVec.ofNat 32 _).toNat ≤ (BitVec.ofNat 32 _).toNat
    rw [toNat_ofNat (by omega), toNat_ofNat (by omega)]
    exact horder
  · rw [hdata]
    exact Nat.dvd_sub he4 hword
  · change (BitVec.ofNat 32 _).toNat ≤ (BitVec.ofNat 32 _).toNat
    rw [toNat_ofNat (by omega), toNat_ofNat (by omega)]
    exact hclear
  · rw [hbss]
    exact Nat.dvd_sub hb4 hs4
  · rw [hdata]
    exact block_region (r := FLASH) (fun a ha => by simp [memoryMap, ha]) hbegin (by omega)
      (by omega)
  -- the flash lies below `RAM`, so the offset wraps around
  · intro i hi
    rw [hdata] at hi ⊢
    change _ ≤ offset (BitVec.ofNat 32 _) (BitVec.ofNat 32 _ + _)
    rw [← BitVec.ofNat_add, offset_ofNat_of_lt (by omega) (by omega)]
    omega
  · rw [hdata]
    exact block_region (r := RAM) (fun a ha => ha) (by omega) (by omega) (by omega)
  · rw [hbss]
    exact block_region (r := RAM) (fun a ha => ha) (by omega) (by omega) (by omega)

theorem Placement.apart (h : Placement o) {i : ℕ} (hi : i < o.symbols.dataSize) :
    o.symbols.bssSize ≤ offset o.symbols._sbss (o.symbols._sdata + BitVec.ofNat 32 i) := by
  have hdata := h.dataSize_eq
  have hbelow := h.below
  have hafter := h.bss_after
  have horder := h.bss_order
  have hstart := h.data_start
  rw [h.bssSize_eq]
  change _ ≤ offset (BitVec.ofNat 32 _) (BitVec.ofNat 32 _ + _)
  rw [← BitVec.ofNat_add, offset_ofNat_of_lt (by omega) (by omega)]
  omega

/-- What the first called function finds after a reset with the registers and the memory of `c`. -/
structure Booted (o : Objects) (c : Cpu) (s : State Startup.Label Startup.Function) : Prop where
  code : s.code = calls
  sp : s.cpu.reg .sp = o.symbols._estack
  data : ∀ x ∈ placed o._sdata o.data, Holds s.cpu.mem x.1 x.2.contents
  copy : ∀ i < o.symbols.dataSize,
    s.cpu.mem (o.symbols._sdata + BitVec.ofNat 32 i) = c.mem (o.symbols._sidata + BitVec.ofNat 32 i)
  bss : ∀ i < o.symbols.bssSize, s.cpu.mem (o.symbols._sbss + BitVec.ofNat 32 i) = 0
  rest : ∀ a, o.symbols.dataSize ≤ offset o.symbols._sdata a →
    o.symbols.bssSize ≤ offset o.symbols._sbss a → s.cpu.mem a = c.mem a
  stack : o.symbols._ebss.toNat + _Min_Heap_Size + _Min_Stack_Size ≤ (s.cpu.reg .sp).toNat

/-- The copied bytes of a section are its contents. -/
theorem Placement.holds (h : Placement o) {from_flash mem : Memory} (hp : Programmed o from_flash)
    (hcopy : ∀ i < o.symbols.dataSize, mem (o.symbols._sdata + BitVec.ofNat 32 i) =
      from_flash (o.symbols._sidata + BitVec.ofNat 32 i)) :
    ∀ x ∈ placed o._sdata o.data, Holds mem x.1 x.2.contents := by
  intro x hx i hi
  obtain ⟨hbegin, hend⟩ := placed_within hx
  have hedata : place o._sdata o.dataInputs ≤ o._edata := le_align _ (by omega)
  have hinside : x.1 - o._sdata + i < o.symbols.dataSize := by
    rw [h.dataSize_eq]
    unfold Objects.dataInputs at hedata
    omega
  have hflash := hp x hx i hi
  have hbyte := hcopy _ hinside
  change mem (BitVec.ofNat 32 o._sdata + _) = from_flash (BitVec.ofNat 32 o._sidata + _) at hbyte
  rw [← BitVec.ofNat_add, ← BitVec.ofNat_add] at hbyte
  rw [h.data_begin] at hflash
  rw [← hflash, show x.1 + i = o._sdata + (x.1 - o._sdata + i) by omega, hbyte, Nat.add_assoc]

theorem Placement.booted (h : Placement o) {c : Cpu} (hp : Programmed o c.mem)
    {s : State Startup.Label Startup.Function} (hs : Started o.symbols c.mem s) :
    Booted o c s := by
  have hdsize : o.symbols.dataSize < 2 ^ 32 := (o.symbols._edata - o.symbols._sdata).isLt
  have hbsize : o.symbols.bssSize < 2 ^ 32 := (o.symbols._ebss - o.symbols._sbss).isLt
  have hbelow := h.below
  have hreserve := h.reserve
  have hram := limits.2
  have hcopy : ∀ i < o.symbols.dataSize, s.cpu.mem (o.symbols._sdata + BitVec.ofNat 32 i) =
      c.mem (o.symbols._sidata + BitVec.ofNat 32 i) := by
    intro i hi
    rw [hs.mem, Symbols.initialised, fill_of_le (h.apart hi), Symbols.copied]
    rw [fill_of_lt (by rw [offset_add _ (by omega)]; exact hi), offset_add _ (by omega)]
  refine ⟨hs.code, hs.sp, h.holds hp hcopy, hcopy, ?_, ?_, ?_⟩
  · intro i hi
    rw [hs.mem, Symbols.initialised, fill_of_lt (by rw [offset_add _ (by omega)]; exact hi)]
  · intro a hd hb
    rw [hs.mem, Symbols.initialised, fill_of_le hb, Symbols.copied, fill_of_le hd]
  · rw [hs.sp]
    change (BitVec.ofNat 32 _).toNat + _ + _ ≤ (BitVec.ofNat 32 LinkerScript._estack).toNat
    rw [toNat_ofNat (by omega), toNat_ofNat (by decide)]
    have hestack : RAM.limit ≤ LinkerScript._estack := by decide
    omega

/-- Every image that links and is in the flash starts: whatever else the memory and the registers
hold at a reset, the handler calls `SystemInit` with the contents of every section of `.data` at
its address, `.bss` cleared and no other byte changed, without an access outside the two regions. -/
theorem linked_image_boots (h : o.link = some y) (c : Cpu) (hp : Programmed o c.mem) :
    Leads memoryMap (Reset_Handler y) ⟨Reset_Handler y, c⟩ (Booted o c) := by
  obtain ⟨hplace, rfl⟩ := link_eq_some h
  exact (resetHandler_leads hplace.wellPlaced c).bind fun s hs => .here (hplace.booted hp hs)

end Linked

def smallObjects : Objects where
  isr_vector := [⟨456, 0⟩]
  text := [⟨1022, 1⟩, ⟨300, 2⟩]
  rodata := [⟨37, 0⟩]
  ARM_extab := []
  ARM := [⟨8, 2⟩]
  preinit_array := []
  init_array := [⟨4, 2⟩]
  fini_array := [⟨4, 2⟩]
  data := [⟨[1, 2, 3, 4, 5], 0⟩, ⟨[6, 7, 8, 9, 10, 11, 12, 13], 3⟩]
  bss := [⟨1, 0⟩, ⟨100, 2⟩]

def smallCpu : Cpu where
  reg _ := 0
  carry := false
  mem := (placed smallObjects._sdata smallObjects.data).foldl (fun mem x =>
    fill mem (BitVec.ofNat 32 (smallObjects._sidata + (x.1 - smallObjects.dataStart)))
      x.2.contents.length fun i => x.2.contents.getD i 0) fun a => a.setWidth 8

/-- The initial values are not at a multiple of eight, their copy is. -/
theorem linked_image_boots_small :
    smallObjects._sidata = 0x0800072c ∧ Leads memoryMap (Reset_Handler smallObjects.symbols)
      ⟨Reset_Handler smallObjects.symbols, smallCpu⟩ fun s =>
        Holds s.cpu.mem 0x20000008 [6, 7, 8, 9, 10, 11, 12, 13] := by
  have hp : Programmed smallObjects smallCpu.mem := by decide +kernel
  have hlink : smallObjects.link = some smallObjects.symbols := by decide
  have hplaced : (0x20000008, ⟨[6, 7, 8, 9, 10, 11, 12, 13], 3⟩) ∈
      placed smallObjects._sdata smallObjects.data := by
    decide
  obtain ⟨n, s, hrun, hs⟩ := linked_image_boots hlink smallCpu hp
  exact ⟨by decide, n, s, hrun, hs.data _ hplaced⟩

end Stm32f7Renode.LinkerScript
