import Mathlib.Data.UInt
import Mathlib.Data.List.Chain

namespace WireText

abbrev Byte := UInt8

def ascii (s : String) : List Byte := s.toList.map Char.toUInt8

theorem forall_byte {p : Byte → Prop} (h : ∀ n < 256, p (UInt8.ofNat n)) (b : Byte) : p b := by
  have hb := h b.toNat b.toNat_lt
  rwa [UInt8.ofNat_toNat] at hb

theorem eq_map_range_of_prefix {α : Type*} {f : ℕ → α} {n : ℕ} {l : List α}
    (h : l <+: (List.range n).map f) : l = (List.range l.length).map f := by
  have hlen := h.length_le
  rw [List.length_map, List.length_range] at hlen
  have htake := List.prefix_iff_eq_take.mp h
  rwa [← List.map_take, List.take_range, Nat.min_eq_left hlen] at htake

def decimal (n : ℕ) : List Byte := (Nat.toDigits 10 n).map Char.toUInt8

def isDigit (b : Byte) : Bool := 0x30 ≤ b && b ≤ 0x39

def value (ds : List Byte) : ℕ := ds.foldl (fun v d => 10 * v + (d.toNat - 0x30)) 0

/-- The longest run of digits, which must not be empty, and what follows it. -/
def parseDecimal (s : List Byte) : Option (ℕ × List Byte) :=
  match s.takeWhile isDigit with
  | [] => none
  | d :: ds => some (value (d :: ds), s.dropWhile isDigit)

theorem toNat_of_isDigit {c : Char} (h : c.isDigit = true) : c.toUInt8.toNat = c.toNat := by
  have hle : c.toNat ≤ 57 := (Char.isDigit_iff_toNat.mp h).2
  change c.toNat % 256 = c.toNat
  omega

theorem isDigit_of_mem_decimal {n : ℕ} {b : Byte} (h : b ∈ decimal n) : isDigit b = true := by
  obtain ⟨c, hc, rfl⟩ := List.mem_map.mp h
  have hd : c.isDigit = true := Nat.isDigit_of_mem_toDigits (by decide) le_rfl hc
  have hr := Char.isDigit_iff_toNat.mp hd
  simp only [isDigit, Bool.and_eq_true, decide_eq_true_eq, UInt8.le_iff_toNat_le,
    toNat_of_isDigit hd]
  exact hr

theorem decimal_ne_nil (n : ℕ) : decimal n ≠ [] := by
  simp [decimal, Nat.toDigits_ne_nil]

theorem decimal_length_le {n k : ℕ} (hk : 0 < k) (h : n < 10 ^ k) : (decimal n).length ≤ k := by
  rw [decimal, List.length_map]
  exact (Nat.length_toDigits_le_iff (by decide) hk).mpr h

theorem value_map (cs : List Char) (h : ∀ c ∈ cs, c.isDigit = true) (v : ℕ) :
    (cs.map Char.toUInt8).foldl (fun v d => 10 * v + (d.toNat - 0x30)) v =
      Nat.ofDigitChars 10 cs v := by
  induction cs generalizing v with
  | nil => rfl
  | cons c cs ih =>
    rw [List.map_cons, List.foldl_cons, Nat.ofDigitChars_cons,
      ih (fun d hd => h d (List.mem_cons_of_mem c hd)), toNat_of_isDigit (h c List.mem_cons_self)]
    rfl

theorem value_decimal (n : ℕ) : value (decimal n) = n := by
  rw [value, decimal, value_map _ fun c hc => Nat.isDigit_of_mem_toDigits (by decide) le_rfl hc]
  exact Nat.ofDigitChars_ten_toDigits

theorem parseDecimal_decimal (n : ℕ) {b : Byte} (hb : isDigit b = false) (s : List Byte) :
    parseDecimal (decimal n ++ b :: s) = some (n, b :: s) := by
  have hall : ∀ d ∈ decimal n, isDigit d = true := fun d hd => isDigit_of_mem_decimal hd
  have htake : (decimal n ++ b :: s).takeWhile isDigit = decimal n := by
    rw [List.takeWhile_append_of_pos hall, List.takeWhile_cons_of_neg (by simp [hb]),
      List.append_nil]
  have hdrop : (decimal n ++ b :: s).dropWhile isDigit = b :: s := by
    rw [List.dropWhile_append_of_pos hall, List.dropWhile_cons_of_neg (by simp [hb])]
  obtain ⟨d, ds, hd⟩ := List.exists_cons_of_ne_nil (decimal_ne_nil n)
  rw [parseDecimal, htake, hdrop, hd]
  exact congrArg (fun v => some (v, b :: s)) (hd ▸ value_decimal n)

section Cut

variable {α : Type*} [DecidableEq α]

/-- Cut after each `x` that is followed by `y`: the lines, terminator included, and the rest. -/
def cutAfter (x y : α) : List α → List (List α) × List α
  | [] => ([], [])
  | [a] => ([], [a])
  | a :: b :: s =>
    if a = x ∧ b = y then
      ([a, b] :: (cutAfter x y s).1, (cutAfter x y s).2)
    else
      match cutAfter x y (b :: s) with
      | ([], r) => ([], a :: r)
      | (l :: ls, r) => ((a :: l) :: ls, r)

/-- The pair `x y` does not occur in `s`. -/
def NoPair (x y : α) (s : List α) : Prop := s.IsChain fun a b => ¬ (a = x ∧ b = y)

variable {x y : α}

theorem cutAfter_of_noPair {s : List α} (h : NoPair x y s) : cutAfter x y s = ([], s) := by
  fun_induction cutAfter x y s with
  | case1 => rfl
  | case2 a => rfl
  | case3 a b s hab ih => exact absurd hab (List.isChain_cons_cons.mp h).1
  | case4 a b s hab r hr ih =>
    have := ih (List.isChain_cons_cons.mp h).2
    simp_all
  | case5 a b s hab l ls r hr ih =>
    have := ih (List.isChain_cons_cons.mp h).2
    simp_all

theorem cutAfter_line (hxy : x ≠ y) {l : List α} (h : NoPair x y l) (s : List α) :
    cutAfter x y (l ++ x :: y :: s) =
      ((l ++ [x, y]) :: (cutAfter x y s).1, (cutAfter x y s).2) := by
  induction l with
  | nil => simp [cutAfter]
  | cons a l ih =>
    have hl := ih h.tail
    cases l with
    | nil =>
      rw [List.nil_append] at hl
      simp [cutAfter, hxy]
    | cons b l =>
      have hab := (List.isChain_cons_cons.mp h).1
      rw [List.cons_append] at hl
      rw [List.cons_append, List.cons_append, cutAfter, if_neg hab, hl]
      rfl

/-- Whole lines are recovered one by one, with nothing left over. -/
theorem cutAfter_lines (hxy : x ≠ y) (ls : List (List α)) (h : ∀ l ∈ ls, NoPair x y l) :
    cutAfter x y (ls.flatMap fun l => l ++ [x, y]) = (ls.map fun l => l ++ [x, y], []) := by
  induction ls with
  | nil => rfl
  | cons l ls ih =>
    have hl := cutAfter_line hxy (h l List.mem_cons_self) (ls.flatMap fun l => l ++ [x, y])
    rw [List.flatMap_cons, List.append_assoc, List.cons_append, List.cons_append, List.nil_append,
      hl, ih fun l hl => h l (List.mem_cons_of_mem _ hl)]
    rfl

theorem cutAfter_isPrefix (s t : List α) : (cutAfter x y s).1 <+: (cutAfter x y (s ++ t)).1 := by
  fun_induction cutAfter x y s with
  | case1 => exact List.nil_prefix
  | case2 a => exact List.nil_prefix
  | case3 a b s h ih =>
    simp only [List.cons_append, cutAfter, if_pos h]
    exact (List.prefix_cons_inj _).mpr ih
  | case4 a b s h r hr ih => exact List.nil_prefix
  | case5 a b s h l ls r hr ih =>
    rw [hr] at ih
    obtain ⟨ls', hls⟩ := ih
    simp only [List.cons_append, cutAfter, if_neg h] at hls ⊢
    split
    · rename_i hn
      simp [hn] at hls
    · rename_i hn
      rw [hn] at hls
      obtain ⟨rfl, rfl⟩ := List.cons.inj hls
      exact (List.prefix_cons_inj _).mpr ⟨ls', rfl⟩

/-- Counting lines is additive where the second part cannot complete a pair. -/
theorem cutAfter_length_append (s t : List α) (ht : t.head? ≠ some y) :
    (cutAfter x y (s ++ t)).1.length = (cutAfter x y s).1.length + (cutAfter x y t).1.length := by
  fun_induction cutAfter x y s with
  | case1 => simp
  | case2 a =>
    cases t with
    | nil => simp [cutAfter]
    | cons b t =>
      have hb : ¬ (a = x ∧ b = y) := fun h => ht (by simp [h.2])
      rw [List.singleton_append, cutAfter, if_neg hb]
      split <;> simp_all
  | case3 a b s h ih =>
    simp only [List.cons_append, cutAfter, if_pos h, List.length_cons, ih]
    omega
  | case4 a b s h r hr ih =>
    rw [List.cons_append, List.cons_append, cutAfter, if_neg h]
    rw [hr] at ih
    split <;> simp_all
  | case5 a b s h l ls r hr ih =>
    rw [List.cons_append, List.cons_append, cutAfter, if_neg h]
    rw [hr] at ih
    split <;> simp_all

end Cut

end WireText
