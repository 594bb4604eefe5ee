import Stm32f7Renode.Library.WireText

namespace Base64
open WireText

def alphabet : List Byte :=
  ascii "ABCDEFGHIJKLMNOPQRSTUVWXYZabcdefghijklmnopqrstuvwxyz0123456789+/"

def pad : Byte := 0x3d

def digit (i : ℕ) : Byte := alphabet.getD i pad

def value? (b : Byte) : Option ℕ := alphabet.findIdx? (· == b)

def encode : List Byte → List Byte
  | a :: b :: c :: rest =>
    digit (a.toNat / 4) :: digit (a.toNat % 4 * 16 + b.toNat / 16) ::
      digit (b.toNat % 16 * 4 + c.toNat / 64) :: digit (c.toNat % 64) :: encode rest
  | [a, b] => [digit (a.toNat / 4), digit (a.toNat % 4 * 16 + b.toNat / 16),
      digit (b.toNat % 16 * 4), pad]
  | [a] => [digit (a.toNat / 4), digit (a.toNat % 4 * 16), pad, pad]
  | [] => []

/-- Decodes quadruples of characters, of which only the last may be padded. -/
def decodeQuads : List Byte → Option (List Byte)
  | [] => some []
  | w :: x :: y :: z :: rest => do
    let i ← value? w
    let j ← value? x
    let a := UInt8.ofNat (i * 4 + j / 16)
    if y = pad ∧ z = pad ∧ rest = [] then return [a]
    let k ← value? y
    let b := UInt8.ofNat (j % 16 * 16 + k / 4)
    if z = pad ∧ rest = [] then return [a, b]
    let l ← value? z
    let bytes ← decodeQuads rest
    return a :: b :: UInt8.ofNat (k % 4 * 64 + l) :: bytes
  | _ => none

def decode (text : List Byte) : Option (List Byte) := decodeQuads (text.filter (· ≠ 0x0a))

theorem value?_digit {i : ℕ} (h : i < 64) : value? (digit i) = some i := by
  have hall : ∀ i < 64, value? (digit i) = some i := by decide +kernel
  exact hall i h

theorem digit_ne_pad {i : ℕ} (h : i < 64) : digit i ≠ pad := by
  have hall : ∀ i < 64, digit i ≠ pad := by decide +kernel
  exact hall i h

theorem ofNat_eq {n : ℕ} {b : Byte} (h : n = b.toNat) : UInt8.ofNat n = b := by
  rw [h, UInt8.ofNat_toNat]

theorem decodeQuads_digits {i j k l : ℕ} (hi : i < 64) (hj : j < 64) (hk : k < 64) (hl : l < 64)
    (rest : List Byte) :
    decodeQuads (digit i :: digit j :: digit k :: digit l :: rest) =
      (decodeQuads rest).map fun bytes => UInt8.ofNat (i * 4 + j / 16) ::
        UInt8.ofNat (j % 16 * 16 + k / 4) :: UInt8.ofNat (k % 4 * 64 + l) :: bytes := by
  simp only [decodeQuads, value?_digit hi, value?_digit hj, value?_digit hk, value?_digit hl,
    digit_ne_pad hk, digit_ne_pad hl, Option.bind_eq_bind, Option.bind_some, false_and, if_false]
  cases decodeQuads rest <;> rfl

theorem decodeQuads_pad {i j k : ℕ} (hi : i < 64) (hj : j < 64) (hk : k < 64) :
    decodeQuads [digit i, digit j, digit k, pad] =
      some [UInt8.ofNat (i * 4 + j / 16), UInt8.ofNat (j % 16 * 16 + k / 4)] := by
  simp [decodeQuads, value?_digit hi, value?_digit hj, value?_digit hk, digit_ne_pad hk]

theorem decodeQuads_pad_pad {i j : ℕ} (hi : i < 64) (hj : j < 64) :
    decodeQuads [digit i, digit j, pad, pad] = some [UInt8.ofNat (i * 4 + j / 16)] := by
  simp [decodeQuads, value?_digit hi, value?_digit hj]

theorem decodeQuads_encode : ∀ bytes : List Byte, decodeQuads (encode bytes) = some bytes
  | a :: b :: c :: rest => by
    have ha := a.toNat_lt
    have hb := b.toNat_lt
    have hc := c.toNat_lt
    rw [encode, decodeQuads_digits (by omega) (by omega) (by omega) (by omega),
      decodeQuads_encode rest, ofNat_eq (b := a) (by omega), ofNat_eq (b := b) (by omega),
      ofNat_eq (b := c) (by omega)]
    rfl
  | [a, b] => by
    have ha := a.toNat_lt
    have hb := b.toNat_lt
    rw [encode, decodeQuads_pad (by omega) (by omega) (by omega), ofNat_eq (b := a) (by omega),
      ofNat_eq (b := b) (by omega)]
  | [a] => by
    have ha := a.toNat_lt
    rw [encode, decodeQuads_pad_pad (by omega) (by omega), ofNat_eq (b := a) (by omega)]
  | [] => rfl

theorem digit_mem (i : ℕ) : digit i ∈ pad :: alphabet := by
  unfold digit
  rw [List.getD_eq_getElem?_getD]
  cases h : alphabet[i]? with
  | none => exact List.mem_cons_self
  | some x => exact List.mem_cons_of_mem _ (List.mem_of_getElem? h)

theorem mem_encode {x : Byte} : ∀ {bytes : List Byte}, x ∈ encode bytes → x ∈ pad :: alphabet
  | a :: b :: c :: rest, h => by
    simp only [encode, List.mem_cons (a := x)] at h
    rcases h with rfl | rfl | rfl | rfl | h
    · exact digit_mem _
    · exact digit_mem _
    · exact digit_mem _
    · exact digit_mem _
    · exact mem_encode h
  | [a, b], h => by
    simp only [encode, List.mem_cons (a := x), List.not_mem_nil, or_false] at h
    rcases h with rfl | rfl | rfl | rfl
    · exact digit_mem _
    · exact digit_mem _
    · exact digit_mem _
    · exact List.mem_cons_self
  | [a], h => by
    simp only [encode, List.mem_cons (a := x), List.not_mem_nil, or_false] at h
    rcases h with rfl | rfl | rfl | rfl
    · exact digit_mem _
    · exact digit_mem _
    · exact List.mem_cons_self
    · exact List.mem_cons_self
  | [], h => by simp [encode] at h

theorem forall_mem_encode {p : Byte → Prop} (h : ∀ x ∈ pad :: alphabet, p x) {bytes : List Byte} :
    ∀ x ∈ encode bytes, p x :=
  fun x hx => h x (mem_encode hx)

/-- The decoder recovers every byte string, also from its encoding with a newline at the end. -/
theorem decode_encode_newline (bytes : List Byte) :
    decode (encode bytes ++ [0x0a]) = some bytes := by
  have hall : ∀ x ∈ pad :: alphabet, x ≠ 0x0a := by decide +kernel
  have hfilter : (encode bytes ++ [0x0a]).filter (· ≠ 0x0a) = encode bytes := by
    rw [List.filter_append, List.filter_eq_self.mpr fun x hx => by
      simpa using forall_mem_encode hall x hx]
    simp
  rw [decode, hfilter, decodeQuads_encode]

end Base64
