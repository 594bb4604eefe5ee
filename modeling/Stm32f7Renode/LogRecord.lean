import Stm32f7Renode.Library.WireText

namespace Stm32f7Renode.Logging
open WireText

structure CString where
  bytes : List Byte
  noNul : 0 ∉ bytes
deriving DecidableEq, Repr

def maxPrintStringLength : ℕ := 255

def configMaxTaskNameLen : ℕ := 10

/-- What `vsnprintf` leaves in a buffer of `n` bytes, given what the format expands to. -/
def vsnprintf (n : ℕ) (output : List Byte) : List Byte := output.take (n - 1)

def snprintf (n : ℕ) (output : List Byte) : List Byte := vsnprintf n output

def CR : Byte := 0x0d

def LF : Byte := 0x0a

/-- `"%lu %lu [%s] "`, the part of `LOGGING_UART_FORMAT` in front of the body. -/
def envelope (xMessageNumber tickCount : UInt32) (pcTaskName : List Byte) : List Byte :=
  decimal xMessageNumber.toNat ++ ascii " " ++ decimal tickCount.toNat ++ ascii " [" ++
    pcTaskName ++ ascii "] "

def loggingUartFormat (xMessageNumber tickCount : UInt32) (pcTaskName body : List Byte) :
    List Byte :=
  envelope xMessageNumber tickCount pcTaskName ++ body ++ [CR, LF]

/-- What one `vLoggingPrintf` call prints: the number and tick count it read, the name of
its task, and what its format and arguments expand to. -/
structure LogItem where
  xMessageNumber : UInt32
  tickCount : UInt32
  pcTaskName : CString
  body : CString
deriving DecidableEq, Repr

def LogItem.cLogitemBody (c : LogItem) : List Byte := vsnprintf maxPrintStringLength c.body.bytes

def LogItem.cLogitem (c : LogItem) : List Byte :=
  snprintf maxPrintStringLength
    (loggingUartFormat c.xMessageNumber c.tickCount c.pcTaskName.bytes c.cLogitemBody)

def LogItem.completeLine (c : LogItem) : List Byte :=
  loggingUartFormat c.xMessageNumber c.tickCount c.pcTaskName.bytes c.body.bytes

theorem cLogitem_length_le (c : LogItem) : c.cLogitem.length ≤ 254 :=
  List.length_take_le _ _

theorem not_mem_decimal {n : ℕ} {b : Byte} (hb : isDigit b = false) : b ∉ decimal n := by
  intro h
  rw [isDigit_of_mem_decimal h] at hb
  exact Bool.noConfusion hb

/-- A byte outside the alphabet of the envelope's fixed part can only come from the name. -/
theorem not_mem_envelope {n t : UInt32} {name : List Byte} {b : Byte} (hd : isDigit b = false)
    (hs : b ∉ ascii " []") (hn : b ∉ name) : b ∉ envelope n t name := by
  have h1 : ascii " []" = [0x20, 0x5b, 0x5d] := by decide
  have h2 : ascii " [" = [0x20, 0x5b] := by decide
  have h3 : ascii "] " = [0x5d, 0x20] := by decide
  have h4 : ascii " " = [0x20] := by decide
  simp only [h1, List.mem_cons, List.not_mem_nil, or_false, not_or] at hs
  simp [envelope, h2, h3, h4, not_mem_decimal hd, hn, hs]

theorem zero_not_mem_cLogitem (c : LogItem) : 0 ∉ c.cLogitem := by
  intro h
  have h := List.mem_of_mem_take h
  simp only [loggingUartFormat, List.mem_append] at h
  rcases h with (h | h) | h
  · exact not_mem_envelope (by decide) (by decide) c.pcTaskName.noNul h
  · exact c.body.noNul (List.mem_of_mem_take h)
  · exact absurd h (by decide)

theorem cLogitem_head (c : LogItem) :
    ∃ d s, isDigit d = true ∧ c.cLogitem = d :: s := by
  obtain ⟨d, ds, hd⟩ := List.exists_cons_of_ne_nil (decimal_ne_nil c.xMessageNumber.toNat)
  have hdig : isDigit d = true := isDigit_of_mem_decimal (hd ▸ List.mem_cons_self)
  refine ⟨d, c.cLogitem.tail, hdig, ?_⟩
  simp [LogItem.cLogitem, snprintf, vsnprintf, loggingUartFormat, envelope, hd,
    maxPrintStringLength]

theorem cLogitem_of_fits (c : LogItem) (h : c.completeLine.length ≤ 254) :
    c.cLogitem = c.completeLine := by
  have hbody : c.cLogitemBody = c.body.bytes := by
    apply List.take_of_length_le
    simp only [LogItem.completeLine, loggingUartFormat, List.length_append] at h
    change _ ≤ 254
    omega
  rw [LogItem.cLogitem, hbody]
  exact List.take_of_length_le h

/-- A call whose name and body respect the protocol: a task name the kernel can hold, no
delimiter in the name and no terminator in the body. -/
structure WireCall extends LogItem where
  name_length : pcTaskName.bytes.length < configMaxTaskNameLen
  name_bracket : 0x5d ∉ pcTaskName.bytes
  name_cr : CR ∉ pcTaskName.bytes
  name_lf : LF ∉ pcTaskName.bytes
  body_clean : NoPair CR LF body.bytes

def stream (calls : List WireCall) : List Byte := calls.flatMap fun c => c.cLogitem

structure Decoded where
  number : ℕ
  tick : ℕ
  name : List Byte
  body : List Byte
deriving DecidableEq, Repr

def skip (sep s : List Byte) : Option (List Byte) :=
  if sep <+: s then some (s.drop sep.length) else none

def decode (line : List Byte) : Option Decoded := do
  let (number, s) ← parseDecimal line
  let s ← skip (ascii " ") s
  let (tick, s) ← parseDecimal s
  let s ← skip (ascii " [") s
  let name := s.takeWhile (· ≠ 0x5d)
  let s ← skip (ascii "] ") (s.dropWhile (· ≠ 0x5d))
  if s.drop (s.length - 2) = [CR, LF] then
    some { number, tick, name, body := s.take (s.length - 2) }
  else none

/-- The line gives back what the call printed: the whole body when the complete line fits in
254 characters, otherwise a prefix of it. -/
def DecodesTo (line : List Byte) (c : WireCall) : Prop :=
  ∃ body, decode line = some
      { number := c.xMessageNumber.toNat, tick := c.tickCount.toNat, name := c.pcTaskName.bytes,
        body } ∧
    body <+: c.body.bytes ∧ (c.completeLine.length ≤ 254 → body = c.body.bytes)

/-- One line for each call, in call order, with nothing left over. -/
def LineProtocol (calls : List WireCall) : Prop :=
  List.Forall₂ DecodesTo (cutAfter CR LF (stream calls)).1 calls ∧
    (cutAfter CR LF (stream calls)).2 = []

theorem skip_append (sep s : List Byte) : skip sep (sep ++ s) = some s := by
  simp [skip]

theorem decode_completeLine (c : WireCall) :
    decode c.completeLine = some
      { number := c.xMessageNumber.toNat, tick := c.tickCount.toNat, name := c.pcTaskName.bytes,
        body := c.body.bytes } := by
  have hname : ∀ b ∈ c.pcTaskName.bytes, (decide (b ≠ 0x5d)) = true := fun b hb =>
    decide_eq_true fun he => c.name_bracket (he ▸ hb)
  have h2 : ascii "] " = [0x5d, 0x20] := by decide
  -- the line with its separators in front, as the parser meets them
  have hline : c.completeLine = decimal c.xMessageNumber.toNat ++ (ascii " " ++
      (decimal c.tickCount.toNat ++ (ascii " [" ++ (c.pcTaskName.bytes ++ (ascii "] " ++
        (c.body.bytes ++ [CR, LF])))))) := by
    simp only [LogItem.completeLine, loggingUartFormat, envelope, List.append_assoc]
  have hnum : ∀ n s, parseDecimal (decimal n ++ (ascii " " ++ s)) = some (n, ascii " " ++ s) :=
    fun n s => parseDecimal_decimal n (b := 0x20) (by decide) s
  have htick : ∀ n s, parseDecimal (decimal n ++ (ascii " [" ++ s)) = some (n, ascii " [" ++ s) :=
    fun n s => parseDecimal_decimal n (b := 0x20) (by decide) (0x5b :: s)
  have htake : ∀ s, (c.pcTaskName.bytes ++ (ascii "] " ++ s)).takeWhile (· ≠ 0x5d) =
      c.pcTaskName.bytes := by
    intro s
    rw [List.takeWhile_append_of_pos hname, h2, List.cons_append,
      List.takeWhile_cons_of_neg (by decide), List.append_nil]
  have hdrop : ∀ s, (c.pcTaskName.bytes ++ (ascii "] " ++ s)).dropWhile (· ≠ 0x5d) =
      ascii "] " ++ s := by
    intro s
    rw [List.dropWhile_append_of_pos hname, h2, List.cons_append,
      List.dropWhile_cons_of_neg (by decide)]
  rw [hline, decode]
  simp only [hnum, htick, skip_append, htake, hdrop, Option.bind_eq_bind, Option.bind_some]
  simp

theorem noPair_append {s t : List Byte} (hs : CR ∉ s) (ht : NoPair CR LF t) :
    NoPair CR LF (s ++ t) := by
  induction s with
  | nil => exact ht
  | cons a s ih =>
    have ha : a ≠ CR := fun h => hs (h ▸ List.mem_cons_self)
    exact (ih fun h => hs (List.mem_cons_of_mem a h)).cons fun b _ h => ha h.1

theorem noPair_envelope_append (c : WireCall) {t : List Byte} (ht : NoPair CR LF t) :
    NoPair CR LF (envelope c.xMessageNumber c.tickCount c.pcTaskName.bytes ++ t) :=
  noPair_append (not_mem_envelope (by decide) (by decide) c.name_cr) ht

theorem cLogitem_noPair (c : WireCall) (h : 254 < c.completeLine.length) :
    NoPair CR LF c.cLogitem := by
  set l := envelope c.xMessageNumber c.tickCount c.pcTaskName.bytes ++ c.cLogitemBody
  have hlen : 254 ≤ (l ++ [CR]).length := by
    have hb : c.cLogitemBody.length = min 254 c.body.bytes.length := List.length_take
    simp only [LogItem.completeLine, loggingUartFormat, List.length_append] at h
    simp only [l, List.length_append, hb, List.length_cons, List.length_nil] at h ⊢
    omega
  have hcut : c.cLogitem = (l ++ [CR]).take 254 := by
    change (l ++ [CR, LF]).take 254 = _
    rw [show l ++ [CR, LF] = (l ++ [CR]) ++ [LF] by simp, List.take_append_of_le_length hlen]
  have hl : NoPair CR LF (l ++ [CR]) := by
    refine (noPair_envelope_append c (c.body_clean.take _)).append (List.isChain_singleton _) ?_
    rintro a - b hb ⟨-, rfl⟩
    exact absurd hb (by decide)
  rw [hcut]
  exact hl.take 254

theorem cLogitem_head_ne_lf (c : LogItem) (s : List Byte) : (c.cLogitem ++ s).head? ≠ some LF := by
  obtain ⟨d, t, hd, h⟩ := cLogitem_head c
  rw [h]
  intro he
  injection he with he
  exact absurd (he ▸ hd) (by decide)

theorem stream_head_ne_lf (calls : List WireCall) : (stream calls).head? ≠ some LF := by
  cases calls with
  | nil => simp [stream]
  | cons c calls => exact cLogitem_head_ne_lf c.toLogItem (stream calls)

/-- The cut finds a line for exactly the records that kept their terminator. -/
theorem lines_length (calls : List WireCall) :
    (cutAfter CR LF (stream calls)).1.length =
      calls.countP fun c => decide (c.completeLine.length ≤ 254) := by
  induction calls with
  | nil => rfl
  | cons c calls ih =>
    have happ := cutAfter_length_append (x := CR) c.cLogitem (stream calls)
      (stream_head_ne_lf calls)
    rw [List.countP_cons, ← ih]
    refine happ.trans ?_
    by_cases h : c.completeLine.length ≤ 254
    · have hone := cutAfter_line (x := CR) (y := LF) (by decide)
        (noPair_envelope_append c c.body_clean) []
      rw [cLogitem_of_fits _ h]
      change (cutAfter CR LF (_ ++ _)).1.length + _ = _
      rw [hone]
      simp [cutAfter, h, add_comm]
    · rw [cutAfter_of_noPair (cLogitem_noPair c (by omega))]
      simp [h]

theorem lineProtocol_of_fits (calls : List WireCall)
    (h : ∀ c ∈ calls, c.completeLine.length ≤ 254) : LineProtocol calls := by
  have hstream : stream calls = (calls.map fun c : WireCall =>
      envelope c.xMessageNumber c.tickCount c.pcTaskName.bytes ++ c.body.bytes).flatMap
        fun l => l ++ [CR, LF] := by
    rw [List.flatMap_map]
    exact List.flatMap_congr fun c hc => cLogitem_of_fits c.toLogItem (h c hc)
  have hclean : ∀ l ∈ calls.map fun c : WireCall =>
      envelope c.xMessageNumber c.tickCount c.pcTaskName.bytes ++ c.body.bytes,
      NoPair CR LF l := by
    intro l hl
    obtain ⟨c, -, rfl⟩ := List.mem_map.mp hl
    exact noPair_envelope_append c c.body_clean
  have hcut := cutAfter_lines (by decide : CR ≠ LF) _ hclean
  rw [← hstream, List.map_map] at hcut
  rw [LineProtocol, hcut]
  refine ⟨?_, rfl⟩
  rw [List.forall₂_map_left_iff, List.forall₂_same]
  intro c _
  exact ⟨c.body.bytes, decode_completeLine c, List.prefix_rfl, fun _ => rfl⟩

/-- With a task name that fits, 218 bytes of body fit for every number and tick count. -/
theorem completeLine_length_le (c : LogItem)
    (hname : c.pcTaskName.bytes.length < configMaxTaskNameLen)
    (hbody : c.body.bytes.length ≤ 218) : c.completeLine.length ≤ 254 := by
  have hnum := decimal_length_le (k := 10) (by decide)
    (c.xMessageNumber.toNat_lt.trans (by decide))
  have htick := decimal_length_le (k := 10) (by decide) (c.tickCount.toNat_lt.trans (by decide))
  have h1 : (ascii " ").length = 1 := by decide
  have h2 : (ascii " [").length = 2 := by decide
  have h3 : (ascii "] ").length = 2 := by decide
  simp only [LogItem.completeLine, loggingUartFormat, envelope, List.length_append,
    List.length_cons, List.length_nil, h1, h2, h3]
  unfold configMaxTaskNameLen at hname
  omega

theorem lineProtocol_of_short_bodies (calls : List WireCall)
    (h : ∀ c ∈ calls, c.body.bytes.length ≤ 218) : LineProtocol calls :=
  lineProtocol_of_fits calls fun c hc => completeLine_length_le _ c.name_length (h c hc)

/-- The stream decodes line by line exactly when every complete line fits in the record
buffer, that is in 254 characters. -/
theorem lineProtocol_iff (calls : List WireCall) :
    LineProtocol calls ↔ ∀ c ∈ calls, c.completeLine.length ≤ 254 := by
  refine ⟨fun h => ?_, lineProtocol_of_fits calls⟩
  have hlen := h.1.length_eq
  rw [lines_length, List.countP_eq_length] at hlen
  simpa using hlen

/-- A single call with 242 body bytes: the complete line has 255 bytes, its LF is cut off
and the stream contains no line at all. -/
theorem lineProtocol_long_body_fails : ¬ ∀ calls : List WireCall, LineProtocol calls := by
  intro h
  let c : WireCall :=
    { xMessageNumber := 0, tickCount := 0, pcTaskName := ⟨ascii "None", by decide⟩,
      body := ⟨List.replicate 242 0x78, by decide⟩, name_length := by decide,
      name_bracket := by decide, name_cr := by decide, name_lf := by decide,
      body_clean := List.isChain_replicate_of_rel _ (by decide) }
  have hlen := (h [c]).1.length_eq
  rw [lines_length] at hlen
  exact absurd hlen (by decide +kernel)

end Stm32f7Renode.Logging
