import Stm32f7Renode.Library.WireText

/-!
A printer for objects whose members are strings, which pastes the strings as they are, and a
reader for any JSON text that keeps the members of the outermost object.
-/

namespace FlatJson
open WireText

abbrev Member := List Byte × List Byte

def quote : Byte := 0x22

def backslash : Byte := 0x5c

def isBlank (b : Byte) : Bool := b == 0x20 || b == 0x09 || b == 0x0a || b == 0x0d

/-- An ASCII character that stands for itself in a string. -/
def isPlain (b : Byte) : Bool :=
  decide (0x20 ≤ b) && decide (b < 0x80) && b != quote && b != backslash

structure Layout where
  afterOpen : List Byte
  beforeColon : List Byte
  afterColon : List Byte
  afterComma : List Byte
  beforeClose : List Byte
  afterClose : List Byte
  blank : (afterOpen ++ beforeColon ++ afterColon ++ afterComma ++ beforeClose ++ afterClose).all
    isBlank = true

theorem Layout.isBlank_of_mem (L : Layout) {b : Byte}
    (h : b ∈ L.afterOpen ++ L.beforeColon ++ L.afterColon ++ L.afterComma ++ L.beforeClose ++
      L.afterClose) : isBlank b = true :=
  List.all_eq_true.mp L.blank b h

def renderMember (L : Layout) (m : Member) : List Byte :=
  quote :: m.1 ++ quote :: L.beforeColon ++ 0x3a :: L.afterColon ++ quote :: m.2 ++ [quote]

def renderMembers (L : Layout) : List Member → List Byte
  | [] => []
  | [m] => renderMember L m ++ L.beforeClose ++ 0x7d :: L.afterClose
  | m :: ms => renderMember L m ++ 0x2c :: L.afterComma ++ renderMembers L ms

def render (L : Layout) (ms : List Member) : List Byte :=
  0x7b :: L.afterOpen ++ renderMembers L ms

inductive Frame
  | object
  | array
deriving DecidableEq, Repr

inductive Digits
  | minus
  | zero
  | whole
  | point
  | fraction
  | exponent
  | sign
  | power
deriving DecidableEq, Repr

def Digits.first (b : Byte) : Option Digits :=
  if b = 0x2d then some minus
  else if b = 0x30 then some zero
  else if isDigit b then some whole
  else none

def Digits.next (n : Digits) (b : Byte) : Option Digits :=
  let isExponent := b == 0x65 || b == 0x45
  match n with
  | minus => if b = 0x30 then some zero else if isDigit b then some whole else none
  | zero => if b = 0x2e then some point else if isExponent then some exponent else none
  | whole =>
    if isDigit b then some whole
    else if b = 0x2e then some point
    else if isExponent then some exponent
    else none
  | point => if isDigit b then some fraction else none
  | fraction => if isDigit b then some fraction else if isExponent then some exponent else none
  | exponent => if b = 0x2b ∨ b = 0x2d then some sign else if isDigit b then some power else none
  | sign | power => if isDigit b then some power else none

def Digits.complete : Digits → Bool
  | zero | whole | fraction | power => true
  | _ => false

inductive Mode
  | value
  | firstElement
  | firstKey
  | key
  | colon
  | text (isKey : Bool) (acc : List Byte)
  | multibyte (isKey : Bool) (acc : List Byte) (ranges : List (Byte × Byte))
  | escape (isKey : Bool) (acc : List Byte)
  | unicode (isKey : Bool) (acc : List Byte) (digits : List ℕ)
  | number (n : Digits)
  | literal (rest : List Byte)
  | after
deriving DecidableEq, Repr

/-- The reader, with the present key and the members of the outermost object; the value of a
member that is no string is `none`. -/
structure Reader where
  stack : List Frame
  mode : Mode
  key : List Byte
  members : List (List Byte × Option (List Byte))
deriving DecidableEq, Repr

/-- The bytes of a code unit in UTF-8; the two halves of a surrogate pair stay apart. -/
def utf8 (c : ℕ) : List Byte :=
  if c < 0x80 then [UInt8.ofNat c]
  else if c < 0x800 then [UInt8.ofNat (0xc0 + c / 64), UInt8.ofNat (0x80 + c % 64)]
  else [UInt8.ofNat (0xe0 + c / 4096), UInt8.ofNat (0x80 + c / 64 % 64),
    UInt8.ofNat (0x80 + c % 64)]

/-- The ranges of the bytes behind the first byte of a UTF-8 character. -/
def continuations (b : Byte) : List (Byte × Byte) :=
  if 0xc2 ≤ b ∧ b ≤ 0xdf then [(0x80, 0xbf)]
  else if b = 0xe0 then [(0xa0, 0xbf), (0x80, 0xbf)]
  else if b = 0xed then [(0x80, 0x9f), (0x80, 0xbf)]
  else if 0xe1 ≤ b ∧ b ≤ 0xef then [(0x80, 0xbf), (0x80, 0xbf)]
  else if b = 0xf0 then [(0x90, 0xbf), (0x80, 0xbf), (0x80, 0xbf)]
  else if 0xf1 ≤ b ∧ b ≤ 0xf3 then [(0x80, 0xbf), (0x80, 0xbf), (0x80, 0xbf)]
  else if b = 0xf4 then [(0x80, 0x8f), (0x80, 0xbf), (0x80, 0xbf)]
  else []

def hexDigit (b : Byte) : Option ℕ :=
  if isDigit b then some (b.toNat - 0x30)
  else if 0x61 ≤ b ∧ b ≤ 0x66 then some (b.toNat - 0x57)
  else if 0x41 ≤ b ∧ b ≤ 0x46 then some (b.toNat - 0x37)
  else none

def escapes : List (Byte × Byte) :=
  [(quote, quote), (backslash, backslash), (0x2f, 0x2f), (0x62, 0x08), (0x66, 0x0c), (0x6e, 0x0a),
    (0x72, 0x0d), (0x74, 0x09)]

def literals : List (Byte × List Byte) :=
  [(0x74, ascii "rue"), (0x66, ascii "alse"), (0x6e, ascii "ull")]

namespace Reader

def start : Reader := { stack := [], mode := .value, key := [], members := [] }

/-- Behind a value; one of the outermost object is a member. -/
def complete (r : Reader) (v : Option (List Byte)) : Reader :=
  { r with
    mode := .after
    members := if r.stack = [.object] then r.members ++ [(r.key, v)] else r.members }

def endText (r : Reader) (isKey : Bool) (acc : List Byte) : Reader :=
  if isKey then
    { r with mode := .colon, key := if r.stack = [.object] then acc else r.key }
  else r.complete (some acc)

def enter (r : Reader) (f : Frame) (mode : Mode) : Reader := { r with stack := f :: r.stack, mode }

def leave (r : Reader) : Reader := complete { r with stack := r.stack.tail } none

def stepValue (r : Reader) (b : Byte) : Option Reader :=
  if isBlank b then some r
  else if b = quote then some { r with mode := .text false [] }
  else if b = 0x7b then some (r.enter .object .firstKey)
  else if b = 0x5b then some (r.enter .array .firstElement)
  else
    match literals.lookup b with
    | some rest => some { r with mode := .literal rest }
    | none => (Digits.first b).map fun n => { r with mode := .number n }

def stepKey (r : Reader) (b : Byte) : Option Reader :=
  if isBlank b then some r
  else if b = quote then some { r with mode := .text true [] }
  else none

def stepAfter (r : Reader) (b : Byte) : Option Reader :=
  if isBlank b then some r
  else
    match r.stack with
    | .object :: _ =>
      if b = 0x2c then some { r with mode := .key }
      else if b = 0x7d then some r.leave
      else none
    | .array :: _ =>
      if b = 0x2c then some { r with mode := .value }
      else if b = 0x5d then some r.leave
      else none
    | [] => none

def stepText (r : Reader) (isKey : Bool) (acc : List Byte) (b : Byte) : Option Reader :=
  if isPlain b then some { r with mode := .text isKey (acc ++ [b]) }
  else if b = quote then some (r.endText isKey acc)
  else if b = backslash then some { r with mode := .escape isKey acc }
  else
    match continuations b with
    | [] => none
    | ranges => some { r with mode := .multibyte isKey (acc ++ [b]) ranges }

def stepMultibyte (r : Reader) (isKey : Bool) (acc : List Byte) (ranges : List (Byte × Byte))
    (b : Byte) : Option Reader :=
  match ranges with
  | [] => none
  | (first, last) :: ranges =>
    if first ≤ b ∧ b ≤ last then
      some { r with
        mode := if ranges.isEmpty then .text isKey (acc ++ [b])
          else .multibyte isKey (acc ++ [b]) ranges }
    else none

def stepEscape (r : Reader) (isKey : Bool) (acc : List Byte) (b : Byte) : Option Reader :=
  if b = 0x75 then some { r with mode := .unicode isKey acc [] }
  else (escapes.lookup b).map fun c => { r with mode := .text isKey (acc ++ [c]) }

def stepUnicode (r : Reader) (isKey : Bool) (acc : List Byte) (digits : List ℕ) (b : Byte) :
    Option Reader :=
  (hexDigit b).map fun d =>
    if digits.length = 3 then
      { r with mode := .text isKey (acc ++ utf8 ((digits ++ [d]).foldl (16 * · + ·) 0)) }
    else { r with mode := .unicode isKey acc (digits ++ [d]) }

def step (r : Reader) (b : Byte) : Option Reader :=
  match r.mode with
  | .value => r.stepValue b
  | .firstElement => if b = 0x5d then some r.leave else r.stepValue b
  | .firstKey => if b = 0x7d then some r.leave else r.stepKey b
  | .key => r.stepKey b
  | .colon =>
    if isBlank b then some r else if b = 0x3a then some { r with mode := .value } else none
  | .text isKey acc => r.stepText isKey acc b
  | .multibyte isKey acc ranges => r.stepMultibyte isKey acc ranges b
  | .escape isKey acc => r.stepEscape isKey acc b
  | .unicode isKey acc digits => r.stepUnicode isKey acc digits b
  | .number n =>
    match n.next b with
    | some n => some { r with mode := .number n }
    -- a number ends where the next character is none of it
    | none => if n.complete then (r.complete none).stepAfter b else none
  | .literal rest =>
    if rest.head? = some b then
      some (if rest.length = 1 then r.complete none else { r with mode := .literal rest.tail })
    else none
  | .after => r.stepAfter b

def run (r : Reader) (text : List Byte) : Option Reader := text.foldlM step r

def done (r : Reader) : Bool :=
  r.stack.isEmpty && match r.mode with
    | .after => true
    | .number n => n.complete
    | _ => false

end Reader

/-- The members of the outermost object, if the text is JSON. -/
def read (text : List Byte) : Option (List (List Byte × Option (List Byte))) :=
  (Reader.start.run text).bind fun r => if r.done then some r.members else none

/-- The string at `key`; JSON leaves open what a key that comes twice stands for. -/
def field (key text : List Byte) : Option (List Byte) :=
  match ((read text).getD []).filter (·.1 = key) with
  | [m] => m.2
  | _ => none

example : read (ascii "\x7b \"a\" : \"\\u0041\\n\", \"b\" : [1.5e3, \x7b\"c\" : null\x7d ] \x7d") =
    some [(ascii "a", some (ascii "A\n")), (ascii "b", none)] := by
  decide +kernel

example : (read (ascii "[\"" ++ [0xc3, 0xa9] ++ ascii "\"]")).isSome = true ∧
    read (ascii "[\"" ++ [0xc3] ++ ascii "\"]") = none := by
  decide +kernel

namespace Reader

variable {r s : Reader} {blanks text rest : List Byte}

@[simp]
theorem run_nil : r.run [] = some r := rfl

theorem run_cons (b : Byte) : r.run (b :: rest) = (r.step b).bind (·.run rest) := rfl

theorem run_append : r.run (text ++ rest) = (r.run text).bind (·.run rest) :=
  List.foldlM_append

/-- In front of a key, a colon, a value or a separator. -/
def Skips (r : Reader) : Prop :=
  r.mode = .firstKey ∨ r.mode = .key ∨ r.mode = .colon ∨ r.mode = .value ∨ r.mode = .after

theorem step_blank (hr : r.Skips) {b : Byte} (hb : isBlank b = true) : r.step b = some r := by
  have hclose : b ≠ 0x7d := by
    rintro rfl
    exact absurd hb (by decide)
  rcases hr with h | h | h | h | h
  · simp only [step, h, if_neg hclose, stepKey, hb, if_true]
  · simp only [step, h, stepKey, hb, if_true]
  · simp only [step, h, hb, if_true]
  · simp only [step, h, stepValue, hb, if_true]
  · simp only [step, h, stepAfter, hb, if_true]

theorem run_blanks (hr : r.Skips) (hblanks : ∀ b ∈ blanks, isBlank b = true) :
    r.run (blanks ++ rest) = r.run rest := by
  induction blanks with
  | nil => rfl
  | cons b blanks ih =>
    have hb := step_blank hr (hblanks b List.mem_cons_self)
    rw [List.cons_append, run_cons, hb, Option.bind_some]
    exact ih fun c hc => hblanks c (List.mem_cons_of_mem b hc)

theorem run_plain {isKey : Bool} {acc : List Byte} (ht : ∀ b ∈ text, isPlain b = true) :
    { r with mode := .text isKey acc }.run (text ++ rest) =
      { r with mode := .text isKey (acc ++ text) }.run rest := by
  induction text generalizing acc with
  | nil => rw [List.nil_append, List.append_nil]
  | cons b text ih =>
    have hb : { r with mode := .text isKey acc }.step b =
        some { r with mode := .text isKey (acc ++ [b]) } := by
      simp only [step, stepText, ht b List.mem_cons_self, if_true]
    have htext : { r with mode := .text isKey (acc ++ [b]) }.run (text ++ rest) = _ :=
      ih fun c hc => ht c (List.mem_cons_of_mem b hc)
    rw [List.cons_append, run_cons, hb, Option.bind_some, htext, List.append_assoc]
    rfl

theorem run_text {isKey : Bool} (ht : ∀ b ∈ text, isPlain b = true) :
    { r with mode := .text isKey [] }.run (text ++ quote :: rest) =
      (r.endText isKey text).run rest := by
  have hquote : { r with mode := .text isKey text }.step quote = some (r.endText isKey text) := by
    cases isKey <;> rfl
  rw [run_plain ht, List.nil_append, run_cons, hquote, Option.bind_some]

structure AtKey (r : Reader) : Prop where
  stack : r.stack = [.object]
  mode : r.mode = .firstKey ∨ r.mode = .key

theorem AtKey.run_key {key : List Byte} (h : r.AtKey) (hk : ∀ b ∈ key, isPlain b = true) :
    r.run (quote :: key ++ quote :: rest) =
      { r with mode := .colon, key }.run rest := by
  have hquote : r.step quote = some { r with mode := .text true [] } := by
    rcases h.mode with h | h <;> rw [step, h] <;> rfl
  rw [List.cons_append, run_cons, hquote, Option.bind_some, run_text hk]
  simp only [endText, if_true, h.stack]

theorem run_colon {L : Layout} {key : List Byte} :
    { r with mode := .colon, key }.run (L.beforeColon ++ 0x3a :: (L.afterColon ++ rest)) =
      { r with mode := .value, key }.run rest := by
  have hstep : { r with mode := .colon, key }.step 0x3a =
      some { r with mode := .value, key } := rfl
  rw [run_blanks (.inr (.inr (.inl rfl))) fun b hb => L.isBlank_of_mem (by simp [hb]),
    run_cons, hstep, Option.bind_some,
    run_blanks (.inr (.inr (.inr (.inl rfl)))) fun b hb => L.isBlank_of_mem (by simp [hb])]

/-- Members read before the others. -/
def behind (r : Reader) (ms : List (List Byte × Option (List Byte))) : Reader :=
  { r with members := ms ++ r.members }

variable {ms : List (List Byte × Option (List Byte))}

theorem complete_behind (v : Option (List Byte)) :
    (r.behind ms).complete v = (r.complete v).behind ms := by
  unfold complete behind
  by_cases h : r.stack = [.object] <;> simp [h]

theorem endText_behind (isKey : Bool) (acc : List Byte) :
    (r.behind ms).endText isKey acc = (r.endText isKey acc).behind ms := by
  cases isKey with
  | true => rfl
  | false => exact complete_behind (some acc)

theorem leave_behind : (r.behind ms).leave = r.leave.behind ms :=
  complete_behind (r := { r with stack := r.stack.tail }) none

theorem stepValue_behind (b : Byte) :
    (r.behind ms).stepValue b = (r.stepValue b).map (·.behind ms) := by
  unfold stepValue
  split_ifs
  any_goals rfl
  cases literals.lookup b with
  | some rest => rfl
  | none => cases Digits.first b <;> rfl

theorem stepKey_behind (b : Byte) :
    (r.behind ms).stepKey b = (r.stepKey b).map (·.behind ms) := by
  unfold stepKey
  split_ifs <;> rfl

theorem stepAfter_behind (b : Byte) :
    (r.behind ms).stepAfter b = (r.stepAfter b).map (·.behind ms) := by
  have hstack : (r.behind ms).stack = r.stack := rfl
  unfold stepAfter
  rw [hstack]
  by_cases hb : isBlank b = true
  · rw [if_pos hb, if_pos hb]
    rfl
  · rw [if_neg hb, if_neg hb]
    rcases r.stack with _ | ⟨_ | _, stack⟩
    · rfl
    · dsimp only
      split_ifs <;> first | rfl | exact congrArg some leave_behind
    · dsimp only
      split_ifs <;> first | rfl | exact congrArg some leave_behind

/-- What has been read before makes no difference to a step. -/
theorem step_behind (b : Byte) : (r.behind ms).step b = (r.step b).map (·.behind ms) := by
  have hmode : (r.behind ms).mode = r.mode := rfl
  unfold step
  rw [hmode]
  cases r.mode with
  | value => exact stepValue_behind b
  | firstElement =>
    dsimp only
    split_ifs
    · exact congrArg some leave_behind
    · exact stepValue_behind b
  | firstKey =>
    dsimp only
    split_ifs
    · exact congrArg some leave_behind
    · exact stepKey_behind b
  | key => exact stepKey_behind b
  | colon =>
    dsimp only
    split_ifs <;> rfl
  | text isKey acc =>
    dsimp only [stepText]
    split_ifs
    · rfl
    · exact congrArg some (endText_behind isKey acc)
    · rfl
    · cases continuations b <;> rfl
  | multibyte isKey acc ranges =>
    dsimp only
    rcases ranges with _ | ⟨range, ranges⟩
    · rfl
    · dsimp only [stepMultibyte]
      split_ifs <;> rfl
  | escape isKey acc =>
    dsimp only [stepEscape]
    split_ifs
    · rfl
    · cases escapes.lookup b <;> rfl
  | unicode isKey acc digits =>
    dsimp only [stepUnicode]
    cases hexDigit b with
    | none => rfl
    | some d =>
      dsimp only [Option.map_some]
      split_ifs <;> rfl
  | number n =>
    dsimp only
    cases n.next b with
    | some n => rfl
    | none =>
      dsimp only
      split_ifs
      · rw [complete_behind]
        exact stepAfter_behind b
      · rfl
  | literal rest =>
    dsimp only
    split_ifs
    · exact congrArg some (complete_behind none)
    · rfl
    · rfl
  | after => exact stepAfter_behind b

theorem run_behind : (r.behind ms).run text = (r.run text).map (·.behind ms) := by
  induction text generalizing r with
  | nil => rfl
  | cons b text ih =>
    rw [run_cons, run_cons, step_behind]
    cases r.step b with
    | none => rfl
    | some s => exact ih

end Reader

def Member.Plain (m : Member) : Prop :=
  (∀ b ∈ m.1, isPlain b = true) ∧ ∀ b ∈ m.2, isPlain b = true

def Member.stored (m : Member) : List Byte × Option (List Byte) := (m.1, some m.2)

section Render

open Reader

variable {L : Layout} {r r' : Reader} {rest : List Byte} {m : Member} {ms : List Member}

def valueText (L : Layout) (v : List Byte) : List Byte :=
  L.beforeColon ++ 0x3a :: (L.afterColon ++ quote :: v ++ [quote])

theorem renderMember_eq (m : Member) :
    renderMember L m = quote :: m.1 ++ quote :: valueText L m.2 := by
  simp [renderMember, valueText]

theorem Reader.AtKey.run_member (h : r.AtKey) (hm : m.Plain) :
    r.run (renderMember L m ++ rest) =
      { r with mode := .after, key := m.1, members := r.members ++ [m.stored] }.run rest := by
  have htext : renderMember L m ++ rest = quote :: m.1 ++ quote :: (L.beforeColon ++
      0x3a :: (L.afterColon ++ (quote :: (m.2 ++ quote :: rest)))) := by
    simp [renderMember]
  have hquote : { r with mode := .value, key := m.1 }.step quote =
      some { r with mode := .text false [], key := m.1 } := rfl
  rw [htext, h.run_key hm.1, run_colon, run_cons, hquote, Option.bind_some]
  have hvalue : ({ r with mode := .text false [], key := m.1 } : Reader).run
      (m.2 ++ quote :: rest) = _ := run_text (r := { r with key := m.1 }) hm.2
  rw [hvalue]
  simp only [endText, complete, h.stack, if_true, Bool.false_eq_true, if_false]
  rfl

theorem run_comma (h : r.stack = [.object]) :
    { r with mode := .after }.run (0x2c :: (L.afterComma ++ rest)) =
      { r with mode := .key }.run rest := by
  have hcomma : { r with mode := .after }.step 0x2c = some { r with mode := .key } := by
    simp only [step, stepAfter, h]
    rfl
  rw [run_cons, hcomma, Option.bind_some]
  exact run_blanks (.inr (.inl rfl)) fun b hb => L.isBlank_of_mem (by simp [hb])

theorem run_close (h : r.stack = [.object]) :
    { r with mode := .after }.run (L.beforeClose ++ 0x7d :: L.afterClose) =
      some { r with stack := [], mode := .after } := by
  have hclose : { r with mode := .after }.step 0x7d =
      some { r with stack := [], mode := .after } := by
    simp only [step, stepAfter, h]
    rfl
  have hend : { r with stack := [], mode := .after }.run (L.afterClose ++ []) = _ :=
    run_blanks (.inr (.inr (.inr (.inr rfl)))) fun b hb => L.isBlank_of_mem (by simp [hb])
  rw [List.append_nil, run_nil] at hend
  rw [run_blanks (.inr (.inr (.inr (.inr rfl)))) fun b hb => L.isBlank_of_mem (by simp [hb]),
    run_cons, hclose, Option.bind_some, hend]

/-- Plain members are read one after the other, whatever comes behind them. -/
theorem Reader.AtKey.run_members (h : r.AtKey) (hms : ∀ m ∈ ms, m.Plain) (last : Member) :
    ∃ r' : Reader, r'.AtKey ∧ r'.members = r.members ++ ms.map Member.stored ∧
      r.run (renderMembers L (ms ++ [last])) = r'.run (renderMembers L [last]) := by
  induction ms generalizing r with
  | nil => exact ⟨r, h, by simp, rfl⟩
  | cons m ms ih =>
    have hread : r.run (renderMember L m ++ 0x2c :: (L.afterComma ++
        renderMembers L (ms ++ [last]))) =
      { r with mode := .key, key := m.1, members := r.members ++ [m.stored] }.run
        (renderMembers L (ms ++ [last])) := by
      rw [h.run_member (hms m List.mem_cons_self)]
      exact run_comma (r := { r with key := m.1, members := r.members ++ [m.stored] }) h.stack
    obtain ⟨r', hr', hmembers, hrun⟩ := ih
      (r := { r with mode := .key, key := m.1, members := r.members ++ [m.stored] })
      ⟨h.stack, .inr rfl⟩ fun x hx => hms x (List.mem_cons_of_mem m hx)
    refine ⟨r', hr', by simpa using hmembers, ?_⟩
    rw [← hrun, ← hread]
    cases ms <;> simp [renderMembers]

theorem atKey_open : ∃ r : Reader, r.AtKey ∧ r.members = [] ∧
    ∀ rest, Reader.start.run (0x7b :: (L.afterOpen ++ rest)) = r.run rest := by
  refine ⟨⟨[.object], .firstKey, [], []⟩, ⟨rfl, .inl rfl⟩, rfl, fun rest => ?_⟩
  exact run_blanks (.inl rfl) fun b hb => L.isBlank_of_mem (by simp [hb])

/-- Reading goes on behind plain members as if they were not there. -/
theorem read_render_last (hms : ∀ m ∈ ms, m.Plain) {key : List Byte}
    (hk : ∀ b ∈ key, isPlain b = true) (v : List Byte) :
    read (render L (ms ++ [(key, v)])) =
      (read (render L [(key, v)])).map (ms.map Member.stored ++ ·) := by
  obtain ⟨r, hr, hnil, hopen⟩ := atKey_open (L := L)
  obtain ⟨r', hr', hmembers, hrun⟩ := hr.run_members hms (key, v)
  have htext : renderMembers L [(key, v)] =
      quote :: key ++ quote :: (valueText L v ++ L.beforeClose ++ 0x7d :: L.afterClose) := by
    simp [renderMembers, renderMember_eq]
  -- behind the key, the two readers differ in the members they have read
  have hbehind : { r' with mode := .colon, key } =
      { r with mode := .colon, key }.behind (ms.map Member.stored) := by
    rw [Reader.mk.injEq]
    exact ⟨hr'.stack.trans hr.stack.symm, rfl, rfl, by simp [hmembers, hnil, behind]⟩
  have hsame : r'.run (renderMembers L [(key, v)]) =
      (r.run (renderMembers L [(key, v)])).map (·.behind (ms.map Member.stored)) := by
    rw [htext, hr'.run_key hk, hr.run_key hk, hbehind, run_behind]
  have hrender : ∀ xs : List Member, render L xs = 0x7b :: (L.afterOpen ++ renderMembers L xs) :=
    fun _ => List.cons_append
  rw [read, read, hrender, hrender, hopen, hopen, hrun, hsame]
  cases r.run (renderMembers L [(key, v)]) with
  | none => rfl
  | some s =>
    have hdone : (s.behind (ms.map Member.stored)).done = s.done := rfl
    simp only [Option.map_some, Option.bind_some, hdone]
    split_ifs <;> rfl

theorem read_render_singleton (hm : m.Plain) : read (render L [m]) = some [m.stored] := by
  obtain ⟨r, hr, hnil, hopen⟩ := atKey_open (L := L)
  have htext : render L [m] = 0x7b :: (L.afterOpen ++
      (renderMember L m ++ (L.beforeClose ++ 0x7d :: L.afterClose))) := by
    simp [render, renderMembers]
  have hclose : ({ r with mode := .after, key := m.1, members := r.members ++ [m.stored] } :
      Reader).run (L.beforeClose ++ 0x7d :: L.afterClose) = _ :=
    run_close (r := { r with key := m.1, members := r.members ++ [m.stored] }) hr.stack
  rw [read, htext, hopen, hr.run_member hm, hclose, hnil]
  rfl

/-- The reader recovers plain members from their text, however its blanks are placed. -/
theorem read_render (hne : ms ≠ []) (hms : ∀ m ∈ ms, m.Plain) :
    read (render L ms) = some (ms.map Member.stored) := by
  rw [← List.dropLast_append_getLast hne] at hms ⊢
  have hlast := hms _ (List.mem_append_right _ (List.mem_singleton_self _))
  rw [read_render_last (fun m hm => hms m (List.mem_append_left _ hm)) hlast.1,
    read_render_singleton hlast, Option.map_some, List.map_append]
  rfl

variable {key text : List Byte} {xs : List (List Byte × Option (List Byte))}

theorem filter_stored (hnodup : (ms.map Prod.fst).Nodup) :
    (ms.map Member.stored).filter (·.1 = key) =
      ((ms.lookup key).map fun v => (key, some v)).toList := by
  induction ms with
  | nil => rfl
  | cons m ms ih =>
    rw [List.map_cons, List.nodup_cons] at hnodup
    rw [List.map_cons, List.filter_cons]
    by_cases hm : m.1 = key
    · have hnone : (ms.map Member.stored).filter (·.1 = key) = [] := by
        rw [List.filter_eq_nil_iff]
        intro x hx hkey
        obtain ⟨y, hy, rfl⟩ := List.mem_map.mp hx
        exact hnodup.1 (List.mem_map.mpr ⟨y, hy, (of_decide_eq_true hkey).trans hm.symm⟩)
      have hhead : m.stored.1 = key := hm
      have heq : (key == m.1) = true := beq_iff_eq.mpr hm.symm
      rw [if_pos (decide_eq_true hhead), hnone, List.lookup_cons, heq, ← hm]
      rfl
    · have hhead : ¬ m.stored.1 = key := hm
      have hne : (key == m.1) = false := beq_eq_false_iff_ne.mpr (Ne.symm hm)
      rw [if_neg (by simpa using hhead), ih hnodup.2, List.lookup_cons, hne]

/-- A field of the members in front, if none behind them has its key. -/
theorem field_of_read (h : read text = some (ms.map Member.stored ++ xs))
    (hnodup : (ms.map Prod.fst).Nodup) (hxs : ∀ x ∈ xs, x.1 ≠ key) :
    field key text = ms.lookup key := by
  have hnil : xs.filter (·.1 = key) = [] := by
    rw [List.filter_eq_nil_iff]
    exact fun x hx hkey => hxs x hx (of_decide_eq_true hkey)
  rw [field, h, Option.getD_some, List.filter_append, filter_stored hnodup, hnil, List.append_nil]
  cases ms.lookup key <;> rfl

/-- A key that comes twice has no value. -/
theorem field_of_twice (h : read text = some (ms.map Member.stored ++ xs))
    (hms : key ∈ ms.map Prod.fst) (hxs : key ∈ xs.map Prod.fst) : field key text = none := by
  obtain ⟨m, hm, rfl⟩ := List.mem_map.mp hms
  obtain ⟨x, hx, hkey⟩ := List.mem_map.mp hxs
  have hfront : 0 < ((ms.map Member.stored).filter (·.1 = m.1)).length :=
    List.length_pos_of_mem (List.mem_filter.mpr ⟨List.mem_map_of_mem hm, decide_eq_true rfl⟩)
  have hback : 0 < (xs.filter (·.1 = m.1)).length :=
    List.length_pos_of_mem (List.mem_filter.mpr ⟨hx, decide_eq_true hkey⟩)
  rw [field, h, Option.getD_some, List.filter_append]
  split
  · rename_i y hone
    have hlen := congrArg List.length hone
    rw [List.length_append, List.length_singleton] at hlen
    omega
  · rfl

theorem field_render (hne : ms ≠ []) (hms : ∀ m ∈ ms, m.Plain) (hnodup : (ms.map Prod.fst).Nodup)
    (key : List Byte) : field key (render L ms) = ms.lookup key := by
  have hread := read_render (L := L) hne hms
  rw [← List.append_nil (ms.map Member.stored)] at hread
  exact field_of_read hread hnodup (by simp)

end Render

end FlatJson
