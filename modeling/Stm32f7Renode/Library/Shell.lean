import Mathlib.Data.List.DropRight
import Mathlib.Logic.Function.Basic
import Stm32f7Renode.Library.WireText

/-!
Command substitution, the splitting of an unquoted expansion into words,
`echo`, variables in braces, and the reading of a file of assignments, on texts
as lists of bytes. There is no pathname expansion here; the texts that are split
have none of its characters.
-/

namespace Shell
open WireText

def newline : Byte := 0x0a

def isBlank (b : Byte) : Bool := b == 0x20 || b == 0x09 || b == newline

/-- What `$( … )` is replaced by when the command prints `output`. -/
def commandSubstitution (output : List Byte) : List Byte :=
  (output.filter (· ≠ 0)).rdropWhile (· == newline)

/-- The words that an unquoted expansion of `text` gives. -/
def words (text : List Byte) : List (List Byte) :=
  (text.splitOnP isBlank).filter (· ≠ [])

/-- What `echo` prints, given no options. -/
def echo (args : List (List Byte)) : List Byte := [0x20].intercalate args ++ [newline]

theorem commandSubstitution_of_clean {output : List Byte} (h0 : 0 ∉ output)
    (hn : newline ∉ output) : commandSubstitution output = output := by
  have hfilter : output.filter (· ≠ 0) = output := by
    refine List.filter_eq_self.mpr fun b hb => ?_
    simpa using fun he : b = 0 => h0 (he ▸ hb)
  rw [commandSubstitution, hfilter, List.rdropWhile_eq_self_iff]
  intro hne hl
  exact hn (by simpa using (beq_iff_eq.mp hl) ▸ List.getLast_mem hne)

theorem commandSubstitution_line {output : List Byte} (h0 : 0 ∉ output)
    (hn : newline ∉ output) : commandSubstitution (output ++ [newline]) = output := by
  have hclean := commandSubstitution_of_clean h0 hn
  have hnewline : [newline].filter (· ≠ 0) = [newline] := by decide
  unfold commandSubstitution at hclean ⊢
  rw [List.filter_append, hnewline, List.rdropWhile_concat_pos _ _ _ (by decide), hclean]

theorem commandSubstitution_ne_nil {b : Byte} {rest : List Byte} (h0 : b ≠ 0) (hn : b ≠ newline) :
    commandSubstitution (b :: rest) ≠ [] := by
  intro h
  rw [commandSubstitution, List.rdropWhile_eq_nil_iff] at h
  exact hn (by simpa [h0] using h b (by simp [h0]))

@[simp]
theorem words_nil : words [] = [] := by
  simp [words]

theorem words_of_no_blank {text : List Byte} (hne : text ≠ [])
    (h : ∀ b ∈ text, isBlank b = false) : words text = [text] := by
  have hs : text.splitOnP isBlank = [text] :=
    List.splitOnP_eq_singleton fun b hb => h b hb
  simp [words, hs, hne]

theorem words_append_blank {text : List Byte} (hne : text ≠ [])
    (h : ∀ b ∈ text, isBlank b = false) (rest : List Byte) :
    words (text ++ 0x20 :: rest) = text :: words rest := by
  have hsplit : (text ++ 0x20 :: rest).splitOnP isBlank = text :: rest.splitOnP isBlank :=
    List.splitOnP_append_cons_of_forall_mem h 0x20 (by decide) rest
  rw [words, hsplit, List.filter_cons_of_pos (by simpa using hne), words]

theorem echo_words_of_no_blank {text : List Byte} (h : ∀ b ∈ text, isBlank b = false) :
    echo (words text) = text ++ [newline] := by
  by_cases hne : text = []
  · subst hne
    simp [echo]
  · rw [words_of_no_blank hne h]
    simp [echo]

abbrev Env := List Byte → Option (List Byte)

def Env.assign (env : Env) (a : List Byte × List Byte) : Env := Function.update env a.1 (some a.2)

/-- The text after a point that is outside braces, or behind an opened `${` and the part `name` of
a variable. -/
def expandAfter (env : Env) : Option (List Byte) → List Byte → List Byte
  | _, [] => []
  | none, [b] => [b]
  | none, b :: c :: rest =>
    if b = 0x24 ∧ c = 0x7b then expandAfter env (some []) rest
    else b :: expandAfter env none (c :: rest)
  | some name, b :: rest =>
    if b = 0x7d then (env name).getD [] ++ expandAfter env none rest
    else expandAfter env (some (name ++ [b])) rest

/-- The text with its variables in braces replaced; a variable that is not set is empty. -/
def expand (env : Env) (text : List Byte) : List Byte := expandAfter env none text

theorem expandAfter_literal {env : Env} {text : List Byte} (h : 0x24 ∉ text) (rest : List Byte) :
    expandAfter env none (text ++ rest) = text ++ expandAfter env none rest := by
  induction text with
  | nil => rfl
  | cons b text ih =>
    rw [List.mem_cons, not_or] at h
    rw [List.cons_append, List.cons_append, ← ih h.2]
    cases text ++ rest with
    | nil => rfl
    | cons c text => rw [expandAfter, if_neg fun he => h.1 he.1.symm]

theorem expand_literal {env : Env} {text : List Byte} (h : 0x24 ∉ text) :
    expand env text = text := by
  have hlit : expandAfter env none (text ++ []) = _ := expandAfter_literal h []
  rwa [List.append_nil, expandAfter, List.append_nil] at hlit

theorem expandAfter_name {env : Env} {name : List Byte} (h : 0x7d ∉ name) (read rest : List Byte) :
    expandAfter env (some read) (name ++ 0x7d :: rest) =
      (env (read ++ name)).getD [] ++ expandAfter env none rest := by
  induction name generalizing read with
  | nil => simp [expandAfter]
  | cons b name ih =>
    rw [List.mem_cons, not_or] at h
    rw [List.cons_append, expandAfter, if_neg fun he => h.1 he.symm, ih h.2]
    simp

theorem expand_variable {env : Env} {text name : List Byte} (htext : 0x24 ∉ text)
    (hname : 0x7d ∉ name) (rest : List Byte) :
    expand env (text ++ 0x24 :: 0x7b :: (name ++ 0x7d :: rest)) =
      text ++ ((env name).getD [] ++ expand env rest) := by
  rw [expand, expandAfter_literal htext, expandAfter, if_pos ⟨rfl, rfl⟩, expandAfter_name hname]
  rfl

def isNameByte (b : Byte) : Bool :=
  isDigit b || (0x41 ≤ b && b ≤ 0x5a) || (0x61 ≤ b && b ≤ 0x7a) || b == 0x5f

/-- Characters that no shell gives a meaning in the value of an assignment. -/
def isLiteral (b : Byte) : Bool := isNameByte b || (ascii "+=,.@:/%-").contains b

/-- The words of a command line, if no shell sees more in it than words and blanks. -/
def commandWords (line : List Byte) : Option (List (List Byte)) :=
  if line.all fun b => isLiteral b || b == 0x20 then some (words line) else none

def equals : Byte := 0x3d

def isName (name : List Byte) : Bool := name.head?.any (!isDigit ·) && name.all isNameByte

def assignment (line : List Byte) : Option (List Byte × List Byte) :=
  let name := line.takeWhile isNameByte
  match line.dropWhile isNameByte with
  | [] => none
  | b :: value =>
    if b = equals ∧ isName name ∧ value.all isLiteral then
      some (name, value)
    else none

/-- The variables after `. file`, if the file has nothing but assignments of literal values. -/
def source (env : Env) (text : List Byte) : Option Env :=
  ((text.splitOnP (· == newline)).filter (· ≠ [])).foldlM
    (fun env line => (assignment line).map env.assign) env

section Source

variable {as : List (List Byte × List Byte)} {env : Env}

theorem foldl_assign_of_not_mem {key : List Byte} (h : key ∉ as.map Prod.fst) :
    as.foldl Env.assign env key = env key := by
  induction as generalizing env with
  | nil => rfl
  | cons a as ih =>
    simp only [List.map_cons, List.mem_cons, not_or] at h
    rw [List.foldl_cons, ih h.2, Env.assign, Function.update_of_ne h.1]

/-- A variable that is assigned once has that value. -/
theorem foldl_assign_of_mem (hnodup : (as.map Prod.fst).Nodup) {key value : List Byte}
    (h : (key, value) ∈ as) : as.foldl Env.assign env key = some value := by
  induction as generalizing env with
  | nil => cases h
  | cons a as ih =>
    rw [List.map_cons, List.nodup_cons] at hnodup
    rw [List.foldl_cons]
    rcases List.mem_cons.mp h with rfl | h
    · rw [foldl_assign_of_not_mem hnodup.1, Env.assign, Function.update_self]
    · exact ih hnodup.2 h

end Source

end Shell
