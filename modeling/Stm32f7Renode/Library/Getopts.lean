import Stm32f7Renode.Library.WireText

namespace Getopts
open WireText

def dash : Byte := 0x2d

def colon : Byte := 0x3a

def question : Byte := 0x3f

inductive Kind
  | flag
  | argument
deriving DecidableEq

/-- What an option string says of a letter; an argument is marked by a colon behind the letter. -/
def kind (optstring : List Byte) (c : Byte) : Option Kind :=
  match optstring with
  | [] => none
  | d :: rest =>
    if d = c ∧ c ≠ colon then some (if rest.head? = some colon then .argument else .flag)
    else kind rest c

structure Parsed where
  opt : Byte
  optarg : Option (List Byte)
deriving DecidableEq

def invalid : Parsed := ⟨question, none⟩

/-- What is read from the letters of one word, and the letter that takes the next word as its
argument. -/
def letters (optstring : List Byte) : List Byte → List Parsed × Option Byte
  | [] => ([], none)
  | c :: rest =>
    match kind optstring c with
    | none => (invalid :: (letters optstring rest).1, (letters optstring rest).2)
    | some .flag => (⟨c, none⟩ :: (letters optstring rest).1, (letters optstring rest).2)
    | some .argument => if rest = [] then ([], some c) else ([⟨c, some rest⟩], none)

/-- What the calls read from the words, and the words that are left. The words end with the first
one that has no dash, or with `--`. -/
def getopts (optstring : List Byte) :
    Option Byte → List (List Byte) → List Parsed × List (List Byte)
  | none, [] => ([], [])
  | some _, [] => ([invalid], [])
  | some c, word :: ws =>
    let after := getopts optstring none ws
    (⟨c, some word⟩ :: after.1, after.2)
  | none, word :: ws =>
    if word.head? ≠ some dash ∨ word = [dash] then ([], word :: ws)
    else if word = [dash, dash] then ([], ws)
    else
      let read := letters optstring word.tail
      let after := getopts optstring read.2 ws
      (read.1 ++ after.1, after.2)

example : getopts (ascii "ab:") none [ascii "-ab", ascii "-a", ascii "-ax", ascii "c"] =
    ([⟨0x61, none⟩, ⟨0x62, some (ascii "-a")⟩, ⟨0x61, none⟩, invalid], [ascii "c"]) := by
  decide

/-- The letters of one word, the last of them with its argument if it takes one. -/
inductive Group
  | flags (c : Byte) (cs : List Byte)
  | attached (cs : List Byte) (c : Byte) (optarg : List Byte)
  | separate (cs : List Byte) (c : Byte) (optarg : List Byte)

def Group.render : Group → List (List Byte)
  | flags c cs => [dash :: c :: cs]
  | attached cs c optarg => [dash :: (cs ++ c :: optarg)]
  | separate cs c optarg => [dash :: (cs ++ [c]), optarg]

def Group.options : Group → List Parsed
  | flags c cs => (c :: cs).map (⟨·, none⟩)
  | attached cs c optarg => cs.map (⟨·, none⟩) ++ [⟨c, some optarg⟩]
  | separate cs c optarg => cs.map (⟨·, none⟩) ++ [⟨c, some optarg⟩]

def Group.Valid (optstring : List Byte) : Group → Prop
  | flags c cs => ∀ d ∈ c :: cs, kind optstring d = some .flag
  | attached cs c optarg =>
    (∀ d ∈ cs, kind optstring d = some .flag) ∧ kind optstring c = some .argument ∧ optarg ≠ []
  | separate cs c _ =>
    (∀ d ∈ cs, kind optstring d = some .flag) ∧ kind optstring c = some .argument

instance (optstring : List Byte) (g : Group) : Decidable (g.Valid optstring) :=
  match g with
  | .flags c cs => List.decidableBAll (kind optstring · = some .flag) (c :: cs)
  | .attached cs c optarg =>
    haveI := List.decidableBAll (kind optstring · = some .flag) cs
    inferInstanceAs (Decidable (_ ∧ kind optstring c = some .argument ∧ optarg ≠ []))
  | .separate cs c _ =>
    haveI := List.decidableBAll (kind optstring · = some .flag) cs
    inferInstanceAs (Decidable (_ ∧ kind optstring c = some .argument))

section Written

variable {optstring : List Byte}

theorem mem_of_kind {c : Byte} {k : Kind} (h : kind optstring c = some k) : c ∈ optstring := by
  induction optstring with
  | nil => simp [kind] at h
  | cons d rest ih =>
    rw [kind] at h
    split at h
    · rename_i hd
      exact hd.1 ▸ List.mem_cons_self
    · exact List.mem_cons_of_mem d (ih h)

theorem letters_flags {cs : List Byte} (h : ∀ c ∈ cs, kind optstring c = some .flag)
    (rest : List Byte) : letters optstring (cs ++ rest) =
      (cs.map (⟨·, none⟩) ++ (letters optstring rest).1, (letters optstring rest).2) := by
  induction cs with
  | nil => simp
  | cons c cs ih =>
    obtain ⟨hc, hcs⟩ := List.forall_mem_cons.mp h
    rw [List.cons_append, letters, hc, ih hcs]
    rfl

theorem getopts_letters {c : Byte} {cs : List Byte} (hc : c ≠ dash) (ws : List (List Byte)) :
    getopts optstring none ((dash :: c :: cs) :: ws) =
      ((letters optstring (c :: cs)).1 ++ (getopts optstring (letters optstring (c :: cs)).2 ws).1,
        (getopts optstring (letters optstring (c :: cs)).2 ws).2) := by
  have hword : ¬ ((dash :: c :: cs).head? ≠ some dash ∨ dash :: c :: cs = [dash]) := by simp
  have hend : dash :: c :: cs ≠ [dash, dash] := by simp [hc]
  rw [getopts, if_neg hword, if_neg hend]
  rfl

theorem getopts_group {cs : List Byte} {c : Byte} {k : Kind} (hdash : dash ∉ optstring)
    (hcs : ∀ d ∈ cs, kind optstring d = some .flag) (hc : kind optstring c = some k)
    (rest : List Byte) (ws : List (List Byte)) :
    getopts optstring none ((dash :: (cs ++ c :: rest)) :: ws) =
      (cs.map (⟨·, none⟩) ++ ((letters optstring (c :: rest)).1 ++
          (getopts optstring (letters optstring (c :: rest)).2 ws).1),
        (getopts optstring (letters optstring (c :: rest)).2 ws).2) := by
  have hne : ∀ {d : Byte} {l : Kind}, kind optstring d = some l → d ≠ dash :=
    fun hd he => hdash (he ▸ mem_of_kind hd)
  have hletters := letters_flags hcs (c :: rest)
  cases cs with
  | nil => simpa using getopts_letters (hne hc) ws
  | cons d cs =>
    have hd := hne (hcs d List.mem_cons_self)
    rw [List.cons_append] at hletters ⊢
    rw [getopts_letters hd ws, hletters]
    simp

theorem getopts_render_group {g : Group} (hdash : dash ∉ optstring) (h : g.Valid optstring)
    (ws : List (List Byte)) : getopts optstring none (g.render ++ ws) =
      (g.options ++ (getopts optstring none ws).1, (getopts optstring none ws).2) := by
  cases g with
  | flags c cs =>
    obtain ⟨hc, hcs⟩ := List.forall_mem_cons.mp h
    have hne : c ≠ dash := fun he => hdash (he ▸ mem_of_kind hc)
    have hletters := letters_flags h []
    rw [List.append_nil] at hletters
    have hword : getopts optstring none ((dash :: c :: cs) :: ws) = _ := getopts_letters hne ws
    rw [hletters] at hword
    simpa [Group.render, Group.options, letters] using hword
  | attached cs c optarg =>
    obtain ⟨hcs, hc, hne⟩ := h
    have hword := getopts_group hdash hcs hc optarg ws
    simpa [Group.render, Group.options, letters, hc, hne] using hword
  | separate cs c optarg =>
    obtain ⟨hcs, hc⟩ := h
    have hword := getopts_group hdash hcs hc [] (optarg :: ws)
    simpa [Group.render, Group.options, letters, hc, getopts] using hword

/-- A written command line is read back, in any grouping, and then what follows it. -/
theorem getopts_render {groups : List Group} (hdash : dash ∉ optstring)
    (h : ∀ g ∈ groups, g.Valid optstring) (ws : List (List Byte)) :
    getopts optstring none (groups.flatMap Group.render ++ ws) =
      (groups.flatMap Group.options ++ (getopts optstring none ws).1,
        (getopts optstring none ws).2) := by
  induction groups with
  | nil => simp
  | cons g groups ih =>
    obtain ⟨hg, hgroups⟩ := List.forall_mem_cons.mp h
    rw [List.flatMap_cons, List.append_assoc, getopts_render_group hdash hg, ih hgroups]
    simp

theorem getopts_operand {word : List Byte} (h : word.head? ≠ some dash) (ws : List (List Byte)) :
    getopts optstring none (word :: ws) = ([], word :: ws) := by
  rw [getopts, if_pos (.inl h)]

/-- A letter that is not known takes no argument, so the word behind it ends the options. -/
theorem getopts_unknown {c : Byte} {word : List Byte} (hc : kind optstring c = none)
    (hne : c ≠ dash) (hword : word.head? ≠ some dash) (ws : List (List Byte)) :
    getopts optstring none ([dash, c] :: word :: ws) = ([invalid], word :: ws) := by
  rw [getopts_letters hne]
  simp only [letters, hc, getopts_operand hword]
  rfl

end Written

/-- The argument of the last option with this letter. -/
def lastArgument (c : Byte) (default : List Byte) (options : List Parsed) : List Byte :=
  match (options.filter (·.opt = c)).getLast? with
  | none => default
  | some p => p.optarg.getD []

@[simp]
theorem lastArgument_nil (c : Byte) (default : List Byte) : lastArgument c default [] = default :=
  rfl

theorem lastArgument_cons (c : Byte) (default : List Byte) (p : Parsed) (options : List Parsed) :
    lastArgument c default (p :: options) =
      lastArgument c (if p.opt = c then p.optarg.getD [] else default) options := by
  unfold lastArgument
  by_cases hp : p.opt = c
  · rw [List.filter_cons_of_pos (by simpa using hp), List.getLast?_cons, if_pos hp]
    cases (options.filter (·.opt = c)).getLast? <;> rfl
  · rw [List.filter_cons_of_neg (by simpa using hp), if_neg hp]

end Getopts
