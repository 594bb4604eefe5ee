import Stm32f7Renode.Credential
import Stm32f7Renode.Library.Getopts

namespace Stm32f7Renode.CommandLine
open WireText Shell Getopts

structure Variables where
  suiteId : List Byte
  thingName : List Byte
  force : Bool
  policyFile : List Byte
  policyName : List Byte
  secretName : List Byte
  secretUpdate : Bool
  volatileDir : List Byte
deriving DecidableEq

/-- The variables before the loop, when `$(dirname $0)` is `dirname`. Those that the script does
not set come from its environment. -/
def initial (env : Env) (dirname : List Byte) : Variables where
  suiteId := []
  thingName := (env (ascii "THING_NAME")).getD []
  force := false
  policyFile := (env (ascii "POLICY_FILE")).getD []
  policyName := (env (ascii "POLICY_NAME")).getD []
  secretName := (env (ascii "SECRET_NAME")).getD []
  secretUpdate := false
  volatileDir := dirname ++ ascii "/../../volatile"

structure Exit where
  code : ℕ
  output : List Byte
deriving DecidableEq

def usage (code : ℕ) : Exit where
  code := code
  output := [ascii "create-iotcore-credential.sh [args...]",
    [],
    ascii "Create a thing-certificate-policy tuple.",
    [],
    ascii "-d [suite_id]    (OPTIONAL) device advisor suite id",
    ascii "-t [thing_name]  (REQUIRED) the iot thing name",
    ascii "-n [policy name] (REQUIRED) the iot policy name",
    ascii "-F               (OPTIONAL) Force.  Do not check it objects exist.",
    ascii "-f [policy file] (OPTIONAL) when policy does not exist, use this policy file",
    ascii "-i [aws|csr]     (OPTIONAL) default:aws",
    ascii "-s [csr_file]    (OPTIONAL) when using private pki, use this csr",
    ascii "-o [dir]         (OPTIONAL) default: $volatile_dir/$thing_name",
    ascii "-s [name]        (OPTIONAL) Add an AWS Secrets Manager item with this info",
    ascii "-S               (OPTIONAL) Update secret instead of create",
    ascii "-e               (OPTIONAL) export worthwhile variants to file",
    [],
    ascii "$volatile_dir by default is $(dirname $0)/../../volatile",
    [],
    ascii "See also:"].flatMap fun line => echo [line]

def optstring : List Byte := ascii "eFSo:t:n:f:h:s:d:"

/-- The `case` in the loop; `-e` and what `getopts` does not accept have no branch in it. -/
def readOption (v : Variables) (p : Parsed) : Except Exit Variables :=
  let optarg := p.optarg.getD []
  if p.opt = 'd'.toUInt8 then .ok { v with suiteId := optarg }
  else if p.opt = 't'.toUInt8 then .ok { v with thingName := optarg }
  else if p.opt = 'F'.toUInt8 then .ok { v with force := true }
  else if p.opt = 'f'.toUInt8 then .ok { v with policyFile := optarg }
  else if p.opt = 'n'.toUInt8 then .ok { v with policyName := optarg }
  else if p.opt = 's'.toUInt8 then .ok { v with secretName := optarg }
  else if p.opt = 'S'.toUInt8 then .ok { v with secretUpdate := true }
  else if p.opt = 'o'.toUInt8 then .ok { v with volatileDir := optarg }
  else if p.opt = 'h'.toUInt8 then .error (usage 0)
  else .ok v

def checkNames (v : Variables) : Except Exit Variables :=
  if v.thingName = [] then .error (usage 1)
  else if v.policyName = [] then .error (usage 1)
  else .ok v

def readOptions (v : Variables) (args : List (List Byte)) : Except Exit Variables :=
  (getopts optstring none args).1.foldlM readOption v >>= checkNames

/-- The variables after options without `-h`: each has the argument of the last option with its
letter. -/
def given (v : Variables) (options : List Parsed) : Variables where
  suiteId := lastArgument 'd'.toUInt8 v.suiteId options
  thingName := lastArgument 't'.toUInt8 v.thingName options
  force := options.any (·.opt = 'F'.toUInt8) || v.force
  policyFile := lastArgument 'f'.toUInt8 v.policyFile options
  policyName := lastArgument 'n'.toUInt8 v.policyName options
  secretName := lastArgument 's'.toUInt8 v.secretName options
  secretUpdate := options.any (·.opt = 'S'.toUInt8) || v.secretUpdate
  volatileDir := lastArgument 'o'.toUInt8 v.volatileDir options

theorem letter_bytes : 'd'.toUInt8 = 0x64 ∧ 't'.toUInt8 = 0x74 ∧ 'F'.toUInt8 = 0x46 ∧
    'f'.toUInt8 = 0x66 ∧ 'n'.toUInt8 = 0x6e ∧ 's'.toUInt8 = 0x73 ∧ 'S'.toUInt8 = 0x53 ∧
      'o'.toUInt8 = 0x6f ∧ 'h'.toUInt8 = 0x68 := by
  decide

theorem readOption_eq (v : Variables) {p : Parsed} (hh : p.opt ≠ 'h'.toUInt8) :
    readOption v p = .ok (given v [p]) := by
  obtain ⟨opt, optarg⟩ := p
  simp only [letter_bytes] at hh
  by_cases hmem : opt ∈ ([0x64, 0x74, 0x46, 0x66, 0x6e, 0x73, 0x53, 0x6f] : List Byte)
  · simp only [List.mem_cons, List.not_mem_nil, or_false] at hmem
    rcases hmem with rfl | rfl | rfl | rfl | rfl | rfl | rfl | rfl
    all_goals simp [readOption, given, letter_bytes, lastArgument]
  · simp only [List.mem_cons, List.not_mem_nil, or_false, not_or] at hmem
    simp [readOption, given, letter_bytes, lastArgument, hmem, hh]

theorem given_cons (v : Variables) (p : Parsed) (options : List Parsed) :
    given v (p :: options) = given (given v [p]) options := by
  simp only [given, lastArgument_cons, lastArgument_nil, List.any_cons, List.any_nil, Bool.or_false]
  congr 1 <;> ac_rfl

theorem foldlM_readOption (v : Variables) (options : List Parsed) :
    options.foldlM readOption v =
      if options.any (·.opt = 'h'.toUInt8) then .error (usage 0) else .ok (given v options) := by
  induction options generalizing v with
  | nil => rfl
  | cons p options ih =>
    rw [List.foldlM_cons, List.any_cons]
    by_cases hh : p.opt = 'h'.toUInt8
    · have hexit : readOption v p = .error (usage 0) := by
        simp only [readOption, hh, letter_bytes]
        rfl
      rw [hexit, decide_eq_true hh]
      rfl
    · rw [readOption_eq v hh, given_cons v p options, decide_eq_false hh, Bool.false_or]
      exact ih (given v [p])

section Written

variable {groups : List Group}

theorem readOptions_append (h : ∀ g ∈ groups, g.Valid optstring) (v : Variables)
    (ws : List (List Byte)) : readOptions v (groups.flatMap Group.render ++ ws) =
      (groups.flatMap Group.options ++ (getopts optstring none ws).1).foldlM readOption v >>=
        checkNames := by
  rw [readOptions, getopts_render (by decide) h]

theorem readOptions_groups (h : ∀ g ∈ groups, g.Valid optstring) (v : Variables)
    {operands : List (List Byte)} (hop : (getopts optstring none operands).1 = []) :
    readOptions v (groups.flatMap Group.render ++ operands) =
      if (groups.flatMap Group.options).any (·.opt = 'h'.toUInt8) then .error (usage 0)
      else checkNames (given v (groups.flatMap Group.options)) := by
  rw [readOptions_append h, hop, List.append_nil, foldlM_readOption]
  split <;> rfl

/-- A command line in any order and grouping is read as its options are given: `-h` shows the
usage, the two names must be there, and every variable has its last argument. The option `-i` of
the usage is not among those of `getopts`: with its argument it ends them. -/
theorem readOptions_render (h : ∀ g ∈ groups, g.Valid optstring) (v : Variables) :
    (∀ operands, (getopts optstring none operands).1 = [] →
      readOptions v (groups.flatMap Group.render ++ operands) =
        if (groups.flatMap Group.options).any (·.opt = 'h'.toUInt8) then .error (usage 0)
        else checkNames (given v (groups.flatMap Group.options))) ∧
    ∀ word more, word.head? ≠ some dash →
      readOptions v (groups.flatMap Group.render ++ ascii "-i" :: word :: more) =
        readOptions v (groups.flatMap Group.render) := by
  refine ⟨fun operands hop => readOptions_groups h v hop, fun word more hword => ?_⟩
  have hi : getopts optstring none (ascii "-i" :: word :: more) = ([invalid], word :: more) :=
    getopts_unknown (by decide) (by decide) hword more
  have hkeep : [invalid].foldlM readOption = (pure : Variables → Except Exit Variables) := by
    funext v
    rfl
  have hnone : readOptions v (groups.flatMap Group.render) =
      (groups.flatMap Group.options).foldlM readOption v >>= checkNames := by
    simpa [getopts] using readOptions_append h v []
  rw [readOptions_append h, hi, List.foldlM_append, hkeep, bind_pure, hnone]

end Written

/-- A thing name given twice, and a policy name behind `-i aws`. -/
theorem readOptions_render_twice :
    readOptions (initial (fun _ => none) (ascii "scripts"))
        [ascii "-FStbulb", ascii "-t", ascii "lamp", ascii "-i", ascii "aws", ascii "-n",
          ascii "p"] =
      .error (usage 1) ∧
    readOptions (initial (fun _ => none) (ascii "scripts"))
        [ascii "-FStbulb", ascii "-t", ascii "lamp", ascii "-np"] =
      .ok { suiteId := [], thingName := ascii "lamp", force := true, policyFile := [],
            policyName := ascii "p", secretName := [], secretUpdate := true,
            volatileDir := ascii "scripts/../../volatile" } := by
  have htwice : ∀ g ∈ [Group.attached (ascii "FS") 't'.toUInt8 (ascii "bulb"),
      .separate [] 't'.toUInt8 (ascii "lamp")], g.Valid optstring := by
    decide
  have hthree : ∀ g ∈ [Group.attached (ascii "FS") 't'.toUInt8 (ascii "bulb"),
      .separate [] 't'.toUInt8 (ascii "lamp"), .attached [] 'n'.toUInt8 (ascii "p")],
      g.Valid optstring := by
    decide
  constructor
  · exact ((readOptions_render htwice _).2 (ascii "aws") [ascii "-n", ascii "p"] (by decide)).trans
      (by rfl)
  · exact ((readOptions_render hthree _).1 [] rfl).trans (by rfl)

end Stm32f7Renode.CommandLine
