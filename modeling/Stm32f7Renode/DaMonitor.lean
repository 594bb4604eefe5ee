import Stm32f7Renode.Library.Shell
import Stm32f7Renode.Library.TransitionSystem

namespace Stm32f7Renode.DaMonitor
open WireText Shell

structure TestCase where
  testCaseDefinitionName : Option (List Byte)
  status : Option (List Byte)

structure TestGroup where
  tests : Option (List TestCase)

structure SuiteRun where
  status : Option (List Byte)
  groups : Option (List TestGroup)

/-- The contents of the status file; a failed call leaves it empty. -/
abbrev Reply := Option SuiteRun

/-- What `jq -r` prints for a string or an absent field. -/
def jqRaw (value : Option (List Byte)) : List Byte := value.getD (ascii "null") ++ [newline]

def jqLength {α : Type*} (value : Option (List α)) : List Byte :=
  decimal (value.getD []).length ++ [newline]

inductive Status
  | pass
  | fail
  | running
  | pending
  | stopping
  | stopped
  | passWithWarnings
  | error
deriving DecidableEq, Repr

def Status.text : Status → List Byte
  | pass => ascii "PASS"
  | fail => ascii "FAIL"
  | running => ascii "RUNNING"
  | pending => ascii "PENDING"
  | stopping => ascii "STOPPING"
  | stopped => ascii "STOPPED"
  | passWithWarnings => ascii "PASS_WITH_WARNINGS"
  | error => ascii "ERROR"

def Reply.overallStatus (r : Reply) : List Byte :=
  commandSubstitution (match r with
    | none => []
    | some d => jqRaw d.status)

def reportTest (c : TestCase) : List Byte :=
  echo (words (commandSubstitution (jqRaw c.testCaseDefinitionName)) ++
    words (commandSubstitution (jqRaw c.status)))

def reportGroup (g : TestGroup) (gn : ℕ) : List Byte :=
  echo ([ascii "GROUP", decimal (gn + 1), ascii "NUMBER", ascii "OF", ascii "TESTS:"] ++
      words (commandSubstitution (jqLength g.tests))) ++
    (g.tests.getD []).flatMap reportTest

/-- With an empty status file, `number_groups` is empty and the loop runs over no index. -/
def reportStatus (r : Reply) : List Byte :=
  let groups := r.bind SuiteRun.groups
  let numberGroups := commandSubstitution (match r with
    | none => []
    | some d => jqLength d.groups)
  echo ([ascii "NUMBER", ascii "TEST", ascii "GROUPS:"] ++ words numberGroups) ++
    (groups.getD []).zipIdx.flatMap fun g => reportGroup g.1 g.2

structure Monitor where
  inProgress : Bool
  monitorStatus : ℕ
  output : List Byte
deriving DecidableEq, Repr

def report (r : Reply) : List Byte :=
  echo ([ascii "OVERALL", ascii "STATUS:"] ++ words r.overallStatus) ++ reportStatus r

def sleeping : List Byte := echo (words (ascii "Sleeping 10 seconds for the next status."))

def poll (s : Monitor) (r : Reply) : Monitor :=
  let s := { s with output := s.output ++ report r }
  if r.overallStatus = Status.fail.text then { s with monitorStatus := 1, inProgress := false }
  else if r.overallStatus = Status.pass.text then { s with monitorStatus := 0, inProgress := false }
  else if r.overallStatus = Status.stopping.text then
    { s with monitorStatus := 1, inProgress := false }
  else if r.overallStatus = Status.stopped.text then
    { s with monitorStatus := 1, inProgress := false }
  else { s with output := s.output ++ sleeping }

def start : Monitor := { inProgress := true, monitorStatus := 0, output := [] }

/-- `while test ${IN_PROGRESS} == 1`; out of the loop, the script exits with `monitorStatus`. -/
def daMonitor : TransitionSystem Monitor Reply where
  init s := s = start
  step s r := if s.inProgress then some (poll s r) else none

/-- The run is over, or about to be. -/
def Status.final : Status → Bool
  | running | pending => false
  | _ => true

def Status.passing : Status → Bool
  | pass | passWithWarnings => true
  | _ => false

def Reply.Final (r : Reply) : Prop := ∃ st : Status, st.final = true ∧ r.overallStatus = st.text

/-- The script polls on until the first final status and then exits at once, with zero if and
only if that status is a pass. -/
def GateFaithful (replies : ℕ → Reply) : Prop :=
  ∀ n, (∀ i < n, ¬ (replies i).Final) →
    ∃ s, daMonitor.exec start ((List.range n).map replies) = some s ∧ s.inProgress = true ∧
      ∀ st : Status, st.final = true → (replies n).overallStatus = st.text →
        ∃ t, daMonitor.step s (replies n) = some t ∧ t.inProgress = false ∧
          t.monitorStatus = if st.passing then 0 else 1

def Status.handled : Status → Bool
  | pass | fail | stopping | stopped => true
  | _ => false

theorem text_injective {a b : Status} (h : a.text = b.text) : a = b := by
  revert h
  cases a <;> cases b <;> decide

theorem overallStatus_of_status {d : SuiteRun} {st : Status} (h : d.status = some st.text) :
    Reply.overallStatus (some d) = st.text := by
  simp only [Reply.overallStatus, jqRaw, h, Option.getD_some]
  cases st <;> decide

/-- A reply with none of the four statuses only adds to the output. -/
theorem poll_of_not_handled {r : Reply} (s : Monitor)
    (h : ∀ st : Status, r.overallStatus = st.text → st.handled = false) :
    poll s r = { s with output := s.output ++ (report r ++ sleeping) } := by
  have hne : ∀ st : Status, st.handled = true → r.overallStatus ≠ st.text := fun st hst he => by
    simp [h st he] at hst
  unfold poll
  simp only [if_neg (hne .fail rfl), if_neg (hne .pass rfl), if_neg (hne .stopping rfl),
    if_neg (hne .stopped rfl), List.append_assoc]

theorem poll_of_handled {r : Reply} {st : Status} (s : Monitor) (hst : st.handled = true)
    (h : r.overallStatus = st.text) :
    (poll s r).inProgress = false ∧ (poll s r).monitorStatus = if st.passing then 0 else 1 := by
  have hne : ∀ u : Status, u ≠ st → r.overallStatus ≠ u.text := fun u hu he =>
    hu (text_injective (he.symm.trans h))
  unfold poll
  cases st <;> simp_all [Status.handled, Status.passing]

theorem step_of_inProgress {s : Monitor} (hs : s.inProgress = true) (r : Reply) :
    daMonitor.step s r = some (poll s r) :=
  if_pos hs

theorem exec_of_not_handled {rs : List Reply} {s : Monitor} (hs : s.inProgress = true)
    (h : ∀ r ∈ rs, ∀ st : Status, r.overallStatus = st.text → st.handled = false) :
    daMonitor.exec s rs =
      some { s with output := s.output ++ rs.flatMap fun r => report r ++ sleeping } := by
  induction rs generalizing s with
  | nil => simp [TransitionSystem.exec]
  | cons r rs ih =>
    have hpoll := poll_of_not_handled s (h r List.mem_cons_self)
    rw [TransitionSystem.exec, step_of_inProgress hs, hpoll, Option.bind_some,
      ih (by exact hs) fun r hr => h r (List.mem_cons_of_mem _ hr)]
    simp

theorem not_handled_of_not_final {r : Reply} (h : ¬ r.Final) (st : Status)
    (hst : r.overallStatus = st.text) : st.handled = false := by
  by_contra hh
  refine h ⟨st, ?_, hst⟩
  cases st <;> simp_all [Status.handled, Status.final]

theorem not_gateFaithful {replies : ℕ → Reply} {n : ℕ} (hn : ∀ i < n, ¬ (replies i).Final)
    {st : Status} (hfinal : st.final = true) (hst : st.handled = false)
    (he : (replies n).overallStatus = st.text) : ¬ GateFaithful replies := by
  intro h
  obtain ⟨s, -, hs, hexit⟩ := h n hn
  obtain ⟨t, ht, hstop, -⟩ := hexit st hfinal he
  rw [step_of_inProgress hs] at ht
  obtain rfl := Option.some.inj ht
  rw [poll_of_not_handled s fun u hu => text_injective (he.symm.trans hu) ▸ hst] at hstop
  exact absurd (hs.symm.trans hstop) (by simp)

/-- The gate is faithful if and only if the first final status, if there is one, is neither
`PASS_WITH_WARNINGS` nor `ERROR`. -/
theorem gateFaithful_iff (replies : ℕ → Reply) :
    GateFaithful replies ↔ ∀ n, (∀ i < n, ¬ (replies i).Final) →
      (replies n).overallStatus ≠ Status.passWithWarnings.text ∧
        (replies n).overallStatus ≠ Status.error.text := by
  constructor
  · intro h n hn
    exact ⟨fun he => not_gateFaithful hn rfl rfl he h, fun he => not_gateFaithful hn rfl rfl he h⟩
  · intro h n hn
    have hrun : ∀ r ∈ (List.range n).map replies, ∀ st : Status, r.overallStatus = st.text →
        st.handled = false := by
      intro r hr
      obtain ⟨i, hi, rfl⟩ := List.mem_map.mp hr
      exact not_handled_of_not_final (hn i (List.mem_range.mp hi))
    refine ⟨_, exec_of_not_handled rfl hrun, rfl, fun st hfinal hst => ?_⟩
    refine ⟨_, step_of_inProgress rfl _, poll_of_handled _ ?_ hst⟩
    obtain ⟨hw, he⟩ := h n hn
    cases st <;> simp_all [Status.final, Status.handled]

def warnings : SuiteRun := { status := some Status.passWithWarnings.text, groups := some [] }

theorem warnings_poll_on : ¬ ∀ replies : ℕ → Reply, GateFaithful replies := by
  intro h
  have hstatus : Reply.overallStatus (some warnings) = Status.passWithWarnings.text :=
    overallStatus_of_status rfl
  exact not_gateFaithful (n := 0) (by simp) rfl rfl hstatus (h fun _ => some warnings)

end Stm32f7Renode.DaMonitor
