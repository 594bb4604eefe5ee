import Stm32f7Renode.Journal

namespace Stm32f7Renode.LogTest
open WireText Logging

inductive DemTask
  | A | B | C
deriving DecidableEq, Repr

def DemTask.letter : DemTask → String
  | .A => "A"
  | .B => "B"
  | .C => "C"

theorem DemTask.noNul_letter (t : DemTask) : 0 ∉ ascii t.letter := by
  cases t <;> decide

def DemTask.name (t : DemTask) : CString := ⟨ascii t.letter, t.noNul_letter⟩

def DemTask.speed : DemTask → ℕ
  | .A => 100
  | .B => 200
  | .C => 300

/-- `"%d"` of an unsigned 32-bit argument. -/
def signedDecimal (x : UInt32) : List Byte :=
  if x.toNat < 2 ^ 31 then decimal x.toNat else ascii "-" ++ decimal (2 ^ 32 - x.toNat)

def loopText (t : DemTask) : List Byte := ascii "Starting loop for task " ++ t.name.bytes

def iterationText (t : DemTask) (iteration : UInt32) : List Byte :=
  ascii "Task " ++ t.name.bytes ++ ascii " Speed " ++ decimal t.speed ++ ascii " Iteration " ++
    signedDecimal iteration

theorem mem_signedDecimal {x : UInt32} {b : Byte} (hb : b ∈ signedDecimal x) :
    isDigit b = true ∨ b = 0x2d := by
  unfold signedDecimal at hb
  split at hb
  · exact .inl (isDigit_of_mem_decimal hb)
  · rcases List.mem_append.mp hb with hb | hb
    · have hdash : ascii "-" = [0x2d] := by decide
      exact .inr (List.mem_singleton.mp (hdash ▸ hb))
    · exact .inl (isDigit_of_mem_decimal hb)

theorem signedDecimal_length_le (x : UInt32) : (signedDecimal x).length ≤ 11 := by
  have hx := x.toNat_lt
  have h1 := decimal_length_le (k := 10) (n := x.toNat) (by decide) (hx.trans (by decide))
  have h2 := decimal_length_le (k := 10) (n := 2 ^ 32 - x.toNat) (by decide) (by omega)
  have hdash : (ascii "-").length = 1 := by decide
  unfold signedDecimal
  split
  · omega
  · rw [List.length_append]
    omega

theorem not_mem_iterationText {t : DemTask} {i : UInt32} {b : Byte} (hd : isDigit b = false)
    (hb : b ∉ ascii "Task ABC Speed Iteration -") : b ∉ iterationText t i := by
  have hdash : b ≠ 0x2d := by
    rintro rfl
    exact hb (by decide)
  have hnum : b ∉ signedDecimal i := by
    intro hm
    rcases mem_signedDecimal hm with h | h
    · exact absurd (h.symm.trans hd) (by simp)
    · exact hdash h
  have hfixed : ∀ s ⊆ ascii "Task ABC Speed Iteration -", b ∉ s := fun s hs hm => hb (hs hm)
  unfold iterationText
  simp only [List.mem_append, not_or]
  refine ⟨⟨⟨⟨⟨?_, ?_⟩, ?_⟩, ?_⟩, ?_⟩, hnum⟩
  · exact hfixed _ (by decide)
  · exact hfixed _ (by cases t <;> decide)
  · exact hfixed _ (by decide)
  · exact not_mem_decimal hd
  · exact hfixed _ (by decide)

def loopBody (t : DemTask) : CString := ⟨loopText t, by cases t <;> decide⟩

def iterationBody (t : DemTask) (iteration : UInt32) : CString :=
  ⟨iterationText t iteration, not_mem_iterationText (by decide) (by decide)⟩

def schedulerBody : CString := ⟨ascii "Starting the scheduler.", by decide⟩

/-- The statements of `vLogTestTask` with kernel calls. -/
inductive LogTestPc
  | entry
  | starting
  | loop
  | printing
  | delaying
deriving DecidableEq, Repr

structure LogTestTask where
  pc : LogTestPc
  iteration : UInt32
deriving DecidableEq, Repr

inductive MainPc
  | printing | starting | started
deriving DecidableEq, Repr

structure DemState where
  main : MainPc
  tasks : DemTask → LogTestTask
  log : State DemTask

inductive DemLabel
  | main
  | task (t : DemTask)
  /-- Any other step of the logging system: inside a call, a tick, or the logger. -/
  | kernel (l : Logging.Label DemTask)
deriving DecidableEq

def DemState.setTask (s : DemState) (t : DemTask) (q : LogTestTask) : DemState :=
  { s with tasks := Function.update s.tasks t q }

/-- The steps of the logging system that no program statement stands for. -/
def inner (l : Logging.Label DemTask) : Bool := l.body.isNone && decide (l ≠ .start)

def vLogTestTask (t : DemTask) (s : DemState) : Option DemState :=
  let q := s.tasks t
  match q.pc with
  | .entry =>
    (step DemTask.name s.log (.task t (.call (loopBody t)))).map fun log =>
      { s with log }.setTask t { q with pc := .starting }
  | .starting =>
    if s.log.pc t = .idle then some (s.setTask t { q with pc := .loop }) else none
  | .loop =>
    (step DemTask.name s.log (.task t (.call (iterationBody t q.iteration)))).map fun log =>
      { s with log }.setTask t { q with pc := .printing }
  | .printing =>
    if s.log.pc t = .idle then
      some (s.setTask t { pc := .delaying, iteration := q.iteration + 1 })
    else none
  | .delaying => some (s.setTask t { q with pc := .loop })

def demStep (s : DemState) : DemLabel → Option DemState
  | .main =>
    match s.main with
    | .printing =>
      (step DemTask.name s.log (.early schedulerBody)).map fun log =>
        { s with log, main := .starting }
    | .starting =>
      (step DemTask.name s.log .start).map fun log => { s with log, main := .started }
    | .started => none
  | .task t => vLogTestTask t s
  | .kernel l => if inner l then (step DemTask.name s.log l).map fun log => { s with log } else none

def demSystem : TransitionSystem DemState DemLabel where
  init s := s.main = .printing ∧ (∀ t, s.tasks t = ⟨.entry, 0⟩) ∧
    (loggingSystem DemTask.name).init s.log
  step := demStep

/-- The bodies of a task in program order. -/
def bodyAt (t : DemTask) : ℕ → CString
  | 0 => loopBody t
  | k + 1 => iterationBody t (UInt32.ofNat k)

/-- The task has made `n` calls. -/
def LogTestTask.HasCalled (q : LogTestTask) (n : ℕ) : Prop :=
  match q.pc with
  | .entry => n = 0 ∧ q.iteration = 0
  | .starting => n = 1 ∧ q.iteration = 0
  | .loop | .delaying => ∃ k, n = k + 1 ∧ q.iteration = UInt32.ofNat k
  | .printing => ∃ k, n = k + 2 ∧ q.iteration = UInt32.ofNat k

/-- Every task has made the first calls of its program, as many as it is ahead. -/
def InProgramOrder (s : DemState) : Prop :=
  ∀ t, ∃ n, (s.tasks t).HasCalled n ∧
    s.log.kernel.hist.called t = (List.range n).map (bodyAt t)

section Steps

variable {s s' : DemState}

inductive TaskStep (t : DemTask) (s : DemState) : DemState → Prop
  | enter {log : State DemTask} : (s.tasks t).pc = .entry →
      step DemTask.name s.log (.task t (.call (loopBody t))) = some log →
      TaskStep t s ({ s with log }.setTask t ⟨.starting, (s.tasks t).iteration⟩)
  | entered : (s.tasks t).pc = .starting →
      TaskStep t s (s.setTask t ⟨.loop, (s.tasks t).iteration⟩)
  | print {log : State DemTask} : (s.tasks t).pc = .loop →
      step DemTask.name s.log (.task t (.call (iterationBody t (s.tasks t).iteration))) = some log →
      TaskStep t s ({ s with log }.setTask t ⟨.printing, (s.tasks t).iteration⟩)
  | printed : (s.tasks t).pc = .printing →
      TaskStep t s (s.setTask t ⟨.delaying, (s.tasks t).iteration + 1⟩)
  | delayed : (s.tasks t).pc = .delaying →
      TaskStep t s (s.setTask t ⟨.loop, (s.tasks t).iteration⟩)

theorem taskStep_cases {t : DemTask} (h : vLogTestTask t s = some s') : TaskStep t s s' := by
  unfold vLogTestTask at h
  dsimp only at h
  split at h
  · rename_i hpc
    obtain ⟨log, hlog, rfl⟩ := Option.map_eq_some_iff.mp h
    exact .enter hpc hlog
  · rename_i hpc
    obtain ⟨-, h⟩ := Option.ite_none_right_eq_some.mp h
    exact Option.some.inj h ▸ .entered hpc
  · rename_i hpc
    obtain ⟨log, hlog, rfl⟩ := Option.map_eq_some_iff.mp h
    exact .print hpc hlog
  · rename_i hpc
    obtain ⟨-, h⟩ := Option.ite_none_right_eq_some.mp h
    exact Option.some.inj h ▸ .printed hpc
  · rename_i hpc
    exact Option.some.inj h ▸ .delayed hpc

theorem ofNat_succ (k : ℕ) : UInt32.ofNat k + 1 = UInt32.ofNat (k + 1) := by
  rw [UInt32.ofNat_add]
  rfl

theorem inProgramOrder_setTask {t : DemTask} {q : LogTestTask} {log : State DemTask} {n : ℕ}
    (hI : InProgramOrder s) (hq : q.HasCalled n)
    (hcalled : log.kernel.hist.called t = (List.range n).map (bodyAt t))
    (hother : ∀ u, u ≠ t → log.kernel.hist.called u = s.log.kernel.hist.called u) :
    InProgramOrder ({ s with log }.setTask t q) := by
  intro u
  by_cases hu : u = t
  · subst hu
    exact ⟨n, by simpa [DemState.setTask] using hq, hcalled⟩
  · obtain ⟨m, hm, hc⟩ := hI u
    refine ⟨m, by simpa [DemState.setTask, hu] using hm, ?_⟩
    exact (hother u hu).trans hc

theorem inProgramOrder_task {t : DemTask} (hI : InProgramOrder s) (h : TaskStep t s s') :
    InProgramOrder s' := by
  obtain ⟨n, hn, hc⟩ := hI t
  cases h with
  | enter hpc hlog =>
    simp only [LogTestTask.HasCalled, hpc] at hn
    obtain ⟨rfl, hi⟩ := hn
    refine inProgramOrder_setTask (n := 1) hI ⟨rfl, hi⟩ ?_ fun u hu => ?_
    · rw [called_of_call hlog, Function.update_self, hc]
      rfl
    · rw [called_of_call hlog, Function.update_of_ne hu]
  | entered hpc =>
    simp only [LogTestTask.HasCalled, hpc] at hn
    obtain ⟨rfl, hi⟩ := hn
    exact inProgramOrder_setTask (n := 1) hI ⟨0, rfl, hi⟩ hc fun _ _ => rfl
  | print hpc hlog =>
    simp only [LogTestTask.HasCalled, hpc] at hn
    obtain ⟨k, rfl, hi⟩ := hn
    refine inProgramOrder_setTask (n := k + 2) hI ⟨k, rfl, hi⟩ ?_ fun u hu => ?_
    -- the start line and `k` iterations have been printed
    · have hrange : List.range (k + 2) = List.range (k + 1) ++ [k + 1] := List.range_succ
      rw [called_of_call hlog, Function.update_self, hc, hi, hrange, List.map_append]
      rfl
    · rw [called_of_call hlog, Function.update_of_ne hu]
  | printed hpc =>
    simp only [LogTestTask.HasCalled, hpc] at hn
    obtain ⟨k, rfl, hi⟩ := hn
    refine inProgramOrder_setTask (n := k + 2) hI ⟨k + 1, rfl, ?_⟩ hc fun _ _ => rfl
    rw [hi]
    exact ofNat_succ k
  | delayed hpc =>
    simp only [LogTestTask.HasCalled, hpc] at hn
    exact inProgramOrder_setTask hI hn hc fun _ _ => rfl

theorem inProgramOrder_of_called {log : State DemTask} {m : MainPc} (hI : InProgramOrder s)
    (h : log.kernel.hist.called = s.log.kernel.hist.called) :
    InProgramOrder { s with log, main := m } := by
  intro t
  obtain ⟨n, hn, hc⟩ := hI t
  exact ⟨n, hn, (congrFun h t).trans hc⟩

theorem inProgramOrder_step {l : DemLabel} (hI : InProgramOrder s) (h : demStep s l = some s') :
    InProgramOrder s' := by
  cases l with
  | main =>
    simp only [demStep] at h
    split at h
    · obtain ⟨log, hlog, rfl⟩ := Option.map_eq_some_iff.mp h
      exact inProgramOrder_of_called hI (called_of_not_call (by simp) hlog)
    · obtain ⟨log, hlog, rfl⟩ := Option.map_eq_some_iff.mp h
      exact inProgramOrder_of_called hI (called_of_not_call (by simp) hlog)
    · exact absurd h (by simp)
  | task t => exact inProgramOrder_task hI (taskStep_cases h)
  | kernel l =>
    obtain ⟨hl, h⟩ := Option.ite_none_right_eq_some.mp h
    obtain ⟨log, hlog, rfl⟩ := Option.map_eq_some_iff.mp h
    refine inProgramOrder_of_called hI (called_of_not_call (fun t body he => ?_) hlog)
    rw [he] at hl
    exact absurd hl (by simp [inner, Logging.Label.body])

theorem reachable_inProgramOrder (h : demSystem.Reachable s) : InProgramOrder s := by
  refine h.invariant (fun s hs t => ?_)
    (fun s l s' _ hI _ (hs : demStep s l = some s') => inProgramOrder_step hI hs)
  obtain ⟨-, htasks, ucRxData, -, hlog⟩ := hs
  rw [htasks t, hlog]
  exact ⟨0, ⟨rfl, rfl⟩, rfl⟩

theorem printable_schedulerBody : Printable schedulerBody :=
  printable_of_no_cr (by decide) (by decide)

theorem printable_loopBody (t : DemTask) : Printable (loopBody t) := by
  cases t <;> exact printable_of_no_cr (by decide) (by decide)

theorem printable_iterationBody (t : DemTask) (i : UInt32) : Printable (iterationBody t i) := by
  refine printable_of_no_cr (not_mem_iterationText (by decide) (by decide)) ?_
  have hspeed : (decimal t.speed).length ≤ 3 := by cases t <;> decide
  have hname : t.name.bytes.length ≤ 1 := by cases t <;> decide
  have hnum := signedDecimal_length_le i
  have h1 : (ascii "Task ").length = 5 := by decide
  have h2 : (ascii " Speed ").length = 7 := by decide
  have h3 : (ascii " Iteration ").length = 11 := by decide
  simp only [iterationBody, iterationText, List.length_append, h1, h2, h3]
  omega

theorem plainName_demTask (t : DemTask) : PlainName t.name := by
  cases t <;> constructor <;> decide

theorem demTask_name_injective : Function.Injective DemTask.name := by
  intro t u h
  cases t <;> cases u <;> first | rfl | exact absurd h (by decide)

theorem printsPlain_of_none {log : State DemTask} {l : Logging.Label DemTask}
    (hl : l.body = none) : PrintsPlain log l := by
  intro b hb
  rw [hl] at hb
  exact absurd hb (by simp)

/-- Every step of the program is a step of the logging system that prints a plain body, or none. -/
theorem refines_logging (h : demSystem.Reachable s) :
    (loggingSystem DemTask.name).ReachableBy PrintsPlain s.log := by
  refine h.refine (N := loggingSystem DemTask.name) (f := DemState.log)
    (fun s (hs : _ ∧ _ ∧ _) => hs.2.2) (fun s l s' _ _ (hs : demStep s l = some s') => ?_)
  cases l with
  | main =>
    simp only [demStep] at hs
    split at hs
    · obtain ⟨log, hlog, rfl⟩ := Option.map_eq_some_iff.mp hs
      exact .inr ⟨.early schedulerBody, printsPlain_of_body rfl printable_schedulerBody, hlog⟩
    · obtain ⟨log, hlog, rfl⟩ := Option.map_eq_some_iff.mp hs
      exact .inr ⟨.start, printsPlain_of_none rfl, hlog⟩
    · exact absurd hs (by simp)
  | task t =>
    cases taskStep_cases hs with
    | enter _ hlog =>
      exact .inr ⟨.task t (.call _), printsPlain_of_body rfl (printable_loopBody t), hlog⟩
    | print _ hlog =>
      exact .inr ⟨.task t (.call _), printsPlain_of_body rfl (printable_iterationBody t _), hlog⟩
    | _ => exact .inl rfl
  | kernel l =>
    obtain ⟨hl, hs⟩ := Option.ite_none_right_eq_some.mp hs
    obtain ⟨log, hlog, rfl⟩ := Option.map_eq_some_iff.mp hs
    simp only [inner, Bool.and_eq_true, Option.isNone_iff_eq_none] at hl
    exact .inr ⟨l, printsPlain_of_none hl.1, hlog⟩

end Steps

/-- Whatever part of the output a reader has seen, the lines under the name of a task are its
start line and its iterations from 0 on, with none missing, none twice and none out of order;
the complete output lacks only the line of a call in flight. -/
theorem iterations_consecutive {s : DemState} (h : demSystem.Reachable s) (t : DemTask) :
    (∀ text, text <+: s.log.kernel.hist.accepted →
      ∃ k, journalOf t.name text = (List.range k).map fun i => (bodyAt t i).bytes) ∧
    ∃ n, (s.tasks t).HasCalled n ∧
      journalOf t.name s.log.kernel.hist.accepted ++ (s.log.pc t).inFlight.map CString.bytes =
        (List.range n).map fun i => (bodyAt t i).bytes := by
  have hall := journalOf_accepted plainName_demTask demTask_name_injective (refines_logging h) t
  obtain ⟨n, hn, hc⟩ := reachable_inProgramOrder h t
  rw [hc, List.map_map] at hall
  refine ⟨fun text ht => ?_, n, hn, hall⟩
  have hpre := journalOf_isPrefix plainName_demTask demTask_name_injective (refines_logging h) t ht
  rw [hc, List.map_map] at hpre
  exact ⟨_, eq_map_range_of_prefix hpre⟩

def callOf (t : DemTask) : List DemLabel :=
  .task t :: ([.number, .stamp, .take, .check, .send, .give].map fun a => .kernel (.task t a)) ++
    [.task t]

/-- Task `A` prints its start line and its first iteration while `B` is inside its first call. -/
def firstLines : List DemLabel :=
  [.main, .main, .task .B] ++ callOf .A ++ [.kernel (.task .B .number)] ++ callOf .A

theorem iterations_consecutive_firstLines :
    ∃ s, demSystem.exec ⟨.printing, fun _ => ⟨.entry, 0⟩, vSetupLoggingTask (List.replicate 10 0)⟩
        firstLines = some s ∧
      ∃ n, (s.tasks .A).HasCalled n ∧
        journalOf DemTask.A.name s.log.kernel.hist.accepted ++
            (s.log.pc .A).inFlight.map CString.bytes =
          (List.range n).map fun i => (bodyAt .A i).bytes := by
  have hrun : (demSystem.exec ⟨.printing, fun _ => ⟨.entry, 0⟩,
      vSetupLoggingTask (List.replicate 10 0)⟩ firstLines).isSome = true := by decide +kernel
  obtain ⟨s, hs⟩ := Option.isSome_iff_exists.mp hrun
  have hinit : demSystem.Reachable
      ⟨.printing, fun _ => ⟨.entry, 0⟩, vSetupLoggingTask (List.replicate 10 0)⟩ :=
    .init ⟨rfl, fun _ => rfl, _, rfl, rfl⟩
  exact ⟨s, hs, (iterations_consecutive (hinit.exec hs) .A).2⟩

end Stm32f7Renode.LogTest
