import Mathlib.Data.Nat.Find
import Stm32f7Renode.Library.TransitionSystem

namespace Stm32f7Renode.BootstrapHandler

inductive RequestType
  | create
  | update
  | delete
deriving DecidableEq, Repr

/-- The event, as far as the handler reads it. -/
structure Event where
  requestType : RequestType
  environmentId : String
  labIdeInstanceProfileArn : String
  labIdeInstanceProfileName : String

/-- The name that Cloud9 gives the instance of the environment. -/
def Event.ideName (e : Event) : String := "aws-cloud9-MyAppEnvironment-" ++ e.environmentId

structure Instance where
  instanceId : String
  state : String
deriving DecidableEq, Repr

inductive Ec2Call
  | describeByName (name : String)
  | describeById (instanceId : String)
  | associateIamInstanceProfile (arn name instanceId : String)
deriving DecidableEq, Repr

def Ec2Call.isAssociate : Ec2Call → Bool
  | .associateIamInstanceProfile .. => true
  | _ => false

/-- `describe_instances` returns the instance, or raises with a traceback. -/
abbrev Reply := Except String Instance

def Reply.running : Reply → Bool
  | .ok i => i.state = "running"
  | .error _ => false

def Reply.raised : Reply → Bool
  | .ok _ => false
  | .error _ => true

/-- What EC2 answers to the successive `describe_instances` and to
`associate_iam_instance_profile`: any number of other states before `running` or an exception. -/
structure History where
  describe : ℕ → Reply
  associate : Except String Unit
  settles : ∃ n, (describe n).running ∨ (describe n).raised

inductive Status
  | success
  | failed
deriving DecidableEq, Repr

structure Response where
  status : Status
  responseData : String × String
  physicalResourceId : String
deriving DecidableEq, Repr

/-- The value of `instance_state`: a string, or the object that `describe_instances` returned. -/
inductive InstanceState
  | str (name : String)
  | object (reply : Instance)

def InstanceState.isRunning : InstanceState → Bool
  | .str name => name = "running"
  | .object _ => false

inductive Pc
  | start
  /-- At the test of the wait loop. -/
  | test (inst : Instance) (instanceState : InstanceState)
  | poll (inst : Instance)
  | associate (inst : Instance)
  | done

structure State where
  pc : Pc
  described : ℕ
  calls : List (Ec2Call × Bool)
  responses : List Response

def State.called (s : State) (call : Ec2Call) (returned : Bool) : State :=
  { s with calls := s.calls ++ [(call, returned)] }

def State.send (s : State) (status : Status) (responseData : String × String) : State :=
  { s with
    responses := s.responses ++ [⟨status, responseData, "CustomResourcePhysicalID"⟩]
    pc := .done }

def State.except (s : State) (traceback : String) : State := s.send .failed ("Error", traceback)

def step (h : History) (e : Event) (s : State) : Option State :=
  match s.pc with
  | .start =>
    let call := Ec2Call.describeByName e.ideName
    let t := { s with described := s.described + 1 }
    match h.describe s.described with
    | .error traceback => some ((t.called call false).except traceback)
    | .ok inst =>
      match e.requestType with
      | .create => some { t.called call true with pc := .test inst (.str inst.state) }
      | .update =>
        some ((t.called call true).send .success
          ("Success", "Started update for instance: " ++ inst.instanceId))
      | .delete =>
        some ((t.called call true).send .success
          ("Success", "Started deletion for instance: " ++ inst.instanceId))
  | .test inst instanceState =>
    some { s with pc := if instanceState.isRunning then .associate inst else .poll inst }
  | .poll inst =>
    let call := Ec2Call.describeById inst.instanceId
    let t := { s with described := s.described + 1 }
    match h.describe s.described with
    | .error traceback => some ((t.called call false).except traceback)
    | .ok reply => some { t.called call true with pc := .test inst (.object reply) }
  | .associate inst =>
    let call := Ec2Call.associateIamInstanceProfile e.labIdeInstanceProfileArn
      e.labIdeInstanceProfileName inst.instanceId
    match h.associate with
    | .error traceback => some ((s.called call false).except traceback)
    | .ok _ =>
      some ((s.called call true).send .success
        ("Success", "Started bootstrapping for instance: " ++ inst.instanceId))
  | .done => none

def start : State := { pc := .start, described := 0, calls := [], responses := [] }

def lambdaHandler (h : History) (e : Event) : TransitionSystem State Unit where
  init s := s = start
  step s _ := step h e s

/-- The first reply that is `running` or an exception. -/
def History.firstSettled (h : History) : ℕ := Nat.find h.settles

/-- The handler has returned after one response, has waited for the first settled reply and no
longer, and has associated the profile at most once, with a running instance. -/
structure Answered (h : History) (e : Event) (s : State) : Prop where
  returned : s.pc = .done
  once : s.responses.length = 1
  waits : e.requestType = .create → s.described = h.firstSettled + 1
  associates : (s.calls.filter (·.1.isAssociate)).length ≤ 1
  associates_running : (∃ c ∈ s.calls, c.1.isAssociate = true) →
    (h.describe (s.described - 1)).running = true
  success_iff : (∀ r ∈ s.responses, r.status = .success) ↔ ∀ c ∈ s.calls, c.2 = true

variable {h : History} {e : Event} {s : State}

theorem Reply.exists_error {r : Reply} (hr : r.raised = true) :
    ∃ traceback, r = .error traceback := by
  cases r with
  | ok _ => cases hr
  | error traceback => exact ⟨traceback, rfl⟩

theorem Reply.exists_ok {r : Reply} (hr : ¬ r.raised = true) : ∃ inst, r = .ok inst := by
  cases r with
  | ok inst => exact ⟨inst, rfl⟩
  | error _ => exact absurd rfl hr

theorem firstSettled_spec (h : History) :
    (h.describe h.firstSettled).running = true ∨ (h.describe h.firstSettled).raised = true :=
  Nat.find_spec h.settles

theorem not_settled_of_lt {n : ℕ} (hn : n < h.firstSettled) :
    ¬ (h.describe n).running = true ∧ ¬ (h.describe n).raised = true :=
  not_or.mp (Nat.find_min h.settles hn)

theorem firstSettled_eq_zero (h0 : (h.describe 0).running = true ∨ (h.describe 0).raised = true) :
    h.firstSettled = 0 :=
  (Nat.find_eq_zero h.settles).mpr h0

theorem step_start_error {traceback : String} (hd : h.describe 0 = .error traceback) :
    step h e start = some
      (({ start with described := 1 }.called (.describeByName e.ideName) false).except
        traceback) := by
  unfold step
  simp only [start, hd]

theorem step_start_create {inst : Instance} (hd : h.describe 0 = .ok inst)
    (he : e.requestType = .create) :
    step h e start = some { start with
      pc := .test inst (.str inst.state)
      described := 1
      calls := start.calls ++ [(.describeByName e.ideName, true)] } := by
  unfold step
  simp only [start, hd, he]
  rfl

theorem step_start_other {inst : Instance} (hd : h.describe 0 = .ok inst)
    (he : e.requestType ≠ .create) :
    ∃ text, step h e start = some
      (({ start with described := 1 }.called (.describeByName e.ideName) true).send .success
        ("Success", text)) := by
  unfold step
  simp only [start, hd]
  cases hr : e.requestType with
  | create => exact absurd hr he
  | update => exact ⟨_, rfl⟩
  | delete => exact ⟨_, rfl⟩

theorem step_test {inst : Instance} {instanceState : InstanceState}
    (hpc : s.pc = .test inst instanceState) :
    step h e s =
      some { s with pc := if instanceState.isRunning then .associate inst else .poll inst } := by
  unfold step
  rw [hpc]

theorem step_poll_error {inst : Instance} {traceback : String} (hpc : s.pc = .poll inst)
    (hd : h.describe s.described = .error traceback) :
    step h e s = some
      (({ s with described := s.described + 1 }.called (.describeById inst.instanceId)
        false).except traceback) := by
  unfold step
  simp only [hpc, hd]

theorem step_poll_ok {inst reply : Instance} (hpc : s.pc = .poll inst)
    (hd : h.describe s.described = .ok reply) :
    step h e s = some { s with
      pc := .test inst (.object reply)
      described := s.described + 1
      calls := s.calls ++ [(.describeById inst.instanceId, true)] } := by
  unfold step
  simp only [hpc, hd]
  rfl

theorem step_associate_error {inst : Instance} {traceback : String} (hpc : s.pc = .associate inst)
    (ha : h.associate = .error traceback) :
    step h e s = some ((s.called (.associateIamInstanceProfile e.labIdeInstanceProfileArn
      e.labIdeInstanceProfileName inst.instanceId) false).except traceback) := by
  unfold step
  simp only [hpc, ha]

theorem step_associate_ok {inst : Instance} {u : Unit} (hpc : s.pc = .associate inst)
    (ha : h.associate = .ok u) :
    step h e s = some ((s.called (.associateIamInstanceProfile e.labIdeInstanceProfileArn
      e.labIdeInstanceProfileName inst.instanceId) true).send .success
        ("Success", "Started bootstrapping for instance: " ++ inst.instanceId)) := by
  unfold step
  simp only [hpc, ha]

/-- Every call so far has returned, none associated the profile, and no response is out. -/
structure InProgress (s : State) : Prop where
  responses : s.responses = []
  calls : ∀ c ∈ s.calls, c.1.isAssociate = false ∧ c.2 = true

theorem InProgress.answered (hs : InProgress s) {call : Ec2Call} {returned : Bool} {status : Status}
    (hw : e.requestType = .create → s.described = h.firstSettled + 1)
    (hcall : call.isAssociate = true → (h.describe (s.described - 1)).running = true)
    (hst : status = .success ↔ returned = true) (responseData : String × String) :
    Answered h e ((s.called call returned).send status responseData) where
  returned := rfl
  once := by simp [State.send, State.called, hs.responses]
  waits := hw
  associates := by
    have hnone : s.calls.filter (·.1.isAssociate) = [] :=
      List.filter_eq_nil_iff.mpr fun c hc => by simp [(hs.calls c hc).1]
    simp only [State.send, State.called, List.filter_append, hnone, List.nil_append]
    exact List.length_filter_le _ [(call, returned)]
  associates_running := by
    rintro ⟨c, hc, ha⟩
    rcases List.mem_append.mp hc with hc | hc
    · simp [(hs.calls c hc).1] at ha
    · obtain rfl := List.mem_singleton.mp hc
      exact hcall ha
  success_iff := by
    have hall : ∀ c ∈ s.calls, c.2 = true := fun c hc => (hs.calls c hc).2
    simp only [State.send, State.called, hs.responses, List.nil_append, List.forall_mem_singleton,
      List.forall_mem_append, hst]
    exact ⟨fun hr => ⟨hall, hr⟩, fun hr => hr.2⟩

theorem InProgress.described (hs : InProgress s) (n : ℕ) :
    InProgress { s with described := n } :=
  ⟨hs.responses, hs.calls⟩

theorem InProgress.called (hs : InProgress s) {call : Ec2Call} (hcall : call.isAssociate = false)
    (n : ℕ) (pc : Pc) :
    InProgress { s with pc, described := n, calls := s.calls ++ [(call, true)] } where
  responses := hs.responses
  calls := by
    simp only [List.forall_mem_append, List.forall_mem_singleton]
    exact ⟨hs.calls, hcall, trivial⟩

theorem inevitable_test {inst : Instance} {instanceState : InstanceState}
    (hpc : s.pc = .test inst instanceState)
    (hnext : (lambdaHandler h e).Inevitable (Answered h e)
      { s with pc := if instanceState.isRunning then .associate inst else .poll inst }) :
    (lambdaHandler h e).Inevitable (Answered h e) s :=
  .of_step (fun _ => step_test hpc) hnext

theorem inevitable_poll {inst : Instance} (hraised : (h.describe h.firstSettled).raised = true)
    (hs : InProgress s) (hpc : s.pc = .poll inst) (hle : s.described ≤ h.firstSettled) :
    (lambdaHandler h e).Inevitable (Answered h e) s := by
  -- on the replies still to come before the first settled one
  induction hn : h.firstSettled - s.described generalizing s with
  | zero =>
    have heq : s.described = h.firstSettled := by omega
    obtain ⟨traceback, hd⟩ := Reply.exists_error hraised
    apply TransitionSystem.Inevitable.of_step (fun _ => step_poll_error hpc (heq ▸ hd))
    apply TransitionSystem.Inevitable.here
    have hw : s.described + 1 = h.firstSettled + 1 := by rw [heq]
    exact (hs.described _).answered (fun _ => hw) (by simp [Ec2Call.isAssociate]) (by simp) _
  | succ n ih =>
    -- neither running nor an exception: once more around the loop
    have hlt : s.described < h.firstSettled := by omega
    obtain ⟨reply, hd⟩ := Reply.exists_ok (not_settled_of_lt hlt).2
    apply TransitionSystem.Inevitable.of_step (fun _ => step_poll_ok hpc hd)
    refine inevitable_test rfl ?_
    refine ih (hs.called rfl _ _) rfl ?_ ?_
    · exact hlt
    · show h.firstSettled - (s.described + 1) = n
      omega

theorem inevitable_associate {inst : Instance} (hs : InProgress s) (hpc : s.pc = .associate inst)
    (hd : s.described = h.firstSettled + 1)
    (hrunning : (h.describe h.firstSettled).running = true) :
    (lambdaHandler h e).Inevitable (Answered h e) s := by
  have hlast : (h.describe (s.described - 1)).running = true := by rwa [hd, Nat.add_sub_cancel]
  cases ha : h.associate with
  | error traceback =>
    apply TransitionSystem.Inevitable.of_step (fun _ => step_associate_error hpc ha)
    apply TransitionSystem.Inevitable.here
    exact hs.answered (fun _ => hd) (fun _ => hlast) (by simp) _
  | ok _ =>
    apply TransitionSystem.Inevitable.of_step (fun _ => step_associate_ok hpc ha)
    apply TransitionSystem.Inevitable.here
    exact hs.answered (fun _ => hd) (fun _ => hlast) (by simp) _

theorem start_inProgress : InProgress start := ⟨rfl, by simp [start]⟩

theorem inevitable_start (hd : e.requestType ≠ .create ∨ (h.describe 0).raised = true) :
    (lambdaHandler h e).Inevitable (Answered h e) start := by
  have hs : InProgress { start with described := 1 } := start_inProgress.described 1
  by_cases hr : (h.describe 0).raised = true
  · have hzero : h.firstSettled = 0 := firstSettled_eq_zero (.inr hr)
    obtain ⟨traceback, hd⟩ := Reply.exists_error hr
    refine .of_step (fun _ => step_start_error hd) (.here ?_)
    exact hs.answered (fun _ => by rw [hzero]) (by simp [Ec2Call.isAssociate]) (by simp) _
  · have he := hd.resolve_right hr
    obtain ⟨inst, hd⟩ := Reply.exists_ok hr
    obtain ⟨text, hstep⟩ := step_start_other hd he
    refine .of_step (fun _ => hstep) (.here ?_)
    exact hs.answered (fun hc => absurd hc he) (by simp [Ec2Call.isAssociate]) (by simp) _

theorem inevitable_create {inst : Instance} (hd : h.describe 0 = .ok inst)
    (he : e.requestType = .create)
    (hcond : h.firstSettled = 0 ∨ (h.describe h.firstSettled).raised = true) :
    (lambdaHandler h e).Inevitable (Answered h e) start := by
  refine .of_step (fun _ => step_start_create hd he) (inevitable_test rfl ?_)
  have hs : ∀ pc, InProgress { start with
      pc, described := 1, calls := start.calls ++ [(.describeByName e.ideName, true)] } :=
    start_inProgress.called rfl 1
  by_cases hrunning : inst.state = "running"
  · have hnow : (h.describe 0).running = true := by simpa [hd, Reply.running] using hrunning
    have hzero : h.firstSettled = 0 := firstSettled_eq_zero (.inl hnow)
    have hstate : (InstanceState.str inst.state).isRunning = true := decide_eq_true hrunning
    exact inevitable_associate (hs _) (if_pos hstate) (by rw [hzero]) (by rwa [hzero])
  · have hpos : h.firstSettled ≠ 0 := by
      intro hzero
      have hspec := firstSettled_spec h
      simp [hzero, hd, Reply.running, Reply.raised, hrunning] at hspec
    have hstate : ¬ (InstanceState.str inst.state).isRunning = true := by
      simpa only [InstanceState.isRunning, decide_eq_true_eq] using hrunning
    apply inevitable_poll (hcond.resolve_left hpos) (hs _) (if_neg hstate)
    exact Nat.one_le_iff_ne_zero.mpr hpos

/-- The handler is still waiting, or has given up after other than the first settled reply. -/
def Astray (h : History) (s : State) : Prop :=
  match s.pc with
  | .start => s.described = 0
  | .test _ instanceState => instanceState.isRunning = false
  | .poll _ => True
  | .associate _ => False
  | .done => s.described ≠ h.firstSettled + 1

theorem Astray.step {t : State} (hs : Astray h s) (he : e.requestType = .create)
    (hpos : 0 < h.firstSettled) (hrunning : (h.describe h.firstSettled).running = true)
    (ht : step h e s = some t) : Astray h t := by
  unfold Astray at hs
  unfold BootstrapHandler.step at ht
  cases hpc : s.pc with
  | start =>
    simp only [hpc] at hs ht
    obtain ⟨hnot, hnr⟩ := not_settled_of_lt hpos
    obtain ⟨inst, hd⟩ := Reply.exists_ok hnr
    simp only [hs, hd, he, Option.some.injEq] at ht
    subst ht
    simpa [Astray, InstanceState.isRunning, hd, Reply.running] using hnot
  | test inst instanceState =>
    simp only [hpc] at hs ht
    simp only [hs, Option.some.injEq] at ht
    subst ht
    trivial
  | poll inst =>
    simp only [hpc] at ht
    cases hd : h.describe s.described with
    | error traceback =>
      simp only [hd, Option.some.injEq] at ht
      subst ht
      -- the settled reply is no exception, so this is another one
      intro heq
      have heq : s.described = h.firstSettled := Nat.succ.inj heq
      rw [heq] at hd
      rw [hd] at hrunning
      cases hrunning
    | ok reply =>
      simp only [hd, Option.some.injEq] at ht
      subst ht
      rfl
  | associate inst =>
    rw [hpc] at hs
    exact hs.elim
  | done =>
    rw [hpc] at ht
    cases ht

/-- An instance that starts running while the handler waits is missed. -/
theorem not_inevitable_of_running (he : e.requestType = .create) (hpos : 0 < h.firstSettled)
    (hrunning : (h.describe h.firstSettled).running = true) :
    ¬ (lambdaHandler h e).Inevitable (Answered h e) start := by
  -- whenever it comes to an end, it has described the instance too often
  apply TransitionSystem.not_inevitable (I := Astray h)
  · intro s hs ha
    unfold Astray at hs
    rw [ha.returned] at hs
    exact hs (ha.waits he)
  · intro s _ t hs ht
    exact hs.step he hpos hrunning ht
  · rfl

/-- Every request is answered once and as intended, except a creation whose first settled reply is
a later `running`. -/
theorem lambdaHandler_answers_iff (h : History) (e : Event) :
    (lambdaHandler h e).Inevitable (Answered h e) start ↔
      e.requestType ≠ .create ∨ h.firstSettled = 0 ∨
        (h.describe h.firstSettled).raised = true := by
  constructor
  · intro hans
    by_contra hcond
    obtain ⟨he, hpos, hnr⟩ := by simpa only [not_or, not_not] using hcond
    have hrunning := (firstSettled_spec h).resolve_right hnr
    exact not_inevitable_of_running he (Nat.pos_of_ne_zero hpos) hrunning hans
  · intro hcond
    by_cases hr : e.requestType ≠ .create ∨ (h.describe 0).raised = true
    · exact inevitable_start hr
    · obtain ⟨he, hnr⟩ := not_or.mp hr
      obtain ⟨inst, hd⟩ := Reply.exists_ok hnr
      exact inevitable_create hd (not_not.mp he) (hcond.resolve_left he)

/-- The instance is pending at the first look-up and running from then on. -/
def startsLate : History where
  describe n := .ok ⟨"i-0123456789abcdef0", if n = 0 then "pending" else "running"⟩
  associate := .ok ()
  settles := ⟨1, .inl rfl⟩

def createRequest : Event where
  requestType := .create
  environmentId := "e1"
  labIdeInstanceProfileArn := "arn:aws:iam::123456789012:instance-profile/ide"
  labIdeInstanceProfileName := "ide"

theorem startsLate_never_answered :
    ¬ ∀ (h : History) (e : Event), (lambdaHandler h e).Inevitable (Answered h e) start := by
  intro hall
  have hone : startsLate.firstSettled = 1 := (Nat.find_eq_iff _).mpr ⟨.inl rfl, by decide⟩
  refine not_inevitable_of_running rfl ?_ ?_ (hall startsLate createRequest)
  · rw [hone]
    exact Nat.one_pos
  · rw [hone]
    rfl

end Stm32f7Renode.BootstrapHandler
