import Mathlib.Data.List.Basic
import Stm32f7Renode.Library.TransitionSystem

/-!
The two tasks of `app-task-blinky.c` and their queue under a strictly preemptive
scheduler with fixed priorities. The sender ignores the result of `xQueueSend`;
that no value is lost follows from the priorities and the blocking receive.
-/

namespace Stm32f7Renode.Blinky

section Schedule

variable {τ : Type*} {prio : τ → ℕ} {ready : List τ} {t u : τ}

/-- The scheduler may let `t` run: it is ready and no ready task has a higher priority. -/
def Dispatchable (prio : τ → ℕ) (ready : List τ) (t : τ) : Prop :=
  t ∈ ready ∧ ∀ u ∈ ready, prio u ≤ prio t

instance [DecidableEq τ] : Decidable (Dispatchable prio ready t) :=
  inferInstanceAs (Decidable (_ ∧ _))

theorem Dispatchable.not_ready (h : Dispatchable prio ready t) (hlt : prio t < prio u) :
    u ∉ ready := by
  intro hu
  have hle := h.2 u hu
  omega

end Schedule

def tskIdlePriority : ℕ := 0

def mainQueueReceiveTaskPriority : ℕ := tskIdlePriority + 2

def mainQueueSendTaskPriority : ℕ := tskIdlePriority + 1

/-- `200 / portTICK_PERIOD_MS`, with a tick of one millisecond. -/
def mainQueueSendFrequencyMs : UInt32 := 200 / 1

def mainQueueLength : ℕ := 1

/-- `O` are the tasks that do not touch the queue. -/
inductive Task (O : Type*)
  | receiver
  | sender
  | other (o : O)
deriving DecidableEq

inductive ReceiverPc
  | receive
  | blocked
  | act
deriving DecidableEq, Repr

inductive SenderPc
  | init
  | delayUntil
  | delayed (xTicksToWait : ℕ)
  | send
deriving DecidableEq, Repr

/-- `sends`, `failedSends` and `toggles` count what the two tasks have done so far. -/
structure State (O : Type*) where
  xQueue : List UInt32
  receiver : ReceiverPc
  ulReceivedValue : UInt32
  sender : SenderPc
  xNextWakeTime : UInt32
  tickCount : UInt32
  others : List O
  sends : ℕ
  failedSends : ℕ
  toggles : ℕ
deriving DecidableEq

variable {O : Type*}

def priority (prio : O → ℕ) : Task O → ℕ
  | .receiver => mainQueueReceiveTaskPriority
  | .sender => mainQueueSendTaskPriority
  | .other o => prio o

def State.ready (s : State O) : List (Task O) :=
  (if s.receiver = .blocked then [] else [.receiver]) ++
    (match s.sender with
      | .delayed _ => []
      | _ => [.sender]) ++
    s.others.map .other

def ulValueToSend : UInt32 := 100

def ulExpectedValue : UInt32 := 100

/-- `xQueueSend` with block time 0: `none` is `errQUEUE_FULL`. -/
def xQueueSend (queue : List UInt32) (value : UInt32) : Option (List UInt32) :=
  if queue.length < mainQueueLength then some (queue ++ [value]) else none

/-- What is left of the period at the current tick, as `vTaskDelayUntil` finds it: the tick count
may have wrapped, and a wake time that has passed means no delay. -/
def ticksToWait (tickCount previousWakeTime timeIncrement : UInt32) : ℕ :=
  timeIncrement.toNat - (tickCount - previousWakeTime).toNat

def receiverStep (s : State O) : Option (State O) :=
  match s.receiver with
  | .receive =>
    match s.xQueue with
    | [] => some { s with receiver := .blocked }
    | value :: queue =>
      some { s with ulReceivedValue := value, xQueue := queue, receiver := .act }
  | .blocked => none
  | .act =>
    if s.ulReceivedValue = ulExpectedValue then
      some { s with toggles := s.toggles + 1, ulReceivedValue := 0, receiver := .receive }
    else some { s with receiver := .receive }

/-- The next statement of `prvQueueSendTask`. A value for the blocked receiver makes it ready. -/
def senderStep (s : State O) : Option (State O) :=
  match s.sender with
  | .init => some { s with xNextWakeTime := s.tickCount, sender := .delayUntil }
  | .delayUntil =>
    let xTicksToWait := ticksToWait s.tickCount s.xNextWakeTime mainQueueSendFrequencyMs
    some { s with
      xNextWakeTime := s.xNextWakeTime + mainQueueSendFrequencyMs
      sender := if xTicksToWait = 0 then .send else .delayed xTicksToWait }
  | .delayed _ => none
  | .send =>
    match xQueueSend s.xQueue ulValueToSend with
    | some queue =>
      some { s with
        xQueue := queue
        receiver := if s.receiver = .blocked then .receive else s.receiver
        sends := s.sends + 1
        sender := .delayUntil }
    | none =>
      some { s with
        sends := s.sends + 1
        failedSends := s.failedSends + 1
        sender := .delayUntil }

inductive Label (O : Type*)
  | receiver
  | sender
  | other (o : O) (ready : List O)
  | interrupt (ready : List O)
  | tick (ready : List O)
deriving DecidableEq

/-- A task takes a step only when the scheduler lets it run; interrupts come at any moment. -/
def step [DecidableEq O] (prio : O → ℕ) (s : State O) : Label O → Option (State O)
  | .receiver => if Dispatchable (priority prio) s.ready .receiver then receiverStep s else none
  | .sender => if Dispatchable (priority prio) s.ready .sender then senderStep s else none
  | .other o ready =>
    if Dispatchable (priority prio) s.ready (.other o) then some { s with others := ready }
    else none
  | .interrupt ready => some { s with others := ready }
  | .tick ready =>
    some { s with
      tickCount := s.tickCount + 1
      others := ready
      sender :=
        match s.sender with
        | .delayed xTicksToWait =>
          if xTicksToWait ≤ 1 then .send else .delayed (xTicksToWait - 1)
        | pc => pc }

def vSetupBlinkyTask (tickCount : UInt32) (others : List O) (ulReceivedValue : UInt32) : State O :=
  { xQueue := [], receiver := .receive, ulReceivedValue, sender := .init, xNextWakeTime := 0,
    tickCount, others, sends := 0, failedSends := 0, toggles := 0 }

def blinkySystem [DecidableEq O] (prio : O → ℕ) : TransitionSystem (State O) (Label O) where
  init s := ∃ tickCount others ulReceivedValue,
    s = vSetupBlinkyTask tickCount others ulReceivedValue
  step := step prio

variable {prio : O → ℕ} {s t : State O} {l : Label O}

theorem receiver_mem_ready : .receiver ∈ s.ready ↔ s.receiver ≠ .blocked := by
  unfold State.ready
  cases s.sender <;> by_cases hr : s.receiver = .blocked <;> simp [hr]

theorem receiver_blocked_of_dispatchable (h : Dispatchable (priority prio) s.ready .sender) :
    s.receiver = .blocked := by
  have hlt : mainQueueSendTaskPriority < mainQueueReceiveTaskPriority := by decide
  have hnot : .receiver ∉ s.ready := h.not_ready hlt
  rw [receiver_mem_ready] at hnot
  exact not_not.mp hnot

structure State.Frame (s t : State O) : Prop where
  xQueue : t.xQueue = s.xQueue
  receiver : t.receiver = s.receiver
  ulReceivedValue : t.ulReceivedValue = s.ulReceivedValue
  sends : t.sends = s.sends
  failedSends : t.failedSends = s.failedSends
  toggles : t.toggles = s.toggles

theorem step_cases [DecidableEq O] (h : step prio s l = some t) :
    receiverStep s = some t ∨ (s.receiver = .blocked ∧ senderStep s = some t) ∨ s.Frame t := by
  cases l with
  | receiver =>
    obtain ⟨-, h⟩ := Option.ite_none_right_eq_some.mp h
    exact .inl h
  | sender =>
    obtain ⟨hd, h⟩ := Option.ite_none_right_eq_some.mp h
    exact .inr (.inl ⟨receiver_blocked_of_dispatchable hd, h⟩)
  | other o ready =>
    obtain ⟨-, h⟩ := Option.ite_none_right_eq_some.mp h
    obtain rfl := Option.some.inj h
    exact .inr (.inr ⟨rfl, rfl, rfl, rfl, rfl, rfl⟩)
  | interrupt ready =>
    obtain rfl := Option.some.inj h
    exact .inr (.inr ⟨rfl, rfl, rfl, rfl, rfl, rfl⟩)
  | tick ready =>
    obtain rfl := Option.some.inj h
    exact .inr (.inr ⟨rfl, rfl, rfl, rfl, rfl, rfl⟩)

/-- The number of values received but not yet acted on. -/
def State.held (s : State O) : ℕ := if s.receiver = .act then 1 else 0

structure State.Valid (s : State O) : Prop where
  blocked : s.receiver = .blocked → s.xQueue = []
  queued : ∀ value ∈ s.xQueue, value = ulExpectedValue
  held : s.receiver = .act → s.ulReceivedValue = ulExpectedValue
  balance : s.toggles + s.held + s.xQueue.length = s.sends
  noFailure : s.failedSends = 0

theorem vSetupBlinkyTask_valid (tickCount : UInt32) (others : List O) (ulReceivedValue : UInt32) :
    (vSetupBlinkyTask tickCount others ulReceivedValue).Valid where
  blocked := by simp [vSetupBlinkyTask]
  queued := by simp [vSetupBlinkyTask]
  held := by simp [vSetupBlinkyTask]
  balance := by simp [vSetupBlinkyTask, State.held]
  noFailure := rfl

theorem State.Valid.frame (hs : s.Valid) (h : s.Frame t) : t.Valid where
  blocked := by simpa only [h.receiver, h.xQueue] using hs.blocked
  queued := by simpa only [h.xQueue] using hs.queued
  held := by simpa only [h.receiver, h.ulReceivedValue] using hs.held
  balance := by
    have hb := hs.balance
    unfold State.held at hb ⊢
    rwa [h.toggles, h.receiver, h.xQueue, h.sends]
  noFailure := h.failedSends.trans hs.noFailure

theorem receiverStep_valid (hs : s.Valid) (h : receiverStep s = some t) : t.Valid := by
  have hb := hs.balance
  unfold receiverStep at h
  unfold State.held at hb
  cases hr : s.receiver with
  | receive =>
    cases hq : s.xQueue with
    | nil =>
      simp only [hr, hq, Option.some.injEq] at h hb
      subst h
      exact ⟨fun _ => rfl, by simp, by simp, by simpa [State.held] using hb, hs.noFailure⟩
    | cons value queue =>
      have hv := hs.queued
      simp only [hr, hq, Option.some.injEq, List.mem_cons, forall_eq_or_imp] at h hb hv
      subst h
      -- the value goes from the queue to the receiver's hands
      refine ⟨by simp, hv.2, fun _ => hv.1, ?_, hs.noFailure⟩
      simp only [State.held, List.length_cons, if_true] at hb ⊢
      simp only [reduceCtorEq, if_false] at hb
      omega
  | blocked =>
    rw [hr] at h
    cases h
  | act =>
    -- the value is the expected one, so the LED toggles
    rw [hr] at h
    simp only [hs.held hr, if_true, Option.some.injEq] at h
    subst h
    refine ⟨by simp, hs.queued, by simp, ?_, hs.noFailure⟩
    simp only [State.held, hr, reduceCtorEq, if_true, if_false] at hb ⊢
    omega

theorem senderStep_send (hs : s.Valid) (hr : s.receiver = .blocked) (hp : s.sender = .send)
    (h : senderStep s = some t) :
    t = { s with
      xQueue := [ulValueToSend], receiver := .receive, sends := s.sends + 1,
      sender := .delayUntil } := by
  have hq := hs.blocked hr
  have hsend : xQueueSend s.xQueue ulValueToSend = some [ulValueToSend] := by
    rw [hq]
    rfl
  unfold senderStep at h
  simp only [hp, hsend, hr, if_true, Option.some.injEq] at h
  exact h.symm

theorem senderStep_valid (hs : s.Valid) (hr : s.receiver = .blocked)
    (h : senderStep s = some t) : t.Valid := by
  by_cases hp : s.sender = .send
  · have hb := hs.balance
    have hq := hs.blocked hr
    rw [senderStep_send hs hr hp h]
    refine ⟨by simp, by simp [ulValueToSend, ulExpectedValue], by simp, ?_, hs.noFailure⟩
    simp only [State.held, hr, hq, List.length_nil, reduceCtorEq, if_false] at hb ⊢
    simp only [List.length_singleton]
    omega
  · -- up to its send the sender touches nothing but its own clock
    have hframe : s.Frame t := by
      unfold senderStep at h
      cases hc : s.sender with
      | send => exact absurd hc hp
      | delayed _ =>
        rw [hc] at h
        cases h
      | init =>
        simp only [hc, Option.some.injEq] at h
        subst h
        exact ⟨rfl, rfl, rfl, rfl, rfl, rfl⟩
      | delayUntil =>
        simp only [hc, Option.some.injEq] at h
        subst h
        exact ⟨rfl, rfl, rfl, rfl, rfl, rfl⟩
    exact hs.frame hframe

theorem step_valid [DecidableEq O] (hs : s.Valid) (h : step prio s l = some t) : t.Valid := by
  rcases step_cases h with h | ⟨hr, h⟩ | h
  · exact receiverStep_valid hs h
  · exact senderStep_valid hs hr h
  · exact hs.frame h

theorem reachable_valid [DecidableEq O] (h : (blinkySystem prio).Reachable s) : s.Valid := by
  apply h.invariant
  · rintro s ⟨tickCount, others, ulReceivedValue, rfl⟩
    exact vSetupBlinkyTask_valid tickCount others ulReceivedValue
  · intro s l t _ hs _ hstep
    exact step_valid hs hstep

/-- The sender finds the queue empty and the receiver waiting, so no send fails, and every value
sent is in the queue, in the receiver's hands or shown by the LED. -/
theorem handOff_never_drops [DecidableEq O] (prio : O → ℕ) {s : State O}
    (h : (blinkySystem prio).Reachable s) :
    (∀ t, s.sender = .send → (blinkySystem prio).step s .sender = some t →
        s.xQueue = [] ∧ s.receiver = .blocked ∧
          t.xQueue = [ulValueToSend] ∧ t.failedSends = s.failedSends) ∧
      s.failedSends = 0 ∧ s.toggles + s.held + s.xQueue.length = s.sends := by
  have hs := reachable_valid h
  refine ⟨fun t hp ht => ?_, hs.noFailure, hs.balance⟩
  obtain ⟨hd, ht⟩ := Option.ite_none_right_eq_some.mp ht
  have hr := receiver_blocked_of_dispatchable hd
  rw [senderStep_send hs hr hp ht]
  exact ⟨hs.blocked hr, hr, rfl, rfl⟩

/-- A task of priority 3 takes the CPU for two periods, so the sender wakes up late and comes to its
second send without waiting in between. -/
def lateWakeup : List (Label Unit) :=
  [.receiver, .sender, .sender] ++ List.replicate 400 (.tick [()]) ++
    [.other () [()], .other () [], .sender, .receiver, .receiver, .receiver, .sender]

theorem handOff_lateWakeup :
    ∃ s t : State Unit,
      (blinkySystem fun _ => 3).exec (vSetupBlinkyTask 0 [] 0) lateWakeup = some s ∧
      s.sender = .send ∧ s.tickCount = 400 ∧ s.sends = 1 ∧ s.toggles = 1 ∧
      (blinkySystem fun _ => 3).exec s [.sender, .receiver, .receiver] = some t ∧
      t.tickCount = 400 ∧ t.sends = 2 ∧ t.toggles = 2 ∧
      (∀ u, s.sender = .send → (blinkySystem fun _ => 3).step s .sender = some u →
        s.xQueue = [] ∧ s.receiver = .blocked ∧
          u.xQueue = [ulValueToSend] ∧ u.failedSends = s.failedSends) ∧
      t.failedSends = 0 ∧ t.toggles + t.held + t.xQueue.length = t.sends := by
  have hinit : (blinkySystem fun _ : Unit => 3).Reachable (vSetupBlinkyTask 0 [] 0) :=
    .init ⟨0, [], 0, rfl⟩
  have hrun : ((blinkySystem fun _ : Unit => 3).exec (vSetupBlinkyTask 0 [] 0) lateWakeup).map
      (fun s => (s.sender, s.tickCount, s.sends, s.toggles)) = some (.send, 400, 1, 1) := by
    decide +kernel
  have hlong : ((blinkySystem fun _ : Unit => 3).exec (vSetupBlinkyTask 0 [] 0)
      (lateWakeup ++ [.sender, .receiver, .receiver])).map
        (fun t => (t.tickCount, t.sends, t.toggles)) = some (400, 2, 2) := by
    decide +kernel
  obtain ⟨s, hs, hreach, hobs⟩ := hinit.exec_map hrun
  simp only [Prod.mk.injEq] at hobs
  obtain ⟨hsender, htick, hsends, htoggles⟩ := hobs
  rw [TransitionSystem.exec_append, hs, Option.bind_some] at hlong
  obtain ⟨t, ht, hreach', hobs⟩ := hreach.exec_map hlong
  simp only [Prod.mk.injEq] at hobs
  obtain ⟨htick', hsends', htoggles'⟩ := hobs
  exact ⟨s, t, hs, hsender, htick, hsends, htoggles, ht, htick', hsends', htoggles',
    (handOff_never_drops _ hreach).1, (handOff_never_drops _ hreach').2⟩

end Stm32f7Renode.Blinky
