import Mathlib.Algebra.Group.Nat.Defs
import Stm32f7Renode.Blinky

namespace Stm32f7Renode.Blinky

variable {O : Type*}

def Label.isTick : Label O → Bool
  | .tick _ => true
  | _ => false

def Label.isSender : Label O → Bool
  | .sender => true
  | _ => false

def senderRuns (ls : List (Label O)) : Bool := ls.any Label.isSender

/-- The ticks since the first statement of the sender. -/
def elapsed (ls : List (Label O)) : ℕ :=
  (ls.dropWhile fun l => !l.isSender).countP Label.isTick

theorem senderRuns_concat (ls : List (Label O)) (l : Label O) :
    senderRuns (ls ++ [l]) = (senderRuns ls || l.isSender) := by
  simp [senderRuns]

theorem dropWhile_isEmpty (ls : List (Label O)) :
    (ls.dropWhile fun l => !l.isSender).isEmpty = !senderRuns ls := by
  induction ls with
  | nil => rfl
  | cons l ls ih =>
    rw [List.dropWhile_cons]
    cases hl : l.isSender with
    | true => simp [senderRuns, hl]
    | false => simpa [senderRuns, hl] using ih

theorem elapsed_concat (ls : List (Label O)) (l : Label O) :
    elapsed (ls ++ [l]) =
      if senderRuns ls then elapsed ls + (if l.isTick then 1 else 0) else 0 := by
  unfold elapsed
  rw [List.dropWhile_append, dropWhile_isEmpty]
  cases hs : senderRuns ls with
  | true => simp [List.countP_append, List.countP_singleton]
  | false => cases l <;> simp [Label.isSender, Label.isTick]

structure SameClock (s t : State O) : Prop where
  sender : t.sender = s.sender
  xNextWakeTime : t.xNextWakeTime = s.xNextWakeTime
  tickCount : t.tickCount = s.tickCount
  sends : t.sends = s.sends

def SenderPc.tick : SenderPc → SenderPc
  | .delayed xTicksToWait => if xTicksToWait ≤ 1 then .send else .delayed (xTicksToWait - 1)
  | pc => pc

theorem receiverStep_sameClock {s t : State O} (h : receiverStep s = some t) : SameClock s t := by
  unfold receiverStep at h
  split at h
  · split at h <;> exact Option.some.inj h ▸ ⟨rfl, rfl, rfl, rfl⟩
  · exact absurd h (by simp)
  · split at h <;> exact Option.some.inj h ▸ ⟨rfl, rfl, rfl, rfl⟩

variable {prio : O → ℕ} {s t : State O} {l : Label O}

theorem clock_cases [DecidableEq O] (h : step prio s l = some t) :
    (l.isTick = true ∧ l.isSender = false ∧ t.sender = s.sender.tick ∧
      t.xNextWakeTime = s.xNextWakeTime ∧ t.tickCount = s.tickCount + 1 ∧ t.sends = s.sends) ∨
    (l.isTick = false ∧ l.isSender = true ∧ senderStep s = some t) ∨
    (l.isTick = false ∧ l.isSender = false ∧ SameClock s t) := by
  cases l with
  | receiver =>
    obtain ⟨-, h⟩ := Option.ite_none_right_eq_some.mp h
    exact .inr (.inr ⟨rfl, rfl, receiverStep_sameClock h⟩)
  | sender =>
    obtain ⟨-, h⟩ := Option.ite_none_right_eq_some.mp h
    exact .inr (.inl ⟨rfl, rfl, h⟩)
  | other o ready =>
    obtain ⟨-, h⟩ := Option.ite_none_right_eq_some.mp h
    exact .inr (.inr ⟨rfl, rfl, Option.some.inj h ▸ ⟨rfl, rfl, rfl, rfl⟩⟩)
  | interrupt ready => exact .inr (.inr ⟨rfl, rfl, Option.some.inj h ▸ ⟨rfl, rfl, rfl, rfl⟩⟩)
  | tick ready =>
    obtain rfl := Option.some.inj h
    refine .inl ⟨rfl, rfl, ?_, rfl, rfl, rfl⟩
    cases s.sender <;> rfl

def period : ℕ := mainQueueSendFrequencyMs.toNat

/-- The calls of `vTaskDelayUntil` so far. -/
def State.periods (s : State O) : ℕ :=
  match s.sender with
  | .delayed _ | .send => s.sends + 1
  | _ => s.sends

/-- After `e` ticks the sender is not ahead of its schedule; asleep it is exactly on it, unless
the tick count has wrapped in the meantime. -/
def State.Due (s : State O) (e : ℕ) : Prop :=
  match s.sender with
  | .init => False
  | .delayUntil | .send => period * s.periods ≤ e
  | .delayed x => 0 < x ∧ x ≤ period ∧ period * s.periods ≤ e + x ∧
      (e < 2 ^ 32 → e + x = period * s.periods)

structure Timed (s : State O) (e : ℕ) : Prop where
  clock : ∃ w : UInt32, s.tickCount = w + UInt32.ofNat e ∧
    s.xNextWakeTime = w + UInt32.ofNat (period * s.periods)
  due : s.Due e

theorem period_eq : period = 200 := by decide

theorem ticks_since (w : UInt32) {f e : ℕ} (hfe : f ≤ e) :
    (w + UInt32.ofNat e - (w + UInt32.ofNat f)).toNat = (e - f) % 2 ^ 32 := by
  have hw := w.toNat_lt
  simp only [UInt32.toNat_sub, UInt32.toNat_add, UInt32.toNat_ofNat']
  omega

theorem ofNat_add_one (w : UInt32) (e : ℕ) : w + UInt32.ofNat e + 1 = w + UInt32.ofNat (e + 1) := by
  rw [UInt32.add_assoc, UInt32.ofNat_add]
  rfl

theorem timed_tick {e : ℕ} (h : Timed s e) (hpc : t.sender = s.sender.tick)
    (hwake : t.xNextWakeTime = s.xNextWakeTime) (htick : t.tickCount = s.tickCount + 1)
    (hsends : t.sends = s.sends) : Timed t (e + 1) := by
  obtain ⟨⟨w, hcount, hnext⟩, hdue⟩ := h
  have hperiods : t.periods = s.periods := by
    unfold State.periods
    rw [hpc, hsends]
    cases s.sender with
    | delayed x => by_cases hx : x ≤ 1 <;> simp [SenderPc.tick, hx]
    | _ => rfl
  refine ⟨⟨w, ?_, by rw [hwake, hperiods, hnext]⟩, ?_⟩
  · rw [htick, hcount]
    exact ofNat_add_one w e
  · unfold State.Due at hdue ⊢
    rw [hpc, hperiods]
    cases hs : s.sender with
    | init => simp [hs] at hdue
    | delayUntil =>
      simp only [hs, SenderPc.tick] at hdue ⊢
      omega
    | send =>
      simp only [hs, SenderPc.tick] at hdue ⊢
      omega
    | delayed x =>
      simp only [hs, SenderPc.tick] at hdue ⊢
      by_cases hx : x ≤ 1
      · simp only [hx, if_true]
        omega
      · simp only [hx, if_false]
        omega

theorem timed_init (hpc : s.sender = .init) (hsends : s.sends = 0) (h : senderStep s = some t) :
    Timed t 0 := by
  unfold senderStep at h
  simp only [hpc, Option.some.injEq] at h
  subst h
  refine ⟨⟨s.tickCount, ?_, ?_⟩, ?_⟩
  · simp
  · simp [State.periods, hsends]
  · simp [State.Due, State.periods, hsends]

theorem timed_delayUntil {e : ℕ} (h : Timed s e) (hpc : s.sender = .delayUntil)
    (hs : senderStep s = some t) : Timed t e := by
  obtain ⟨⟨w, hcount, hnext⟩, hdue⟩ := h
  have hperiods : s.periods = s.sends := by simp only [State.periods, hpc]
  simp only [State.Due, hpc, hperiods] at hdue
  rw [hperiods] at hnext
  -- the sender may be late by more than the tick count can hold, and then waits too long: never
  -- ahead of its schedule, but exactly on it only without a wrap
  have hwait : ticksToWait s.tickCount s.xNextWakeTime mainQueueSendFrequencyMs =
      period - (e - period * s.sends) % 2 ^ 32 := by
    rw [ticksToWait, hcount, hnext, ticks_since w hdue]
    rfl
  have hmod := Nat.mod_le (e - period * s.sends) (2 ^ 32)
  unfold senderStep at hs
  simp only [hpc, hwait, Option.some.injEq] at hs
  subst hs
  have hstep : s.xNextWakeTime + mainQueueSendFrequencyMs =
      w + UInt32.ofNat (period * (s.sends + 1)) := by
    rw [hnext, UInt32.add_assoc, Nat.mul_succ, UInt32.ofNat_add]
    rfl
  have hsucc : period * (s.sends + 1) = period * s.sends + period := Nat.mul_succ _ _
  by_cases hzero : period - (e - period * s.sends) % 2 ^ 32 = 0
  · refine ⟨⟨w, hcount, ?_⟩, ?_⟩
    · simpa only [hzero, if_true, State.periods] using hstep
    · simp only [State.Due, State.periods, hzero, if_true]
      omega
  · refine ⟨⟨w, hcount, ?_⟩, ?_⟩
    · simpa only [hzero, if_false, State.periods] using hstep
    · simp only [State.Due, State.periods, hzero, if_false]
      omega

theorem timed_send {e : ℕ} (h : Timed s e) (hpc : s.sender = .send) (hs : senderStep s = some t) :
    Timed t e := by
  have hperiods : s.periods = s.sends + 1 := by simp only [State.periods, hpc]
  have hdue := h.due
  simp only [State.Due, hpc] at hdue
  -- whether the queue takes the value makes no difference to the clock
  have ht : t.sender = .delayUntil ∧ t.xNextWakeTime = s.xNextWakeTime ∧
      t.tickCount = s.tickCount ∧ t.sends = s.sends + 1 := by
    unfold senderStep at hs
    simp only [hpc] at hs
    split at hs <;> exact Option.some.inj hs ▸ ⟨rfl, rfl, rfl, rfl⟩
  obtain ⟨hsender, hnext, hcount, hsends⟩ := ht
  have hperiods' : t.periods = s.periods := by
    simp only [State.periods, hsender, hpc, hsends]
  refine ⟨?_, ?_⟩
  · rw [hcount, hnext, hperiods']
    exact h.clock
  · simp only [State.Due, hsender, hperiods']
    exact hdue

theorem timed_sender {e : ℕ} (h : Timed s e) (hs : senderStep s = some t) : Timed t e := by
  cases hpc : s.sender with
  | init =>
    have hdue := h.due
    simp only [State.Due, hpc] at hdue
  | delayUntil => exact timed_delayUntil h hpc hs
  | delayed x =>
    unfold senderStep at hs
    simp [hpc] at hs
  | send => exact timed_send h hpc hs

/-- Until its first statement the sender has sent nothing; from then on it is on schedule. -/
def OnSchedule (s : State O) (ls : List (Label O)) : Prop :=
  if senderRuns ls then Timed s (elapsed ls) else s.sender = .init ∧ s.sends = 0

theorem timed_sameClock {e : ℕ} (h : Timed s e) (hc : SameClock s t) : Timed t e := by
  have hperiods : t.periods = s.periods := by simp only [State.periods, hc.sender, hc.sends]
  refine ⟨?_, ?_⟩
  · rw [hc.tickCount, hc.xNextWakeTime, hperiods]
    exact h.clock
  · have hdue := h.due
    simpa only [State.Due, hc.sender, hperiods] using hdue

theorem onSchedule_step [DecidableEq O] {ls : List (Label O)} (hI : OnSchedule s ls)
    (h : step prio s l = some t) : OnSchedule t (ls ++ [l]) := by
  unfold OnSchedule at hI ⊢
  rw [senderRuns_concat, elapsed_concat]
  cases hruns : senderRuns ls with
  | true =>
    simp only [hruns, if_true] at hI
    simp only [Bool.true_or, if_true]
    rcases clock_cases h with ⟨htick, -, hpc, hwake, hcount, hsends⟩ | ⟨htick, -, hs⟩ |
      ⟨htick, -, hc⟩
    · rw [htick]
      exact timed_tick hI hpc hwake hcount hsends
    · rw [htick]
      exact timed_sender hI hs
    · rw [htick]
      exact timed_sameClock hI hc
  | false =>
    simp only [hruns, Bool.false_eq_true, if_false] at hI
    obtain ⟨hinit, hzero⟩ := hI
    rcases clock_cases h with ⟨-, hsend, hpc, -, -, hsends⟩ | ⟨-, hsend, hs⟩ | ⟨-, hsend, hc⟩
    · rw [hsend]
      exact ⟨by rw [hpc, hinit]; rfl, hsends.trans hzero⟩
    · rw [hsend]
      exact timed_init hinit hzero hs
    · rw [hsend]
      exact ⟨hc.sender.trans hinit, hc.sends.trans hzero⟩

/-- The LED keeps its time: in every run, with ticks counted from the first statement of the
sender, no more than one value for each period is sent or shown; and whenever the sender sleeps,
unless the tick count has wrapped, it has sent one value for each complete period, and the LED
has shown them all if the receiver waits too. -/
theorem blinky_on_schedule [DecidableEq O] {tickCount : UInt32} {others : List O}
    {ulReceivedValue : UInt32} {ls : List (Label O)}
    (h : (blinkySystem prio).exec (vSetupBlinkyTask tickCount others ulReceivedValue) ls = some s) :
    200 * s.sends ≤ elapsed ls ∧ 200 * s.toggles ≤ elapsed ls ∧
      (elapsed ls < 2 ^ 32 → ∀ x, s.sender = .delayed x →
        s.sends = elapsed ls / 200 ∧ (s.receiver = .blocked → s.toggles = elapsed ls / 200)) := by
  have hinit : (blinkySystem prio).Reachable (vSetupBlinkyTask tickCount others ulReceivedValue) :=
    .init ⟨tickCount, others, ulReceivedValue, rfl⟩
  have hvalid := reachable_valid (hinit.exec h)
  have hbalance := hvalid.balance
  have hschedule : OnSchedule s ls := by
    refine TransitionSystem.exec_invariant (I := OnSchedule) ⟨rfl, rfl⟩
      (fun u v bs a _ hI (hstep : step prio u a = some v) => onSchedule_step hI hstep) h
  have hperiod := period_eq
  unfold OnSchedule at hschedule
  cases hruns : senderRuns ls with
  | false =>
    simp only [hruns, Bool.false_eq_true, if_false] at hschedule
    obtain ⟨hpc, hsends⟩ := hschedule
    refine ⟨by omega, by omega, fun _ x hx => ?_⟩
    rw [hpc] at hx
    cases hx
  | true =>
    simp only [hruns, if_true] at hschedule
    have hdue := hschedule.due
    simp only [State.Due, State.periods, hperiod] at hdue
    -- awake, the sender may be late by any amount, so there is only the bound
    have hsends : 200 * s.sends ≤ elapsed ls := by
      cases hpc : s.sender with
      | init => simp [hpc] at hdue
      | delayUntil => simpa [hpc] using hdue
      | send =>
        simp only [hpc] at hdue
        omega
      | delayed x =>
        simp only [hpc] at hdue
        omega
    refine ⟨hsends, by omega, fun hlt x hx => ?_⟩
    simp only [hx] at hdue
    have hall : s.sends = elapsed ls / 200 := by omega
    refine ⟨hall, fun hr => ?_⟩
    have hq := hvalid.blocked hr
    simp only [State.held, hr, hq, List.length_nil, reduceCtorEq, if_false] at hbalance
    omega

/-- Over a wrap of the tick count a task of priority 3 takes the CPU for two periods; the sender
then sends twice in a row, sleeps, and is on schedule again. -/
def catchUp : List (Label Unit) :=
  lateWakeup ++ [.sender, .receiver, .receiver, .receiver, .sender]

theorem blinky_on_schedule_catchUp :
    ∃ s x, (blinkySystem fun _ : Unit => 3).exec
        (vSetupBlinkyTask (UInt32.ofNat (2 ^ 32 - 100)) [] 0) catchUp = some s ∧
      s.sender = .delayed x ∧ s.sends = elapsed catchUp / 200 := by
  have hrun : ((blinkySystem fun _ : Unit => 3).exec
      (vSetupBlinkyTask (UInt32.ofNat (2 ^ 32 - 100)) [] 0) catchUp).map (fun s => s.sender) =
        some (.delayed 200) := by
    decide +kernel
  obtain ⟨s, hs, hpc⟩ := Option.map_eq_some_iff.mp hrun
  have hlt : elapsed catchUp < 2 ^ 32 := by decide +kernel
  exact ⟨s, 200, hs, hpc, ((blinky_on_schedule hs).2.2 hlt 200 hpc).1⟩

end Stm32f7Renode.Blinky
