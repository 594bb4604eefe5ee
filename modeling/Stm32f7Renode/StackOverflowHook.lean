import Stm32f7Renode.LoggingInvariant

/-!
`vApplicationStackOverflowHook` calls `vLoggingPrintf` from inside the context
switch. No task and not even the tick runs meanwhile, so its two wait loops have
nobody to wait for.
-/

namespace Stm32f7Renode.Logging
open WireText

variable {T : Type*} [DecidableEq T] {names : T → CString} {s : State T} {me : T}
  {pcTaskName : CString}

def hookBody (pcTaskName : CString) : CString where
  bytes := ascii "vApplicationStackOverflowHook [" ++ pcTaskName.bytes ++ ascii "]"
  noNul := by
    have h1 : 0 ∉ ascii "vApplicationStackOverflowHook [" := by decide
    have h2 : 0 ∉ ascii "]" := by decide
    simp [h1, h2, pcTaskName.noNul]

structure HookState (T : Type*) where
  pc : Pc
  sys : State T

/-- The hook's call of `vLoggingPrintf` in the context of `me`; without ticks, neither the
timeout of `xSemaphoreTake` nor the end of `vTaskDelay` comes. -/
def hookStep (names : T → CString) (me : T) (hs : HookState T) (a : Act) : Option (HookState T) :=
  if a.needsTick || hs.pc == .idle then none
  else (callStep me (names me) a hs.pc hs.sys.kernel).map fun r =>
    { pc := r.1, sys := { hs.sys with kernel := r.2 } }

def vApplicationStackOverflowHook (pcTaskName : CString) (s : State T) : HookState T :=
  { pc := .formatted (hookBody pcTaskName), sys := s }

def hookSystem (names : T → CString) (me : T) (pcTaskName : CString) (s : State T) :
    TransitionSystem (HookState T) Act where
  init hs := hs = vApplicationStackOverflowHook pcTaskName s
  step := hookStep names me

/-- The mutex has its old owner, and whatever other calls and the logger have in hand is as
it was. -/
structure Undisturbed (s s' : State T) : Prop where
  owner : s'.kernel.owner = s.kernel.owner
  pc : s'.pc = s.pc
  logger : s'.logger = s.logger
  uart : s'.uart = s.uart
  buffer : s.kernel.buffer <+: s'.kernel.buffer

/-- The hook's call comes to its end in finitely many of its steps, whatever their order, and
leaves the others undisturbed. -/
def HookReturns (names : T → CString) (me : T) (pcTaskName : CString) (s : State T) : Prop :=
  (hookSystem names me pcTaskName s).Inevitable (fun hs => hs.pc = .idle ∧ Undisturbed s hs.sys)
    (vApplicationStackOverflowHook pcTaskName s)

/-- The record that a call of `me` has formatted, or would have if it read the number and the
tick count now. -/
def Pc.itemNow (pcTaskName : CString) (k : Kernel T) : Pc → Option LogItem
  | .formatted body => some ⟨k.xMessageNumber, k.xTaskGetTickCount, pcTaskName, body⟩
  | .numbered xMessageNumber body => some ⟨xMessageNumber, k.xTaskGetTickCount, pcTaskName, body⟩
  | .stamped tickCount body => some ⟨k.xMessageNumber, tickCount, pcTaskName, body⟩
  | .take c | .takeDelay c | .spaces c | .spacesDelay c | .send c => some c
  | _ => none

def Pc.remaining : Pc → ℕ
  | .idle => 0
  | .give _ => 1
  | .send _ => 2
  | .spaces _ | .spacesDelay _ => 3
  | .take _ | .takeDelay _ => 4
  | .numbered _ _ | .stamped _ _ => 5
  | .formatted _ => 6

def Pc.Outside : Pc → Prop
  | .formatted _ | .numbered _ _ | .stamped _ _ | .take _ | .takeDelay _ => True
  | _ => False

theorem hookStep_cases {hs hs' : HookState T} {a : Act} (h : hookStep names me hs a = some hs') :
    a.needsTick = false ∧ hs.pc ≠ .idle ∧ ∃ p' k',
      CallStep me (names me) hs.sys.kernel a hs.pc p' k' ∧
        hs' = { pc := p', sys := { hs.sys with kernel := k' } } := by
  obtain ⟨hg, he⟩ := Option.ite_none_left_eq_some.mp h
  obtain ⟨⟨p', k'⟩, hc, rfl⟩ := Option.map_eq_some_iff.mp he
  simp only [Bool.or_eq_true, beq_iff_eq, not_or, Bool.not_eq_true] at hg
  exact ⟨hg.1, hg.2, p', k', callStep_cases hc, rfl⟩

theorem hookStep_some {hs : HookState T} {a : Act} {p' : Pc} {k' : Kernel T}
    (ha : a.needsTick = false) (hp : hs.pc ≠ .idle)
    (h : callStep me (names me) a hs.pc hs.sys.kernel = some (p', k')) :
    hookStep names me hs a = some { pc := p', sys := { hs.sys with kernel := k' } } := by
  simp [hookStep, ha, hp, h]

/-- The mutex is there for the hook and the buffer has room for its record. -/
structure Clear (names : T → CString) (me : T) (s : State T) (hs : HookState T) : Prop where
  free : hs.pc.Outside ∨ hs.pc = .idle → hs.sys.kernel.owner = none
  fits : ∀ c, hs.pc.itemNow (names me) hs.sys.kernel = some c →
    c.cLogitem.length ≤ hs.sys.kernel.xStreamBufferSpacesAvailable
  moving : ∀ c, hs.pc ≠ .takeDelay c ∧ hs.pc ≠ .spacesDelay c
  pc : hs.sys.pc = s.pc
  logger : hs.sys.logger = s.logger
  uart : hs.sys.uart = s.uart
  buffer : s.kernel.buffer <+: hs.sys.kernel.buffer

theorem Clear.step {hs hs' : HookState T} {a : Act} (hC : Clear names me s hs)
    (h : hookStep names me hs a = some hs') :
    Clear names me s hs' ∧ hs'.pc.remaining < hs.pc.remaining := by
  obtain ⟨p, sys⟩ := hs
  obtain ⟨ha, hp, p', k', hc, rfl⟩ := hookStep_cases h
  have hfree := hC.free
  have hfits := hC.fits
  have hmoving := hC.moving
  have hbuf := hC.buffer
  cases hc with
  | call => exact absurd rfl hp
  | number body | stamp body | numberLast n body | stampLast n body | take c | checkPass c =>
    refine ⟨⟨?_, ?_, by simp, hC.pc, hC.logger, hC.uart, hC.buffer⟩, by simp [Pc.remaining]⟩
    · simp_all [Pc.Outside, Kernel.countMessage]
    · exact hfits
  | checkWait c hlt => exact absurd (hfits c rfl) (by simpa using hlt)
  | takeTimeout c | takeDelay c | spacesDelay c => simp [Act.needsTick] at ha
  | send c =>
    refine ⟨⟨by simp [Pc.Outside], by simp [Pc.itemNow], by simp, hC.pc, hC.logger, hC.uart, ?_⟩,
      by simp [Pc.remaining]⟩
    exact hbuf.trans (List.prefix_append _ _)
  | give c =>
    exact ⟨⟨fun _ => rfl, by simp [Pc.itemNow], by simp, hC.pc, hC.logger, hC.uart, hC.buffer⟩,
      by simp [Pc.remaining]⟩

theorem Clear.enabled {hs : HookState T} (hC : Clear names me s hs) (hp : hs.pc ≠ .idle) :
    ∃ a hs', hookStep names me hs a = some hs' := by
  have hfree := hC.free
  have hfits := hC.fits
  have hmoving := hC.moving
  cases hpc : hs.pc with
  | idle => exact absurd hpc hp
  | formatted body => exact ⟨.number, _, hookStep_some rfl hp (by rw [hpc, callStep])⟩
  | numbered n body => exact ⟨.stamp, _, hookStep_some rfl hp (by rw [hpc, callStep])⟩
  | stamped n body => exact ⟨.number, _, hookStep_some rfl hp (by rw [hpc, callStep])⟩
  | take c =>
    have ho : hs.sys.kernel.owner = none := hfree (.inl (hpc ▸ trivial))
    exact ⟨.take, _, hookStep_some rfl hp (by rw [hpc, callStep, ho]; rfl)⟩
  | spaces c =>
    have hle := hfits c (by rw [hpc]; rfl)
    exact ⟨.check, _, hookStep_some rfl hp (by rw [hpc, callStep, if_neg (by omega)])⟩
  | send c => exact ⟨.send, _, hookStep_some rfl hp (by rw [hpc, callStep])⟩
  | give c => exact ⟨.give, _, hookStep_some rfl hp (by rw [hpc, callStep])⟩
  | takeDelay c => exact absurd hpc (hmoving c).1
  | spacesDelay c => exact absurd hpc (hmoving c).2

theorem hookReturns_of_clear (ho : s.kernel.owner = none)
    (hC : Clear names me s (vApplicationStackOverflowHook pcTaskName s)) :
    HookReturns names me pcTaskName s := by
  refine TransitionSystem.Inevitable.of_measure (fun hs => hs.pc.remaining) (fun hs hI => ?_)
    (fun hs a hs' hI h => hI.step h) hC
  by_cases hp : hs.pc = .idle
  · refine .inl ⟨hp, ?_⟩
    exact ⟨(hI.free (.inr hp)).trans ho.symm, hI.pc, hI.logger, hI.uart, hI.buffer⟩
  · exact .inr (hI.enabled hp)

def Blocked (names : T → CString) (me : T) (hs : HookState T) : Prop :=
  ∃ c, hs.pc.itemNow (names me) hs.sys.kernel = some c ∧ (∀ d, hs.pc ≠ .send d) ∧
    (hs.pc.Outside ∧ hs.sys.kernel.owner ≠ none ∨
      hs.sys.kernel.xStreamBufferSpacesAvailable < c.cLogitem.length)

theorem Blocked.step {hs hs' : HookState T} {a : Act} (hB : Blocked names me hs)
    (h : hookStep names me hs a = some hs') : Blocked names me hs' := by
  obtain ⟨p, sys⟩ := hs
  obtain ⟨-, -, p', k', hc, rfl⟩ := hookStep_cases h
  obtain ⟨c, hitem, hsend, hway⟩ := hB
  cases hc with
  | call | give => cases hitem
  | send d => exact absurd rfl (hsend d)
  | take d ho => exact ⟨c, hitem, by simp, .inr (hway.resolve_left fun h => h.2 ho)⟩
  | checkPass d hle =>
    obtain rfl := Option.some.inj hitem
    rcases hway with ⟨hout, -⟩ | hlt
    · exact absurd hout (by simp [Pc.Outside])
    · exact absurd hle (by simpa using hlt)
  | _ => exact ⟨c, hitem, by simp, hway⟩

theorem not_hookReturns_of_blocked
    (hB : Blocked names me (vApplicationStackOverflowHook pcTaskName s)) :
    ¬ HookReturns names me pcTaskName s := by
  refine TransitionSystem.not_inevitable (fun hs hI hq => ?_) (fun hs a hs' hI h => hI.step h) hB
  obtain ⟨c, hitem, -⟩ := hI
  rw [hq.1] at hitem
  cases hitem

theorem cLogitem_hookBody_length (n t : UInt32) (name pcTaskName : CString) :
    (LogItem.mk n t name (hookBody pcTaskName)).cLogitem.length =
      min 254 ((decimal n.toNat).length + (decimal t.toNat).length + name.bytes.length +
        pcTaskName.bytes.length + 39) := by
  have h1 : (ascii " ").length = 1 := by decide
  have h2 : (ascii " [").length = 2 := by decide
  have h3 : (ascii "] ").length = 2 := by decide
  have h4 : (ascii "vApplicationStackOverflowHook [").length = 31 := by decide
  have h5 : (ascii "]").length = 1 := by decide
  simp only [LogItem.cLogitem, LogItem.cLogitemBody, snprintf, vsnprintf, maxPrintStringLength,
    loggingUartFormat, envelope, hookBody, List.length_take, List.length_append, List.length_cons,
    List.length_nil, h1, h2, h3, h4, h5]
  omega

/-- The hook returns if and only if the mutex is free and the stream buffer has room for the
hook's record. -/
theorem stackOverflowHook_returns_iff (names : T → CString) (me : T) (pcTaskName : CString)
    (s : State T) :
    HookReturns names me pcTaskName s ↔
      s.kernel.owner = none ∧
        min 254 ((decimal s.kernel.xMessageNumber.toNat).length +
          (decimal s.kernel.xTaskGetTickCount.toNat).length + (names me).bytes.length +
          pcTaskName.bytes.length + 39) ≤ s.kernel.xStreamBufferSpacesAvailable := by
  rw [← cLogitem_hookBody_length]
  constructor
  · intro h
    by_contra hn
    refine not_hookReturns_of_blocked ⟨_, rfl, by simp [vApplicationStackOverflowHook], ?_⟩ h
    by_cases ho : s.kernel.owner = none
    · exact .inr (not_le.mp fun hle => hn ⟨ho, hle⟩)
    · exact .inl ⟨trivial, ho⟩
  · rintro ⟨ho, hle⟩
    refine hookReturns_of_clear ho ⟨fun _ => ho, fun c hc => ?_, ?_, rfl, rfl, rfl, List.prefix_rfl⟩
    · obtain rfl := Option.some.inj hc
      exact hle
    · simp [vApplicationStackOverflowHook]

/-- Task `B` overflows its stack while `A` holds the mutex. -/
theorem stackOverflowHook_stuck_on_mutex :
    ¬ ∀ s : State Bool, (loggingSystem twoNames).Reachable s → s.started = true →
      HookReturns twoNames false (twoNames false) s := by
  intro h
  have hrun : ((loggingSystem twoNames).exec startState contention).map
      (fun s => (s.started, s.kernel.owner)) = some (true, some true) := by decide
  obtain ⟨s, -, hreach, hproj⟩ := startState_reachable.exec_map hrun
  obtain ⟨hst, ho⟩ := Prod.mk.inj hproj
  refine not_hookReturns_of_blocked ⟨_, rfl, by simp [vApplicationStackOverflowHook], ?_⟩
    (h s hreach hst)
  exact .inl ⟨trivial, by simp [vApplicationStackOverflowHook, ho]⟩

end Stm32f7Renode.Logging
