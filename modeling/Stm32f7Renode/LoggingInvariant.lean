import Stm32f7Renode.Logging

namespace Stm32f7Renode.Logging
open WireText

variable {T : Type*} [DecidableEq T]

/-- `callStep` as a relation, one constructor for each statement of `vLoggingPrintf`. -/
inductive CallStep (me : T) (pcTaskName : CString) (k : Kernel T) : Act → Pc → Pc → Kernel T → Prop
  | call (body) : CallStep me pcTaskName k (.call body) .idle (.formatted body) (k.logCall me body)
  | number (body) : CallStep me pcTaskName k .number (.formatted body)
      (.numbered k.xMessageNumber body) (k.countMessage me)
  | stamp (body) : CallStep me pcTaskName k .stamp (.formatted body)
      (.stamped k.xTaskGetTickCount body) k
  | numberLast (tickCount body) : CallStep me pcTaskName k .number (.stamped tickCount body)
      (.take { xMessageNumber := k.xMessageNumber, tickCount, pcTaskName, body })
      (k.countMessage me)
  | stampLast (xMessageNumber body) :
      CallStep me pcTaskName k .stamp (.numbered xMessageNumber body)
      (.take { xMessageNumber, tickCount := k.xTaskGetTickCount, pcTaskName, body }) k
  | take (c) : k.owner = none → CallStep me pcTaskName k .take (.take c) (.spaces c) (k.grant me c)
  | takeTimeout (c) : CallStep me pcTaskName k .takeTimeout (.take c) (.takeDelay c) k
  | takeDelay (c) : CallStep me pcTaskName k .delay (.takeDelay c) (.take c) k
  | checkWait (c) : k.xStreamBufferSpacesAvailable < c.cLogitem.length →
      CallStep me pcTaskName k .check (.spaces c) (.spacesDelay c) k
  | checkPass (c) : c.cLogitem.length ≤ k.xStreamBufferSpacesAvailable →
      CallStep me pcTaskName k .check (.spaces c) (.send c) k
  | spacesDelay (c) : CallStep me pcTaskName k .delay (.spacesDelay c) (.spaces c) k
  | send (c) : CallStep me pcTaskName k .send (.send c) (.give c)
      ((k.xStreamBufferSend c.cLogitem).2.logSent me c)
  | give (c) : CallStep me pcTaskName k .give (.give c) .idle { k with owner := none }

theorem callStep_cases {me : T} {pcTaskName : CString} {a : Act} {p p' : Pc} {k k' : Kernel T}
    (h : callStep me pcTaskName a p k = some (p', k')) : CallStep me pcTaskName k a p p' k' := by
  unfold callStep at h
  split at h
  case h_6 c =>
    split at h
    · rename_i ho
      obtain ⟨rfl, rfl⟩ := Prod.mk.inj (Option.some.inj h)
      exact .take c (Option.isNone_iff_eq_none.mp ho)
    · exact absurd h (by simp)
  case h_9 c =>
    split at h
    · obtain ⟨rfl, rfl⟩ := Prod.mk.inj (Option.some.inj h)
      exact .checkWait c (by assumption)
    · obtain ⟨rfl, rfl⟩ := Prod.mk.inj (Option.some.inj h)
      exact .checkPass c (by omega)
  case h_13 => exact absurd h (by simp)
  all_goals
    obtain ⟨rfl, rfl⟩ := Prod.mk.inj (Option.some.inj h)
    constructor

inductive SysStep (names : T → CString) (s : State T) : Label T → State T → Prop
  | early (body) : s.started = false → SysStep names s (.early body)
      { s with
        kernel := { s.kernel with
          xMessageNumber := s.kernel.xMessageNumber + 1
          hist := { s.kernel.hist with
            direct := s.kernel.hist.direct ++ [s.kernel.earlyItem body] } }
        uart := s.uart ++ vWriteUart ((s.kernel.earlyItem body).cLogitem ++ [0]) }
  | start : s.started = false →
      SysStep names s .start { s with started := true, uartAtStart := s.uart.length }
  | tick : s.started = true →
      SysStep names s .tick
        { s with kernel := { s.kernel with tickCount := s.kernel.tickCount + 1 } }
  | task (t a) {p' : Pc} {k' : Kernel T} : s.started = true →
      CallStep t (names t) s.kernel a (s.pc t) p' k' →
      SysStep names s (.task t a) { s with pc := Function.update s.pc t p', kernel := k' }
  | receive : s.started = true → s.logger.received = false → s.kernel.buffer ≠ [] →
      SysStep names s .receive { s with
        kernel := { s.kernel with buffer := s.kernel.buffer.drop sizeofUcRxData }
        logger :=
          { ucRxData :=
              (xStreamBufferReceive sizeofUcRxData s.kernel.buffer s.logger.ucRxData).2.2
            received := true } }
  | receiveTimeout : s.started = true → s.kernel.buffer = [] → SysStep names s .receiveTimeout s
  | transmit (beyond) : s.logger.received = true →
      SysStep names s (.transmit beyond) { s with
        uart := s.uart ++ vWriteUart (s.logger.ucRxData ++ beyond)
        logger := { s.logger with received := false } }

theorem step_cases {names : T → CString} {s s' : State T} {l : Label T}
    (h : step names s l = some s') : SysStep names s l s' := by
  cases l with
  | early body =>
    obtain ⟨hs, he⟩ := Option.ite_none_left_eq_some.mp h
    obtain rfl := Option.some.inj he
    exact .early body (Bool.eq_false_iff.mpr hs)
  | start =>
    obtain ⟨hs, he⟩ := Option.ite_none_left_eq_some.mp h
    exact Option.some.inj he ▸ .start (Bool.eq_false_iff.mpr hs)
  | tick =>
    obtain ⟨hs, he⟩ := Option.ite_none_right_eq_some.mp h
    exact Option.some.inj he ▸ .tick hs
  | task t a =>
    obtain ⟨hs, he⟩ := Option.ite_none_right_eq_some.mp h
    obtain ⟨⟨p', k'⟩, hc, rfl⟩ := Option.map_eq_some_iff.mp he
    exact .task t a hs (callStep_cases hc)
  | receive =>
    obtain ⟨hg, he⟩ := Option.ite_none_right_eq_some.mp h
    obtain rfl := Option.some.inj he
    simp only [Bool.and_eq_true, Bool.not_eq_true', List.isEmpty_eq_false_iff] at hg
    exact .receive hg.1.1 hg.1.2 hg.2
  | receiveTimeout =>
    obtain ⟨hg, he⟩ := Option.ite_none_right_eq_some.mp h
    simp only [Bool.and_eq_true, Bool.not_eq_true', List.isEmpty_iff] at hg
    exact Option.some.inj he ▸ .receiveTimeout hg.1.1 hg.2
  | transmit beyond =>
    obtain ⟨hs, he⟩ := Option.ite_none_right_eq_some.mp h
    exact Option.some.inj he ▸ .transmit beyond hs

def Pc.Holding : Pc → Prop
  | .spaces _ | .spacesDelay _ | .send _ | .give _ => True
  | _ => False

/-- The record that a holder has yet to send. -/
def Pc.unsent : Pc → Option LogItem
  | .spaces c | .spacesDelay c | .send c => some c
  | _ => none

/-- The body of a call that has yet to send its record. -/
def Pc.inFlight : Pc → List CString
  | .idle | .give _ => []
  | .formatted body | .numbered _ body | .stamped _ body => [body]
  | .take c | .takeDelay c | .spaces c | .spacesDelay c | .send c => [c.body]

def Pc.item : Pc → Option LogItem
  | .take c | .takeDelay c | .spaces c | .spacesDelay c | .send c | .give c => some c
  | _ => none

/-- The record of the mutex holder, as long as it is not sent. -/
def Kernel.unsentRecord (k : Kernel T) (pc : T → Pc) : List (T × LogItem) :=
  match k.owner with
  | none => []
  | some t => ((pc t).unsent.map fun c => (t, c)).toList

def History.sentBy (h : History T) (t : T) : List LogItem :=
  (h.sent.filter fun r => r.1 = t).map Prod.snd

structure Inv (names : T → CString) (k : Kernel T) (pc : T → Pc) : Prop where
  holding : ∀ t, k.owner = some t ↔ (pc t).Holding
  fits : ∀ t c, pc t = .send c → c.cLogitem.length ≤ k.xStreamBufferSpacesAvailable
  bounded : k.buffer.length ≤ loggingStreamBufferSize
  suffix : k.buffer <:+ k.hist.accepted
  accepted : k.hist.accepted = k.hist.sent.flatMap fun r => r.2.cLogitem
  acquired : k.hist.acquired = k.hist.sent ++ k.unsentRecord pc
  called : ∀ t, k.hist.called t = (k.hist.sentBy t).map LogItem.body ++ (pc t).inFlight
  named : ∀ t c, (pc t).item = some c → c.pcTaskName = names t
  sentNamed : ∀ r ∈ k.hist.sent, r.2.pcTaskName = names r.1

section Step

variable {names : T → CString} {k k' : Kernel T} {pc : T → Pc} {t : T} {a : Act} {p p' : Pc}

structure SameRecords (k k' : Kernel T) : Prop where
  owner : k'.owner = k.owner
  buffer : k'.buffer = k.buffer
  accepted : k'.hist.accepted = k.hist.accepted
  sent : k'.hist.sent = k.hist.sent
  acquired : k'.hist.acquired = k.hist.acquired

/-- Apart from local steps, a call takes the mutex, sends its record and gives the mutex. -/
theorem CallStep.effect {n : CString} (h : CallStep t n k a p p' k') :
    (SameRecords k k' ∧ p'.unsent = p.unsent ∧ (p'.Holding ↔ p.Holding)) ∨
      (∃ c, p = .take c ∧ p' = .spaces c ∧ k.owner = none ∧ k' = k.grant t c) ∨
      (∃ c, a = .send ∧ p = .send c ∧ p' = .give c ∧
        k' = (k.xStreamBufferSend c.cLogitem).2.logSent t c) ∨
      (∃ c, p = .give c ∧ p' = .idle ∧ k' = { k with owner := none }) := by
  cases h with
  | take c ho => exact .inr (.inl ⟨c, rfl, rfl, ho, rfl⟩)
  | send c => exact .inr (.inr (.inl ⟨c, rfl, rfl, rfl, rfl⟩))
  | give c => exact .inr (.inr (.inr ⟨c, rfl, rfl, rfl⟩))
  | _ => exact .inl ⟨⟨rfl, rfl, rfl, rfl, rfl⟩, rfl, Iff.rfl⟩

theorem CallStep.fits {n : CString} (h : CallStep t n k a p p' k') {c : LogItem}
    (hp : p' = .send c) : c.cLogitem.length ≤ k'.xStreamBufferSpacesAvailable := by
  cases h <;> cases hp
  assumption

theorem CallStep.item {n : CString} (h : CallStep t n k a p p' k')
    (hp : ∀ c, p.item = some c → c.pcTaskName = n) (c : LogItem) (hc : p'.item = some c) :
    c.pcTaskName = n := by
  cases h <;> simp_all [Pc.item]
  all_goals rw [← hc]

theorem CallStep.called {n : CString} (h : CallStep t n k a p p' k')
    (hc : k.hist.called t = (k.hist.sentBy t).map LogItem.body ++ p.inFlight) :
    k'.hist.called t = (k'.hist.sentBy t).map LogItem.body ++ p'.inFlight := by
  cases h <;> simp_all [Pc.inFlight, Kernel.logCall, Kernel.countMessage, Kernel.grant,
    Kernel.logSent, Kernel.xStreamBufferSend, History.sentBy]

theorem CallStep.called_other {n : CString} (h : CallStep t n k a p p' k') {u : T} (hu : u ≠ t) :
    k'.hist.called u = k.hist.called u ∧ k'.hist.sentBy u = k.hist.sentBy u := by
  cases h <;> simp [Kernel.logCall, Kernel.countMessage, Kernel.grant, Kernel.logSent,
    Kernel.xStreamBufferSend, History.sentBy, hu, Ne.symm hu]

theorem unsentRecord_update (hp : p'.unsent = (pc t).unsent) (ho : k'.owner = k.owner) :
    k'.unsentRecord (Function.update pc t p') = k.unsentRecord pc := by
  unfold Kernel.unsentRecord
  rw [ho]
  cases k.owner with
  | none => rfl
  | some u =>
    by_cases hu : u = t
    · subst hu
      simp [hp]
    · simp [hu]

omit [DecidableEq T] in
theorem send_whole {c : LogItem} (h : c.cLogitem.length ≤ k.xStreamBufferSpacesAvailable) :
    k.xStreamBufferSend c.cLogitem = (c.cLogitem.length, { k with
      buffer := k.buffer ++ c.cLogitem
      hist := { k.hist with accepted := k.hist.accepted ++ c.cLogitem } }) := by
  simp only [Kernel.xStreamBufferSend, List.take_of_length_le h]

theorem Inv.holding_step (hI : Inv names k pc) (h : CallStep t (names t) k a (pc t) p' k') (u : T) :
    k'.owner = some u ↔ (Function.update pc t p' u).Holding := by
  have hu := hI.holding u
  have ht := hI.holding t
  rcases h.effect with
    ⟨hs, -, hh⟩ | ⟨c, hp, rfl, ho, rfl⟩ | ⟨c, -, hp, rfl, rfl⟩ | ⟨c, hp, rfl, rfl⟩
  all_goals by_cases hut : u = t
  · subst hut
    rw [Function.update_self, hh, hs.owner]
    exact hu
  · rw [Function.update_of_ne hut, hs.owner]
    exact hu
  · subst hut
    simp [Kernel.grant, Pc.Holding]
  · rw [ho] at hu
    simpa [Kernel.grant, hut, Ne.symm hut] using hu
  · subst hut
    simpa [hp, Pc.Holding, Kernel.logSent, Kernel.xStreamBufferSend] using hu
  · simpa [hut, Kernel.logSent, Kernel.xStreamBufferSend] using hu
  · subst hut
    simp [Pc.Holding]
  · rw [hp] at ht
    have ho : k.owner = some t := ht.mpr trivial
    rw [ho] at hu
    simpa [hut, Ne.symm hut] using hu

theorem Inv.owner_of_send (hI : Inv names k pc) {c : LogItem} (h : pc t = .send c) :
    k.owner = some t :=
  (hI.holding t).mpr (h ▸ trivial)

theorem Inv.fits_step (hI : Inv names k pc) (h : CallStep t (names t) k a (pc t) p' k') (u : T)
    (c : LogItem) (hc : Function.update pc t p' u = .send c) :
    c.cLogitem.length ≤ k'.xStreamBufferSpacesAvailable := by
  by_cases hut : u = t
  · subst hut
    rw [Function.update_self] at hc
    exact h.fits hc
  · rw [Function.update_of_ne hut] at hc
    have hu := hI.fits u c hc
    have ho := hI.owner_of_send hc
    rcases h.effect with ⟨hs, -, -⟩ | ⟨d, -, -, -, rfl⟩ | ⟨d, -, hp, -, rfl⟩ | ⟨d, -, -, rfl⟩
    · simpa [Kernel.xStreamBufferSpacesAvailable, hs.buffer] using hu
    · exact hu
    · -- two tasks at their send would both hold the mutex
      exact absurd (Option.some.inj (ho.symm.trans (hI.owner_of_send hp))) hut
    · exact hu

theorem Inv.acquired_step (hI : Inv names k pc) (h : CallStep t (names t) k a (pc t) p' k') :
    k'.hist.acquired = k'.hist.sent ++ k'.unsentRecord (Function.update pc t p') := by
  have ha := hI.acquired
  rcases h.effect with
    ⟨hs, hu, -⟩ | ⟨c, hp, rfl, ho, rfl⟩ | ⟨c, -, hp, rfl, rfl⟩ | ⟨c, hp, rfl, rfl⟩
  · rw [unsentRecord_update hu hs.owner, hs.acquired, hs.sent, ha]
  · simp only [Kernel.unsentRecord, ho] at ha
    simp [Kernel.grant, Kernel.unsentRecord, Pc.unsent, ha]
  · have ho := hI.owner_of_send hp
    simp only [Kernel.unsentRecord, ho, hp] at ha
    simp [Kernel.logSent, Kernel.xStreamBufferSend, Kernel.unsentRecord, ho, ha, Pc.unsent]
  · have ho : k.owner = some t := (hI.holding t).mpr (hp ▸ trivial)
    simp only [Kernel.unsentRecord, ho, hp] at ha
    simpa [Kernel.unsentRecord, Pc.unsent] using ha

theorem Inv.callStep (hI : Inv names k pc) (h : CallStep t (names t) k a (pc t) p' k') :
    Inv names k' (Function.update pc t p') where
  holding := hI.holding_step h
  fits := hI.fits_step h
  acquired := hI.acquired_step h
  bounded := by
    -- only the send adds to the buffer, and its record fits
    rcases h.effect with ⟨hs, -, -⟩ | ⟨c, -, -, -, rfl⟩ | ⟨c, -, hp, -, rfl⟩ | ⟨c, -, -, rfl⟩
    · exact hs.buffer ▸ hI.bounded
    · exact hI.bounded
    · have hf := hI.fits t c hp
      have hb := hI.bounded
      rw [send_whole hf]
      simp only [Kernel.xStreamBufferSpacesAvailable] at hf
      simp only [Kernel.logSent, List.length_append]
      omega
    · exact hI.bounded
  suffix := by
    rcases h.effect with ⟨hs, -, -⟩ | ⟨c, -, -, -, rfl⟩ | ⟨c, -, hp, -, rfl⟩ | ⟨c, -, -, rfl⟩
    · rw [hs.buffer, hs.accepted]
      exact hI.suffix
    · exact hI.suffix
    · obtain ⟨front, hfront⟩ := hI.suffix
      rw [send_whole (hI.fits t c hp)]
      refine ⟨front, ?_⟩
      simp only [Kernel.logSent]
      rw [← hfront, List.append_assoc]
    · exact hI.suffix
  accepted := by
    rcases h.effect with ⟨hs, -, -⟩ | ⟨c, -, -, -, rfl⟩ | ⟨c, -, hp, -, rfl⟩ | ⟨c, -, -, rfl⟩
    · rw [hs.accepted, hs.sent, hI.accepted]
    · exact hI.accepted
    · rw [send_whole (hI.fits t c hp)]
      simp [Kernel.logSent, hI.accepted]
    · exact hI.accepted
  called u := by
    by_cases hut : u = t
    · subst hut
      simpa using h.called (hI.called u)
    · simpa [hut, h.called_other hut] using hI.called u
  named u c hc := by
    by_cases hut : u = t
    · subst hut
      rw [Function.update_self] at hc
      exact h.item (fun d => hI.named u d) c hc
    · rw [Function.update_of_ne hut] at hc
      exact hI.named u c hc
  sentNamed := by
    rcases h.effect with ⟨hs, -, -⟩ | ⟨c, -, -, -, rfl⟩ | ⟨c, -, hp, -, rfl⟩ | ⟨c, -, -, rfl⟩
    · exact hs.sent ▸ hI.sentNamed
    · exact hI.sentNamed
    · intro r hr
      rcases List.mem_append.mp hr with hr | hr
      · exact hI.sentNamed r hr
      · obtain rfl := List.mem_singleton.mp hr
        exact hI.named t c (hp ▸ rfl)
    · exact hI.sentNamed

end Step

section Reachable

variable {names : T → CString} {s : State T}

theorem inv_init (ucRxData : List Byte) :
    Inv names (vSetupLoggingTask (T := T) ucRxData).kernel fun _ => .idle where
  holding _ := by simp [vSetupLoggingTask, Pc.Holding]
  fits _ _ h := by simp at h
  bounded := Nat.zero_le _
  suffix := List.suffix_rfl
  accepted := rfl
  acquired := rfl
  called _ := rfl
  named _ _ h := by simp [Pc.item] at h
  sentNamed _ h := by simp [vSetupLoggingTask, History.empty] at h

theorem inv_step {s s' : State T} {l : Label T} (hI : Inv names s.kernel s.pc)
    (h : SysStep names s l s') : Inv names s'.kernel s'.pc := by
  cases h with
  | task t a _ hc => exact hI.callStep hc
  | receive =>
    refine { hI with fits := fun t c hc => ?_, bounded := ?_, suffix := ?_ }
    · refine (hI.fits t c hc).trans ?_
      simp only [Kernel.xStreamBufferSpacesAvailable, List.length_drop]
      omega
    · have := hI.bounded
      simp only [List.length_drop]
      omega
    · exact (List.drop_suffix _ _).trans hI.suffix
  | _ => exact { hI with }

theorem reachable_inv (h : (loggingSystem names).Reachable s) : Inv names s.kernel s.pc := by
  refine h.invariant (fun s hs => ?_)
    (fun s l s' _ hI _ (hs : step names s l = some s') => inv_step hI (step_cases hs))
  obtain ⟨ucRxData, -, rfl⟩ := hs
  exact inv_init ucRxData

/-- Before the scheduler starts there are no calls, no chunk and no buffered bytes. -/
structure Quiet (s : State T) : Prop where
  idle : ∀ t, s.pc t = .idle
  received : s.logger.received = false
  buffer : s.kernel.buffer = []
  accepted : s.kernel.hist.accepted = []
  acquired : s.kernel.hist.acquired = []

theorem reachable_quiet (h : (loggingSystem names).Reachable s) (hs : s.started = false) :
    Quiet s := by
  revert hs
  refine h.invariant (I := fun s => s.started = false → Quiet s) (fun s hs _ => ?_)
    (fun s l s' _ hI _ (hs : step names s l = some s') hn => ?_)
  · obtain ⟨ucRxData, -, rfl⟩ := hs
    exact ⟨fun _ => rfl, rfl, rfl, rfl, rfl⟩
  · cases step_cases hs with
    | early _ hf => exact { hI hf with }
    | start => cases hn
    | transmit _ hr => exact absurd ((hI hn).received.symm.trans hr) (by simp)
    | tick ht | task _ _ ht _ | receive ht | receiveTimeout ht =>
      exact absurd (ht.symm.trans hn) (by simp)

/-- Every send finds room for its whole record, the mutex belongs to the task between its take
and its give, and the buffer, which holds the end of what it has accepted, accepts whole records,
each once, in order of acquisition and so in program order for each task. -/
theorem records_enter_whole (h : (loggingSystem names).Reachable s) :
    (∀ t c, s.pc t = .send c →
      c.cLogitem.length ≤ s.kernel.xStreamBufferSpacesAvailable ∧
        (s.kernel.xStreamBufferSend c.cLogitem).1 = c.cLogitem.length) ∧
    (∀ t, s.kernel.owner = some t ↔ (s.pc t).Holding) ∧
    s.kernel.buffer <:+ s.kernel.hist.accepted ∧
    s.kernel.hist.accepted = s.kernel.hist.sent.flatMap (fun r => r.2.cLogitem) ∧
    s.kernel.hist.acquired = s.kernel.hist.sent ++ s.kernel.unsentRecord s.pc ∧
    (∀ r ∈ s.kernel.hist.sent, r.2.pcTaskName = names r.1) ∧
    (∀ t, s.kernel.hist.called t =
      (s.kernel.hist.sentBy t).map LogItem.body ++ (s.pc t).inFlight) := by
  have hI := reachable_inv h
  refine ⟨fun t c hc => ?_, hI.holding, hI.suffix, hI.accepted, hI.acquired, hI.sentNamed,
    hI.called⟩
  have hf := hI.fits t c hc
  exact ⟨hf, by rw [send_whole hf]⟩

end Reachable

def twoNames : Bool → CString
  | true => ⟨ascii "A", by decide⟩
  | false => ⟨ascii "B", by decide⟩

def hello : CString := ⟨ascii "hi", by decide⟩

def formRecord (t : Bool) : List (Label Bool) :=
  [.task t (.call hello), .task t .number, .task t .stamp]

def emitRecord (t : Bool) : List (Label Bool) :=
  [.task t .take, .task t .check, .task t .send, .task t .give]

def startState : State Bool := vSetupLoggingTask (List.replicate 10 0)

theorem startState_reachable : (loggingSystem twoNames).Reachable startState :=
  .init ⟨_, rfl, rfl⟩

/-- Task `B` waits for the mutex while `A` is about to send. -/
def contention : List (Label Bool) :=
  [.start] ++ formRecord true ++ formRecord false ++ [.task true .take, .task false .takeTimeout,
    .task true .check]

/-- `A` sends and gives, and `B` comes to its send. -/
def handOver : List (Label Bool) :=
  [.task true .send, .receive, .task true .give, .task false .delay, .task false .take,
    .task false .check]

theorem records_enter_whole_contention :
    ∃ s, (loggingSystem twoNames).exec startState (contention ++ handOver) = some s ∧
      s.kernel.hist.sent = [(true, ⟨0, 0, twoNames true, hello⟩)] ∧
      s.pc false = .send ⟨1, 0, twoNames false, hello⟩ ∧
      s.kernel.buffer <:+ s.kernel.hist.accepted ∧
      s.kernel.hist.accepted = s.kernel.hist.sent.flatMap (fun r => r.2.cLogitem) ∧
      s.kernel.hist.acquired = s.kernel.hist.sent ++ s.kernel.unsentRecord s.pc := by
  have hrun : ((loggingSystem twoNames).exec startState (contention ++ handOver)).map
      (fun s => (s.kernel.hist.sent, s.pc false)) =
        some ([(true, ⟨0, 0, twoNames true, hello⟩)], .send ⟨1, 0, twoNames false, hello⟩) := by
    decide +kernel
  obtain ⟨s, hs, hreach, hproj⟩ := startState_reachable.exec_map hrun
  obtain ⟨hsent, hpc⟩ := Prod.mk.inj hproj
  obtain ⟨-, -, hbuffer, haccepted, hacquired, -⟩ := records_enter_whole hreach
  exact ⟨s, hs, hsent, hpc, hbuffer, haccepted, hacquired⟩

end Stm32f7Renode.Logging
