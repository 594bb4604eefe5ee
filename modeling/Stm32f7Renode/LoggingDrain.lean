import Mathlib.Algebra.Group.Action.Defs
import Mathlib.Algebra.Order.BigOperators.Group.Finset
import Stm32f7Renode.Journal
import Stm32f7Renode.LoggingProgress

namespace Stm32f7Renode.Logging
open WireText

variable {T : Type*} [DecidableEq T] {names : T → CString} {s s' : State T}

/-- A byte in the buffer counts two, for its receive and its transmit. -/
def Pc.work : Pc → ℕ
  | .idle => 0
  | .formatted _ => 514
  | .numbered _ _ | .stamped _ _ => 513
  | .take c | .takeDelay c => 2 * c.cLogitem.length + 4
  | .spaces c | .spacesDelay c => 2 * c.cLogitem.length + 3
  | .send c => 2 * c.cLogitem.length + 2
  | .give _ => 1

def Logger.work (g : Logger) : ℕ := if g.received then 1 else 0

/-- What the tasks of `busy` and the logger have left to do. -/
def State.work (busy : Finset T) (s : State T) : ℕ :=
  ∑ t ∈ busy, (s.pc t).work + 2 * s.kernel.buffer.length + s.logger.work

theorem Pc.work_le (p : Pc) : p.work ≤ 514 := by
  have hlen : ∀ c : LogItem, c.cLogitem.length ≤ 254 := cLogitem_length_le
  cases p with
  | take c | takeDelay c | spaces c | spacesDelay c | send c =>
    have := hlen c
    simp only [Pc.work]
    omega
  | _ => simp [Pc.work]

theorem Pc.work_eq_zero {p : Pc} : p.work = 0 ↔ p = .idle := by
  cases p <;> simp [Pc.work]

/-- No call is unfinished, and all bytes are on the UART. -/
structure State.Settled (s : State T) : Prop where
  idle : ∀ t, s.pc t = .idle
  buffer : s.kernel.buffer = []
  received : s.logger.received = false

def BusyIn (busy : Finset T) (s : State T) : Prop := ∀ t, s.pc t ≠ .idle → t ∈ busy

section Work

variable {busy : Finset T}

omit [DecidableEq T] in
theorem settled_iff_work (hb : BusyIn busy s) : s.Settled ↔ s.work busy = 0 := by
  unfold State.work Logger.work
  constructor
  · intro h
    rw [h.buffer, h.received, Finset.sum_eq_zero fun t _ => Pc.work_eq_zero.mpr (h.idle t)]
    rfl
  · intro h
    have hsum : ∑ t ∈ busy, (s.pc t).work = 0 := by omega
    have hlen : s.kernel.buffer.length = 0 := by omega
    have hrec : (if s.logger.received then 1 else 0) = 0 := by omega
    refine ⟨fun t => ?_, List.length_eq_zero_iff.mp hlen, by simpa using hrec⟩
    by_contra ht
    exact ht (Pc.work_eq_zero.mp (Finset.sum_eq_zero_iff.mp hsum t (hb t ht)))

omit [DecidableEq T] in
theorem work_le (s : State T) :
    s.work busy ≤ 514 * busy.card + 2 * s.kernel.buffer.length + 1 := by
  have hsum : ∑ t ∈ busy, (s.pc t).work ≤ busy.card • 514 :=
    Finset.sum_le_card_nsmul _ _ _ fun t _ => (s.pc t).work_le
  have hrec : s.logger.work ≤ 1 := by
    unfold Logger.work
    split <;> omega
  rw [smul_eq_mul] at hsum
  unfold State.work
  omega

theorem CallStep.work {t : T} {n : CString} {k k' : Kernel T} {a : Act} {p p' : Pc}
    (h : CallStep t n k a p p' k') (ha : ∀ body, a ≠ .call body) :
    p'.work + 2 * k'.buffer.length + (if a.advances p' then 1 else 0) ≤
      p.work + 2 * k.buffer.length := by
  have hlen : ∀ c : LogItem, c.cLogitem.length ≤ 254 := cLogitem_length_le
  cases h with
  | call body => exact absurd rfl (ha body)
  | numberLast tickCount body =>
    have := hlen { xMessageNumber := k.xMessageNumber, tickCount, pcTaskName := n, body }
    simp only [Pc.work, Kernel.countMessage, Act.advances, if_true]
    omega
  | stampLast xMessageNumber body =>
    have := hlen { xMessageNumber, tickCount := k.xTaskGetTickCount, pcTaskName := n, body }
    simp only [Pc.work, Act.advances, if_true]
    omega
  | send c =>
    -- the buffer takes no more bytes than the record has
    have htake := List.length_take_le k.xStreamBufferSpacesAvailable c.cLogitem
    have hle := List.length_take_le' k.xStreamBufferSpacesAvailable c.cLogitem
    simp only [Pc.work, Kernel.logSent, Kernel.xStreamBufferSend, Act.advances, if_true,
      List.length_append]
    omega
  | _ =>
    simp only [Pc.work, Act.advances, Kernel.countMessage, Kernel.grant, if_true,
      Bool.false_eq_true, if_false]
    omega

theorem CallStep.idle_of_idle {t : T} {n : CString} {k k' : Kernel T} {a : Act} {p p' : Pc}
    (h : CallStep t n k a p p' k') (ha : ∀ body, a ≠ .call body) : p ≠ .idle := by
  cases h with
  | call body => exact absurd rfl (ha body)
  | _ => simp

omit [DecidableEq T] in
theorem not_call_of_body {t : T} {a : Act} (hl : (Label.task t a).body = none) (body : CString) :
    a ≠ .call body := by
  rintro rfl
  cases hl

theorem sum_work_update {t : T} (ht : t ∈ busy) (p' : Pc) :
    ∑ u ∈ busy, (Function.update s.pc t p' u).work + (s.pc t).work =
      ∑ u ∈ busy, (s.pc u).work + p'.work := by
  rw [← Finset.add_sum_erase busy _ ht, ← Finset.add_sum_erase busy (fun u => (s.pc u).work) ht,
    Function.update_self]
  have herase : ∑ u ∈ busy.erase t, (Function.update s.pc t p' u).work =
      ∑ u ∈ busy.erase t, (s.pc u).work := by
    apply Finset.sum_congr rfl
    intro u hu
    rw [Function.update_of_ne (Finset.ne_of_mem_erase hu)]
  rw [herase]
  omega

/-- Without a new call the work never grows, and every step that gets something on takes from it. -/
theorem work_step {l : Label T} (hb : BusyIn busy s) (hl : l.body = none)
    (h : step names s l = some s') :
    BusyIn busy s' ∧ s'.work busy + (if l.advances s' then 1 else 0) ≤ s.work busy := by
  cases step_cases h with
  | early body => cases hl
  | start => exact ⟨hb, le_rfl⟩
  | tick => exact ⟨hb, le_rfl⟩
  | receiveTimeout => exact ⟨hb, le_rfl⟩
  | @task t a p' k' _ hc =>
    -- the other calls are as they were, so the sum changes by what this call has left
    have ha := not_call_of_body hl
    have ht : t ∈ busy := hb t (hc.idle_of_idle ha)
    have hwork := hc.work ha
    have hsum := sum_work_update (s := s) ht p'
    refine ⟨fun u hu => ?_, ?_⟩
    · by_cases hut : u = t
      · exact hut ▸ ht
      · exact hb u (by simpa [hut] using hu)
    · simp only [State.work, Label.advances, Function.update_self]
      omega
  | receive _ hrec hne =>
    have hlen : 0 < s.kernel.buffer.length := List.length_pos_iff.mpr hne
    refine ⟨hb, ?_⟩
    simp only [State.work, Logger.work, Label.advances, hrec, List.length_drop, if_true,
      Bool.false_eq_true, if_false, sizeofUcRxData]
    omega
  | transmit beyond hrec =>
    refine ⟨hb, ?_⟩
    simp [State.work, Logger.work, Label.advances, hrec]

def Pc.awake : Pc → Pc
  | .takeDelay c => .take c
  | .spacesDelay c => .spaces c
  | p => p

/-- Nothing but delays and retries lies between the states. -/
structure Waiting (s s' : State T) : Prop where
  started : s'.started = s.started
  kernel : s'.kernel.owner = s.kernel.owner ∧ s'.kernel.buffer = s.kernel.buffer
  received : s'.logger.received = s.logger.received
  awake : ∀ t, (s'.pc t).awake = (s.pc t).awake

theorem CallStep.waiting {t : T} {n : CString} {k k' : Kernel T} {a : Act} {p p' : Pc}
    (h : CallStep t n k a p p' k') (ha : ∀ body, a ≠ .call body) (hadv : a.advances p' = false) :
    k' = k ∧ p'.awake = p.awake := by
  cases h with
  | call body => exact absurd rfl (ha body)
  | takeTimeout | takeDelay | checkWait | spacesDelay => exact ⟨rfl, rfl⟩
  | _ => simp [Act.advances] at hadv

theorem waiting_step {l : Label T} (hl : l.body = none) (hs : s.started = true)
    (hadv : l.advances s' = false) (h : step names s l = some s') : Waiting s s' := by
  cases step_cases h with
  | early body => cases hl
  | start hf => exact absurd (hs.symm.trans hf) (by simp)
  | tick | receiveTimeout => exact ⟨rfl, ⟨rfl, rfl⟩, rfl, fun _ => rfl⟩
  | @task t a p' k' _ hc =>
    have hadv' : a.advances p' = false := by simpa [Label.advances] using hadv
    obtain ⟨rfl, hp⟩ := hc.waiting (not_call_of_body hl) hadv'
    refine ⟨rfl, ⟨rfl, rfl⟩, rfl, fun u => ?_⟩
    by_cases hut : u = t
    · subst hut
      simpa using hp
    · simp [hut]
  | receive | transmit => simp [Label.advances] at hadv

omit [DecidableEq T] in
theorem Waiting.refl (s : State T) : Waiting s s := ⟨rfl, ⟨rfl, rfl⟩, rfl, fun _ => rfl⟩

omit [DecidableEq T] in
theorem Waiting.trans {u : State T} (h : Waiting s s') (h' : Waiting s' u) : Waiting s u :=
  ⟨h'.started.trans h.started, ⟨h'.kernel.1.trans h.kernel.1, h'.kernel.2.trans h.kernel.2⟩,
    h'.received.trans h.received, fun t => (h'.awake t).trans (h.awake t)⟩

def Pc.next : Pc → Option Act
  | .idle => none
  | .formatted _ | .stamped _ _ => some .number
  | .numbered _ _ => some .stamp
  | .take _ | .takeDelay _ => some .take
  | .spaces _ | .spacesDelay _ => some .check
  | .send _ => some .send
  | .give _ => some .give

/-- The call of `t` waits neither for the mutex nor for space. -/
def State.CanGo (s : State T) (t : T) : Prop :=
  match (s.pc t).awake with
  | .idle => False
  | .take _ => s.kernel.owner = none
  | .spaces c => c.cLogitem.length ≤ s.kernel.xStreamBufferSpacesAvailable
  | _ => True

omit [DecidableEq T] in
theorem Waiting.canGo {t : T} (h : Waiting s s') (hgo : s.CanGo t) : s'.CanGo t := by
  unfold State.CanGo Kernel.xStreamBufferSpacesAvailable at hgo ⊢
  rwa [h.awake t, h.kernel.1, h.kernel.2]

theorem Pc.awake_or_delay (p : Pc) : p.awake = p ∨
    ∀ (t : T) (n : CString) (k : Kernel T), callStep t n .delay p k = some (p.awake, k) := by
  cases p with
  | takeDelay c | spacesDelay c => exact .inr fun _ _ _ => rfl
  | _ => exact .inl rfl

theorem Pc.next_awake (p : Pc) : p.awake.next = p.next := by
  cases p <;> rfl

theorem enabled_next {t : T} {a : Act} (hs : s.started = true) (hgo : s.CanGo t)
    (hp : (s.pc t).awake = s.pc t) (ha : (s.pc t).next = some a) :
    (loggingSystem names).Enabled (· = .task t a) s := by
  suffices h : ∃ p' k', callStep t (names t) a (s.pc t) s.kernel = some (p', k') by
    obtain ⟨p', k', hc⟩ := h
    exact ⟨_, _, rfl, step_task hs hc⟩
  unfold State.CanGo at hgo
  rw [hp] at hgo
  cases hpc : s.pc t with
  | idle => simp [hpc] at hgo
  | take c =>
    rw [hpc] at ha hgo
    cases ha
    exact ⟨_, _, callStep_take hgo⟩
  | spaces c =>
    rw [hpc] at ha hgo
    cases ha
    exact ⟨_, _, callStep_check (Nat.sub_eq_zero_of_le hgo)⟩
  | takeDelay c | spacesDelay c => simp [hpc, Pc.awake] at hp
  | _ =>
    rw [hpc] at ha
    cases ha
    exact ⟨_, _, rfl⟩

theorem advances_next {t : T} {a : Act} (hgo : s.CanGo t) (ha : (s.pc t).next = some a)
    (h : step names s (.task t a) = some s') : (Label.task t a).advances s' = true := by
  cases step_cases h with
  | @task _ _ p' k' _ hc =>
    simp only [Label.advances, Function.update_self]
    unfold State.CanGo at hgo
    generalize s.pc t = p at hc hgo ha
    cases hc with
    | checkWait c hlt =>
      simp only [Pc.awake] at hgo
      omega
    | takeTimeout | takeDelay | spacesDelay => simp [Pc.next] at ha
    | call body => simp [Pc.next] at ha
    | _ => rfl

theorem enabled_transmit (h : s.logger.received = true) :
    (loggingSystem names).Enabled (fun l => ∃ beyond, l = .transmit beyond) s :=
  ⟨.transmit [], _, ⟨[], rfl⟩, if_pos h⟩

theorem enabled_receive (hs : s.started = true) (hrec : s.logger.received = false)
    (hb : s.kernel.buffer ≠ []) : (loggingSystem names).Enabled (· = .receive) s := by
  refine ⟨.receive, _, rfl, if_pos ?_⟩
  simp [hs, hrec, hb]

theorem awake_of_delay {t : T} (h : step names s (.task t .delay) = some s') :
    (s'.pc t).awake = s'.pc t := by
  cases step_cases h with
  | @task _ _ p' k' _ hc =>
    simp only [Function.update_self]
    generalize s.pc t = p at hc
    cases hc <;> rfl

/-- With nothing in the buffer, the mutex holder can go, and without a holder every call. -/
theorem exists_canGo (hr : (loggingSystem names).Reachable s) (hb : s.kernel.buffer = [])
    {t : T} (ht : s.pc t ≠ .idle) : ∃ u, s.CanGo u := by
  have hroom : ∀ c : LogItem, c.cLogitem.length ≤ s.kernel.xStreamBufferSpacesAvailable := by
    intro c
    have := cLogitem_length_le c
    simp only [Kernel.xStreamBufferSpacesAvailable, hb, List.length_nil, loggingStreamBufferSize]
    omega
  have hI := reachable_inv hr
  cases ho : s.kernel.owner with
  | none =>
    refine ⟨t, ?_⟩
    unfold State.CanGo
    cases hp : s.pc t with
    | idle => exact absurd hp ht
    | take c | takeDelay c => exact ho
    | spaces c | spacesDelay c => exact hroom c
    | _ => trivial
  | some u =>
    have hold : (s.pc u).Holding := (hI.holding u).mp ho
    refine ⟨u, ?_⟩
    unfold State.CanGo
    cases hp : s.pc u with
    | spaces c | spacesDelay c => exact hroom c
    | send c | give c => trivial
    | _ => simp [hp, Pc.Holding] at hold

/-- No statement of a call and no call of the logger is possible again and again without being
executed. -/
structure Fair (b : (loggingSystem names).Behaviour) : Prop where
  call : ∀ t, ∀ a ∈ [Act.number, .stamp, .take, .delay, .check, .send, .give],
    b.StronglyFair (· = .task t a)
  receive : b.StronglyFair (· = .receive)
  transmit : b.StronglyFair fun l => ∃ beyond, l = .transmit beyond

section Fair

variable {b : (loggingSystem names).Behaviour} {n : ℕ}

theorem waiting_of_not_advances (hbody : ∀ n, (b.act n).body = none)
    (hs : (b.state n).started = true)
    (hno : ∀ m ≥ n, (b.act m).advances (b.state (m + 1)) = false) :
    ∀ m ≥ n, Waiting (b.state n) (b.state m) := by
  intro m hm
  induction m, hm using Nat.le_induction with
  | base => exact .refl _
  | succ m hm ih =>
    exact ih.trans (waiting_step (hbody m) (ih.started.trans hs) (hno m hm) (b.step m))

theorem Fair.call_advances (hfair : Fair b) (hbody : ∀ n, (b.act n).body = none)
    (hs : (b.state n).started = true) {t : T} (hgo : (b.state n).CanGo t) :
    ∃ m ≥ n, (b.act m).advances (b.state (m + 1)) = true := by
  by_contra hnone
  have hno : ∀ m ≥ n, (b.act m).advances (b.state (m + 1)) = false := fun m hm =>
    Bool.eq_false_iff.mpr fun h => hnone ⟨m, hm, h⟩
  have hw := waiting_of_not_advances hbody hs hno
  have hgo' : ∀ m ≥ n, (b.state m).CanGo t := fun m hm => (hw m hm).canGo hgo
  have hs' : ∀ m ≥ n, (b.state m).started = true := fun m hm => (hw m hm).started.trans hs
  have hnext : ∀ m ≥ n, ((b.state m).pc t).next = ((b.state n).pc t).next := fun m hm => by
    rw [← Pc.next_awake, (hw m hm).awake t, Pc.next_awake]
  -- as nothing advances, the call stays at one statement, awake in front of it or a delay away
  obtain ⟨a, ha, hmem⟩ : ∃ a, ((b.state n).pc t).next = some a ∧
      a ∈ [Act.number, .stamp, .take, .delay, .check, .send, .give] := by
    unfold State.CanGo at hgo
    cases hp : (b.state n).pc t with
    | idle => simp [hp, Pc.awake] at hgo
    | _ => exact ⟨_, rfl, by decide⟩
  have henabled : ∀ m ≥ n, (loggingSystem names).Enabled (· = .task t a) (b.state m) ∨
      (loggingSystem names).Enabled (· = .task t .delay) (b.state m) := by
    intro m hm
    rcases Pc.awake_or_delay (T := T) ((b.state m).pc t) with hp | hd
    · exact .inl (enabled_next (hs' m hm) (hgo' m hm) hp ((hnext m hm).trans ha))
    · exact .inr ⟨_, _, rfl, step_task (hs' m hm) (hd t (names t) _)⟩
  have hretry : ∀ m ≥ n, b.act m = .task t .delay →
      (loggingSystem names).Enabled (· = .task t a) (b.state (m + 1)) := by
    intro m hm hact
    have hm' : m + 1 ≥ n := Nat.le_succ_of_le hm
    have hstep : step names (b.state m) (.task t .delay) = some (b.state (m + 1)) :=
      hact ▸ b.step m
    refine enabled_next (hs' _ hm') (hgo' _ hm') (awake_of_delay hstep) ((hnext _ hm').trans ha)
  obtain ⟨m, hm, hact⟩ :=
    (hfair.call t a hmem).of_retry (hfair.call t .delay (by decide)) henabled hretry
  have hstep : step names (b.state m) (.task t a) = some (b.state (m + 1)) := hact ▸ b.step m
  have hadv := advances_next (hgo' m hm) ((hnext m hm).trans ha) hstep
  rw [← hact, hno m hm] at hadv
  cases hadv

theorem Fair.logger_advances (hfair : Fair b) (hbody : ∀ n, (b.act n).body = none)
    (hs : (b.state n).started = true)
    (hlog : (b.state n).logger.received = true ∨ (b.state n).kernel.buffer ≠ []) :
    ∃ m ≥ n, (b.act m).advances (b.state (m + 1)) = true := by
  by_contra hnone
  have hno : ∀ m ≥ n, (b.act m).advances (b.state (m + 1)) = false := fun m hm =>
    Bool.eq_false_iff.mpr fun h => hnone ⟨m, hm, h⟩
  have hw := waiting_of_not_advances hbody hs hno
  by_cases hrec : (b.state n).logger.received = true
  · obtain ⟨m, hm, beyond, hact⟩ := hfair.transmit.of_enabled (n := n) fun m hm =>
      enabled_transmit ((hw m hm).received.trans hrec)
    have hadv := hno m hm
    rw [hact] at hadv
    cases hadv
  · have hbuf := hlog.resolve_left hrec
    obtain ⟨m, hm, hact⟩ := hfair.receive.of_enabled (n := n) fun m hm =>
      enabled_receive ((hw m hm).started.trans hs)
        ((hw m hm).received.trans (Bool.eq_false_iff.mpr hrec)) ((hw m hm).kernel.2 ▸ hbuf)
    have hadv := hno m hm
    rw [hact] at hadv
    cases hadv

theorem started_of_not_settled (hr : (loggingSystem names).Reachable s) (h : ¬ s.Settled) :
    s.started = true := by
  by_contra hs
  have hq := reachable_quiet hr (Bool.eq_false_iff.mpr hs)
  exact h ⟨hq.idle, hq.buffer, hq.received⟩

theorem Fair.advances (hfair : Fair b) (hbody : ∀ n, (b.act n).body = none)
    (hr : (loggingSystem names).Reachable (b.state n)) (hn : ¬ (b.state n).Settled) :
    ∃ m ≥ n, (b.act m).advances (b.state (m + 1)) = true := by
  have hs := started_of_not_settled hr hn
  by_cases hlog : (b.state n).logger.received = true ∨ (b.state n).kernel.buffer ≠ []
  · exact hfair.logger_advances hbody hs hlog
  · push Not at hlog
    obtain ⟨hrec, hbuf⟩ := hlog
    have hbusy : ∃ t, (b.state n).pc t ≠ .idle := by
      by_contra hidle
      push Not at hidle
      exact hn ⟨hidle, hbuf, Bool.eq_false_iff.mpr hrec⟩
    obtain ⟨t, ht⟩ := hbusy
    obtain ⟨u, hu⟩ := exists_canGo hr hbuf ht
    exact hfair.call_advances hbody hs hu

end Fair

/-- The step, if it gets a pending call or the logger on. -/
def progress (names : T → CString) (s : State T) (l : Label T) : List (Label T) :=
  if (step names s l).any fun s' => l.advances s' then [l] else []

theorem progress_length {l : Label T} (h : step names s l = some s') :
    (progress names s l).length = if l.advances s' then 1 else 0 := by
  rw [progress, h, Option.any_some]
  split <;> rfl

theorem settled_or_canAdvance (hr : (loggingSystem names).Reachable s) :
    s.Settled ∨ CanAdvance names s := by
  by_cases hset : s.Settled
  · exact .inl hset
  · right
    have hs := started_of_not_settled hr hset
    by_cases hidle : ∀ t, s.pc t = .idle
    · by_cases hrec : s.logger.received = true
      · exact canAdvance_of_step (l := .transmit []) (if_pos hrec) rfl
      · refine logger_canAdvance hs fun hbuf => hset ⟨hidle, hbuf, Bool.eq_false_iff.mpr hrec⟩
    · push Not at hidle
      obtain ⟨t, ht⟩ := hidle
      exact busy_canAdvance hr ht

/-- Once the tasks stop calling, logging finishes. A run has no more than 514 steps for each
unfinished call, two for each byte in the buffer and one for a chunk in the logger's hands that
get anything on; while anything is left such a step is possible after at most one delay; and a
fair run comes to a state, and stays there, in which all calls have returned, each with its
record sent once, and all bytes have been written. -/
theorem logging_drains (h : (loggingSystem names).Reachable s)
    (hb : ∀ t, s.pc t ≠ .idle → t ∈ busy) :
    (∀ ls s', (loggingSystem names).exec s ls = some s' → (∀ l ∈ ls, l.body = none) →
      ((loggingSystem names).trace (progress names) s ls).length ≤
          514 * busy.card + 2 * s.kernel.buffer.length + 1 ∧
        (s'.Settled ∨ CanAdvance names s')) ∧
    ∀ b : (loggingSystem names).Behaviour, b.state 0 = s → (∀ n, (b.act n).body = none) →
      Fair b → ∃ n, ∀ m ≥ n, (b.state m).Settled ∧ ∀ t, (b.state m).kernel.hist.called t =
        ((b.state m).kernel.hist.sentBy t).map LogItem.body := by
  refine ⟨fun ls s' hexec hls => ⟨?_, settled_or_canAdvance (h.exec hexec)⟩, ?_⟩
  · have hrun := TransitionSystem.exec_trace_length (M := loggingSystem names)
      (I := BusyIn busy) (P := fun l => l.body = none) (g := progress names) (State.work busy)
      (fun u l v hu hl (hv : step names u l = some v) => ?_) hb hls hexec
    · have hle : s.work busy ≤ _ := work_le s
      omega
    · rw [progress_length hv]
      exact work_step hu hl hv
  · intro b h0 hbody hfair
    -- fairness takes the work down to zero, and from there it cannot grow
    have hreach : ∀ n, (loggingSystem names).Reachable (b.state n) :=
      b.invariant (h0 ▸ h) fun n hn hstep => hn.step trivial hstep
    have hbusy : ∀ n, BusyIn busy (b.state n) :=
      b.invariant (h0 ▸ hb) fun n hn hstep => (work_step hn (hbody n) hstep).1
    have hwork : ∀ n, (b.state (n + 1)).work busy +
        (if (b.act n).advances (b.state (n + 1)) then 1 else 0) ≤ (b.state n).work busy :=
      fun n => (work_step (hbusy n) (hbody n) (b.step n)).2
    have hmono : ∀ n, (b.state (n + 1)).work busy ≤ (b.state n).work busy :=
      fun n => (Nat.le_add_right _ _).trans (hwork n)
    obtain ⟨n, hn⟩ := b.eventually (Q := State.Settled) (State.work busy) hmono fun n hn => by
      obtain ⟨m, hm, hadv⟩ := hfair.advances hbody (hreach n) hn
      have hlt := hwork m
      rw [if_pos hadv] at hlt
      exact ⟨m, hm, hlt⟩
    refine ⟨n, fun m hm => ?_⟩
    have hzero : (b.state m).work busy = 0 := by
      have hle : (b.state m).work busy ≤ (b.state n).work busy := b.measure_antitone hmono hm
      rw [(settled_iff_work (hbusy n)).mp hn] at hle
      exact Nat.le_zero.mp hle
    have hset := (settled_iff_work (hbusy m)).mpr hzero
    refine ⟨hset, fun t => ?_⟩
    rw [(reachable_inv (hreach m)).called t, hset.idle t]
    exact List.append_nil _

end Work

theorem not_enabled_of_settled (h : s.Settled) :
    (∀ t, ∀ a ∈ [Act.number, .stamp, .take, .delay, .check, .send, .give],
      ¬ (loggingSystem names).Enabled (· = .task t a) s) ∧
    ¬ (loggingSystem names).Enabled (· = .receive) s ∧
    ¬ (loggingSystem names).Enabled (fun l => ∃ beyond, l = .transmit beyond) s := by
  refine ⟨fun t a ha => ?_, ?_, ?_⟩
  · rintro ⟨l, s', rfl, hstep⟩
    have hstep' : step names s (.task t a) = some s' := hstep
    cases step_cases hstep' with
    | task _ _ _ hc =>
      rw [h.idle t] at hc
      cases hc
      simp at ha
  · rintro ⟨l, s', rfl, hstep⟩
    have hstep' : step names s .receive = some s' := hstep
    cases step_cases hstep' with
    | receive _ _ hbuf => exact hbuf h.buffer
  · rintro ⟨l, s', ⟨beyond, rfl⟩, hstep⟩
    have hstep' : step names s (.transmit beyond) = some s' := hstep
    cases step_cases hstep' with
    | transmit _ hrec => exact absurd (h.received.symm.trans hrec) (by simp)

theorem fair_of_settled {b : (loggingSystem names).Behaviour} {n : ℕ}
    (h : ∀ m ≥ n, (b.state m).Settled) : Fair b where
  call t a ha := .of_disabled fun m hm => (not_enabled_of_settled (h m hm)).1 t a ha
  receive := .of_disabled fun m hm => (not_enabled_of_settled (h m hm)).2.1
  transmit := .of_disabled fun m hm => (not_enabled_of_settled (h m hm)).2.2

/-- The record of `A` enters the buffer while `B` tries again for the mutex. -/
def sendAndRetry : List (Label Bool) :=
  [.task false .delay, .task true .send, .task false .takeTimeout, .receive, .task true .give]

def finish : List (Label Bool) :=
  .task false .delay :: emitRecord false ++ [.transmit []] ++
    (List.replicate 5 [.receive, .transmit []]).flatten

/-- Two unfinished calls, in a run that goes on with ticks for ever. -/
theorem logging_drains_contention :
    ∃ s s', (loggingSystem twoNames).exec startState contention = some s ∧
      (loggingSystem twoNames).exec s sendAndRetry = some s' ∧
      ((loggingSystem twoNames).trace (progress twoNames) s sendAndRetry).length ≤ 1029 ∧
      (s'.Settled ∨ CanAdvance twoNames s') ∧
      ∃ b : (loggingSystem twoNames).Behaviour, b.state 0 = s ∧
        (∀ n, b.act n = (sendAndRetry ++ finish).getD n .tick) ∧
        ∃ n, ∀ m ≥ n, (b.state m).Settled ∧ ∀ t, (b.state m).kernel.hist.called t =
          ((b.state m).kernel.hist.sentBy t).map LogItem.body := by
  have hrun : ((loggingSystem twoNames).exec startState contention).map
      (fun s => (s.kernel.buffer, ((loggingSystem twoNames).exec s sendAndRetry).isSome)) =
        some ([], true) := by decide
  obtain ⟨s, hs, hreach, hproj⟩ := startState_reachable.exec_map hrun
  obtain ⟨hbuf, hsome⟩ := Prod.mk.inj hproj
  obtain ⟨s', hs'⟩ := Option.isSome_iff_exists.mp hsome
  have hrest : ((loggingSystem twoNames).exec s (sendAndRetry ++ finish)).map
      (fun u => (u.started, u.pc true, u.pc false, u.kernel.buffer, u.logger.received)) =
        some (true, .idle, .idle, [], false) := by
    have hall : ((loggingSystem twoNames).exec startState
        (contention ++ (sendAndRetry ++ finish))).map
          (fun u => (u.started, u.pc true, u.pc false, u.kernel.buffer, u.logger.received)) =
        some (true, .idle, .idle, [], false) := by
      decide +kernel
    rwa [TransitionSystem.exec_append, hs, Option.bind_some] at hall
  obtain ⟨u, hu, hlast⟩ := Option.map_eq_some_iff.mp hrest
  simp only [Prod.mk.injEq] at hlast
  obtain ⟨hstarted, htrue, hfalse, hbuffer, hreceived⟩ := hlast
  have hbusy : ∀ t, s.pc t ≠ .idle → t ∈ ({true, false} : Finset Bool) := fun t _ => by
    cases t <;> decide
  have hdrain := (logging_drains hreach hbusy).1 sendAndRetry s' hs' (by decide)
  rw [hbuf] at hdrain
  -- ticks leave a settled state as it is
  have htick : ∀ v : State Bool, v.started = true ∧ v.Settled →
      ∃ w, (loggingSystem twoNames).step v .tick = some w ∧ w.started = true ∧ w.Settled :=
    fun v ⟨hv, hset⟩ => ⟨_, if_pos hv, hv, { hset with }⟩
  have hsettled : u.Settled := ⟨fun t => by cases t <;> assumption, hbuffer, hreceived⟩
  obtain ⟨b, hb, hact, hticks⟩ :=
    TransitionSystem.Behaviour.exists_of_exec htick hu ⟨hstarted, hsettled⟩
  have hfair : Fair b := fair_of_settled fun m hm => (hticks m hm).2
  have hbody : ∀ n, (b.act n).body = none := by
    have hall : ∀ l ∈ sendAndRetry ++ finish, l.body = none := by decide
    intro n
    rw [hact, List.getD_eq_getElem?_getD]
    cases hl : (sendAndRetry ++ finish)[n]? with
    | none => rfl
    | some l => exact hall l (List.mem_of_getElem? hl)
  exact ⟨s, s', hs, hs', hdrain.1, hdrain.2, b, hb, hact,
    (logging_drains hreach hbusy).2 b hb hbody hfair⟩

end Stm32f7Renode.Logging
