import Stm32f7Renode.LoggingInvariant

namespace Stm32f7Renode.Logging
open WireText

variable {T : Type*} [DecidableEq T] {names : T → CString} {s s' : State T}

def Pc.AwaitsSpace (c : LogItem) : Pc → Prop
  | .spaces d | .spacesDelay d => d = c
  | _ => False

/-- How many bytes the record lacks; the guard of the loop is false when this is zero. -/
def State.shortfall (s : State T) (c : LogItem) : ℕ :=
  c.cLogitem.length - s.kernel.xStreamBufferSpacesAvailable

/-- The holder's next statement is not another round of the wait. -/
def State.HolderReady (s : State T) (t : T) : Prop :=
  match s.pc t with
  | .spaces c | .spacesDelay c => s.shortfall c = 0
  | .send _ | .give _ => True
  | _ => False

/-- The step of a call, to `p'`, gets the call on, unlike timeouts, delays and rounds of the
wait. -/
def Act.advances (a : Act) (p' : Pc) : Bool :=
  match a, p' with
  | .call _, _ | .takeTimeout, _ | .delay, _ => false
  | .check, .send _ => true
  | .check, _ => false
  | _, _ => true

def Label.advances (l : Label T) (s' : State T) : Bool :=
  match l with
  | .task t a => a.advances (s'.pc t)
  | .receive | .transmit _ => true
  | _ => false

omit [DecidableEq T] in
theorem Pc.AwaitsSpace.unsent {p : Pc} {c : LogItem} (h : p.AwaitsSpace c) : p.unsent = some c := by
  cases p <;> simp_all [Pc.AwaitsSpace, Pc.unsent]

theorem Pc.holding_of_unsent {p : Pc} {c : LogItem} (h : p.unsent = some c) : p.Holding := by
  cases p <;> simp_all [Pc.unsent, Pc.Holding]

/-- While a record is unsent, its holder keeps it and only the logger touches the buffer. -/
theorem unsent_step {t : T} {c : LogItem} {l : Label T} (hr : (loggingSystem names).Reachable s)
    (hc : (s.pc t).unsent = some c) (hl : l ≠ .task t .send) (h : step names s l = some s') :
    (s'.pc t).unsent = some c ∧ (l ≠ .receive → s'.kernel.buffer = s.kernel.buffer) := by
  have hI := reachable_inv hr
  have ho : s.kernel.owner = some t := (hI.holding t).mpr (Pc.holding_of_unsent hc)
  cases step_cases h with
  | task u a _ hs =>
    by_cases hut : t = u
    · subst hut
      rcases hs.effect with ⟨hsame, hun, -⟩ | ⟨d, hp, -, -, -⟩ | ⟨d, rfl, -⟩ | ⟨d, hp, -, -⟩
      · exact ⟨by simp [hun, hc], fun _ => hsame.buffer⟩
      · rw [hp] at hc
        exact absurd hc (by simp [Pc.unsent])
      · exact absurd rfl hl
      · rw [hp] at hc
        exact absurd hc (by simp [Pc.unsent])
    · refine ⟨by simpa [hut] using hc, fun _ => ?_⟩
      rcases hs.effect with ⟨hsame, -, -⟩ | ⟨d, -, -, -, rfl⟩ | ⟨d, -, hp, -, -⟩ | ⟨d, -, -, rfl⟩
      · exact hsame.buffer
      · rfl
      · -- a second task at its send would hold the mutex as well
        exact absurd (Option.some.inj (ho.symm.trans (hI.owner_of_send hp))) hut
      · rfl
  | receive => exact ⟨hc, fun hn => absurd rfl hn⟩
  | _ => exact ⟨hc, fun _ => rfl⟩

theorem shortfall_step {t : T} {c : LogItem} {l : Label T} (hr : (loggingSystem names).Reachable s)
    (hc : (s.pc t).unsent = some c) (hl : l ≠ .task t .send) (h : step names s l = some s') :
    s'.shortfall c ≤ s.shortfall c - if l = .receive then 4 else 0 := by
  by_cases hrec : l = .receive
  · subst hrec
    have hb := (reachable_inv hr).bounded
    have hlen := cLogitem_length_le c
    cases step_cases h
    simp only [State.shortfall, Kernel.xStreamBufferSpacesAvailable, List.length_drop, if_true,
      sizeofUcRxData, loggingStreamBufferSize] at hb ⊢
    omega
  · have hbuf := (unsent_step hr hc hl h).2 hrec
    simp [State.shortfall, Kernel.xStreamBufferSpacesAvailable, hbuf, hrec]

theorem shortfall_run {t : T} {c : LogItem} {ls : List (Label T)}
    (hr : (loggingSystem names).Reachable s) (hc : (s.pc t).unsent = some c)
    (hl : Label.task t .send ∉ ls) (h : (loggingSystem names).exec s ls = some s') :
    (s'.pc t).unsent = some c ∧ s'.shortfall c ≤ s.shortfall c - 4 * ls.count .receive := by
  have hrun := TransitionSystem.exec_invariant (M := loggingSystem names)
    (I := fun u bs => (loggingSystem names).Reachable u ∧ (u.pc t).unsent = some c ∧
      u.shortfall c ≤ s.shortfall c - 4 * bs.count .receive)
    ⟨hr, hc, by simp⟩ (fun u v bs l hp ⟨hu, huc, hus⟩ hv => ?_) h
  · exact hrun.2
  · have hne : l ≠ .task t .send := fun he => hl (hp.subset (by simp [he]))
    have hv' : step names u l = some v := hv
    refine ⟨hu.step trivial hv, (unsent_step hu huc hne hv').1, ?_⟩
    have hs := shortfall_step hu huc hne hv'
    rw [List.count_append, List.count_singleton]
    by_cases hrec : l = .receive
    · simp only [hrec, if_true, beq_self_eq_true] at hs ⊢
      omega
    · simp only [hrec, if_false, beq_eq_false_iff_ne.mpr hrec] at hs ⊢
      simp only [Bool.false_eq_true, if_false]
      omega

theorem started_of_busy (hr : (loggingSystem names).Reachable s) {t : T} (ht : s.pc t ≠ .idle) :
    s.started = true := by
  by_contra hs
  exact ht ((reachable_quiet hr (Bool.eq_false_iff.mpr hs)).idle t)

theorem holder_cases {p : Pc} (h : p.Holding) :
    (∃ c, p.AwaitsSpace c) ∨ (∃ c, p = .send c) ∨ ∃ c, p = .give c := by
  cases p <;> simp_all [Pc.Holding, Pc.AwaitsSpace]

omit [DecidableEq T] in
theorem buffer_ne_nil_of_shortfall {c : LogItem} (h : s.shortfall c ≠ 0) :
    s.kernel.buffer ≠ [] := by
  intro hb
  have hlen := cLogitem_length_le c
  simp only [State.shortfall, Kernel.xStreamBufferSpacesAvailable, hb, List.length_nil,
    loggingStreamBufferSize] at h
  omega

/-- Whenever a call is unfinished, the mutex is free, its holder can go on, or the logger has
bytes to drain. -/
theorem mutex_or_drain (hr : (loggingSystem names).Reachable s) :
    s.kernel.owner = none ∨ (∃ t, s.kernel.owner = some t ∧ s.HolderReady t) ∨
      s.kernel.buffer ≠ [] := by
  cases ho : s.kernel.owner with
  | none => exact .inl rfl
  | some t =>
    right
    rcases holder_cases (((reachable_inv hr).holding t).mp ho) with ⟨c, hc⟩ | ⟨c, hc⟩ | ⟨c, hc⟩
    · by_cases hz : s.shortfall c = 0
      · refine .inl ⟨t, rfl, ?_⟩
        cases hp : s.pc t <;> simp_all [Pc.AwaitsSpace, State.HolderReady]
      · exact .inr (buffer_ne_nil_of_shortfall hz)
    · exact .inl ⟨t, rfl, by simp [State.HolderReady, hc]⟩
    · exact .inl ⟨t, rfl, by simp [State.HolderReady, hc]⟩

theorem step_task {t : T} {a : Act} {p' : Pc} {k' : Kernel T} (hs : s.started = true)
    (h : callStep t (names t) a (s.pc t) s.kernel = some (p', k')) :
    step names s (.task t a) =
      some { s with pc := Function.update s.pc t p', kernel := k' } := by
  simp [step, hs, h]

theorem callStep_take {t : T} {n : CString} {c : LogItem} {k : Kernel T} (ho : k.owner = none) :
    callStep t n .take (.take c) k = some (.spaces c, k.grant t c) := by
  simp [callStep, ho]

theorem callStep_check {t : T} {n : CString} {c : LogItem} (hz : s.shortfall c = 0) :
    callStep t n .check (.spaces c) s.kernel = some (.send c, s.kernel) := by
  unfold State.shortfall at hz
  rw [callStep, if_neg (by omega)]

theorem step_send_of_awaitsSpace {t : T} {c : LogItem} (hc : (s.pc t).AwaitsSpace c) :
    step names s (.task t .send) = none := by
  simp only [step]
  split
  · cases hp : s.pc t <;> simp_all [Pc.AwaitsSpace, callStep]
  · rfl

/-- After at most one delay some step is possible that gets a call or the logger on. -/
def CanAdvance (names : T → CString) (s : State T) : Prop :=
  ∃ ls u l s', ls.length ≤ 1 ∧ (∀ l ∈ ls, ∃ t, l = Label.task t .delay) ∧
    (loggingSystem names).exec s ls = some u ∧ step names u l = some s' ∧ l.advances s' = true

theorem canAdvance_of_step {l : Label T} (h : step names s l = some s')
    (ha : l.advances s' = true) : CanAdvance names s :=
  ⟨[], s, l, s', by simp, by simp, rfl, h, ha⟩

theorem canAdvance_of_call {t : T} {a : Act} {p' : Pc} {k' : Kernel T} (hs : s.started = true)
    (h : callStep t (names t) a (s.pc t) s.kernel = some (p', k')) (ha : a.advances p' = true) :
    CanAdvance names s :=
  canAdvance_of_step (step_task hs h) (by simpa [Label.advances] using ha)

theorem canAdvance_of_delay {t : T} {a : Act} {p p' : Pc} {k' : Kernel T} (hs : s.started = true)
    (hd : callStep t (names t) .delay (s.pc t) s.kernel = some (p, s.kernel))
    (h : callStep t (names t) a p s.kernel = some (p', k'))
    (ha : a.advances p' = true) : CanAdvance names s := by
  let u : State T := { s with pc := Function.update s.pc t p }
  have hu : callStep t (names t) a (u.pc t) u.kernel = some (p', k') := by
    simpa only [u, Function.update_self] using h
  refine ⟨[.task t .delay], u, .task t a, _, by simp, by simp, ?_, step_task hs hu, ?_⟩
  · exact TransitionSystem.exec_cons_some.mpr ⟨u, step_task hs hd, rfl⟩
  · simpa [Label.advances] using ha

theorem logger_canAdvance (hs : s.started = true) (hb : s.kernel.buffer ≠ []) :
    CanAdvance names s := by
  by_cases hrec : s.logger.received = true
  · exact canAdvance_of_step (l := .transmit []) (by simp [step, hrec]; rfl) rfl
  · exact canAdvance_of_step (l := .receive) (by simp [step, hs, hrec, hb]; rfl) rfl

theorem busy_canAdvance (hr : (loggingSystem names).Reachable s) {t : T} (ht : s.pc t ≠ .idle) :
    CanAdvance names s := by
  have hs := started_of_busy hr ht
  rcases mutex_or_drain hr with ho | ⟨u, ho, hu⟩ | hb
  · -- the mutex is free, so `t` is in front of its take
    have hn : ¬ (s.pc t).Holding := by
      rw [← (reachable_inv hr).holding t, ho]
      simp
    cases hp : s.pc t with
    | idle => exact absurd hp ht
    | formatted body =>
      exact canAdvance_of_call (t := t) (a := .number) hs (by rw [hp, callStep]) rfl
    | numbered n body =>
      exact canAdvance_of_call (t := t) (a := .stamp) hs (by rw [hp, callStep]) rfl
    | stamped n body =>
      exact canAdvance_of_call (t := t) (a := .number) hs (by rw [hp, callStep]) rfl
    | take c => exact canAdvance_of_call (t := t) (a := .take) hs (by rw [hp, callStep_take ho]) rfl
    | takeDelay c => exact canAdvance_of_delay hs (by rw [hp, callStep]) (callStep_take ho) rfl
    | spaces c | spacesDelay c | send c | give c => exact absurd (hp ▸ trivial) hn
  · cases hp : s.pc u with
    | spaces c =>
      have hz : s.shortfall c = 0 := by simpa [State.HolderReady, hp] using hu
      exact canAdvance_of_call (t := u) (a := .check) hs (by rw [hp, callStep_check hz]) rfl
    | spacesDelay c =>
      have hz : s.shortfall c = 0 := by simpa [State.HolderReady, hp] using hu
      exact canAdvance_of_delay hs (by rw [hp, callStep]) (callStep_check hz) rfl
    | send c => exact canAdvance_of_call (t := u) (a := .send) hs (by rw [hp, callStep]) rfl
    | give c => exact canAdvance_of_call (t := u) (a := .give) hs (by rw [hp, callStep]) rfl
    | _ => simp [State.HolderReady, hp] at hu
  · exact logger_canAdvance hs hb

/-- A task in the space loop holds the mutex and a record of at most 254 bytes; until its own
send nothing but a receive touches the buffer, the shortfall falls by four with each receive and
never grows; and no reachable state leaves an unfinished call and the logger without a move. -/
theorem logging_never_stuck (h : (loggingSystem names).Reachable s) :
    (∀ t c, (s.pc t).AwaitsSpace c → s.kernel.owner = some t ∧ c.cLogitem.length ≤ 254) ∧
    (∀ t c, (s.pc t).AwaitsSpace c →
      (∀ l s', step names s l = some s' → l ≠ .receive → s'.kernel.buffer = s.kernel.buffer) ∧
      ∀ ls s', (loggingSystem names).exec s ls = some s' → Label.task t .send ∉ ls →
        (s'.pc t).unsent = some c ∧
        s'.shortfall c ≤ s.shortfall c - 4 * ls.count .receive ∧
        ((s.shortfall c + 3) / 4 ≤ ls.count .receive →
          c.cLogitem.length ≤ s'.kernel.xStreamBufferSpacesAvailable)) ∧
    ((∃ t, s.pc t ≠ .idle) →
      (s.kernel.owner = none ∨ (∃ t, s.kernel.owner = some t ∧ s.HolderReady t) ∨
        s.kernel.buffer ≠ []) ∧ CanAdvance names s) := by
  refine ⟨fun t c hc => ?_, fun t c hc => ⟨fun l s' hs hl => ?_, fun ls s' hs hl => ?_⟩, ?_⟩
  · exact ⟨((reachable_inv h).holding t).mpr (Pc.holding_of_unsent hc.unsent), cLogitem_length_le c⟩
  · refine (unsent_step h hc.unsent ?_ hs).2 hl
    rintro rfl
    exact absurd (hs.symm.trans (step_send_of_awaitsSpace hc)) (by simp)
  · obtain ⟨hun, hsf⟩ := shortfall_run h hc.unsent hl hs
    refine ⟨hun, hsf, fun hcount => ?_⟩
    unfold State.shortfall at *
    omega
  · rintro ⟨t, ht⟩
    exact ⟨mutex_or_drain h, busy_canAdvance h ht⟩

def longBody : CString := ⟨List.replicate 244 0x78, by decide⟩

/-- Seven records of 254 bytes fill the buffer so far that the eighth has to wait. -/
def fillRun : List (Label Bool) :=
  let form := [.task true (.call longBody), .task true .number, .task true .stamp]
  .start :: (List.replicate 7 (form ++ emitRecord true)).flatten ++
    form ++ [.task true .take, .task true .check]

theorem logging_never_stuck_full :
    ∃ s, (loggingSystem twoNames).exec startState fillRun = some s ∧
      s.kernel.buffer.length = 1778 ∧ (s.pc true).AwaitsSpace ⟨7, 0, twoNames true, longBody⟩ ∧
      s.kernel.owner = some true ∧ CanAdvance twoNames s := by
  have hrun : ((loggingSystem twoNames).exec startState fillRun).map
      (fun s => (s.kernel.buffer.length, s.pc true)) =
        some (1778, .spacesDelay ⟨7, 0, twoNames true, longBody⟩) := by decide +kernel
  obtain ⟨s, hs, hreach, hproj⟩ := startState_reachable.exec_map hrun
  obtain ⟨hlen, hpc⟩ := Prod.mk.inj hproj
  have hwait : (s.pc true).AwaitsSpace ⟨7, 0, twoNames true, longBody⟩ := by
    rw [hpc]
    rfl
  have hmain := logging_never_stuck hreach
  exact ⟨s, hs, hlen, hwait, (hmain.1 true _ hwait).1, (hmain.2.2 ⟨true, by simp [hpc]⟩).2⟩

end Stm32f7Renode.Logging
