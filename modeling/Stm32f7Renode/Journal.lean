import Stm32f7Renode.LoggingUart

namespace Stm32f7Renode.Logging
open WireText

/-- The lines of a text; `none` stands for a line that does not decode. -/
def journal (text : List Byte) : List (Option Decoded) := (cutAfter CR LF text).1.map decode

/-- The bodies that a text has under one task name. -/
def journalOf (name : CString) (text : List Byte) : List (List Byte) :=
  (((journal text).filterMap id).filter fun d => d.name = name.bytes).map Decoded.body

def LogItem.decoded (c : LogItem) : Decoded :=
  { number := c.xMessageNumber.toNat, tick := c.tickCount.toNat, name := c.pcTaskName.bytes,
    body := c.body.bytes }

/-- A task name that the kernel can hold and that the line protocol can carry. -/
structure PlainName (name : CString) : Prop where
  length : name.bytes.length < configMaxTaskNameLen
  bracket : 0x5d ∉ name.bytes
  cr : CR ∉ name.bytes
  lf : LF ∉ name.bytes

/-- A body that fits in the record for every number, tick count and task name, without a
terminator inside. -/
structure Printable (body : CString) : Prop where
  clean : NoPair CR LF body.bytes
  short : body.bytes.length ≤ 218

instance (body : CString) : Decidable (Printable body) :=
  decidable_of_iff (body.bytes.IsChain (fun a b => ¬ (a = CR ∧ b = LF)) ∧
    body.bytes.length ≤ 218) ⟨fun h => ⟨h.1, h.2⟩, fun h => ⟨h.clean, h.short⟩⟩

theorem printable_of_no_cr {body : CString} (hcr : CR ∉ body.bytes)
    (hlen : body.bytes.length ≤ 218) : Printable body := by
  refine ⟨?_, hlen⟩
  have h := noPair_append (t := []) hcr List.isChain_nil
  rwa [List.append_nil] at h

structure LogItem.Plain (c : LogItem) : Prop where
  name : PlainName c.pcTaskName
  body : Printable c.body

theorem plainName_pcNoTask : PlainName pcNoTask := by
  constructor <;> decide

variable {c : LogItem} {l : List LogItem}

def LogItem.Plain.wireCall (h : c.Plain) : WireCall :=
  { c with
    name_length := h.name.length
    name_bracket := h.name.bracket
    name_cr := h.name.cr
    name_lf := h.name.lf
    body_clean := h.body.clean }

theorem LogItem.Plain.completeLine_length_le (h : c.Plain) : c.completeLine.length ≤ 254 :=
  Logging.completeLine_length_le c h.name.length h.body.short

theorem cutAfter_records (h : ∀ c ∈ l, c.Plain) :
    cutAfter CR LF (l.flatMap LogItem.cLogitem) = (l.map LogItem.completeLine, []) := by
  let line (c : LogItem) := envelope c.xMessageNumber c.tickCount c.pcTaskName.bytes ++ c.body.bytes
  have htext : l.flatMap LogItem.cLogitem = (l.map line).flatMap fun s => s ++ [CR, LF] := by
    rw [List.flatMap_map]
    exact List.flatMap_congr fun c hc => cLogitem_of_fits c (h c hc).completeLine_length_le
  have hclean : ∀ s ∈ l.map line, NoPair CR LF s := by
    intro s hs
    obtain ⟨c, hc, rfl⟩ := List.mem_map.mp hs
    exact noPair_envelope_append (h c hc).wireCall (h c hc).body.clean
  rw [htext, cutAfter_lines (by decide) _ hclean, List.map_map]
  rfl

theorem decode_records (h : ∀ c ∈ l, c.Plain) :
    (l.map LogItem.completeLine).map decode = l.map fun c => some c.decoded := by
  rw [List.map_map]
  exact List.map_congr_left fun c hc => decode_completeLine (h c hc).wireCall

theorem journal_records (h : ∀ c ∈ l, c.Plain) :
    journal (l.flatMap LogItem.cLogitem) = l.map fun c => some c.decoded := by
  rw [journal, cutAfter_records h, decode_records h]

/-- A reader that has seen only a part of the text has read only a part of the records. -/
theorem journal_isPrefix (h : ∀ c ∈ l, c.Plain) {text : List Byte}
    (ht : text <+: l.flatMap LogItem.cLogitem) :
    journal text <+: l.map fun c => some c.decoded := by
  obtain ⟨rest, hrest⟩ := ht
  have hcut := cutAfter_isPrefix (x := CR) (y := LF) text rest
  rw [hrest, cutAfter_records h] at hcut
  rw [← decode_records h]
  exact hcut.map decode

theorem filterMap_decoded (l : List LogItem) :
    (l.map fun c => some c.decoded).filterMap id = l.map LogItem.decoded := by
  rw [List.filterMap_map]
  exact congrFun List.filterMap_eq_map l

section Runs

variable {T : Type*}

def Label.body : Label T → Option CString
  | .early body => some body
  | .task _ (.call body) => some body
  | _ => none

def PrintsPlain (_ : State T) (l : Label T) : Prop := ∀ body ∈ l.body, Printable body

instance (s : State T) (l : Label T) : Decidable (PrintsPlain s l) :=
  inferInstanceAs (Decidable (∀ body ∈ l.body, Printable body))

variable [DecidableEq T] {names : T → CString} {s s' : State T}

theorem CallStep.printed {t : T} {n : CString} {a : Act} {k k' : Kernel T} {p p' : Pc}
    (h : CallStep t n k a p p' k') :
    k'.hist.direct = k.hist.direct ∧ ∀ u, ∀ b ∈ k'.hist.called u,
      b ∈ k.hist.called u ∨ (Label.task t a).body = some b := by
  cases h with
  | call body =>
    refine ⟨rfl, fun u b hb => ?_⟩
    by_cases hu : u = t
    · subst hu
      simp only [Kernel.logCall, Function.update_self, List.mem_append, List.mem_singleton] at hb
      exact hb.imp_right fun he => congrArg some he.symm
    · simp only [Kernel.logCall, Function.update_of_ne hu] at hb
      exact .inl hb
  | _ => exact ⟨rfl, fun _ _ hb => .inl hb⟩

omit [DecidableEq T] in
theorem printsPlain_of_body {l : Label T} {body : CString} (hl : l.body = some body)
    (h : Printable body) : PrintsPlain s l := by
  intro b hb
  rw [hl] at hb
  exact Option.some.inj hb ▸ h

theorem called_of_call {t : T} {body : CString}
    (h : step names s (.task t (.call body)) = some s') :
    s'.kernel.hist.called =
      Function.update s.kernel.hist.called t (s.kernel.hist.called t ++ [body]) := by
  cases step_cases h with
  | task _ _ _ hc =>
    generalize s.pc t = p at hc
    cases hc
    rfl

theorem called_of_not_call {l : Label T} (hl : ∀ t body, l ≠ .task t (.call body))
    (h : step names s l = some s') : s'.kernel.hist.called = s.kernel.hist.called := by
  cases step_cases h with
  | task t a _ hc =>
    generalize s.pc t = p at hc
    cases hc with
    | call body => exact absurd rfl (hl t body)
    | _ => rfl
  | _ => rfl

structure PrintInv (s : State T) : Prop where
  direct : ∀ c ∈ s.kernel.hist.direct, c.Plain
  called : ∀ t, ∀ b ∈ s.kernel.hist.called t, Printable b

theorem printInv_step {l : Label T} (hI : PrintInv s) (hl : PrintsPlain s l)
    (h : step names s l = some s') : PrintInv s' := by
  cases step_cases h with
  | early body =>
    refine ⟨fun c hc => ?_, hI.called⟩
    rcases List.mem_append.mp hc with hc | hc
    · exact hI.direct c hc
    · obtain rfl := List.mem_singleton.mp hc
      exact ⟨plainName_pcNoTask, hl body rfl⟩
  | task t a _ hc =>
    obtain ⟨hd, hb⟩ := hc.printed
    refine ⟨fun c hm => hI.direct c (hd ▸ hm), fun u b hm => ?_⟩
    exact (hb u b hm).elim (hI.called u b) (hl b)
  | _ => exact ⟨hI.direct, hI.called⟩

theorem reachable_printInv (h : (loggingSystem names).ReachableBy PrintsPlain s) :
    PrintInv s := by
  refine h.invariant (fun s hs => ?_)
    (fun s l s' _ hI hl (hs : step names s l = some s') => printInv_step hI hl hs)
  obtain ⟨ucRxData, -, rfl⟩ := hs
  exact ⟨by simp [vSetupLoggingTask, History.empty], by simp [vSetupLoggingTask, History.empty]⟩

theorem sent_plain (hn : ∀ t, PlainName (names t))
    (h : (loggingSystem names).ReachableBy PrintsPlain s) :
    ∀ r ∈ s.kernel.hist.sent, r.2.Plain := by
  intro r hr
  have hI := reachable_inv h.reachable
  refine ⟨hI.sentNamed r hr ▸ hn r.1, (reachable_printInv h).called r.1 _ ?_⟩
  have hsent : r.2 ∈ s.kernel.hist.sentBy r.1 :=
    List.mem_map_of_mem (List.mem_filter.mpr ⟨hr, decide_eq_true rfl⟩)
  rw [hI.called r.1]
  exact List.mem_append_left _ (List.mem_map_of_mem hsent)

theorem sentBy_eq_named (hinj : Function.Injective names)
    (hnamed : ∀ r ∈ s.kernel.hist.sent, r.2.pcTaskName = names r.1) (t : T) :
    (s.kernel.hist.sentBy t).map (fun c => c.body.bytes) =
      (((s.kernel.hist.sent.map Prod.snd).map LogItem.decoded).filter
        fun d => d.name = (names t).bytes).map Decoded.body := by
  unfold History.sentBy
  rw [List.map_map, List.filter_map, List.filter_map, List.map_map, List.map_map]
  congr 1
  apply List.filter_congr
  intro r hr
  have hbytes : r.2.pcTaskName.bytes = (names t).bytes ↔ r.1 = t := by
    rw [hnamed r hr]
    refine ⟨fun he => hinj ?_, fun he => by rw [he]⟩
    cases hr1 : names r.1
    cases ht : names t
    simp_all
  simp [LogItem.decoded, hbytes]

theorem sent_snd_plain (hn : ∀ t, PlainName (names t))
    (h : (loggingSystem names).ReachableBy PrintsPlain s) :
    ∀ c ∈ s.kernel.hist.sent.map Prod.snd, c.Plain := by
  intro c hc
  obtain ⟨r, hr, rfl⟩ := List.mem_map.mp hc
  exact sent_plain hn h r hr

theorem accepted_eq_flatMap (h : (loggingSystem names).Reachable s) :
    s.kernel.hist.accepted = (s.kernel.hist.sent.map Prod.snd).flatMap LogItem.cLogitem := by
  rw [(reachable_inv h).accepted, List.flatMap_map]

theorem called_eq_named (hinj : Function.Injective names) (h : (loggingSystem names).Reachable s)
    (t : T) :
    (s.kernel.hist.called t).map CString.bytes =
      (((s.kernel.hist.sent.map Prod.snd).map LogItem.decoded).filter
        fun d => d.name = (names t).bytes).map Decoded.body ++
        (s.pc t).inFlight.map CString.bytes := by
  have hI := reachable_inv h
  rw [← sentBy_eq_named hinj hI.sentNamed t, hI.called t, List.map_append, List.map_map]
  rfl

/-- After any number of bytes the bodies under the name of a task are its first calls. -/
theorem journalOf_isPrefix (hn : ∀ t, PlainName (names t)) (hinj : Function.Injective names)
    (h : (loggingSystem names).ReachableBy PrintsPlain s) (t : T) {text : List Byte}
    (ht : text <+: s.kernel.hist.accepted) :
    journalOf (names t) text <+: (s.kernel.hist.called t).map CString.bytes := by
  rw [accepted_eq_flatMap h.reachable] at ht
  have hpre := journal_isPrefix (sent_snd_plain hn h) ht
  rw [called_eq_named hinj h.reachable t, ← filterMap_decoded]
  exact (((hpre.filterMap id).filter _).map _).trans (List.prefix_append _ _)

/-- All bytes give all its calls but the one in flight. -/
theorem journalOf_accepted (hn : ∀ t, PlainName (names t)) (hinj : Function.Injective names)
    (h : (loggingSystem names).ReachableBy PrintsPlain s) (t : T) :
    journalOf (names t) s.kernel.hist.accepted ++ (s.pc t).inFlight.map CString.bytes =
      (s.kernel.hist.called t).map CString.bytes := by
  rw [called_eq_named hinj h.reachable t, ← filterMap_decoded, journalOf,
    accepted_eq_flatMap h.reachable, journal_records (sent_snd_plain hn h)]

/-- The stream can be read back task by task: at any time and after any number of its bytes,
the bodies read under the name of a task are the first calls that the task made, and all bytes
give all its calls but the one in flight. -/
theorem stream_by_task (hn : ∀ t, PlainName (names t)) (hinj : Function.Injective names)
    (h : (loggingSystem names).ReachableBy PrintsPlain s) (t : T) :
    (∀ text, text <+: s.kernel.hist.accepted →
      journalOf (names t) text <+: (s.kernel.hist.called t).map CString.bytes) ∧
    journalOf (names t) s.kernel.hist.accepted ++ (s.pc t).inFlight.map CString.bytes =
      (s.kernel.hist.called t).map CString.bytes :=
  ⟨fun _ ht => journalOf_isPrefix hn hinj h t ht, journalOf_accepted hn hinj h t⟩

theorem plainName_twoNames (t : Bool) : PlainName (twoNames t) := by
  cases t <;> constructor <;> decide

theorem twoNames_injective : Function.Injective twoNames := by
  intro t u h
  revert t u
  decide

/-- One task has printed, the other is still waiting for the mutex. -/
theorem stream_by_task_contention :
    ∃ s, (loggingSystem twoNames).execBy PrintsPlain startState
        ([.start] ++ formRecord true ++ formRecord false ++ emitRecord true) = some s ∧
      journalOf (twoNames false) s.kernel.hist.accepted ++
        (s.pc false).inFlight.map CString.bytes =
          (s.kernel.hist.called false).map CString.bytes := by
  have hrun : ((loggingSystem twoNames).execBy PrintsPlain startState
      ([.start] ++ formRecord true ++ formRecord false ++ emitRecord true)).isSome = true := by
    decide +kernel
  obtain ⟨s, hs⟩ := Option.isSome_iff_exists.mp hrun
  have hreach : (loggingSystem twoNames).ReachableBy PrintsPlain startState := .init ⟨_, rfl, rfl⟩
  exact ⟨s, hs, (stream_by_task plainName_twoNames twoNames_injective (hreach.execBy hs) false).2⟩

/-- What was printed before the scheduler started stands whole on the UART. -/
structure DirectInv (s : State T) : Prop where
  before : s.started = false → s.uart = s.kernel.hist.direct.flatMap LogItem.cLogitem
  mark : s.uartAtStart ≤ s.uart.length
  after : s.started = true →
    s.uart.take s.uartAtStart = s.kernel.hist.direct.flatMap LogItem.cLogitem

theorem directInv_step {l : Label T} (hr : (loggingSystem names).Reachable s) (hI : DirectInv s)
    (h : step names s l = some s') : DirectInv s' := by
  cases step_cases h with
  | early body hs =>
    have hlen : (s.kernel.earlyItem body).cLogitem.length < 2 ^ 16 :=
      (cLogitem_length_le _).trans_lt (by decide)
    refine ⟨fun _ => ?_, ?_, fun ht => absurd (hs.symm.trans ht) (by simp)⟩
    · rw [vWriteUart_terminated (zero_not_mem_cLogitem _) hlen]
      simp [hI.before hs]
    · simpa using Nat.le_add_right_of_le hI.mark
  | start hs =>
    refine ⟨fun ht => absurd ht (by simp), le_rfl, fun _ => ?_⟩
    rw [List.take_length]
    exact hI.before hs
  | task t a hs hc =>
    refine ⟨fun ht => absurd (hs.symm.trans ht) (by simp), hI.mark, fun _ => ?_⟩
    rw [hc.printed.1]
    exact hI.after hs
  | transmit beyond hrec =>
    -- a chunk is in the logger's hands, so the scheduler runs
    have hs : s.started ≠ false := fun hs =>
      absurd ((reachable_quiet hr hs).received.symm.trans hrec) (by simp)
    refine ⟨fun ht => absurd ht hs, ?_, fun ht => ?_⟩
    · simpa using Nat.le_add_right_of_le hI.mark
    · change (s.uart ++ _).take s.uartAtStart = _
      rw [List.take_append_of_le_length hI.mark]
      exact hI.after ht
  | _ => exact ⟨hI.before, hI.mark, hI.after⟩

theorem reachable_directInv (h : (loggingSystem names).Reachable s) : DirectInv s := by
  refine h.invariant (fun s hs => ?_)
    (fun s l s' hr hI _ (hs : step names s l = some s') => directInv_step hr hI hs)
  obtain ⟨ucRxData, -, rfl⟩ := hs
  exact ⟨fun _ => rfl, le_rfl, fun hs => by simp [vSetupLoggingTask] at hs⟩

theorem emitted_text (h : (loggingSystem names).Reachable s) :
    s.emitted.flatMap LogItem.cLogitem =
      s.kernel.hist.direct.flatMap LogItem.cLogitem ++ s.kernel.hist.accepted := by
  rw [State.emitted, List.flatMap_append, (reachable_inv h).accepted, List.flatMap_map]

theorem uart_text (h : (loggingSystem names).ReachableBy ReceivesTerminated s) :
    s.uart <+: s.emitted.flatMap LogItem.cLogitem ∧
      (s.logger.received = false → s.kernel.buffer = [] →
        s.uart = s.emitted.flatMap LogItem.cLogitem) := by
  have hD := reachable_directInv h.reachable
  have hU := reachable_uartInv h
  rw [emitted_text h.reachable]
  by_cases hs : s.started = true
  · have hsplit : s.uart = s.kernel.hist.direct.flatMap LogItem.cLogitem ++
        s.uart.drop s.uartAtStart := by
      rw [← hD.after hs, List.take_append_drop]
    rw [hsplit]
    refine ⟨(List.prefix_append_right_inj _).mpr ?_, fun hrec hbuf => ?_⟩
    · by_cases hrec : s.logger.received = true
      · obtain ⟨chunk, -, hb⟩ := hU.busy hs hrec
        rw [← hb, List.append_assoc]
        exact List.prefix_append _ _
      · rw [← hU.idle hs (Bool.eq_false_iff.mpr hrec)]
        exact List.prefix_append _ _
    · have hidle := hU.idle hs hrec
      rw [hbuf, List.append_nil] at hidle
      rw [hidle]
  · have hfalse := Bool.eq_false_iff.mpr hs
    rw [(reachable_quiet h.reachable hfalse).accepted, List.append_nil, hD.before hfalse]
    exact ⟨List.prefix_rfl, fun _ _ => rfl⟩

theorem emitted_plain (hn : ∀ t, PlainName (names t))
    (h : (loggingSystem names).ReachableBy PrintsPlain s) : ∀ c ∈ s.emitted, c.Plain := by
  intro c hc
  rcases List.mem_append.mp hc with hc | hc
  · exact (reachable_printInv h).direct c hc
  · obtain ⟨r, hr, rfl⟩ := List.mem_map.mp hc
    exact sent_plain hn h r hr

/-- At any time the complete lines on the UART are the first records that the program emitted,
early ones included, with their numbers, ticks, names and bodies; once the logger has drained
the buffer they are all of them. -/
theorem uart_journal (hn : ∀ t, PlainName (names t))
    (h : (loggingSystem names).ReachableBy
      (fun s l => ReceivesTerminated s l ∧ PrintsPlain s l) s) :
    journal s.uart <+: s.emitted.map (fun c => some c.decoded) ∧
      (s.logger.received = false → s.kernel.buffer = [] →
        journal s.uart = s.emitted.map fun c => some c.decoded) := by
  have hplain := emitted_plain hn (h.mono fun _ _ hc => hc.2)
  have htext := uart_text (h.mono fun _ _ hc => hc.1)
  refine ⟨journal_isPrefix hplain htext.1, fun hrec hbuf => ?_⟩
  rw [htext.2 hrec hbuf, journal_records hplain]

/-- An early record, and one of 12 bytes that leaves a zeroed block in three full chunks. -/
def plainRun : List (Label Bool) :=
  [.early hello, .start] ++ formRecord true ++ emitRecord true ++
    (List.replicate 3 [.receive, .transmit []]).flatten

theorem uart_journal_plain :
    ∃ s, (loggingSystem twoNames).execBy (fun s l => ReceivesTerminated s l ∧ PrintsPlain s l)
        startState plainRun = some s ∧
      journal s.uart = s.emitted.map fun c => some c.decoded := by
  have hrun : ((loggingSystem twoNames).execBy
      (fun s l => ReceivesTerminated s l ∧ PrintsPlain s l) startState plainRun).map
        (fun s => (s.logger.received, s.kernel.buffer)) = some (false, []) := by decide +kernel
  obtain ⟨s, hs, hproj⟩ := Option.map_eq_some_iff.mp hrun
  obtain ⟨hrec, hbuf⟩ := Prod.mk.inj hproj
  have hreach : (loggingSystem twoNames).ReachableBy
      (fun s l => ReceivesTerminated s l ∧ PrintsPlain s l) startState := .init ⟨_, rfl, rfl⟩
  exact ⟨s, hs, (uart_journal plainName_twoNames (hreach.execBy hs)).2 hrec hbuf⟩

end Runs

end Stm32f7Renode.Logging
