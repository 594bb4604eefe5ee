import Stm32f7Renode.LoggingInvariant

/-!
`vLoggingTask` hands its chunk to `vWriteUart` without its length, and `strlen`
looks for a NUL that the receive did not write. The bytes on the UART are those
of the stream buffer as long as each chunk happens to have a NUL right behind it
in the heap block.
-/

namespace Stm32f7Renode.Logging
open WireText

variable {T : Type*} [DecidableEq T] {names : T → CString} {s s' : State T}

theorem strlen_terminated {chunk : List Byte} (h : 0 ∉ chunk) (rest : List Byte) :
    strlen (chunk ++ 0 :: rest) = chunk.length := by
  have hall : ∀ b ∈ chunk, decide (b ≠ 0) = true := fun b hb =>
    decide_eq_true fun he => h (he ▸ hb)
  rw [strlen, List.takeWhile_append_of_pos hall, List.takeWhile_cons_of_neg (by simp),
    List.append_nil]

theorem vWriteUart_terminated {chunk : List Byte} (h : 0 ∉ chunk) (hlen : chunk.length < 2 ^ 16)
    (rest : List Byte) : vWriteUart (chunk ++ 0 :: rest) = chunk := by
  rw [vWriteUart, strlen_terminated h, Nat.mod_eq_of_lt hlen, List.take_left]

theorem lt_strlen_of_ne_zero {chunk : List Byte} (h : 0 ∉ chunk) {b : Byte} (hb : b ≠ 0)
    (rest : List Byte) : chunk.length < strlen (chunk ++ b :: rest) := by
  have hall : ∀ c ∈ chunk, decide (c ≠ 0) = true := fun c hc =>
    decide_eq_true fun he => h (he ▸ hc)
  rw [strlen, List.takeWhile_append_of_pos hall, List.takeWhile_cons_of_pos (by simpa using hb)]
  simp

/-- The byte of the heap block behind the chunk that the next receive brings is NUL. -/
def State.ChunkTerminated (s : State T) : Prop :=
  s.logger.ucRxData[min sizeofUcRxData s.kernel.buffer.length]? = some 0

omit [DecidableEq T] in
theorem chunk_length (s : State T) :
    (s.kernel.buffer.take sizeofUcRxData).length =
      min sizeofUcRxData s.kernel.buffer.length :=
  List.length_take

omit [DecidableEq T] in
theorem receive_block (s : State T) :
    (xStreamBufferReceive sizeofUcRxData s.kernel.buffer s.logger.ucRxData).2.2 =
      s.kernel.buffer.take sizeofUcRxData ++
        s.logger.ucRxData.drop (min sizeofUcRxData s.kernel.buffer.length) := by
  rw [← chunk_length]
  rfl

omit [DecidableEq T] in
/-- A receive and its transmit put exactly the received bytes on the UART if and only if the
byte behind the chunk was NUL (memory up to the next NUL fitting the 16-bit size). -/
theorem chunk_faithful_iff (h0 : 0 ∉ s.kernel.buffer)
    (hlen : s.logger.ucRxData.length = loggingSegmentSize) {beyond : List Byte}
    (hb : beyond.length < 2 ^ 15) :
    vWriteUart ((xStreamBufferReceive sizeofUcRxData s.kernel.buffer s.logger.ucRxData).2.2 ++
        beyond) = s.kernel.buffer.take sizeofUcRxData ↔ s.ChunkTerminated := by
  set k := min sizeofUcRxData s.kernel.buffer.length with hk
  have hk10 : k < s.logger.ucRxData.length := by
    rw [hlen, hk]
    exact (Nat.min_le_left _ _).trans_lt (by decide)
  have hc0 : 0 ∉ s.kernel.buffer.take sizeofUcRxData := fun h => h0 (List.mem_of_mem_take h)
  have hblock : (xStreamBufferReceive sizeofUcRxData s.kernel.buffer s.logger.ucRxData).2.2 ++
      beyond = s.kernel.buffer.take sizeofUcRxData ++
        s.logger.ucRxData[k] :: (s.logger.ucRxData.drop (k + 1) ++ beyond) := by
    rw [receive_block, ← hk, List.append_assoc, List.drop_eq_getElem_cons hk10, List.cons_append]
  have hck : (s.kernel.buffer.take sizeofUcRxData).length = k := chunk_length s
  rw [hblock, State.ChunkTerminated, ← hk, List.getElem?_eq_getElem hk10, Option.some.injEq]
  -- without the NUL, `strlen` passes the end of the chunk, and the bound on what lies behind
  -- keeps the 16-bit size from wrapping around
  constructor
  · intro he
    by_contra hne
    have hlt := lt_strlen_of_ne_zero hc0 hne (s.logger.ucRxData.drop (k + 1) ++ beyond)
    have hle : strlen (s.kernel.buffer.take sizeofUcRxData ++
        s.logger.ucRxData[k] :: (s.logger.ucRxData.drop (k + 1) ++ beyond)) ≤
          10 + beyond.length := by
      refine (List.takeWhile_prefix _).length_le.trans ?_
      simp only [List.length_append, List.length_cons, List.length_drop, hck, hlen,
        loggingSegmentSize] at hk10 ⊢
      omega
    have hwrite := congrArg List.length he
    rw [vWriteUart, Nat.mod_eq_of_lt (by omega), List.length_take] at hwrite
    have hpre := (List.takeWhile_prefix (fun b : Byte => decide (b ≠ 0))
      (l := s.kernel.buffer.take sizeofUcRxData ++
        s.logger.ucRxData[k] :: (s.logger.ucRxData.drop (k + 1) ++ beyond))).length_le
    change strlen _ ≤ _ at hpre
    omega
  · intro hz
    rw [hz]
    refine vWriteUart_terminated hc0 ?_ _
    rw [hck, hk]
    exact (Nat.min_le_left _ _).trans_lt (by decide)

def ReceivesTerminated (s : State T) (l : Label T) : Prop := l = .receive → s.ChunkTerminated

/-- The chunk in the logger's hands, with the NUL behind it. -/
structure Chunk (ucRxData chunk : List Byte) : Prop where
  noNul : 0 ∉ chunk
  short : chunk.length ≤ sizeofUcRxData
  terminated : ∃ rest, ucRxData = chunk ++ 0 :: rest

/-- The UART, the chunk and the buffer hold the accepted bytes, in this order. -/
structure UartInv (s : State T) : Prop where
  mark : s.uartAtStart ≤ s.uart.length
  noNul : 0 ∉ s.kernel.buffer
  idle : s.started = true → s.logger.received = false →
    s.uart.drop s.uartAtStart ++ s.kernel.buffer = s.kernel.hist.accepted
  busy : s.started = true → s.logger.received = true →
    ∃ chunk, Chunk s.logger.ucRxData chunk ∧
      s.uart.drop s.uartAtStart ++ chunk ++ s.kernel.buffer = s.kernel.hist.accepted

omit [DecidableEq T] in
theorem UartInv.call {k' : Kernel T} {pc : T → Pc} (hI : UartInv s) (data : List Byte)
    (hbuf : k'.buffer = s.kernel.buffer ++ data)
    (hacc : k'.hist.accepted = s.kernel.hist.accepted ++ data) (h0 : 0 ∉ data) :
    UartInv { s with pc := pc, kernel := k' } where
  mark := hI.mark
  noNul := by
    change 0 ∉ k'.buffer
    rw [hbuf, List.mem_append, not_or]
    exact ⟨hI.noNul, h0⟩
  idle hs hr := by
    change _ ++ k'.buffer = k'.hist.accepted
    rw [hbuf, hacc, ← hI.idle hs hr, List.append_assoc]
  busy hs hr := by
    obtain ⟨chunk, hc, hb⟩ := hI.busy hs hr
    refine ⟨chunk, hc, ?_⟩
    change _ ++ k'.buffer = k'.hist.accepted
    rw [hbuf, hacc, ← hb, List.append_assoc _ s.kernel.buffer]

theorem uartInv_step {l : Label T} (hr : (loggingSystem names).Reachable s) (hI : UartInv s)
    (hl : ReceivesTerminated s l) (h : step names s l = some s') : UartInv s' := by
  cases step_cases h with
  | early body hs =>
    refine ⟨?_, hI.noNul, fun ht => ?_, fun ht => ?_⟩
    · simpa using Nat.le_add_right_of_le hI.mark
    · exact absurd (hs.symm.trans ht) (by simp)
    · exact absurd (hs.symm.trans ht) (by simp)
  | start hs =>
    have hq := reachable_quiet hr hs
    refine ⟨le_rfl, hI.noNul, fun _ _ => ?_, fun _ ht => ?_⟩
    · simp [hq.buffer, hq.accepted]
    · exact absurd (hq.received.symm.trans ht) (by simp)
  | tick => exact ⟨hI.mark, hI.noNul, hI.idle, hI.busy⟩
  | task t a _ hc =>
    rcases hc.effect with ⟨hs, -, -⟩ | ⟨c, -, -, -, rfl⟩ | ⟨c, -, hp, -, rfl⟩ | ⟨c, -, -, rfl⟩
    · exact hI.call [] (by simp [hs.buffer]) (by simp [hs.accepted]) (by simp)
    · exact hI.call [] (by simp [Kernel.grant]) (by simp [Kernel.grant]) (by simp)
    · rw [send_whole ((reachable_inv hr).fits t c hp)]
      exact hI.call _ rfl rfl (zero_not_mem_cLogitem c)
    · exact hI.call [] (by simp) (by simp) (by simp)
  | receive hs hrec _ =>
    -- the only place where the condition on the run is used
    have hterm := hl rfl
    refine ⟨hI.mark, fun hm => hI.noNul (List.mem_of_mem_drop hm), fun _ ht => by simp at ht,
      fun _ _ => ⟨s.kernel.buffer.take sizeofUcRxData, ⟨?_, ?_, ?_⟩, ?_⟩⟩
    · exact fun hm => hI.noNul (List.mem_of_mem_take hm)
    · exact List.length_take_le _ _
    · obtain ⟨hlt, hz⟩ := List.getElem?_eq_some_iff.mp hterm
      refine ⟨s.logger.ucRxData.drop (min sizeofUcRxData s.kernel.buffer.length + 1), ?_⟩
      change (xStreamBufferReceive _ _ _).2.2 = _
      rw [receive_block, List.drop_eq_getElem_cons hlt, hz]
    · change _ ++ _ ++ s.kernel.buffer.drop sizeofUcRxData = _
      rw [List.append_assoc, List.take_append_drop]
      exact hI.idle hs hrec
  | receiveTimeout => exact hI
  | transmit beyond hrec =>
    refine ⟨?_, hI.noNul, fun hs _ => ?_, fun _ ht => by simp at ht⟩
    · simpa using Nat.le_add_right_of_le hI.mark
    · obtain ⟨chunk, ⟨h0, hshort, rest, hdata⟩, hb⟩ := hI.busy hs hrec
      have hwrite : vWriteUart (s.logger.ucRxData ++ beyond) = chunk := by
        rw [hdata, List.append_assoc, List.cons_append]
        exact vWriteUart_terminated h0 (hshort.trans_lt (by decide)) _
      change (s.uart ++ vWriteUart _).drop s.uartAtStart ++ _ = _
      rw [hwrite, List.drop_append_of_le_length hI.mark]
      exact hb

theorem reachable_uartInv (h : (loggingSystem names).ReachableBy ReceivesTerminated s) :
    UartInv s := by
  refine h.invariant (fun s hs => ?_)
    (fun s l s' hr hI hl (hs : step names s l = some s') => uartInv_step hr.reachable hI hl hs)
  obtain ⟨ucRxData, -, rfl⟩ := hs
  exact ⟨le_rfl, by simp [vSetupLoggingTask], fun hs => by simp [vSetupLoggingTask] at hs,
    fun hs => by simp [vSetupLoggingTask] at hs⟩

/-- In a run all of whose receives find a NUL behind their chunk, the UART output since the
scheduler start and the stream buffer are together exactly the bytes sent so far. -/
theorem uart_faithful (h : (loggingSystem names).ReachableBy ReceivesTerminated s)
    (hs : s.started = true) (hr : s.logger.received = false) :
    s.uart.drop s.uartAtStart ++ s.kernel.buffer = s.kernel.hist.accepted :=
  (reachable_uartInv h).idle hs hr

/-- The first receive without a NUL behind its chunk ends the faithfulness. -/
theorem next_chunk_faithful_iff (h : (loggingSystem names).ReachableBy ReceivesTerminated s)
    {u : State T} {beyond : List Byte} (hu : step names s .receive = some u)
    (hs' : step names u (.transmit beyond) = some s') (hb : beyond.length < 2 ^ 15)
    (hlen : s.logger.ucRxData.length = loggingSegmentSize) :
    s'.uart.drop s'.uartAtStart ++ s'.kernel.buffer = s'.kernel.hist.accepted ↔
      s.ChunkTerminated := by
  have hI := reachable_uartInv h
  rw [← chunk_faithful_iff hI.noNul hlen hb]
  cases step_cases hu with
  | receive hst hrec _ =>
    cases step_cases hs' with
    | transmit _ _ =>
      have hold := hI.idle hst hrec
      change (s.uart ++ _).drop s.uartAtStart ++ s.kernel.buffer.drop sizeofUcRxData = _ ↔ _
      rw [List.drop_append_of_le_length hI.mark]
      change _ = s.kernel.hist.accepted ↔ _
      rw [← hold, List.append_assoc, List.append_cancel_left_eq]
      conv_lhs => rhs; rw [← List.take_append_drop sizeofUcRxData s.kernel.buffer]
      rw [List.append_cancel_right_eq]

instance (s : State T) (l : Label T) : Decidable (ReceivesTerminated s l) :=
  inferInstanceAs (Decidable (l = .receive → s.logger.ucRxData[_]? = some 0))

theorem uart_faithful_full_chunks :
    ∃ s, (loggingSystem twoNames).execBy ReceivesTerminated startState
        ([.start] ++ formRecord true ++ emitRecord true ++
          (List.replicate 3 [.receive, .transmit []]).flatten) = some s ∧
      s.uart.drop s.uartAtStart ++ s.kernel.buffer = s.kernel.hist.accepted := by
  have hrun : ((loggingSystem twoNames).execBy ReceivesTerminated startState
      ([.start] ++ formRecord true ++ emitRecord true ++
        (List.replicate 3 [.receive, .transmit []]).flatten)).map
          (fun s => (s.started, s.logger.received)) = some (true, false) := by decide +kernel
  obtain ⟨s, hs, hproj⟩ := Option.map_eq_some_iff.mp hrun
  obtain ⟨hst, hrec⟩ := Prod.mk.inj hproj
  have hreach : (loggingSystem twoNames).ReachableBy ReceivesTerminated startState :=
    .init ⟨_, rfl, rfl⟩
  exact ⟨s, hs, uart_faithful (hreach.execBy hs) hst hrec⟩

def hey : CString := ⟨ascii "hey", by decide⟩

/-- One record of 13 bytes and the four chunks that drain it, the last of a single byte. -/
def drainRun : List (Label Bool) :=
  [.start, .task true (.call hey), .task true .number, .task true .stamp] ++ emitRecord true ++
    (List.replicate 4 [.receive, .transmit []]).flatten

/-- Even from a zeroed heap block the last chunk is followed by three stale bytes. -/
theorem uart_repeats_stale_bytes :
    ¬ ∀ s : State Bool, (loggingSystem twoNames).Reachable s → s.started = true →
      s.logger.received = false →
      s.uart.drop s.uartAtStart ++ s.kernel.buffer = s.kernel.hist.accepted := by
  intro h
  have hrun : ((loggingSystem twoNames).exec startState drainRun).map
      (fun s => (s.started, s.logger.received, s.uart.drop s.uartAtStart ++ s.kernel.buffer,
        s.kernel.hist.accepted)) =
        some (true, false, ascii "0 0 [A] hey\r\ney\r", ascii "0 0 [A] hey\r\n") := by
    decide +kernel
  obtain ⟨s, -, hreach, hproj⟩ := startState_reachable.exec_map hrun
  simp only [Prod.mk.injEq] at hproj
  obtain ⟨hst, hrec, huart, hacc⟩ := hproj
  have he := h s hreach hst hrec
  rw [huart, hacc] at he
  exact absurd he (by decide)

end Stm32f7Renode.Logging
