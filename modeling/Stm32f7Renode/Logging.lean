import Mathlib.Logic.Function.Basic
import Stm32f7Renode.Library.TransitionSystem
import Stm32f7Renode.LogRecord

/-!
`app-task-logging.c` as a transition system: any number of tasks inside
`vLoggingPrintf`, the mutex, the stream buffer, the logger task and the UART.
Every kernel call is one step, and any task, the logger or the tick may run
between any two steps. A step that only waits for time, such as the timeout of
`xSemaphoreTake` or the end of `vTaskDelay`, may come at any moment.
-/

namespace Stm32f7Renode.Logging
open WireText

def loggingStreamBufferSize : ℕ := 2000

def loggingSegmentSize : ℕ := 10

/-- `sizeof( ucRxData )`: the size of the pointer, not of the heap block. -/
def sizeofUcRxData : ℕ := 4

/-- Where a task stands in `vLoggingPrintf`. The two arguments of `snprintf` with side
effects or kernel calls, the number and the tick count, are read in either order. -/
inductive Pc
  | idle
  | formatted (body : CString)
  | numbered (xMessageNumber : UInt32) (body : CString)
  | stamped (tickCount : UInt32) (body : CString)
  | take (c : LogItem)
  | takeDelay (c : LogItem)
  | spaces (c : LogItem)
  | spacesDelay (c : LogItem)
  | send (c : LogItem)
  | give (c : LogItem)
deriving DecidableEq, Repr

variable {T : Type*}

/-- Bookkeeping that no step reads: the history of the run. -/
structure History (T : Type*) where
  called : T → List CString
  /-- Tasks whose call is numbered and not yet granted the mutex, oldest number first. -/
  waiting : List T
  /-- Records in the order in which the mutex was granted. -/
  acquired : List (T × LogItem)
  /-- Records whose `xStreamBufferSend` has returned. -/
  sent : List (T × LogItem)
  /-- All bytes that the stream buffer has accepted. -/
  accepted : List Byte
  direct : List LogItem

/-- What the tasks share. `tickCount` counts ticks; the counter of the kernel is its value
modulo `2 ^ 32`. -/
structure Kernel (T : Type*) where
  xMessageNumber : UInt32
  tickCount : ℕ
  owner : Option T
  buffer : List Byte
  hist : History T

structure Logger where
  /-- The heap block that `ucRxData` points to. -/
  ucRxData : List Byte
  /-- A receive has returned bytes that are not yet written. -/
  received : Bool
deriving DecidableEq, Repr

structure State (T : Type*) where
  started : Bool
  kernel : Kernel T
  pc : T → Pc
  logger : Logger
  uart : List Byte
  uartAtStart : ℕ

def Kernel.xTaskGetTickCount (k : Kernel T) : UInt32 := UInt32.ofNat k.tickCount

def Kernel.xStreamBufferSpacesAvailable (k : Kernel T) : ℕ :=
  loggingStreamBufferSize - k.buffer.length

def Kernel.xStreamBufferSend (data : List Byte) (k : Kernel T) : ℕ × Kernel T :=
  let taken := data.take k.xStreamBufferSpacesAvailable
  (taken.length, { k with
    buffer := k.buffer ++ taken
    hist := { k.hist with accepted := k.hist.accepted ++ taken } })

/-- Copies up to `n` bytes over the front of `block`: the number copied, the rest of the
buffer, and the block. -/
def xStreamBufferReceive (n : ℕ) (buffer block : List Byte) : ℕ × List Byte × List Byte :=
  let chunk := buffer.take n
  (chunk.length, buffer.drop n, chunk ++ block.drop chunk.length)

/-- The bytes in front of the first NUL, reading past the end of the object if it has none. -/
def strlen (memory : List Byte) : ℕ := (memory.takeWhile (· ≠ 0)).length

/-- The bytes that `HAL_UART_Transmit` sends; its size parameter is a `uint16_t`. -/
def vWriteUart (memory : List Byte) : List Byte := memory.take (strlen memory % 2 ^ 16)

inductive Act
  | call (body : CString)
  | number
  | stamp
  | take
  | takeTimeout
  /-- Either `vTaskDelay` returns. -/
  | delay
  | check
  | send
  | give
deriving DecidableEq, Repr

/-- Steps that only the passing of ticks can bring about. -/
def Act.needsTick : Act → Bool
  | .takeTimeout | .delay => true
  | _ => false

variable [DecidableEq T]

def Kernel.countMessage (me : T) (k : Kernel T) : Kernel T :=
  { k with
    xMessageNumber := k.xMessageNumber + 1
    hist := { k.hist with waiting := k.hist.waiting ++ [me] } }

def Kernel.grant (me : T) (c : LogItem) (k : Kernel T) : Kernel T :=
  { k with
    owner := some me
    hist := { k.hist with
      waiting := k.hist.waiting.erase me
      acquired := k.hist.acquired ++ [(me, c)] } }

def Kernel.logCall (me : T) (body : CString) (k : Kernel T) : Kernel T :=
  { k with hist := { k.hist with
      called := Function.update k.hist.called me (k.hist.called me ++ [body]) } }

def Kernel.logSent (me : T) (c : LogItem) (k : Kernel T) : Kernel T :=
  { k with hist := { k.hist with sent := k.hist.sent ++ [(me, c)] } }

/-- One step of a `vLoggingPrintf` call of `me`, whose task name is `pcTaskName`, with the
scheduler running. -/
def callStep (me : T) (pcTaskName : CString) : Act → Pc → Kernel T → Option (Pc × Kernel T)
  | .call body, .idle, k => some (.formatted body, k.logCall me body)
  | .number, .formatted body, k => some (.numbered k.xMessageNumber body, k.countMessage me)
  | .stamp, .formatted body, k => some (.stamped k.xTaskGetTickCount body, k)
  | .number, .stamped tickCount body, k =>
    some (.take { xMessageNumber := k.xMessageNumber, tickCount, pcTaskName, body },
      k.countMessage me)
  | .stamp, .numbered xMessageNumber body, k =>
    some (.take { xMessageNumber, tickCount := k.xTaskGetTickCount, pcTaskName, body }, k)
  -- `xSemaphoreTake` succeeds or times out, and after a timeout the task delays and tries again
  | .take, .take c, k => if k.owner.isNone then some (.spaces c, k.grant me c) else none
  | .takeTimeout, .take c, k => some (.takeDelay c, k)
  | .delay, .takeDelay c, k => some (.take c, k)
  -- the mutex is held across this loop
  | .check, .spaces c, k =>
    if k.xStreamBufferSpacesAvailable < c.cLogitem.length then some (.spacesDelay c, k)
    else some (.send c, k)
  | .delay, .spacesDelay c, k => some (.spaces c, k)
  | .send, .send c, k => some (.give c, (k.xStreamBufferSend c.cLogitem).2.logSent me c)
  | .give, .give _, k => some (.idle, { k with owner := none })
  | _, _, _ => none

def pcNoTask : CString := ⟨ascii "None", by decide⟩

inductive Label (T : Type*)
  /-- A call made by `main` before the scheduler starts, straight to the UART. -/
  | early (body : CString)
  | start
  | tick
  | task (t : T) (a : Act)
  | receive
  | receiveTimeout
  /-- `vWriteUart( ucRxData )`; `beyond` is what lies in memory behind the heap block. -/
  | transmit (beyond : List Byte)
deriving DecidableEq

def Kernel.earlyItem (k : Kernel T) (body : CString) : LogItem :=
  { xMessageNumber := k.xMessageNumber, tickCount := k.xTaskGetTickCount,
    pcTaskName := pcNoTask, body }

def step (names : T → CString) (s : State T) : Label T → Option (State T)
  | .early body =>
    if s.started then none
    else
      let c := s.kernel.earlyItem body
      some { s with
        kernel := { s.kernel with
          xMessageNumber := s.kernel.xMessageNumber + 1
          hist := { s.kernel.hist with direct := s.kernel.hist.direct ++ [c] } }
        uart := s.uart ++ vWriteUart (c.cLogitem ++ [0]) }
  | .start =>
    if s.started then none else some { s with started := true, uartAtStart := s.uart.length }
  | .tick =>
    if s.started then
      some { s with kernel := { s.kernel with tickCount := s.kernel.tickCount + 1 } }
    else none
  | .task t a =>
    if s.started then
      (callStep t (names t) a (s.pc t) s.kernel).map fun r =>
        { s with pc := Function.update s.pc t r.1, kernel := r.2 }
    else none
  | .receive =>
    if s.started && !s.logger.received && !s.kernel.buffer.isEmpty then
      let r := xStreamBufferReceive sizeofUcRxData s.kernel.buffer s.logger.ucRxData
      some { s with
        kernel := { s.kernel with buffer := r.2.1 }
        logger := { ucRxData := r.2.2, received := true } }
    else none
  | .receiveTimeout =>
    if s.started && !s.logger.received && s.kernel.buffer.isEmpty then some s else none
  | .transmit beyond =>
    if s.logger.received then
      some { s with
        uart := s.uart ++ vWriteUart (s.logger.ucRxData ++ beyond)
        logger := { s.logger with received := false } }
    else none

def History.empty : History T :=
  { called := fun _ => [], waiting := [], acquired := [], sent := [], accepted := [], direct := [] }

/-- After `vSetupLoggingTask`: an empty buffer, a free mutex, and a heap block with
arbitrary contents. -/
def vSetupLoggingTask (ucRxData : List Byte) : State T :=
  { started := false
    kernel := { xMessageNumber := 0, tickCount := 0, owner := none, buffer := [], hist := .empty }
    pc := fun _ => .idle
    logger := { ucRxData, received := false }
    uart := []
    uartAtStart := 0 }

def loggingSystem (names : T → CString) : TransitionSystem (State T) (Label T) where
  init s := ∃ ucRxData : List Byte, ucRxData.length = loggingSegmentSize ∧
    s = vSetupLoggingTask ucRxData
  step := step names

def State.emitted (s : State T) : List LogItem :=
  s.kernel.hist.direct ++ s.kernel.hist.sent.map Prod.snd

end Stm32f7Renode.Logging
