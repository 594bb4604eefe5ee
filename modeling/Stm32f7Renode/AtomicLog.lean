import Stm32f7Renode.LoggingInvariant

namespace Stm32f7Renode.Logging
open WireText

variable {T : Type*} [DecidableEq T]

inductive Pending
  | idle
  | invoked (body : CString)
  | logged
deriving DecidableEq, Repr

structure AtomicLog (T : Type*) where
  pending : T → Pending
  log : List (T × LogItem)
  delivered : List Byte

def AtomicLog.text (s : AtomicLog T) : List Byte := s.log.flatMap fun r => r.2.cLogitem

def Pc.pending : Pc → Pending
  | .idle => .idle
  | .formatted body | .numbered _ body | .stamped _ body => .invoked body
  | .take c | .takeDelay c | .spaces c | .spacesDelay c | .send c => .invoked c.body
  | .give _ => .logged

/-- The accepted bytes that have left the stream buffer. -/
def Kernel.deliveredBytes (k : Kernel T) : List Byte :=
  k.hist.accepted.take (k.hist.accepted.length - k.buffer.length)

section Steps

variable {names : T → CString} {s s' : State T}

def BufferSuffix (k : Kernel T) : Prop := k.hist.accepted = k.deliveredBytes ++ k.buffer

theorem CallStep.delivered {t : T} {n : CString} {a : Act} {p p' : Pc} {k k' : Kernel T}
    (h : CallStep t n k a p p' k') (hk : BufferSuffix k) :
    k'.hist.accepted = k.deliveredBytes ++ k'.buffer := by
  cases h with
  | send c =>
    change k.hist.accepted ++ _ = k.deliveredBytes ++ (k.buffer ++ _)
    rw [← List.append_assoc, ← hk]
  | _ => exact hk

end Steps

end Stm32f7Renode.Logging
