import TraceCapture.Crash.Machine

set_option autoImplicit false

namespace TraceCapture

/-- What signals do behind an instruction. -/
def SignalAction.Table.behind (t : SignalAction.Table) : Instruction → SignalAction.Table
  | .restoreDefault sig => if sig.isCatchable then t.set sig .byDefault else t
  | _ => t

def Instruction.raiseLimit : Instruction → Nat
  | .raiseUpTo _ limit => limit
  | _ => 0

namespace CrashMachine

def total {α : Type} (count : α → Nat) : List α → Nat
  | [] => 0
  | a :: rest => count a + total count rest

def handlerSteps (c f : Nat) : Nat := 4 * (c + f) + 29

def signalSteps (c f : Nat) (t : SignalAction.Table) (sig : Signal) : Nat :=
  if (t sig).handler ≤ 1 then 1 else handlerSteps c f

def pieceSteps (c f : Nat) (t : SignalAction.Table) : LogPiece → Nat
  | .text _ => 1
  | .raising sig _ => signalSteps c f t sig + 3

def instructionSteps (c f : Nat) (t : SignalAction.Table) : Instruction → Nat
  | .log pieces => total (pieceSteps c f t) pieces + 3
  | .format _ pieces => total (pieceSteps c f t) pieces + 2
  | .handle _ _ => handlerSteps c f - 3
  | .claim _ _ => handlerSteps c f - 8
  | .runCallback => 4 * c + 2
  | .dumpBacktrace => 4 * f + 5
  | .forward _ _ => 8
  | .callPlain _ _ => 2
  | .callDetailed handler _ _ => if handler = crashHandler then handlerSteps c f - 2 else 2
  | .raise sig => signalSteps c f t sig + 1
  | .endLog | .endCallback | .release | .endHandler | .restoreDefault _ | .raiseUpTo _ _
  | .restoreMask _ => 1

def codeSteps (c f : Nat) (t : SignalAction.Table) : List Instruction → Nat
  | [] => 0
  | i :: code => instructionSteps c f t i + codeSteps c f (t.behind i) code

def callbackCode (m : CrashMachine) : List Instruction :=
  (m.callback.getD []).map CallbackAction.instruction

def highestLimit : List Instruction → Nat
  | [] => 0
  | i :: code => max i.raiseLimit (highestLimit code)

/-- Callbacks raise no more signals once they have raised that many. -/
def raiseLimit (m : CrashMachine) : Nat := highestLimit (m.code ++ m.callbackCode)

def stepsToRest (m : CrashMachine) : Nat :=
  let c := (m.callback.getD []).length
  let f := m.frames.length
  codeSteps c f m.actions m.code + total (signalSteps c f m.actions) m.pending +
    (m.raiseLimit - m.raised) * handlerSteps c f

def run (m : CrashMachine) : CrashMachine := steps m.stepsToRest m

end CrashMachine

end TraceCapture
