import TraceCapture.Crash.Rest
import TraceCapture.Violation

set_option autoImplicit false

namespace TraceCapture.CrashMachine

def save (m : CrashMachine) (sig : Signal) : CrashMachine :=
  let kept := SavedDisposition.store (.ofAction (m.actions sig))
  { m with saved := fun other => if other = sig then kept else m.saved other }

theorem saved_save_self (m : CrashMachine) (sig : Signal) :
    (m.save sig).saved sig = .store (.ofAction (m.actions sig)) :=
  if_pos rfl

theorem saved_save_of_ne (m : CrashMachine) {sig other : Signal} (h : other ≠ sig) :
    (m.save sig).saved other = m.saved other :=
  if_neg h

def intercept (m : CrashMachine) (sig : Signal) : CrashMachine := (m.save sig).setAction sig .crash

/-- Takes over all intercepted signals, unless that is done. Answers whether it was not. -/
def installOnce (m : CrashMachine) : Bool × CrashMachine :=
  if m.installed then (false, m)
  else (true, Signal.intercepted.foldl intercept { m with installed := true })

def install (p : Profile) (m : CrashMachine) : Except Violation Unit × CrashMachine :=
  let (fresh, m) := m.installOnce
  (if p = .checked ∧ fresh = false then .error .handlersInstalledTwice else .ok (), m)

def setCallback (p : Profile) (m : CrashMachine) (c : Callback) :
    Except Violation Unit × CrashMachine :=
  match m.callback with
  | none => (.ok (), { m with callback := some c })
  | some _ => (if p = .checked then .error .callbackRegisteredTwice else .ok (), m)

def setExceptionCallback (p : Profile) (m : CrashMachine) (c : Callback) :
    Except Violation Unit × CrashMachine :=
  match m.setCallback p c with
  | (.ok (), m) => (.ok (), m.installOnce.2)
  | r => r

def resetCallback (m : CrashMachine) : CrashMachine := { m with callback := none }

def previousDisposition (m : CrashMachine) (sig : Signal) : Option Disposition :=
  if m.installed && sig.isIntercepted then m.savedDisposition sig else none

def raise (m : CrashMachine) (sig : Signal) : CrashMachine := (m.doFirst [.raise sig]).run

def log (m : CrashMachine) (pieces : List LogPiece) : CrashMachine := (m.doFirst [.log pieces]).run

/-- Calls the detailed handler of the termination signal directly, without details; none if it has
no such handler. -/
def invoke (m : CrashMachine) (sig : Signal) : Option CrashMachine :=
  let a := m.actions .terminate
  if 1 < a.handler ∧ a.detailed then
    some (m.doFirst [.callDetailed a.handler sig ⟨none, none⟩]).run
  else none

end TraceCapture.CrashMachine
