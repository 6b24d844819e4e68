import TraceCapture.Crash.Disposition
import TraceCapture.Crash.LogLine

set_option autoImplicit false

/-!
# A program under signals

A program with the crash handler in it, as a machine of small steps. Its code is the row of
instructions still to come. A signal that is raised or arrives is pending until it is not blocked;
then its handler is put in front of the code, and is followed by the instruction that restores the
mask of blocked signals. A signal is blocked while its own handler runs, others are not.

The crash handler logs the signal, runs the registered callback and dumps a backtrace, unless
another of its invocations is at that already, and then forwards the signal to the disposition it
had before. A signal that arrives in the middle of a log call is dropped, so that logging never
nests. Of other handlers it is kept when they are called and when they end, so that signals can
arrive while they run.
-/

namespace TraceCapture

structure SignalInfo where
  number : Signal
  /-- All else that the system knows of the signal, such as who sent it. -/
  payload : ByteArray

structure SignalContext where
  registers : ByteArray
  blocked : List Signal

/-- What a detailed handler is called with besides the number of the signal. -/
structure SignalDetails where
  info : Option SignalInfo
  context : Option SignalContext

inductive LogPiece where
  | text (s : String)
  | raising (sig : Signal) (s : String)
  deriving DecidableEq, Repr

inductive CallbackAction where
  | log (s : String)
  /-- Raise a signal, unless callbacks have raised that many already. -/
  | raise (sig : Signal) (limit : Nat)
  deriving DecidableEq, Repr

abbrev Callback := List CallbackAction

inductive Instruction where
  | log (pieces : List LogPiece)
  | format (line : LogLine) (pieces : List LogPiece)
  | endLog
  | handle (sig : Signal) (details : SignalDetails)
  /-- Claim the callback and the backtrace for this invocation of the handler. -/
  | claim (sig : Signal) (details : SignalDetails)
  | runCallback
  | endCallback
  | dumpBacktrace
  | release
  | forward (sig : Signal) (details : SignalDetails)
  | callPlain (handler : UInt64) (sig : Signal)
  | callDetailed (handler : UInt64) (sig : Signal) (details : SignalDetails)
  /-- End of a handler that is not the crash handler. -/
  | endHandler
  | restoreDefault (sig : Signal)
  | raise (sig : Signal)
  | raiseUpTo (sig : Signal) (limit : Nat)
  /-- Return from a handler: block exactly these signals again. -/
  | restoreMask (blocked : List Signal)

inductive CrashEvent where
  | logged (bytes : ByteArray)
  | plainCalled (handler : UInt64) (sig : Signal)
  | detailedCalled (handler : UInt64) (sig : Signal) (details : SignalDetails)

structure CrashMachine where
  actions : SignalAction.Table
  blocked : List Signal
  pending : List Signal
  /-- What came with the signals that are pending. -/
  payloads : Signal → ByteArray
  /-- What comes with a signal that the program raises itself. -/
  ownPayload : ByteArray
  registers : ByteArray
  code : List Instruction
  killedBy : Option Signal
  installed : Bool
  logging : Bool
  /-- An invocation of the crash handler runs the callback or dumps the backtrace. -/
  handling : Bool
  callback : Option Callback
  saved : Signal → SavedDisposition
  raised : Nat
  frames : List String
  trace : Array CrashEvent

namespace CrashMachine

def initial : CrashMachine :=
  ⟨.initial, [], [], fun _ => .empty, .empty, .empty, [], none, false, false, false, none,
    fun _ => .new, 0, [], #[]⟩

def doFirst (m : CrashMachine) (code : List Instruction) : CrashMachine :=
  { m with code := code ++ m.code }

def record (m : CrashMachine) (e : CrashEvent) : CrashMachine :=
  { m with trace := m.trace.push e }

/-- Makes a signal pending, unless it is. A number that no signal has is refused. -/
def post (m : CrashMachine) (sig : Signal) (payload : ByteArray) : CrashMachine :=
  if sig.isValid && !m.pending.contains sig then
    { m with
      pending := sig :: m.pending
      payloads := fun other => if other = sig then payload else m.payloads other }
  else m

/-- Chooses what a signal does, if a program may choose that. A signal that is to do nothing is not
pending any more. -/
def setAction (m : CrashMachine) (sig : Signal) (a : SignalAction) : CrashMachine :=
  if sig.isCatchable then
    let silent := a.handler = 1 || a.handler = 0 && !sig.isFatal
    { m with
      actions := m.actions.set sig a
      pending := if silent then m.pending.erase sig else m.pending }
  else m

/-- The pending signal that is delivered next: of those that are not blocked the lowest. -/
def deliverable (m : CrashMachine) : Option Signal :=
  (m.pending.filter fun sig => !m.blocked.contains sig).min?

def details (m : CrashMachine) (sig : Signal) : SignalDetails :=
  ⟨some ⟨sig, m.payloads sig⟩, some ⟨m.registers, m.blocked⟩⟩

def take (m : CrashMachine) (sig : Signal) : CrashMachine :=
  { m with pending := m.pending.erase sig }

def enter (m : CrashMachine) (sig : Signal) (call : Instruction) : CrashMachine :=
  { m.take sig with
    blocked := sig :: m.blocked
    code := call :: .restoreMask m.blocked :: m.code }

def deliver (m : CrashMachine) (sig : Signal) : CrashMachine :=
  let a := m.actions sig
  if a.handler = 0 then
    if sig.isFatal then { m.take sig with killedBy := some sig } else m.take sig
  else if a.handler = 1 then m.take sig
  else if a.detailed then m.enter sig (.callDetailed a.handler sig (m.details sig))
  else m.enter sig (.callPlain a.handler sig)

/-- The disposition that a signal is forwarded to; none if no room is kept for such a signal. -/
def savedDisposition (m : CrashMachine) (sig : Signal) : Option Disposition :=
  if 0 ≤ sig ∧ sig < Signal.interceptionLimit then some (m.saved sig).load else none

def message (s : String) : Instruction := .log [.text s]

def CallbackAction.instruction : CallbackAction → Instruction
  | .log s => message s
  | .raise sig limit => .raiseUpTo sig limit

def execute (m : CrashMachine) : Instruction → CrashMachine
  | .log pieces => { m with logging := true }.doFirst [.format .empty pieces]
  | .format line [] => (m.record (.logged line.bytes)).doFirst [.endLog]
  | .format line (.text s :: pieces) => m.doFirst [.format (line.appendText s) pieces]
  | .format line (.raising sig s :: pieces) =>
      m.doFirst [.raise sig, .format line (.text s :: pieces)]
  | .endLog => { m with logging := false }
  | .handle sig details =>
      if m.logging then m
      else m.doFirst [message s!"apicap: warning: caught signal {sig}\n", .claim sig details]
  | .claim sig details =>
      if m.handling then
        m.doFirst [message s!"apicap: warning: recursion handling signal {sig}\n",
          .forward sig details]
      else
        { m with handling := true }.doFirst
          [.runCallback, .dumpBacktrace, .release, .forward sig details]
  | .runCallback =>
      match m.callback with
      | none => m
      | some actions => m.doFirst (actions.map CallbackAction.instruction ++ [.endCallback])
  | .endCallback => m
  | .dumpBacktrace => m.doFirst (message "apicap: backtrace:\n" :: m.frames.map message)
  | .release => { m with handling := false }
  | .forward sig details =>
      match m.savedDisposition sig with
      | none => m.doFirst [message s!"apicap: error: unexpected signal {sig}\n", .raise .kill]
      | some .ignored => m
      | some (.plain handler) => m.doFirst [.callPlain handler sig]
      | some (.detailed handler) => m.doFirst [.callDetailed handler sig details]
      | some .byDefault =>
          m.doFirst [message s!"apicap: info: taking default action for signal {sig}\n",
            .restoreDefault sig, .raise sig]
  | .callPlain handler sig => (m.record (.plainCalled handler sig)).doFirst [.endHandler]
  | .callDetailed handler sig details =>
      if handler = crashHandler then m.doFirst [.handle sig details]
      else (m.record (.detailedCalled handler sig details)).doFirst [.endHandler]
  | .endHandler => m
  | .restoreDefault sig => m.setAction sig .byDefault
  | .raise sig => m.post sig m.ownPayload
  | .raiseUpTo sig limit =>
      if m.raised < limit then { m with raised := m.raised + 1 }.post sig m.ownPayload else m
  | .restoreMask blocked => { m with blocked }

def step (m : CrashMachine) : Option CrashMachine :=
  if m.killedBy.isSome then none
  else
    match m.deliverable with
    | some sig => some (m.deliver sig)
    | none =>
      match m.code with
      | [] => none
      | i :: code => some ({ m with code }.execute i)

def steps : Nat → CrashMachine → CrashMachine
  | 0, m => m
  | n + 1, m =>
    match m.step with
    | some m => steps n m
    | none => m

end CrashMachine

end TraceCapture
