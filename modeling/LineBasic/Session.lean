import LineBasic.Lexer
import LineBasic.Listing.File
import LineBasic.Statement

/-!
# Sessions

A session is a sequence of entered lines. A line with a number is stored; any other line is run at
once, as typed text of the module whose code is entered. A run goes on statement by statement
until the program counter is at the end or a fault stops it. Runs need not end, so a run gets a
number of steps. When the process is over, so is the run, and no further line is entered.
-/

set_option autoImplicit false

namespace LineBasic

inductive Status where
  | executed
  | programmed
  | idle
  | failed
  | quit (code : Int32)
  /-- The process is over. -/
  | aborted
  /-- The steps were used up before the run ended. -/
  | running
  deriving DecidableEq, Repr

namespace Session

def jiffies (clock : UInt64) : Int64 :=
  Int64.ofNat (min (clock.toNat * 60) (UInt64.size - 1) / 1000)

def refreshClock : Run Unit := do
  let host := (← get).host
  Run.updateVariableModule fun mod =>
    let vars := mod.vars.storeRaw "TI" (.integer (jiffies host.clock))
    { mod with vars := vars.storeRaw "TI$" (.text host.timeOfDay) }

/-- A slow module pauses after this many tokens. -/
def tokensPerPause : Nat := 20

/-- Milliseconds of a pause. -/
def pauseTime : UInt64 := 5

def countTokens (n : Nat) : Run Unit :=
  modify fun m =>
    let count := m.tokenCount + n
    if tokensPerPause ≤ count then { m with tokenCount := 0, host := m.host.sleep pauseTime }
    else { m with tokenCount := count }

/-- Goes on after the last statement of a line. The answer says whether the run is over. Typed
text ends its run; a program that ends returns to the module that called it. -/
def leaveLine (n : LineNumber) : Run Bool := do
  let next := (← get).codeModule.listing.nextAfter? n
  match if next = some typedEnd then none else next with
  | some next =>
    Run.updateCodeModule fun mod => { mod with pc := .atLine next }
    return false
  | none =>
    Run.updateCodeModule fun mod => { mod with pc := .atEnd }
    if n < 0 then return true
    Run.endModule
    return false

def runStatement (code : Module) (n : LineNumber) (tokens : List Token) (next : Nat) :
    Run Bool := do
  Run.updateCodeModule fun mod => { mod with pc := { mod.pc with offset := next } }
  refreshClock
  if code.trace && decide (0 ≤ n) && code.pc.offset == 0 then Run.print ("[" ++ toString n ++ "]")
  if !code.fast then countTokens tokens.length
  if (← get).host.halted then return true
  Statement.run tokens
  let m ← get
  if m.host.halted || m.exitCode.isSome then return true
  Run.checkBreak
  return false

/-- One step of a run: a statement, or the way to another line. The answer says whether the run is
over. -/
def step : Run Bool := do
  let m ← get
  let code := m.codeModule
  match code.pc.line with
  | none => return true
  | some n =>
    match code.listing.get? n with
    | none =>
      Run.updateCodeModule fun mod => { mod with pc := .atEnd }
      return true
    | some text =>
      let (tokens, next) ← lexStatement m.lexicon m.options text code.pc.offset
      if tokens.isEmpty then leaveLine n else runStatement code n tokens next

/-- Runs at most `fuel` steps. The answer says whether the run is over. -/
def execute : Nat → Run Bool
  | 0 => return false
  | fuel + 1 => do if ← step then return true else execute fuel

def prepare (line : String) (m : Machine) : Machine :=
  m.enterCode.2.updateCodeModule fun mod =>
    { (mod.dropLoops (·.resume.isTyped)).dropGosubs (·.resume.isTyped) with
      listing := (mod.listing.insert typedLine line).insert typedEnd ""
      pc := .atLine typedLine }

/-- Stores a numbered line, or deletes the line if there is no text. A text that cannot be lexed
is stored all the same. -/
def storeLine (n : LineNumber) (text : String) : Run Unit := do
  Run.updateVariableModule fun mod =>
    { mod with
      listing := mod.listing.enterLine n text
      autoStep := if text.isEmpty then 0 else mod.autoStep
      lastEntered := n }
  let m ← get
  match checkLine m.lexicon m.options text with
  | .ok () => return
  | .error f => throw (f.inLine n)

def faultReport (m : Machine) (f : Fault) : String :=
  let (mod, line) := match f.line with
    | some n => (m.variableModule, some n)
    | none => (m.codeModule, m.codeModule.pc.line)
  let start := if m.column = 0 then "" else "\n"
  match line with
  | none => start ++ "?" ++ f.message ++ "\n"
  | some n =>
    if n < 0 then start ++ "?" ++ f.message ++ "\n"
    else
      let listed := if f.isBreak then none else mod.listing.listed? n
      start ++ "?" ++ (f.inLine n).message ++ "\n" ++ (listed.map (· ++ "\n")).getD ""

def inRunningLine (m : Machine) (f : Fault) : Bool :=
  f.line.isNone && m.codeModule.pc.line.any fun n => 0 ≤ n

def report (f : Fault) (m : Machine) : Machine :=
  { m with
    printFile := none
    scopes := if inRunningLine m f then m.scopes.reset else m.scopes
    host := m.host.print (faultReport m f)
    column := 0 }

def normalEnd (line : String) : String :=
  String.ofList (Text.dropTrailing (fun c => c == '\r' || c == '\n') line.toList)

def normalLine (line : String) : String := Text.programUpper (normalEnd line)

def settle : EStateM.Result Fault Machine Bool → Status × Machine
  | .error f m => (.failed, report f m)
  | .ok false m => (.running, m)
  | .ok true m =>
    if m.host.halted then (.aborted, m)
    else match m.exitCode with
      | some code => (.quit code, { m with exitCode := none })
      | none => (.executed, m)

/-- Enters a line. A run takes at most `fuel` steps. -/
def enter (fuel : Nat) (line : String) (m : Machine) : Status × Machine :=
  let line := normalLine line
  if m.host.halted then (.aborted, m)
  else if Text.isBlankText line then (.idle, m)
  else match numberedLine? line with
    | some (n, text) =>
      match storeLine n text m with
      | .ok () m => (.programmed, m)
      | .error f m => (.failed, report f m)
    | none => settle (execute fuel (prepare line { m with exitCode := none }))

end Session

end LineBasic
