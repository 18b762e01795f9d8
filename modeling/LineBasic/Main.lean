import LineBasic.Session

/-!
# Command line

Lines from standard input are entered one by one, and what the screen sees goes to standard
output. A statement that needs input which is not there yet is run again once it is. Files that a
session writes are written when the line that wrote them is done. Random numbers are the bits of a
counter, spread over the whole word.
-/

set_option autoImplicit false

namespace LineBasic.Main

structure Request where
  options : LexOptions := {}
  /-- A program to load and run at the start. -/
  program : Option String := none

def Request.parse (r : Request) : List String → Except String Request
  | [] => .ok r
  | "--packed" :: args => { r with options := { r.options with packed := true } }.parse args
  | "--dot-as-zero" :: args => { r with options := { r.options with dotAsZero := true } }.parse args
  | arg :: args =>
    if arg.startsWith "-" || r.program.isSome then .error ("unexpected argument: " ++ arg)
    else { r with program := some arg }.parse args

def spread (n : UInt64) : UInt64 :=
  let n := (n ^^^ (n >>> 30)) * 0xBF58476D1CE4E5B9
  let n := (n ^^^ (n >>> 27)) * 0x94D049BB133111EB
  n ^^^ (n >>> 31)

def random (seed : UInt64) (count : Nat) : Float :=
  let word := spread (spread seed + (UInt64.ofNat count + 1) * 0x9E3779B97F4A7C15)
  (word >>> 11).toFloat / 9007199254740992

def abortCode : UInt32 := 101

def typed : IO (Option String) := do
  let line ← (← IO.getStdin).getLine
  return if line.isEmpty then none else some (Session.normalEnd line)

def showFrom (seen : Nat) (m : Machine) : IO Unit := do
  let out ← IO.getStdout
  out.putStr (m.host.printedSince seen)
  out.flush

def shown (m : Machine) : Machine := { m with host := { m.host with transcript := [] } }

def supply (f : Fault) (h : Host) : IO (Option Host) := do
  if f = Host.noMoreInput then
    return (← typed).map fun line => { h with input := h.input ++ [line] }
  else if f = Host.noMoreKeys then
    return (← typed).map fun line => { h with keys := h.keys ++ line.toList ++ ['\r'] }
  else return none

/-- Runs to the end. The first `seen` events of the next step have been shown already. -/
partial def runToEnd (seen : Nat) (m : Machine) : IO (Status × Machine) := do
  match Session.step m with
  | .ok isOver after =>
    showFrom seen after
    if isOver then return Session.settle (.ok true (shown after)) else runToEnd 0 (shown after)
  | .error f after =>
    showFrom seen after
    match ← supply f m.host with
    | some host => runToEnd after.host.transcript.length { m with host }
    | none =>
      let (status, after) := Session.settle (.error f (shown after))
      showFrom 0 after
      return (status, shown after)

def writeFiles (before after : Host) : IO Unit :=
  after.files.entries.forM fun (name, text) => do
    if before.files.get? name ≠ some text then IO.FS.writeFile name text

def enter (line : String) (m : Machine) : IO (Status × Machine) := do
  match Session.enter 0 line m with
  | (.running, started) =>
    let (status, after) ← runToEnd 0 started
    writeFiles m.host after.host
    return (status, after)
  | (status, after) =>
    showFrom 0 after
    return (status, shown after)

/-- Enters lines until the session is quit or the input ends. -/
partial def converse (ready : Bool) (m : Machine) : IO UInt32 := do
  let out ← IO.getStdout
  if ready then out.putStr (if m.column = 0 then "READY.\n" else "\nREADY.\n")
  if let some n := m.variableModule.autoLine? then out.putStr (toString n ++ " ")
  out.flush
  match ← typed with
  | none => return 0
  | some line =>
    let line := match m.variableModule.autoLine? with
      | some n => toString n ++ " " ++ line
      | none => line
    match ← enter line m with
    | (.quit code, _) => return code.toUInt32
    | (.aborted, _) => return abortCode
    | (.programmed, m) | (.idle, m) => converse false m
    | (_, m) => converse true m

def start (name : String) (m : Machine) : IO (Option UInt32 × Machine) := do
  let text ← IO.FS.readFile name
  let m := { m with host := m.host.writeFile name text }
  match ← enter ("LOAD \"" ++ name ++ "\"") m with
  | (.failed, m) => return (none, m)
  | (_, m) =>
    match ← enter "RUN" m with
    | (.quit code, m) => return (some code.toUInt32, m)
    | (.aborted, m) => return (some abortCode, m)
    | (_, m) => return (none, m)

def run (args : List String) : IO UInt32 := do
  match Request.parse {} args with
  | .error message =>
    IO.eprintln message
    return 2
  | .ok request =>
    IO.println "BASIC WITH MODULES"
    let m : Machine := { host := { random }, options := request.options }
    match request.program with
    | none => converse true m
    | some name =>
      match ← start name m with
      | (some code, _) => return code
      | (none, m) => converse true m

end LineBasic.Main

def main (args : List String) : IO UInt32 := LineBasic.Main.run args
