import LineBasic.Fault
import LineBasic.Table

/-!
# Host

The world around the machine, kept in memory: a screen, a queue of typed lines, a queue of keys, a
store of files, a clock, a break key and a source of random numbers. Everything that happens on the
screen is in the transcript. Reading from an empty queue is a break. The break key can be held back
until it has been asked for a number of times. A wait that the clock cannot count ends the process
that the machine lives in.
-/

set_option autoImplicit false

namespace LineBasic

inductive Event where
  | printed (text : String)
  | lineRead (line : String)
  | cleared
  deriving DecidableEq, Repr

structure Host where
  /-- Latest event first. -/
  transcript : List Event := []
  input : List String := []
  keys : List Char := []
  files : Table String String := .empty
  /-- Milliseconds since the start. -/
  clock : UInt64 := 0
  /-- The process is over. -/
  halted : Bool := false
  interrupt : Bool := false
  /-- Polls of the break key until it is pressed; zero for never. -/
  countdown : Nat := 0
  /-- Hours, minutes and seconds, two digits each. -/
  timeOfDay : String := "000000"
  /-- The numbers of the sequence that a seed starts. -/
  random : UInt64 → Nat → Float := fun _ _ => 0

namespace Host

def log (h : Host) (e : Event) : Host := { h with transcript := e :: h.transcript }

def print (h : Host) (text : String) : Host := h.log (.printed text)

def clearScreen (h : Host) : Host := h.log .cleared

def noMoreInput : Fault := .because .interrupted "NO MORE INPUT"

def noMoreKeys : Fault := .because .interrupted "NO MORE KEYS"

def readLine (h : Host) : Except Fault String × Host :=
  match h.input with
  | [] => (.error noMoreInput, h)
  | line :: more => (.ok line, { h with input := more }.log (.lineRead line))

def readKey (h : Host) : Except Fault Char × Host :=
  match h.keys with
  | [] => (.error noMoreKeys, h)
  | key :: more => (.ok key, { h with keys := more })

def keyAvailable (h : Host) : Bool := !h.keys.isEmpty

def poll (h : Host) : Bool × Host :=
  (h.interrupt || h.countdown == 1, { h with interrupt := false, countdown := h.countdown - 1 })

/-- Whether the clock can count a wait. -/
def hasRoom (h : Host) (ms : UInt64) : Bool := decide (h.clock.toNat + ms.toNat < UInt64.size)

def sleep (h : Host) (ms : UInt64) : Host :=
  { h with
    clock := if h.hasRoom ms then h.clock + ms else h.clock
    halted := h.halted || !h.hasRoom ms }

@[simp] theorem sleep_zero (h : Host) : h.sleep 0 = h := by
  have hroom : h.hasRoom 0 = true := by simp [hasRoom, UInt64.toNat_lt_size]
  simp [sleep, hroom]

theorem sleep_congr {h h' : Host} (hclock : h'.clock = h.clock) (hhalted : h'.halted = h.halted)
    (ms : UInt64) :
    (h'.sleep ms).clock = (h.sleep ms).clock ∧ (h'.sleep ms).halted = (h.sleep ms).halted := by
  simp [sleep, hasRoom, hclock, hhalted]

def fileExists (h : Host) (name : String) : Bool := h.files.contains name

def readFile (h : Host) (name : String) : Except Fault String :=
  match h.files.get? name with
  | some text => .ok text
  | none => .error (.plain .fileNotFound)

def writeFile (h : Host) (name text : String) : Host := { h with files := h.files.insert name text }

def printedText : Event → String
  | .printed text => text
  | _ => ""

def printedSince (h : Host) (n : Nat) : String :=
  String.join ((h.transcript.take (h.transcript.length - n)).reverse.map printedText)

def clearings (h : Host) : Nat := h.transcript.count .cleared

end Host

end LineBasic
