import LineBasic.Fault
import LineBasic.Table
import LineBasic.Text.Layout

/-!
# Listings

The lines of one module in the order of their numbers. Lines with numbers from zero up are the
program. Text typed without a number is kept under `typedLine`, with an empty line under
`typedEnd` after it; no query of the program shows these two.
-/

set_option autoImplicit false

namespace LineBasic

/-- Where a statement typed without a line number is kept. -/
def typedLine : LineNumber := -2

def typedEnd : LineNumber := -1

def maxLineNumber : LineNumber := 9223372036854775807

structure Listing where
  lines : Table LineNumber String := .empty

namespace Listing

def insert (l : Listing) (n : LineNumber) (text : String) : Listing := ⟨l.lines.insert n text⟩

def erase (l : Listing) (n : LineNumber) : Listing := ⟨l.lines.erase n⟩

def get? (l : Listing) (n : LineNumber) : Option String := l.lines.get? n

def contains (l : Listing) (n : LineNumber) : Bool := l.lines.contains n

def inRange (first last n : LineNumber) : Bool := 0 ≤ n && first ≤ n && n ≤ last

def range (l : Listing) (first last : LineNumber) : List (LineNumber × String) :=
  l.lines.entries.filter fun e => inRange first last e.1

def program (l : Listing) : List (LineNumber × String) := l.range 0 maxLineNumber

def isEmpty (l : Listing) : Bool := l.program.isEmpty

def eraseRange (l : Listing) (first last : LineNumber) : Listing :=
  ⟨l.lines.filterKeys fun n => !inRange first last n⟩

theorem get?_eraseRange_of_neg (l : Listing) (first last : LineNumber) {n : LineNumber}
    (hn : n < 0) : (l.eraseRange first last).get? n = l.get? n := by
  have hout : inRange first last n = false := by simp [inRange, Int.not_le.2 hn]
  rw [eraseRange, get?, Table.get?_filterKeys, hout]
  rfl

def firstFrom? (l : Listing) (n : LineNumber) : Option LineNumber :=
  l.lines.keys.find? fun k => 0 ≤ k && n ≤ k

def nextAfter? (l : Listing) (n : LineNumber) : Option LineNumber :=
  l.lines.keys.find? fun k => n < k

theorem lt_of_nextAfter? {l : Listing} {n n' : LineNumber} (h : l.nextAfter? n = some n') :
    n < n' := by
  simpa using List.find?_some h

def listedLine (n : LineNumber) (text : String) : String :=
  Text.padRight 3 (toString n) ++ " " ++ text

def listed? (l : Listing) (n : LineNumber) : Option String := (l.get? n).map (listedLine n)

end Listing

end LineBasic
