import LineBasic.Listing
import LineBasic.Number.Numeral
import LineBasic.Text.Case

/-!
# Listings as files

A program is saved with one line of the file for each of its lines: the number, a space, the text,
a carriage return and a line feed. Reading is more lenient: a byte order mark, blank lines and
letters in lower case are allowed, and a number without text deletes the line. Every line that is
not blank needs a number.
-/

set_option autoImplicit false

namespace LineBasic

def numberedLine? (line : String) : Option (LineNumber × String) :=
  (Number.scanLineNumber line.toList).map fun (n, size) =>
    (n, String.ofList ((line.toList.drop size).dropWhile Text.isBlank))

namespace Listing

def savedLine (n : LineNumber) (text : String) : String := toString n ++ " " ++ text ++ "\r\n"

def toText (l : Listing) : String :=
  String.join (l.program.map fun (n, text) => savedLine n text)

def enterLine (l : Listing) (n : LineNumber) (text : String) : Listing :=
  if text.isEmpty then l.erase n else l.insert n text

def loadLines (l : Listing) : List String → Except Fault Listing
  | [] => .ok l
  | raw :: more =>
    let line := Text.programUpper (String.ofList (Text.dropTrailing (· == '\r') raw.toList))
    if Text.isBlankText line then loadLines l more
    else match numberedLine? line with
      | some (n, text) => loadLines (l.enterLine n text) more
      | none => .error (.because .badSyntax "DIRECT STATEMENT IN FILE")

def dropByteOrderMark (s : String) : String :=
  match s.toList with
  | '\uFEFF' :: cs => String.ofList cs
  | _ => s

def ofText (s : String) : Except Fault Listing :=
  loadLines {} (Text.lines (dropByteOrderMark s))

end Listing

end LineBasic
