import LineBasic.Text.CaseData

/-!
# Upper and lower case

Full case conversion of texts: a character may become several, and a capital sigma at the end of a
word becomes a final sigma. Program text is converted in the ASCII letters alone.
-/

set_option autoImplicit false

namespace LineBasic.Text

def CaseRun.covers (r : CaseRun) (n : Nat) : Bool :=
  r.first ≤ n && n ≤ r.last && (n - r.first) % r.step == 0

def shifted (runs : List CaseRun) (c : Char) : Char :=
  match runs.find? (·.covers c.toNat) with
  | some r => Char.ofNat (c.toNat + r.shift).toNat
  | none => c

def mapped (long : List (Nat × List Nat)) (runs : List CaseRun) (c : Char) : List Char :=
  match long.lookup c.toNat with
  | some codes => codes.map Char.ofNat
  | none => [shifted runs c]

def upperChar (c : Char) : List Char :=
  if c.toNat < 0x80 then [c.toUpper] else mapped upperLong upperRuns c

def lowerChar (c : Char) : List Char :=
  if c.toNat < 0x80 then [c.toLower] else mapped lowerLong lowerRuns c

def inRanges (ranges : List (Nat × Nat)) (c : Char) : Bool :=
  ranges.any fun r => r.1 ≤ c.toNat && c.toNat ≤ r.2

def meetsCased (cs : List Char) : Bool :=
  match cs.dropWhile (inRanges caseIgnorableRanges) with
  | [] => false
  | c :: _ => inRanges casedRanges c

def lowerFrom (before : List Char) : List Char → List Char
  | [] => []
  | c :: cs =>
    let image :=
      if c == 'Σ' then [if meetsCased before && !meetsCased cs then 'ς' else 'σ']
      else lowerChar c
    image ++ lowerFrom (c :: before) cs

def upperCase (s : String) : String := String.ofList (s.toList.flatMap upperChar)

def lowerCase (s : String) : String := String.ofList (lowerFrom [] s.toList)

/-- Program text in upper case. Only ASCII letters outside quotes change, so no character moves.
`quote` is the quote that is open at this point. -/
def programUpperFrom (quote : Option Char) : List Char → List Char
  | [] => []
  | c :: cs =>
    match quote with
    | some q => c :: programUpperFrom (if c = q then none else some q) cs
    | none =>
      c.toUpper :: programUpperFrom (if c = '"' ∨ c = '\'' then some c else none) cs

def programUpper (line : String) : String := String.ofList (programUpperFrom none line.toList)

theorem length_programUpperFrom (quote : Option Char) (cs : List Char) :
    (programUpperFrom quote cs).length = cs.length := by
  induction cs generalizing quote with
  | nil => rfl
  | cons c cs ih => cases quote <;> simp [programUpperFrom, ih]

end LineBasic.Text
