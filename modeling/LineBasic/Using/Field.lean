/-!
# Fields of a print format

A format is cut into fields and the text between them. A run of hash signs holds digits; a point,
commas, a dollar sign, a sign at either end and four carets shape the number. A run that starts
with an equals or a greater sign holds text, centred or at the right. The width of a field is the
number of characters it takes up in the format.
-/

set_option autoImplicit false

namespace LineBasic.Using

inductive Alignment where
  | centre
  | right
  deriving DecidableEq, Repr

structure NumberField where
  width : Nat
  digits : Nat
  decimals : Option Nat
  comma : Bool
  dollar : Bool
  leadingSign : Option Char
  trailingSign : Option Char
  exponent : Bool
  deriving DecidableEq, Repr

inductive Field where
  | literal (cs : List Char)
  | text (width : Nat) (align : Alignment)
  | number (field : NumberField)
  deriving DecidableEq, Repr

def Field.isLiteral : Field → Bool
  | literal _ => true
  | _ => false

def Field.width : Field → Nat
  | literal cs => cs.length
  | text width _ => width
  | number field => field.width

def alignment? : Char → Option Alignment
  | '=' => some .centre
  | '>' => some .right
  | _ => none

def textField? (c : Char) (cs : List Char) : Option Field :=
  match alignment? c with
  | none => none
  | some align =>
    let hashes := (cs.takeWhile (· == '#')).length
    if hashes = 0 then none else some (.text (hashes + 1) align)

structure Places where
  digits : Nat := 0
  decimals : Option Nat := none
  comma : Bool := false
  size : Nat := 0

def Places.extend? (p : Places) (c : Char) : Option Places :=
  match c, p.decimals with
  | '#', none => some { p with digits := p.digits + 1, size := p.size + 1 }
  | '#', some d => some { p with decimals := some (d + 1), size := p.size + 1 }
  | ',', none => if 0 < p.digits then some { p with comma := true, size := p.size + 1 } else none
  | '.', none => some { p with decimals := some 0, size := p.size + 1 }
  | _, _ => none

def Places.scan (p : Places) : List Char → Places
  | [] => p
  | c :: cs =>
    match p.extend? c with
    | some q => q.scan cs
    | none => p

def leadingSign? : List Char → Option Char
  | a :: b :: _ =>
    if (a = '+' ∨ a = '-') ∧ (b = '#' ∨ b = '$' ∨ b = '.') then some a else none
  | _ => none

def trailingSign? : List Char → Option Char
  | c :: _ => if c = '+' ∨ c = '-' then some c else none
  | [] => none

def numberField? (cs : List Char) : Option NumberField :=
  let leading := leadingSign? cs
  let afterSign := cs.drop (if leading.isSome then 1 else 0)
  let dollar := afterSign.head? == some '$'
  let afterDollar := afterSign.drop (if dollar then 1 else 0)
  let places := Places.scan {} afterDollar
  if places.digits = 0 && places.decimals.getD 0 = 0 then none
  else
    let afterPlaces := afterDollar.drop places.size
    let exponent := ['^', '^', '^', '^'].isPrefixOf afterPlaces
    let afterExponent := afterPlaces.drop (if exponent then 4 else 0)
    let trailing := if leading.isSome then none else trailingSign? afterExponent
    let rest := afterExponent.drop (if trailing.isSome then 1 else 0)
    some
      { width := cs.length - rest.length
        digits := places.digits
        decimals := places.decimals
        comma := places.comma
        dollar
        leadingSign := leading
        trailingSign := trailing
        exponent }

def field? (c : Char) (cs : List Char) : Option Field :=
  match textField? c cs with
  | some field => some field
  | none => (numberField? (c :: cs)).map .number

def consLiteral (c : Char) : List Field → List Field
  | .literal cs :: fields => .literal (c :: cs) :: fields
  | fields => .literal [c] :: fields

def fields (format : List Char) : List Field :=
  match format with
  | [] => []
  | c :: cs =>
    match field? c cs with
    | some field => field :: fields (cs.drop (field.width - 1))
    | none => consLiteral c (fields cs)
termination_by format.length
decreasing_by all_goals (simp only [List.length_drop, List.length_cons]; omega)

end LineBasic.Using
