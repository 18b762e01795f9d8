import LineBasic.Using.Field
import LineBasic.Value
import LineBasic.Text.Layout

/-!
# Printing by a format

Values fill the fields of a format in order, and the format starts again as long as values are left.
A value that does not fit its field is shown as a row of asterisks, so a field always keeps its
width.
-/

set_option autoImplicit false

namespace LineBasic.Using

def stars (width : Nat) : List Char := List.replicate width '*'

def blanks (width : Nat) : List Char := List.replicate width ' '

def renderText (width : Nat) (align : Alignment) (v : Value) : List Char :=
  let cs := v.display.toList
  if width < cs.length then stars width
  else
    let pad := width - cs.length
    match align with
    | .right => blanks pad ++ cs
    | .centre => blanks (pad / 2) ++ cs ++ blanks (pad - pad / 2)

def groupDigits : List Char → List Char
  | [] => []
  | [c] => [c]
  | c :: d :: cs =>
    if (cs.length + 1) % 3 = 0 then c :: ',' :: groupDigits (d :: cs)
    else c :: groupDigits (d :: cs)

def groupThousands (cs : List Char) : List Char :=
  groupDigits (cs.takeWhile (· != '.')) ++ cs.dropWhile (· != '.')

def unwritable? (x : Float) : Option (List Char) :=
  if x.isNaN then some ['N', 'a', 'N'] else if x.isInf then some ['i', 'n', 'f'] else none

def renderMagnitude (f : NumberField) (x : Float) : List Char :=
  let places := f.decimals.getD 0
  if f.exponent then
    match unwritable? x with
    | some cs => cs
    | none =>
      let (mantissa, exponent) := Number.scientific places x
      mantissa ++ 'E' :: Number.exponentDigits exponent
  else
    let cs := (unwritable? x).getD (Number.fixedDigits places x)
    let grouped := if f.comma then groupThousands cs else cs
    if f.decimals = some 0 ∧ !grouped.contains '.' then grouped ++ ['.'] else grouped

def withSign (f : NumberField) (negative : Bool) (cs : List Char) : List Char :=
  match f.leadingSign, f.trailingSign with
  | some s, _ => (if negative then '-' else if s = '+' then '+' else ' ') :: cs
  | none, some s => cs ++ [if negative then '-' else if s = '+' then '+' else ' ']
  | none, none => if negative then '-' :: cs else cs

def renderNumber (f : NumberField) (x : Float) : List Char :=
  let body := renderMagnitude f x
  let body := if f.dollar then '$' :: body else body
  let body := withSign f (decide (x < 0)) body
  if f.width < body.length then stars f.width else blanks (f.width - body.length) ++ body

def renderField (field : Field) (v : Value) : Except Fault (List Char) :=
  match field with
  | .literal cs => .ok cs
  | .text width align => .ok (renderText width align v)
  | .number f => v.toReal.map (renderNumber f)

def renderPass : List Field → List Value → Except Fault (List Char × Option (List Value))
  | [], vs => .ok ([], some vs)
  | .literal cs :: fields, vs =>
    (renderPass fields vs).map fun (text, rest) => (cs ++ text, rest)
  | _ :: _, [] => .ok ([], none)
  | field :: fields, v :: vs =>
    match renderField field v with
    | .error f => .error f
    | .ok cs => (renderPass fields vs).map fun (text, rest) => (cs ++ text, rest)

def renderPasses (fields : List Field) : Nat → List Value → Except Fault (List Char)
  | 0, _ => .ok []
  | n + 1, vs =>
    match renderPass fields vs with
    | .error f => .error f
    | .ok (text, some (v :: rest)) => (renderPasses fields n (v :: rest)).map (text ++ ·)
    | .ok (text, _) => .ok text

def render (format : String) (vs : List Value) : Except Fault String :=
  let fs := fields format.toList
  if fs.all Field.isLiteral then .error (.because .illegalQuantity "NO FIELDS IN FORMAT")
  else (renderPasses fs (vs.length + 1) vs).map String.ofList

end LineBasic.Using
