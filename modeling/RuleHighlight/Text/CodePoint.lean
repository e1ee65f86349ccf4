/-!
Text by code points. A code point is a character or a surrogate. A surrogate stands for nothing by
itself, but one of the first half with one of the second half after it stands for a character.
-/

namespace RuleHighlight.Text

/-- A surrogate is given by its distance from the first one. -/
inductive CodePoint
  | char (c : Char)
  | surrogate (offset : Fin 2048)
  deriving DecidableEq, Repr

namespace CodePoint

def firstSurrogate : Nat := 55296

def count : Nat := 1114112

def value : CodePoint → Nat
  | char c => c.toNat
  | surrogate offset => firstSurrogate + offset

def ofNat? (n : Nat) : Option CodePoint :=
  if n.isValidChar then some (char (Char.ofNat n))
  else if n < count then some (surrogate (Fin.ofNat 2048 (n - firstSurrogate)))
  else none

def pair? (high low : Fin 2048) : Option Char :=
  if high.val < 1024 ∧ 1024 ≤ low.val then
    some (Char.ofNat (65536 + high.val * 1024 + (low.val - 1024)))
  else none

end CodePoint

abbrev CodeText := List CodePoint

namespace CodeText

def ofChars (s : List Char) : CodeText := s.map .char

def ofString (s : String) : CodeText := ofChars s.toList

def front : CodeText → List Char
  | .char c :: rest => c :: front rest
  | _ => []

def chars? : CodeText → Option (List Char)
  | [] => some []
  | .char c :: rest => (chars? rest).map (c :: ·)
  | .surrogate _ :: _ => none

def string? (s : CodeText) : Option String := (chars? s).map String.ofList

def isPlain (s : CodeText) : Bool := (chars? s).isSome

def toChars : CodeText → List Char
  | [] => []
  | .char c :: rest => c :: toChars rest
  | .surrogate high :: .surrogate low :: rest =>
    match CodePoint.pair? high low with
    | some c => c :: toChars rest
    | none => '\ufffd' :: toChars (.surrogate low :: rest)
  | .surrogate _ :: rest => '\ufffd' :: toChars rest

def toString (s : CodeText) : String := String.ofList (toChars s)

def comesBefore (s t : CodeText) : Bool := decide (s.map CodePoint.value < t.map CodePoint.value)

@[simp]
theorem chars?_ofChars (s : List Char) : chars? (ofChars s) = some s := by
  induction s with
  | nil => rfl
  | cons c s ih => simpa [ofChars, chars?] using ih

@[simp]
theorem toChars_ofChars (s : List Char) : toChars (ofChars s) = s := by
  induction s with
  | nil => rfl
  | cons c s ih => simpa [ofChars, toChars] using ih

end CodeText

end RuleHighlight.Text
