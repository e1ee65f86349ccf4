import RuleHighlight.Text.CodePoint
import RuleHighlight.Text.Printable

namespace RuleHighlight.Text

def hexDigit (n : Nat) : Char := if n < 10 then Char.ofNat (48 + n) else Char.ofNat (87 + n)

def hexDigits : Nat → Nat → List Char
  | 0, _ => []
  | count + 1, n => hexDigits count (n / 16) ++ [hexDigit (n % 16)]

namespace Quoted

def delimiter (s : CodeText) : Char :=
  if s.contains (.char '\'') && !s.contains (.char '"') then '"' else '\''

def escape (delimiter c : Char) : List Char :=
  if c = delimiter ∨ c = '\\' then ['\\', c]
  else if c = '\n' then ['\\', 'n']
  else if c = '\r' then ['\\', 'r']
  else if c = '\t' then ['\\', 't']
  else if isPrintable c then [c]
  else if c.toNat < 256 then '\\' :: 'x' :: hexDigits 2 c.toNat
  else if c.toNat < 65536 then '\\' :: 'u' :: hexDigits 4 c.toNat
  else '\\' :: 'U' :: hexDigits 8 c.toNat

def escapeCode (delimiter : Char) : CodePoint → List Char
  | .char c => escape delimiter c
  | .surrogate n => '\\' :: 'u' :: hexDigits 4 (CodePoint.surrogate n).value

def encode (s : CodeText) : List Char :=
  let d := delimiter s
  d :: s.flatMap (escapeCode d) ++ [d]

end Quoted

def CodeText.quoted (s : CodeText) : String := String.ofList (Quoted.encode s)

def CodeText.escaped (s : CodeText) : String :=
  String.ofList (s.flatMap fun
    | .char c => [c]
    | .surrogate n => '\\' :: 'u' :: hexDigits 4 (CodePoint.surrogate n).value)

def quoted (s : String) : String := (CodeText.ofString s).quoted

end RuleHighlight.Text
