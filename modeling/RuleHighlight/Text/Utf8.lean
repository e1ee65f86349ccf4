import RuleHighlight.Text.Quoted

/-!
UTF-8. Bytes are cut into units from left to right: a unit is a character, or else the longest
prefix that no well-formed sequence has in full. Strict reading stops at the first such prefix, and
lenient reading puts one replacement character in the place of each.
-/

namespace RuleHighlight.Utf8

abbrev Bytes := List UInt8

inductive Fault
  | invalidStart
  | invalidContinuation
  | unexpectedEnd
  deriving DecidableEq, Repr

namespace Fault

def reason : Fault → String
  | invalidStart => "invalid start byte"
  | invalidContinuation => "invalid continuation byte"
  | unexpectedEnd => "unexpected end of data"

end Fault

inductive Piece
  | char (c : Char) (width : Nat)
  | bad (fault : Fault) (width : Nat)
  deriving DecidableEq, Repr

namespace Piece

def width : Piece → Nat
  | char _ w => w
  | bad _ w => w

def complete : Nat → Nat → List (Nat × Nat) → Bytes → Piece
  | value, taken, [], _ => char (Char.ofNat value) taken
  | _, taken, _ :: _, [] => bad .unexpectedEnd taken
  | value, taken, (lo, hi) :: more, b :: rest =>
    if lo ≤ b.toNat ∧ b.toNat ≤ hi then
      complete (value * 64 + b.toNat % 64) (taken + 1) more rest
    else
      bad .invalidContinuation taken

def first (b : UInt8) (rest : Bytes) : Piece :=
  let n := b.toNat
  let tail := (128, 191)
  if n < 128 then char (Char.ofNat n) 1
  else if n < 194 then bad .invalidStart 1
  else if n < 224 then complete (n % 32) 1 [tail] rest
  else if n = 224 then complete 0 1 [(160, 191), tail] rest
  else if n = 237 then complete 13 1 [(128, 159), tail] rest
  else if n < 240 then complete (n % 16) 1 [tail, tail] rest
  else if n = 240 then complete 0 1 [(144, 191), tail, tail] rest
  else if n < 244 then complete (n % 8) 1 [tail, tail, tail] rest
  else if n = 244 then complete 4 1 [(128, 143), tail, tail] rest
  else bad .invalidStart 1

def listFrom : Nat → Bytes → List Piece
  | _, [] => []
  | covered + 1, _ :: rest => listFrom covered rest
  | 0, b :: rest =>
    let p := first b rest
    p :: listFrom (p.width - 1) rest

def list (bytes : Bytes) : List Piece := listFrom 0 bytes

def toChar : Piece → Char
  | char c _ => c
  | bad _ _ => '\ufffd'

end Piece

structure DecodeError where
  start : Nat
  width : Nat
  byte : UInt8
  fault : Fault
  deriving DecidableEq, Repr

namespace DecodeError

def message (e : DecodeError) : String :=
  let place :=
    if e.width = 1 then
      "byte 0x" ++ String.ofList (Text.hexDigits 2 e.byte.toNat) ++ " in position " ++
        toString e.start
    else
      "bytes in position " ++ toString e.start ++ "-" ++ toString (e.start + e.width - 1)
  "'utf-8' codec can't decode " ++ place ++ ": " ++ e.fault.reason

end DecodeError

def collect : Nat → List Piece → Except (Nat × Nat × Fault) (List Char)
  | _, [] => .ok []
  | start, .char c w :: rest => (collect (start + w) rest).map (c :: ·)
  | start, .bad f w :: _ => .error (start, w, f)

def decode (bytes : Bytes) : Except DecodeError (List Char) :=
  match collect 0 (Piece.list bytes) with
  | .ok chars => .ok chars
  | .error (start, width, fault) => .error ⟨start, width, bytes.getD start 0, fault⟩

def decodeLenient (bytes : Bytes) : List Char := (Piece.list bytes).map Piece.toChar

def encode (s : String) : Bytes := s.toUTF8.toList

end RuleHighlight.Utf8

namespace RuleHighlight.Text

def unifyLineEnds : List Char → List Char
  | [] => []
  | '\r' :: '\n' :: rest => '\n' :: unifyLineEnds rest
  | c :: rest => (if c = '\r' then '\n' else c) :: unifyLineEnds rest

end RuleHighlight.Text
