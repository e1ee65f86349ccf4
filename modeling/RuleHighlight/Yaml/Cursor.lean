namespace RuleHighlight.Yaml

def isAllowed (c : Char) : Bool :=
  let n := c.toNat
  n == 9 || n == 10 || n == 13 || decide (32 ≤ n ∧ n ≤ 126) || n == 133 ||
    decide (160 ≤ n ∧ n ≤ 65533) || decide (65536 ≤ n)

def isBreak (c : Char) : Bool :=
  c == '\n' || c == '\r' || c == '\x85' || c == '\u2028' || c == '\u2029'

def isBreakOrSpace (c : Char) : Bool := isBreak c || c == ' '

def isBreakOrBlank (c : Char) : Bool := isBreak c || c == ' ' || c == '\t'

structure Cursor where
  rest : List Char
  index : Nat
  line : Nat
  column : Nat
  deriving Repr

namespace Cursor

def start (text : List Char) : Cursor := ⟨text, 0, 0, 0⟩

def atEnd (c : Cursor) : Bool := c.rest.isEmpty

def peek (c : Cursor) : Option Char := c.rest.head?

def peekAt (c : Cursor) (n : Nat) : Option Char := (c.rest.drop n).head?

def sees (c : Cursor) (p : Char → Bool) : Bool := c.peek.any p

def endsOr (c : Cursor) (p : Char → Bool) : Bool := c.peek.all p

def startsWith (c : Cursor) (s : List Char) : Bool := s.isPrefixOf c.rest

def next (c : Cursor) : Cursor :=
  match c.rest with
  | [] => c
  | '\r' :: '\n' :: rest => ⟨'\n' :: rest, c.index + 1, c.line, c.column + 1⟩
  | ch :: rest =>
    if isBreak ch then ⟨rest, c.index + 1, c.line + 1, 0⟩
    else ⟨rest, c.index + 1, c.line, if ch = '\ufeff' then c.column else c.column + 1⟩

def advance : Nat → Cursor → Cursor
  | 0, c => c
  | n + 1, c => advance n c.next

def takeWhile (c : Cursor) (p : Char → Bool) : List Char × Cursor :=
  let taken := c.rest.takeWhile p
  (taken, advance taken.length c)

def skipWhile (c : Cursor) (p : Char → Bool) : Cursor := (c.takeWhile p).2

def lineBreak? (c : Cursor) : Option (Char × Cursor) :=
  match c.rest with
  | '\r' :: '\n' :: _ => some ('\n', advance 2 c)
  | ch :: _ =>
    if ch = '\u2028' ∨ ch = '\u2029' then some (ch, c.next)
    else if isBreak ch then some ('\n', c.next)
    else none
  | [] => none

def seesSeparator (c : Cursor) : Bool :=
  (c.startsWith ['-', '-', '-'] || c.startsWith ['.', '.', '.']) &&
    (c.peekAt 3).all isBreakOrBlank

def skipComment (c : Cursor) : Cursor :=
  let c := c.skipWhile (· == ' ')
  if c.sees (· == '#') then c.skipWhile (fun ch => !isBreak ch) else c

end Cursor

end RuleHighlight.Yaml
