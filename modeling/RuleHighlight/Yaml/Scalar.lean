import RuleHighlight.Yaml.Cursor
import RuleHighlight.Yaml.Fault
import RuleHighlight.Text.CodePoint
import RuleHighlight.Text.Integer

/-!
Scalars as they are written: plain, between single or double quotes, or as a block. Line ends inside
a plain or quoted scalar fold: one becomes a space, and of several all but the first stay. Only an
escape can name a surrogate, so the other forms give characters.

Every loop here takes an amount of fuel. It is called with the length of the remaining text, which
is enough, since each turn takes a character.
-/

namespace RuleHighlight.Yaml

def fold (lineBreak : Char) (emptyLines : List Char) : List Char :=
  if lineBreak ≠ '\n' then lineBreak :: emptyLines
  else if emptyLines.isEmpty then [' ']
  else emptyLines

namespace Plain

def isFlowIndicator (c : Char) : Bool := ",[]\x7b\x7d".toList.contains c

def isIndicator (c : Char) : Bool :=
  isBreakOrBlank c || "-?:,[]\x7b\x7d#&*!|>'\"%@\x60".toList.contains c

def startsAt (inFlow : Bool) (c : Cursor) : Bool :=
  match c.rest with
  | [] => false
  | ch :: rest =>
    !isIndicator ch ||
      (rest.head?.any (fun d => !isBreakOrBlank d) &&
        (ch == '-' || (!inFlow && (ch == '?' || ch == ':'))))

def width (inFlow : Bool) : List Char → Nat
  | [] => 0
  | ch :: rest =>
    let endsKey (d : Char) : Bool := isBreakOrBlank d || (inFlow && isFlowIndicator d)
    if isBreakOrBlank ch || (ch == ':' && rest.head?.all endsKey) ||
        (inFlow && (isFlowIndicator ch || ch == '?')) then
      0
    else
      width inFlow rest + 1

def emptyLines : Nat → Cursor → Option (List Char × Cursor)
  | 0, c => some ([], c)
  | fuel + 1, c =>
    let c := c.skipWhile (· == ' ')
    match c.lineBreak? with
    | none => some ([], c)
    | some (b, c) =>
      if c.seesSeparator then none
      else (emptyLines fuel c).map (fun (bs, c) => (b :: bs, c))

def separation (c : Cursor) : List Char × Cursor × Bool :=
  let (spaces, c) := c.takeWhile (· == ' ')
  match c.lineBreak? with
  | none => (spaces, c, false)
  | some (b, c) =>
    if c.seesSeparator then ([], c, true)
    else
      match emptyLines c.rest.length c with
      | none => ([], separatorAfter c.rest.length c, true)
      | some (bs, c) => (fold b bs, c, true)
where
  separatorAfter : Nat → Cursor → Cursor
    | 0, c => c
    | fuel + 1, c =>
      match (c.skipWhile (· == ' ')).lineBreak? with
      | none => c
      | some (_, c) => if c.seesSeparator then c else separatorAfter fuel c

def read (inFlow : Bool) (indent : Int) :
    Nat → List Char → Bool → Cursor → List Char × Cursor × Bool
  | 0, _, newLine, c => ([], c, newLine)
  | fuel + 1, pending, newLine, c =>
    if c.sees (· == '#') then ([], c, newLine)
    else
      match width inFlow c.rest with
      | 0 => ([], c, newLine)
      | n + 1 =>
        let piece := pending ++ c.rest.take (n + 1)
        let (gap, c, newLine) := separation (c.advance (n + 1))
        if gap.isEmpty || c.sees (· == '#') || (!inFlow && decide ((c.column : Int) < indent)) then
          (piece, c, newLine)
        else
          let (more, c, newLine) := read inFlow indent fuel gap newLine c
          (piece ++ more, c, newLine)

end Plain

namespace QuotedScalar

open Text (CodePoint CodeText)

def escape? (c : Char) : Option Char :=
  [('0', '\x00'), ('a', '\x07'), ('b', '\x08'), ('t', '\t'), ('\t', '\t'), ('n', '\n'),
   ('v', '\x0b'), ('f', '\x0c'), ('r', '\r'), ('e', '\x1b'), (' ', ' '), ('"', '"'), ('\\', '\\'),
   ('/', '/'), ('N', '\x85'), ('_', '\xa0'), ('L', '\u2028'), ('P', '\u2029')].lookup c

def codeWidth? (c : Char) : Option Nat := [('x', 2), ('u', 4), ('U', 8)].lookup c

def isHexDigit (c : Char) : Bool :=
  c.isDigit || ('a' ≤ c && c ≤ 'f') || ('A' ≤ c && c ≤ 'F')

def codePoint (n : Nat) : Except Fault CodePoint :=
  match CodePoint.ofNat? n with
  | some p => .ok p
  | none => .error (.scalar (if n < 2147483648 then .codePoint else .codePointSize))

def emptyLines : Nat → Cursor → Except Fault (List Char × Cursor)
  | 0, c => .ok ([], c)
  | fuel + 1, c =>
    if c.seesSeparator then .error .malformed
    else
      let c := c.skipWhile (fun ch => ch == ' ' || ch == '\t')
      match c.lineBreak? with
      | none => .ok ([], c)
      | some (b, c) => do
        let (bs, c) ← emptyLines fuel c
        return (b :: bs, c)

def readEscape (c : Cursor) : Except Fault (CodeText × Cursor) :=
  match c.peek with
  | none => .error .malformed
  | some ch =>
    match escape? ch, codeWidth? ch with
    | some d, _ => .ok ([.char d], c.next)
    | none, some width =>
      let c := c.next
      let digits := (c.rest.take width).takeWhile isHexDigit
      if digits.length < width then .error .malformed
      else do
        let n := digits.foldl (fun n d => n * 16 + (Text.digitValue? d).getD 0) 0
        return ([← codePoint n], c.advance width)
    | none, none =>
      match c.lineBreak? with
      | some (_, c) => do
        let (bs, c) ← emptyLines (c.rest.length + 1) c
        return (.ofChars bs, c)
      | none => .error .malformed

def readBlanks (c : Cursor) : Except Fault (List Char × Cursor) :=
  let (blanks, c) := c.takeWhile (fun ch => ch == ' ' || ch == '\t')
  if c.atEnd then .error .malformed
  else
    match c.lineBreak? with
    | none => .ok (blanks, c)
    | some (b, c) => do
      let (bs, c) ← emptyLines (c.rest.length + 1) c
      return (fold b bs, c)

def read (double : Bool) : Nat → Cursor → Except Fault (CodeText × Cursor)
  | 0, _ => .error .malformed
  | fuel + 1, c =>
    let more (piece : CodeText) (c : Cursor) : Except Fault (CodeText × Cursor) := do
      let (rest, c) ← read double fuel c
      return (piece ++ rest, c)
    match c.rest with
    | [] => .error .malformed
    | ch :: rest =>
      if isBreakOrBlank ch then do
        let (piece, c) ← readBlanks c
        more (.ofChars piece) c
      else if double then
        if ch = '"' then .ok ([], c.next)
        else if ch = '\\' then do
          let (piece, c) ← readEscape c.next
          more piece c
        else more [.char ch] c.next
      else if ch = '\'' then
        if rest.head? = some '\'' then more [.char ch] (c.advance 2) else .ok ([], c.next)
      else more [.char ch] c.next

end QuotedScalar

namespace Block

inductive Chomping
  | strip
  | clip
  | keep
  deriving DecidableEq, Repr

def chomping? (c : Cursor) : Option (Chomping × Cursor) :=
  if c.sees (· == '+') then some (.keep, c.next)
  else if c.sees (· == '-') then some (.strip, c.next)
  else none

def indentation? (c : Cursor) : Except Fault (Option (Nat × Cursor)) :=
  match c.peek with
  | some ch =>
    if ch = '0' then .error .malformed
    else if ch.isDigit then .ok (some (ch.toNat - 48, c.next))
    else .ok none
  | none => .ok none

def header (c : Cursor) : Except Fault (Chomping × Option Nat × Cursor) := do
  let (chomping, increment, c) ←
    match chomping? c with
    | some (chomping, c) =>
      match ← indentation? c with
      | some (n, c) => pure (chomping, some n, c)
      | none => pure (chomping, none, c)
    | none =>
      match ← indentation? c with
      | some (n, c) =>
        match chomping? c with
        | some (chomping, c) => pure (chomping, some n, c)
        | none => pure (.clip, some n, c)
      | none => pure (.clip, none, c)
  if c.endsOr isBreakOrSpace then return (chomping, increment, c) else throw .malformed

def skipIndent : Nat → Nat → Cursor → Cursor
  | 0, _, c => c
  | fuel + 1, indent, c =>
    if c.column < indent && c.sees (· == ' ') then skipIndent fuel indent c.next else c

def emptyLines : Nat → Nat → Cursor → List Char × Cursor
  | 0, _, c => ([], c)
  | fuel + 1, indent, c =>
    let c := skipIndent indent indent c
    match c.lineBreak? with
    | none => ([], c)
    | some (b, c) =>
      let (bs, c) := emptyLines fuel indent c
      (b :: bs, c)

def leadingLines : Nat → Nat → Cursor → List Char × Nat × Cursor
  | 0, widest, c => ([], widest, c)
  | fuel + 1, widest, c =>
    let c := c.skipWhile (· == ' ')
    let widest := max widest c.column
    match c.lineBreak? with
    | none => ([], widest, c)
    | some (b, c) =>
      let (bs, widest, c) := leadingLines fuel widest c
      (b :: bs, widest, c)

def isBlank (c : Char) : Bool := c == ' ' || c == '\t'

def joint (folded blankStart blankNext : Bool) (lineBreak : List Char) (empty : List Char) :
    List Char :=
  if folded && lineBreak == ['\n'] && !blankStart && !blankNext then
    (if empty.isEmpty then [' '] else [])
  else
    lineBreak

def lines (folded : Bool) (chomping : Chomping) (indent : Nat) : Nat → Cursor → List Char × Cursor
  | 0, c => ([], c)
  | fuel + 1, c =>
    let blankStart := c.sees isBlank
    let (line, c) := c.takeWhile (fun ch => !isBreak ch)
    let (lineBreak, c) :=
      match c.lineBreak? with
      | some (b, c) => ([b], c)
      | none => ([], c)
    let (empty, c) := emptyLines (c.rest.length + 1) indent c
    if c.column = indent ∧ !c.atEnd then
      let (more, c') := lines folded chomping indent fuel c
      (line ++ joint folded blankStart (c.sees isBlank) lineBreak empty ++ empty ++ more, c')
    else
      let tail := match chomping with
        | .strip => []
        | .clip => lineBreak
        | .keep => lineBreak ++ empty
      (line ++ tail, c)

def read (folded : Bool) (outer : Int) (c : Cursor) : Except Fault (List Char × Cursor) := do
  let (chomping, increment, c) ← header c
  let c := c.skipComment
  if !c.endsOr isBreak then throw .malformed
  let c := match c.lineBreak? with
    | some (_, c) => c
    | none => c
  let least := (max (outer + 1) 1).toNat
  let fuel := c.rest.length + 1
  let (empty, indent, c) :=
    match increment with
    | some n =>
      let indent := least + n - 1
      let (empty, c) := emptyLines fuel indent c
      (empty, indent, c)
    | none =>
      let (empty, widest, c) := leadingLines fuel 0 c
      (empty, max least widest, c)
  if c.column = indent ∧ !c.atEnd then
    let (text, c) := lines folded chomping indent fuel c
    return (empty ++ text, c)
  else
    return (if chomping = .keep then empty else [], c)

end Block

end RuleHighlight.Yaml
