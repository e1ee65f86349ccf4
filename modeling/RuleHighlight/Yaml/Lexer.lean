import RuleHighlight.Yaml.Scalar
import RuleHighlight.Yaml.Token
import RuleHighlight.Text.Utf8

/-!
From text to tokens. Indentation becomes start and end tokens, as brackets do. Whether a scalar is
a key shows only at the colon after it, so each place where a key may start keeps a slot, which the
colon fills or which stays empty. Such a key must fit on one line and in 1024 characters.
-/

namespace RuleHighlight.Yaml

structure KeySlot where
  slot : Nat
  required : Bool
  index : Nat
  line : Nat
  column : Nat
  deriving Repr

/-- The state between two tokens. The slots hold the tokens so far. The keys are those that may
still become keys, one at most for each open bracket and one outside; the innermost is first. -/
structure Lexer where
  cursor : Cursor
  slots : Array (List Token)
  indent : Int
  outerIndents : List Int
  keys : List (Option KeySlot)
  keyAllowed : Bool

namespace Lexer

def maxKeyWidth : Nat := 1024

def start (text : List Char) : Lexer := ⟨.start text, #[], -1, [], [none], true⟩

def inFlow (l : Lexer) : Bool := l.keys.length > 1

def column (l : Lexer) : Int := l.cursor.column

def push (l : Lexer) (t : Token) : Lexer := { l with slots := l.slots.push [t] }

def isStale (l : Lexer) (k : KeySlot) : Bool :=
  k.line != l.cursor.line || decide (maxKeyWidth < l.cursor.index - k.index)

def dropStaleKeys (l : Lexer) : Except Fault Lexer := do
  let keys ← l.keys.mapM fun key =>
    match key with
    | some k =>
      if l.isStale k then (if k.required then throw .malformed else return none) else return some k
    | none => return none
  return { l with keys }

def dropKey (l : Lexer) : Except Fault Lexer :=
  match l.keys with
  | some k :: outer =>
    if k.required then .error .malformed else .ok { l with keys := none :: outer }
  | _ => .ok l

def offerKey (l : Lexer) : Except Fault Lexer := do
  if !l.keyAllowed then return l
  let l ← l.dropKey
  let c := l.cursor
  let key : KeySlot :=
    ⟨l.slots.size, !l.inFlow && l.indent == l.column, c.index, c.line, c.column⟩
  return { l with slots := l.slots.push [], keys := some key :: l.keys.tail }

def unwind (l : Lexer) (column : Int) : Lexer :=
  if l.inFlow then l else go l l.outerIndents
where
  go (l : Lexer) : List Int → Lexer
    | [] => l
    | outer :: rest =>
      if column < l.indent then
        go { l.push .blockEnd with indent := outer, outerIndents := rest } rest
      else l

def indentTo (l : Lexer) (column : Int) : Bool × Lexer :=
  if l.indent < column then
    (true, { l with outerIndents := l.indent :: l.outerIndents, indent := column })
  else (false, l)

def openBlock (l : Lexer) (t : Token) : Lexer :=
  match l.indentTo l.column with
  | (true, l) => l.push t
  | (false, l) => l

def takeIndicator (l : Lexer) (width : Nat) (t : Token) : Lexer :=
  { l.push t with cursor := l.cursor.advance width }

def skipBlanks (l : Lexer) : Lexer :=
  let c := l.cursor
  let c := if c.index = 0 && c.sees (· == '\ufeff') then c.next else c
  go (c.rest.length + 1) { l with cursor := c }
where
  go : Nat → Lexer → Lexer
    | 0, l => l
    | fuel + 1, l =>
      let c := l.cursor.skipComment
      match c.lineBreak? with
      | some (_, c) => go fuel { l with cursor := c, keyAllowed := l.keyAllowed || !l.inFlow }
      | none => { l with cursor := c }

def isNameChar (c : Char) : Bool := c.isAlphanum || c == '-' || c == '_'

def isUriChar (c : Char) : Bool := c.isAlphanum || "-;/?:@&=+$,_.!~*'()[]%".toList.contains c

def escapedBytes : Nat → Cursor → Except Fault (List UInt8 × Cursor)
  | 0, c => .ok ([], c)
  | fuel + 1, c =>
    if c.sees (· == '%') then
      let c := c.next
      let digits := (c.rest.take 2).takeWhile QuotedScalar.isHexDigit
      if digits.length < 2 then .error .malformed
      else do
        let n := digits.foldl (fun n d => n * 16 + (Text.digitValue? d).getD 0) 0
        let (bs, c) ← escapedBytes fuel (c.advance 2)
        return (UInt8.ofNat n :: bs, c)
    else .ok ([], c)

def uriFrom : Nat → Cursor → Except Fault (List Char × Cursor)
  | 0, c => .ok ([], c)
  | fuel + 1, c => do
    let (plain, c) := c.takeWhile (fun ch => isUriChar ch && ch != '%')
    if c.sees (· == '%') then
      let (bs, c) ← escapedBytes c.rest.length c
      match Utf8.decode bs with
      | .error _ => throw .malformed
      | .ok chars =>
        let (more, c) ← uriFrom fuel c
        return (plain ++ chars ++ more, c)
    else return (plain, c)

def uri (c : Cursor) : Except Fault (String × Cursor) := do
  let (chars, after) ← uriFrom (c.rest.length + 1) c
  if after.index = c.index then throw .malformed
  return (String.ofList chars, after)

def tagHandle (c : Cursor) : Except Fault (String × Cursor) := do
  if !c.sees (· == '!') then throw .malformed
  let after := c.next
  if after.sees (· == ' ') then return ("!", after)
  let (name, after) := after.takeWhile isNameChar
  if after.sees (· == '!') then return ("!" ++ String.ofList name ++ "!", after.next)
  else throw .malformed

def number (c : Cursor) : Except Fault (Nat × Cursor) :=
  let (digits, c) := c.takeWhile Char.isDigit
  if digits.isEmpty then .error .malformed
  else if Text.maxDigits < digits.length then
    .error (.scalar (.integerSize digits.length))
  else .ok (Written.number digits, c)

def directiveValue (name : String) (c : Cursor) : Except Fault (Directive × Cursor) := do
  if name = "YAML" then
    let (major, c) ← number (c.skipWhile (· == ' '))
    if !c.sees (· == '.') then throw .malformed
    let (minor, c) ← number c.next
    if c.endsOr isBreakOrSpace then return (.version major minor, c) else throw .malformed
  else if name = "TAG" then
    let (handle, c) ← tagHandle (c.skipWhile (· == ' '))
    if !c.sees (· == ' ') then throw .malformed
    let (expansion, c) ← uri (c.skipWhile (· == ' '))
    if c.endsOr isBreakOrSpace then return (.tagHandle handle expansion, c) else throw .malformed
  else
    return (.other, c.skipWhile (fun ch => !isBreak ch))

def directive (c : Cursor) : Except Fault (Directive × Cursor) := do
  let (name, c) := c.takeWhile isNameChar
  if name.isEmpty || !c.endsOr isBreakOrSpace then throw .malformed
  let (d, c) ← directiveValue (String.ofList name) c
  let c := c.skipComment
  if !c.endsOr isBreak then throw .malformed
  match c.lineBreak? with
  | some (_, c) => return (d, c)
  | none => return (d, c)

def anchorName (c : Cursor) : Except Fault (String × Cursor) :=
  let (name, c) := c.takeWhile isNameChar
  let ends (ch : Char) : Bool := isBreakOrBlank ch || "?:,]\x7d%@\x60".toList.contains ch
  if name.isEmpty || !c.endsOr ends then
    .error .malformed
  else .ok (String.ofList name, c)

def tag (c : Cursor) : Except Fault (Option String × String × Cursor) := do
  let after := c.next
  let (handle, suffix, c) ←
    if after.sees (· == '<') then
      let (suffix, after) ← uri after.next
      if after.sees (· == '>') then pure (none, suffix, after.next) else throw .malformed
    else if after.endsOr isBreakOrBlank then
      pure (none, "!", after)
    else if (after.rest.takeWhile (fun ch => !isBreakOrSpace ch)).contains '!' then
      let (handle, after) ← tagHandle c
      let (suffix, after) ← uri after
      pure (some handle, suffix, after)
    else
      let (suffix, after) ← uri after
      pure (some "!", suffix, after)
  if c.endsOr isBreakOrSpace then return (handle, suffix, c) else throw .malformed

def readSeparator (l : Lexer) (t : Token) : Except Fault Lexer := do
  let l ← (l.unwind (-1)).dropKey
  return { l.takeIndicator 3 t with keyAllowed := false }

def readDirective (l : Lexer) : Except Fault Lexer := do
  let l ← (l.unwind (-1)).dropKey
  let (d, c) ← directive l.cursor.next
  return { l.push (.directive d) with cursor := c, keyAllowed := false }

def openFlow (l : Lexer) (t : Token) : Except Fault Lexer := do
  let l ← l.offerKey
  return { l.takeIndicator 1 t with keys := none :: l.keys, keyAllowed := true }

def closeFlow (l : Lexer) (t : Token) : Except Fault Lexer := do
  let l ← l.dropKey
  if l.inFlow then return { l.takeIndicator 1 t with keys := l.keys.tail, keyAllowed := false }
  else throw .malformed

def readFlowEntry (l : Lexer) : Except Fault Lexer := do
  let l ← { l with keyAllowed := true }.dropKey
  return l.takeIndicator 1 .flowEntry

def readBlockEntry (l : Lexer) : Except Fault Lexer := do
  if !l.inFlow && !l.keyAllowed then throw .malformed
  let l := if l.inFlow then l else l.openBlock .blockSequenceStart
  let l ← { l with keyAllowed := true }.dropKey
  return l.takeIndicator 1 .blockEntry

def readKey (l : Lexer) : Except Fault Lexer := do
  if !l.inFlow && !l.keyAllowed then throw .malformed
  let l := if l.inFlow then l else l.openBlock .blockMappingStart
  let l ← { l with keyAllowed := !l.inFlow }.dropKey
  return l.takeIndicator 1 .key

def readValue (l : Lexer) : Except Fault Lexer := do
  match l.keys with
  | some k :: outer =>
    let l := { l with keys := none :: outer, keyAllowed := false }
    let (opened, l) := if l.inFlow then (false, l) else l.indentTo k.column
    let tokens := if opened then [.blockMappingStart, .key] else [.key]
    let l := { l with slots := l.slots.setIfInBounds k.slot tokens }
    return l.takeIndicator 1 .value
  | _ =>
    if !l.inFlow && !l.keyAllowed then throw .malformed
    let l := if l.inFlow then l else l.openBlock .blockMappingStart
    return { l with keyAllowed := !l.inFlow }.takeIndicator 1 .value

def readNamed (l : Lexer) (token : String → Token) : Except Fault Lexer := do
  let l ← l.offerKey
  let (name, c) ← anchorName l.cursor.next
  return { l.push (token name) with cursor := c, keyAllowed := false }

def readTag (l : Lexer) : Except Fault Lexer := do
  let l ← l.offerKey
  let (handle, suffix, c) ← tag l.cursor
  return { l.push (.tag handle suffix) with cursor := c, keyAllowed := false }

def readBlockScalar (l : Lexer) (folded : Bool) : Except Fault Lexer := do
  let l ← { l with keyAllowed := true }.dropKey
  let (text, c) ← Block.read folded l.indent l.cursor.next
  return { l.push (.scalar (.ofChars text) false) with cursor := c }

def readQuoted (l : Lexer) (double : Bool) : Except Fault Lexer := do
  let l ← l.offerKey
  let c := l.cursor.next
  let (text, c) ← QuotedScalar.read double (c.rest.length + 1) c
  return { l.push (.scalar text false) with cursor := c, keyAllowed := false }

def readPlain (l : Lexer) : Except Fault Lexer := do
  let l ← l.offerKey
  let c := l.cursor
  let (text, c, newLine) := Plain.read l.inFlow (l.indent + 1) (c.rest.length + 1) [] false c
  return { l.push (.scalar (.ofChars text) true) with cursor := c, keyAllowed := newLine }

def standsAlone (l : Lexer) : Bool := (l.cursor.peekAt 1).all isBreakOrBlank

def read (l : Lexer) (ch : Char) : Except Fault Lexer :=
  let atLineStart := l.cursor.column = 0
  if ch = '%' ∧ atLineStart then l.readDirective
  else if ch = '-' ∧ atLineStart ∧ l.cursor.seesSeparator then l.readSeparator .documentStart
  else if ch = '.' ∧ atLineStart ∧ l.cursor.seesSeparator then l.readSeparator .documentEnd
  else if ch = '[' then l.openFlow .flowSequenceStart
  else if ch = '\x7b' then l.openFlow .flowMappingStart
  else if ch = ']' then l.closeFlow .flowSequenceEnd
  else if ch = '\x7d' then l.closeFlow .flowMappingEnd
  else if ch = ',' then l.readFlowEntry
  else if ch = '-' ∧ l.standsAlone then l.readBlockEntry
  else if ch = '?' ∧ (l.inFlow || l.standsAlone) then l.readKey
  else if ch = ':' ∧ (l.inFlow || l.standsAlone) then l.readValue
  else if ch = '*' then l.readNamed .alias
  else if ch = '&' then l.readNamed .anchor
  else if ch = '!' then l.readTag
  else if ch = '|' ∧ !l.inFlow then l.readBlockScalar false
  else if ch = '>' ∧ !l.inFlow then l.readBlockScalar true
  else if ch = '\'' then l.readQuoted false
  else if ch = '"' then l.readQuoted true
  else if Plain.startsAt l.inFlow l.cursor then l.readPlain
  else .error .malformed

def step (l : Lexer) : Except Fault (Lexer × Bool) := do
  let l ← l.skipBlanks.dropStaleKeys
  let l := l.unwind l.column
  match l.cursor.peek with
  | none => return (← (l.unwind (-1)).dropKey, true)
  | some ch => return (← l.read ch, false)

def settled (l : Lexer) : List Token :=
  let pending := l.keys.filterMap fun key =>
    match key with
    | some k => if l.isStale k then none else some k.slot
    | none => none
  (l.slots.toList.take (pending.foldl min l.slots.size)).flatten

def run : Nat → Lexer → TokenStream
  | 0, l => ⟨l.settled, some .malformed⟩
  | fuel + 1, l =>
    match l.step with
    | .error fault => ⟨l.settled, some fault⟩
    | .ok (l, true) => ⟨l.slots.toList.flatten, none⟩
    | .ok (l, false) => run fuel l

end Lexer

def TokenStream.ofText (text : List Char) : TokenStream :=
  if text.all isAllowed then Lexer.run (text.length + 1) (.start text)
  else ⟨[], some .malformed⟩

end RuleHighlight.Yaml
