import RuleHighlight.Yaml.Fault
import RuleHighlight.Yaml.Tag
import RuleHighlight.Yaml.Token

/-!
From tokens to the graph of nodes of the one document that a stream may hold. A node has a place in
the graph, and the nodes that hold it name that place, so one node may stand in several others, and
inside itself.
-/

namespace RuleHighlight.Yaml

open Text (CodeText)

abbrev Place := Nat

inductive Content
  | scalar (text : CodeText)
  | sequence (items : List Place)
  | mapping (entries : List (Place × Place))
  deriving Repr

structure Node where
  tag : Tag
  content : Content
  deriving Repr

namespace Node

def nothing : Node := ⟨.null, .scalar []⟩

/-- What is known while the tokens are read: those left, the fault after them, the tag handles, the
nodes so far, the places of those under anchors, and how many collections are open. A collection
has its place before its end is reached. -/
structure Reading where
  tokens : List Token
  fault : Option Fault
  handles : List (String × String)
  nodes : Array Node
  anchors : List (String × Place)
  depth : Nat

abbrev Read := StateT Reading (Except Fault)

def peek : Read (Option Token) := do
  let r ← get
  match r.tokens, r.fault with
  | t :: _, _ => return some t
  | [], some fault => throw fault
  | [], none => return none

def drop : Read Unit := modify fun r => { r with tokens := r.tokens.tail }

def malformed {α : Type} : Read α := throw .malformed

def accept (t : Token) : Read Bool := do
  if (← peek) = some t then drop; return true else return false

def nextIn (ts : List Token) : Read Bool := do
  match ← peek with
  | some t => return ts.contains t
  | none => return false

def standardHandles : List (String × String) := [("!", "!"), ("!!", Tag.core)]

def tagName (handle : Option String) (suffix : String) : Read String := do
  match handle with
  | none => return suffix
  | some h =>
    match (← get).handles.lookup h with
    | some expansion => return expansion ++ suffix
    | none => malformed

def properties : Read (Option String × Option String) := do
  match ← peek with
  | some (.anchor a) =>
    drop
    match ← peek with
    | some (.tag h s) => drop; return (some a, some (← tagName h s))
    | _ => return (some a, none)
  | some (.tag h s) =>
    drop
    match ← peek with
    | some (.anchor a) => drop; return (some a, some (← tagName h s))
    | _ => return (none, some (← tagName h s))
  | _ => return (none, none)

def add (n : Node) : Read Place :=
  modifyGet fun r => (r.nodes.size, { r with nodes := r.nodes.push n })

def reserve (anchor : Option String) : Read Place := do
  let p ← add nothing
  match anchor with
  | some a => modify fun r => { r with anchors := (a, p) :: r.anchors }
  | none => pure ()
  return p

def put (p : Place) (n : Node) : Read Unit :=
  modify fun r => { r with nodes := r.nodes.setIfInBounds p n }

def maxDepth : Nat := 490

def inside {α : Type} (content : Read α) : Read α := do
  if maxDepth ≤ (← get).depth then throw (.tooDeep .nodes)
  modify fun r => { r with depth := r.depth + 1 }
  let a ← content
  modify fun r => { r with depth := r.depth - 1 }
  return a

def aliased (anchor : String) : Read Place := do
  match (← get).anchors.lookup anchor with
  | some p => return p
  | none => malformed

def checkNew (anchor : Option String) : Read Unit := do
  match anchor with
  | some a => if ((← get).anchors.lookup a).isSome then malformed
  | none => return

def scalarTag (tag : Option String) (plain : Bool) (text : CodeText) : Tag :=
  match tag with
  | none => if plain then .ofPlain text else .string
  | some "!" => .ofPlain text
  | some name => .ofName name

def collectionTag (tag : Option String) (standard : Tag) : Tag :=
  match tag with
  | none => standard
  | some "!" => standard
  | some name => .ofName name

mutual

def read : Nat → Bool → Bool → Read Place
  | 0, _, _ => malformed
  | fuel + 1, inBlock, unindented => do
    if let some (.alias name) ← peek then
      drop
      aliased name
    else
      let (anchor, tag) ← properties
      let next ← peek
      checkNew anchor
      let p ← reserve anchor
      let scalar (plain : Bool) (text : CodeText) : Read Unit :=
        put p ⟨scalarTag tag plain text, .scalar text⟩
      let sequence (items : Read (List Place)) : Read Unit := do
        put p ⟨collectionTag tag .sequence, .sequence (← inside items)⟩
      let mapping (entries : Read (List (Place × Place))) : Read Unit := do
        put p ⟨collectionTag tag .mapping, .mapping (← inside entries)⟩
      -- A node without content must have properties.
      let empty : Read Unit := if anchor.isNone && tag.isNone then malformed else scalar true []
      match next with
      | some (.scalar text plain) => drop; scalar plain text
      | some .flowSequenceStart => drop; sequence (readFlowItems fuel true)
      | some .flowMappingStart => drop; mapping (readFlowEntries fuel true)
      | some .blockEntry => if unindented then sequence (readUnindented fuel) else empty
      | some .blockSequenceStart => if inBlock then drop; sequence (readItems fuel) else empty
      | some .blockMappingStart => if inBlock then drop; mapping (readEntries fuel) else empty
      | _ => empty
      return p

def readUnless : Nat → List Token → Bool → Bool → Read Place
  | 0, _, _, _ => malformed
  | fuel + 1, ends, inBlock, unindented => do
    if ← nextIn ends then add nothing else read fuel inBlock unindented

def readItems : Nat → Read (List Place)
  | 0 => malformed
  | fuel + 1 => do
    if ← accept .blockEntry then
      let n ← readUnless fuel [.blockEntry, .blockEnd] true false
      return n :: (← readItems fuel)
    else if ← accept .blockEnd then return []
    else malformed

def readUnindented : Nat → Read (List Place)
  | 0 => malformed
  | fuel + 1 => do
    if ← accept .blockEntry then
      let n ← readUnless fuel [.blockEntry, .key, .value, .blockEnd] true false
      return n :: (← readUnindented fuel)
    else return []

def readEntries : Nat → Read (List (Place × Place))
  | 0 => malformed
  | fuel + 1 => do
    let ends : List Token := [.key, .value, .blockEnd]
    if ← accept .key then
      let k ← readUnless fuel ends true true
      let v ← if ← accept .value then readUnless fuel ends true true else add nothing
      return (k, v) :: (← readEntries fuel)
    else if ← accept .blockEnd then return []
    else malformed

def readFlowEntry : Nat → Token → Read (Place × Place)
  | 0, _ => malformed
  | fuel + 1, close => do
    let k ← readUnless fuel [.value, .flowEntry, close] false false
    let v ← if ← accept .value then readUnless fuel [.flowEntry, close] false false
      else add nothing
    return (k, v)

def readFlowItems : Nat → Bool → Read (List Place)
  | 0, _ => malformed
  | fuel + 1, first => do
    if ← accept .flowSequenceEnd then return []
    if !first then
      if !(← accept .flowEntry) then malformed
    if ← accept .flowSequenceEnd then return []
    else if ← accept .key then
      let e ← inside (readFlowEntry fuel .flowSequenceEnd)
      let n ← add ⟨.mapping, .mapping [e]⟩
      return n :: (← readFlowItems fuel false)
    else
      let n ← read fuel false false
      return n :: (← readFlowItems fuel false)

def readFlowEntries : Nat → Bool → Read (List (Place × Place))
  | 0, _ => malformed
  | fuel + 1, first => do
    if ← accept .flowMappingEnd then return []
    if !first then
      if !(← accept .flowEntry) then malformed
    if ← accept .flowMappingEnd then return []
    else if ← accept .key then
      let e ← readFlowEntry fuel .flowMappingEnd
      return e :: (← readFlowEntries fuel false)
    else
      let k ← read fuel false false
      let v ← add nothing
      return (k, v) :: (← readFlowEntries fuel false)

end

def readDirectives : Nat → Bool → Read Unit
  | 0, _ => malformed
  | fuel + 1, versionSeen => do
    match ← peek with
    | some (.directive d) =>
      drop
      match d with
      | .version major _ =>
        if versionSeen || major != 1 then malformed
        readDirectives fuel true
      | .tagHandle handle expansion =>
        if ((← get).handles.lookup handle).isSome then malformed
        modify fun r => { r with handles := (handle, expansion) :: r.handles }
        readDirectives fuel versionSeen
      | .other => readDirectives fuel versionSeen
    | _ => modify fun r => { r with handles := r.handles ++ standardHandles }

def dropEnds : Nat → Read Unit
  | 0 => malformed
  | fuel + 1 => do if ← accept .documentEnd then dropEnds fuel

def readMarked (fuel : Nat) : Read Place := do
  readDirectives fuel false
  if !(← accept .documentStart) then malformed
  match ← peek with
  | none => add nothing
  | some (.directive _) => add nothing
  | some .documentStart => add nothing
  | some .documentEnd => add nothing
  | some _ => read fuel true false

def readBare (fuel : Nat) : Read Place := do
  modify fun r => { r with handles := standardHandles }
  read fuel true false

def readStream (fuel : Nat) : Read (Option Place) := do
  match ← peek with
  | none => return none
  | some t =>
    let p ←
      match t with
      | .directive _ => readMarked fuel
      | .documentStart => readMarked fuel
      | _ => readBare fuel
    dropEnds fuel
    match ← peek with
    | none => return some p
    | some _ =>
      modify fun r => { r with handles := [] }
      readDirectives fuel false
      malformed

/-- Every call takes a token or ends at the next one, and between two tokens there are few. -/
def fuelFor (tokens : List Token) : Nat := 8 * tokens.length + 8

end Node

structure Graph where
  nodes : Array Node
  root : Place

namespace Graph

def ofStream? (s : TokenStream) : Except Fault (Option Graph) := do
  let (p, r) ← (Node.readStream (Node.fuelFor s.tokens)).run ⟨s.tokens, s.fault, [], #[], [], 0⟩
  return p.map fun p => ⟨r.nodes, p⟩

end Graph

end RuleHighlight.Yaml
