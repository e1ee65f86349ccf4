import RuleHighlight.Yaml.Document
import RuleHighlight.Yaml.Lexer
import RuleHighlight.Yaml.Node
import RuleHighlight.Yaml.ScalarValue

/-!
From the graph of nodes to a document, and so from text to a document. Scalars get their values when
they are met first. Collections are filled in the order in which they are met, so of several faults
the one that counts is the first in that order.
-/

namespace RuleHighlight.Yaml

open Text (CodeText)

namespace Document

structure Building where
  nodes : Array Node
  values : Array (Option Value)
  collections : Array Collection
  waiting : List Place
  bound : Nat

abbrev Build := StateT Building (Except Fault)

def malformed {α : Type} : Build α := throw .malformed

def nodeAt (p : Place) : Build Node := do
  match (← get).nodes[p]? with
  | some n => return n
  | none => malformed

def entriesAt (p : Place) : Build (List (Place × Place)) := do
  match (← nodeAt p).content with
  | .mapping entries => return entries
  | _ => malformed

def setNode (p : Place) (n : Node) : Build Unit :=
  modify fun b => { b with nodes := b.nodes.setIfInBounds p n }

def setEntries (p : Place) (entries : List (Place × Place)) : Build Unit := do
  setNode p { ← nodeAt p with content := .mapping entries }

def splitAtMerge : List (Place × Place) →
    Build (Option (List (Place × Place) × Place × List (Place × Place)))
  | [] => return none
  | (k, v) :: rest => do
    if (← nodeAt k).tag = .merge then return some ([], v, rest)
    else return (← splitAtMerge rest).map fun (front, p, back) => ((k, v) :: front, p, back)

def nameDefault (k : Place) : Build Unit := do
  let n ← nodeAt k
  if n.tag = .defaultValue then setNode k { n with tag := .string }

def maxMerges : Nat := 985

mutual

/-- Gives a mapping the entries of the mappings that it merges, in front of its own. An entry that
merges is taken out before what it merges is looked at, so a mapping may merge itself, and each call
inside another has one such entry less to meet. -/
def flatten : Nat → Nat → Place → Build Unit
  | 0, _, _ => return
  | fuel + 1, depth, p => do
    if maxMerges < depth then throw (.tooDeep .merges)
    let entries ← entriesAt p
    match ← splitAtMerge entries with
    | some (front, merged, back) =>
      setEntries p (front ++ back)
      let inherited ← mergedEntries fuel (depth + 1) merged
      flatten fuel depth p
      setEntries p (inherited ++ (← entriesAt p))
    | none => entries.forM fun (k, _) => nameDefault k

def mergedEntries : Nat → Nat → Place → Build (List (Place × Place))
  | 0, _, _ => return []
  | fuel + 1, depth, p => do
    match (← nodeAt p).content with
    | .mapping _ => flatten fuel depth p; entriesAt p
    | .sequence items =>
      let parts ← items.mapM fun item => do
        match (← nodeAt item).content with
        | .mapping _ => flatten fuel depth item; entriesAt item
        | _ => malformed
      return parts.reverse.flatten
    | .scalar _ => malformed

end

def maxDefaults : Nat := 985

def textAt : Nat → Place → Build CodeText
  | 0, _ => throw (.tooDeep .nodes)
  | fuel + 1, p => do
    match (← nodeAt p).content with
    | .scalar s => return s
    | .sequence _ => malformed
    | .mapping entries =>
      let defaults ← entries.filterM fun (k, _) => return (← nodeAt k).tag = .defaultValue
      match defaults with
      | (_, v) :: _ => textAt fuel v
      | [] => malformed

def emptyCollection? : Tag → Option Collection
  | .sequence => some (.list [])
  | .orderedPairs => some (.pairs [])
  | .pairs => some (.pairs [])
  | .set => some (.set [])
  | .mapping => some (.mapping [])
  | _ => none

def setCollection (p : Place) (c : Collection) : Build Unit :=
  modify fun b => { b with collections := b.collections.setIfInBounds p c }

def newValue (p : Place) : Build Value := do
  let tag := (← nodeAt p).tag
  match Scalar.ofText? tag, emptyCollection? tag with
  | some read, _ => return .scalar (← read (← textAt maxDefaults p))
  | none, some c =>
    setCollection p c
    modify fun b => { b with waiting := p :: b.waiting }
    return .collection p
  | none, none => malformed

def valueAt (p : Place) : Build Value := do
  match ((← get).values[p]?).join with
  | some v => return v
  | none =>
    let v ← newValue p
    modify fun b => { b with values := b.values.setIfInBounds p (some v) }
    return v

def mappingAt (p : Place) : Build (List (Scalar × Value)) := do
  match (← nodeAt p).content with
  | .mapping _ =>
    flatten (2 * (← get).bound) 1 p
    let entries ← (← entriesAt p).mapM fun (k, v) => do
      match ← valueAt k with
      | .scalar key => return (key, ← valueAt v)
      | .collection _ => malformed
    return Collection.ofEntries entries
  | _ => malformed

def itemsAt (p : Place) : Build (List Place) := do
  match (← nodeAt p).content with
  | .sequence items => return items
  | _ => malformed

def pairAt (p : Place) : Build (Value × Value) := do
  match ← entriesAt p with
  | [(k, v)] => return (← valueAt k, ← valueAt v)
  | _ => malformed

def fill (p : Place) : Build Unit := do
  match (← get).collections[p]? with
  | some (.list _) => setCollection p (.list (← (← itemsAt p).mapM valueAt))
  | some (.pairs _) => setCollection p (.pairs (← (← itemsAt p).mapM pairAt))
  | some (.set _) => setCollection p (.set ((← mappingAt p).map Prod.fst))
  | some (.mapping _) => setCollection p (.mapping (← mappingAt p))
  | none => malformed

/-- Fills the collections that wait, then those met meanwhile, until none is left. Every round needs
a node that was not met before. -/
def fillAll : Nat → Build Unit
  | 0 => return
  | rounds + 1 => do
    let waiting := (← get).waiting
    if waiting.isEmpty then return
    modify fun b => { b with waiting := [] }
    waiting.reverse.forM fill
    fillAll rounds

def boundOf (nodes : Array Node) : Nat :=
  nodes.foldl (fun n node =>
    match node.content with
    | .mapping entries => n + entries.length + 1
    | _ => n + 1) 1

def ofGraph (g : Graph) : Except Fault Document := do
  let size := g.nodes.size
  let build : Build Value := do
    let root ← valueAt g.root
    fillAll (size + 1)
    return root
  let (root, b) ← build.run
    ⟨g.nodes, Array.replicate size none, Array.replicate size (.list []), [], boundOf g.nodes⟩
  return ⟨root, b.collections⟩

def ofText (text : List Char) : Except Fault Document := do
  match ← Graph.ofStream? (.ofText text) with
  | none => return ofScalar .null
  | some g => ofGraph g

end Document

end RuleHighlight.Yaml
