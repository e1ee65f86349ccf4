import RuleHighlight.Text.Binary64
import RuleHighlight.Text.Quoted
import RuleHighlight.Yaml.Node
import RuleHighlight.Yaml.Timestamp

namespace RuleHighlight.Yaml

open Text (CodeText)

inductive Scalar
  | null
  | boolean (b : Bool)
  | integer (n : Int)
  | float (x : Binary64)
  | text (s : CodeText)
  | bytes (bs : List UInt8)
  | date (d : Date)
  | timestamp (t : Timestamp)
  deriving Repr

inductive Value
  | scalar (s : Scalar)
  | collection (place : Place)
  deriving Repr

inductive Collection
  | list (items : List Value)
  | pairs (items : List (Value × Value))
  | set (keys : List Scalar)
  | mapping (entries : List (Scalar × Value))
  deriving Repr

namespace Scalar

def kind : Scalar → String
  | null => "NoneType"
  | boolean _ => "bool"
  | integer _ => "int"
  | float _ => "float"
  | text _ => "str"
  | bytes _ => "bytes"
  | date _ => "datetime.date"
  | timestamp _ => "datetime.datetime"

def isPresent : Scalar → Bool
  | null => false
  | boolean b => b
  | integer n => n != 0
  | float x => !x.eqInt 0
  | text s => !s.isEmpty
  | bytes bs => !bs.isEmpty
  | date _ | timestamp _ => true

def asInteger? : Scalar → Option Int
  | boolean b => some (if b then 1 else 0)
  | integer n => some n
  | _ => none

def sameKey (a b : Scalar) : Bool :=
  match a, b with
  | null, null => true
  | text s, text t => s == t
  | bytes s, bytes t => s == t
  | date d, date e => d == e
  | timestamp t, timestamp u => t.sameMoment u
  | float x, float y => x.sameNumber y
  | float x, b => match b.asInteger? with
    | some n => x.eqInt n
    | none => false
  | a, float y => match a.asInteger? with
    | some n => y.eqInt n
    | none => false
  | a, b => match a.asInteger?, b.asInteger? with
    | some m, some n => m == n
    | _, _ => false

def byteChar (b : UInt8) (delimiter : Char) : List Char :=
  let n := b.toNat
  let c := Char.ofNat n
  if c = delimiter ∨ c = '\\' then ['\\', c]
  else if c = '\n' then ['\\', 'n']
  else if c = '\r' then ['\\', 'r']
  else if c = '\t' then ['\\', 't']
  else if n < 32 ∨ 127 ≤ n then '\\' :: 'x' :: Text.hexDigits 2 n
  else [c]

def printBytes (bs : List UInt8) : String :=
  let d := Text.Quoted.delimiter (.ofChars (bs.map (fun b => Char.ofNat b.toNat)))
  String.ofList ('b' :: d :: bs.flatMap (byteChar · d) ++ [d])

def print : Scalar → Except PrintFault String
  | null => .ok "None"
  | boolean b => .ok (if b then "True" else "False")
  | integer n => (Text.Integer.print n).mapError .size
  | float x => .ok (String.ofList x.print)
  | text s => .ok s.quoted
  | bytes bs => .ok (printBytes bs)
  | date d => .ok d.print
  | timestamp t => .ok t.print

end Scalar

namespace Collection

def isPresent : Collection → Bool
  | list items => !items.isEmpty
  | pairs items => !items.isEmpty
  | set keys => !keys.isEmpty
  | mapping entries => !entries.isEmpty

def lookup (key : String) : List (Scalar × Value) → Option Value
  | [] => none
  | (.text k, v) :: rest => if k = .ofString key then some v else lookup key rest
  | _ :: rest => lookup key rest

def put (key : Scalar) (value : Value) : List (Scalar × Value) → List (Scalar × Value)
  | [] => [(key, value)]
  | (k, v) :: rest => if k.sameKey key then (k, value) :: rest else (k, v) :: put key value rest

def ofEntries (entries : List (Scalar × Value)) : List (Scalar × Value) :=
  entries.foldl (fun acc (k, v) => put k v acc) []

end Collection

end RuleHighlight.Yaml
