import RuleHighlight.Text.Integer

/-!
Binary floating-point numbers of 64 bits as exact values: reading a decimal rounds to the nearest
number, a tie to the even one, and printing gives the fewest digits that read back, of those the
nearest to the value. All arithmetic is on integers.
-/

namespace RuleHighlight

/-- A finite number is `significand * 2 ^ exponent`, with the significand below `2 ^ 53` and, but
for the smallest exponent, at least `2 ^ 52`. -/
inductive Binary64
  | finite (negative : Bool) (significand : Nat) (exponent : Int)
  | infinite (negative : Bool)
  | nan
  deriving DecidableEq, Repr

namespace Binary64

def minExponent : Int := -1074

def zero (negative : Bool) : Binary64 := finite negative 0 minExponent

def shift (base : Nat) (e : Int) (num den : Nat) : Nat × Nat :=
  if e < 0 then (num, den * Nat.pow base (-e).toNat) else (num * Nat.pow base e.toNat, den)

def roundDiv (num den : Nat) : Nat :=
  let q := num / den
  let r := 2 * (num % den)
  if r < den then q else if den < r then q + 1 else q + q % 2

def roundAt (negative : Bool) (num den : Nat) (e : Int) : Binary64 :=
  let (n, d) := shift 2 (-e) num den
  let q := roundDiv n d
  let (q, e) := if q = Nat.pow 2 53 then (Nat.pow 2 52, e + 1) else (q, e)
  if 971 < e then infinite negative else finite negative q e

def ofRatio (negative : Bool) (num den : Nat) : Binary64 :=
  if num = 0 then zero negative
  else
    let guess : Int := (num.log2 : Int) - den.log2 - 53
    let fits (e : Int) : Bool :=
      let (n, d) := shift 2 (-e) num den
      decide (n < d * Nat.pow 2 53)
    let e := if fits guess then guess else if fits (guess + 1) then guess + 1 else guess + 2
    roundAt negative num den (max e minExponent)

def ofDecimal (negative : Bool) (digits : Nat) (exponent : Int) : Binary64 :=
  let magnitude : Int := (toString digits).length + exponent
  if digits = 0 ∨ magnitude < -400 then zero negative
  else if 400 < magnitude then infinite negative
  else
    let (num, den) := shift 10 exponent digits 1
    ofRatio negative num den

def ofNat (n : Nat) : Binary64 := ofRatio false n 1

def negate : Binary64 → Binary64
  | finite s m e => finite (!s) m e
  | infinite s => infinite (!s)
  | nan => nan

def dyadic? : Binary64 → Option (Int × Int)
  | finite s m e => some (if s then -(m : Int) else m, e)
  | _ => none

def ofExact (n : Int) (e : Int) : Binary64 :=
  let (num, den) := shift 2 e n.natAbs 1
  ofRatio (decide (n < 0)) num den

def add (a b : Binary64) : Binary64 :=
  match a, b with
  | nan, _ => nan
  | _, nan => nan
  | infinite s, infinite t => if s = t then infinite s else nan
  | infinite s, _ => infinite s
  | _, infinite t => infinite t
  | finite s m e, finite t n f =>
    let low := min e f
    let value (neg : Bool) (k : Nat) (g : Int) : Int :=
      (if neg then -(k : Int) else k) * Nat.pow 2 (g - low).toNat
    let sum := value s m e + value t n f
    if sum = 0 then zero (s && t) else ofExact sum low

def mul (a b : Binary64) : Binary64 :=
  match a, b with
  | nan, _ => nan
  | _, nan => nan
  | infinite s, infinite t => infinite (s != t)
  | infinite s, finite t n _ => if n = 0 then nan else infinite (s != t)
  | finite s m _, infinite t => if m = 0 then nan else infinite (s != t)
  | finite s m e, finite t n f =>
    if m = 0 ∨ n = 0 then zero (s != t)
    else
      let (num, den) := shift 2 (e + f) (m * n) 1
      ofRatio (s != t) num den

def eqInt (a : Binary64) (n : Int) : Bool :=
  match a.dyadic? with
  | some (m, e) => if e < 0 then m == n * Nat.pow 2 (-e).toNat else m * Nat.pow 2 e.toNat == n
  | none => false

def sameNumber : Binary64 → Binary64 → Bool
  | finite s m e, finite t n f => (m == 0 && n == 0) || (s == t && m == n && e == f)
  | a, b => a == b

def signedLt (a b : Int × Int) : Bool :=
  let low := min a.2 b.2
  decide (a.1 * Nat.pow 2 (a.2 - low).toNat < b.1 * Nat.pow 2 (b.2 - low).toNat)

def lt (a b : Binary64) : Bool :=
  match a, b with
  | infinite true, infinite true => false
  | infinite true, finite .. => true
  | infinite true, infinite false => true
  | finite .., infinite false => true
  | a, b =>
    match a.dyadic?, b.dyadic? with
    | some x, some y => signedLt x y
    | _, _ => false

def readUnsigned? (s : List Char) : Option (Nat × Int) :=
  let isDigit (c : Char) : Bool := (Text.decimalValue? c).isSome
  let value (ds : List Char) : Nat :=
    ds.foldl (fun n c => n * 10 + (Text.decimalValue? c).getD 0) 0
  let whole := s.takeWhile isDigit
  let afterWhole := s.dropWhile isDigit
  let (fraction, afterFraction) :=
    match afterWhole with
    | '.' :: rest => (rest.takeWhile isDigit, rest.dropWhile isDigit)
    | rest => ([], rest)
  let mantissa := value (whole ++ fraction)
  let shift : Int := -(fraction.length : Int)
  let exponent? (negative : Bool) (ds : List Char) : Option (Nat × Int) :=
    if ds.isEmpty || !ds.all isDigit then none
    else
      let n : Int := value ds
      some (mantissa, shift + (if negative then -n else n))
  if whole.isEmpty && fraction.isEmpty then none
  else
    match afterFraction with
    | [] => some (mantissa, shift)
    | c :: rest =>
      if c = 'e' ∨ c = 'E' then
        match rest with
        | '-' :: ds => exponent? true ds
        | '+' :: ds => exponent? false ds
        | ds => exponent? false ds
      else
        none

def readMagnitude? (negative : Bool) (s : List Char) : Option Binary64 :=
  let word := String.ofList (s.map Char.toLower)
  if word = "inf" ∨ word = "infinity" then some (infinite negative)
  else if word = "nan" then some nan
  else (readUnsigned? s).map (fun (digits, exponent) => ofDecimal negative digits exponent)

def read? (s : List Char) : Option Binary64 :=
  match Text.trim s with
  | '-' :: rest => readMagnitude? true rest
  | '+' :: rest => readMagnitude? false rest
  | rest => readMagnitude? false rest

def neighbourhood (m : Nat) (e : Int) : Nat × Nat × Nat × Nat × Bool :=
  let atPower := m = Nat.pow 2 52 ∧ minExponent < e
  let (unit, den) := shift 2 (e - 2) 1 1
  ((if atPower then 4 * m - 1 else 4 * m - 2) * unit, 4 * m * unit, (4 * m + 2) * unit, den,
    m % 2 = 0)

def pointPlace (num den : Nat) : Int :=
  let below (k : Int) : Bool :=
    let (n, d) := shift 10 (-k) num den
    decide (n < d)
  let guess : Int := ((num.log2 : Int) - den.log2 - 1) * 30103 / 100000 - 1
  ((List.range 6).map (fun i : Nat => guess + i)).find? below |>.getD guess

def onGrid? (m : Nat) (e power : Int) : Option Nat :=
  let (lo, num, hi, den, closed) := neighbourhood m e
  let (up, down) := shift 10 (-power) 1 1
  let (lo, num, hi, den) := (lo * up, num * up, hi * up, den * down)
  let inside (d : Nat) : Bool :=
    if closed then decide (lo ≤ d * den ∧ d * den ≤ hi) else decide (lo < d * den ∧ d * den < hi)
  let nearest := roundDiv num den
  let other := if nearest = num / den then nearest + 1 else num / den
  if inside nearest then some nearest else if inside other then some other else none

def shortest (m : Nat) (e : Int) : Nat × Int :=
  let (_, num, _, den, _) := neighbourhood m e
  let place := pointPlace num den
  let found := (List.range 17).findSome? fun i : Nat =>
    let power := place - (i + 1)
    (onGrid? m e power).map (fun d => (d, power))
  found.getD (0, 0)

def layout (digits : List Char) (place : Int) : List Char :=
  let zeros (n : Int) : List Char := List.replicate n.toNat '0'
  if -4 < place ∧ place ≤ 16 then
    if place ≤ 0 then '0' :: '.' :: zeros (-place) ++ digits
    else if digits.length ≤ place then digits ++ zeros (place - digits.length) ++ ['.', '0']
    else digits.take place.toNat ++ '.' :: digits.drop place.toNat
  else
    let exponent := place - 1
    let magnitude := (toString exponent.natAbs).toList
    let mark := if exponent < 0 then ['e', '-'] else ['e', '+']
    (match digits with
      | d :: [] => [d]
      | d :: ds => d :: '.' :: ds
      | [] => []) ++
    mark ++ (if magnitude.length < 2 then '0' :: magnitude else magnitude)

def print : Binary64 → List Char
  | nan => ['n', 'a', 'n']
  | infinite s => (if s then ['-'] else []) ++ ['i', 'n', 'f']
  | finite s m e =>
    let sign := if s then ['-'] else []
    if m = 0 then sign ++ ['0', '.', '0']
    else
      let (d, power) := shortest m e
      let all := (toString d).toList
      let digits := (all.reverse.dropWhile (· == '0')).reverse
      sign ++ layout digits (all.length + power)

end Binary64

end RuleHighlight
