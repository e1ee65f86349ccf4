import RuleHighlight.Render.Json
import RuleHighlight.Proofs.Extents
import RuleHighlight.Proofs.Text.Integer

/-!
A reader of JSON documents, and what it makes of the pieces that are written: a string gives back
its characters however they are escaped, a number its digits, and a block its items.
-/

namespace RuleHighlight.Json

inductive Value
  | null
  | boolean (b : Bool)
  | integer (n : Int)
  | decimal (digits exponent : Int)
  | string (s : List Char)
  | array (items : List Value)
  | object (members : List (List Char × Value))

abbrev Reader (α : Type) := List Char → Option (α × List Char)

def isSpace (c : Char) : Bool := c == ' ' || c == '\t' || c == '\n' || c == '\r'

def skip (s : List Char) : List Char := s.dropWhile isSpace

def hexValue? (c : Char) : Option Nat :=
  if c.isDigit then some (c.toNat - 48)
  else if 'a' ≤ c ∧ c ≤ 'f' then some (c.toNat - 87)
  else if 'A' ≤ c ∧ c ≤ 'F' then some (c.toNat - 55)
  else none

def readUnit : Reader Nat
  | a :: b :: c :: d :: rest => do
    let high := (← hexValue? a) * 16 + (← hexValue? b)
    let low := (← hexValue? c) * 16 + (← hexValue? d)
    return (high * 256 + low, rest)
  | _ => none

def readUnicode : Reader Char := fun s => do
  let (n, rest) ← readUnit s
  if n.isValidChar then return (Char.ofNat n, rest)
  match rest with
  | '\\' :: 'u' :: rest =>
    let (m, rest) ← readUnit rest
    if n < 56320 ∧ 56320 ≤ m ∧ m < 57344 then
      return (Char.ofNat (65536 + (n - 55296) * 1024 + (m - 56320)), rest)
    else none
  | _ => none

def readEscape : Reader Char
  | '"' :: rest => some ('"', rest)
  | '\\' :: rest => some ('\\', rest)
  | '/' :: rest => some ('/', rest)
  | 'b' :: rest => some ('\x08', rest)
  | 'f' :: rest => some ('\x0c', rest)
  | 'n' :: rest => some ('\n', rest)
  | 'r' :: rest => some ('\r', rest)
  | 't' :: rest => some ('\t', rest)
  | 'u' :: rest => readUnicode rest
  | _ => none

def readChar : Reader Char
  | '\\' :: rest => readEscape rest
  | c :: rest => if c.toNat < 32 then none else some (c, rest)
  | [] => none

def readBody : Nat → Reader (List Char)
  | _, '"' :: rest => some ([], rest)
  | 0, _ => none
  | fuel + 1, s => do
    let (c, rest) ← readChar s
    let (cs, rest) ← readBody fuel rest
    return (c :: cs, rest)

def readString : Reader (List Char) := fun s => readBody s.length s

def readDigits : Reader (List Char) := fun s =>
  match s.takeWhile Char.isDigit with
  | [] => none
  | ds => some (ds, s.dropWhile Char.isDigit)

def readWhole : Reader (List Char) := fun s => do
  match ← readDigits s with
  | ('0' :: _ :: _, _) => none
  | found => return found

def readFraction : Reader (List Char)
  | '.' :: rest => readDigits rest
  | s => some ([], s)

def readSign : List Char → Int × List Char
  | '-' :: rest => (-1, rest)
  | '+' :: rest => (1, rest)
  | rest => (1, rest)

def readExponent : Reader (Option Int)
  | c :: rest =>
    if c = 'e' ∨ c = 'E' then do
      let (ds, tail) ← readDigits (readSign rest).2
      return (some ((readSign rest).1 * Nat.ofDigitChars 10 ds 0), tail)
    else some (none, c :: rest)
  | [] => some (none, [])

def readNumber (sign : Int) : Reader Value := fun s => do
  let (whole, rest) ← readWhole s
  let (fraction, rest) ← readFraction rest
  let (exponent, rest) ← readExponent rest
  let digits := sign * Nat.ofDigitChars 10 (whole ++ fraction) 0
  if fraction.isEmpty && exponent.isNone then return (.integer digits, rest)
  return (.decimal digits (exponent.getD 0 - fraction.length), rest)

def readWord : Reader Value
  | 'n' :: 'u' :: 'l' :: 'l' :: rest => some (.null, rest)
  | 't' :: 'r' :: 'u' :: 'e' :: rest => some (.boolean true, rest)
  | 'f' :: 'a' :: 'l' :: 's' :: 'e' :: rest => some (.boolean false, rest)
  | '-' :: rest => readNumber (-1) rest
  | s => readNumber 1 s

section Sequences

variable {α : Type}

def readItems (closing : Char) (item : Reader α) : Nat → Reader (List α)
  | 0, _ => none
  | fuel + 1, s => do
    let (a, rest) ← item s
    match skip rest with
    | c :: rest =>
      if c = closing then return ([a], rest)
      else if c = ',' then
        let (more, rest) ← readItems closing item fuel rest
        return (a :: more, rest)
      else none
    | [] => none

def readSequence (closing : Char) (item : Reader α) : Reader (List α) := fun s =>
  match skip s with
  | c :: rest => if c = closing then some ([], rest) else readItems closing item s.length s
  | [] => none

end Sequences

def readMember (value : Reader Value) : Reader (List Char × Value) := fun s =>
  match skip s with
  | '"' :: rest => do
    let (key, rest) ← readString rest
    match skip rest with
    | ':' :: rest =>
      let (v, rest) ← value rest
      return ((key, v), rest)
    | _ => none
  | _ => none

def readValue : Nat → Reader Value
  | 0, _ => none
  | depth + 1, s =>
    match skip s with
    | '"' :: rest => (readString rest).map (Prod.map .string id)
    | '[' :: rest => (readSequence ']' (readValue depth) rest).map (Prod.map .array id)
    | '\x7b' :: rest =>
      (readSequence '\x7d' (readMember (readValue depth)) rest).map (Prod.map .object id)
    | s => readWord s

def parse (s : List Char) : Option Value := do
  let (v, rest) ← readValue s.length s
  if rest.all isSpace then return v else none

theorem skip_append {blank : List Char} {c : Char} {s : List Char}
    (hblank : ∀ d ∈ blank, isSpace d = true) (hc : isSpace c = false) :
    skip (blank ++ c :: s) = c :: s :=
  Text.dropWhile_of_all hblank hc s

section Strings

variable (rest : List Char)

theorem hexValue?_hexDigit : ∀ n < 16, hexValue? (Text.hexDigit n) = some n := by decide

theorem readUnit_hexDigits {n : Nat} (hn : n < 65536) :
    readUnit (Text.hexDigits 4 n ++ rest) = some (n, rest) := by
  have hdigit (k : Nat) : hexValue? (Text.hexDigit (k % 16)) = some (k % 16) :=
    hexValue?_hexDigit _ (Nat.mod_lt _ (by decide))
  simp only [Text.hexDigits, List.nil_append, List.cons_append, readUnit, hdigit,
    Option.bind_eq_bind, Option.bind_some, Option.pure_def, Option.some_inj, Prod.mk.injEq,
    and_true]
  omega

theorem readUnicode_hexDigits {c : Char} (hc : c.toNat < 65536) :
    readUnicode (Text.hexDigits 4 c.toNat ++ rest) = some (c, rest) := by
  have hvalid : c.toNat.isValidChar := c.valid
  simp only [readUnicode, readUnit_hexDigits rest hc, Option.bind_eq_bind, Option.bind_some,
    if_pos hvalid, Char.ofNat_toNat, Option.pure_def]

theorem readChar_escape (c : Char) : readChar (escape c ++ rest) = some (c, rest) := by
  unfold escape
  split_ifs with hquote hslash hn hr ht hb hf hcontrol
  iterate 7
    · subst_vars
      rfl
  · exact readUnicode_hexDigits rest (Nat.lt_trans hcontrol (by decide))
  · rw [List.singleton_append, readChar, if_neg hcontrol]
    exact hslash

theorem escape_ne_quote (c : Char) (s : List Char) : escape c ++ rest ≠ '"' :: s := by
  intro hs
  unfold escape at hs
  split_ifs at hs with hquote
  case neg => exact hquote (List.cons.inj hs).1
  all_goals cases (List.cons.inj hs).1

theorem length_le_length_escape (s : List Char) : s.length ≤ (s.flatMap escape).length := by
  induction s with
  | nil => exact Nat.le_refl _
  | cons c s ih =>
    have hc : 0 < (escape c).length := by
      unfold escape
      split_ifs
      all_goals exact Nat.succ_pos _
    simp only [List.flatMap_cons, List.length_cons, List.length_append]
    omega

theorem readBody_escape {s : List Char} {fuel : Nat} (hfuel : s.length ≤ fuel) :
    readBody fuel (s.flatMap escape ++ '"' :: rest) = some (s, rest) := by
  induction s generalizing fuel with
  | nil => rw [List.flatMap_nil, List.nil_append, readBody]
  | cons c s ih =>
    obtain ⟨fuel, rfl⟩ := Nat.exists_eq_add_of_lt (Nat.lt_of_lt_of_le (Nat.succ_pos _) hfuel)
    rw [Nat.zero_add] at hfuel ⊢
    rw [List.flatMap_cons, List.append_assoc, readBody]
    · simp only [readChar_escape, Option.bind_eq_bind, Option.bind_some,
        ih (Nat.le_of_succ_le_succ hfuel), Option.pure_def]
    · exact escape_ne_quote _ c

theorem readString_escape (s : List Char) :
    readString (s.flatMap escape ++ '"' :: rest) = some (s, rest) := by
  have hlength := length_le_length_escape s
  apply readBody_escape
  rw [List.length_append]
  omega

end Strings

section Numbers

def endsNumber (rest : List Char) : Bool :=
  !rest.head?.any (fun c => c.isDigit || c == '.' || c == 'e' || c == 'E')

variable {rest : List Char}

theorem head?_toDigits_ne_zero {n : Nat} (hn : 0 < n) : (Nat.toDigits 10 n).head? ≠ some '0' := by
  induction n using Nat.strongRecOn with
  | ind n ih =>
    by_cases hsmall : n < 10
    · have hdigit : ∀ d < 10, 0 < d → [Nat.digitChar d].head? ≠ some '0' := by decide
      rw [Nat.toDigits_of_lt_base hsmall]
      exact hdigit n hsmall hn
    · have hlarge : 10 ≤ n := Nat.le_of_not_lt hsmall
      have hfront := ih (n / 10) (by omega) (by omega)
      rw [Nat.toDigits_of_base_le (by decide) hlarge]
      cases hdigits : Nat.toDigits 10 (n / 10) with
      | nil => exact absurd hdigits Nat.toDigits_ne_nil
      | cons d ds =>
        rw [hdigits] at hfront
        exact hfront

theorem readDigits_toDigits (n : Nat) (hrest : endsNumber rest = true) :
    readDigits (Nat.toDigits 10 n ++ rest) = some (Nat.toDigits 10 n, rest) := by
  have hall : ∀ c ∈ Nat.toDigits 10 n, c.isDigit = true := fun c hc =>
    Nat.isDigit_of_mem_toDigits (by decide) (by decide) hc
  have hstop : rest.takeWhile Char.isDigit = [] ∧ rest.dropWhile Char.isDigit = rest := by
    cases rest with
    | nil => exact ⟨rfl, rfl⟩
    | cons c rest =>
      have hc : c.isDigit = false := by
        simp only [endsNumber, List.head?_cons, Option.any_some, Bool.not_eq_true',
          Bool.or_eq_false_iff] at hrest
        exact hrest.1.1.1
      simp [hc]
  rw [readDigits, List.takeWhile_append_of_pos hall, List.dropWhile_append_of_pos hall, hstop.1,
    hstop.2, List.append_nil]
  split
  · next hnil => exact absurd hnil Nat.toDigits_ne_nil
  · rfl

theorem readWhole_toDigits (n : Nat) (hrest : endsNumber rest = true) :
    readWhole (Nat.toDigits 10 n ++ rest) = some (Nat.toDigits 10 n, rest) := by
  simp only [readWhole, readDigits_toDigits n hrest, Option.bind_eq_bind, Option.bind_some]
  -- of several digits the first is not a zero
  split
  · next heq =>
    exfalso
    have hdigits := (Prod.mk.inj heq).1
    rcases Nat.eq_zero_or_pos n with rfl | hn
    · cases hdigits
    · apply head?_toDigits_ne_zero hn
      rw [hdigits]
      rfl
  · rfl

theorem readFraction_of_ends (hrest : endsNumber rest = true) :
    readFraction rest = some ([], rest) := by
  rw [readFraction]
  rintro tail rfl
  cases hrest

theorem readExponent_of_ends (hrest : endsNumber rest = true) :
    readExponent rest = some (none, rest) := by
  cases rest with
  | nil => rfl
  | cons c rest =>
    have hc : ¬ (c = 'e' ∨ c = 'E') := by
      rintro (rfl | rfl) <;> cases hrest
    rw [readExponent, if_neg hc]

theorem readNumber_toDigits (sign : Int) (n : Nat) (hrest : endsNumber rest = true) :
    readNumber sign (Nat.toDigits 10 n ++ rest) = some (.integer (sign * n), rest) := by
  simp only [readNumber, readWhole_toDigits n hrest, readFraction_of_ends hrest,
    readExponent_of_ends hrest, Option.bind_eq_bind, Option.bind_some, List.append_nil,
    Nat.ofDigitChars_ten_toDigits, List.isEmpty_nil, Option.isNone_none, Bool.and_self, if_true,
    Option.pure_def]

theorem exists_toDigits_eq_cons (n : Nat) :
    ∃ c s, Nat.toDigits 10 n = c :: s ∧ c.isDigit = true := by
  obtain ⟨c, s, hchars⟩ := List.exists_cons_of_ne_nil (Nat.toDigits_ne_nil (b := 10) (n := n))
  have hc : c ∈ Nat.toDigits 10 n := by
    rw [hchars]
    exact List.mem_cons_self
  exact ⟨c, s, hchars, Nat.isDigit_of_mem_toDigits (by decide) (by decide) hc⟩

theorem readWord_toDigits (n : Nat) (hrest : endsNumber rest = true) :
    readWord (Nat.toDigits 10 n ++ rest) = some (.integer n, rest) := by
  have hne (c : Char) (hc : c.isDigit = false) (tail : List Char) :
      Nat.toDigits 10 n ++ rest ≠ c :: tail := by
    obtain ⟨d, ds, hdigits, hd⟩ := exists_toDigits_eq_cons n
    rw [hdigits]
    rintro ⟨⟩
    rw [hc] at hd
    cases hd
  rw [readWord, readNumber_toDigits 1 n hrest, Int.one_mul]
  · exact fun _ => hne 'n' rfl _
  · exact fun _ => hne 't' rfl _
  · exact fun _ => hne 'f' rfl _
  · exact fun _ => hne '-' rfl _

theorem readWord_toString (n : Int) (hrest : endsNumber rest = true) :
    readWord ((toString n).toList ++ rest) = some (.integer n, rest) := by
  cases n with
  | ofNat n =>
    rw [Text.Integer.toList_toString_ofNat]
    exact readWord_toDigits n hrest
  | negSucc n =>
    rw [Text.Integer.toList_toString_negSucc, List.cons_append, readWord, readNumber_toDigits (-1) (n + 1) hrest]
    congr 3
    omega

theorem readValue_toString (depth : Nat) {blank : List Char}
    (hblank : ∀ c ∈ blank, isSpace c = true) (n : Int) (hrest : endsNumber rest = true) :
    readValue (depth + 1) (blank ++ ((toString n).toList ++ rest)) = some (.integer n, rest) := by
  have hfront : ∃ c s, (toString n).toList = c :: s ∧ (c = '-' ∨ c.isDigit = true) := by
    cases n with
    | ofNat n =>
      obtain ⟨c, s, hchars, hc⟩ := exists_toDigits_eq_cons n
      exact ⟨c, s, (Text.Integer.toList_toString_ofNat n).trans hchars, .inr hc⟩
    | negSucc n => exact ⟨'-', _, Text.Integer.toList_toString_negSucc n, .inl rfl⟩
  obtain ⟨c, s, hchars, hc⟩ := hfront
  have hspace : isSpace c = false := by
    by_contra hspace
    simp only [isSpace, Bool.not_eq_false, Bool.or_eq_true, beq_iff_eq] at hspace
    obtain ((rfl | rfl) | rfl) | rfl := hspace
    all_goals rcases hc with hc | hc <;> cases hc
  have hskip : skip (blank ++ ((toString n).toList ++ rest)) = c :: (s ++ rest) := by
    rw [hchars]
    exact skip_append hblank hspace
  have hread := readWord_toString n hrest
  rw [hchars, List.cons_append] at hread
  simp only [readValue, hskip]
  split
  all_goals rename_i heq
  iterate 3
    cases heq
    rcases hc with hc | hc <;> cases hc
  exact hread

end Numbers

section Blocks

variable {α β : Type} {closing : Char} {item : Reader β} {write : α → List Char}
  {value : α → β}

def Rereads (item : Reader β) (write : α → List Char) (value : α → β) (a : α) : Prop :=
  ∀ blank rest, (∀ c ∈ blank, isSpace c = true) → endsNumber rest = true →
    item (blank ++ (write a ++ rest)) = some (value a, rest)

def StartsItem (closing : Char) (write : α → List Char) (a : α) : Prop :=
  ∃ c s, write a = c :: s ∧ isSpace c = false ∧ c ≠ closing

theorem readItems_comma {fuel : Nat} {s rest tail : List Char} {b : β} {bs : List β}
    (hcomma : closing ≠ ',') (hitem : item s = some (b, ',' :: rest))
    (hmore : readItems closing item fuel rest = some (bs, tail)) :
    readItems closing item (fuel + 1) s = some (b :: bs, tail) := by
  have hskip : skip (',' :: rest) = ',' :: rest := rfl
  simp only [readItems, hitem, hskip, if_neg hcomma.symm, if_true, hmore, Option.bind_eq_bind,
    Option.bind_some, Option.pure_def]

theorem readItems_intercalate {inner outer rest : List Char} {a : α} {as : List α} {fuel : Nat}
    (hitem : ∀ b ∈ a :: as, Rereads item write value b)
    (hinner : ∀ c ∈ inner, isSpace c = true) (houter : ∀ c ∈ outer, isSpace c = true)
    (hends : endsNumber (outer ++ closing :: rest) = true) (hspace : isSpace closing = false)
    (hcomma : closing ≠ ',') (hfuel : as.length ≤ fuel) :
    readItems closing item (fuel + 1) (inner ++ ((',' :: inner).intercalate ((a :: as).map write) ++
      (outer ++ closing :: rest))) = some ((a :: as).map value, rest) := by
  induction as generalizing a fuel with
  | nil =>
    have hread := hitem a List.mem_cons_self inner _ hinner hends
    simp only [List.map_cons, List.map_nil, List.intercalate_singleton, readItems, hread,
      Option.bind_eq_bind, Option.bind_some, skip_append houter hspace, if_true, Option.pure_def]
  | cons b bs ih =>
    obtain ⟨fuel, rfl⟩ := Nat.exists_eq_add_of_le' hfuel
    have hmore := ih (fun d hd => hitem d (List.mem_cons_of_mem a hd))
      (Nat.le_add_left bs.length fuel)
    simp only [List.map_cons, List.intercalate_cons_cons, List.append_assoc, List.cons_append]
    -- a comma ends a number, so the item is read up to it
    exact readItems_comma hcomma (hitem a List.mem_cons_self inner _ hinner rfl) hmore

theorem length_le_length_intercalate (sep : List Char) {as : List α}
    (hitem : ∀ a ∈ as, StartsItem closing write a) :
    as.length ≤ (sep.intercalate (as.map write)).length := by
  induction as with
  | nil => exact Nat.zero_le _
  | cons a as ih =>
    obtain ⟨c, s, ha, -⟩ := hitem a List.mem_cons_self
    have has := ih fun b hb => hitem b (List.mem_cons_of_mem a hb)
    cases as with
    | nil => simp [ha]
    | cons b bs =>
      simp only [List.map_cons, List.intercalate_cons_cons, List.length_append, List.length_cons,
        ha] at has ⊢
      omega

theorem readSequence_intercalate {inner outer rest : List Char} {a : α} {as : List α}
    (hstart : ∀ b ∈ a :: as, StartsItem closing write b)
    (hitem : ∀ b ∈ a :: as, Rereads item write value b)
    (hinner : ∀ c ∈ inner, isSpace c = true) (houter : ∀ c ∈ outer, isSpace c = true)
    (hends : endsNumber (outer ++ closing :: rest) = true) (hspace : isSpace closing = false)
    (hcomma : closing ≠ ',') :
    readSequence closing item (inner ++ ((',' :: inner).intercalate ((a :: as).map write) ++
      (outer ++ closing :: rest))) = some ((a :: as).map value, rest) := by
  obtain ⟨c, s, ha, hc, hne⟩ := hstart a List.mem_cons_self
  have hfront : ∃ tail, (',' :: inner).intercalate ((a :: as).map write) = c :: tail := by
    cases as with
    | nil => exact ⟨s, by rw [List.map_singleton, List.intercalate_singleton, ha]⟩
    | cons b bs =>
      rw [List.map_cons, List.map_cons, List.intercalate_cons_cons, ha]
      exact ⟨_, rfl⟩
  obtain ⟨tail, htail⟩ := hfront
  have hlength := length_le_length_intercalate (',' :: inner) hstart
  generalize htext : inner ++ ((',' :: inner).intercalate ((a :: as).map write) ++
    (outer ++ closing :: rest)) = text
  have hskip : skip text = c :: (tail ++ (outer ++ closing :: rest)) := by
    rw [← htext, htail]
    exact skip_append hinner hc
  have hfuel : as.length < text.length := by
    rw [← htext, List.length_append, List.length_append]
    exact Nat.lt_of_lt_of_le hlength (by omega)
  obtain ⟨fuel, hfuel⟩ := Nat.exists_eq_add_of_lt hfuel
  rw [readSequence, hskip]
  dsimp only
  rw [if_neg hne, hfuel, ← htext]
  exact readItems_intercalate hitem hinner houter hends hspace hcomma (Nat.le_add_right _ _)

theorem readValue_array {depth : Nat} {s tail rest : List Char} {items : List Value}
    (hs : skip s = '[' :: tail)
    (hitems : readSequence ']' (readValue depth) tail = some (items, rest)) :
    readValue (depth + 1) s = some (.array items, rest) := by
  simp only [readValue, hs, hitems]
  rfl

theorem readValue_object {depth : Nat} {s tail rest : List Char}
    {members : List (List Char × Value)} (hs : skip s = '\x7b' :: tail)
    (hmembers : readSequence '\x7d' (readMember (readValue depth)) tail = some (members, rest)) :
    readValue (depth + 1) s = some (.object members, rest) := by
  simp only [readValue, hs, hmembers]
  rfl

theorem readSequence_block {margin : Nat} {as : List α} {rest : List Char} {opening : Char}
    (hstart : ∀ a ∈ as, StartsItem closing write a)
    (hitem : ∀ a ∈ as, Rereads item write value a)
    (hspace : isSpace closing = false) (hcomma : closing ≠ ',') :
    ∃ tail, block opening closing margin (as.map write) ++ rest = opening :: tail ∧
      readSequence closing item tail = some (as.map value, rest) := by
  cases as with
  | nil =>
    refine ⟨closing :: rest, rfl, ?_⟩
    have hskip : skip (closing :: rest) = closing :: rest :=
      skip_append (List.forall_mem_nil _) hspace
    simp only [readSequence, hskip, if_true, List.map_nil]
  | cons a as =>
    have hblank (n : Nat) : ∀ c ∈ '\n' :: List.replicate n ' ', isSpace c = true := by
      intro c hc
      rcases List.mem_cons.mp hc with rfl | hc
      · rfl
      · rw [(List.mem_replicate.mp hc).2]
        rfl
    refine ⟨_, ?_, readSequence_intercalate hstart hitem (hblank (margin + 2)) (hblank margin) rfl
      hspace hcomma⟩
    simp only [block, List.map_cons, List.append_assoc, List.cons_append, List.nil_append]

end Blocks

end RuleHighlight.Json
