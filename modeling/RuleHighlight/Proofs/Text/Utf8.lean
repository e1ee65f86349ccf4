import RuleHighlight.Text.Utf8
import Mathlib.Data.List.Forall2

/-!
What is read of bytes that encode characters. Strict reading gives back the characters whose
encodings the bytes are, one after the other, and fails on all other bytes. Where it does not fail,
lenient reading gives the same.
-/

namespace RuleHighlight.Utf8

inductive Sequence : Bytes → Nat → Prop
  | one {a : UInt8} (ha : a.toNat < 128) : Sequence [a] a.toNat
  | two {a x : UInt8} (ha : 194 ≤ a.toNat ∧ a.toNat < 224) (hx : 128 ≤ x.toNat ∧ x.toNat ≤ 191) :
      Sequence [a, x] (a.toNat % 32 * 64 + x.toNat % 64)
  | three {a x y : UInt8} (ha : 224 ≤ a.toNat ∧ a.toNat < 240)
      (hx : 128 ≤ x.toNat ∧ x.toNat ≤ 191) (hy : 128 ≤ y.toNat ∧ y.toNat ≤ 191)
      (hlong : a.toNat = 224 → 160 ≤ x.toNat) (hsurrogate : a.toNat = 237 → x.toNat ≤ 159) :
      Sequence [a, x, y] ((a.toNat % 16 * 64 + x.toNat % 64) * 64 + y.toNat % 64)
  | four {a x y z : UInt8} (ha : 240 ≤ a.toNat ∧ a.toNat ≤ 244)
      (hx : 128 ≤ x.toNat ∧ x.toNat ≤ 191) (hy : 128 ≤ y.toNat ∧ y.toNat ≤ 191)
      (hz : 128 ≤ z.toNat ∧ z.toNat ≤ 191)
      (hlong : a.toNat = 240 → 144 ≤ x.toNat) (hlast : a.toNat = 244 → x.toNat ≤ 143) :
      Sequence [a, x, y, z]
        (((a.toNat % 8 * 64 + x.toNat % 64) * 64 + y.toNat % 64) * 64 + z.toNat % 64)

theorem utf8EncodeChar_ofNat {n : Nat} (hn : n.isValidChar) :
    String.utf8EncodeChar (Char.ofNat n) =
      if n ≤ 127 then [.ofNat n]
      else if n ≤ 2047 then [.ofNat (n / 64 % 32 + 192), .ofNat (n % 64 + 128)]
      else if n ≤ 65535 then
        [.ofNat (n / 4096 % 16 + 224), .ofNat (n / 64 % 64 + 128), .ofNat (n % 64 + 128)]
      else
        [.ofNat (n / 262144 % 8 + 240), .ofNat (n / 4096 % 64 + 128), .ofNat (n / 64 % 64 + 128),
          .ofNat (n % 64 + 128)] := by
  have hval : (Char.ofNat n).val.toNat = n := by
    rw [Char.ofNat, dif_pos hn]
    rfl
  simp only [String.utf8EncodeChar, hval]

theorem Sequence.encode {bytes : Bytes} {n : Nat} (h : Sequence bytes n) :
    String.utf8EncodeChar (Char.ofNat n) = bytes := by
  have hbyte (m : Nat) (a : UInt8) (hm : m = a.toNat) : UInt8.ofNat m = a := by
    rw [hm, UInt8.ofNat_toNat]
  cases h with
  | @one a ha =>
    rw [utf8EncodeChar_ofNat (.inl (by omega)), if_pos (by omega), UInt8.ofNat_toNat]
  | @two a x ha hx =>
    rw [utf8EncodeChar_ofNat (.inl (by omega)), if_neg (by omega), if_pos (by omega),
      hbyte _ a (by omega), hbyte _ x (by omega)]
  | @three a x y ha hx hy hlong hsurrogate =>
    -- behind 237 the bound of the next byte keeps the number below the surrogates
    have hvalid : ((a.toNat % 16 * 64 + x.toNat % 64) * 64 + y.toNat % 64).isValidChar := by
      rw [Nat.isValidChar]
      omega
    rw [utf8EncodeChar_ofNat hvalid, if_neg (by omega), if_neg (by omega), if_pos (by omega),
      hbyte _ a (by omega), hbyte _ x (by omega), hbyte _ y (by omega)]
  | @four a x y z ha hx hy hz hlong hlast =>
    have hvalid : (((a.toNat % 8 * 64 + x.toNat % 64) * 64 + y.toNat % 64) * 64 +
        z.toNat % 64).isValidChar := by
      rw [Nat.isValidChar]
      omega
    rw [utf8EncodeChar_ofNat hvalid, if_neg (by omega), if_neg (by omega), if_neg (by omega),
      hbyte _ a (by omega), hbyte _ x (by omega), hbyte _ y (by omega), hbyte _ z (by omega)]

theorem toNat_ofNat {n : Nat} (hn : n < 256) : (UInt8.ofNat n).toNat = n := by
  rw [UInt8.toNat_ofNat', Nat.mod_eq_of_lt hn]

theorem sequence_encode (c : Char) : Sequence (String.utf8EncodeChar c) c.toNat := by
  have hvalid : c.toNat < 55296 ∨ 57343 < c.toNat ∧ c.toNat < 1114112 := c.valid
  have hencode := utf8EncodeChar_ofNat hvalid
  rw [Char.ofNat_toNat] at hencode
  rw [hencode]
  generalize c.toNat = n at hvalid
  have hlast : (UInt8.ofNat (n % 64 + 128)).toNat = n % 64 + 128 := toNat_ofNat (by omega)
  have hmiddle : (UInt8.ofNat (n / 64 % 64 + 128)).toNat = n / 64 % 64 + 128 :=
    toNat_ofNat (by omega)
  split_ifs with hone htwo hthree
  · have ha : (UInt8.ofNat n).toNat = n := toNat_ofNat (by omega)
    have hseq := Sequence.one (a := .ofNat n) (by omega)
    rwa [ha] at hseq
  · have ha : (UInt8.ofNat (n / 64 % 32 + 192)).toNat = n / 64 % 32 + 192 := toNat_ofNat (by omega)
    convert Sequence.two (a := .ofNat (n / 64 % 32 + 192)) (x := .ofNat (n % 64 + 128)) (by omega)
      (by omega) using 1
    omega
  · have ha : (UInt8.ofNat (n / 4096 % 16 + 224)).toNat = n / 4096 % 16 + 224 :=
      toNat_ofNat (by omega)
    convert Sequence.three (a := .ofNat (n / 4096 % 16 + 224)) (x := .ofNat (n / 64 % 64 + 128))
      (y := .ofNat (n % 64 + 128)) (by omega) (by omega) (by omega) (by omega) (by omega) using 1
    omega
  · have ha : (UInt8.ofNat (n / 262144 % 8 + 240)).toNat = n / 262144 % 8 + 240 :=
      toNat_ofNat (by omega)
    have hx : (UInt8.ofNat (n / 4096 % 64 + 128)).toNat = n / 4096 % 64 + 128 :=
      toNat_ofNat (by omega)
    convert Sequence.four (a := .ofNat (n / 262144 % 8 + 240)) (x := .ofNat (n / 4096 % 64 + 128))
      (y := .ofNat (n / 64 % 64 + 128)) (z := .ofNat (n % 64 + 128)) (by omega) (by omega)
      (by omega) (by omega) (by omega) (by omega) using 1
    omega

namespace Piece

def Within (b : UInt8) (bounds : Nat × Nat) : Prop := bounds.1 ≤ b.toNat ∧ b.toNat ≤ bounds.2

theorem complete_eq_char_iff {bounds : List (Nat × Nat)} {bytes : Bytes} {value taken w : Nat}
    {c : Char} : complete value taken bounds bytes = char c w ↔
      ∃ tail more, bytes = tail ++ more ∧ List.Forall₂ Within tail bounds ∧
        c = Char.ofNat (tail.foldl (fun v b => v * 64 + b.toNat % 64) value) ∧
        w = taken + tail.length := by
  induction bounds generalizing value taken bytes with
  | nil =>
    rw [complete]
    constructor
    · rintro ⟨⟩
      exact ⟨[], bytes, rfl, .nil, rfl, rfl⟩
    · rintro ⟨tail, more, -, htail, rfl, rfl⟩
      cases htail
      rfl
  | cons b bounds ih =>
    obtain ⟨lo, hi⟩ := b
    cases bytes with
    | nil =>
      constructor
      · rintro ⟨⟩
      · rintro ⟨tail, more, hbytes, htail, -, -⟩
        cases htail
        cases hbytes
    | cons b bytes =>
      rw [complete]
      split_ifs with hb
      · rw [ih]
        constructor
        · rintro ⟨tail, more, rfl, htail, rfl, rfl⟩
          refine ⟨b :: tail, more, rfl, .cons hb htail, rfl, ?_⟩
          rw [List.length_cons]
          omega
        · rintro ⟨tail, more, hbytes, htail, rfl, rfl⟩
          cases htail with
          | cons hd htail =>
            cases hbytes
            refine ⟨_, more, rfl, htail, rfl, ?_⟩
            rw [List.length_cons]
            omega
      · constructor
        · rintro ⟨⟩
        · rintro ⟨tail, more, hbytes, htail, -, -⟩
          cases htail with
          | cons hd htail =>
            cases hbytes
            exact absurd hd hb

section Lead

variable {a : UInt8} (rest : Bytes)

theorem first_two (ha : 194 ≤ a.toNat ∧ a.toNat < 224) :
    first a rest = complete (a.toNat % 32) 1 [(128, 191)] rest := by
  simp only [first]
  rw [if_neg (by omega), if_neg (by omega), if_pos ha.2]

theorem first_three (ha : 224 ≤ a.toNat ∧ a.toNat < 240) :
    first a rest = complete (a.toNat % 16) 1
      [(if a.toNat = 224 then 160 else 128, if a.toNat = 237 then 159 else 191), (128, 191)]
      rest := by
  by_cases hlong : a.toNat = 224
  · simp only [first, hlong]
    rfl
  by_cases hsurrogate : a.toNat = 237
  · simp only [first, hsurrogate]
    rfl
  · have hone : ¬ a.toNat < 128 := by omega
    have hstart : ¬ a.toNat < 194 := by omega
    have htwo : ¬ a.toNat < 224 := by omega
    simp only [first, if_neg hone, if_neg hstart, if_neg htwo, if_neg hlong, if_neg hsurrogate,
      if_pos ha.2]

theorem first_four (ha : 240 ≤ a.toNat ∧ a.toNat ≤ 244) :
    first a rest = complete (a.toNat % 8) 1
      [(if a.toNat = 240 then 144 else 128, if a.toNat = 244 then 143 else 191), (128, 191),
        (128, 191)] rest := by
  by_cases hlong : a.toNat = 240
  · simp only [first, hlong]
    rfl
  by_cases hlast : a.toNat = 244
  · simp only [first, hlast]
    rfl
  · have hone : ¬ a.toNat < 128 := by omega
    have hstart : ¬ a.toNat < 194 := by omega
    have htwo : ¬ a.toNat < 224 := by omega
    have hlong' : ¬ a.toNat = 224 := by omega
    have hsurrogate : ¬ a.toNat = 237 := by omega
    have hthree : ¬ a.toNat < 240 := by omega
    have hfour : a.toNat < 244 := by omega
    simp only [first, if_neg hone, if_neg hstart, if_neg htwo, if_neg hlong', if_neg hsurrogate,
      if_neg hthree, if_neg hlong, if_neg hlast, if_pos hfour]

variable {rest}

theorem first_of_sequence {tail : Bytes} {n : Nat} (h : Sequence (a :: tail) n) (more : Bytes) :
    first a (tail ++ more) = char (Char.ofNat n) (tail.length + 1) := by
  cases h with
  | one ha =>
    rw [first, if_pos ha]
    rfl
  | two ha hx =>
    rw [first_two _ ha]
    exact complete_eq_char_iff.mpr ⟨_, more, rfl, .cons hx .nil, rfl, rfl⟩
  | three ha hx hy hlong hsurrogate =>
    rw [first_three _ ha]
    refine complete_eq_char_iff.mpr ⟨_, more, rfl, .cons ?_ (.cons hy .nil), rfl, rfl⟩
    unfold Within
    split_ifs <;> omega
  | four ha hx hy hz hlong hlast =>
    rw [first_four _ ha]
    refine complete_eq_char_iff.mpr ⟨_, more, rfl, .cons ?_ (.cons hy (.cons hz .nil)), rfl, rfl⟩
    unfold Within
    split_ifs <;> omega

theorem sequence_of_first {c : Char} {w : Nat} (h : first a rest = char c w) :
    ∃ tail more n, rest = tail ++ more ∧ Sequence (a :: tail) n ∧ c = Char.ofNat n ∧
      w = tail.length + 1 := by
  by_cases hone : a.toNat < 128
  · rw [first, if_pos hone] at h
    cases h
    exact ⟨[], rest, _, rfl, .one hone, rfl, rfl⟩
  by_cases htwo : 194 ≤ a.toNat ∧ a.toNat < 224
  · rw [first_two rest htwo] at h
    obtain ⟨tail, more, rfl, htail, rfl, rfl⟩ := complete_eq_char_iff.mp h
    obtain _ | ⟨hx, _ | _⟩ := htail
    exact ⟨_, more, _, rfl, .two htwo hx, rfl, rfl⟩
  by_cases hthree : 224 ≤ a.toNat ∧ a.toNat < 240
  · rw [first_three rest hthree] at h
    obtain ⟨tail, more, rfl, htail, rfl, rfl⟩ := complete_eq_char_iff.mp h
    obtain _ | ⟨hx, _ | ⟨hy, _ | _⟩⟩ := htail
    unfold Within at hx
    refine ⟨_, more, _, rfl, .three hthree ?_ hy ?_ ?_, rfl, rfl⟩
    all_goals
      split_ifs at hx <;> omega
  by_cases hfour : 240 ≤ a.toNat ∧ a.toNat ≤ 244
  · rw [first_four rest hfour] at h
    obtain ⟨tail, more, rfl, htail, rfl, rfl⟩ := complete_eq_char_iff.mp h
    obtain _ | ⟨hx, _ | ⟨hy, _ | ⟨hz, _ | _⟩⟩⟩ := htail
    unfold Within at hx
    refine ⟨_, more, _, rfl, .four hfour ?_ hy hz ?_ ?_, rfl, rfl⟩
    all_goals
      split_ifs at hx <;> omega
  · have hbad : ∃ fault, first a rest = bad fault 1 := by
      refine ⟨.invalidStart, ?_⟩
      by_cases hstart : a.toNat < 194
      · simp only [first, if_neg hone, if_pos hstart]
      · have htwo : ¬ a.toNat < 224 := by omega
        have hlong : ¬ a.toNat = 224 := by omega
        have hsurrogate : ¬ a.toNat = 237 := by omega
        have hthree : ¬ a.toNat < 240 := by omega
        have hlong' : ¬ a.toNat = 240 := by omega
        have hfour : ¬ a.toNat < 244 := by omega
        have hlast : ¬ a.toNat = 244 := by omega
        simp only [first, if_neg hone, if_neg hstart, if_neg htwo, if_neg hlong, if_neg hsurrogate,
          if_neg hthree, if_neg hlong', if_neg hfour, if_neg hlast]
    obtain ⟨fault, hfault⟩ := hbad
    rw [hfault] at h
    cases h

end Lead

theorem listFrom_append (tail rest : Bytes) :
    listFrom tail.length (tail ++ rest) = listFrom 0 rest := by
  induction tail with
  | nil => rfl
  | cons b tail ih => exact ih

theorem list_encode_append (c : Char) (rest : Bytes) :
    list (String.utf8EncodeChar c ++ rest) =
      char c (String.utf8EncodeChar c).length :: list rest := by
  have hseq := sequence_encode c
  cases hbytes : String.utf8EncodeChar c with
  | nil =>
    rw [hbytes] at hseq
    cases hseq
  | cons a tail =>
    rw [hbytes] at hseq
    rw [List.cons_append, list, listFrom, first_of_sequence hseq, Char.ofNat_toNat]
    dsimp only [width]
    rw [Nat.add_sub_cancel, listFrom_append]
    rfl

theorem exists_append_of_first {a : UInt8} {rest : Bytes} {c : Char} {w : Nat}
    (h : first a rest = char c w) : ∃ more, a :: rest = String.utf8EncodeChar c ++ more := by
  obtain ⟨tail, more, n, rfl, hseq, rfl, -⟩ := sequence_of_first h
  exact ⟨more, by rw [hseq.encode, List.cons_append]⟩

end Piece

theorem collect_encode (start : Nat) (text : List Char) :
    collect start (Piece.list (text.flatMap String.utf8EncodeChar)) = .ok text := by
  induction text generalizing start with
  | nil => rfl
  | cons c text ih =>
    rw [List.flatMap_cons, Piece.list_encode_append, collect, ih]
    rfl

theorem collect_cons_eq_ok {p : Piece} {rest : List Piece} {start : Nat} {text : List Char}
    (h : collect start (p :: rest) = .ok text) :
    ∃ c w tail, p = .char c w ∧ text = c :: tail ∧ collect (start + w) rest = .ok tail := by
  cases p with
  | bad fault w => cases h
  | char c w =>
    rw [collect] at h
    cases hrest : collect (start + w) rest with
    | error fault =>
      rw [hrest] at h
      cases h
    | ok tail =>
      rw [hrest] at h
      cases h
      exact ⟨c, w, tail, rfl, rfl, hrest⟩

theorem eq_encode_of_collect {bytes : Bytes} {start : Nat} {text : List Char}
    (h : collect start (Piece.list bytes) = .ok text) :
    bytes = text.flatMap String.utf8EncodeChar := by
  induction text generalizing bytes start with
  | nil =>
    cases bytes with
    | nil => rfl
    | cons a rest =>
      obtain ⟨c, w, tail, -, htext, -⟩ := collect_cons_eq_ok h
      cases htext
  | cons c text ih =>
    cases bytes with
    | nil => cases h
    | cons a rest =>
      obtain ⟨d, w, tail, hfirst, htext, -⟩ := collect_cons_eq_ok h
      cases htext
      obtain ⟨more, hmore⟩ := Piece.exists_append_of_first hfirst
      rw [hmore, Piece.list_encode_append] at h
      obtain ⟨_, _, _, -, htext, hrest⟩ := collect_cons_eq_ok h
      cases htext
      rw [hmore, List.flatMap_cons, ih hrest]

theorem decode_eq_ok_iff {bytes : Bytes} {text : List Char} :
    decode bytes = .ok text ↔ bytes = text.flatMap String.utf8EncodeChar := by
  constructor
  · intro h
    unfold decode at h
    split at h
    · next chars hchars =>
      cases h
      exact eq_encode_of_collect hchars
    · cases h
  · rintro rfl
    rw [decode, collect_encode]

theorem toList_loop (bytes : ByteArray) (i : Nat) (front : List UInt8) :
    ByteArray.toList.loop bytes i front = front.reverse ++ bytes.data.toList.drop i := by
  fun_induction ByteArray.toList.loop bytes i front with
  | case1 i front hi ih =>
    have hlt : i < bytes.data.toList.length := by simpa using hi
    have hget : bytes.get! i = bytes.data.toList[i] := getElem!_pos bytes.data i hi
    rw [ih, List.drop_eq_getElem_cons hlt, hget]
    simp
  | case2 i front hi =>
    have hle : bytes.data.toList.length ≤ i := by simpa using hi
    simp [List.drop_eq_nil_of_le hle]

theorem encode_eq (s : String) : encode s = s.toList.flatMap String.utf8EncodeChar := by
  have hbytes : s.toUTF8 = s.toList.utf8Encode := String.utf8Encode_toList.symm
  rw [encode, hbytes, ByteArray.toList, toList_loop, List.utf8Encode, List.toList_data_toByteArray]
  rfl

@[simp]
theorem decode_encode (s : String) : decode (encode s) = .ok s.toList :=
  decode_eq_ok_iff.mpr (encode_eq s)

end RuleHighlight.Utf8

namespace RuleHighlight

theorem Text.unifyLineEnds_of_notMem {text : List Char} (h : '\r' ∉ text) :
    unifyLineEnds text = text := by
  fun_induction unifyLineEnds text with
  | case1 => rfl
  | case2 rest ih => simp at h
  | case3 c rest hne ih =>
    simp only [List.mem_cons, not_or] at h
    rw [ih h.2, if_neg (Ne.symm h.1)]

end RuleHighlight
