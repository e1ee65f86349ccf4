import RuleHighlight.Proofs.Pattern.Endings
import RuleHighlight.Proofs.Pattern.Splitting

/-!
The patterns around a slash that closes or opens a comment. What starts before the slash is the
same whatever follows it, up to how far it reaches. What starts behind it is the same whatever
comes before it, unless it is reached over in the one text and not in the other.
-/

namespace RuleHighlight

open CharClass

def SettledBefore (f : List Char → List Extent) : Prop :=
  ∀ front t t', ∀ x ∈ f (front ++ '/' :: t), x.start < front.length →
    ∃ y ∈ f (front ++ '/' :: t'), x.start = y.start ∧
      (x.stop = y.stop ∨ front.length < x.stop ∧ front.length < y.stop)

def SameBehind (f : List Char → List Extent) (front front' back : List Char) : Prop :=
  ∀ x ∈ f (front ++ '/' :: back), front.length < x.start → x ∈ f (front' ++ '/' :: back)

def Spares (f : List Char → List Extent) (front front' back : List Char) : Prop :=
  ∀ x ∈ f (front ++ '/' :: back), front.length < x.start →
    ∀ y ∈ f (front' ++ '/' :: back), y.start ≤ front.length → y.stop ≤ x.start

theorem settledBefore_of_splitsAt {f : List Char → List Extent}
    (h : ∀ front back, SplitsAt front '/' back f) : SettledBefore f := by
  intro front t t' x hx hlt
  rw [h front t, List.mem_append] at hx
  refine ⟨x, ?_, rfl, Or.inl rfl⟩
  rw [h front t', List.mem_append]
  left
  rcases hx with hx | hx
  · exact hx
  · obtain ⟨y, -, rfl⟩ := List.mem_map.mp hx
    rw [Extent.shift_start] at hlt
    omega

theorem sameBehind_of_splitsAt {f : List Char → List Extent} (hf : Bounded f)
    (h : ∀ front back, SplitsAt front '/' back f) {front front' : List Char}
    (hlen : front.length = front'.length) (back : List Char) :
    SameBehind f front front' back := by
  intro x hx hlt
  rw [h front back, List.mem_append] at hx
  rw [h front' back, List.mem_append, ← hlen]
  right
  rcases hx with hx | hx
  · have hle := hf front x hx
    omega
  · exact hx

namespace Text

theorem split_before {before rest front more : List Char} (h : before.reverse ++ rest = front ++ more)
    (hle : before.length ≤ front.length) :
    ∃ piece, front = before.reverse ++ piece ∧ rest = piece ++ more := by
  rcases List.append_eq_append_iff.mp h with ⟨piece, hfront, hrest⟩ | ⟨piece, hbefore, hmore⟩
  · exact ⟨piece, hfront, hrest⟩
  · have hlen := congrArg List.length hbefore
    rw [List.length_reverse, List.length_append] at hlen
    obtain rfl : piece = [] := List.length_eq_zero_iff.mp (by omega)
    exact ⟨[], by rw [hbefore, List.append_nil, List.append_nil], hmore.symm⟩

theorem split_behind {before rest front more : List Char} (h : before.reverse ++ rest = front ++ more)
    (hle : front.length ≤ before.length) :
    ∃ passed, before = passed ++ front.reverse ∧ more = passed.reverse ++ rest := by
  rcases List.append_eq_append_iff.mp h with ⟨piece, hfront, hrest⟩ | ⟨piece, hbefore, hmore⟩
  · have hlen := congrArg List.length hfront
    rw [List.length_append, List.length_reverse] at hlen
    obtain rfl : piece = [] := List.length_eq_zero_iff.mp (by omega)
    refine ⟨[], ?_, hrest.symm⟩
    rw [hfront, List.append_nil, List.reverse_reverse, List.nil_append]
  · refine ⟨piece.reverse, ?_, by rwa [List.reverse_reverse]⟩
    rw [← List.reverse_append, ← hbefore, List.reverse_reverse]

end Text

namespace Occurrence

variable {r : Recogniser Nat}

theorem stop_le_of_mem_extents {text : List Char} {x y : Extent} (hx : x ∈ extents r text)
    (hy : y ∈ extents r text) (hlt : x.start < y.start) : x.stop ≤ y.start :=
  (mem_extents_iff.mp hy).2 x hx hlt

theorem eq_of_start_eq {text : List Char} {x y : Extent} (hx : x ∈ extents r text)
    (hy : y ∈ extents r text) (heq : x.start = y.start) : x = y := by
  obtain ⟨before, rest, n, ht, rfl, hr⟩ := mem_extents hx
  obtain ⟨before', rest', n', ht', rfl, hr'⟩ := mem_extents hy
  obtain ⟨hbefore, rfl⟩ := List.append_inj (ht.trans ht'.symm) (by simpa using heq)
  obtain rfl := List.reverse_injective hbefore
  obtain rfl := Option.some.inj (hr.symm.trans hr')
  rfl

theorem extents_settledBefore (h : ∀ before rest t t' n, rest ≠ [] →
      r before (rest ++ '/' :: t) = some n → ∃ n', r before (rest ++ '/' :: t') = some n' ∧
        (n = n' ∨ rest.length < n ∧ rest.length < n')) :
    SettledBefore (extents r) := by
  intro front t t' x
  induction hm : x.start using Nat.strongRecOn generalizing t t' x with
  | ind m ih =>
    intro hx hlt
    obtain ⟨⟨before, rest', n, ht, -, rfl, hr⟩, hfree⟩ := mem_extents_iff.mp hx
    simp only at hm hfree
    subst hm
    obtain ⟨rest, rfl, rfl⟩ := Text.split_before ht (Nat.le_of_lt hlt)
    rw [List.length_append, List.length_reverse] at hlt ⊢
    have hne : rest ≠ [] := by
      rintro rfl
      simp at hlt
    obtain ⟨n', hr', hn⟩ := h before rest t t' n hne hr
    refine ⟨⟨before.length, before.length + n'⟩, mem_extents_iff.mpr ⟨?_, ?_⟩, rfl, by simp only; omega⟩
    · exact ⟨before, rest ++ '/' :: t', n', by rw [List.append_assoc], by simp, rfl, hr'⟩
    · intro z hz hzlt
      simp only at hzlt ⊢
      obtain ⟨y, hy, hstart, hstop⟩ := ih z.start hzlt t' t z rfl hz
        (by rw [List.length_append, List.length_reverse]; omega)
      have hle := hfree y hy (by omega)
      rw [List.length_append, List.length_reverse] at hstop
      omega

theorem extents_sameBehind {front front' back : List Char} (hlen : front.length = front'.length)
    (hblind : ∀ before rest,
      r (before ++ '/' :: front.reverse) rest = r (before ++ '/' :: front'.reverse) rest)
    (hto : Spares (extents r) front front' back) (hfrom : Spares (extents r) front' front back) :
    SameBehind (extents r) front front' back := by
  intro x
  induction hm : x.start using Nat.strongRecOn generalizing front front' x with
  | ind m ih =>
    intro hx hlt
    obtain ⟨⟨before, rest, n, ht, hne, rfl, hr⟩, hfree⟩ := mem_extents_iff.mp hx
    simp only at hm hfree
    subst hm
    have hsplit : before.reverse ++ rest = (front ++ ['/']) ++ back := by
      rw [ht, List.append_assoc]
      rfl
    obtain ⟨passed, rfl, rfl⟩ := Text.split_behind hsplit
      (by rw [List.length_append, List.length_singleton]; exact hlt)
    have hbefore : passed ++ (front ++ ['/']).reverse = passed ++ '/' :: front.reverse := by
      rw [List.reverse_append]
      rfl
    have hplace : (passed ++ (front ++ ['/']).reverse).length =
        (passed ++ '/' :: front'.reverse).length := by
      rw [hbefore, List.length_append, List.length_append, List.length_cons, List.length_cons,
        List.length_reverse, List.length_reverse, hlen]
    rw [hbefore, hblind] at hr
    refine mem_extents_iff.mpr ⟨?_, ?_⟩
    · exact ⟨passed ++ '/' :: front'.reverse, rest, n, by simp, hne, by rw [hplace], hr⟩
    · intro y hy hylt
      simp only at hylt ⊢
      rcases Nat.lt_or_ge front.length y.start with hbehind | hreach
      · have hy' := ih y.start hylt hlen.symm (fun b rest => (hblind b rest).symm) hfrom hto y rfl hy
          (by rwa [← hlen])
        exact hfree y hy' hylt
      · exact hto _ hx hlt y hy hreach

end Occurrence

def SettledAtSlash (g : List Char → Nat) : Prop :=
  ∀ body, (∃ n ≤ body.length, ∀ t, g (body ++ '/' :: t) = n) ∨
    ∀ t, body.length < g (body ++ '/' :: t)

namespace Recogniser.Opens

variable {r : Recogniser Nat} {opener : List Char} {P : List Char → List Char → Nat → Prop}

theorem settledBefore {g : List Char → Nat} {q : List Char → Prop} (h : r.Opens opener P)
    (hP : ∀ before body n, P before body n ↔ q before ∧ n = g body + opener.length)
    (ho : opener.length ≤ 2) (hg : SettledAtSlash g) : SettledBefore (Occurrence.extents r) := by
  apply Occurrence.extents_settledBefore
  intro before rest t t' n hne hr
  obtain ⟨body, hrest, hbody⟩ := (h _ _ _).mp hr
  obtain ⟨hq, rfl⟩ := (hP _ _ _).mp hbody
  have hwide (body' : List Char) (hrest' : rest ++ '/' :: t' = opener ++ body') :
      r before (rest ++ '/' :: t') = some (g body' + opener.length) :=
    (h _ _ _).mpr ⟨body', hrest', (hP _ _ _).mpr ⟨hq, rfl⟩⟩
  rcases Nat.lt_or_ge rest.length opener.length with hshort | hlong
  · -- The slash is the second character of the opener.
    obtain ⟨a, rfl⟩ : ∃ a, rest = [a] :=
      List.length_eq_one_iff.mp (by have := List.length_pos_of_ne_nil hne; omega)
    obtain ⟨b, c, rfl⟩ := List.length_eq_two.mp (by rw [List.length_singleton] at hshort; omega :
      opener.length = 2)
    obtain ⟨rfl, htail⟩ := List.cons.inj hrest
    obtain ⟨rfl, rfl⟩ := List.cons.inj htail
    exact ⟨g t' + 2, hwide t' rfl, Or.inr ⟨by simp, by simp⟩⟩
  · have hsplit : ∃ piece, rest = opener.reverse.reverse ++ piece ∧ body = piece ++ '/' :: t :=
      Text.split_before (by rw [List.reverse_reverse, hrest]) (by rwa [List.length_reverse])
    rw [List.reverse_reverse] at hsplit
    obtain ⟨piece, rfl, rfl⟩ := hsplit
    refine ⟨_, hwide (piece ++ '/' :: t') (List.append_assoc _ _ _), ?_⟩
    rw [List.length_append]
    rcases hg piece with ⟨m, -, hm⟩ | hover
    · exact Or.inl (by rw [hm, hm])
    · have hlt := hover t
      have hlt' := hover t'
      exact Or.inr ⟨by omega, by omega⟩

end Recogniser.Opens

namespace Pattern

theorem blockBody_cons {c : Char} {rest : List Char} (h : c = '*' → rest.head? ≠ some '/') :
    blockBody (c :: rest) = blockBody rest + 1 := by
  rw [blockBody]
  rintro tail rfl rfl
  exact h rfl rfl

theorem blockBody_settled : SettledAtSlash blockBody := by
  intro body
  induction body with
  | nil =>
    right
    intro t
    rw [List.nil_append, blockBody_cons (fun h => absurd h (by decide))]
    exact Nat.succ_pos _
  | cons c body ih =>
    by_cases hclose : c = '*' ∧ (body ++ ['/']).head? = some '/'
    · obtain ⟨rfl, hslash⟩ := hclose
      cases body with
      | nil => exact Or.inr (fun t => Nat.lt_succ_self 1)
      | cons b body =>
        obtain rfl := Option.some.inj hslash
        exact Or.inl ⟨2, by simp, fun t => rfl⟩
    · have hcons (t : List Char) :
          blockBody (c :: body ++ '/' :: t) = blockBody (body ++ '/' :: t) + 1 := by
        apply blockBody_cons
        rintro rfl hhead
        refine hclose ⟨rfl, ?_⟩
        cases body with
        | nil => rfl
        | cons b body => exact hhead
      rw [List.length_cons]
      rcases ih with ⟨n, hn, heq⟩ | hover
      · exact Or.inl ⟨n + 1, Nat.succ_le_succ hn, fun t => by rw [hcons, heq]⟩
      · exact Or.inr (fun t => by rw [hcons]; exact Nat.succ_lt_succ (hover t))

theorem lineWidth_settled : SettledAtSlash lineWidth := by
  intro body
  induction body with
  | nil =>
    right
    intro t
    rw [List.nil_append, lineWidth_cons, if_neg (by decide)]
    exact Nat.succ_pos _
  | cons c body ih =>
    by_cases hc : isLineEnd c = true
    · exact Or.inl ⟨0, Nat.zero_le _, fun t => by rw [List.cons_append, lineWidth_cons, if_pos hc]⟩
    · rw [List.length_cons]
      rcases ih with ⟨n, hn, heq⟩ | hover
      · refine Or.inl ⟨n + 1, Nat.succ_le_succ hn, fun t => ?_⟩
        rw [List.cons_append, lineWidth_cons, if_neg hc, heq]
      · refine Or.inr (fun t => ?_)
        rw [List.cons_append, lineWidth_cons, if_neg hc]
        exact Nat.succ_lt_succ (hover t)

theorem literalBody_append_slash (body : List Char) :
    (∃ n ≤ body.length, ∀ t, literalBody (body ++ '/' :: t) = n) ∨
      ∀ t, literalBody (body ++ '/' :: t) = body.length + 1 + literalBody t := by
  have hslash (t : List Char) : literalBody ('/' :: t) = literalBody t + 1 := by
    rw [literalBody_cons (by decide), if_neg (by decide), if_neg (by decide)]
  fun_induction literalBody body with
  | case1 =>
    right
    intro t
    rw [List.nil_append, hslash, List.length_nil]
    omega
  | case2 =>
    right
    intro t
    change literalBody ('\\' :: '/' :: t) = _
    rw [literalBody, if_neg (by decide), List.length_singleton]
    omega
  | case3 c rest hc =>
    refine Or.inl ⟨1, by simp, fun t => ?_⟩
    change literalBody ('\\' :: c :: (rest ++ '/' :: t)) = 1
    rw [literalBody, if_pos hc]
  | case4 c rest hc ih =>
    have hcons (t : List Char) : literalBody ('\\' :: c :: rest ++ '/' :: t) =
        literalBody (rest ++ '/' :: t) + 2 := by
      change literalBody ('\\' :: c :: (rest ++ '/' :: t)) = _
      rw [literalBody, if_neg hc]
    rw [List.length_cons, List.length_cons]
    rcases ih with ⟨n, hn, heq⟩ | hover
    · exact Or.inl ⟨n + 2, by omega, fun t => by rw [hcons, heq]⟩
    · exact Or.inr (fun t => by rw [hcons, hover]; omega)
  | case5 rest =>
    refine Or.inl ⟨1, by simp, fun t => ?_⟩
    rw [List.cons_append, literalBody_cons (by decide), if_pos rfl]
  | case6 c rest hnil hcons hq hc =>
    refine Or.inl ⟨0, Nat.zero_le _, fun t => ?_⟩
    rw [List.cons_append, literalBody_cons (ne_backslash hnil hcons), if_neg hq, if_pos hc]
  | case7 c rest hnil hcons hq hc ih =>
    have hstep (t : List Char) :
        literalBody (c :: rest ++ '/' :: t) = literalBody (rest ++ '/' :: t) + 1 := by
      rw [List.cons_append, literalBody_cons (ne_backslash hnil hcons), if_neg hq, if_neg hc]
    rw [List.length_cons]
    rcases ih with ⟨n, hn, heq⟩ | hover
    · exact Or.inl ⟨n + 1, by omega, fun t => by rw [hstep, heq]⟩
    · exact Or.inr (fun t => by rw [hstep, hover]; omega)

theorem literalBody_settled : SettledAtSlash literalBody := by
  intro body
  rcases literalBody_append_slash body with hin | hover
  · exact Or.inl hin
  · exact Or.inr (fun t => by rw [hover]; omega)

theorem blockComments_settledBefore : SettledBefore blockComments :=
  blockComment_opens.settledBefore (q := fun _ => True) (by simp) (Nat.le_refl 2) blockBody_settled

theorem lineComments_settledBefore : SettledBefore lineComments :=
  lineComment_opens.settledBefore (q := fun _ => True) (by simp) (Nat.le_refl 2) lineWidth_settled

theorem directives_settledBefore : SettledBefore directives :=
  directive_opens.settledBefore (fun _ _ _ => Iff.rfl) (Nat.le_succ 1) lineWidth_settled

theorem stringLiterals_settledBefore : SettledBefore stringLiterals :=
  stringLiteral_opens.settledBefore (q := fun _ => True) (by simp) (Nat.le_succ 1)
    literalBody_settled

end Pattern

def CrossedBy (f : List Char → List Extent) (text : List Char) (i : Nat) : Prop :=
  ∃ x ∈ f text, x.start < i ∧ i < x.stop

def Text.restOfLine (text : List Char) (i : Nat) : List Char :=
  (text.drop i).takeWhile (fun c => !isLineEnd c)

/-- Both texts are reached into from before a place, or neither, or it does not matter since
nothing opens on the rest of the line. -/
def Undisturbed (f : List Char → List Extent) (opener text text' : List Char) (i : Nat) : Prop :=
  (CrossedBy f text i ↔ CrossedBy f text' i) ∨ ¬ opener <:+: Text.restOfLine text i

section

variable {front front' back : List Char}

theorem Text.getElem?_behind (hlen : front.length = front'.length) {j : Nat}
    (hj : front.length ≤ j) : (front ++ '/' :: back)[j]? = (front' ++ '/' :: back)[j]? := by
  rw [List.getElem?_append_right hj, List.getElem?_append_right (by omega), hlen]

theorem Recogniser.Opens.sameBehind {r : Recogniser Nat} {opener : List Char}
    {P : List Char → List Char → Nat → Prop} (h : r.Opens opener P)
    (hlen : front.length = front'.length)
    (hP : ∀ before body n, P (before ++ '/' :: front.reverse) body n ↔
      P (before ++ '/' :: front'.reverse) body n)
    (hto : Spares (Occurrence.extents r) front front' back)
    (hfrom : Spares (Occurrence.extents r) front' front back) :
    SameBehind (Occurrence.extents r) front front' back :=
  Occurrence.extents_sameBehind hlen (fun before rest => h.congr_before (hP before) rest) hto hfrom

theorem Text.drop_slash (m : Nat) :
    (front ++ '/' :: back).drop (front.length + 1 + m) = back.drop m := by
  rw [Nat.add_assoc, Nat.add_comm 1 m, List.drop_length_add_append]
  rfl

theorem Text.restOfLine_slash :
    restOfLine (front ++ '/' :: back) (front.length + 1) =
      back.takeWhile (fun c => !isLineEnd c) := by
  rw [restOfLine, ← Nat.add_zero (front.length + 1), drop_slash, List.drop_zero]

theorem Undisturbed.symm_slash {f : List Char → List Extent} {opener : List Char}
    (hlen : front.length = front'.length)
    (h : Undisturbed f opener (front ++ '/' :: back) (front' ++ '/' :: back) (front.length + 1)) :
    Undisturbed f opener (front' ++ '/' :: back) (front ++ '/' :: back) (front'.length + 1) := by
  rw [← hlen]
  rcases h with hcross | hno
  · exact Or.inl hcross.symm
  · right
    rwa [hlen, Text.restOfLine_slash, ← @Text.restOfLine_slash front back]

theorem Occurrence.spares_of_stop {r : Recogniser Nat} {c : Extent}
    (hc : c ∈ extents r (front' ++ '/' :: back)) (hstart : c.start ≤ front.length)
    (hstop : c.stop = front.length + 1) : Spares (extents r) front front' back := by
  intro x _ hlt y hy hle
  rcases Nat.lt_trichotomy y.start c.start with hbefore | heq | hafter
  · have hyc := stop_le_of_mem_extents hy hc hbefore
    omega
  · rw [eq_of_start_eq hy hc heq]
    omega
  · have hcy := stop_le_of_mem_extents hc hy hafter
    omega

theorem spares_of_not_infix {f : List Char → List Extent} {opener : List Char}
    (hlen : front.length = front'.length) (hf : MadeOf (fun c => !isLineEnd c) f)
    (ho : ∀ c ∈ opener, (!isLineEnd c) = true)
    (hx : ∀ text, ∀ x ∈ f text, opener <+: text.drop x.start)
    (hno : ¬ opener <:+: back.takeWhile (fun c => !isLineEnd c)) : Spares f front front' back := by
  intro x hxmem hlt y hy hle
  by_contra hreach
  obtain ⟨m, hm⟩ : ∃ m, x.start = front.length + 1 + m := ⟨x.start - (front.length + 1), by omega⟩
  obtain ⟨tail, htail⟩ := hx _ x hxmem
  rw [hm, Text.drop_slash] at htail
  have hline : ∀ c ∈ back.take m, (!isLineEnd c) = true := by
    intro c hc
    obtain ⟨j, hj⟩ := List.mem_iff_getElem?.mp hc
    rw [List.getElem?_take] at hj
    split_ifs at hj with hjm
    apply hf _ y hy (front'.length + 1 + j) c (by omega) (by omega)
    rw [List.getElem?_append_right (by omega), show front'.length + 1 + j - front'.length = j + 1 by
      omega, List.getElem?_cons_succ, hj]
  apply hno
  refine ⟨back.take m, tail.takeWhile (fun c => !isLineEnd c), ?_⟩
  calc back.take m ++ opener ++ tail.takeWhile (fun c => !isLineEnd c)
    _ = back.take m ++ (opener ++ tail).takeWhile (fun c => !isLineEnd c) := by
      rw [List.takeWhile_append_of_pos ho, List.append_assoc]
    _ = (back.take m ++ back.drop m).takeWhile (fun c => !isLineEnd c) := by
      rw [htail, List.takeWhile_append_of_pos hline]
    _ = back.takeWhile (fun c => !isLineEnd c) := by rw [List.take_append_drop]

namespace Pattern

theorem lt_length_of_mem {r : Recogniser Nat} {text : List Char} {x : Extent}
    (hx : x ∈ Occurrence.extents r text) : x.start < text.length := by
  obtain ⟨⟨before, rest, n, rfl, hne, rfl, -⟩, -⟩ := Occurrence.mem_extents_iff.mp hx
  have hpos := List.length_pos_of_ne_nil hne
  simp only [List.length_append, List.length_reverse]
  omega

theorem directives_afterLine : BeginWith (fun b _ => b.all isLineEnd = true) directives := by
  apply Occurrence.extents_beginWith
  intro before rest n hr
  obtain ⟨body, rfl, hbefore, -⟩ := (directive_opens before rest n).mp hr
  exact ⟨'#', rfl, hbefore⟩

theorem directives_spares (hlen : front.length = front'.length) :
    Spares directives front front' back := by
  intro x hx hlt y hy hle
  by_contra hreach
  obtain ⟨-, -, hbefore⟩ := directives_afterLine _ x hx
  obtain ⟨j, hj⟩ : ∃ j, x.start = j + 1 := ⟨x.start - 1, by omega⟩
  have hlength := lt_length_of_mem hx
  obtain ⟨c, hc⟩ : ∃ c, (front ++ '/' :: back)[j]? = some c :=
    ⟨_, List.getElem?_eq_getElem (by omega)⟩
  rw [hj, Text.previous?_eq_getElem? hc, Option.all_some] at hbefore
  rw [Text.getElem?_behind hlen (by omega)] at hc
  have hline := directives_madeOf _ y hy j c (by omega) (by omega) hc
  simp only [hbefore] at hline
  cases hline

theorem lineComments_spares (hlen : front.length = front'.length)
    (h : Undisturbed lineComments ['/', '/'] (front ++ '/' :: back) (front' ++ '/' :: back)
      (front.length + 1)) : Spares lineComments front front' back := by
  rcases h with hcross | hno
  · intro x hx hlt y hy hle
    by_contra hreach
    obtain ⟨z, hz, hstart, hstop⟩ := hcross.mpr ⟨y, hy, by omega, by omega⟩
    have hzx := Occurrence.stop_le_of_mem_extents hz hx (by omega)
    obtain ⟨-, -, hends⟩ := lineComments_endWith _ z hz
    have hlength := lt_length_of_mem hx
    obtain ⟨c, hc⟩ : ∃ c, (front ++ '/' :: back)[z.stop]? = some c :=
      ⟨_, List.getElem?_eq_getElem (by omega)⟩
    rw [hc, Option.all_some] at hends
    rw [Text.getElem?_behind hlen (by omega)] at hc
    have hline := lineComments_madeOf _ y hy z.stop c (by omega) (by omega) hc
    simp only [hends] at hline
    cases hline
  · rw [Text.restOfLine_slash] at hno
    refine spares_of_not_infix hlen lineComments_madeOf (List.all_eq_true.mp rfl) ?_ hno
    intro text x hx
    obtain ⟨body, hbody⟩ := drop_of_mem_lineComments hx
    exact ⟨body, hbody.symm⟩

theorem stop_of_mem_stringLiterals {y : Extent} (hy : y ∈ stringLiterals (front ++ '/' :: back))
    (hstart : y.start ≤ front.length) (hstop : front.length + 1 < y.stop) :
    y.stop = front.length + 1 + literalBody back := by
  obtain ⟨before, rest, n, ht, rfl, hr⟩ := Occurrence.mem_extents hy
  obtain ⟨body, rfl, rfl⟩ := (stringLiteral_opens before rest n).mp hr
  obtain ⟨piece, rfl, hpiece⟩ := Text.split_before ht hstart
  cases piece with
  | nil => cases hpiece
  | cons q piece =>
    obtain ⟨rfl, hbody⟩ := List.cons.inj hpiece
    obtain rfl : body = piece ++ '/' :: back := hbody
    simp only [List.length_append, List.length_reverse, List.length_cons] at hstop ⊢
    rcases literalBody_append_slash piece with ⟨m, hm, heq⟩ | hover
    · rw [heq] at hstop
      omega
    · rw [hover]
      omega

theorem stringLiterals_spares (hlen : front.length = front'.length)
    (h : Undisturbed stringLiterals ['"'] (front ++ '/' :: back) (front' ++ '/' :: back)
      (front.length + 1)) : Spares stringLiterals front front' back := by
  rcases h with hcross | hno
  · intro x hx hlt y hy hle
    by_contra hreach
    obtain ⟨z, hz, hstart, hstop⟩ := hcross.mpr ⟨y, hy, by omega, by omega⟩
    have hzx := Occurrence.stop_le_of_mem_extents hz hx (by omega)
    have hzstop := stop_of_mem_stringLiterals hz (by omega) hstop
    have hystop := stop_of_mem_stringLiterals hy (by omega) (by omega)
    omega
  · rw [Text.restOfLine_slash] at hno
    refine spares_of_not_infix hlen stringLiterals_madeOf (List.all_eq_true.mp rfl) ?_ hno
    intro text x hx
    obtain ⟨before, rest, n, rfl, rfl, hr⟩ := Occurrence.mem_extents hx
    obtain ⟨body, rfl, -⟩ := (stringLiteral_opens before rest n).mp hr
    exact ⟨body, by rw [List.drop_left' List.length_reverse]⟩

end Pattern

namespace Run

variable {p : Char → Bool} {text : List Char}

theorem Maximal.recognise_eq {i : Nat} {r : Run} (h : Maximal p text i r) :
    recognise p r.before (r.chars ++ r.after) = some r := by
  obtain ⟨before, chars, after⟩ := r
  have hafter : after.takeWhile p = [] ∧ after.dropWhile p = after := by
    cases after with
    | nil => exact ⟨rfl, rfl⟩
    | cons c cs =>
      have hc : p c = false := h.any_after
      simp [hc]
  have hne := h.chars_ne_nil
  simp only at hne
  rw [recognise, List.takeWhile_append_of_pos h.chars_eq_true,
    List.dropWhile_append_of_pos h.chars_eq_true, hafter.1, hafter.2, List.append_nil]
  cases chars with
  | nil => exact absurd rfl hne
  | cons c cs => rfl

theorem mem_all_iff {i : Nat} {r : Run} : (i, r) ∈ all p text ↔ Maximal p text i r := by
  refine ⟨maximal_of_mem_all, fun h => Occurrence.mem_all_iff.mpr ⟨?_, ?_⟩⟩
  · refine ⟨r.before, r.chars ++ r.after, h.text_eq.symm, ?_, h.offset_eq, h.recognise_eq⟩
    exact List.append_ne_nil_of_left_ne_nil h.chars_ne_nil _
  · rintro ⟨j, s⟩ hs hlt
    by_contra hreach
    simp only at hlt hreach
    have hmax := maximal_of_mem_all hs
    obtain ⟨m, rfl⟩ : ∃ m, i = m + 1 := ⟨i - 1, by omega⟩
    have hm : m - j < s.chars.length := by omega
    have hplace := hmax.getElem?_eq hm
    rw [show j + (m - j) = m by omega] at hplace
    have hprevious := h.previous?_eq
    rw [Text.previous?_eq_getElem? hplace] at hprevious
    have hbefore := h.any_before
    rw [← hprevious, Option.any_some, hmax.chars_eq_true _ (List.getElem_mem hm)] at hbefore
    cases hbefore

theorem mem_extents_iff {keep : Run → Bool} {e : Extent} : e ∈ extents p keep text ↔
    ∃ r, Maximal p text e.start r ∧ keep r = true ∧ e.stop = e.start + r.chars.length := by
  refine ⟨mem_extents, ?_⟩
  rintro ⟨r, hr, hkeep, hstop⟩
  refine List.mem_map.mpr ⟨(e.start, r), List.mem_filter.mpr ⟨mem_all_iff.mpr hr, hkeep⟩, ?_⟩
  simp only [← hstop]

theorem Maximal.settled {c : Char} (hc : p c = true) {front t : List Char} {i : Nat} {r : Run}
    (h : Maximal p (front ++ c :: t) i r) (t' : List Char) (hlt : i < front.length) :
    ∃ r', Maximal p (front ++ c :: t') i r' ∧ r'.before = r.before ∧
      (r'.chars = r.chars ∨
        front.length < i + r.chars.length ∧ front.length < i + r'.chars.length) := by
  have hoffset := h.offset_eq
  obtain ⟨piece, rfl, hrest⟩ := Text.split_before h.text_eq.symm (by omega)
  rw [List.length_append, List.length_reverse] at hlt ⊢
  rcases List.append_eq_append_iff.mp hrest with ⟨mid, hpiece, hafter⟩ | ⟨mid, hchars, hmid⟩
  · -- The run stops in the piece.
    refine ⟨⟨r.before, r.chars, mid ++ c :: t'⟩, ⟨?_, hoffset, h.chars_ne_nil, h.chars_eq_true,
      h.any_before, ?_⟩, rfl, Or.inl rfl⟩
    · rw [hpiece]
      simp
    · have hany := h.any_after
      rw [hafter] at hany
      cases mid <;> exact hany
  · cases mid with
    | nil =>
      have hany := h.any_after
      rw [List.nil_append] at hmid
      rw [← hmid, List.head?_cons, Option.any_some, hc] at hany
      cases hany
    | cons b mid =>
      obtain ⟨rfl, -⟩ := List.cons.inj hmid
      have htake : (piece ++ c :: t').takeWhile p = piece ++ c :: t'.takeWhile p := by
        rw [List.takeWhile_append_of_pos, List.takeWhile_cons, if_pos hc]
        intro a ha
        exact h.chars_eq_true a (by rw [hchars]; exact List.mem_append_left _ ha)
      refine ⟨⟨r.before, (piece ++ c :: t').takeWhile p, (piece ++ c :: t').dropWhile p⟩,
        ⟨?_, hoffset, ?_, ?_, h.any_before, Text.any_head?_dropWhile p _⟩, rfl, Or.inr ⟨?_, ?_⟩⟩
      · simp only [List.takeWhile_append_dropWhile, List.append_assoc]
      · simp only
        rw [htake]
        simp
      · exact fun a ha => List.mem_takeWhile_imp ha
      · rw [hchars, List.length_append, List.length_cons]
        omega
      · simp only
        rw [htake, List.length_append, List.length_cons]
        omega

theorem Maximal.behind {c : Char} {front front' back : List Char} {i : Nat} {r : Run}
    (hlen : front.length = front'.length) (h : Maximal p (front ++ c :: back) i r)
    (hlt : front.length < i) : ∃ passed, r.before = passed ++ c :: front.reverse ∧
      Maximal p (front' ++ c :: back) i { r with before := passed ++ c :: front'.reverse } := by
  have hoffset := h.offset_eq
  have hsplit : r.before.reverse ++ (r.chars ++ r.after) = (front ++ [c]) ++ back := by
    rw [← h.text_eq, List.append_assoc]
    rfl
  obtain ⟨passed, hbefore, hback⟩ := Text.split_behind hsplit
    (by rw [List.length_append, List.length_singleton]; omega)
  rw [List.reverse_append] at hbefore
  refine ⟨passed, hbefore, ?_, ?_, h.chars_ne_nil, h.chars_eq_true, ?_, h.any_after⟩
  · simp [hback]
  · rw [hoffset, hbefore]
    simp [hlen]
  · have hany := h.any_before
    rw [hbefore] at hany
    cases passed <;> exact hany

end Run

namespace Pattern

theorem operators_settledBefore : SettledBefore operators := by
  intro front t t' x hx hlt
  obtain ⟨r, hr, hkeep, hstop⟩ := Run.mem_extents_iff.mp hx
  obtain ⟨r', hr', hbefore, hchars⟩ := hr.settled rfl t' hlt
  refine ⟨⟨x.start, x.start + r'.chars.length⟩, Run.mem_extents_iff.mpr ⟨r', hr', ?_, rfl⟩, rfl, ?_⟩
  · rcases hchars with heq | ⟨-, hlong⟩
    · rw [isSectionColon, heq, hbefore]
      exact hkeep
    · have hcolon : (r'.chars == [':']) = false := by
        rw [beq_eq_false_iff_ne]
        intro hchars
        rw [hchars, List.length_singleton] at hlong
        omega
      rw [isSectionColon, hcolon]
      rfl
  · rcases hchars with heq | hlong
    · rw [hstop, heq]
      exact Or.inl rfl
    · rw [hstop]
      exact Or.inr hlong

theorem operators_sameBehind (hlen : front.length = front'.length) :
    SameBehind operators front front' back := by
  intro x hx hlt
  obtain ⟨r, hr, hkeep, hstop⟩ := Run.mem_extents_iff.mp hx
  obtain ⟨passed, hbefore, hr'⟩ := hr.behind hlen hlt
  refine Run.mem_extents_iff.mpr ⟨_, hr', ?_, hstop⟩
  rw [isSectionColon, hbefore, followsSectionLabel_append_cons rfl] at hkeep
  rw [isSectionColon, followsSectionLabel_append_cons rfl]
  exact hkeep

theorem blockComments_sameBehind (hlen : front.length = front'.length) {c : Extent}
    (hstart : c.start ≤ front.length) (hstop : c.stop = front.length + 1)
    (hc : c ∈ blockComments (front ++ '/' :: back))
    (hc' : c ∈ blockComments (front' ++ '/' :: back)) : SameBehind blockComments front front' back :=
  blockComment_opens.sameBehind hlen (fun _ _ _ => Iff.rfl)
    (Occurrence.spares_of_stop hc' hstart hstop)
    (Occurrence.spares_of_stop hc (by omega) (by omega))

theorem lineComments_sameBehind (hlen : front.length = front'.length)
    (h : Undisturbed lineComments ['/', '/'] (front ++ '/' :: back) (front' ++ '/' :: back)
      (front.length + 1)) : SameBehind lineComments front front' back :=
  lineComment_opens.sameBehind hlen (fun _ _ _ => Iff.rfl) (lineComments_spares hlen h)
    (lineComments_spares hlen.symm (h.symm_slash hlen))

theorem stringLiterals_sameBehind (hlen : front.length = front'.length)
    (h : Undisturbed stringLiterals ['"'] (front ++ '/' :: back) (front' ++ '/' :: back)
      (front.length + 1)) : SameBehind stringLiterals front front' back :=
  stringLiteral_opens.sameBehind hlen (fun _ _ _ => Iff.rfl) (stringLiterals_spares hlen h)
    (stringLiterals_spares hlen.symm (h.symm_slash hlen))

theorem directives_sameBehind (hlen : front.length = front'.length) :
    SameBehind directives front front' back := by
  apply directive_opens.sameBehind hlen _ (directives_spares hlen) (directives_spares hlen.symm)
  intro before body n
  cases before <;> exact Iff.rfl

end Pattern

end

end RuleHighlight
