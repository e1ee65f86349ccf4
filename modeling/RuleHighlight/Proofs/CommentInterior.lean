import RuleHighlight.Proofs.Covering
import RuleHighlight.Proofs.Precedence
import RuleHighlight.Proofs.Pattern.Interior

/-!
What a comment holds. Blanks in the place of it change nothing before the comment, nor the comment
itself. They change nothing after it either, unless a literal or a line comment runs over the end
of the comment in one of the two texts only, and something is left on the line for it to meet.
-/

namespace RuleHighlight

open CharClass Candidate Pattern

def Text.blank (text : List Char) (i j : Nat) : List Char :=
  text.take i ++ List.replicate (j - i) ' ' ++ text.drop j

namespace Definition

variable {name : String} {category : Category} {priority : Int} {f : List Char → List Extent}

theorem candidate_mem {text : List Char} {x : Extent} (hx : x ∈ f text) (hne : x.start < x.stop) :
    ⟨x.toRange, category, priority⟩ ∈ (ofExtents name category priority f).candidates text := by
  refine mem_candidates.mpr ⟨List.mem_map_of_mem hx, rfl, rfl, ?_⟩
  simp only [Extent.toRange]
  omega

def Settled (d : Definition) : Prop :=
  ∀ front t t', AgreeBefore (front.length : Nat) (d.candidates (front ++ '/' :: t))
    (d.candidates (front ++ '/' :: t'))

theorem settled (h : SettledBefore f) : (ofExtents name category priority f).Settled := by
  intro front t t' k hk hlt
  obtain ⟨x, hx, hstart, hstop, hcategory, hpriority⟩ := exists_extent hk
  have hne := (mem_candidates.mp hk).2.2.2
  obtain ⟨y, hy, hstart', hstop'⟩ := h front t t' x hx (by omega)
  refine ⟨⟨y.toRange, category, priority⟩, candidate_mem hy (by omega), ?_, hcategory, hpriority, ?_⟩
  · simp only [Extent.toRange]
    omega
  · simp only [Extent.toRange]
    omega

def Keeps (d : Definition) (front front' back : List Char) : Prop :=
  ∀ k ∈ d.candidates (front ++ '/' :: back), (front.length + 1 : Nat) ≤ k.start →
    k ∈ d.candidates (front' ++ '/' :: back)

theorem keeps {front front' back : List Char} (h : SameBehind f front front' back) :
    (ofExtents name category priority f).Keeps front front' back := by
  intro k hk hle
  obtain ⟨x, hx, hstart, hstop, hcategory, hpriority⟩ := exists_extent hk
  have hne := (mem_candidates.mp hk).2.2.2
  have hmem := h x hx (by omega)
  refine mem_candidates.mpr ⟨List.mem_map.mpr ⟨x, hmem, ?_⟩, hcategory, hpriority, hne⟩
  rw [Extent.toRange, ← hstart, ← hstop]

end Definition

namespace Catalogue

open Definition

theorem builtIn_settled : ∀ d ∈ builtIn, d.Settled := by
  simp only [builtIn, List.forall_mem_cons, List.not_mem_nil, false_imp_iff, implies_true, and_true]
  refine ⟨?_, ?_, ?_, ?_, ?_, ?_, ?_, ?_, ?_, ?_, ?_⟩ <;> apply Definition.settled
  · exact blockComments_settledBefore
  · exact lineComments_settledBefore
  · exact stringLiterals_settledBefore
  · exact settledBefore_of_splitsAt
      (fun _ _ => Declaration.words_splitsAt Declaration.all_append_slash)
  · exact settledBefore_of_splitsAt
      (fun _ _ => Declaration.names_splitsAt Declaration.all_append_slash)
  · exact settledBefore_of_splitsAt (fun _ _ => variableNames_splitsAt rfl)
  · exact directives_settledBefore
  · exact settledBefore_of_splitsAt (fun _ _ => numbers_splitsAt rfl)
  · exact settledBefore_of_splitsAt (fun _ _ => wordsIn_splitsAt truthValues rfl)
  · exact operators_settledBefore
  · exact settledBefore_of_splitsAt (fun _ _ => wordsIn_splitsAt keywords rfl)

theorem agreeBefore (front t t' : List Char) :
    AgreeBefore (front.length : Nat) (builtIn.candidates (front ++ '/' :: t))
      (builtIn.candidates (front ++ '/' :: t')) := by
  intro k hk hlt
  obtain ⟨d, hd, hk⟩ := mem_candidates.mp hk
  obtain ⟨k', hk', hsame⟩ := builtIn_settled d hd front t t' k hk hlt
  exact ⟨k', mem_candidates.mpr ⟨d, hd, hk'⟩, hsame⟩

section

variable {front front' back : List Char} (hlen : front.length = front'.length) {c : Extent}
  (hstart : c.start ≤ front.length) (hstop : c.stop = front.length + 1)
  (hc : c ∈ blockComments (front ++ '/' :: back)) (hc' : c ∈ blockComments (front' ++ '/' :: back))
  (hliterals : Undisturbed stringLiterals ['"'] (front ++ '/' :: back) (front' ++ '/' :: back)
    (front.length + 1))
  (hlines : Undisturbed lineComments ['/', '/'] (front ++ '/' :: back) (front' ++ '/' :: back)
    (front.length + 1))

include hlen hstart hstop hc hc' hliterals hlines

theorem builtIn_keeps : ∀ d ∈ builtIn, d.Keeps front front' back := by
  simp only [builtIn, List.forall_mem_cons, List.not_mem_nil, false_imp_iff, implies_true, and_true]
  refine ⟨?_, ?_, ?_, ?_, ?_, ?_, ?_, ?_, ?_, ?_, ?_⟩ <;> apply Definition.keeps
  · exact blockComments_sameBehind hlen hstart hstop hc hc'
  · exact lineComments_sameBehind hlen hlines
  · exact stringLiterals_sameBehind hlen hliterals
  · exact sameBehind_of_splitsAt Declaration.words_bounded
      (fun _ _ => Declaration.words_splitsAt Declaration.all_append_slash) hlen back
  · exact sameBehind_of_splitsAt Declaration.names_bounded
      (fun _ _ => Declaration.names_splitsAt Declaration.all_append_slash) hlen back
  · exact sameBehind_of_splitsAt (Occurrence.extents_bounded variableName_fits)
      (fun _ _ => variableNames_splitsAt rfl) hlen back
  · exact directives_sameBehind hlen
  · exact sameBehind_of_splitsAt numbers_bounded (fun _ _ => numbers_splitsAt rfl) hlen back
  · exact sameBehind_of_splitsAt (Run.extents_bounded _)
      (fun _ _ => wordsIn_splitsAt truthValues rfl) hlen back
  · exact operators_sameBehind hlen
  · exact sameBehind_of_splitsAt (Run.extents_bounded _)
      (fun _ _ => wordsIn_splitsAt keywords rfl) hlen back

theorem mem_of_behind {k : Candidate} (hk : k ∈ builtIn.candidates (front ++ '/' :: back))
    (hle : (front.length + 1 : Nat) ≤ k.start) : k ∈ builtIn.candidates (front' ++ '/' :: back) := by
  obtain ⟨d, hd, hk⟩ := mem_candidates.mp hk
  exact mem_candidates.mpr ⟨d, hd,
    builtIn_keeps hlen hstart hstop hc hc' hliterals hlines d hd k hk hle⟩

end

end Catalogue

namespace Pattern

theorem blockBody_of_blank (n : Nat) (back : List Char) :
    blockBody (List.replicate n ' ' ++ '*' :: '/' :: back) = n + 2 := by
  induction n with
  | zero => rfl
  | succ n ih =>
    rw [List.replicate_succ, List.cons_append, blockBody_cons (fun h => absurd h (by decide)), ih]

theorem blockComments_replace {front t : List Char} {stop : Nat}
    (h : ⟨front.length, stop⟩ ∈ blockComments (front ++ '/' :: '*' :: t)) (t' : List Char) :
    ⟨front.length, front.length + (blockBody t' + 2)⟩ ∈ blockComments (front ++ '/' :: '*' :: t') := by
  refine Occurrence.mem_extents_iff.mpr ⟨⟨front.reverse, '/' :: '*' :: t', blockBody t' + 2, ?_⟩, ?_⟩
  · refine ⟨by rw [List.reverse_reverse], by simp, by rw [List.length_reverse], rfl⟩
  · intro z hz hlt
    obtain ⟨y, hy, hstart, hstop⟩ :=
      blockComments_settledBefore front ('*' :: t') ('*' :: t) z hz hlt
    have hle := Occurrence.stop_le_of_mem_extents hy h (by simp only at hlt ⊢; omega)
    simp only at hle ⊢
    omega

end Pattern

theorem Catalogue.mem_blockComments {text body : List Char} {k : Candidate} {s e : Nat}
    (hk : k ∈ builtIn.candidates text) (hcategory : k.category = .comment) (hs : k.start = s)
    (he : k.stop = e) (hopen : text.drop s = '/' :: '*' :: body) : ⟨s, e⟩ ∈ blockComments text := by
  have hcomments : ∀ d ∈ builtIn, d.category = .comment → d = .blockComment ∨ d = .lineComment := by
    simp only [builtIn, List.forall_mem_cons, List.not_mem_nil, false_imp_iff, implies_true,
      and_true, or_true, true_or, true_and]
    refine ⟨?_, ?_, ?_, ?_, ?_, ?_, ?_, ?_, ?_⟩ <;> exact fun h => absurd h (by decide)
  obtain ⟨d, hd, hk⟩ := mem_candidates.mp hk
  have hd' := hcomments d hd ((Definition.mem_candidates.mp hk).2.1.symm.trans hcategory)
  rcases hd' with rfl | rfl
  · obtain ⟨x, hx, hstart, hstop, -, -⟩ := Definition.exists_extent hk
    have hstart' : x.start = s := by omega
    have hstop' : x.stop = e := by omega
    rwa [← hstart', ← hstop']
  · obtain ⟨x, hx, hstart, -, -, -⟩ := Definition.exists_extent hk
    obtain ⟨body', hline⟩ := drop_of_mem_lineComments hx
    rw [show x.start = s by omega, hopen] at hline
    cases hline

theorem Text.exists_around {text : List Char} {s e : Nat} (hwidth : s + 4 ≤ e)
    (he : e ≤ text.length) (hopen : slice text s (s + 2 : Nat) = ['/', '*'])
    (hclose : slice text (e - 2 : Nat) e = ['*', '/']) :
    ∃ front inner back, front.length = s ∧ s + 4 + inner.length = e ∧
      text = front ++ '/' :: '*' :: (inner ++ '*' :: '/' :: back) ∧
      blank text (s + 2) (e - 2) =
        front ++ '/' :: '*' :: (List.replicate inner.length ' ' ++ '*' :: '/' :: back) := by
  have htwo {rest : List Char} {a b : Char} (h : rest.take 2 = [a, b]) :
      rest = a :: b :: rest.drop 2 := by
    calc rest
      _ = rest.take 2 ++ rest.drop 2 := (List.take_append_drop 2 rest).symm
      _ = a :: b :: rest.drop 2 := by rw [h]; rfl
  rw [slice_of_le (by omega) (by omega), Nat.add_sub_cancel_left] at hopen
  rw [slice_of_le (by omega) he, show e - (e - 2) = 2 by omega] at hclose
  have hopen' := htwo hopen
  have hclose' := htwo hclose
  rw [List.drop_drop] at hopen' hclose'
  let inner := (text.drop (s + 2)).take (e - 2 - (s + 2))
  have hinner : inner.length = e - 2 - (s + 2) := by
    rw [List.length_take, List.length_drop]
    omega
  have hrest : text.drop (s + 2) = inner ++ text.drop (e - 2) := by
    calc text.drop (s + 2)
      _ = inner ++ (text.drop (s + 2)).drop (e - 2 - (s + 2)) := (List.take_append_drop _ _).symm
      _ = inner ++ text.drop (e - 2) := by rw [List.drop_drop, Nat.add_sub_of_le (by omega)]
  refine ⟨text.take s, inner, text.drop (e - 2 + 2), ?_, by omega, ?_, ?_⟩
  · rw [List.length_take]
    omega
  · calc text
      _ = text.take s ++ text.drop s := (List.take_append_drop s text).symm
      _ = _ := by rw [hopen', hrest, hclose']
  · have hfront : text.take (s + 2) = text.take s ++ ['/', '*'] := by
      rw [List.take_add, hopen]
    rw [blank, hfront, hinner, hclose']
    simp

namespace Catalogue

theorem one_le_priority {text : List Char} {k : Candidate} (hk : k ∈ builtIn.candidates text) :
    1 ≤ k.priority := by
  obtain ⟨d, hd, hk⟩ := mem_candidates.mp hk
  obtain ⟨i, c, -, -, hbegins⟩ := builtIn_beginsWell d hd text k hk
  exact hbegins.one_le

theorem exists_resolve_eq {front t t' : List Char} {c : Candidate} (hstart : c.start = front.length)
    (hpriority : c.priority = 1) (hc : c ∈ resolve (builtIn.candidates (front ++ '/' :: t)))
    (hc' : c ∈ builtIn.candidates (front ++ '/' :: t')) :
    ∃ before, ∀ tail ∈ [t, t'], resolve (builtIn.candidates (front ++ '/' :: tail)) =
      before ++ c :: resolve ((builtIn.candidates (front ++ '/' :: tail)).filter
        (fun k => decide (c.stop ≤ k.start))) := by
  obtain ⟨before, after, hsplit⟩ := List.append_of_mem hc
  refine ⟨before, ?_⟩
  have hmem : ∀ tail ∈ [t, t'], c ∈ builtIn.candidates (front ++ '/' :: tail) := by
    simp only [List.forall_mem_cons, List.not_mem_nil, false_imp_iff, implies_true, and_true]
    exact ⟨resolve_subset _ hc, hc'⟩
  intro tail htail
  refine resolve_eq_append_cons (candidates_distinct _) hsplit (hmem tail htail) ?_ ?_ ?_
  · intro k hk _
    rw [hpriority]
    exact one_le_priority hk
  · rw [hstart]
    exact agreeBefore front t tail
  · rw [hstart]
    exact agreeBefore front tail t

theorem mem_filter_behind_iff {front inner inner' back : List Char}
    (hlen : inner.length = inner'.length) {x : Extent} (hstart : x.start = front.length)
    (hstop : x.stop = front.length + 4 + inner.length)
    (hx : x ∈ blockComments (front ++ '/' :: '*' :: (inner ++ '*' :: '/' :: back)))
    (hx' : x ∈ blockComments (front ++ '/' :: '*' :: (inner' ++ '*' :: '/' :: back)))
    (hliterals : Undisturbed stringLiterals ['"']
      (front ++ '/' :: '*' :: (inner ++ '*' :: '/' :: back))
      (front ++ '/' :: '*' :: (inner' ++ '*' :: '/' :: back)) (front.length + 4 + inner.length))
    (hlines : Undisturbed lineComments ['/', '/']
      (front ++ '/' :: '*' :: (inner ++ '*' :: '/' :: back))
      (front ++ '/' :: '*' :: (inner' ++ '*' :: '/' :: back)) (front.length + 4 + inner.length))
    (k : Candidate) :
    k ∈ (builtIn.candidates (front ++ '/' :: '*' :: (inner ++ '*' :: '/' :: back))).filter
        (fun k => decide (((front.length + 4 + inner.length : Nat) : Int) ≤ k.start)) ↔
      k ∈ (builtIn.candidates (front ++ '/' :: '*' :: (inner' ++ '*' :: '/' :: back))).filter
        (fun k => decide (((front.length + 4 + inner.length : Nat) : Int) ≤ k.start)) := by
  have hslash (inner : List Char) : front ++ '/' :: '*' :: (inner ++ '*' :: '/' :: back) =
      (front ++ '/' :: '*' :: (inner ++ ['*'])) ++ '/' :: back := by simp
  have hlength (inner : List Char) :
      (front ++ '/' :: '*' :: (inner ++ ['*'])).length + 1 = front.length + 4 + inner.length := by
    simp only [List.length_append, List.length_cons, List.length_nil]
    omega
  have hlen' : (front ++ '/' :: '*' :: (inner ++ ['*'])).length =
      (front ++ '/' :: '*' :: (inner' ++ ['*'])).length := by
    have hinner := hlength inner
    have hinner' := hlength inner'
    omega
  rw [hslash, hslash, ← hlength] at hliterals hlines
  rw [hslash] at hx hx'
  simp only [List.mem_filter, decide_eq_true_eq, ← hlength inner, hslash]
  refine and_congr_left (fun hle => ⟨fun hk => ?_, fun hk => ?_⟩)
  · refine mem_of_behind hlen' ?_ ?_ hx hx' hliterals hlines hk hle
    · have hinner := hlength inner
      omega
    · rw [hstop, hlength]
  · rw [hlen'] at hle
    refine mem_of_behind hlen'.symm ?_ ?_ hx' hx (hliterals.symm_slash hlen')
      (hlines.symm_slash hlen') hk hle
    · have hinner' := hlength inner'
      omega
    · rw [hstop, hlength, hlen]

end Catalogue

/-- Blanks for what a closed comment holds leave the spans up to its end as they are. They leave
all spans as they are, unless a literal or a line comment crosses the end of the comment in one of
the two texts only and something opens on the rest of the line. -/
theorem scan_blank_comment (text : List Char) (spans : List Span) (s e : Nat)
    (hscan : scan Catalogue.builtIn text = .ok spans) (hspan : ⟨⟨s, e⟩, .comment⟩ ∈ spans)
    (hopen : Text.slice text s (s + 2 : Nat) = ['/', '*'])
    (hclose : Text.slice text (e - 2 : Nat) e = ['*', '/']) (hwidth : s + 4 ≤ e) :
    ∃ before after after', spans = before ++ ⟨⟨s, e⟩, .comment⟩ :: after ∧
      scan Catalogue.builtIn (Text.blank text (s + 2) (e - 2)) =
        .ok (before ++ ⟨⟨s, e⟩, .comment⟩ :: after') ∧
      (Undisturbed stringLiterals ['"'] text (Text.blank text (s + 2) (e - 2)) e →
        Undisturbed lineComments ['/', '/'] text (Text.blank text (s + 2) (e - 2)) e →
        after' = after) := by
  rw [scan_builtIn] at hscan
  obtain rfl := Except.ok.inj hscan
  obtain ⟨k, hk, hkspan⟩ := List.mem_map.mp hspan
  have hstart : k.start = s := congrArg (fun s : Span => s.start) hkspan
  have hstop : k.stop = e := congrArg (fun s : Span => s.stop) hkspan
  have hcategory : k.category = .comment := congrArg Span.category hkspan
  have hmem := resolve_subset _ hk
  have hpriority : k.priority = 1 := by
    have hle := (Catalogue.category_eq_comment_iff hmem).mp hcategory
    have hone := Catalogue.one_le_priority hmem
    omega
  have he : e ≤ text.length := by
    have hle := (Catalogue.candidates_bounded hmem).2
    omega
  obtain ⟨front, inner, back, rfl, rfl, htext, hblank⟩ := Text.exists_around hwidth he hopen hclose
  rw [hblank]
  clear hblank
  subst htext
  have hblock := Catalogue.mem_blockComments hmem hcategory hstart hstop List.drop_left
  have hblank := blockComments_replace hblock
    (List.replicate inner.length ' ' ++ '*' :: '/' :: back)
  rw [blockBody_of_blank, show front.length + (inner.length + 2 + 2) =
    front.length + 4 + inner.length by omega] at hblank
  have hk' : k ∈ Catalogue.builtIn.candidates
      (front ++ '/' :: '*' :: (List.replicate inner.length ' ' ++ '*' :: '/' :: back)) := by
    refine Catalogue.mem_candidates.mpr ⟨.blockComment, by simp [Catalogue.builtIn], ?_⟩
    refine Definition.mem_candidates.mpr ⟨List.mem_map.mpr ⟨_, hblank, ?_⟩, hcategory, hpriority, ?_⟩
    · rw [Extent.toRange, ← hstart, ← hstop]
    · omega
  obtain ⟨before, hbefore⟩ := Catalogue.exists_resolve_eq hstart hpriority hk hk'
  have hself := hbefore _ List.mem_cons_self
  have hother := hbefore _ (List.mem_cons_of_mem _ List.mem_cons_self)
  rw [scan_builtIn, hself, hother, List.map_append, List.map_append, List.map_cons, List.map_cons,
    hkspan]
  refine ⟨_, _, _, rfl, rfl, ?_⟩
  intro hliterals hlines
  have hmem_iff := Catalogue.mem_filter_behind_iff List.length_replicate.symm rfl rfl hblock hblank
    hliterals hlines
  rw [hstop]
  refine congrArg (List.map toSpan) (resolve_congr ?_ (fun k => (hmem_iff k).symm))
  intro a ha b hb
  exact Catalogue.candidates_distinct _ a (List.mem_filter.mp ha).1 b (List.mem_filter.mp hb).1

theorem scan_blank_comment_quote :
    ∃ spans, scan Catalogue.builtIn "/* \" */ $a".toList = .ok spans ∧
      ⟨⟨(0 : Nat), (7 : Nat)⟩, .comment⟩ ∈ spans ∧
      Text.slice "/* \" */ $a".toList (0 : Nat) (0 + 2 : Nat) = ['/', '*'] ∧
      Text.slice "/* \" */ $a".toList (7 - 2 : Nat) (7 : Nat) = ['*', '/'] ∧ 0 + 4 ≤ 7 ∧
      Undisturbed stringLiterals ['"'] "/* \" */ $a".toList
        (Text.blank "/* \" */ $a".toList (0 + 2) (7 - 2)) 7 ∧
      Undisturbed lineComments ['/', '/'] "/* \" */ $a".toList
        (Text.blank "/* \" */ $a".toList (0 + 2) (7 - 2)) 7 ∧
      scan Catalogue.builtIn (Text.blank "/* \" */ $a".toList (0 + 2) (7 - 2)) = .ok spans := by
  have hperm : (Catalogue.builtIn.candidates "/* \" */ $a".toList).Perm
      [⟨⟨0, 7⟩, .comment, 1⟩, ⟨⟨0, 2⟩, .operator, 7⟩, ⟨⟨3, 10⟩, .string, 2⟩,
       ⟨⟨5, 7⟩, .operator, 7⟩, ⟨⟨8, 10⟩, .variableName, 3⟩] := by decide +kernel
  have hscan := scan_of_perm hperm (by decide)
  have hliterals : Undisturbed stringLiterals ['"'] "/* \" */ $a".toList
      (Text.blank "/* \" */ $a".toList (0 + 2) (7 - 2)) 7 :=
    Or.inr fun h => absurd (h.subset List.mem_cons_self) (by decide)
  have hlines : Undisturbed lineComments ['/', '/'] "/* \" */ $a".toList
      (Text.blank "/* \" */ $a".toList (0 + 2) (7 - 2)) 7 :=
    Or.inr fun h => absurd (h.subset List.mem_cons_self) (by decide)
  obtain ⟨before, after, after', hspans, hblank, hafter⟩ :=
    scan_blank_comment _ _ 0 7 hscan (by decide) (by decide) (by decide) (by decide)
  rw [hafter hliterals hlines, ← hspans] at hblank
  exact ⟨_, hscan, by decide, by decide, by decide, by decide, hliterals, hlines, hblank⟩

def Text.Leaks (text : List Char) (s e : Nat) : Prop :=
  ∃ spans spans', scan Catalogue.builtIn text = .ok spans ∧ ⟨⟨s, e⟩, .comment⟩ ∈ spans ∧
    slice text s (s + 2 : Nat) = ['/', '*'] ∧ slice text (e - 2 : Nat) e = ['*', '/'] ∧ s + 4 ≤ e ∧
    scan Catalogue.builtIn (blank text (s + 2) (e - 2)) = .ok spans' ∧ spans' ≠ spans

theorem leaks_after_comment :
    Text.Leaks "/* \" */ \"a\"".toList 0 7 ∧ Text.Leaks "/* // */ // b".toList 0 8 := by
  constructor
  · have hperm : (Catalogue.builtIn.candidates "/* \" */ \"a\"".toList).Perm
        [⟨⟨0, 7⟩, .comment, 1⟩, ⟨⟨0, 2⟩, .operator, 7⟩, ⟨⟨3, 9⟩, .string, 2⟩,
         ⟨⟨5, 7⟩, .operator, 7⟩, ⟨⟨10, 11⟩, .string, 2⟩] := by decide +kernel
    have hblank : (Catalogue.builtIn.candidates
        (Text.blank "/* \" */ \"a\"".toList (0 + 2) (7 - 2))).Perm
        [⟨⟨0, 7⟩, .comment, 1⟩, ⟨⟨0, 2⟩, .operator, 7⟩, ⟨⟨5, 7⟩, .operator, 7⟩,
         ⟨⟨8, 11⟩, .string, 2⟩] := by decide +kernel
    exact ⟨_, _, scan_of_perm hperm (by decide), by decide, by decide, by decide, by decide,
      scan_of_perm hblank (by decide), by decide⟩
  · have hperm : (Catalogue.builtIn.candidates "/* // */ // b".toList).Perm
        [⟨⟨0, 8⟩, .comment, 1⟩, ⟨⟨0, 2⟩, .operator, 7⟩, ⟨⟨3, 13⟩, .comment, 1⟩,
         ⟨⟨3, 5⟩, .operator, 7⟩, ⟨⟨6, 8⟩, .operator, 7⟩, ⟨⟨9, 11⟩, .operator, 7⟩] := by
      decide +kernel
    have hblank : (Catalogue.builtIn.candidates
        (Text.blank "/* // */ // b".toList (0 + 2) (8 - 2))).Perm
        [⟨⟨0, 8⟩, .comment, 1⟩, ⟨⟨0, 2⟩, .operator, 7⟩, ⟨⟨6, 8⟩, .operator, 7⟩,
         ⟨⟨9, 13⟩, .comment, 1⟩, ⟨⟨9, 11⟩, .operator, 7⟩] := by decide +kernel
    exact ⟨_, _, scan_of_perm hperm (by decide), by decide, by decide, by decide, by decide,
      scan_of_perm hblank (by decide), by decide⟩

end RuleHighlight
