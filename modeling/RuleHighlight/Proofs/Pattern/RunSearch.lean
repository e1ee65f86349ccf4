import RuleHighlight.Proofs.Pattern.Interior
import RuleHighlight.Proofs.Regex

namespace RuleHighlight

open CharClass

namespace Run

theorem extents_disjoint (p : Char → Bool) (keep : Run → Bool) (text : List Char) :
    (extents p keep text).Pairwise (fun a b => a.stop ≤ b.start) := by
  rw [extents, List.pairwise_map]
  exact ((Occurrence.all_pairwise text).filter _).imp (fun h => h.2)

theorem preferred_many_one (p : Char → Bool) : (Regex.many p 1 none).preferred =
    (recognise p).view (fun r => r.chars.length) := by
  funext before rest
  rw [Regex.preferred_eq, Recogniser.view, recognise]
  cases hrun : rest.takeWhile p with
  | nil =>
    apply Regex.first_many_of_lt
    rw [Regex.reach, hrun]
    exact Nat.zero_lt_one
  | cons c cs =>
    have hreach : Regex.reach p none rest = cs.length + 1 := by
      rw [Regex.reach, hrun]
      rfl
    rw [Regex.first_many_greedy (by omega) (fun hnone => absurd hnone (Option.some_ne_none _)), hreach]
    rfl

theorem extents_many_one (p : Char → Bool) (text : List Char) :
    Occurrence.extents (Regex.many p 1 none).preferred text = extents p (fun _ => true) text := by
  rw [Occurrence.extents, preferred_many_one, ← map_all (w := id) (fun _ => rfl), List.map_map, extents,
    List.filter_true]
  rfl

theorem yields_many_one_iff (p : Char → Bool) {text : List Char} {found : List Extent} :
    ((Regex.many p 1 none).search text).Yields found ↔ found = extents p (fun _ => true) text := by
  rw [Regex.yields_search_iff, extents_many_one]
  · rw [preferred_many_one]
    exact view_fits fun _ => rfl
  · intro before rest n hn
    rw [preferred_many_one, Recogniser.view, Option.map_eq_some_iff] at hn
    obtain ⟨r, hr, rfl⟩ := hn
    exact List.length_pos_of_ne_nil (recognise_eq_some hr).2.2.2

end Run

namespace Regex

structure Keeps (e : Regex) (keep : List Char → Bool) : Prop where
  preferred_eq : ∀ before rest, e.preferred before rest =
    if !before.head?.any isWord && keep (rest.takeWhile isWord) then
      some (rest.takeWhile isWord).length
    else none
  keep_nil : keep [] = false

namespace Keeps

variable {e : Regex} {keep : List Char → Bool} (h : e.Keeps keep) {text : List Char}

include h

theorem width {before rest : List Char} {n : Nat} (hn : e.preferred before rest = some n) :
    0 < n ∧ n ≤ rest.length := by
  rw [h.preferred_eq] at hn
  split_ifs at hn with hseen
  obtain rfl := Option.some.inj hn
  refine ⟨List.length_pos_of_ne_nil fun hnil => ?_, (List.takeWhile_prefix isWord).length_le⟩
  rw [hnil, h.keep_nil, Bool.and_false] at hseen
  cases hseen

theorem sees_iff {x : Extent} :
    (e.search text).Sees x ↔ x ∈ Run.extents isWord (fun r => keep r.chars) text := by
  rw [search, Search.sees_recognised, Run.mem_extents_iff]
  constructor
  · rintro ⟨i, n, hn, rfl⟩
    obtain ⟨hpos, hfits⟩ := h.width hn
    rw [List.length_drop] at hfits
    have hle : i ≤ text.length := by omega
    rw [h.preferred_eq] at hn
    split_ifs at hn with hseen
    obtain rfl := Option.some.inj hn
    rw [Bool.and_eq_true, Bool.not_eq_true'] at hseen
    refine ⟨⟨(text.take i).reverse, (text.drop i).takeWhile isWord,
      (text.drop i).dropWhile isWord⟩, ⟨?_, ?_, List.ne_nil_of_length_pos hpos, ?_, hseen.1, ?_⟩,
      hseen.2, rfl⟩
    · rw [List.reverse_reverse, List.takeWhile_append_dropWhile, List.take_append_drop]
    · rw [List.length_reverse, List.length_take, Nat.min_eq_left hle]
    · exact fun c hc => List.mem_takeWhile_imp hc
    · exact Text.any_head?_dropWhile isWord _
  · rintro ⟨r, hr, hkeep, hstop⟩
    have hchars := (Run.recognise_eq_some hr.recognise_eq).2.1
    have hbefore : (text.take x.start).reverse = r.before := by
      rw [hr.offset_eq, hr.text_eq, List.take_left' List.length_reverse, List.reverse_reverse]
    have hrest : text.drop x.start = r.chars ++ r.after := by
      rw [hr.offset_eq, hr.text_eq, List.drop_left' List.length_reverse]
    refine ⟨x.start, r.chars.length, ?_, ?_⟩
    · rw [h.preferred_eq, hbefore, hrest, ← hchars, hr.any_before, hkeep]
      rfl
    · simp only [← hstop]

theorem decomposes (text : List Char) :
    (e.search text).Decomposes (Run.extents isWord (fun r => keep r.chars) text) := by
  refine ⟨fun _ => h.sees_iff.mpr, Run.extents_disjoint isWord _ text, ?_⟩
  intro x hx
  have hmem := h.sees_iff.mp hx
  obtain ⟨r, hr, -, hstop⟩ := Run.mem_extents_iff.mp hmem
  have hpos := hr.length_pos
  exact ⟨x, hmem, Nat.le_refl _, show x.start < x.stop by omega⟩

theorem yields_iff {found : List Extent} : (e.search text).Yields found ↔
    found = Run.extents isWord (fun r => keep r.chars) text :=
  (h.decomposes text).yields_iff (Search.recognised_within (fun _ _ => rfl) (fun _ _ => rfl)
    (fun _ _ _ hn => (h.width hn).2) (fun _ _ _ hn => (h.width hn).1) text)

end Keeps

end Regex

end RuleHighlight
