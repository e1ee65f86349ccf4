import RuleHighlight.Proofs.Pattern.RunSearch

/-!
Reserved words as a regular expression. Many of them begin with others, so the search for their
alternatives tries several at one place, in the order in which they are listed. The boundary at the
end leaves only one that is a whole word of the text, so no order matters, and the search finds the
words of the text that belong to the vocabulary.
-/

namespace RuleHighlight

open CharClass

/-- In regular notation `\b(?:first|second|…)\b`. -/
def Regex.wholeWord (words : List String) : Regex :=
  bounded (alternatives (words.map fun w => literal w.toList))

namespace Pattern

open Regex

def Wordy (words : List String) : Prop :=
  ∀ w ∈ words, w.toList ≠ [] ∧ ∀ c ∈ w.toList, isWord c = true

section Wordy

variable {words : List String} {before rest : List Char}

theorem stop_word {w : List Char} (hne : w ≠ []) (hword : ∀ c ∈ w, isWord c = true)
    (after : List Char) :
    stop before (w ++ after) w.length = if after.head?.any isWord then none else some w.length := by
  obtain ⟨n, hn⟩ := Nat.exists_eq_add_of_le' (List.length_pos_of_ne_nil hne)
  have hlt : n < w.length := by omega
  have hlast : (w ++ after)[n]?.any isWord = true := by
    rw [List.getElem?_append_left hlt, List.getElem?_eq_getElem hlt, Option.any_some]
    exact hword _ (List.getElem_mem hlt)
  have hnext : (w ++ after)[n + 1]? = after.head? := by
    rw [List.getElem?_append_right (by omega), hn, Nat.sub_self, List.head?_eq_getElem?]
  rw [hn, stop_succ (by rw [List.length_append]; omega), hlast, hnext]
  cases after.head?.any isWord <;> rfl

theorem literal_stopped {w : List Char} (hne : w ≠ []) (hword : ∀ c ∈ w, isWord c = true) :
    (literal w).stopped before rest =
      if w = rest.takeWhile isWord then some (rest.takeWhile isWord).length else none := by
  rw [stopped, first_literal]
  by_cases hbegin : w.isPrefixOf rest
  · rw [if_pos hbegin]
    obtain ⟨after, rfl⟩ := List.isPrefixOf_iff_prefix.mp hbegin
    rw [stop_word hne hword, List.takeWhile_append_of_pos hword]
    -- Where the run goes on behind the word, there is no boundary.
    cases after with
    | nil => simp
    | cons c after => cases hc : isWord c <;> simp [hc]
  · rw [if_neg hbegin, if_neg]
    rintro rfl
    exact hbegin (List.isPrefixOf_iff_prefix.mpr (List.takeWhile_prefix isWord))

theorem alternatives_stopped (h : Wordy words) :
    (alternatives (words.map fun w => literal w.toList)).stopped before rest =
      if words.contains (String.ofList (rest.takeWhile isWord)) then
        some (rest.takeWhile isWord).length
      else none := by
  induction words with
  | nil => exact first_look _
  | cons w words ih =>
    obtain ⟨⟨hne, hword⟩, h⟩ := List.forall_mem_cons.mp h
    rw [List.map_cons, alternatives, stopped_alt, literal_stopped hne hword, ih h,
      List.contains_cons]
    by_cases hw : w.toList = rest.takeWhile isWord
    · have hsame : String.ofList (rest.takeWhile isWord) = w := by rw [← hw, String.ofList_toList]
      simp [hw, hsame]
    · have hother : String.ofList (rest.takeWhile isWord) ≠ w := by
        rintro rfl
        exact hw String.toList_ofList
      simp [hw, hother]

theorem wholeWord_keeps (h : Wordy words) :
    (wholeWord words).Keeps fun chars => words.contains (String.ofList chars) := by
  have hnot : words.contains (String.ofList []) = false := by
    rw [← Bool.not_eq_true, List.contains_iff_mem]
    intro hmem
    exact (h _ hmem).1 String.toList_ofList
  refine ⟨fun before rest => ?_, hnot⟩
  rw [wholeWord, preferred_bounded, alternatives_stopped h]
  cases hrest : rest.head?.any isWord with
  | true => cases before.head?.any isWord <;> rfl
  | false =>
    rw [Text.takeWhile_eq_nil hrest, hnot]
    simp

end Wordy

structure ReadsWords (vocabulary : List String) (text : List Char) (found : List Extent) : Prop where
  ascending : found.Pairwise (fun a b => a.stop ≤ b.start)
  mem_iff : ∀ e, e ∈ found ↔ ∃ r, Run.Maximal isWord text e.start r ∧
    e.stop = e.start + r.chars.length ∧ String.ofList r.chars ∈ vocabulary
  search : ∀ listed : List String, (∀ w, w ∈ listed ↔ w ∈ vocabulary) →
    ∀ other, ((wholeWord listed).search text).Yields other ↔ other = found

section Words

variable {vocabulary : List String} {text : List Char}

theorem mem_wordsIn_iff {e : Extent} : e ∈ wordsIn vocabulary text ↔
    ∃ r, Run.Maximal isWord text e.start r ∧ e.stop = e.start + r.chars.length ∧
      String.ofList r.chars ∈ vocabulary := by
  rw [wordsIn, Run.mem_extents_iff]
  refine exists_congr fun r => and_congr_right fun _ => ?_
  rw [List.contains_iff_mem, and_comm]

theorem wordsIn_congr {listed : List String} (h : ∀ w, w ∈ listed ↔ w ∈ vocabulary) :
    wordsIn listed text = wordsIn vocabulary text := by
  have hkeep : (fun r : Run => listed.contains (String.ofList r.chars)) =
      fun r => vocabulary.contains (String.ofList r.chars) := by
    funext r
    rw [Bool.eq_iff_iff, List.contains_iff_mem, List.contains_iff_mem, h]
  rw [wordsIn, hkeep, wordsIn]

theorem readsWords_wordsIn (h : Wordy vocabulary) (text : List Char) :
    ReadsWords vocabulary text (wordsIn vocabulary text) := by
  refine ⟨Run.extents_disjoint isWord _ text, fun _ => mem_wordsIn_iff, ?_⟩
  intro listed hlisted other
  have hwordy : Wordy listed := fun w hw => h w ((hlisted w).mp hw)
  rw [← wordsIn_congr hlisted]
  exact (wholeWord_keeps hwordy).yields_iff

end Words

theorem wordy_of_all {words : List String}
    (h : words.all (fun w => !w.toList.isEmpty && w.toList.all isWord) = true) : Wordy words := by
  intro w hw
  have hw' := List.all_eq_true.mp h w hw
  rw [Bool.and_eq_true, Bool.not_eq_true', List.isEmpty_eq_false_iff, List.all_eq_true] at hw'
  exact hw'

theorem keywords_wordy : Wordy keywords := wordy_of_all (by decide +kernel)

theorem truthValues_wordy : Wordy truthValues := wordy_of_all (by decide +kernel)

/-- The keywords and the truth values of a text are its whole words of these vocabularies. -/
theorem keywords_and_truthValues (text : List Char) :
    ReadsWords keywords text (wordsIn keywords text) ∧
      ReadsWords truthValues text (wordsIn truthValues text) :=
  ⟨readsWords_wordsIn keywords_wordy text, readsWords_wordsIn truthValues_wordy text⟩

end Pattern

end RuleHighlight
