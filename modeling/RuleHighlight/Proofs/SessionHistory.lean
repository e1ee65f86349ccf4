import RuleHighlight.Session
import RuleHighlight.Proofs.ScanOutput

namespace RuleHighlight

theorem exists_scan_eq (catalogue : Catalogue) (text : List Char) :
    ∃ spans, scan catalogue text = .ok spans := ⟨_, scan_eq catalogue text⟩

namespace Update

def isReported (u : Update) : Bool := u.documentChanged || u.viewportChanged

def scanned? (u : Update) : Option (List Char) :=
  match u.isReported, u.content with
  | true, .text chars => some chars
  | _, _ => none

def latest (initial : List Char) (us : List Update) : List Char :=
  (us.filterMap scanned?).getLast?.getD initial

theorem latest_concat_of_some {initial chars : List Char} {us : List Update} {u : Update}
    (h : u.scanned? = some chars) : latest initial (us ++ [u]) = chars := by
  simp [latest, List.filterMap_append, h]

theorem latest_concat_of_none {initial : List Char} {us : List Update} {u : Update}
    (h : u.scanned? = none) : latest initial (us ++ [u]) = latest initial us := by
  simp [latest, List.filterMap_append, h]

end Update

namespace Session

def after (s : Session) (us : List Update) : Session := us.foldl (fun s u => (s.update u).2) s

@[simp]
theorem after_concat (s : Session) (us : List Update) (u : Update) :
    s.after (us ++ [u]) = ((s.after us).update u).2 := by
  rw [after, List.foldl_append, after]
  rfl

theorem getElem?_run (s : Session) (us : List Update) (i : Nat) :
    (s.run us)[i]? = us[i]?.map (s.after (us.take i)).update := by
  induction us generalizing s i with
  | nil => rfl
  | cons u us ih =>
    cases i with
    | zero => rfl
    | succ i => exact ih (s.update u).2 i

@[simp]
theorem length_run (s : Session) (us : List Update) : (s.run us).length = us.length := by
  induction us generalizing s with
  | nil => rfl
  | cons u us ih => exact congrArg (· + 1) (ih (s.update u).2)

theorem update_cases (s : Session) (u : Update) :
    u.isReported = false ∧ s.update u = (.unchanged, s) ∨
    (∃ chars spans, u.isReported = true ∧ u.content = .text chars ∧
      scan s.catalogue chars = .ok spans ∧
      s.update u = (.refreshed, { s with spans := spans, scans := s.scans + 1 })) ∨
    ∃ kind, u.isReported = true ∧ u.content = .other kind ∧
      s.update u = (.failed (.notText kind), s) := by
  cases hreported : u.isReported with
  | false => exact Or.inl ⟨rfl, if_neg (Bool.eq_false_iff.mp hreported)⟩
  | true =>
    have hflags : (u.documentChanged || u.viewportChanged) = true := hreported
    right
    rw [update, if_pos hflags]
    cases hcontent : u.content with
    | text chars =>
      obtain ⟨spans, hscan⟩ := exists_scan_eq s.catalogue chars
      refine Or.inl ⟨chars, spans, rfl, rfl, hscan, ?_⟩
      simp only [Content.scan, hscan, Except.mapError]
    | other kind => exact Or.inr ⟨kind, rfl, rfl, rfl⟩

theorem update_scanned (s : Session) (u : Update) {chars : List Char}
    (h : u.scanned? = some chars) : ∃ spans, scan s.catalogue chars = .ok spans ∧
      (s.update u).2 = { s with spans := spans, scans := s.scans + 1 } := by
  rcases s.update_cases u with ⟨hreported, -⟩ | ⟨chars', spans, hreported, hcontent, hscan, hu⟩ |
    ⟨kind, hreported, hcontent, -⟩
  · simp [Update.scanned?, hreported] at h
  · simp only [Update.scanned?, hreported, hcontent, Option.some.injEq] at h
    subst h
    exact ⟨spans, hscan, by rw [hu]⟩
  · simp [Update.scanned?, hreported, hcontent] at h

theorem update_outcome (s : Session) (u : Update) :
    ((s.update u).1 = .refreshed ↔ u.isReported = true ∧ ∃ chars, u.content = .text chars) ∧
    ((s.update u).1 = .unchanged ↔ u.isReported = false) ∧
    ∀ e, (s.update u).1 = .failed e ↔
      u.isReported = true ∧ ∃ kind, u.content = .other kind ∧ e = .notText kind := by
  rcases s.update_cases u with ⟨hreported, hu⟩ | ⟨chars, spans, hreported, hcontent, -, hu⟩ |
    ⟨kind, hreported, hcontent, hu⟩
  · simp [hu, hreported]
  · simp [hu, hreported, hcontent]
  · simp [hu, hreported, hcontent, eq_comm]

theorem update_of_ne_refreshed (s : Session) (u : Update) (h : (s.update u).1 ≠ .refreshed) :
    (s.update u).2 = s := by
  rcases s.update_cases u with ⟨-, hu⟩ | ⟨chars, spans, -, -, -, hu⟩ | ⟨kind, -, -, hu⟩
  · rw [hu]
  · rw [hu] at h
    exact absurd rfl h
  · rw [hu]

structure Follows (catalogue : Catalogue) (initial : List Char) (us : List Update) (s : Session) :
    Prop where
  catalogue_eq : s.catalogue = catalogue
  scan_eq : scan catalogue (Update.latest initial us) = .ok s.spans
  scans_eq : s.scans = 1 + us.countP (·.scanned?.isSome)

variable {catalogue : Catalogue} {initial : List Char}

theorem follows_attach (catalogue : Catalogue) (initial : List Char) :
    ∃ s, attach catalogue (.text initial) = .ok s ∧ Follows catalogue initial [] s := by
  obtain ⟨spans, hscan⟩ := exists_scan_eq catalogue initial
  refine ⟨⟨catalogue, spans, 1⟩, ?_, rfl, hscan, rfl⟩
  simp only [attach, Content.scan, hscan, Except.mapError, Except.map]

theorem Follows.update {us : List Update} {s : Session} (h : Follows catalogue initial us s)
    (u : Update) : Follows catalogue initial (us ++ [u]) (s.update u).2 := by
  cases hu : u.scanned? with
  | none =>
    have hne : (s.update u).1 ≠ .refreshed := by
      rw [Ne, (s.update_outcome u).1]
      rintro ⟨hreported, chars, hcontent⟩
      simp [Update.scanned?, hreported, hcontent] at hu
    rw [s.update_of_ne_refreshed u hne]
    refine ⟨h.catalogue_eq, ?_, ?_⟩
    · rw [Update.latest_concat_of_none hu]
      exact h.scan_eq
    · rw [h.scans_eq, List.countP_append]
      simp [hu]
  | some chars =>
    obtain ⟨spans, hscan, hs⟩ := s.update_scanned u hu
    rw [hs]
    refine ⟨h.catalogue_eq, ?_, ?_⟩
    · rw [Update.latest_concat_of_some hu, ← h.catalogue_eq]
      exact hscan
    · simp only [h.scans_eq, List.countP_append, List.countP_singleton, hu, Option.isSome_some,
        if_true]
      omega

theorem Follows.after {s : Session} (h : Follows catalogue initial [] s) (us : List Update) :
    Follows catalogue initial us (s.after us) := by
  -- The last update decides what is published, so updates are added at the end.
  induction us using List.reverseRecOn with
  | nil => exact h
  | append_singleton us u ih =>
    rw [after_concat]
    exact ih.update u

theorem run_withViewports (s : Session) (us : List Update) (viewports : Nat → Option (Int × Int)) :
    s.run (us.mapIdx fun i u => { u with viewport := viewports i }) = s.run us := by
  induction us generalizing s viewports with
  | nil => rfl
  | cons u us ih =>
    rw [List.mapIdx_cons, run, run]
    exact congrArg _ (ih _ (fun i => viewports (i + 1)))

/-- After each of any sequence of updates the spans are those of the text scanned last. -/
theorem run_follows (catalogue : Catalogue) (initial : List Char) (us : List Update) :
    ∃ s, attach catalogue (.text initial) = .ok s ∧ s.scans = 1 ∧
      scan catalogue initial = .ok s.spans ∧ (s.run us).length = us.length ∧
      (∀ i : Fin us.length, ∃ outcome,
        (s.run us)[i.val]? = some (outcome, s.after (us.take (i + 1))) ∧
        scan catalogue (Update.latest initial (us.take (i + 1))) =
          .ok (s.after (us.take (i + 1))).spans ∧
        (s.after (us.take (i + 1))).scans = 1 + (us.take (i + 1)).countP (·.scanned?.isSome) ∧
        (outcome = .refreshed ↔ us[i].isReported = true ∧ ∃ chars, us[i].content = .text chars) ∧
        (outcome = .unchanged ↔ us[i].isReported = false) ∧
        (∀ e, outcome = .failed e ↔ us[i].isReported = true ∧
          ∃ kind, us[i].content = .other kind ∧ e = .notText kind) ∧
        (outcome ≠ .refreshed → s.after (us.take (i + 1)) = s.after (us.take i))) ∧
      ∀ viewports : Nat → Option (Int × Int),
        s.run (us.mapIdx fun i u => { u with viewport := viewports i }) = s.run us := by
  obtain ⟨s, hattach, hs⟩ := follows_attach catalogue initial
  refine ⟨s, hattach, hs.scans_eq, hs.scan_eq, length_run s us, ?_, run_withViewports s us⟩
  intro i
  have htake : us.take (i + 1) = us.take i ++ [us[i]] := (List.take_append_getElem i.isLt).symm
  have hafter := after_concat s (us.take i) us[i]
  rw [← htake] at hafter
  obtain ⟨hrefreshed, hunchanged, hfailed⟩ := (s.after (us.take i)).update_outcome us[i]
  have hfollows := hs.after (us.take (i + 1))
  refine ⟨((s.after (us.take i)).update us[i]).1, ?_, hfollows.scan_eq, hfollows.scans_eq,
    hrefreshed, hunchanged, hfailed, ?_⟩
  · rw [getElem?_run, List.getElem?_eq_getElem i.isLt, hafter]
    rfl
  · intro hne
    rw [hafter]
    exact (s.after (us.take i)).update_of_ne_refreshed us[i] hne

end Session

end RuleHighlight
