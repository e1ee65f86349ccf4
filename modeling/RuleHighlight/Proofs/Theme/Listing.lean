import Mathlib.Data.List.Sort
import RuleHighlight.Proofs.Theme.Loading

/-!
Which themes are listed. A listing reads the names in three directories, and a lookup goes to one
file in each of them. They agree on every name but two: a file whose name is the bare ending is
found under the empty name, while the listing outside the bundled themes gives its whole name.
-/

namespace RuleHighlight

namespace Path

variable {dir : Path} {n : String}

theorem pieces_of_notMem {cs : List Char} (h : '/' ∉ cs) : pieces cs = [cs] := by
  induction cs with
  | nil => rfl
  | cons c cs ih =>
    simp only [List.mem_cons, not_or] at h
    rw [pieces, ih h.2]
    exact if_neg (Ne.symm h.1)

theorem rootOf_of_notMem {cs : List Char} (h : '/' ∉ cs) : rootOf cs = "" := by
  unfold rootOf
  split
  all_goals simp_all

theorem child_eq (hslash : '/' ∉ n.toList) (hempty : n ≠ "") (hdot : n ≠ ".") :
    dir.child n = ⟨dir.root, dir.names ++ [n]⟩ := by
  simp [child, join, isAbsolute, ofString, rootOf_of_notMem hslash, pieces_of_notMem hslash,
    hempty, hdot]

theorem isUsable_concat (root : String) (names : List String) (h : '\x00' ∉ n.toList) :
    (⟨root, names ++ [n]⟩ : Path).isUsable = (⟨root, names⟩ : Path).isUsable := by
  simp [isUsable, h]

theorem width_intercalate_concat (names : List String) (n : String) :
    ("/".intercalate (names ++ [n])).utf8ByteSize ≤
      ("/".intercalate names).utf8ByteSize + 1 + n.utf8ByteSize := by
  induction names with
  | nil => simp
  | cons a names ih =>
    cases names with
    | nil =>
      have hsep : "/".utf8ByteSize = 1 := rfl
      simp [String.utf8ByteSize_append, hsep]
    | cons b names =>
      simp only [List.cons_append, String.intercalate_cons_cons, String.utf8ByteSize_append] at ih ⊢
      omega

theorem width_concat (dir : Path) (n : String) :
    (⟨dir.root, dir.names ++ [n]⟩ : Path).toString.utf8ByteSize ≤
      dir.toString.utf8ByteSize + 1 + n.utf8ByteSize := by
  have hwidth := width_intercalate_concat dir.names n
  unfold toString
  split_ifs with hchild hdir hdir
  · simp at hchild
  · simp at hchild
  · simp at hdir
    simp [hdir]
  · simp only [String.utf8ByteSize_append]
    omega

end Path

namespace FileTree

def next (n : String) : Found → Found
  | .entry (.file _) => .belowFile
  | .entry (.directory entries) =>
    if maxNameWidth < n.utf8ByteSize then .nameTooLong
    else
      match entries.lookup n with
      | none => .absent
      | some t => .entry t
  | .absent => .absent
  | .belowFile => .belowFile
  | .nameTooLong => .nameTooLong

theorem next_eq_entry {n : String} {found : Found} {t : FileTree} (h : next n found = .entry t) :
    ∃ entries, found = .entry (.directory entries) ∧ entries.lookup n = some t := by
  unfold next at h
  split at h
  case h_2 entries =>
    split_ifs at h
    cases hlookup : entries.lookup n with
    | none => simp [hlookup] at h
    | some tree => simp_all
  all_goals cases h

theorem walk_concat {n : String} (hn : n ≠ "..") (above : List FileTree) (here : FileTree)
    (names : List String) : walk above here (names ++ [n]) = next n (walk above here names) := by
  fun_induction walk above here names with
  | case1 above here =>
    cases here with
    | file bytes => simp [walk, next]
    | directory entries =>
      simp only [List.nil_append, walk, next, hn]
      cases entries.lookup n <;> simp
  | case2 => simp [walk, next]
  | case3 => simp [walk, *]
  | case4 => simp [walk, *]
  | case5 => simp [walk, next, *]
  | case6 => simp [walk, next, *]
  | case7 => simp [walk, *]

theorem find_child {tree : FileTree} {dir : Path} {n : String} (hslash : '/' ∉ n.toList)
    (hnull : '\x00' ∉ n.toList) (hempty : n ≠ "") (hdot : n ≠ ".") (hdots : n ≠ "..") :
    tree.find (dir.child n) = next n (tree.find dir) := by
  rw [Path.child_eq hslash hempty hdot]
  unfold find
  rw [Path.isUsable_concat dir.root dir.names hnull]
  split_ifs
  · exact walk_concat hdots [] tree dir.names
  · rfl

end FileTree

namespace Theme

open Environment FileTree

namespace Environment

variable {env : Environment} {app theme : String} {dir : Path} {tree : FileTree}

@[simp]
theorem toList_fileName (theme : String) :
    (fileName theme).toList = theme.toList ++ ".yaml".toList := by
  rw [fileName, String.toList_append]

theorem notMem_fileName {c : Char} (hc : c ∉ ".yaml".toList) (h : c ∉ theme.toList) :
    c ∉ (fileName theme).toList := by
  simp only [toList_fileName, List.mem_append, not_or]
  exact ⟨h, hc⟩

theorem fileName_ne {n : String} (hn : n.toList.length < 5) (theme : String) :
    fileName theme ≠ n := by
  intro h
  have hlength := congrArg (fun n => n.toList.length) h
  simp only [toList_fileName, List.length_append] at hlength
  have hending : ".yaml".toList.length = 5 := rfl
  omega

theorem base?_eq_some_iff {file : String} : base? file = some theme ↔ file = fileName theme := by
  unfold base?
  dsimp only
  rw [← String.toList_inj, toList_fileName]
  split_ifs with hending
  · obtain ⟨front, hfront⟩ := List.isSuffixOf_iff_suffix.mp hending
    rw [← hfront, Option.some_inj, ← String.toList_inj]
    simp
  · simp
    intro h
    rw [h] at hending
    simp at hending

theorem stem?_eq_some_iff {file : String} : stem? file = some theme ↔
    theme ≠ "" ∧ file = fileName theme ∨ theme = ".yaml" ∧ file = fileName "" := by
  simp only [stem?, Option.map_eq_some_iff, base?_eq_some_iff, String.isEmpty_iff]
  constructor
  · rintro ⟨base, rfl, hbase⟩
    split_ifs at hbase with hempty
    · rw [hempty] at hbase ⊢
      exact Or.inr ⟨hbase.symm, rfl⟩
    · rw [← hbase]
      exact Or.inl ⟨hempty, rfl⟩
  · rintro (⟨hempty, rfl⟩ | ⟨rfl, rfl⟩)
    · exact ⟨theme, rfl, if_neg hempty⟩
    · exact ⟨"", rfl, rfl⟩

def held (env : Environment) (dir : Path) (theme : String) : Option FileTree :=
  match env.files.find dir with
  | .entry (.directory entries) => entries.lookup (fileName theme)
  | _ => none

theorem held_isSome_iff : (env.held dir theme).isSome ↔
    ∃ entries, env.files.find dir = .entry (.directory entries) ∧
      ∃ e ∈ entries, e.1 = fileName theme := by
  unfold held
  split <;> simp_all [List.lookup_isSome_iff]

theorem mem_themesIn_iff {theme? : String → Option String} : theme ∈ env.themesIn dir theme? ↔
    ∃ entries, env.files.find dir = .entry (.directory entries) ∧
      ∃ e ∈ entries, theme? e.1 = some theme := by
  unfold themesIn
  split <;> simp_all

@[simp]
theorem mem_themesIn_base : theme ∈ env.themesIn dir base? ↔ (env.held dir theme).isSome := by
  simp only [mem_themesIn_iff, held_isSome_iff, base?_eq_some_iff]

theorem mem_themesIn_stem : theme ∈ env.themesIn dir stem? ↔
    theme ≠ "" ∧ (env.held dir theme).isSome ∨ theme = ".yaml" ∧ (env.held dir "").isSome := by
  simp only [mem_themesIn_iff, held_isSome_iff, stem?_eq_some_iff]
  constructor
  · rintro ⟨entries, hdir, e, he, ⟨hempty, hname⟩ | ⟨hbare, hname⟩⟩
    · exact Or.inl ⟨hempty, entries, hdir, e, he, hname⟩
    · exact Or.inr ⟨hbare, entries, hdir, e, he, hname⟩
  · rintro (⟨hempty, entries, hdir, e, he, hname⟩ | ⟨hbare, entries, hdir, e, he, hname⟩)
    · exact ⟨entries, hdir, e, he, Or.inl ⟨hempty, hname⟩⟩
    · exact ⟨entries, hdir, e, he, Or.inr ⟨hbare, hname⟩⟩

theorem mem_dropRepeated {n : String} {names : List String} :
    n ∈ dropRepeated names ↔ n ∈ names := by
  induction names with
  | nil => rfl
  | cons m names ih =>
    rw [List.mem_cons, ← ih, dropRepeated]
    split
    · next hrest => simp [hrest]
    · next k more hrest =>
      rw [hrest]
      split_ifs with heq <;> simp [heq]

theorem pairwise_dropRepeated {names : List String} (h : names.Pairwise (· ≤ ·)) :
    (dropRepeated names).Pairwise (· < ·) := by
  induction names with
  | nil => exact .nil
  | cons n names ih =>
    obtain ⟨hle, hnames⟩ := List.pairwise_cons.mp h
    have hrest := ih hnames
    rw [dropRepeated]
    split
    · exact List.pairwise_singleton _ _
    · next m more heq =>
      rw [heq] at hrest
      split_ifs with hsame
      · exact hrest
      · have hlt : n < m := by
          have hmem : m ∈ names := by
            rw [← mem_dropRepeated, heq]
            exact List.mem_cons_self
          by_contra hlt
          exact hsame (String.le_antisymm (hle m hmem) (String.not_lt.mp hlt))
        apply List.pairwise_cons.mpr
        refine ⟨?_, hrest⟩
        intro k hk
        rcases List.mem_cons.mp hk with rfl | hk
        · exact hlt
        · exact String.lt_trans hlt ((List.pairwise_cons.mp hrest).1 k hk)

theorem pairwise_available (env : Environment) (app : String) :
    (env.available app).Pairwise (· < ·) := by
  have hle (s t : String) : (!decide (t < s)) = true ↔ s ≤ t := by
    rw [Bool.not_eq_true', decide_eq_false_iff_not, String.not_lt]
  apply pairwise_dropRepeated
  refine (List.pairwise_mergeSort ?_ ?_ _).imp (hle _ _).mp
  · intro a b c
    simp only [hle]
    exact String.le_trans
  · intro a b
    rw [Bool.or_eq_true, hle, hle]
    exact String.le_total a b

theorem mem_available_iff : theme ∈ env.available app ↔
    theme ≠ "" ∧ ((env.held (env.userThemes app) theme).isSome ∨
      (env.held (env.projectThemes app) theme).isSome) ∨
    theme = ".yaml" ∧ ((env.held (env.userThemes app) "").isSome ∨
      (env.held (env.projectThemes app) "").isSome) ∨
    (env.held env.bundled theme).isSome := by
  simp only [available, mem_dropRepeated, List.mem_mergeSort, List.mem_append, mem_themesIn_stem,
    mem_themesIn_base, and_or_left, or_assoc, or_left_comm]

structure Reaches (env : Environment) (dir : Path) : Prop where
  reachable : env.files.find dir ≠ .nameTooLong
  room : dir.toString.utf8ByteSize + 1 + maxNameWidth ≤ Path.maxWidth
  width_le : ∀ entries, env.files.find dir = .entry (.directory entries) →
    ∀ e ∈ entries, e.1.utf8ByteSize ≤ maxNameWidth

theorem isTooLong_of_short (hslash : '/' ∉ theme.toList) (hdir : env.Reaches dir)
    (hshort : (fileName theme).utf8ByteSize ≤ maxNameWidth) :
    (dir.child (fileName theme)).isTooLong = false := by
  have hwidth := Path.width_concat dir (fileName theme)
  have hroom := hdir.room
  rw [Path.child_eq (notMem_fileName (by decide) hslash) (fileName_ne (by decide) theme)
    (fileName_ne (by decide) theme), Path.isTooLong]
  simp
  omega

section Lookup

variable (hslash : '/' ∉ theme.toList) (hnull : '\x00' ∉ theme.toList)

include hslash hnull

theorem find_themeFile (tree : FileTree) (dir : Path) :
    tree.find (dir.child (fileName theme)) = next (fileName theme) (tree.find dir) := by
  apply find_child
  · exact notMem_fileName (by decide) hslash
  · exact notMem_fileName (by decide) hnull
  all_goals exact fileName_ne (by decide) theme

theorem held_of_found (h : env.entry? (dir.child (fileName theme)) = .ok (some tree)) :
    env.held dir theme = some tree := by
  have hfind : env.files.find (dir.child (fileName theme)) = .entry tree := by
    unfold entry? at h
    split_ifs at h
    split at h
    all_goals simp_all
  rw [find_themeFile hslash hnull] at hfind
  obtain ⟨entries, hdir, hlookup⟩ := next_eq_entry hfind
  rw [held, hdir, ← hlookup]

theorem entry?_of_short (hdir : env.Reaches dir)
    (hshort : (fileName theme).utf8ByteSize ≤ maxNameWidth) :
    env.entry? (dir.child (fileName theme)) = .ok (env.held dir theme) := by
  have hreachable := hdir.reachable
  unfold entry?
  rw [isTooLong_of_short hslash hdir hshort, find_themeFile hslash hnull, held]
  cases hfind : env.files.find dir with
  | entry tree =>
    cases tree with
    | file bytes => simp [next]
    | directory entries =>
      simp only [next, Nat.not_lt.mpr hshort]
      cases entries.lookup (fileName theme) <;> simp
  | nameTooLong => exact absurd hfind hreachable
  | absent => simp [next]
  | belowFile => simp [next]

theorem entry?_of_long (dir : Path) (hlong : maxNameWidth < (fileName theme).utf8ByteSize) :
    env.entry? (dir.child (fileName theme)) = .error (.nameTooLong (dir.child (fileName theme))) ∨
      env.entry? (dir.child (fileName theme)) = .ok none ∧
        ∀ entries, env.files.find dir ≠ .entry (.directory entries) := by
  unfold entry?
  rw [find_themeFile hslash hnull]
  split_ifs
  · exact Or.inl rfl
  · rcases env.files.find dir with (bytes | entries) | _ | _ | _ <;> simp [next, hlong]

end Lookup

def Has (env : Environment) (app theme : String) : Prop :=
  ∃ path tree, env.Finds app theme path tree

/-- The three directories can be looked into, and the theme files of the bundled one are files that
have names. -/
structure Navigable (env : Environment) (app : String) : Prop where
  user : env.Reaches (env.userThemes app)
  project : env.Reaches (env.projectThemes app)
  bundled : env.Reaches env.bundled
  isDirectory : ∃ entries, env.files.find env.bundled = .entry (.directory entries)
  isFile : ∀ theme tree, env.held env.bundled theme = some tree →
    theme ≠ "" ∧ ∃ bytes, tree = .file bytes

theorem Reaches.of_absent (hfind : env.files.find dir = .absent)
    (hroom : dir.toString.utf8ByteSize + 1 + maxNameWidth ≤ Path.maxWidth) : env.Reaches dir := by
  refine ⟨?_, hroom, ?_⟩
  all_goals simp [hfind]

theorem Reaches.of_directory {entries : List (String × FileTree)}
    (hfind : env.files.find dir = .entry (.directory entries))
    (hroom : dir.toString.utf8ByteSize + 1 + maxNameWidth ≤ Path.maxWidth)
    (hwidth : ∀ e ∈ entries, e.1.utf8ByteSize ≤ maxNameWidth) : env.Reaches dir := by
  refine ⟨?_, hroom, ?_⟩
  · simp [hfind]
  · simpa [hfind] using hwidth

theorem Reaches.short_of_held (hdir : env.Reaches dir) (h : (env.held dir theme).isSome) :
    (fileName theme).utf8ByteSize ≤ maxNameWidth := by
  obtain ⟨entries, hfind, e, he, hname⟩ := held_isSome_iff.mp h
  rw [← hname]
  exact hdir.width_le entries hfind e he

variable (h : env.Navigable app) (hslash : '/' ∉ theme.toList) (hnull : '\x00' ∉ theme.toList)

include h hslash hnull

theorem has_iff : env.Has app theme ↔ (env.held (env.userThemes app) theme).isSome ∨
    (env.held (env.projectThemes app) theme).isSome ∨ (env.held env.bundled theme).isSome := by
  constructor
  · rintro ⟨path, tree, hfinds⟩
    cases hfinds with
    | user hu =>
      left
      rw [held_of_found hslash hnull hu, Option.isSome_some]
    | project hu hp =>
      right; left
      rw [held_of_found hslash hnull hp, Option.isSome_some]
    | bundled hu hp hb =>
      right; right
      rw [held_of_found hslash hnull hb, Option.isSome_some]
  · intro hheld
    have hshort : (fileName theme).utf8ByteSize ≤ maxNameWidth := by
      rcases hheld with hu | hp | hb
      · exact h.user.short_of_held hu
      · exact h.project.short_of_held hp
      · exact h.bundled.short_of_held hb
    have hu := entry?_of_short hslash hnull h.user hshort
    have hp := entry?_of_short hslash hnull h.project hshort
    have hb := entry?_of_short hslash hnull h.bundled hshort
    rcases huser : env.held (env.userThemes app) theme with _ | tree
    · rw [huser] at hu hheld
      rcases hproject : env.held (env.projectThemes app) theme with _ | tree
      · rw [hproject] at hp hheld
        simp only [Option.isSome_none, Bool.false_eq_true, false_or] at hheld
        obtain ⟨tree, hbundled⟩ := Option.isSome_iff_exists.mp hheld
        obtain ⟨-, bytes, rfl⟩ := h.isFile theme tree hbundled
        rw [hbundled] at hb
        exact ⟨_, _, .bundled hu hp hb⟩
      · rw [hproject] at hp
        exact ⟨_, tree, .project hu hp⟩
    · rw [huser] at hu
      exact ⟨_, tree, .user hu⟩

theorem locate_of_short (hshort : (fileName theme).utf8ByteSize ≤ maxNameWidth) :
    env.locate app theme = .ok none ↔ ¬ env.Has app theme := by
  constructor
  · rintro hlocate ⟨path, tree, hfinds⟩
    rw [hfinds.locate_eq] at hlocate
    cases hlocate
  · intro hnot
    simp only [has_iff h hslash hnull, not_or, Option.not_isSome_iff_eq_none] at hnot
    obtain ⟨hu, hp, hb⟩ := hnot
    unfold locate bundledTheme?
    simp only [themeIn?_eq, entry?_of_short hslash hnull h.user hshort,
      entry?_of_short hslash hnull h.project hshort, entry?_of_short hslash hnull h.bundled hshort,
      hu, hp, hb]
    rfl

theorem locate_of_long (hlong : maxNameWidth < (fileName theme).utf8ByteSize) :
    ∃ path, env.locate app theme = .error (.nameTooLong path) := by
  obtain ⟨entries, hentries⟩ := h.isDirectory
  unfold locate bundledTheme?
  simp only [themeIn?_eq]
  rcases entry?_of_long hslash hnull (env.userThemes app) hlong with hu | ⟨hu, -⟩
  · rw [hu]
    exact ⟨_, rfl⟩
  rcases entry?_of_long hslash hnull (env.projectThemes app) hlong with hp | ⟨hp, -⟩
  · rw [hu, hp]
    exact ⟨_, rfl⟩
  rcases entry?_of_long hslash hnull env.bundled hlong with hb | ⟨-, hb⟩
  · rw [hu, hp, hb]
    exact ⟨_, rfl⟩
  · exact absurd hentries (hb entries)

end Environment

theorem readFile_ne_notFound {path : Path} {tree : FileTree} {theme : String}
    {names : List String} : readFile path tree ≠ .error (.notFound theme names) := by
  cases tree with
  | directory entries => exact nofun
  | file bytes =>
    rw [readFile]
    cases (Utf8.decode bytes).map Text.unifyLineEnds <;> exact nofun

theorem ofText_ne_notFound (interpreter : Interpreter) (text : List Char) (theme : String)
    (names : List String) : (ofText interpreter text).2 ≠ .error (.notFound theme names) := by
  unfold ofText
  split
  · exact nofun
  · exact nofun
  · exact nofun
  · next document _ =>
    cases hresult : (ofDocument document).2 <;> simp [hresult, Except.mapError]

theorem load_ne_notFound {env : Environment} {app theme theme' : String} {names : List String}
    (h : env.Has app theme) : (load env app theme).2 ≠ .error (.notFound theme' names) := by
  obtain ⟨path, tree, hfinds⟩ := h
  unfold load
  rw [hfinds.locate_eq]
  dsimp only
  split
  · next failure hread =>
    rintro ⟨⟩
    exact readFile_ne_notFound hread
  · next text hread =>
    split
    · exact nofun
    · have hresult := ofText_ne_notFound env.interpreter text theme' names
      cases hlooks : (ofText env.interpreter text).2 <;> simp_all [Except.map]

/-- The list is strictly ascending. A name is listed exactly if there is a file for it, except that a
file named by the bare ending is found under the empty name, which is not listed, and listed under
its own. A name without a file is told as unknown, or as too long for a file. The tree has no symbolic
links: a link that leads nowhere would be listed as well, and not found. -/
theorem mem_available_iff_has {env : Environment} {app theme : String} (h : env.Navigable app)
    (hslash : '/' ∉ theme.toList) (hnull : '\x00' ∉ theme.toList) :
    (env.available app).Pairwise (· < ·) ∧
    (theme ∈ env.available app ↔
      theme ≠ "" ∧ env.Has app theme ∨ theme = ".yaml" ∧ env.Has app "") ∧
    ((fileName theme).utf8ByteSize ≤ maxNameWidth →
      (¬ env.Has app theme ↔
        load env app theme = ([], .error (.notFound theme (env.available app))))) ∧
    (maxNameWidth < (fileName theme).utf8ByteSize →
      ∃ path, load env app theme = ([], .error (.nameTooLong path))) := by
  have hbare : (env.held env.bundled "").isSome = false := by
    cases hheld : env.held env.bundled "" with
    | none => rfl
    | some tree => exact absurd rfl (h.isFile "" tree hheld).1
  have hnamed : (env.held env.bundled theme).isSome → theme ≠ "" := by
    rintro hheld rfl
    rw [hbare] at hheld
    cases hheld
  refine ⟨pairwise_available env app, ?_, ?_, ?_⟩
  · rw [mem_available_iff, has_iff h hslash hnull, has_iff h (by simp) (by simp), hbare]
    grind
  · intro hshort
    constructor
    · intro hnot
      unfold load
      rw [(locate_of_short h hslash hnull hshort).mpr hnot]
    · intro hload hhas
      exact load_ne_notFound hhas (congrArg Prod.snd hload)
  · intro hlong
    obtain ⟨path, hlocate⟩ := locate_of_long h hslash hnull hlong
    refine ⟨path, ?_⟩
    unfold load
    rw [hlocate]

def shelf : Environment where
  files := .directory [
    ("home", .nested [".config", "rules", "themes"]
      (.directory [("odd.yaml", .file []), (".yaml", .file [])])),
    ("bundled", .directory [("dark.yaml", .file []), ("default.yaml", .file [])])]
  home := .ofString "/home"
  current := .ofString "/work"
  bundled := .ofString "/bundled"
  interpreter := .usual

theorem navigable_shelf : shelf.Navigable "rules" := by
  have huser : shelf.files.find (shelf.userThemes "rules") =
      .entry (.directory [("odd.yaml", .file []), (".yaml", .file [])]) := rfl
  have hbundled : shelf.files.find shelf.bundled =
      .entry (.directory [("dark.yaml", .file []), ("default.yaml", .file [])]) := rfl
  refine ⟨?_, ?_, ?_, ⟨_, hbundled⟩, ?_⟩
  · exact .of_directory huser (by decide +kernel) (by decide +kernel)
  · exact .of_absent rfl (by decide +kernel)
  · exact .of_directory hbundled (by decide +kernel) (by decide +kernel)
  · intro theme tree hheld
    rw [held, hbundled] at hheld
    obtain ⟨front, back, hentries, -⟩ := List.lookup_eq_some_iff.mp hheld
    have hmem : (fileName theme, tree) ∈ front ++ (fileName theme, tree) :: back := by simp
    rw [← hentries] at hmem
    constructor
    · rintro rfl
      cases hheld
    · simp at hmem
      rcases hmem with ⟨-, rfl⟩ | ⟨-, rfl⟩ <;> exact ⟨_, rfl⟩

theorem mem_available_shelf : "odd" ∈ shelf.available "rules" := by
  have hslash : '/' ∉ "odd".toList := by decide
  obtain ⟨-, hlisted, -⟩ := mem_available_iff_has navigable_shelf hslash (by decide)
  apply hlisted.mpr
  exact Or.inl ⟨by decide, _, _, .user rfl⟩

theorem bare_ending_listed_not_found :
    (".yaml" ∈ shelf.available "rules" ∧ ¬ shelf.Has "rules" ".yaml" ∧
      load shelf "rules" ".yaml" = ([], .error (.notFound ".yaml" (shelf.available "rules")))) ∧
    "" ∉ shelf.available "rules" ∧ shelf.Has "rules" "" := by
  have hlocate : shelf.locate "rules" ".yaml" = .ok none := rfl
  refine ⟨⟨mem_available_iff.mpr (by decide +kernel), ?_, ?_⟩, ?_, ?_⟩
  · rintro ⟨path, tree, hfinds⟩
    rw [hfinds.locate_eq] at hlocate
    cases hlocate
  · unfold load
    rw [hlocate]
  · rw [mem_available_iff]
    decide +kernel
  · exact ⟨_, _, .user rfl⟩

end Theme

end RuleHighlight
