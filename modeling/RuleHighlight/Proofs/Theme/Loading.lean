import Mathlib.Data.List.Forall2
import RuleHighlight.Proofs.Theme.Merge
import RuleHighlight.Theme.Bundled

/-!
Loading a theme from end to end. The first place that holds the theme decides, whatever the file
there is worth, and what the other places hold does not matter. The table is the standard one with
the fields that the file's document gives, and each part of the document that is skipped has one entry in
the log. Of the documents that are read it is only taken that their mappings hold each key once.
-/

namespace RuleHighlight.Theme

open Yaml
open Text (CodeText)

namespace Environment

variable {env : Environment} {app theme : String} {path : Path} {tree : FileTree}

def userFile (env : Environment) (app theme : String) : Path :=
  (env.userThemes app).child (fileName theme)

def projectFile (env : Environment) (app theme : String) : Path :=
  (env.projectThemes app).child (fileName theme)

def bundledFile (env : Environment) (theme : String) : Path := env.bundled.child (fileName theme)

/-- What is found for a theme is the user's, or the project's if the user has none, or else a
bundled file. Nothing is asked of what is found but that it is there. -/
inductive Finds (env : Environment) (app theme : String) : Path → FileTree → Prop
  | user {tree : FileTree} (h : env.entry? (env.userFile app theme) = .ok (some tree)) :
      Finds env app theme (env.userFile app theme) tree
  | project {tree : FileTree} (hu : env.entry? (env.userFile app theme) = .ok none)
      (h : env.entry? (env.projectFile app theme) = .ok (some tree)) :
      Finds env app theme (env.projectFile app theme) tree
  | bundled {bytes : Utf8.Bytes} (hu : env.entry? (env.userFile app theme) = .ok none)
      (hp : env.entry? (env.projectFile app theme) = .ok none)
      (h : env.entry? (env.bundledFile theme) = .ok (some (.file bytes))) :
      Finds env app theme (env.bundledFile theme) (.file bytes)

theorem themeIn?_eq (dir : Path) (theme : String) :
    env.themeIn? dir theme =
      (env.entry? (dir.child (fileName theme))).map (Option.map (dir.child (fileName theme), ·)) := by
  unfold themeIn?
  dsimp only
  cases env.entry? (dir.child (fileName theme)) <;> rfl

theorem bundledTheme?_eq_some_iff :
    env.bundledTheme? theme = .ok (some (path, tree)) ↔ path = env.bundledFile theme ∧
      ∃ bytes, tree = .file bytes ∧ env.entry? (env.bundledFile theme) = .ok (some (.file bytes)) := by
  unfold bundledTheme?
  rw [themeIn?_eq, ← bundledFile]
  rcases env.entry? (env.bundledFile theme) with failure | _ | bytes | entries
  case ok.some.file =>
    constructor
    · intro h
      cases h
      exact ⟨rfl, bytes, rfl, rfl⟩
    · rintro ⟨rfl, _, rfl, h⟩
      cases h
      rfl
  all_goals
    refine ⟨fun h => (by cases h), ?_⟩
    rintro ⟨-, _, -, h⟩
    cases h

theorem Finds.locate_eq (h : env.Finds app theme path tree) :
    env.locate app theme = .ok (some (path, tree)) := by
  unfold locate
  rw [themeIn?_eq, themeIn?_eq, ← userFile, ← projectFile]
  cases h with
  | user h =>
    rw [h]
    rfl
  | project hu h =>
    rw [hu, h]
    rfl
  | bundled hu hp h =>
    rw [hu, hp]
    exact bundledTheme?_eq_some_iff.mpr ⟨rfl, _, rfl, h⟩

end Environment

abbrev Logged (depth : Nat) (path : Path) (ws : List Warning) (log : List (Option CodeText)) :
    Prop :=
  List.Forall₂ (fun w entry => w.logged depth path.toString = .ok entry) ws log

end RuleHighlight.Theme
