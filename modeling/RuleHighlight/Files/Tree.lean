import RuleHighlight.Files.Path
import RuleHighlight.Text.Utf8

/-!
A tree of files and directories, and the walk along a path. On the way every name but the last must
be a directory's; a double dot leads back to the directory before, and from the root to the root.
-/

namespace RuleHighlight

inductive FileTree
  | file (bytes : Utf8.Bytes)
  | directory (entries : List (String × FileTree))
  deriving Repr

inductive Found
  | entry (t : FileTree)
  | absent
  | belowFile
  | nameTooLong
  deriving Repr

namespace FileTree

def empty : FileTree := directory []

def maxNameWidth : Nat := 255

def walk (above : List FileTree) (here : FileTree) : List String → Found
  | [] => .entry here
  | name :: rest =>
    match here with
    | file _ => .belowFile
    | directory entries =>
      if name = ".." then
        match above with
        | [] => walk [] here rest
        | outer :: above => walk above outer rest
      else if maxNameWidth < name.utf8ByteSize then .nameTooLong
      else
        match entries.lookup name with
        | none => .absent
        | some t => walk (here :: above) t rest

def find (tree : FileTree) (p : Path) : Found :=
  if p.isUsable then walk [] tree p.names else .absent

def nested (names : List String) (leaf : FileTree) : FileTree :=
  names.foldr (fun n t => directory [(n, t)]) leaf

def settle (entry here : FileTree) : FileTree :=
  match entry, here with
  | directory [], directory entries => directory entries
  | entry, _ => entry

mutual

def insert (entry : FileTree) : List String → FileTree → FileTree
  | [], here => settle entry here
  | name :: rest, directory entries => directory (insertIn entry name rest entries)
  | _ :: _, file bytes => file bytes

def insertIn (entry : FileTree) (name : String) (rest : List String) :
    List (String × FileTree) → List (String × FileTree)
  | [] => [(name, nested rest entry)]
  | (n, t) :: more =>
    if n = name then (n, insert entry rest t) :: more else (n, t) :: insertIn entry name rest more

end

def insertFrom (entry : FileTree) : List String → List String → FileTree → FileTree
  | above, [], tree => insert entry above.reverse tree
  | above, name :: rest, tree =>
    if name = ".." then insertFrom entry above.tail rest (insert empty above.reverse tree)
    else insertFrom entry (name :: above) rest tree

def place (tree : FileTree) (p : Path) (entry : FileTree) : FileTree :=
  insertFrom entry [] p.names tree

end FileTree

end RuleHighlight
