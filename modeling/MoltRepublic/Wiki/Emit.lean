import Mathlib
import MoltRepublic.Lib.LineDiff
import MoltRepublic.Wiki.Fold

/-! The unified-diff emitter (`wiki_patch`): one git-format patch for a net changeset. The line
diff itself is a parameter. -/

namespace Molt.Wiki
open Molt.Core Text LineDiff

/-- `TextDiff::from_lines`: pieces that carry their line end, a line feed, a carriage return or
both; `acc` is the piece being read, last character first. -/
def splitLinesFrom : List Char → List Char → List (List Char)
  | [], acc => if acc.isEmpty then [] else [acc.reverse]
  | '\r' :: '\n' :: cs, acc => ('\n' :: '\r' :: acc).reverse :: splitLinesFrom cs []
  | c :: cs, acc =>
    if c = '\r' || c = '\n' then (c :: acc).reverse :: splitLinesFrom cs []
    else splitLinesFrom cs (c :: acc)

def splitLines (s : String) : List String := (splitLinesFrom s.toList []).map String.ofList

def tagChar : Tag → String
  | .equal => " "
  | .delete => "-"
  | .insert => "+"

def endsWithNewline (s : String) : Bool :=
  match s.toList.getLast? with
  | some c => c = '\r' || c = '\n'
  | none => false

def renderLine (e : Tag × String) : String :=
  tagChar e.1 ++ e.2 ++ if endsWithNewline e.2 then "" else "\n\\ No newline at end of file\n"

def renderRange (start len : Nat) : String :=
  if len = 1 then toString (start + 1)
  else toString (if len = 0 then start else start + 1) ++ "," ++ toString len

def renderHunk (h : DiffHunk String) : String :=
  if h.lines.isEmpty then ""
  else "@@ -" ++ renderRange h.oldStart (oldSide h.lines).length ++ " +" ++
    renderRange h.newStart (newSide h.lines).length ++ " @@\n" ++ String.join (h.lines.map renderLine)

abbrev Differ := List String → List String → List (DiffHunk String)

def unified (diff : Differ) (old new a b : String) : String :=
  let hunks := diff (splitLines old) (splitLines new)
  if hunks.isEmpty then ""
  else "--- " ++ a ++ "\n+++ " ++ b ++ "\n" ++ String.join (hunks.map renderHunk)

inductive NetChange where
  | added (path content : String)
  | deleted (path content : String)
  | edited (oldPath newPath before content : String)
  deriving DecidableEq

def NetChange.key : NetChange → String
  | .added path _ | .deleted path _ => path
  | .edited _ newPath _ _ => newPath

def consumed (base after renames : Tree) : List String :=
  (renames.entries.filter fun r => (after.get? r.1).isSome && (base.get? r.2).isSome).map Prod.snd

def changeAt (base after renames : Tree) (path content : String) : Option NetChange :=
  match (renames.get? path).bind fun old => (base.get? old).map fun before => (old, before) with
  | some (oldPath, before) =>
    if oldPath ≠ path || before ≠ content then some (.edited oldPath path before content) else none
  | none =>
    match base.get? path with
    | some before =>
      -- a base path a rename freed: the new side creates it
      if (consumed base after renames).contains path then some (.added path content)
      else if before ≠ content then some (.edited path path before content)
      else none
    | none => some (.added path content)

def changes (base after renames : Tree) : List NetChange :=
  let kept := after.entries.filterMap fun e => changeAt base after renames e.1 e.2
  let left := (base.entries.filter fun e =>
    !((after.get? e.1).isSome || (consumed base after renames).contains e.1)).map fun e =>
      NetChange.deleted e.1 e.2
  (kept ++ left).mergeSort fun a b => a.key ≤ b.key

def renderChange (diff : Differ) : NetChange → String
  | .added path content =>
    "diff --git a/" ++ path ++ " b/" ++ path ++ "\nnew file mode 100644\n" ++
      unified diff "" content "/dev/null" ("b/" ++ path)
  | .deleted path content =>
    "diff --git a/" ++ path ++ " b/" ++ path ++ "\ndeleted file mode 100644\n" ++
      unified diff content "" ("a/" ++ path) "/dev/null"
  | .edited oldPath newPath before content =>
    "diff --git a/" ++ oldPath ++ " b/" ++ newPath ++ "\n" ++
    (if oldPath ≠ newPath then
      (if before = content then "similarity index 100%\n" else "") ++
        "rename from " ++ oldPath ++ "\nrename to " ++ newPath ++ "\n"
    else "") ++
    if before ≠ content then unified diff before content ("a/" ++ oldPath) ("b/" ++ newPath) else ""

/-- The net changeset as one patch; `none` where nothing changed. -/
def buildPatch (diff : Differ) (base after renames : Tree) : Option String :=
  let cs := changes base after renames
  if cs.isEmpty then none else some (String.join (cs.map (renderChange diff)))

end Molt.Wiki
