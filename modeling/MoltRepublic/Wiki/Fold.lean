import Mathlib
import MoltRepublic.Core.Bytes
import MoltRepublic.Lib.SortedMap

/-! The shared memory as a fold of its ratified patches (`wiki_fold`): a git-format
patch is read tolerantly and applied strictly, whole or not at all. -/

namespace Molt.Wiki
open Molt.Core Text Json

abbrev Tree := SortedMap String String

structure HunkLine where
  op : Char
  text : String
  newline : Bool
  deriving DecidableEq

structure Hunk where
  oldStart : Nat
  oldCount : Nat
  lines : List HunkLine
  deriving DecidableEq

structure PatchFile where
  oldPath : String := ""
  newPath : String := ""
  added : Bool := false
  deleted : Bool := false
  renamed : Bool := false
  hunks : List Hunk := []
  deriving DecidableEq

/-- The text cut behind each line feed; `acc` is the piece being read, last character
first. -/
def elementsFrom : List Char → List Char → List (List Char)
  | [], acc => if acc.isEmpty then [] else [acc.reverse]
  | c :: cs, acc =>
    if c = '\n' then ('\n' :: acc).reverse :: elementsFrom cs []
    else elementsFrom cs (c :: acc)

def toElements (s : String) : List String := (elementsFrom s.toList []).map String.ofList

/-- `str::lines` strips a line feed, and a carriage return before it. -/
def stripLineEnd (cs : List Char) : List Char :=
  match cs.reverse with
  | '\n' :: '\r' :: rest => rest.reverse
  | '\n' :: rest => rest.reverse
  | _ => cs

def lines (s : String) : List (List Char) := (elementsFrom s.toList []).map stripLineEnd

def rsplitAt (pat : List Char) : List Char → Option (List Char × List Char)
  | [] => none
  | c :: cs =>
    match rsplitAt pat cs with
    | some (before, after) => some (c :: before, after)
    | none => (stripPrefixChars pat (c :: cs)).map fun after => ([], after)

def parseUsize (cs : List Char) : Nat := ((parseU64 (String.ofList cs)).map UInt64.toNat).getD 0

def parseHunkOld (head : List Char) : Nat × Nat :=
  match stripPrefixChars ['-'] (head.takeWhile (· != ' ')) with
  | none => (0, 0)
  | some old =>
    match splitOnceChars ',' old with
    | some (s, c) => (parseUsize s, parseUsize c)
    | none => (parseUsize old, 1)

def startsWith (cs : List Char) (s : String) : Bool := (stripPrefixChars s.toList cs).isSome

def modifyLast {α : Type*} (f : α → α) : List α → List α
  | [] => []
  | [x] => [f x]
  | x :: y :: l => x :: modifyLast f (y :: l)

def Hunk.markUnterminated (h : Hunk) : Hunk :=
  { h with lines := modifyLast (fun l => { l with newline := false }) h.lines }

def Hunk.push (op : Char) (text : List Char) (h : Hunk) : Hunk :=
  { h with lines := h.lines ++ [⟨op, String.ofList text, true⟩] }

def parseFileLine (f : PatchFile) (line : List Char) : PatchFile :=
  if startsWith line "new file mode" then { f with added := true }
  else if startsWith line "deleted file mode" then { f with deleted := true }
  else match stripPrefixChars "rename from ".toList line with
  | some p => { f with renamed := true, oldPath := String.ofList p }
  | none => match stripPrefixChars "rename to ".toList line with
  | some p => { f with renamed := true, newPath := String.ofList p }
  | none => match stripPrefixChars "@@ ".toList line with
  | some head =>
    let (oldStart, oldCount) := parseHunkOld head
    { f with hunks := f.hunks ++ [⟨oldStart, oldCount, []⟩] }
  | none =>
    if startsWith line "\\" then
      { f with hunks := modifyLast Hunk.markUnterminated f.hunks }
    else if f.hunks.isEmpty && (startsWith line "similarity index" || startsWith line "--- " ||
        startsWith line "+++ ") then f
    else match line with
      | op :: text =>
        if op = '+' || op = '-' || op = ' ' then
          { f with hunks := modifyLast (Hunk.push op text) f.hunks }
        else f
      | [] => f

def parseLine (files : List PatchFile) (line : List Char) : List PatchFile :=
  match stripPrefixChars "diff --git a/".toList line with
  | some rest =>
    match rsplitAt " b/".toList rest with
    | some (old, new) =>
      files ++ [{ oldPath := String.ofList old, newPath := String.ofList new }]
    | none => files ++ [{}]
  | none => modifyLast (fun f => parseFileLine f line) files

def parsePatch (patch : String) : List PatchFile := (lines patch).foldl parseLine []

def segmentsFrom : List Char → List Char → List (List Char)
  | [], acc => [acc.reverse]
  | c :: cs, acc =>
    if c = '/' then acc.reverse :: segmentsFrom cs [] else segmentsFrom cs (c :: acc)

def validPath (p : String) : Bool :=
  let cs := p.toList
  if cs.isEmpty || cs.head? = some '/' || cs.getLast? = some '/' then false
  else
    let segments := segmentsFrom cs []
    segments.length ≤ 8 && segments.all fun s =>
      !s.isEmpty && s != ['.'] && s != ['.', '.'] && !s.contains '\\'

def lineElement (l : HunkLine) : String := if l.newline then l.text ++ "\n" else l.text

structure HunkCursor where
  cursor : Nat
  consumed : Nat
  out : List String

def applyLine (old : List String) (c : HunkCursor) (l : HunkLine) : Except String HunkCursor :=
  let elem := lineElement l
  if l.op = ' ' || l.op = '-' then
    if old[c.cursor]? ≠ some elem then .error "context does not match the base"
    else .ok ⟨c.cursor + 1, c.consumed + 1, if l.op = ' ' then c.out ++ [elem] else c.out⟩
  else if l.op = '+' then .ok { c with out := c.out ++ [elem] }
  else .error "unknown hunk op"

def applyHunk (old : List String) (at_ : Nat × List String) (h : Hunk) :
    Except String (Nat × List String) := do
  let (cursor, out) := at_
  if h.oldCount ≠ 0 ∧ h.oldStart = 0 then
    throw "hunk position 0 with a non-zero count"
  let start := if h.oldCount = 0 then h.oldStart else h.oldStart - 1
  if start < cursor then throw "hunks overlap or run backwards"
  if start > old.length then throw "hunk position beyond the file"
  let c ← h.lines.foldlM (applyLine old) ⟨start, 0, out ++ (old.drop cursor).take (start - cursor)⟩
  if c.consumed ≠ h.oldCount then throw "hunk header count disagrees with its lines"
  return (c.cursor, c.out)

def applyHunks (content : String) (hunks : List Hunk) : Except String String := do
  let old := toElements content
  let (cursor, out) ← hunks.foldlM (applyHunk old) (0, [])
  return String.join (out ++ old.drop cursor)

def touch (touched : List String) (p : String) : Except String (List String) :=
  if p = "" then .ok touched
  else if touched.contains p then .error s!"path touched twice: {p}"
  else .ok (p :: touched)

def touchFile (touched : List String) (f : PatchFile) : Except String (List String) := do
  let touched ← touch touched f.oldPath
  if f.newPath = f.oldPath then return touched
  touch touched f.newPath

def applyFile (work : Tree) (f : PatchFile) : Except String Tree := do
  let oldPath := f.oldPath
  let newPath := f.newPath
  if !validPath newPath && !f.deleted then throw s!"invalid path: {newPath}"
  if !validPath oldPath then throw s!"invalid path: {oldPath}"
  if f.added then
    if (work.get? newPath).isSome then throw s!"already exists: {newPath}"
    let content ← applyHunks "" f.hunks
    return work.insert newPath content
  match work.get? oldPath with
  | none => throw s!"missing: {oldPath}"
  | some old =>
    let work := work.erase oldPath
    if f.deleted then
      let left ← applyHunks old f.hunks
      if left ≠ "" then throw s!"deletion leaves content: {oldPath}"
      return work
    if f.renamed && (work.get? newPath).isSome then throw s!"rename target exists: {newPath}"
    let content ← applyHunks old f.hunks
    return work.insert newPath content

def applyPatch (tree : Tree) (files : List PatchFile) : Except String Tree := do
  if files.isEmpty then throw "empty patch"
  let _ ← files.foldlM touchFile []
  files.foldlM applyFile tree

/-- `wiki_fold::fold_one`: the tree behind one applied payload, and whether it moved. -/
def foldOne (tree : Tree) (payload : Value) : Tree × Bool :=
  if payload.getStr "op" ≠ some "wiki_patch" then (tree, false)
  else match payload.getStr "value" with
    | none => (tree, false)
    | some patch =>
      match applyPatch tree (parsePatch patch) with
      | .ok next => (next, true)
      | .error _ => (tree, false)

def wikiBaseCanonicalBytes (tree : Tree) : List UInt8 :=
  tag "molt-wiki-base-v1" ++ putLen tree.entries.length ++
    tree.entries.flatMap fun e => putStr e.1 ++ putStr e.2

end Molt.Wiki
