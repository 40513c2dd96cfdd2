import Mathlib
import MoltRepublic.Wiki.Changeset
import MoltRepublic.Wiki.Index
import MoltRepublic.Wiki.Retarget

/-! The structured write path (`cmd_wiki_edit`): edits folded onto a working copy of the pages
they name, the links of renamed pages repaired, and the net changeset emitted as one patch. -/

namespace Molt.Wiki
open Molt.Core Text Json LineDiff Check

inductive WikiEdit where
  | create (path content : String)
  | content (path content : String)
  | replace (path old new : String)
  | setProps (path : String) (props : List (String × Value))
  | addRelation (path predicate target : String) (display : Option String)
  | rename (from_ to_ : String)
  | delete (path : String)

def editPaths : WikiEdit → List String
  | .create path _ | .content path _ | .replace path _ _ | .setProps path _ | .addRelation path _ _ _
  | .delete path => [path]
  | .rename from_ to_ => [from_, to_]

inductive EditError where
  | badPayload (reason : String)
  | indexBuilding (done total : Nat)
  | engine (reason : String)
  | featureOff
  | unknownProposal
  | alreadyTerminal
  | notTheProposer
  deriving DecidableEq

/-- `AllowWarnings`. -/
inductive AllowWarnings where
  | all (every : Bool)
  | codes (named : List String)

def AllowWarnings.admits : AllowWarnings → String → Bool
  | .all every, _ => every
  | .codes named, code => named.contains code

structure EditDesk where
  /-- `require_feature`. -/
  feature : Except EditError Unit
  /-- The check of the proposal the call replaces: known, open and its own. -/
  supersedes : Except EditError Unit
  wikiBase : Except EditError Tree
  /-- The link graph, brought up to date. -/
  graph : Option WikiGraph
  /-- `NameIndex::candidates`, named in a refusal. -/
  candidates : WikiGraph → String → List String
  /-- `front_matter::with_props`. -/
  withProps : String → List (String × Value) → Except String String
  /-- The error `front_matter::properties` finds in a document's header. -/
  headerError : String → Option String
  scan : Scanner
  diff : Differ
  touchedLines : String → String → Nat
  /-- The warnings about paths of open proposals, with their codes. -/
  openWarnings : List String → List (String × String)
  /-- The warnings of the sources behind the kept links. -/
  laterWarnings : List WikiEdit → Tree → Tree → Tree → List (String × String)
  /-- Withdrawing the replaced proposal and proposing the payload. -/
  propose : Value → Except EditError Unit

structure WorkingCopy where
  after : Tree
  renames : Tree := SortedMap.empty

namespace EditDesk

variable (d : EditDesk)

def missing (path : String) : EditError := .badPayload s!"no such document: {path}"

def docAt (after : Tree) (path : String) : Except EditError String :=
  match after.get? path with
  | some doc => .ok doc
  | none => .error (missing path)

/-- Where a text occurs, hits not overlapping (`str::matches`). -/
def matchSpots (pat : List Char) : List Char → Nat → Nat → List Nat
  | [], _, _ => []
  | _ :: cs, i, skip + 1 => matchSpots pat cs (i + 1) skip
  | c :: cs, i, 0 =>
    if (stripPrefixChars pat (c :: cs)).isSome then i :: matchSpots pat cs (i + 1) (pat.length - 1)
    else matchSpots pat cs (i + 1) 0

/-- `match_lines`: the line numbers of the hits, ten at most. -/
def matchLines (doc : List Char) (spots : List Nat) : String :=
  let shown := ", ".intercalate ((spots.take 10).map fun i => toString ((doc.take i).count '\n' + 1))
  if spots.length > 10 then s!"lines {shown} +{spots.length - 10} more" else s!"lines {shown}"

def replaceOnce (path doc old new : String) : Except EditError String :=
  if old.isEmpty then .error (.badPayload "replace needs an old text")
  else
    match matchSpots old.toList doc.toList 0 0 with
    | [] => .error (.badPayload s!"old not found in {path}")
    | [i] => .ok (String.ofList (doc.toList.take i ++ new.toList ++ doc.toList.drop (i + old.toList.length)))
    | spots =>
      if !old.toList.contains '\n' then
        .error (.badPayload
          s!"old occurs {spots.length} times in {path} ({matchLines doc.toList spots}) - widen it")
      else .error (.badPayload s!"old occurs {spots.length} times in {path} - widen it")

/-- `bind_wiki_name`: a page of the working copy, else what the graph binds. -/
def bindWikiName (name : String) (after : Tree) : Except EditError String :=
  if (after.get? name).isSome then .ok name
  else
    match d.graph with
    | none => .error (.engine "the wiki index is unavailable")
    | some g =>
      match bindName g.docs name with
      | some path => .ok path
      | none =>
        if (d.candidates g name).isEmpty then .error (.badPayload s!"no document named {name}")
        else
          let named := ", ".intercalate (d.candidates g name)
          .error (.badPayload s!"{name} is ambiguous: {named}")

def relationLine (doc predicate bound : String) (shown : Option String) : String :=
  let inner := match shown with
    | some text => predicate ++ "::" ++ bound ++ "|" ++ text
    | none => predicate ++ "::" ++ bound
  let head := if doc.isEmpty then "" else if doc.toList.getLast? = some '\n' then doc ++ "\n" else doc ++ "\n\n"
  head ++ "[[" ++ inner ++ "]]\n"

def addRelation (after : Tree) (doc predicate target : String) (display : Option String) :
    Except EditError String := do
  ensure (keyOk predicate = true) (.badPayload s!"not a relation key: {predicate}")
  let bound ← d.bindWikiName target after
  let shown := (display.map trim).filter fun text => !text.isEmpty
  ensure (shown.all (fun text => !text.toList.any fun c => c = '[' || c = ']' || c = '|' || c = '\n') = true)
    (.badPayload "a link text carries no brackets or bar")
  return relationLine doc predicate bound shown

/-- `fold_wiki_edit`. -/
def foldWikiEdit (base : Tree) (s : WorkingCopy) : WikiEdit → Except EditError WorkingCopy
  | .create path content => do
    ensure (validPath path = true) (.badPayload s!"invalid path: {path}")
    ensure (base.get? path = none ∧ s.after.get? path = none) (.badPayload s!"already exists: {path}")
    return { s with after := s.after.insert path content }
  | .content path content => do
    ensure (validPath path = true) (.badPayload s!"invalid path: {path}")
    return { s with after := s.after.insert path content }
  | .replace path old new => do
    let doc ← docAt s.after path
    let next ← replaceOnce path doc old new
    return { s with after := s.after.insert path next }
  | .setProps path props => do
    let doc ← docAt s.after path
    let next ← (d.withProps doc props).mapError EditError.badPayload
    return { s with after := s.after.insert path next }
  | .addRelation path predicate target display => do
    let doc ← docAt s.after path
    let next ← d.addRelation s.after doc predicate target display
    return { s with after := s.after.insert path next }
  | .rename from_ to_ => do
    ensure (validPath to_ = true) (.badPayload s!"invalid path: {to_}")
    ensure (s.after.get? to_ = none) (.badPayload s!"already exists: {to_}")
    let content ← docAt s.after from_
    -- chained moves collapse onto the base path
    let origin := (s.renames.get? from_).getD from_
    let renames := s.renames.erase from_
    return {
      after := (s.after.erase from_).insert to_ content
      renames :=
        if (base.get? origin).isSome && decide (origin ≠ to_) then renames.insert to_ origin else renames }
  | .delete path => do
    let _ ← docAt s.after path
    return { after := s.after.erase path, renames := s.renames.erase path }

structure RepairedLinks where
  from_ : String
  to_ : String
  pages : List String

/-- A page of the tree that stays: its text before and after the repair, and the old paths it
linked to. -/
structure RepairPage where
  path : String
  held : String
  start : String
  next : String
  froms : List String

def retargetPage (renames : Tree) (path start : String) : String × List String :=
  renames.entries.foldl (fun page r =>
    if r.2 = path then page
    else
      match rewriteLinkTarget d.scan page.1 r.2 r.1 with
      | some done => (done, page.2 ++ [r.2])
      | none => page) (start, [])

def repairPages (tree base after renames : Tree) : List RepairPage :=
  tree.entries.filterMap fun e =>
    if (base.get? e.1).isSome && (after.get? e.1).isNone then none
    else
      let start := (after.get? e.1).getD e.2
      let page := d.retargetPage renames e.1 start
      some ⟨e.1, e.2, start, page.1, page.2⟩

/-- `name_a_few`. -/
def nameAFew (paths : List String) : String :=
  let shown := ", ".intercalate (paths.take 5)
  let rest := paths.length - 5
  let tail := if rest = 0 then "" else s!", +{rest}"
  let plural := if paths.length = 1 then "" else "s"
  s!"{paths.length} page{plural} ({shown}{tail})"

structure Repair where
  base : Tree
  after : Tree
  touched : List String := []
  repaired : List RepairedLinks := []
  warnings : List String := []

/-- `repair_rename_links`. -/
def repairRenameLinks (tree base after renames : Tree) (repair : Bool) : Repair :=
  if renames.entries.isEmpty then ⟨base, after, [], [], []⟩
  else
    let pages := d.repairPages tree base after renames
    let hits := pages.foldl (fun hits p => p.froms.foldl (fun hits old => pushAt hits old p.path) hits)
      (SortedMap.empty : SortedMap String (List String))
    if hits.entries.isEmpty then ⟨base, after, [], [], []⟩
    else if !repair then
      ⟨base, after, [], [], hits.entries.map fun h => s!"{h.1}: old path kept by {nameAFew h.2}"⟩
    else
      let fixed := pages.filter fun p => p.next ≠ p.start
      { base := fixed.foldl (fun base p =>
          if (base.get? p.path).isSome then base else base.insert p.path p.held) base
        after := fixed.foldl (fun after p => after.insert p.path p.next) after
        touched := fixed.map RepairPage.path
        repaired := hits.entries.map fun h =>
          ⟨h.1, ((renames.entries.find? fun r => r.2 = h.1).map Prod.fst).getD "", h.2⟩ }

end EditDesk

/-- `PatchCounts`. -/
structure PatchCounts where
  added : Nat := 0
  deleted : Nat := 0
  moved : Nat := 0
  lines : Nat := 0

/-- `count_changes`; how many lines two texts differ in is a parameter. -/
def countChanges (touchedLines : String → String → Nat) (base after renames : Tree) : PatchCounts :=
  (changes base after renames).foldl (fun c change =>
    match change with
    | .added _ _ => { c with added := c.added + 1 }
    | .deleted _ _ => { c with deleted := c.deleted + 1 }
    | .edited oldPath newPath before content =>
      { c with
        moved := if oldPath ≠ newPath then c.moved + 1 else c.moved
        lines := if before ≠ content then c.lines + touchedLines before content else c.lines }) {}

def PatchCounts.summary (c : PatchCounts) : String :=
  " ".intercalate (([(c.added, "+"), (c.deleted, "-"), (c.moved, "→"), (c.lines, "~")].filter fun n => 0 < n.1).map
    fun n => n.2 ++ toString n.1)

def restrict (tree : Tree) (paths : List String) : Tree :=
  paths.foldl (fun part p =>
    match tree.get? p with
    | some content => part.insert p content
    | none => part) SortedMap.empty

inductive WikiReply where
  | preview (patch summary : String) (warnings : List String) (repaired : List EditDesk.RepairedLinks)
  | proposed (payload : Value) (warnings : List String) (repaired : List EditDesk.RepairedLinks)

def WikiReply.patch : WikiReply → Option String
  | .preview patch _ _ _ => some patch
  | .proposed payload _ _ => payload.getStr "value"

namespace EditDesk

variable (d : EditDesk)

def wikiPayload (summary patch : String) : Value :=
  .obj [("op", .str "wiki_patch"), ("summary", .str summary), ("value", .str patch)]

/-- `wiki_patch_check`: a patch that does not apply is refused before it is put to the vote. -/
def wikiPatchCheck (payload : Value) : Except EditError (List String) :=
  match wikiPatchFiles payload with
  | none => .ok []
  | some files =>
    match d.wikiBase with
    | .error _ => .ok []
    | .ok tree =>
      match applyPatch (restrict tree (touchedPaths files)) files with
      | .error reason => .error (.badPayload s!"patch does not apply: {reason}")
      | .ok after => .ok (after.entries.filterMap fun e => (d.headerError e.2).map fun err => s!"{e.1}: {err}")

def addsRelation : WikiEdit → Bool
  | .addRelation _ _ _ _ => true
  | _ => false

def heldText (held : List (String × String)) : String :=
  let faults := "; ".intercalate (held.map fun w => w.1 ++ ": " ++ w.2)
  let codes := ", ".intercalate (((held.map Prod.fst).mergeSort (· ≤ ·)).dedup.map fun code => "\"" ++ code ++ "\"")
  faults ++ "; allow_warnings: [" ++ codes ++ "] proposes anyway"

def cast (edits : List WikiEdit) (dryRun : Bool) (allow : AllowWarnings) (r : Repair) (renames : Tree)
    (patch : String) : Except EditError WikiReply := do
  let summary := (countChanges d.touchedLines r.base r.after renames).summary
  let payload := wikiPayload summary patch
  let header ← d.wikiPatchCheck payload
  let found := header.map (fun m => ("header", m)) ++ d.openWarnings (edits.flatMap editPaths ++ r.touched) ++
    r.warnings.map (fun m => ("rename_link", m)) ++ d.laterWarnings edits r.base r.after renames
  let warnings := found.map fun w => w.1 ++ ": " ++ w.2
  if dryRun then
    return .preview patch summary warnings r.repaired
  let held := found.filter fun w => !allow.admits w.1
  ensure (held = []) (.badPayload (heldText held))
  d.propose payload
  return .proposed payload warnings r.repaired

/-- `cmd_wiki_edit`. -/
def cmdWikiEdit (edits : List WikiEdit) (dryRun : Bool) (allow : AllowWarnings) (repairLinks : Bool) :
    Except EditError WikiReply := do
  d.feature
  ensure (edits.isEmpty = false) (.badPayload "no edits")
  d.supersedes
  let tree ← d.wikiBase
  -- the working copy holds the pages the edits name, no others
  let base := restrict tree (edits.flatMap editPaths)
  ensure (edits.any addsRelation = true → d.graph.isSome = true) (.indexBuilding 0 tree.entries.length)
  let s ← edits.foldlM (d.foldWikiEdit base) { after := base }
  match s.renames.values.find? fun old => (s.after.get? old).isSome with
  | some old => throw (.badPayload s!"{old}: moved and re-created - two votes")
  | none =>
    let r := d.repairRenameLinks tree base s.after s.renames repairLinks
    match buildPatch d.diff r.base r.after s.renames with
    | none => throw (.badPayload "nothing to change")
    | some patch => d.cast edits dryRun allow r s.renames patch

end EditDesk

end Molt.Wiki
