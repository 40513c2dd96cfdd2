import Mathlib
import MoltRepublic.Kanban.Calendar
import MoltRepublic.Lib.Search

/-! The kanban board as a fold (`kanban_fold`): the shape of a changeset at both doors, the
acts it is made of, and the board that the applied changesets leave. -/

namespace Molt.Kanban
open Text Json Check

abbrev TaskId := String

inductive TaskState
  | todo
  | wip
  | success
  | fail
  | cancelled
  deriving DecidableEq

def TaskState.asStr : TaskState → String
  | .todo => "todo"
  | .wip => "wip"
  | .success => "success"
  | .fail => "fail"
  | .cancelled => "cancelled"

def TaskState.all : List TaskState := [.todo, .wip, .success, .fail, .cancelled]

def TaskState.parse (s : String) : Option TaskState := all.find? fun t => t.asStr == s

def TaskState.isMet : TaskState → Bool
  | .success | .cancelled => true
  | _ => false

inductive Size
  | xs | s | m | l | xl | xxl
  deriving DecidableEq

def Size.asStr : Size → String
  | .xs => "XS"
  | .s => "S"
  | .m => "M"
  | .l => "L"
  | .xl => "XL"
  | .xxl => "XXL"

def Size.parse (s : String) : Option Size := [.xs, .s, .m, .l, .xl, .xxl].find? fun z => z.asStr == s

structure Task where
  title : String := ""
  kind : Option String := none
  creator : String
  assignees : List String := []
  size : Option Size := none
  blockedBy : List TaskId := []
  due : Option NaiveDate := none
  after : Option NaiveDate := none
  when : Option When := none
  recurs : Option Repeat := none
  skip : List NaiveDate := []
  moved : SortedMap NaiveDate When := SortedMap.empty
  state : TaskState := .todo
  note : Option String := none
  evidence : List String := []
  description : Option String := none
  acceptance : List String := []
  outOfScope : List String := []
  touchedRev : UInt64

def Task.isSeries (t : Task) : Bool := t.recurs.isSome

def Task.isTimedOnce (t : Task) : Bool := t.when.isSome && t.recurs.isNone

abbrev Tasks := SortedMap TaskId Task

structure BoardState where
  rev : UInt64 := 0
  tasks : Tasks := SortedMap.empty

/-- The characters of the first `n` bytes, where these end at one. -/
def bytesOf : List Char → Nat → Option (List Char)
  | _, 0 => some []
  | [], _ => none
  | c :: cs, n => if c.utf8Size ≤ n then (bytesOf cs (n - c.utf8Size)).map (c :: ·) else none

def shortId (id : String) : String := "#" ++ ((bytesOf id.toList 8).map String.ofList).getD id

def isHex32 (s : String) : Bool := (utf8 s).length == 32 && (utf8 s).all isLowerHexdigit

def isRefName (s : String) : Bool :=
  s ≠ "" && (utf8 s).all fun b => (97 ≤ b && b ≤ 122) || (48 ≤ b && b ≤ 57) || b == 95 || b == 45

/-- One field that a `set` or an `add` assigns. -/
inductive Field
  | title (v : String)
  | kind (v : Option String)
  | assignees (v : List String)
  | size (v : Option Size)
  | blockedBy (v : List TaskId)
  | due (v : Option NaiveDate)
  | after (v : Option NaiveDate)
  | when (v : Option When)
  | recurs (v : Option Repeat)
  | skip (v : List NaiveDate)
  | moved (v : SortedMap NaiveDate When)
  | description (v : Option String)
  | acceptance (v : List String)
  | outOfScope (v : List String)

inductive Act
  | add (id : Option TaskId) (creator : Option String) (fields : List Field)
  | set (id : TaskId) (fields : List Field)
  | state (id : TaskId) (target : TaskState) (note : Option String) (evidence : List String)

def taskFields : List String :=
  ["title", "type", "assignees", "size", "blocked_by", "due", "after", "when", "repeat", "skip", "moved",
    "description", "acceptance", "out_of_scope"]

def oneLine (s : String) : Bool := trim s ≠ "" && !s.toList.any fun c => c == '\n' || c == '\r'

def strList (v : Value) (what : String) : Except String (List String) := do
  let items ← orElse (asArray v) (what ++ ": not a list")
  orElse (items.mapM Value.asStr) (what ++ ": not a list of strings")

def lineList (v : Value) (what : String) : Except String (List String) := do
  let items ← strList v what
  ensure (items.all oneLine) (what ++ ": an item is empty or not one line")
  return items

def dateOf (v : Value) (what : String) : Except String NaiveDate :=
  orElse (v.asStr.bind parseDate) (what ++ ": not YYYY-MM-DD")

/-- A field that `null` clears. -/
def cleared {α : Type} (v : Value) (empty : α) (read : Value → Except String α) : Except String α :=
  if v = .null then .ok empty else read v

def optStr (v : Value) (what : String) : Except String (Option String) :=
  cleared v none fun v => (orElse v.asStr (what ++ ": not a string")).map some

def parseMoved : List (String × Value) → SortedMap NaiveDate When → Except String (SortedMap NaiveDate When)
  | [], out => .ok out
  | (k, w) :: rest, out => do
    let d ← orElse (parseDate k) "moved: a key is not YYYY-MM-DD"
    parseMoved rest (out.insert d (← When.parse w))

def parseField (key : String) (v : Value) : Except String Field :=
  match key with
  | "title" => (orElse (v.asStr.filter oneLine) "title: one non-empty line").map .title
  | "type" => do
    let t ← optStr v "type"
    ensure (t.all oneLine) "type: one non-empty line"
    return .kind t
  | "assignees" => do
    let a ← strList v "assignees"
    ensure (a ≠ [] ∧ "" ∉ a) "assignees: at least one seat"
    ensure a.Nodup "assignees: a seat twice"
    return .assignees a
  | "size" => (cleared v none fun v =>
      (orElse (v.asStr.bind Size.parse) "size: XS, S, M, L, XL or XXL").map some).map .size
  | "blocked_by" => do
    let b ← cleared v [] fun v => strList v "blocked_by"
    ensure b.Nodup "blocked_by: a task twice"
    return .blockedBy b
  | "due" => (cleared v none fun v => (dateOf v "due").map some).map .due
  | "after" => (cleared v none fun v => (dateOf v "after").map some).map .after
  | "when" => (cleared v none fun v => (When.parse v).map some).map .when
  | "repeat" => (cleared v none fun v => (Repeat.parse v).map some).map .recurs
  | "skip" => (cleared v [] fun v => do
      let days ← orElse (asArray v) "skip: not a list"
      days.mapM fun d => dateOf d "skip").map .skip
  | "moved" => (cleared v SortedMap.empty fun v => do
      let obj ← orElse (asObject v) "moved: not an object"
      parseMoved obj SortedMap.empty).map .moved
  | "description" => (optStr v "description").map .description
  | "acceptance" => (cleared v [] fun v => lineList v "acceptance").map .acceptance
  | "out_of_scope" => (cleared v [] fun v => lineList v "out_of_scope").map .outOfScope
  | other => .error ("unknown field `" ++ other ++ "`")

def linksOf : Field → List TaskId
  | .blockedBy b => b
  | _ => []

def checkFields (id : Option String) (fields : List Field) : Except String Unit := do
  ensure (∀ f ∈ fields, ∀ x ∈ linksOf f, id ≠ some x) "blocked_by: a task cannot block itself"
  let due := fields.foldl (fun due f => match f with | .due d => d | _ => due) none
  let after := fields.foldl (fun after f => match f with | .after a => a | _ => after) none
  match after, due with
  | some a, some d => ensure (a ≤ d) "after is later than due"
  | _, _ => return ()

/-- The propose door takes `@ref` placeholders; the wire and the fold do not. -/
inductive Door
  | propose
  | canonical
  deriving DecidableEq

def placeholder (s : String) : Option String :=
  match s.toList with
  | '@' :: r => some (String.ofList r)
  | _ => none

def checkId (door : Door) (refs : List String) (s : String) : Except String Unit :=
  match placeholder s with
  | some r => do
    ensure (door ≠ .canonical) ("`" ++ s ++ "` is not a task id")
    ensure (r ∈ refs) ("unresolved `" ++ s ++ "`")
  | none => ensure (isHex32 s) ("`" ++ s ++ "` is not a task id")

def idOf (door : Door) (refs : List String) (obj : List (String × Value)) (key : String) :
    Except String String := do
  let s ← orElse ((obj.lookup key).bind Value.asStr) (key ++ " missing")
  checkId door refs s
  return s

def checkLinks (door : Door) (refs : List String) (fields : List Field) : Except String Unit :=
  (fields.flatMap linksOf).forM (checkId door refs)

def trimmed (door : Door) : Field → Bool
  | .kind (some k) => door = .propose || trim k = k
  | _ => true

def isTitle : Field → Bool
  | .title _ => true
  | _ => false

def isAssignees : Field → Bool
  | .assignees _ => true
  | _ => false

def addId (door : Door) (refs : List String) (obj : List (String × Value)) :
    Except String (Option TaskId) :=
  match obj.lookup "id" with
  | none => if door = .canonical then .error "add: id missing" else .ok none
  | some _ => do
    let s ← idOf door refs obj "id"
    ensure (placeholder s = none) "add: id is a task id"
    return some s

def addRef (door : Door) (obj : List (String × Value)) : Except String (Option String) :=
  match obj.lookup "ref" with
  | none => .ok none
  | some r => do
    ensure (door ≠ .canonical) "add: ref is resolved at propose"
    let r ← orElse (r.asStr.filter isRefName) "add: ref is [a-z0-9_-]+"
    return some ("@" ++ r)

def addCreator (door : Door) (obj : List (String × Value)) : Except String (Option String) :=
  match door with
  | .propose => .ok none
  | .canonical =>
    (orElse (((obj.lookup "creator").bind Value.asStr).filter (· ≠ "")) "add: creator missing").map some

def parseAdd (door : Door) (refs : List String) (obj : List (String × Value)) : Except String Act := do
  let fields ← (obj.filter fun f => f.1 ∉ ["act", "id", "ref", "creator"]).mapM fun (k, v) => do
    ensure (v ≠ .null) ("add: " ++ k ++ " is null")
    parseField k v
  ensure (fields.any isTitle) "add: title missing"
  ensure (fields.any isAssignees) "add: assignees missing"
  ensure ((fields.any fun f => match f with | .when (some _) => true | _ => false) ∨
    !fields.any fun f => match f with | .recurs (some _) => true | _ => false) "add: repeat needs when"
  checkLinks door refs fields
  let id ← addId door refs obj
  let ref ← addRef door obj
  let creator ← addCreator door obj
  ensure (fields.all (trimmed door)) "add: type is not trimmed"
  (id.toList ++ ref.toList).forM fun self => checkFields (some self) fields
  checkFields none fields
  return .add id creator fields

def parseSet (door : Door) (refs : List String) (obj : List (String × Value)) : Except String Act := do
  (obj.map Prod.fst).forM fun k => ensure (k ∈ ["act", "id", "fields"]) ("set: unknown field `" ++ k ++ "`")
  let id ← idOf door refs obj "id"
  let named ← orElse (((obj.lookup "fields").bind asObject).filter fun f => !f.isEmpty) "set: fields names nothing"
  let fields ← named.mapM fun (k, v) => do
    ensure (k ∉ ["state", "note", "evidence", "creator"]) ("set: " ++ k ++ " is not settable")
    ensure (k ∈ taskFields) ("set: unknown field `" ++ k ++ "`")
    ensure (v ≠ .null ∨ k ∉ ["title", "assignees"]) ("set: " ++ k ++ " cannot be cleared")
    let f ← parseField k v
    ensure (trimmed door f) "set: type is not trimmed"
    return f
  checkLinks door refs fields
  checkFields (some id) fields
  return .set id fields

def stateNote (obj : List (String × Value)) : Except String (Option String) :=
  match obj.lookup "note" with
  | none => .ok none
  | some n => (orElse n.asStr "state: note is a string").map some

def stateEvidence (target : TaskState) (obj : List (String × Value)) : Except String (List String) :=
  match obj.lookup "evidence" with
  | none => .ok []
  | some e => do
    ensure (target = .success) "state: evidence only with success"
    strList e "evidence"

def parseState (door : Door) (refs : List String) (obj : List (String × Value)) : Except String Act := do
  (obj.map Prod.fst).forM fun k =>
    ensure (k ∈ ["act", "id", "to", "note", "evidence"]) ("state: unknown field `" ++ k ++ "`")
  let id ← idOf door refs obj "id"
  let target ← orElse (((obj.lookup "to").bind Value.asStr).bind TaskState.parse) "state: unknown state"
  let note ← stateNote obj
  let evidence ← stateEvidence target obj
  return .state id target note evidence

def parseAct (door : Door) (refs : List String) (v : Value) : Except String Act := do
  let obj ← orElse (asObject v) "not an object"
  match (obj.lookup "act").bind Value.asStr with
  | some "add" => parseAdd door refs obj
  | some "set" => parseSet door refs obj
  | some "state" => parseState door refs obj
  | some other => throw ("unknown act `" ++ other ++ "`")
  | none => throw "act missing"

def collectRefs : List Value → List String → Except String (List String)
  | [], refs => .ok refs
  | op :: ops, refs =>
    if op.getStr "act" ≠ some "add" then collectRefs ops refs
    else match op.getStr "ref" with
      | none => collectRefs ops refs
      | some r =>
        if r ∈ refs then .error ("ref `" ++ r ++ "` twice") else collectRefs ops (refs ++ [r])

def changesetRefs (door : Door) (ops : List Value) : Except String (List String) :=
  match door with
  | .propose => collectRefs ops []
  | .canonical => .ok []

def parseChangeset (v : Value) (door : Door) : Except String (List Act) := do
  let obj ← orElse (asObject v) "not an object"
  ensure ((obj.lookup "op").bind Value.asStr = some "kanban_ops") "op is kanban_ops"
  (obj.map Prod.fst).forM fun k =>
    ensure (k ∈ ["op", "summary", "base_rev", "ops"]) ("unknown field `" ++ k ++ "`")
  ensure (((obj.lookup "summary").bind Value.asStr).any oneLine) "summary: one non-empty line"
  ensure ((obj.lookup "base_rev").bind Value.asU64).isSome "base_rev missing"
  let ops ← orElse (((obj.lookup "ops").bind asArray).filter fun o => !o.isEmpty) "ops: at least one act"
  let refs ← changesetRefs door ops
  ops.zipIdx.mapM fun (op, i) =>
    (parseAct door refs op).mapError fun why => "ops[" ++ toString i ++ "]: " ++ why

def setField (t : Task) : Field → Task
  | .title v => { t with title := v }
  | .kind v => { t with kind := v }
  | .assignees v => { t with assignees := v }
  | .size v => { t with size := v }
  | .blockedBy v => { t with blockedBy := v }
  | .due v => { t with due := v }
  | .after v => { t with after := v }
  | .when v => { t with when := v }
  | .recurs v => { t with recurs := v }
  | .skip v => { t with skip := v }
  | .moved v => { t with moved := v }
  | .description v => { t with description := v }
  | .acceptance v => { t with acceptance := v }
  | .outOfScope v => { t with outOfScope := v }

structure Fault where
  reason : String
  task : Option TaskId := none

def unmetPrerequisite (tasks : Tasks) (t : Task) : Option (TaskId × String) :=
  t.blockedBy.findSome? fun b =>
    match tasks.get? b with
    | some p => if p.state.isMet then none else some (b, shortId b ++ " (" ++ p.state.asStr ++ ")")
    | none => some (b, shortId b ++ " (unknown)")

def needsNote (id : TaskId) (target : TaskState) (note : Option String) : Except Fault Unit :=
  if note.any fun n => trim n ≠ "" then .ok ()
  else .error ⟨shortId id ++ " " ++ target.asStr ++ ": note required", some id⟩

def guardStart (tasks : Tasks) (id : TaskId) (t : Task) (verb : String) : Except Fault Unit :=
  match unmetPrerequisite tasks t with
  | none => .ok ()
  | some (b, p) => .error ⟨shortId id ++ " cannot " ++ verb ++ ": blocked by " ++ p, some b⟩

def transition (tasks : Tasks) (id : TaskId) (target : TaskState) (note : Option String) :
    Except Fault Unit := do
  match tasks.get? id with
  | none => throw ⟨shortId id ++ ": unknown task", some id⟩
  | some t =>
    ensure (t.isSeries → (t.state, target) ∈ [(TaskState.todo, .cancelled), (.cancelled, .todo)])
      (⟨shortId id ++ ": a series only cancels or reopens", some id⟩ : Fault)
    match t.state, target with
    | .todo, .wip => guardStart tasks id t "start"
    | .wip, .todo | .wip, .success | .fail, .wip => return ()
    | .success, .todo | .fail, .todo | .cancelled, .todo => return ()
    | .wip, .fail | .todo, .cancelled | .wip, .cancelled | .fail, .cancelled => needsNote id target note
    | .todo, .success => do
      ensure t.isTimedOnce (⟨shortId id ++ " cannot success: not started", some id⟩ : Fault)
      guardStart tasks id t "success"
    | .todo, .fail => do
      ensure t.isTimedOnce (⟨shortId id ++ " cannot fail: not started", some id⟩ : Fault)
      guardStart tasks id t "fail"
      needsNote id target note
    | source, target =>
      throw ⟨shortId id ++ ": " ++ source.asStr ++ " to " ++ target.asStr ++ " not allowed", some id⟩

def checkSkipped (sid : String) (t : Task) : Except String Unit :=
  match t.when, t.recurs with
  | some w, some r =>
    match (t.skip ++ t.moved.entries.map Prod.fst).find? fun k => !isOccurrence w r k with
    | some k => .error (sid ++ ": " ++ fmtDate k ++ " is no occurrence")
    | none => .ok ()
  | _, _ => ensure (t.skip = [] ∧ t.moved.entries = []) (sid ++ ": skip and moved need a series")

def checkLink (tasks : Tasks) (id : TaskId) (t : Task) (b : TaskId) : Except String Unit := do
  let sid := shortId id
  ensure (b ≠ id) (sid ++ ": blocked by itself")
  match tasks.get? b with
  | none => throw (sid ++ ": blocked by unknown " ++ shortId b)
  | some p => ensure (!(p.isSeries || t.isSeries)) (sid ++ ": a series cannot be linked")

def checkSeats (sid : String) (t : Task) (seats : Finset String) : Except String Unit := do
  ensure (t.creator ∈ seats) (sid ++ ": creator " ++ t.creator ++ " is not a seat")
  match t.assignees.find? fun a => a ∉ seats with
  | some a => throw (sid ++ ": " ++ a ++ " is not a seat")
  | none => return ()

def checkTask (tasks : Tasks) (id : TaskId) (t : Task) (seats : Finset String) : Except String Unit := do
  let sid := shortId id
  checkSeats sid t seats
  ensure (∀ a ∈ t.after, ∀ d ∈ t.due, a ≤ d) (sid ++ ": after is later than due")
  ensure (t.recurs.isSome → t.when.isSome) (sid ++ ": repeat needs when")
  ensure (t.isSeries → t.state ∈ [TaskState.todo, .cancelled]) (sid ++ ": a series is todo or cancelled")
  checkSkipped sid t
  t.blockedBy.forM (checkLink tasks id t)

def prerequisites (tasks : Tasks) (id : TaskId) : List TaskId := ((tasks.get? id).map Task.blockedBy).getD []

def hasTask (tasks : Tasks) (id : TaskId) : Bool := (tasks.get? id).isSome

/-- A task on a `blocked_by` cycle reachable from these, if any. -/
def findCycle (tasks : Tasks) (roots : List TaskId) : Option TaskId :=
  let nodes := tasks.entries.map Prod.fst
  match Search.visitAll (prerequisites tasks) (hasTask tasks) (Search.fuelOf (prerequisites tasks) nodes)
      roots SortedMap.empty with
  | some (.inl id) => some id
  | _ => none

def checkTouched (tasks : Tasks) (seats : Finset String) (id : TaskId) : Except Fault Unit :=
  match tasks.get? id with
  | none => .ok ()
  | some t => do
    (checkTask tasks id t seats).mapError fun why => (⟨why, some id⟩ : Fault)
    if t.isSeries then
      match tasks.entries.find? fun e => e.2.blockedBy.contains id with
      | some e => throw ⟨shortId e.1 ++ ": a series cannot be linked", some e.1⟩
      | none => return ()

def checkResult (tasks : Tasks) (touched : List TaskId) (seats : Finset String) : Except Fault Unit := do
  touched.forM (checkTouched tasks seats)
  match findCycle tasks touched with
  | some id => throw ⟨shortId id ++ ": blocked_by forms a cycle", some id⟩
  | none => return ()

structure Draft where
  tasks : Tasks
  touched : SortedMap TaskId Unit

def applyAct (rev : UInt64) (d : Draft) : Act → Except Fault Draft
  | .add id creator fields =>
    match id with
    | none => .error ⟨"add: id missing", none⟩
    | some id =>
      if (d.tasks.get? id).isSome then .error ⟨shortId id ++ ": already exists", some id⟩
      else
        let t := fields.foldl setField { creator := creator.getD "", touchedRev := rev }
        .ok ⟨d.tasks.insert id t, d.touched.insert id ()⟩
  | .set id fields =>
    match d.tasks.get? id with
    | none => .error ⟨shortId id ++ ": unknown task", some id⟩
    | some t =>
      .ok ⟨d.tasks.insert id { fields.foldl setField t with touchedRev := rev }, d.touched.insert id ()⟩
  | .state id target note evidence => do
    transition d.tasks id target note
    match d.tasks.get? id with
    | none => throw ⟨shortId id ++ ": unknown task", some id⟩
    | some t =>
      let t := { t with state := target, note := note, evidence := evidence, touchedRev := rev }
      return ⟨d.tasks.insert id t, d.touched.insert id ()⟩

def applyChangeset (board : BoardState) (acts : List Act) (rev : UInt64) (seats : Finset String) :
    Except Fault Tasks := do
  let d ← acts.foldlM (applyAct rev) ⟨board.tasks, SortedMap.empty⟩
  checkResult d.tasks (d.touched.entries.map Prod.fst) seats
  return d.tasks

inductive FoldStep
  | applied
  | void (reason : String)
  | skipped

def kanbanFoldOne (board : BoardState) (payload : Value) (seats : Finset String) : BoardState × FoldStep :=
  if payload.getStr "op" ≠ some "kanban_ops" then (board, .skipped)
  else
    -- `saturating_add`
    let rev := if board.rev.toNat + 1 < 2 ^ 64 then board.rev + 1 else board.rev
    let result := do
      let acts ← (parseChangeset payload .canonical).mapError fun why => (⟨why, none⟩ : Fault)
      applyChangeset board acts rev seats
    match result with
    | .ok tasks => (⟨rev, tasks⟩, .applied)
    | .error e => (⟨rev, board.tasks⟩, .void e.reason)

def kanbanFold (applied : List Value) (seats : Finset String) : BoardState :=
  applied.foldl (fun board p => (kanbanFoldOne board p seats).1) {}

end Molt.Kanban
