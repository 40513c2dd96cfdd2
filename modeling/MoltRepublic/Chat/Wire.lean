import Mathlib
import MoltRepublic.Chat.State

/-! Chat verbs off the wire (`net/ingest`, `chat`): a verb whose message is not here yet is
parked under the message's id and goes through the same checks when the message lands. -/

namespace Molt.Chat
open Molt.Core

inductive PendingRef where
  | react (member emoji : String) (op : Option ReactOp)
  | delete (member : String)
  | fileRemove (member : String)
  | read (member : String)
  deriving DecidableEq

def parkedTargetCap : Nat := 256

def parkedRefsPerTarget : Nat := 64

def parkedReadsPerFrame : Nat := 16

structure ParkedRefs where
  refs : SortedMap MessageId (List PendingRef)
  order : List MessageId

def ParkedRefs.new : ParkedRefs := ⟨SortedMap.empty, []⟩

def ParkedRefs.park (p : ParkedRefs) (target : MessageId) (r : PendingRef) : ParkedRefs :=
  match p.refs.get? target with
  | some list =>
    let list := if parkedRefsPerTarget ≤ list.length then list.drop 1 else list
    { p with refs := p.refs.insert target (list ++ [r]) }
  | none =>
    let room : ParkedRefs := if parkedTargetCap ≤ p.order.length then
        match p.order with
        | oldest :: order => ⟨p.refs.erase oldest, order⟩
        | [] => p
      else p
    ⟨room.refs.insert target [r], room.order ++ [target]⟩

def ParkedRefs.drain (p : ParkedRefs) (target : MessageId) : ParkedRefs × List PendingRef :=
  let parked := (p.refs.get? target).getD []
  (⟨p.refs.erase target, if parked.isEmpty then p.order else p.order.filter fun t => t != target⟩, parked)

structure Node where
  state : ChatState
  parked : ParkedRefs

def Node.fresh : Node := ⟨ChatState.fresh, ParkedRefs.new⟩

def chatById (s : ChatState) (id : MessageId) : Option ChatMessage :=
  (s.chatPos.get? id).bind fun pos => s.chat[pos]?

variable (C : Crypto)

def record (n : Node) (e : ChatEvent) : Node := { n with state := apply C n.state e }

def park (n : Node) (id : MessageId) (r : PendingRef) : Node := { n with parked := n.parked.park id r }

def indexOf (s : ChatState) (id : MessageId) : UInt64 := UInt64.ofNat ((s.chatPos.get? id).getD 0)

def wireReact (n : Node) (id : MessageId) (sender emoji : String) (op : Option ReactOp) : Node :=
  match chatById n.state id with
  | none => park n id (.react sender emoji op)
  | some msg =>
    if msg.deletedBy.isSome then n
    else record C n (.chatReacted (indexOf n.state id) (some id) emoji sender op)

def wireDelete (n : Node) (id : MessageId) (sender : String) : Node :=
  match chatById n.state id with
  | none => park n id (.delete sender)
  | some msg =>
    if msg.sender ≠ sender then n
    else record C n (.chatDeleted (indexOf n.state id) (some id) sender)

def wireFileRemove (n : Node) (id : MessageId) (sender : String) : Node :=
  match chatById n.state id with
  | none => park n id (.fileRemove sender)
  | some msg =>
    if msg.sender ≠ sender ∨ msg.file.isNone then n
    else record C n (.fileRemoved (indexOf n.state id) (some id) sender)

def wireRead (n : Node) (id : MessageId) (sender : String) : Node :=
  match chatById n.state id with
  | none => park n id (.read sender)
  | some msg =>
    if msg.deletedBy.isSome || msg.sender == sender then n
    else record C n (.chatRead [id] sender)

def wireRef (id : MessageId) (n : Node) : PendingRef → Node
  | .react member emoji op => wireReact C n id member emoji op
  | .delete member => wireDelete C n id member
  | .fileRemove member => wireFileRemove C n id member
  | .read member => wireRead C n id member

/-- `land_wire_chat`. -/
def landWireChat (n : Node) (msg : ChatMessage) : Node :=
  let n := record C n (.chat msg)
  let drained := n.parked.drain msg.id
  drained.2.foldl (wireRef C msg.id) { n with parked := drained.1 }

/-- The characters `str::trim` takes off. -/
def isWhitespace (c : Char) : Bool :=
  (9 ≤ c.toNat && c.toNat ≤ 13) || (8192 ≤ c.toNat && c.toNat ≤ 8202) ||
    [32, 133, 160, 5760, 8232, 8233, 8239, 8287, 12288].contains c.toNat

def trim (s : String) : List Char :=
  ((s.toList.dropWhile isWhitespace).reverse.dropWhile isWhitespace).reverse

def sanitizeEmoji (emoji : String) : Option String :=
  let trimmed := trim emoji
  if trimmed.isEmpty || 4 < trimmed.length then none else some (String.ofList trimmed)

inductive Frame where
  | chat (msg : ChatMessage)
  | chatReacted (id : Option MessageId) (emoji : String) (op : Option ReactOp)
  | chatDeleted (id : Option MessageId)
  | fileRemoved (id : Option MessageId)
  | chatRead (ids : List MessageId)

/-- What the chat arm reads beside the frame: the clock, and the verdict on an id a vote has
taken (`chat_squats_voted_share`, `decision_line_verdict`). -/
structure Gate where
  now : UInt64
  admits : ChatMessage → Bool

def wireStampSkewSecs : Nat := 900

/-- A message as it is taken off the wire: the link decides the sender, and stances that only
travel as verbs are taken out. -/
def received (g : Gate) (sender : String) (msg : ChatMessage) : ChatMessage :=
  { msg with
    sender := sender
    quote := none
    reactions := SortedMap.empty
    readBy := ∅
    deletedBy := none
    ts := if msg.ts = 0 ∨ min (g.now.toNat + wireStampSkewSecs) (2 ^ 64 - 1) < msg.ts.toNat then g.now else msg.ts }

def deliverChat (g : Gate) (n : Node) (sender : String) (msg : ChatMessage) : Node :=
  let msg := received g sender msg
  if msg.id = nil then n
  else if (n.state.chatPos.get? msg.id).isSome then n
  else if g.admits msg then landWireChat C n msg
  else n

def sortRead (sender : String) (acc : Node × List MessageId × Nat) (id : MessageId) : Node × List MessageId × Nat :=
  match chatById acc.1.state id with
  | some msg =>
    if msg.deletedBy.isNone && msg.sender != sender then (acc.1, acc.2.1 ++ [id], acc.2.2) else acc
  | none =>
    if acc.2.2 < parkedReadsPerFrame then (park acc.1 id (.read sender), acc.2.1, acc.2.2 + 1) else acc

def deliverRead (n : Node) (sender : String) (ids : List MessageId) : Node :=
  let sorted := ids.foldl (sortRead sender) (n, [], 0)
  if sorted.2.1.isEmpty then sorted.1 else record C sorted.1 (.chatRead sorted.2.1 sender)

/-- The chat arms of `deliver_gated`, behind the accept point. -/
def deliver (g : Gate) (n : Node) (sender : String) : Frame → Node
  | .chat msg => deliverChat C g n sender msg
  | .chatReacted none _ _ => n
  | .chatReacted (some id) emoji op =>
    match sanitizeEmoji emoji with
    | none => n
    | some emoji => wireReact C n id sender emoji op
  | .chatDeleted none => n
  | .chatDeleted (some id) => wireDelete C n id sender
  | .fileRemoved none => n
  | .fileRemoved (some id) => wireFileRemove C n id sender
  | .chatRead ids => deliverRead C n sender ids

structure Arrival where
  gate : Gate
  sender : String
  frame : Frame

def receive (n : Node) (a : Arrival) : Node := deliver C a.gate n a.sender a.frame

def receiveAll (n : Node) (arrivals : List Arrival) : Node := arrivals.foldl (receive C) n

end Molt.Chat
