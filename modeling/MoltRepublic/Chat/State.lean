import Mathlib
import MoltRepublic.Core.Crypto
import MoltRepublic.Lib.SortedMap

/-! The chat of a workspace: the messages in the order they were applied, the verbs that act
on them, and the part of the snapshot that carries them over a restart. -/

namespace Molt.Chat
open Molt.Core Text

abbrev MessageId := String

def nil : MessageId := "00000000000000000000000000000000"

structure FileMeta where
  name : String
  size : UInt64
  kind : String
  modified : UInt64
  available : Bool
  checksum : String
  keyB64 : String
  pieces : UInt32
  root : String
  deriving DecidableEq

structure ChatMessage where
  id : MessageId
  sender : String
  body : String
  ts : UInt64
  quote : Option UInt64
  quoteId : Option MessageId
  reactions : SortedMap String (List String)
  readBy : Finset String
  deletedBy : Option String
  file : Option FileMeta

structure ChatState where
  chat : List ChatMessage
  chatPos : SortedMap MessageId Nat
  chatPruned : Bool
  chatPrunedCounts : SortedMap String Nat

def ChatState.fresh : ChatState := ⟨[], SortedMap.empty, false, SortedMap.empty⟩

/-- The id of a message from before ids: a digest of how many messages of its sender came
before it, the sender, the stamp and the body. -/
def legacyMessageId (C : Crypto) (ordinal : Nat) (sender : String) (ts : UInt64) (body : String) : MessageId :=
  hexEncode ((C.sha256 (utf8 "molt-chat-legacy-id" ++ [0] ++ leBytes 8 (min ordinal (2 ^ 64 - 1)) ++
    utf8 sender ++ leBytes 8 ts.toNat ++ utf8 body)).take 16)

def liveCount (sender : String) (chat : List ChatMessage) : Nat :=
  chat.countP fun m => m.sender == sender

def senderOrdinal (counts : SortedMap String Nat) (sender : String) (before : List ChatMessage) : Nat :=
  liveCount sender before + (counts.get? sender).getD 0

inductive ReactOp where
  | add
  | remove
  deriving DecidableEq

/-- `chat_target`: the id if there is one, else the position as long as positions stand. -/
def chatTarget (s : ChatState) (id : Option MessageId) (index : UInt64) : Option Nat :=
  match id with
  | some id => (s.chatPos.get? id).filter fun pos => pos < s.chat.length
  | none => if s.chatPruned then none else if index.toNat < s.chat.length then some index.toNat else none

def ChatState.modify (s : ChatState) (pos : Option Nat) (f : ChatMessage → ChatMessage) : ChatState :=
  match pos with
  | some pos => { s with chat := s.chat.modify pos f }
  | none => s

variable (C : Crypto)

/-- `apply` of a `Chat`: a legacy message gets its id, a legacy quote the id it points at. -/
def settleChat (s : ChatState) (msg : ChatMessage) : ChatMessage :=
  let msg := if msg.id = nil then
      { msg with
        id := legacyMessageId C (senderOrdinal s.chatPrunedCounts msg.sender s.chat) msg.sender msg.ts msg.body }
    else msg
  if msg.quoteId.isNone && !s.chatPruned then
    match msg.quote with
    | some q => { msg with quoteId := (s.chat[q.toNat]?).map ChatMessage.id }
    | none => msg
  else msg

def applyChat (s : ChatState) (msg : ChatMessage) : ChatState :=
  let msg := settleChat C s msg
  { s with chat := s.chat ++ [msg], chatPos := s.chatPos.insert msg.id s.chat.length }

def withoutMember (reactions : SortedMap String (List String)) (member : String) :
    SortedMap String (List String) :=
  ⟨(reactions.entries.map fun e => (e.1, e.2.filter fun w => w != member)).filter fun e => !e.2.isEmpty, by
    refine List.Pairwise.filter _ (List.pairwise_map.mpr ?_)
    exact reactions.ascending⟩

def reactOn (emoji : String) (member : String) (op : Option ReactOp) (msg : ChatMessage) : ChatMessage :=
  if msg.deletedBy.isSome then msg
  else
    let hasThis := ((msg.reactions.get? emoji).getD []).contains member
    let wantThis := match op with
      | some .add => true
      | some .remove => false
      | none => !hasThis
    if wantThis = hasThis then msg
    else
      let rest := withoutMember msg.reactions member
      { msg with
        reactions := if wantThis then rest.insert emoji ((rest.get? emoji).getD [] ++ [member]) else rest }

def deleteOn (member : String) (msg : ChatMessage) : ChatMessage :=
  { msg with
    body := "", reactions := SortedMap.empty, readBy := ∅, file := none, deletedBy := some member }

def removeFileOn (msg : ChatMessage) : ChatMessage :=
  { msg with file := msg.file.map fun f => { f with available := false } }

def readOn (member : String) (msg : ChatMessage) : ChatMessage :=
  if msg.deletedBy.isSome || msg.sender == member then msg
  else { msg with readBy := insert member msg.readBy }

inductive ChatEvent where
  | chat (msg : ChatMessage)
  | chatReacted (index : UInt64) (id : Option MessageId) (emoji member : String) (op : Option ReactOp)
  | chatDeleted (index : UInt64) (id : Option MessageId) (member : String)
  | fileRemoved (index : UInt64) (id : Option MessageId) (member : String)
  | chatRead (ids : List MessageId) (member : String)

def apply (s : ChatState) : ChatEvent → ChatState
  | .chat msg => applyChat C s msg
  | .chatReacted index id emoji member op => s.modify (chatTarget s id index) (reactOn emoji member op)
  | .chatDeleted index id member => s.modify (chatTarget s id index) (deleteOn member)
  | .fileRemoved index id _ => s.modify (chatTarget s id index) removeFileOn
  | .chatRead ids member => ids.foldl (fun s id => s.modify (chatTarget s (some id) 0) (readOn member)) s

structure ChatDump where
  chat : List ChatMessage
  chatPruned : Bool
  chatPrunedCounts : SortedMap String Nat

def dump (s : ChatState) : ChatDump := ⟨s.chat, s.chatPruned, s.chatPrunedCounts⟩

def kept (cutoff : UInt64) (m : ChatMessage) : Bool := !(m.ts != 0 && m.ts < cutoff)

def countDropped (cutoff : UInt64) (counts : SortedMap String Nat) (m : ChatMessage) : SortedMap String Nat :=
  if kept cutoff m then counts else counts.insert m.sender ((counts.get? m.sender).getD 0 + 1)

/-- `prune_chat_before`, with how many messages went. -/
def pruneChatBefore (d : ChatDump) (cutoff : UInt64) : ChatDump × Nat :=
  if d.chat.any fun m => m.id == nil then (d, 0)
  else
    let chat := d.chat.filter (kept cutoff)
    let dropped := d.chat.length - chat.length
    ({ chat := if 0 < dropped then chat.map fun m => { m with quote := none } else chat
       chatPruned := d.chatPruned || 0 < dropped
       chatPrunedCounts := d.chat.foldl (countDropped cutoff) d.chatPrunedCounts }, dropped)

def positions (chat : List ChatMessage) : SortedMap MessageId Nat :=
  chat.zipIdx.foldl (fun pos e => pos.insert e.1.id e.2) SortedMap.empty

def compactChat (s : ChatState) (cutoff : UInt64) : ChatState :=
  let pruned := pruneChatBefore (dump s) cutoff
  if pruned.2 = 0 then s
  else ⟨pruned.1.chat, positions pruned.1.chat, pruned.1.chatPruned, pruned.1.chatPrunedCounts⟩

/-- One message of a dump taken in: `before` is the part of the chat already gone through. -/
def restoreMessage (pruned : Bool) (counts : SortedMap String Nat) (before : List ChatMessage)
    (msg : ChatMessage) : ChatMessage :=
  let msg := if msg.id = nil then
      { msg with id := legacyMessageId C (senderOrdinal counts msg.sender before) msg.sender msg.ts msg.body }
    else msg
  if !pruned && msg.quoteId.isNone then
    match msg.quote with
    | some q =>
      let quoted := (before[q.toNat]?).filter fun _ => q.toNat < before.length
      { msg with quoteId := quoted.map ChatMessage.id }
    | none => msg
  else msg

def mergeCounts (counts more : SortedMap String Nat) : SortedMap String Nat :=
  more.entries.foldl (fun m e => m.insert e.1 (max ((m.get? e.1).getD 0) e.2)) counts

def restoreDump (s : ChatState) (d : ChatDump) : ChatState :=
  let pruned := s.chatPruned || d.chatPruned
  let counts := mergeCounts s.chatPrunedCounts d.chatPrunedCounts
  let chat := d.chat.foldl (fun before m => before ++ [restoreMessage C pruned counts before m]) []
  ⟨chat, positions chat, pruned, counts⟩

end Molt.Chat
