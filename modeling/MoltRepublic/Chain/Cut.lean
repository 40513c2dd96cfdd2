import Mathlib
import MoltRepublic.Lib.Check
import MoltRepublic.Vault.Base
import MoltRepublic.Wiki.Fold

/-! What a cut hashes: the running state with its memory group folded to a wiki base and
its vault group to a vault base, as the kind of the cut asks (`wiki_base`). -/

namespace Molt.Chain
open Molt.Core Json Check Wiki Vault

structure Held where
  wiki : Option Tree := none
  vault : Option VaultBase := none

structure CutKind where
  wiki : Bool := false
  vault : Bool := false
  deriving DecidableEq

def CutKind.of : ChainChange → Option (UInt64 × String × CutKind)
  | .checkpoint upto hash => some (upto, hash, {})
  | .checkpointFolded upto hash => some (upto, hash, { wiki := true })
  | .checkpointVault upto hash wikiFolded => some (upto, hash, ⟨wikiFolded, true⟩)
  | .genesis _ | .applied .. | .membership _ => none

def groupOf (applied : List Group) (surface : Surface) : Option (List (UInt64 × Value)) :=
  (applied.find? fun g => g.1 == surface).map Prod.snd

def setGroup (surface : Surface) (list : List (UInt64 × Value)) : List Group → List Group
  | [] => []
  | g :: gs => if g.1 = surface then (g.1, list) :: gs else g :: setGroup surface list gs

def wikiCommitment (C : Crypto) (tree : Tree) : String × UInt64 :=
  let bytes := wikiBaseCanonicalBytes tree
  (C.contentHash bytes, UInt64.ofNat bytes.length)

def revAtCutOf (payload : Value) : Option UInt64 := payload.getU64 "rev_at_cut"

def saturatingSucc (n : UInt64) : UInt64 := if n.toNat + 1 < 2 ^ 64 then n + 1 else n

structure MemoryFold where
  tree : Tree
  kept : List (UInt64 × Value)
  seeded : Bool
  rev : UInt64

def foldMemoryEntry (C : Crypto) (base : Tree) (s : MemoryFold) (e : UInt64 × Value) :
    Except String MemoryFold :=
  let op := e.2.getStr "op"
  if op = some "wiki_base" then do
    let want := (e.2.getStr "hash").getD ""
    let held := (wikiCommitment C base).1
    ensure (s.seeded = false) "the memory group carries two base commitments"
    ensure (held = want)
      s!"the shared memory base this node holds ({held}) is not the committed one ({want})"
    return { s with tree := base, rev := (revAtCutOf e.2).getD 0, seeded := true }
  else if op = some "wiki_patch" then
    let moved := Wiki.foldOne s.tree e.2
    .ok { s with tree := moved.1, rev := if moved.2 then saturatingSucc s.rev else s.rev }
  else .ok { s with kept := s.kept ++ [e] }

def wikiBaseEntry (C : Crypto) (tree : Tree) (rev : UInt64) : UInt64 × Value :=
  (0, .obj [("hash", .str (wikiCommitment C tree).1), ("op", .str "wiki_base"),
    ("rev_at_cut", .num (.posInt rev)), ("size", .num (.posInt (wikiCommitment C tree).2))])

/-- `wiki_base::summarize`: the folded group, its tree and the revision it stands at. -/
def summarizeMemory (C : Crypto) (group : List (UInt64 × Value)) (base : Tree) :
    Except String (List (UInt64 × Value) × Tree × UInt64) := do
  let s ← group.foldlM (foldMemoryEntry C base) ⟨SortedMap.empty, [], false, 0⟩
  return (wikiBaseEntry C s.tree s.rev :: s.kept, s.tree, s.rev)

/-- `wiki_base::summarize_state`: a state without a memory group has nothing to fold. -/
def foldMemoryGroup (C : Crypto) (state : CheckpointState) (base : Tree) :
    Except String (CheckpointState × Option Tree) :=
  match groupOf state.applied .memory with
  | none => .ok (state, none)
  | some group => do
    let folded ← summarizeMemory C group base
    return ({ state with applied := setGroup .memory folded.1 state.applied }, some folded.2.1)

def foldVaultGroup (C : Crypto) (state : CheckpointState) (held : Option VaultBase) :
    Except String (CheckpointState × VaultBase) :=
  match groupOf state.applied .vault with
  | none => .error "the state has no vault group"
  | some group => do
    let folded ← Vault.summarize C group held state.republicId
    return ({ state with applied := setGroup .vault folded.1 state.applied }, folded.2)

structure FoldedCut where
  state : CheckpointState
  tree : Option Tree
  vault : Option VaultBase
  hash : String

def foldWikiPart (C : Crypto) (state : CheckpointState) (cut : CutKind) (held : Held) :
    Except String (CheckpointState × Option Tree) :=
  if cut.wiki then foldMemoryGroup C state (held.wiki.getD SortedMap.empty) else .ok (state, none)

def foldVaultPart (C : Crypto) (state : CheckpointState) (cut : CutKind) (held : Held) :
    Except String (CheckpointState × Option VaultBase) :=
  if cut.vault then do
    let folded ← foldVaultGroup C state held.vault
    return (folded.1, some folded.2)
  else .ok (state, none)

/-- `fold_cut`: the one place a state becomes a folded cut and a hash. -/
def foldCut (C : Crypto) (state : CheckpointState) (cut : CutKind) (held : Held) :
    Except String FoldedCut := do
  let wiki ← foldWikiPart C state cut held
  let vault ← foldVaultPart C wiki.1 cut held
  return ⟨vault.1, wiki.2, vault.2, C.checkpointStateHash vault.1⟩

def sortIds (ids : List UInt64) : List UInt64 := ids.insertionSort (· ≤ ·)

/-- The state a cut at `upto` covers: the running state with its ids in order. -/
def atCut (state : CheckpointState) (upto : UInt64) : CheckpointState :=
  { state with upto := upto, consumedIds := sortIds state.consumedIds }

def hashWalkState (C : Crypto) (state : CheckpointState) (upto : UInt64) (kind : CutKind)
    (held : Held) : Except String String := do
  let cut ← foldCut C (atCut state upto) kind held
  return cut.hash

end Molt.Chain
