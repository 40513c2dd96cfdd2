import Mathlib
import MoltRepublic.Chain.Cut
import MoltRepublic.Chain.Voices
import MoltRepublic.Core.Slots

/-! The verification of a chain: one step function, driven from the genesis, from a
checkpoint blob, or block by block on a walk that is kept. -/

namespace Molt.Chain
open Molt.Core Json Check Vault

structure ChainHead where
  height : UInt64
  hash : String
  republicId : String
  ruleM : UInt8
  identities : List MemberIdentity
  deriving DecidableEq

def verifyGenesis (C : Crypto) (block : ChainBlock) : Except String ChainHead := do
  ensure (block.height = 0) "genesis is not at height 0"
  ensure (block.prev = genesisPrev) "genesis prev is not the zero root"
  match block.change with
  | .genesis g =>
    ensure (g.ruleM ≠ 0 ∧ g.ruleM ≤ g.ruleN) "genesis threshold is out of range"
    ensure (g.ruleN.toNat = g.identities.length) "genesis roster size does not match n"
    let _ ← checkRosterKeys C g.ruleM g.ruleN g.identities g.features
    ensure (C.republicId g.name g.ruleM g.ruleN g.identities = g.republicId)
      "genesis republic id does not match its content"
    let bytes := approvalBytes g.republicId 0 block.change
    ensure ((validSigners C g.identities bytes block.sigs).card = g.identities.length)
      "genesis is not fully signed by every member"
    return ⟨0, C.blockHash g.republicId block, g.republicId, g.ruleM, g.identities⟩
  | _ => throw "block 0 is not a genesis"

def checkChange (seen : Finset UInt64) (block : ChainBlock) : Except String (Option UInt64) :=
  let height := block.height
  match block.change with
  | .genesis _ => .error "a genesis cannot appear after height 0"
  | .applied id _ _ => do
    ensure (id ∉ seen) s!"proposal {id} is applied twice"
    return some id
  | .membership _ => .ok none
  | .checkpoint upto _ | .checkpointFolded upto _ | .checkpointVault upto _ _ => do
    ensure (height ≠ 0 ∧ upto = height - 1)
      s!"checkpoint upto {upto} must be exactly its block height {height} minus one"
    return none

def rosterAfter (identities : List MemberIdentity) : ChainChange → Except String (List MemberIdentity)
  | .membership m => applyMembership identities m.op m.member m.identityPk
  | _ => .ok identities

/-- `verify_next`: the head behind a block, and the proposal id it consumes. The sum
of the heights is checked: where it overflows the code aborts, and here the block is
refused. -/
def verifyNext (C : Crypto) (head : ChainHead) (block : ChainBlock) (seen : Finset UInt64) :
    Except String (ChainHead × Option UInt64) := do
  let height := block.height
  let last := head.height
  let m := head.ruleM
  ensure (height.toNat = last.toNat + 1) s!"block height {height} does not follow {last}"
  ensure (block.prev = head.hash) s!"block {height} does not link to its predecessor"
  let consumed ← checkChange seen block
  let signers ← blockSigners C head.republicId head.identities block
  let count := signers.card
  ensure (m.toNat ≤ count) s!"block {height} has {count} valid approvals, threshold is {m}"
  let identities ← rosterAfter head.identities block.change
  return (⟨height, C.blockHash head.republicId block, head.republicId, m, identities⟩, consumed)

def surfaceRank (s : Surface) : Nat := Surface.all.idxOf s

def birthGroup (surface : Surface) (applied : List Group) : List Group :=
  if applied.any fun g => g.1 == surface then applied
  else
    let at_ := applied.findIdx fun g => surfaceRank surface < surfaceRank g.1
    applied.insertIdx at_ (surface, [])

def pushEntry (surface : Surface) (e : UInt64 × Value) : List Group → List Group
  | [] => []
  | g :: gs =>
    if g.1 = surface then (g.1, foldEntry surface g.2 e) :: gs else g :: pushEntry surface e gs

def checkVaultEntry (C : Crypto) (state : CheckpointState) (height : UInt64) (vault : Option VaultCtx)
    (id : UInt64) (surface : Surface) (payload : Value) : Except String Unit :=
  match vault, surface with
  | some ctx, .vault => do
    ensure (walkEnabled state ctx) s!"block {height}: vault not enabled"
    let _ ← (checkVaultOp C state.republicId id payload ctx).mapError fun e =>
      s!"block {height}: vault {e}"
  | _, _ => .ok ()

def declare (state : CheckpointState) (m : Membership) : CheckpointState :=
  { state with
    anchors := match m.nostrPk.filter (· != "") with
      | some pk => insertEntry m.member pk state.anchors
      | none => state.anchors
    memberRelays := if m.relays.isEmpty then state.memberRelays
      else insertEntry m.member m.relays state.memberRelays }

/-- `fold_one`: the state behind one verified block, also when it is refused. -/
def foldOne (C : Crypto) (state : CheckpointState) (block : ChainBlock) (vault : Option VaultCtx) :
    CheckpointState × Except String Unit :=
  match block.change with
  | .applied id surface payload =>
    match checkVaultEntry C state block.height vault id surface payload with
    | .error e => (state, .error e)
    | .ok () =>
      let applied := pushEntry surface (id, payload) (birthGroup surface state.applied)
      ({ state with applied := applied, consumedIds := state.consumedIds ++ [id] }, .ok ())
  | .membership m =>
    match applyMembership state.roster m.op m.member m.identityPk with
    | .error e => (state, .error e)
    | .ok roster => (declare { state with roster := roster } m, .ok ())
  | .genesis _ | .checkpoint .. | .checkpointFolded .. | .checkpointVault .. => (state, .ok ())

structure ChainWalk where
  head : ChainHead
  seen : Finset UInt64
  running : CheckpointState
  floor : Option UInt64
  folded : Nat
  foldedCut : Bool
  vault : Option VaultCtx

def checkFloor (floor : Option UInt64) (upto : UInt64) : Except String Unit :=
  match floor with
  | some floor => ensure (floor ≤ upto) s!"checkpoint upto {upto} lies below the blob coverage {floor}"
  | none => .ok ()

def checkCut (C : Crypto) (w : ChainWalk) (block : ChainBlock) (held : Held) : Except String Bool :=
  let height := block.height
  match CutKind.of block.change with
  | none => .ok false
  | some (upto, stateHash, kind) => do
    -- one variant per kind of republic
    ensure (w.vault.isSome = kind.vault)
      (if kind.vault then s!"block {height}: a vault checkpoint outside a vault republic"
        else s!"block {height}: a legacy checkpoint in a vault republic")
    -- once folded, always folded
    ensure (w.foldedCut → kind.wiki) s!"block {height}: a legacy checkpoint after a folded cut"
    checkFloor w.floor upto
    let hash ← hashWalkState C w.running upto kind held
    ensure (hash = stateHash) s!"checkpoint at upto {upto} does not match this chain's own projection"
    return kind.wiki

/-- `ChainWalk::step`: the walk a block leaves behind, also when it is refused. -/
def step (C : Crypto) (w : ChainWalk) (block : ChainBlock) (held : Held) :
    ChainWalk × Except String Unit :=
  let height := block.height
  match verifyNext C w.head block w.seen with
  | .error e => (w, .error e)
  | .ok (head, consumed) =>
    match consentSpends block.change (walkWorkingAnchor w.running) with
    | .error why => (w, .error s!"block {height}: {why}")
    | .ok () =>
      match checkCut C w block held with
      | .error e => (w, .error e)
      | .ok wiki =>
        let w := { w with foldedCut := w.foldedCut || wiki }
        match foldOne C w.running block w.vault with
        | (running, .error e) => ({ w with running := running }, .error e)
        | (running, .ok ()) =>
          ({ w with
              head := head
              seen := consumed.elim w.seen fun id => insert id w.seen
              running := running
              folded := w.folded + 1 }, .ok ())

def advance (C : Crypto) (held : Held) (w : ChainWalk) (block : ChainBlock) :
    Except String ChainWalk :=
  (step C w block held).2.map fun _ => (step C w block held).1

def genesisBase (g : Genesis) : CheckpointState where
  foundingName := g.name
  ruleM := g.ruleM
  ruleN := g.ruleN
  foundingIdentities := g.identities
  agenda := g.agenda
  relays := g.relays
  foundingFeatures := g.features
  republicId := g.republicId
  roster := g.identities
  applied := Surface.checkpointV7Surfaces.map fun s => (s, [])
  consumedIds := []
  anchors := []
  memberRelays := []
  upto := 0

def genesisWalk (head : ChainHead) (g : Genesis) : ChainWalk where
  head := head
  seen := ∅
  running := genesisBase g
  floor := none
  folded := 1
  foldedCut := false
  vault := ctxFromFounding g.ruleM g.identities

def walkChain (C : Crypto) : List ChainBlock → Except String ChainWalk
  | [] => .error "empty chain"
  | genesis :: rest => do
    let head ← verifyGenesis C genesis
    match genesis.change with
    | .genesis g => rest.foldlM (advance C {}) (genesisWalk head g)
    | _ => throw "block 0 is not a genesis"

def verifyChain (C : Crypto) (blocks : List ChainBlock) : Except String ChainHead :=
  (walkChain C blocks).map ChainWalk.head

def anchored (founding : List MemberIdentity) (entry : MemberIdentity) : Bool :=
  founding.any fun f => f.member == entry.member && f.identityPk == entry.identityPk &&
    f.nostrPk == entry.nostrPk && f.vaultPk == entry.vaultPk

def checkAnchored (founding : List MemberIdentity) : List MemberIdentity → Except String Unit
  | [] => .ok ()
  | entry :: roster => do
    let member := entry.member
    ensure (anchored founding entry)
      s!"checkpoint roster member {member} is not anchored in the founding table"
    checkAnchored founding roster

def anchorWalk (C : Crypto) (blob : CheckpointState) (anchor : ChainBlock) (kind : CutKind) :
    ChainWalk where
  head := ⟨anchor.height, C.blockHash blob.republicId anchor, blob.republicId, blob.ruleM,
    blob.roster⟩
  seen := blob.consumedIds.toFinset
  running := blob
  floor := some blob.upto
  folded := 1
  foldedCut := kind.wiki
  vault := ctxFromFounding blob.ruleM blob.foundingIdentities

def checkAnchorKeys (C : Crypto) (keyed : Bool) (blob : CheckpointState) : Except String Unit :=
  if keyed then do
    let _ ← checkRosterKeys C blob.ruleM blob.ruleN blob.foundingIdentities blob.foundingFeatures
  else .ok ()

def verifyAnchor (C : Crypto) (blob : CheckpointState) (anchor : ChainBlock)
    (expectedRepublicId : String) : Except String ChainWalk := do
  match CutKind.of anchor.change with
  | none => throw "suffix chain does not start with a checkpoint"
  | some (upto, stateHash, kind) =>
    ensure (blob.upto = upto) "checkpoint blob does not cover the anchored upto"
    ensure (C.checkpointStateHash blob = stateHash)
      "checkpoint blob does not match the signed state hash"
    ensure (anchor.height ≠ 0 ∧ anchor.height - 1 = upto)
      "checkpoint upto must be exactly the anchor height minus one"
    let rid := C.republicId blob.foundingName blob.ruleM blob.ruleN blob.foundingIdentities
    ensure (rid = expectedRepublicId ∧ rid = blob.republicId)
      "checkpoint founding table does not recompute to the republic id"
    ensure (blob.ruleM ≠ 0 ∧ blob.ruleM ≤ blob.ruleN ∧ blob.roster ≠ [])
      "checkpoint roster/threshold out of range"
    ensure (blob.ruleN.toNat = blob.foundingIdentities.length)
      "checkpoint founding table size does not match n"
    let keyed := blob.foundingIdentities.any fun i => i.vaultPk != ""
    ensure (keyed = kind.vault)
      (if keyed then "a legacy checkpoint cannot anchor a vault republic"
        else "a vault checkpoint needs a vault republic")
    checkAnchorKeys C keyed blob
    checkAnchored blob.foundingIdentities blob.roster
    let bytes := approvalBytes blob.republicId anchor.height anchor.change
    let count := (validSigners C blob.foundingIdentities bytes anchor.sigs).card
    let m := blob.ruleM
    ensure (m.toNat ≤ count)
      s!"checkpoint anchor has {count} valid approvals, threshold is {m}"
    return anchorWalk C blob anchor kind

/-- `walk_suffix_chain`: a chain that begins with a cut, on the cut's blob. -/
def walkSuffixChain (C : Crypto) (blob : CheckpointState) (blocks : List ChainBlock)
    (expectedRepublicId : String) (held : Held) : Except String ChainWalk :=
  match blocks with
  | [] => .error "empty suffix chain"
  | anchor :: rest => do
    let w ← verifyAnchor C blob anchor expectedRepublicId
    rest.foldlM (advance C held) w

def verifySuffixChain (C : Crypto) (blob : CheckpointState) (blocks : List ChainBlock)
    (expectedRepublicId : String) (wikiBase : Option Wiki.Tree) : Except String ChainHead :=
  (walkSuffixChain C blob blocks expectedRepublicId { wiki := wikiBase }).map ChainWalk.head

def foldNext (C : Crypto) (vault : Option VaultCtx) (state : CheckpointState) (block : ChainBlock) :
    Except String CheckpointState :=
  (foldOne C state block vault).2.map fun _ => (foldOne C state block vault).1

/-- `fold_state`: further verified blocks up to `upto` on a base state. -/
def foldState (C : Crypto) (state : CheckpointState) (blocks : List ChainBlock) (upto : UInt64) :
    Except String CheckpointState := do
  let vault := ctxFromFounding state.ruleM state.foundingIdentities
  let state ← (blocks.takeWhile fun b => b.height ≤ upto).foldlM (foldNext C vault) state
  return atCut state upto

def checkpointState (C : Crypto) (blocks : List ChainBlock) (upto : UInt64) :
    Except String CheckpointState :=
  match blocks with
  | ⟨_, _, .genesis g, _⟩ :: rest => foldState C (genesisBase g) rest upto
  | _ => .error "chain does not start with a genesis"

end Molt.Chain
