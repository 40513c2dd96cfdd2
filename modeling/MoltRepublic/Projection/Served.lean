import Mathlib
import MoltRepublic.Chain.Soundness
import MoltRepublic.Projection.Relays

/-! The relay pool of served material against the pool of a holder of that material: the
one folds the raw blocks, the other the projected Organization log. -/

namespace Molt.Projection
open Molt.Core Json Guarded Chain List

def appliedPayload (p : Surface → Bool) (b : ChainBlock) : Option Value :=
  match b.change with
  | .applied _ surface payload => if p surface then some payload else none
  | _ => none

def ratifiedRelays (blob : Option CheckpointState) (blocks : List ChainBlock) : List String :=
  match blob with
  | some b => b.relays
  | none =>
    match blocks.head?.map ChainBlock.change with
    | some (.genesis g) => g.relays
    | _ => []

def blobEntries (surface : Surface) (blob : Option CheckpointState) : List Value :=
  match blob with
  | some b => (b.applied.filter fun g => g.1 == surface).flatMap fun g => payloads g.2
  | none => []

/-- `apply_chain_to_state`, as it projects one surface: the blob's entries, then those of
the blocks. -/
def projectedEntries (surface : Surface) (blob : Option CheckpointState) (blocks : List ChainBlock) :
    List Value :=
  blobEntries surface blob ++ blocks.filterMap (appliedPayload (· == surface))

def holderRelays (blob : Option CheckpointState) (blocks : List ChainBlock) : List String :=
  effectiveRelays (ratifiedRelays blob blocks) (projectedEntries .organization blob blocks)

/-- `effective_relays_of_served`: the applied entries of the blocks, whatever their
surface. -/
def effectiveRelaysOfServed (blob : Option CheckpointState) (blocks : List ChainBlock) :
    List String :=
  (blocks.filterMap (appliedPayload fun _ => true)).foldl foldRelayEntry (ratifiedRelays blob blocks)

/-- The pool edit of a block with the folds that see it: both on the Organization surface,
the served one alone on any other. -/
def blockEdit (b : ChainBlock) : Option (Side × List String) :=
  match b.change with
  | .applied _ surface payload =>
    (relayEdit payload).map fun e => (if surface = .organization then .both else .right, e)
  | _ => none

def poolEdits (blob : Option CheckpointState) (blocks : List ChainBlock) :
    List (Side × List String) :=
  ((blobEntries .organization blob).filterMap relayEdit).map (.left, ·) ++ blocks.filterMap blockEdit

theorem toLeft_poolEdits (blob : Option CheckpointState) (blocks : List ChainBlock) :
    toLeft (poolEdits blob blocks) =
      (projectedEntries .organization blob blocks).filterMap relayEdit := by
  rw [poolEdits, toLeft_append, projectedEntries, filterMap_append]
  congr 1
  · rw [toLeft, filterMap_map]
    exact filterMap_some
  · rw [toLeft, filterMap_filterMap, filterMap_filterMap]
    congr 1
    funext b
    unfold blockEdit appliedPayload
    cases b.change with
    | applied id surface payload =>
      by_cases hs : surface = .organization
      · cases h : relayEdit payload <;> simp [hs, h]
      · cases h : relayEdit payload <;> simp [hs]
    | genesis | membership | checkpoint | checkpointFolded | checkpointVault => rfl

theorem toRight_poolEdits (blob : Option CheckpointState) (blocks : List ChainBlock) :
    toRight (poolEdits blob blocks) =
      (blocks.filterMap (appliedPayload fun _ => true)).filterMap relayEdit := by
  have hblob : toRight (((blobEntries .organization blob).filterMap relayEdit).map
      ((Side.left, ·))) = [] := by
    rw [toRight, filterMap_map]
    exact filterMap_none _
  rw [poolEdits, toRight_append, hblob, nil_append, toRight, filterMap_filterMap,
    filterMap_filterMap]
  congr 1
  funext b
  unfold blockEdit appliedPayload
  cases b.change with
  | applied id surface payload =>
    by_cases hs : surface = .organization
    all_goals cases h : relayEdit payload <;> simp [hs, h]
  | genesis | membership | checkpoint | checkpointFolded | checkpointVault => rfl

/-- When the two pools are the same: no edit that one fold alone sees moves the pool they
start with, or some edit brings both to one pool that no later such edit moves. -/
def ServedPoolJoins (blob : Option CheckpointState) (blocks : List ChainBlock) : Prop :=
  EndsJoined adoptsPool id (ratifiedRelays blob blocks) (ratifiedRelays blob blocks)
    (poolEdits blob blocks)

theorem effectiveRelaysOfServed_iff (blob : Option CheckpointState) (blocks : List ChainBlock) :
    effectiveRelaysOfServed blob blocks = holderRelays blob blocks ↔ ServedPoolJoins blob blocks := by
  rw [ServedPoolJoins, ← run_toLeft_eq_run_toRight_iff adoptsPool_self, toLeft_poolEdits,
    toRight_poolEdits, holderRelays, effectiveRelays_eq_run, eq_comm]
  exact Iff.of_eq (congrArg _ (effectiveRelays_eq_run _ _))

/-- A republic founded on `a` moved to `a b` and then cut its chain: the material a pruned
holder serves verifies, its holder dials both relays, and the served fold finds one. -/
theorem effectiveRelaysOfServed_misses_blob :
    (verifySuffixChain Crypto.toy Sample.blob [Sample.cut] Sample.solo.republicId none).isOk = true ∧
      effectiveRelaysOfServed (some Sample.blob) [Sample.cut] ≠
        holderRelays (some Sample.blob) [Sample.cut] := by
  decide +kernel

end Molt.Projection
