import Mathlib
import MoltRepublic.Projection.Files

/-! A deleted share (`files_state`). The delete is meant to be terminal, but the fold takes
the last vote on a share: one that was open beside the delete brings the share back. -/

namespace Molt.Projection
open Molt.Core Text Json List

def FileState.isDeleted : FileState → Bool
  | deleted _ => true
  | _ => false

def FileState.isPersistent : FileState → Bool
  | persistent _ => true
  | _ => false

def shareDeleted (entries : List Value) (id : String) : Bool :=
  (filesState entries id).any FileState.isDeleted

def isPersistentShare (entries : List Value) (id : String) : Bool :=
  (filesState entries id).any FileState.isPersistent

structure WellFormedDelete (id : String) (v : Value) : Prop where
  share : parseId v = some id
  op : v.getStr "op" = some "delete"
  identity : (ShareIdentity.fromPayload v).isSome

def Verdict.isDeleted : Verdict → Bool
  | deleted => true
  | _ => false

@[simp] theorem Verdict.on_isDeleted (w : Verdict) (m : ShareIdentity) :
    (w.on m).isDeleted = w.isDeleted := by
  cases w <;> rfl

def ShareOp.verdict : ShareOp → Option Verdict
  | ignored => none
  | carrying _ w => some w
  | bare w => some w

/-- A later payload that acts on a known share: a persist with an identity, an unpersist with
its stamp, or a delete. -/
def actsOn (id : String) (v : Value) : Option Verdict := (shareOp id v).bind ShareOp.verdict

def StaysDeleted (id : String) (after : List Value) : Prop :=
  ∀ w ∈ (after.filterMap (actsOn id)).getLast?, w.isDeleted = true

theorem apply_known (p : FileState) (op : ShareOp) :
    ∃ q, op.apply (some p) = some q ∧
      q.isDeleted = (op.verdict.map Verdict.isDeleted).getD p.isDeleted := by
  cases op with
  | ignored => exact ⟨p, rfl, rfl⟩
  | carrying m w => exact ⟨w.on (foldIdentity (some p) m), rfl, by simp [ShareOp.verdict]⟩
  | bare w => exact ⟨w.on p.identity, rfl, by simp [ShareOp.verdict]⟩

theorem foldOps_known (p : FileState) (ops : List ShareOp) :
    ∃ q, foldOps (some p) ops = some q ∧ q.isDeleted =
      ((ops.filterMap ShareOp.verdict).getLast?.map Verdict.isDeleted).getD p.isDeleted := by
  induction ops generalizing p with
  | nil => exact ⟨p, rfl, rfl⟩
  | cons op ops ih =>
    obtain ⟨r, hr, hdeleted⟩ := apply_known p op
    obtain ⟨q, hq, hlast⟩ := ih r
    refine ⟨q, by rw [foldOps_cons, hr, hq], ?_⟩
    rw [hlast, hdeleted, filterMap_cons]
    cases hverdict : op.verdict with
    | none => simp
    | some w =>
      -- a later verdict outweighs this one
      rw [getLast?_cons]
      cases (ops.filterMap ShareOp.verdict).getLast? <;> simp

theorem WellFormedDelete.shareOp {id : String} {v : Value} (h : WellFormedDelete id v) :
    ∃ m, shareOp id v = some (.carrying m .deleted) := by
  obtain ⟨m, hm⟩ := Option.isSome_iff_exists.mp h.identity
  have hop : readOp v = .carrying m .deleted := by simp [readOp, verdictOf, h.op, hm]
  exact ⟨m, by rw [Projection.shareOp, if_pos ⟨h.share, by simp [h.op]⟩, hop]⟩

theorem filterMap_actsOn (id : String) (entries : List Value) :
    entries.filterMap (actsOn id) = (entries.filterMap (shareOp id)).filterMap ShareOp.verdict := by
  rw [filterMap_filterMap]
  rfl

/-- Once a share is deleted it stays so exactly while no later vote on it decides otherwise. -/
theorem deleted_share_stays_deleted {id : String} {v : Value} (h : WellFormedDelete id v)
    (before after : List Value) :
    shareDeleted (before ++ v :: after) id = true ↔ StaysDeleted id after := by
  obtain ⟨m, hv⟩ := h.shareOp
  have hstate : filesState (before ++ v :: after) id =
      foldOps (some (.deleted (foldIdentity (foldOps none (before.filterMap (shareOp id))) m)))
        (after.filterMap (shareOp id)) := by
    rw [filesState_apply, List.filterMap_append, List.filterMap_cons, hv, foldOps_append]
    rfl
  obtain ⟨q, hq, hdeleted⟩ := foldOps_known
    (.deleted (foldIdentity (foldOps none (before.filterMap (shareOp id))) m))
    (after.filterMap (shareOp id))
  rw [shareDeleted, hstate, hq, Option.any_some, hdeleted, StaysDeleted, filterMap_actsOn]
  cases ((after.filterMap (shareOp id)).filterMap ShareOp.verdict).getLast? <;>
    simp [FileState.isDeleted]

def sampleDelete : Value :=
  .obj [("by", .str "ana"), ("id", .str "000102030405060708090a0b0c0d0e0f"),
    ("name", .str "plan.txt"), ("op", .str "delete"), ("size", .num (.posInt 1000))]

theorem sampleDelete_wellFormed : WellFormedDelete "000102030405060708090a0b0c0d0e0f" sampleDelete where
  share := by decide
  op := by decide
  identity := by decide

theorem deleted_share_stays_deleted_sample :
    shareDeleted ([samplePersist] ++ sampleDelete :: []) "000102030405060708090a0b0c0d0e0f" = true :=
  (deleted_share_stays_deleted sampleDelete_wellFormed [samplePersist] []).mpr
    fun w hw => by simp at hw

/-- The persist vote was open beside the delete and seals behind it. -/
theorem deleted_share_comes_back :
    ¬ (∀ (id : String) (v : Value) (before after : List Value), WellFormedDelete id v →
      shareDeleted (before ++ v :: after) id = true) ∧
    isPersistentShare ([] ++ sampleDelete :: [samplePersist]) "000102030405060708090a0b0c0d0e0f" = true := by
  refine ⟨fun h => ?_, by decide⟩
  have hback := h "000102030405060708090a0b0c0d0e0f" sampleDelete [] [samplePersist]
    sampleDelete_wellFormed
  revert hback
  decide

end Molt.Projection
