import Mathlib
import MoltRepublic.Core.Types
import MoltRepublic.Lib.Summary

/-! How a checkpoint summarizes the applied entries of one surface: a last-write-wins
slot keeps its latest entry, everything else accumulates. -/

namespace Molt.Core
open Text Json List

def isShareSlotId (id : String) : Bool :=
  (utf8 id).length == 32 && (utf8 id).all isAsciiHexdigit

def filesSlot (payload : Value) : Option String :=
  match payload.getStr "op" with
  | some "persist" | some "unpersist" | some "delete" =>
    ((payload.getStr "id").filter isShareSlotId).map ("files." ++ ·)
  | _ => none

def profileMember (payload : Value) : Option String :=
  (payload.getStr "member").filter (· != "")

def organizationSlot (payload : Value) : Option String :=
  match payload.getStr "op" with
  | some "set_name" => some "organization.name"
  | some "set_charter" => some "organization.charter"
  | some "set_chat_retention" => some "organization.retention"
  | some "set_image" | some "remove_image" => some "organization.image"
  | some "set_relays" => some "organization.relays"
  | some "set_member_image" | some "remove_member_image" =>
    (profileMember payload).map ("member.image:" ++ ·)
  | some "set_member_desc" => (profileMember payload).map ("member.desc:" ++ ·)
  | _ => none

def appliedLwwSlot (surface : Surface) (payload : Value) : Option String :=
  match surface with
  | .files => filesSlot payload
  | .organization => organizationSlot payload
  | _ => none

def entrySlot (surface : Surface) (e : UInt64 × Value) : Option String :=
  appliedLwwSlot surface e.2

/-- What `fold_one` does to the list of one surface: `retain` what does not share the
entry's slot, then `push`. -/
def foldEntry (surface : Surface) : List (UInt64 × Value) → UInt64 × Value → List (UInt64 × Value) :=
  Summary.keep (entrySlot surface)

def summarize (surface : Surface) (entries : List (UInt64 × Value)) : List (UInt64 × Value) :=
  entries.foldl (foldEntry surface) []

def payloads (entries : List (UInt64 × Value)) : List Value := entries.map Prod.snd

theorem filterMap_payloads_append {β : Type*} (read : Value → Option β)
    (before after : List (UInt64 × Value)) : (payloads (before ++ after)).filterMap read =
      (payloads before).filterMap read ++ (payloads after).filterMap read := by
  rw [payloads, map_append, filterMap_append]
  rfl

theorem filterMap_payloads_cut {β : Type*} {surface : Surface} {k : String}
    {read : Value → Option β} (hread : ∀ v, (read v).isSome ↔ appliedLwwSlot surface v = some k)
    (before after : List (UInt64 × Value)) :
    (payloads (summarize surface before ++ after)).filterMap read =
      ((payloads before).filterMap read).getLast?.toList ++ (payloads after).filterMap read := by
  rw [filterMap_payloads_append]
  congr 1
  rw [payloads, payloads, filterMap_map, filterMap_map]
  exact Summary.filterMap_summary (fun e : UInt64 × Value => hread e.2) before

theorem profile_slot_ne {p s : String} (hp : p.toList.head? = some 'm')
    (hs : s.toList.head? = some 'o') (m : String) : p ++ m ≠ s := by
  intro h
  have hchars := congrArg (fun t : String => t.toList.head?) h
  simp only [String.toList_append, head?_append, hp, hs, Option.some_or] at hchars
  simp at hchars

theorem organizationSlot_eq_iff {s : String} (hs : s.toList.head? = some 'o') (v : Value) :
    organizationSlot v = some s ↔
      (v.getStr "op" = some "set_name" ∧ s = "organization.name") ∨
      (v.getStr "op" = some "set_charter" ∧ s = "organization.charter") ∨
      (v.getStr "op" = some "set_chat_retention" ∧ s = "organization.retention") ∨
      ((v.getStr "op" = some "set_image" ∨ v.getStr "op" = some "remove_image") ∧
        s = "organization.image") ∨
      (v.getStr "op" = some "set_relays" ∧ s = "organization.relays") := by
  have himage := profile_slot_ne (p := "member.image:") (by decide) hs
  have hdesc := profile_slot_ne (p := "member.desc:") (by decide) hs
  unfold organizationSlot
  split <;> rename_i hop
  all_goals first
    | simp [hop, himage, hdesc, eq_comm]; done
    | simp_all

theorem profile_slot_inj {p m n : String} (h : p ++ m = p ++ n) : m = n := by
  apply String.toList_inj.mp
  have := congrArg String.toList h
  simpa using this

theorem image_slot_ne_desc_slot (m n : String) : "member.image:" ++ m ≠ "member.desc:" ++ n := by
  intro h
  have hchars := congrArg (fun t : String => t.toList[7]?) h
  simp [String.toList_append] at hchars

theorem organizationSlot_eq_image_iff (v : Value) (m : String) :
    organizationSlot v = some ("member.image:" ++ m) ↔ profileMember v = some m ∧
      (v.getStr "op" = some "set_member_image" ∨ v.getStr "op" = some "remove_member_image") := by
  have hown : ∀ s : String, s.toList.head? = some 'o' → s ≠ "member.image:" ++ m :=
    fun s hs => (profile_slot_ne (by decide) hs m).symm
  have hdesc := fun n => (image_slot_ne_desc_slot m n).symm
  have hinj : ∀ n, "member.image:" ++ n = "member.image:" ++ m ↔ n = m :=
    fun n => ⟨profile_slot_inj, fun h => h ▸ rfl⟩
  unfold organizationSlot
  split <;> rename_i hop
  all_goals first
    | simp [hop, hinj, hdesc]; done
    | simp [hop]; exact hown _ (by decide)
    | simp_all

theorem organizationSlot_eq_desc_iff (v : Value) (m : String) :
    organizationSlot v = some ("member.desc:" ++ m) ↔ profileMember v = some m ∧
      v.getStr "op" = some "set_member_desc" := by
  have hown : ∀ s : String, s.toList.head? = some 'o' → s ≠ "member.desc:" ++ m :=
    fun s hs => (profile_slot_ne (by decide) hs m).symm
  have himage := fun n => image_slot_ne_desc_slot n m
  have hinj : ∀ n, "member.desc:" ++ n = "member.desc:" ++ m ↔ n = m :=
    fun n => ⟨profile_slot_inj, fun h => h ▸ rfl⟩
  unfold organizationSlot
  split <;> rename_i hop
  all_goals first
    | simp [hop, hinj, himage]; done
    | simp [hop]; exact hown _ (by decide)
    | simp_all

end Molt.Core
