import Mathlib
import MoltRepublic.Core.Slots

/-! The effective relay pool: the founding pool and the `set_relays` edits applied
since, an edit taking effect only when it shares a relay with the pool it replaces. -/

namespace Molt.Projection
open Molt.Core Text Json Guarded List

def foldPoolEdit (pool : List String) (value : String) : List String :=
  let parsed := splitWhitespace value
  if parsed.isEmpty then pool
  else if !pool.isEmpty && !pool.any (fun r => parsed.contains r) then pool
  else parsed

def foldRelayEntry (pool : List String) (v : Value) : List String :=
  if v.getStr "op" = some "set_relays" then foldPoolEdit pool ((v.getStr "value").getD "") else pool

def effectiveRelays (founding : List String) (entries : List Value) : List String :=
  entries.foldl foldRelayEntry founding

def relayEdit (v : Value) : Option (List String) :=
  if v.getStr "op" = some "set_relays" then some (splitWhitespace ((v.getStr "value").getD ""))
  else none

/-- The guard of `fold_pool_edit`: the edit names a relay, and one the pool has. -/
def adoptsPool (pool edit : List String) : Prop :=
  edit ≠ [] ∧ (pool = [] ∨ ∃ r ∈ pool, r ∈ edit)

instance (pool edit : List String) : Decidable (adoptsPool pool edit) :=
  inferInstanceAs (Decidable (_ ∧ _))

theorem adoptsPool_self (pool edit : List String) (h : adoptsPool pool edit) :
    adoptsPool (id edit) edit := by
  obtain ⟨r, hr⟩ := exists_mem_of_ne_nil edit h.1
  exact ⟨h.1, .inr ⟨r, hr, hr⟩⟩

theorem foldPoolEdit_eq_edit (pool : List String) (value : String) :
    foldPoolEdit pool value = edit adoptsPool id pool (splitWhitespace value) := by
  unfold foldPoolEdit edit
  by_cases hadopts : adoptsPool pool (splitWhitespace value)
  · rw [if_pos hadopts]
    obtain ⟨hne, hshare⟩ := hadopts
    have hnotrefused : (!pool.isEmpty && !pool.any
        fun r => (splitWhitespace value).contains r) = false := by
      rcases hshare with rfl | ⟨r, hr, hre⟩
      · rfl
      · have hany : pool.any (fun r => (splitWhitespace value).contains r) = true :=
          any_eq_true.mpr ⟨r, hr, by simpa using hre⟩
        rw [hany, Bool.not_true, Bool.and_false]
    simp only [List.isEmpty_iff, hne, if_false, hnotrefused, Bool.false_eq_true, id]
  · rw [if_neg hadopts]
    simp only [adoptsPool, not_and, not_or, not_exists] at hadopts
    by_cases hempty : splitWhitespace value = []
    · simp [hempty]
    · obtain ⟨hpool, hdisjoint⟩ := hadopts hempty
      have hrefused : (!pool.isEmpty && !pool.any
          fun r => (splitWhitespace value).contains r) = true := by
        simp only [Bool.and_eq_true, Bool.not_eq_true', isEmpty_eq_false_iff, hpool,
          not_false_eq_true, ne_eq, true_and, any_eq_false]
        intro r hr
        simpa using hdisjoint r hr
      simp only [hrefused, if_true, ite_self]

theorem effectiveRelays_eq_run (founding : List String) (entries : List Value) :
    effectiveRelays founding entries =
      run adoptsPool id founding (entries.filterMap relayEdit) := by
  have hstep : ∀ pool v, id (foldRelayEntry pool v) =
      (relayEdit v).elim (id pool) (edit adoptsPool id (id pool)) := by
    intro pool v
    by_cases hop : v.getStr "op" = some "set_relays"
    · simp [foldRelayEntry, relayEdit, hop, foldPoolEdit_eq_edit, id]
    · simp [foldRelayEntry, relayEdit, hop, id]
  exact foldl_eq_run hstep founding entries

def relayEdits (entries : List (UInt64 × Value)) : List (List String) :=
  (payloads entries).filterMap relayEdit

theorem relayEdit_isSome_iff (v : Value) : (relayEdit v).isSome ↔
    appliedLwwSlot .organization v = some "organization.relays" := by
  rw [show appliedLwwSlot .organization v = organizationSlot v from rfl,
    organizationSlot_eq_iff (by decide)]
  unfold relayEdit
  split_ifs with h <;> simp [h]

/-- When the pool survives a cut: no edit lies before it, or the edits before the last
one leave the founding pool standing, or from that last edit on some edit shares a relay
with the pool of the full log and with the pool of the summarized log at that point. -/
def PoolSurvivesCut (founding : List String) (before after : List (UInt64 × Value)) : Prop :=
  SurvivesCut adoptsPool id founding (relayEdits before) (relayEdits after)

theorem effectiveRelays_cut_iff (founding : List String) (before after : List (UInt64 × Value)) :
    effectiveRelays founding (payloads (before ++ after)) =
        effectiveRelays founding (payloads (summarize .organization before ++ after)) ↔
      PoolSurvivesCut founding before after := by
  rw [effectiveRelays_eq_run, effectiveRelays_eq_run, filterMap_payloads_append,
    filterMap_payloads_cut relayEdit_isSome_iff]
  exact run_summary_iff adoptsPool_self founding _ _

def setRelays (value : String) : Value := .obj [("op", .str "set_relays"), ("value", .str value)]

/-- Founded on `a`, moved to `a b`, then to `b`: after the cut only the last edit is left,
and it shares no relay with `a`. -/
theorem effectiveRelays_cut_forgets :
    effectiveRelays ["a"] (payloads ([(1, setRelays "a b"), (2, setRelays "b")] ++ [])) ≠
      effectiveRelays ["a"] (payloads
        (summarize .organization [(1, setRelays "a b"), (2, setRelays "b")] ++ [])) := by
  decide

end Molt.Projection
