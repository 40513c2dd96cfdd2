import Mathlib
import MoltRepublic.Chain.Vaults
import MoltRepublic.Wiki.Base

/-! The two bases a cut commits to, as bytes: one stream for one base, in both formats. -/

namespace Molt.Chain
open Molt.Core Text Json Framing Vault Wiki List

/-- A reader of `decode` takes nothing that begins the encoding or goes on behind it. -/
def TakenWhole {α : Type*} (decode : List UInt8 → Except String α) (encoding : List UInt8) : Prop :=
  ∀ bytes, bytes ≠ encoding → (bytes <+: encoding ∨ encoding <+: bytes) → ∀ a, decode bytes ≠ .ok a

/-- A reader refuses a run of entries whose count asks for more than the stream can hold at
`least` bytes an entry. -/
def CountHeld {α : Type*} (decode : Nat → List UInt8 → Except String α) (least : Nat) : Prop :=
  ∀ count rest, rest.length < least * count → ∀ a, decode count rest ≠ .ok a

def ReadsInside (r : Reader) : Prop :=
  r.rest.length < 2 ^ 64 → r.place ≤ r.rest.length → ∀ (n : Nat) (what : String),
    (r.rest.length < r.place + n → r.take n what = .error s!"{what} overruns the stream" ∧
      takeBytes n what (r.rest.drop r.place) = .error s!"{what} overruns the stream") ∧
    (r.place + n ≤ r.rest.length → ∃ read, takeBytes n what (r.rest.drop r.place) =
      .ok (read, r.rest.drop (r.place + n)) ∧ r.take n what = .ok (read, { r with place := r.place + n }))

theorem readsInside (r : Reader) : ReadsInside r := by
  intro hfits hplace n what
  constructor
  · intro hover
    refine ⟨r.take_overrun n what hover, takeBytes_overrun ?_⟩
    rw [length_drop]
    omega
  · intro hin
    have hread : takeBytes n what (r.rest.drop r.place) =
        .ok ((r.rest.drop r.place).take n, r.rest.drop (r.place + n)) := by
      unfold takeBytes
      rw [if_pos (by rw [length_drop]; omega), drop_drop]
    refine ⟨_, hread, ?_⟩
    rw [r.take_eq n what hfits hplace, hread]
    rfl

/-- Both committed bases have one spelling: the readers undo the writers, take only what the
writers write, nothing cut short or run on, and stay inside the stream. -/
theorem base_formats_canonical {parse : List UInt8 → Option Value}
    (hparse : ∀ op : VaultOp, parse (toVec op.toValue) = some op.toValue) :
    (∀ base : VaultBase, base.Framed → base.Distinct →
      decodeVaultBase parse (vaultBaseCanonicalBytes base) = .ok base.ordered) ∧
    (∀ bytes base, decodeVaultBase parse bytes = .ok base → vaultBaseCanonicalBytes base = bytes) ∧
    (∀ tree : Tree, Wiki.Framed tree →
      wikiBaseFromCanonicalBytes (wikiBaseCanonicalBytes tree) = .ok tree) ∧
    (∀ base : VaultBase, base.Framed →
      TakenWhole (decodeVaultBase parse) (vaultBaseCanonicalBytes base)) ∧
    (∀ tree : Tree, Wiki.Framed tree →
      TakenWhole wikiBaseFromCanonicalBytes (wikiBaseCanonicalBytes tree)) ∧
    (∀ last, CountHeld (fun n => decodeDeposits parse n last) 12) ∧
    (∀ last, CountHeld (fun n => decodeGrants parse n last) 12) ∧
    (∀ tree, CountHeld (fun n => decodeEntries n tree) 8) ∧
    (∀ what (raw rest : List UInt8), raw.length = 4 → rest.length < leValue raw →
      readField what (raw ++ rest) = .error s!"{what} overruns the stream") ∧
    ∀ r, ReadsInside r := by
  refine ⟨fun base hframed hdistinct => decodeVaultBase_ordered hparse hframed hdistinct,
    fun bytes base h => (decodeVaultBase_eq_ok h).1,
    fun tree hframed => wikiBaseFromCanonicalBytes_canonical hframed, ?_, ?_,
    fun last n rest h => decodeDeposits_overrun h, fun last n rest h => decodeGrants_overrun h,
    fun tree n rest h => decodeEntries_overrun h,
    fun what raw rest hraw h => readField_overrun hraw h, readsInside⟩
  · intro base hframed bytes hne hpart a hread
    exact hne (decodeVaultBase_only hframed hread hpart)
  · intro tree hframed bytes hne hpart a hread
    exact hne (wikiBaseFromCanonicalBytes_only hframed hread hpart)

open Sample in
theorem base_formats_canonical_sample :
    decodeVaultBase readRecord (vaultBaseCanonicalBytes ⟨[⟨sampleDeposit, [⟨2, sampleGrant⟩]⟩]⟩) =
        .ok (VaultBase.ordered ⟨[⟨sampleDeposit, [⟨2, sampleGrant⟩]⟩]⟩) ∧
      TakenWhole (decodeVaultBase readRecord)
        (vaultBaseCanonicalBytes ⟨[⟨sampleDeposit, [⟨2, sampleGrant⟩]⟩]⟩) ∧
      wikiBaseFromCanonicalBytes (wikiBaseCanonicalBytes (SortedMap.empty.insert "home.md" "hi")) =
        .ok (SortedMap.empty.insert "home.md" "hi") := by
  have hframed : VaultBase.Framed ⟨[⟨sampleDeposit, [⟨2, sampleGrant⟩]⟩]⟩ :=
    { count := by decide
      fields := by decide +kernel }
  have hdistinct : VaultBase.Distinct ⟨[⟨sampleDeposit, [⟨2, sampleGrant⟩]⟩]⟩ :=
    { slots := by decide
      once := by decide }
  have htree : Wiki.Framed (SortedMap.empty.insert "home.md" "hi") :=
    { count := by decide
      fields := by
        unfold StrFits
        decide }
  obtain ⟨hback, -, hwiki, hwhole, -⟩ := base_formats_canonical readRecord_toVec
  exact ⟨hback _ hframed hdistinct, hwhole _ hframed, hwiki _ htree⟩

end Molt.Chain
