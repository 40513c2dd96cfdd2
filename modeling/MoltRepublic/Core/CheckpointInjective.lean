import Mathlib
import MoltRepublic.Core.Bytes
import MoltRepublic.Core.JsonInjective

/-! The checkpoint layouts determine the state they were written from. The tag fixes
the layout; below v8 the groups are not counted, and what closes their run is that no
group begins with the four zero bytes a count below `2^32` has. -/

namespace Molt.Core
open Text Json Framing List

def StrFits (s : String) : Prop := (utf8 s).length < 2 ^ 32

def ListFits {α : Type*} (P : α → Prop) (l : List α) : Prop := l.length < 2 ^ 32 ∧ ∀ x ∈ l, P x

def IdentityFits (i : MemberIdentity) : Prop :=
  StrFits i.member ∧ StrFits i.identityPk ∧ StrFits i.nostrPk ∧ StrFits i.vaultPk

instance : DecidablePred StrFits := fun _ => inferInstanceAs (Decidable (_ < _))

instance {α : Type*} {P : α → Prop} [DecidablePred P] : DecidablePred (ListFits P) :=
  fun _ => inferInstanceAs (Decidable (_ ∧ _))

instance : DecidablePred IdentityFits := fun _ => inferInstanceAs (Decidable (_ ∧ _))

/-- Every list has fewer than `2^32` entries and every string fewer than `2^32` bytes. -/
structure CheckpointState.Fits (s : CheckpointState) : Prop where
  foundingName : StrFits s.foundingName
  foundingIdentities : ListFits IdentityFits s.foundingIdentities
  agenda : StrFits s.agenda
  relays : ListFits StrFits s.relays
  foundingFeatures : ∀ f, s.foundingFeatures = some f → ListFits StrFits f
  republicId : StrFits s.republicId
  roster : ListFits IdentityFits s.roster
  applied : ListFits (fun g => g.2.length < 2 ^ 32) s.applied
  consumedIds : s.consumedIds.length < 2 ^ 32
  anchors : ListFits (fun p => StrFits p.1 ∧ StrFits p.2) s.anchors
  memberRelays : ListFits (fun p => StrFits p.1 ∧ ListFits StrFits p.2) s.memberRelays

/-- `put_bytes` frames every payload of the state: beyond it there are no bytes, the
source panics. -/
def CheckpointState.PayloadsFramed (s : CheckpointState) : Prop :=
  ∀ g ∈ s.applied, ∀ e ∈ g.2, (toVec e.2).length < 2 ^ 32

theorem putBytes_delimited : Delimited (fun b => b.length < 2 ^ 32) putBytes := by
  intro a b r s ha hb h
  simp only [putBytes, append_assoc] at h
  obtain ⟨hlen, hrest⟩ := leBytes_delimited 4 (by simpa using ha) (by simpa using hb) h
  exact append_inj hrest hlen

theorem putStr_delimited : Delimited StrFits putStr := by
  intro a b r s ha hb h
  obtain ⟨hab, hrs⟩ := putBytes_delimited ha hb h
  exact ⟨utf8_injective hab, hrs⟩

theorem putU64_delimited : Delimited (fun _ => True) putU64 := by
  intro a b r s _ _ h
  obtain ⟨hab, hrs⟩ := leBytes_delimited 8 a.toNat_lt b.toNat_lt h
  exact ⟨UInt64.toNat_inj.mp hab, hrs⟩

theorem putLen_delimited : Delimited (fun n => n < 2 ^ 32) putLen :=
  (leBytes_delimited 8).mono fun _ h => lt_trans h (by decide)

theorem putJson_delimited : Delimited (fun v => (toVec v).length < 2 ^ 32)
    fun v => putBytes (toVec v) := by
  intro a b r s ha hb h
  obtain ⟨hab, hrs⟩ := putBytes_delimited ha hb h
  exact ⟨toVec_injective hab, hrs⟩

theorem putList_delimited {α : Type*} {P : α → Prop} {e : α → List UInt8} (h : Delimited P e) :
    Delimited (ListFits P) fun l => putLen l.length ++ l.flatMap e :=
  putLen_delimited.counted h

theorem putStrs_delimited : Delimited (ListFits StrFits) putStrs :=
  putList_delimited putStr_delimited

theorem putIdentity_delimited (keyed : Bool) :
    Delimited (fun i => IdentityFits i ∧ (keyed = false → i.vaultPk = "")) (putIdentity keyed) := by
  intro a b r s ha hb h
  obtain ⟨⟨ham, hai, han, hav⟩, hak⟩ := ha
  obtain ⟨⟨hbm, hbi, hbn, hbv⟩, hbk⟩ := hb
  simp only [putIdentity, append_assoc] at h
  obtain ⟨hm, h⟩ := putStr_delimited ham hbm h
  obtain ⟨hi, h⟩ := putStr_delimited hai hbi h
  obtain ⟨hn, h⟩ := putStr_delimited han hbn h
  obtain ⟨hv, hrs⟩ : a.vaultPk = b.vaultPk ∧ r = s := by
    cases keyed with
    | true => exact putStr_delimited hav hbv (by simpa using h)
    | false => exact ⟨(hak rfl).trans (hbk rfl).symm, by simpa using h⟩
  cases a; cases b
  simp only at hm hi hn hv
  exact ⟨by rw [hm, hi, hn, hv], hrs⟩

theorem putIdentities_delimited (vault : Bool) :
    Delimited (ListFits fun i => IdentityFits i ∧ (vault = false → i.vaultPk = ""))
      (putIdentities vault) :=
  putList_delimited (putIdentity_delimited vault)

theorem putEntry_delimited : Delimited (fun e => (toVec e.2).length < 2 ^ 32) putEntry := by
  have h := Delimited.pair (p := fun e : UInt64 × Value => e.1) (q := fun e => e.2)
    putU64_delimited putJson_delimited fun a b h₁ h₂ => Prod.ext h₁ h₂
  exact h.mono fun _ he => ⟨trivial, he⟩

theorem asStr_fits (s : Surface) : StrFits s.asStr := by
  cases s <;> decide

def GroupFits (g : Group) : Prop := ListFits (fun e => (toVec e.2).length < 2 ^ 32) g.2

theorem putGroup_delimited : Delimited GroupFits putGroup := by
  intro a b r s ha hb h
  simp only [putGroup, append_assoc] at h
  obtain ⟨hkey, h⟩ := putStr_delimited (asStr_fits a.1) (asStr_fits b.1) h
  obtain ⟨hentries, hrs⟩ := putList_delimited putEntry_delimited ha hb (by simpa using h)
  exact ⟨Prod.ext (Surface.asStr_injective hkey) hentries, hrs⟩

theorem putGroup_ne_putLen {g : Group} {n : Nat} (hn : n < 2 ^ 32) (r s : List UInt8) :
    putGroup g ++ r ≠ putLen n ++ s := by
  intro h
  have hcount : (putLen n ++ s)[4]? = some 0 := by
    have hzero : n / 256 / 256 / 256 / 256 = 0 := by omega
    simp [putLen, leBytes, hzero]
  obtain ⟨sf, entries⟩ := g
  have hkey : (putGroup (sf, entries) ++ r)[4]? ≠ some 0 := by
    cases sf <;> simp only [putGroup, append_assoc] <;>
      rw [getElem?_append_left (by decide)] <;> decide
  exact hkey (h ▸ hcount)

def layoutDigit (vault folded wide features : Bool) : UInt8 :=
  if vault then 49 else if folded then 57 else if wide then 56 else if features then 55 else 54

theorem layoutTag_digit (s : CheckpointState) (r : List UInt8) : (s.layoutTag ++ r)[23]? =
    some (layoutDigit s.vault s.folded s.wide s.foundingFeatures.isSome) := by
  unfold CheckpointState.layoutTag layoutDigit
  split_ifs <;> rw [getElem?_append_left (by decide)] <;> decide

theorem layoutDigit_read (vault folded wide features : Bool) (h : (folded || vault) ≤ wide) :
    let d := layoutDigit vault folded wide features
    vault = (d == 49) ∧ wide = (d == 49 || d == 57 || d == 56) ∧
      (vault = false → folded = (d == 57)) ∧ (wide = false → features = (d == 55)) := by
  revert h
  cases vault <;> cases folded <;> cases wide <;> cases features <;> decide

theorem CheckpointState.folded_or_vault_le_wide (s : CheckpointState) :
    (s.folded || s.vault) ≤ s.wide := by
  unfold CheckpointState.wide
  cases s.hasLaterGroup <;> cases s.folded <;> cases s.vault <;> decide

variable {s : CheckpointState}

theorem layoutTag_congr {t : CheckpointState} (hvault : s.vault = t.vault)
    (hfolded : s.vault = false → s.folded = t.folded) (hwide : s.wide = t.wide)
    (hfeatures : s.wide = false → s.foundingFeatures.isSome = t.foundingFeatures.isSome) :
    s.layoutTag = t.layoutTag := by
  unfold CheckpointState.layoutTag
  cases hv : s.vault with
  | true => simp [← hvault, hv]
  | false =>
    cases hw : s.wide with
    | true => simp [← hvault, hv, ← hfolded hv, ← hwide, hw]
    | false => simp [← hvault, hv, ← hfolded hv, ← hwide, hw, hfeatures hw]

theorem layoutTag_delimited {t : CheckpointState} {r u : List UInt8} (h : s.layoutTag ++ r = t.layoutTag ++ u) :
    s.vault = t.vault ∧ s.wide = t.wide ∧
      (s.wide = false → s.foundingFeatures.isSome = t.foundingFeatures.isSome) ∧ r = u := by
  have hdigit := layoutTag_digit s r
  rw [h, layoutTag_digit t u, Option.some.injEq] at hdigit
  obtain ⟨hv, hw, hf, hi⟩ := layoutDigit_read _ _ _ _ s.folded_or_vault_le_wide
  obtain ⟨hv', hw', hf', hi'⟩ := layoutDigit_read _ _ _ _ t.folded_or_vault_le_wide
  rw [← hdigit] at hv hw hf hi
  have hvault : s.vault = t.vault := hv.trans hv'.symm
  have hwide : s.wide = t.wide := hw.trans hw'.symm
  have hfeatures : s.wide = false → s.foundingFeatures.isSome = t.foundingFeatures.isSome :=
    fun h => (hi h).trans (hi' (hwide ▸ h)).symm
  have hfolded : s.vault = false → s.folded = t.folded :=
    fun h => (hf h).trans (hf' (hvault ▸ h)).symm
  have htag := layoutTag_congr hvault hfolded hwide hfeatures
  exact ⟨hvault, hwide, hfeatures, append_cancel_left (htag ▸ h)⟩

theorem groups_delimited {wide : Bool} {gs hs : List Group} {ids jds : List UInt64}
    {r s : List UInt8} (hgs : ListFits GroupFits gs) (hhs : ListFits GroupFits hs)
    (hids : ids.length < 2 ^ 32) (hjds : jds.length < 2 ^ 32)
    (h : (if wide then putLen gs.length else []) ++ (gs.flatMap putGroup ++
        ((putLen ids.length ++ ids.flatMap putU64) ++ r)) =
      (if wide then putLen hs.length else []) ++ (hs.flatMap putGroup ++
        ((putLen jds.length ++ jds.flatMap putU64) ++ s))) :
    gs = hs ∧ ids = jds ∧ r = s := by
  have hrest : gs = hs ∧ (putLen ids.length ++ ids.flatMap putU64) ++ r =
      (putLen jds.length ++ jds.flatMap putU64) ++ s := by
    cases wide with
    | true =>
      exact putList_delimited putGroup_delimited hgs hhs (by simpa [append_assoc] using h)
    | false =>
      refine putGroup_delimited.run_until (T := fun l => ∃ n u, n < 2 ^ 32 ∧ l = putLen n ++ u)
        ?_ hgs.2 hhs.2 ⟨_, _, hids, append_assoc ..⟩ ⟨_, _, hjds, append_assoc ..⟩
        (by simpa using h)
      rintro g r _ _ ⟨n, u, hn, rfl⟩
      exact putGroup_ne_putLen hn r u
  obtain ⟨hg, hrest⟩ := hrest
  obtain ⟨hi, hrs⟩ := putList_delimited putU64_delimited ⟨hids, fun _ _ => trivial⟩
    ⟨hjds, fun _ _ => trivial⟩ hrest
  exact ⟨hg, hi, hrs⟩

theorem features_delimited {wide : Bool} {f g : Option (List String)} {r s : List UInt8}
    (hf : ∀ l, f = some l → ListFits StrFits l) (hg : ∀ l, g = some l → ListFits StrFits l)
    (hnarrow : wide = false → f.isSome = g.isSome)
    (h : (if wide then [if f.isSome then (1 : UInt8) else 0] else []) ++
        (putFeatures f ++ r) =
      (if wide then [if g.isSome then (1 : UInt8) else 0] else []) ++
        (putFeatures g ++ s)) :
    f = g ∧ r = s := by
  have hsome : f.isSome = g.isSome := by
    cases wide with
    | true => cases f <;> cases g <;> first | rfl | simp at h
    | false => exact hnarrow rfl
  have hrest : putFeatures f ++ r = putFeatures g ++ s := by
    rw [hsome] at h
    exact append_cancel_left h
  cases f with
  | none =>
    cases g with
    | none => exact ⟨rfl, hrest⟩
    | some m => simp at hsome
  | some l =>
    cases g with
    | none => simp at hsome
    | some m =>
      obtain ⟨rfl, hrs⟩ := putStrs_delimited (hf l rfl) (hg m rfl) hrest
      exact ⟨rfl, hrs⟩

theorem CheckpointState.identities_fit {l : List MemberIdentity} (hl : l ⊆ s.foundingIdentities ++ s.roster)
    (h : ListFits IdentityFits l) :
    ListFits (fun i => IdentityFits i ∧ (s.vault = false → i.vaultPk = "")) l := by
  refine ⟨h.1, fun i hi => ⟨h.2 i hi, fun hv => ?_⟩⟩
  have := any_eq_false.mp hv i (hl hi)
  simpa using this

theorem CheckpointState.groups_fit (h : s.Fits) (hp : s.PayloadsFramed) :
    ListFits GroupFits s.applied :=
  ⟨h.applied.1, fun g hg => ⟨h.applied.2 g hg, hp g hg⟩⟩

theorem checkpointCanonicalBytes_injective {s t : CheckpointState} (hs : s.Fits) (ht : t.Fits)
    (hsp : s.PayloadsFramed) (htp : t.PayloadsFramed)
    (h : checkpointCanonicalBytes s = checkpointCanonicalBytes t) : s = t := by
  obtain ⟨hvault, hwide, hnarrow, h⟩ := layoutTag_delimited h
  rw [← hvault, ← hwide] at h
  have hfs := s.identities_fit (List.subset_append_left ..) hs.foundingIdentities
  have hft := t.identities_fit (List.subset_append_left ..) ht.foundingIdentities
  have hrs := s.identities_fit (List.subset_append_right ..) hs.roster
  have hrt := t.identities_fit (List.subset_append_right ..) ht.roster
  rw [← hvault] at hft hrt
  obtain ⟨hrid, h⟩ := putStr_delimited hs.republicId ht.republicId h
  obtain ⟨hname, h⟩ := putStr_delimited hs.foundingName ht.foundingName h
  simp only [List.cons.injEq] at h
  obtain ⟨hm, hn, h⟩ := h
  obtain ⟨hfounding, h⟩ := putIdentities_delimited _ hfs hft h
  obtain ⟨hagenda, h⟩ := putStr_delimited hs.agenda ht.agenda h
  obtain ⟨hrelays, h⟩ := putStrs_delimited hs.relays ht.relays h
  obtain ⟨hfeatures, h⟩ := features_delimited hs.foundingFeatures ht.foundingFeatures hnarrow h
  obtain ⟨hroster, h⟩ := putIdentities_delimited _ hrs hrt h
  obtain ⟨happlied, hids, h⟩ := groups_delimited (s.groups_fit hs hsp) (t.groups_fit ht htp)
    hs.consumedIds ht.consumedIds h
  obtain ⟨hanchors, h⟩ := putList_delimited (putStr_delimited.pair putStr_delimited
    fun _ _ => Prod.ext) hs.anchors ht.anchors h
  obtain ⟨hledger, h⟩ := putList_delimited (putStr_delimited.pair putStrs_delimited
    fun _ _ => Prod.ext) hs.memberRelays ht.memberRelays h
  have hupto := putU64_delimited.injective trivial trivial h
  exact CheckpointState.ext hname hm hn hfounding hagenda hrelays hfeatures hrid hroster
    happlied hids hanchors hledger hupto

def sampleState : CheckpointState where
  foundingName := "molt"
  ruleM := 2
  ruleN := 2
  foundingIdentities := [⟨"ana", "aa", "cc", "ee"⟩, ⟨"bo", "bb", "dd", "ff"⟩]
  agenda := "charter"
  relays := ["wss://one", "wss://two"]
  foundingFeatures := some []
  republicId := "00"
  roster := [⟨"ana", "aa", "cc", "ee"⟩, ⟨"bo", "bb", "dd", "ff"⟩]
  applied := [(.memory, [(0, .obj [("op", .str "wiki_base")])]), (.files, [(7, .null)]), (.chat, [])]
  consumedIds := [7]
  anchors := [("bo", "d0")]
  memberRelays := [("bo", ["wss://two"])]
  upto := 4

theorem sampleState_bytes_determine : sampleState.Fits ∧ sampleState.PayloadsFramed ∧
    sampleState = { sampleState with applied := sampleState.applied } := by
  have hfits : sampleState.Fits := by
    refine ⟨?_, ?_, ?_, ?_, ?_, ?_, ?_, ?_, ?_, ?_, ?_⟩
    case refine_5 => rintro _ ⟨⟩; decide
    all_goals decide
  have hframed : sampleState.PayloadsFramed := by
    unfold CheckpointState.PayloadsFramed
    decide
  exact ⟨hfits, hframed, checkpointCanonicalBytes_injective hfits hfits hframed hframed rfl⟩

end Molt.Core
