import Mathlib
import MoltRepublic.Core.CheckpointInjective

/-! The bytes members sign and the bytes a block is linked by determine what they were
written from: the change at its height, the founding table, the signatures of a block. -/

namespace Molt.Core
open Text Json Framing List

def OptionFits (o : Option String) : Prop := ∀ s, o = some s → StrFits s

/-- Every string and every list of the table is below `2^32`. -/
structure Genesis.Fits (g : Genesis) : Prop where
  republicId : StrFits g.republicId
  identities : ListFits IdentityFits g.identities
  agenda : StrFits g.agenda
  relays : ListFits StrFits g.relays
  features : ∀ f, g.features = some f → ListFits StrFits f

structure Membership.Fits (m : Membership) : Prop where
  member : StrFits m.member
  identityPk : StrFits m.identityPk
  nostrPk : OptionFits m.nostrPk
  relays : ListFits StrFits m.relays
  consent : OptionFits m.consent

def ChainChange.Fits : ChainChange → Prop
  | .genesis g => g.Fits
  | .applied _ _ payload => (toVec payload).length < 2 ^ 32
  | .membership m => m.Fits
  | .checkpoint _ hash => StrFits hash
  | .checkpointFolded _ hash => StrFits hash
  | .checkpointVault _ hash _ => StrFits hash

def ChainChange.isGenesis : ChainChange → Bool
  | .genesis _ => true
  | _ => false

theorem putCounted_delimited {α : Type*} {P : α → Prop} {e : α → List UInt8}
    (h : Delimited P e) :
    Delimited (ListFits P) fun l => putCount l.length ++ l.flatMap e := by
  have hcount : Delimited (fun n => n < 2 ^ 32) putCount :=
    (leBytes_delimited 4).mono fun _ hn => lt_of_lt_of_le hn (by decide)
  exact hcount.counted h

theorem putOptional_delimited : Delimited OptionFits putOptional := by
  intro a b r s ha hb h
  cases a with
  | none =>
    cases b with
    | none => exact ⟨rfl, by simpa [putOptional] using h⟩
    | some y => simp [putOptional] at h
  | some x =>
    cases b with
    | none => simp [putOptional] at h
    | some y =>
      simp only [putOptional, cons_append, List.cons.injEq, true_and] at h
      obtain ⟨hxy, hrs⟩ := putStr_delimited (ha x rfl) (hb y rfl) h
      exact ⟨congrArg some hxy, hrs⟩

def putDeclaration (relays : List String) : List UInt8 :=
  if relays.isEmpty then [] else 1 :: (putLen relays.length ++ relays.flatMap putStr)

def putConsent : Option String → List UInt8
  | some c => 2 :: putStr c
  | none => []

theorem putConsent_injective {c d : Option String} (hc : OptionFits c) (hd : OptionFits d)
    (h : putConsent c = putConsent d) : c = d := by
  cases c with
  | none =>
    cases d with
    | none => rfl
    | some y => simp [putConsent] at h
  | some x =>
    cases d with
    | none => simp [putConsent] at h
    | some y =>
      simp only [putConsent, List.cons.injEq, true_and] at h
      exact congrArg some (putStr_delimited.injective (hc x rfl) (hd y rfl) h)

theorem putConsent_head (c : Option String) (r : List UInt8) : putConsent c ≠ 1 :: r := by
  cases c <;> simp [putConsent]

theorem extensions_injective {relays relays' : List String} {c c' : Option String}
    (hr : ListFits StrFits relays) (hr' : ListFits StrFits relays') (hc : OptionFits c)
    (hc' : OptionFits c')
    (h : putDeclaration relays ++ putConsent c = putDeclaration relays' ++ putConsent c') :
    relays = relays' ∧ c = c' := by
  cases relays with
  | nil =>
    cases relays' with
    | nil => exact ⟨rfl, putConsent_injective hc hc' (by simpa [putDeclaration] using h)⟩
    | cons y ys => exact absurd h (putConsent_head c _)
  | cons x xs =>
    cases relays' with
    | nil => exact absurd h.symm (putConsent_head c' _)
    | cons y ys =>
      simp only [putDeclaration, isEmpty_cons, Bool.false_eq_true, if_false,
        cons_append, List.cons.injEq, true_and] at h
      obtain ⟨hlist, hrest⟩ := putStrs_delimited hr hr' h
      exact ⟨hlist, putConsent_injective hc hc' hrest⟩

theorem Membership.body_eq (m : Membership) : m.body =
    (match m.op with | .joined => 0 | .restored => 1) :: (putStr m.member ++
      (putStr m.identityPk ++ (putOptional m.nostrPk ++
        (putDeclaration m.relays ++ putConsent m.consent)))) := by
  obtain ⟨op, member, key, nostr, relays, consent⟩ := m
  cases op <;> cases consent <;> simp [Membership.body, putDeclaration, putConsent]

theorem Membership.body_injective {m m' : Membership} (hm : m.Fits) (hm' : m'.Fits)
    (h : m.body = m'.body) : m = m' := by
  rw [m.body_eq, m'.body_eq, List.cons.injEq] at h
  obtain ⟨hop, h⟩ := h
  obtain ⟨hmember, h⟩ := putStr_delimited hm.member hm'.member h
  obtain ⟨hkey, h⟩ := putStr_delimited hm.identityPk hm'.identityPk h
  obtain ⟨hnostr, h⟩ := putOptional_delimited hm.nostrPk hm'.nostrPk h
  obtain ⟨hrelays, hconsent⟩ := extensions_injective hm.relays hm'.relays hm.consent hm'.consent h
  have hops : m.op = m'.op := by
    cases ha : m.op <;> cases hb : m'.op <;> first | rfl | simp [ha, hb] at hop
  cases m
  cases m'
  simp only at hops hmember hkey hnostr hrelays hconsent
  rw [hops, hmember, hkey, hnostr, hrelays, hconsent]

theorem putCut_injective {upto upto' : UInt64} {hash hash' : String} (hh : StrFits hash)
    (hh' : StrFits hash') (h : putU64 upto ++ putStr hash = putU64 upto' ++ putStr hash') :
    upto = upto' ∧ hash = hash' := by
  obtain ⟨hupto, h⟩ := putU64_delimited trivial trivial h
  exact ⟨hupto, putStr_delimited.injective hh hh' h⟩

variable {c : ChainChange}

theorem ChainChange.body_injective {d : ChainChange} (hc : c.Fits) (hd : d.Fits) (hcg : c.isGenesis = false)
    (hdg : d.isGenesis = false) (h : c.body = d.body) : c = d := by
  have hhead := congrArg List.head? h
  cases c <;> cases d <;>
    first
    | (simp [ChainChange.isGenesis] at hcg; done)
    | (simp [ChainChange.isGenesis] at hdg; done)
    | (simp [ChainChange.body] at hhead; done)
    | simp only [ChainChange.body, List.cons.injEq, true_and] at h
  case applied.applied id sf v id' sf' v' =>
    obtain ⟨hid, h⟩ := putU64_delimited trivial trivial h
    obtain ⟨hsf, h⟩ := putStr_delimited (asStr_fits _) (asStr_fits _) h
    have hv := putJson_delimited.injective hc hd h
    rw [hid, Surface.asStr_injective hsf, hv]
  case membership.membership m m' => rw [Membership.body_injective hc hd h]
  case checkpoint.checkpoint upto hash upto' hash' =>
    obtain ⟨hupto, hhash⟩ := putCut_injective hc hd h
    rw [hupto, hhash]
  case checkpointFolded.checkpointFolded upto hash upto' hash' =>
    obtain ⟨hupto, hhash⟩ := putCut_injective hc hd h
    rw [hupto, hhash]
  case checkpointVault.checkpointVault upto hash folded upto' hash' folded' =>
    obtain ⟨hfold, h⟩ := h
    obtain ⟨hupto, hhash⟩ := putCut_injective hc hd h
    have hfolded : folded = folded' := by
      cases folded <;> cases folded' <;> first | rfl | simp at hfold
    rw [hupto, hhash, hfolded]

def changeTag : List UInt8 := tag "molt-chain-change-v2"

theorem approvalBytes_eq {rid : String} {height : UInt64} (hc : c.isGenesis = false) : approvalBytes rid height c =
      changeTag ++ (putStr rid ++ (putU64 height ++ c.body)) := by
  cases c <;> simp_all [approvalBytes, changeTag, ChainChange.isGenesis]

theorem approvalBytes_injective {rid rid' : String} {height height' : UInt64} {c' : ChainChange}
    (hrid : StrFits rid) (hrid' : StrFits rid') (hc : c.Fits) (hc' : c'.Fits) (hcg : c.isGenesis = false)
    (hcg' : c'.isGenesis = false) (h : approvalBytes rid height c = approvalBytes rid' height' c') :
    rid = rid' ∧ height = height' ∧ c = c' := by
  rw [approvalBytes_eq hcg, approvalBytes_eq hcg'] at h
  have h := append_cancel_left h
  obtain ⟨hr, h⟩ := putStr_delimited hrid hrid' h
  obtain ⟨hh, h⟩ := putU64_delimited trivial trivial h
  exact ⟨hr, hh, ChainChange.body_injective hc hc' hcg hcg' h⟩

namespace Genesis

def keyed (g : Genesis) : Bool := g.identities.any fun m => m.vaultPk != ""

def signedFeatures (g : Genesis) : Option (List String) :=
  g.features.or (if g.keyed then some [] else none)

def rosterTag (g : Genesis) : List UInt8 :=
  if g.keyed then tag "molt-roster-v6"
  else if g.features.isSome then tag "molt-roster-v5" else tag "molt-roster-v4"

def putSignedFeatures (g : Genesis) : List UInt8 :=
  match g.signedFeatures with
  | some f => putCount f.length ++ f.flatMap putStr
  | none => []

variable (g : Genesis)

theorem rosterBytes_eq : g.rosterBytes =
    g.rosterTag ++ (putStr g.republicId ++ (g.ruleM :: g.ruleN ::
      ((putCount g.identities.length ++ g.identities.flatMap (putIdentity g.keyed)) ++
        (putStr g.agenda ++ ((putCount g.relays.length ++ g.relays.flatMap putStr) ++
          g.putSignedFeatures))))) := by
  simp only [rosterBytes, rosterCanonicalBytes, rosterTag, keyed, putSignedFeatures,
    signedFeatures, append_assoc, cons_append, nil_append]
  rfl

theorem rosterTag_length : g.rosterTag.length = 15 := by
  unfold rosterTag
  split_ifs <;> decide

def rosterDigit (keyed features : Bool) : UInt8 :=
  if keyed then 54 else if features then 53 else 52

theorem rosterTag_digit :
    g.rosterTag[13]? = some (rosterDigit g.keyed g.features.isSome) := by
  unfold rosterTag rosterDigit
  split_ifs <;> decide

theorem rosterTag_read {g g' : Genesis} (h : g.rosterTag = g'.rosterTag) :
    g.keyed = g'.keyed ∧ g.signedFeatures.isSome = g'.signedFeatures.isSome := by
  have hread : ∀ k f k' f' : Bool, rosterDigit k f = rosterDigit k' f' →
      k = k' ∧ (f || k) = (f' || k') := by decide
  have hsigned : ∀ g : Genesis, g.signedFeatures.isSome = (g.features.isSome || g.keyed) := by
    intro g
    unfold signedFeatures
    cases g.keyed <;> cases g.features <;> rfl
  have hdigit := g.rosterTag_digit
  rw [h, g'.rosterTag_digit, Option.some.injEq] at hdigit
  rw [hsigned, hsigned]
  exact hread _ _ _ _ hdigit.symm

theorem Fits.identitiesKeyed {g : Genesis} (hg : g.Fits) :
    ListFits (fun i => IdentityFits i ∧ (g.keyed = false → i.vaultPk = "")) g.identities := by
  refine ⟨hg.identities.1, fun i hi => ⟨hg.identities.2 i hi, fun hk => ?_⟩⟩
  have hplain := any_eq_false.mp hk i hi
  simpa using hplain

theorem Fits.signedFeatures {g : Genesis} (hg : g.Fits) :
    ∀ f, g.signedFeatures = some f → ListFits StrFits f := by
  intro f hf
  cases hfeat : g.features with
  | some l =>
    have : l = f := by simpa [Genesis.signedFeatures, hfeat] using hf
    exact this ▸ hg.features l hfeat
  | none =>
    have : f = [] := by
      simp only [Genesis.signedFeatures, hfeat, Option.none_or] at hf
      split_ifs at hf
      exact (Option.some.inj hf).symm
    subst this
    exact ⟨by decide, by simp⟩

theorem putSignedFeatures_injective {g g' : Genesis} (hg : g.Fits) (hg' : g'.Fits)
    (hsome : g.signedFeatures.isSome = g'.signedFeatures.isSome)
    (h : g.putSignedFeatures = g'.putSignedFeatures) : g.signedFeatures = g'.signedFeatures := by
  unfold putSignedFeatures at h
  cases hf : g.signedFeatures with
  | none =>
    cases hf' : g'.signedFeatures with
    | none => rfl
    | some f' => simp [hf, hf'] at hsome
  | some f =>
    cases hf' : g'.signedFeatures with
    | none => simp [hf, hf'] at hsome
    | some f' =>
      simp only [hf, hf'] at h
      have heq := (putCounted_delimited putStr_delimited).injective (hg.signedFeatures f hf)
        (hg'.signedFeatures f' hf') h
      rw [heq]

structure SameTable (g g' : Genesis) : Prop where
  republicId : g.republicId = g'.republicId
  ruleM : g.ruleM = g'.ruleM
  ruleN : g.ruleN = g'.ruleN
  identities : g.identities = g'.identities
  agenda : g.agenda = g'.agenda
  relays : g.relays = g'.relays
  features : g.signedFeatures = g'.signedFeatures

theorem rosterBytes_injective {g g' : Genesis} (hg : g.Fits) (hg' : g'.Fits)
    (h : g.rosterBytes = g'.rosterBytes) : g.SameTable g' := by
  rw [rosterBytes_eq, rosterBytes_eq] at h
  obtain ⟨htag, h⟩ := append_inj h (g.rosterTag_length.trans g'.rosterTag_length.symm)
  obtain ⟨hkeyed, hsome⟩ := rosterTag_read htag
  have hids := hg.identitiesKeyed
  rw [hkeyed] at h hids
  obtain ⟨hrid, h⟩ := putStr_delimited hg.republicId hg'.republicId h
  simp only [List.cons.injEq] at h
  obtain ⟨hm, hn, h⟩ := h
  obtain ⟨hidentities, h⟩ :=
    putCounted_delimited (putIdentity_delimited _) hids hg'.identitiesKeyed h
  obtain ⟨hagenda, h⟩ := putStr_delimited hg.agenda hg'.agenda h
  obtain ⟨hrelays, h⟩ := putCounted_delimited putStr_delimited hg.relays hg'.relays h
  exact ⟨hrid, hm, hn, hidentities, hagenda, hrelays, putSignedFeatures_injective hg hg' hsome h⟩

end Genesis

theorem changeTag_ne_rosterTag (g : Genesis) (r s : List UInt8) :
    g.rosterTag ++ r ≠ changeTag ++ s := by
  apply tag_ne_tag <;> unfold Genesis.rosterTag changeTag <;> split_ifs <;> decide

theorem genesis_ne_change (rid rid' : String) (height height' : UInt64) (g : Genesis)
    (hc : c.isGenesis = false) :
    approvalBytes rid height (.genesis g) ≠ approvalBytes rid' height' c := by
  have hg : approvalBytes rid height (.genesis g) = g.rosterBytes := rfl
  rw [hg, g.rosterBytes_eq, approvalBytes_eq hc]
  exact changeTag_ne_rosterTag g _ _

/-- The fields `block_link_bytes` frames: the link, the signed bytes, the signatures. -/
structure ChainBlock.Fits (rid : String) (b : ChainBlock) : Prop where
  prev : StrFits b.prev
  change : b.change.Fits
  signed : (approvalBytes rid b.height b.change).length < 2 ^ 32
  sigs : ∀ a ∈ b.sigs, StrFits a.member ∧ StrFits a.sig

def sigPair (a : RosterAttestation) : String × String := (a.member, a.sig)

def putPair (p : String × String) : List UInt8 := putStr p.1 ++ putStr p.2

theorem putPair_delimited : Delimited (fun p => StrFits p.1 ∧ StrFits p.2) putPair :=
  putStr_delimited.pair putStr_delimited fun _ _ => Prod.ext

theorem putPair_ne_nil (p : String × String) (r : List UInt8) : putPair p ++ r ≠ [] := by
  simp [putPair, putStr, putBytes, leBytes]

theorem blockLinkBytes_eq (rid : String) (b : ChainBlock) : blockLinkBytes rid b =
    tag "molt-chain-block-v1" ++ (putU64 b.height ++ (putStr b.prev ++
      (putBytes (approvalBytes rid b.height b.change) ++
        (sortPairs (b.sigs.map sigPair)).flatMap putPair))) := by
  simp only [blockLinkBytes, append_assoc]
  rfl

theorem sigs_perm {l l' : List RosterAttestation}
    (hl : ∀ a ∈ l, StrFits a.member ∧ StrFits a.sig)
    (hl' : ∀ a ∈ l', StrFits a.member ∧ StrFits a.sig)
    (h : (sortPairs (l.map sigPair)).flatMap putPair =
      (sortPairs (l'.map sigPair)).flatMap putPair) : l.Perm l' := by
  have hfits : ∀ k : List RosterAttestation, (∀ a ∈ k, StrFits a.member ∧ StrFits a.sig) →
      ∀ p ∈ sortPairs (k.map sigPair), StrFits p.1 ∧ StrFits p.2 := by
    intro k hk p hp
    have hmem := ((perm_insertionSort pairLe (k.map sigPair)).mem_iff).mp hp
    obtain ⟨a, ha, rfl⟩ := mem_map.mp hmem
    exact hk a ha
  have hrun := putPair_delimited.run_until (T := fun l => l = [])
    (fun p r s _ hs => hs ▸ putPair_ne_nil p r) (hfits l hl) (hfits l' hl') rfl rfl
    (by simpa using h)
  have hsorted : (l.map sigPair).Perm (l'.map sigPair) := by
    have hleft := (perm_insertionSort pairLe (l.map sigPair)).symm
    have hright := perm_insertionSort pairLe (l'.map sigPair)
    exact (hleft.trans (List.Perm.of_eq hrun.1)).trans hright
  have hback : ∀ k : List RosterAttestation,
      (k.map sigPair).map (fun p => (⟨p.1, p.2⟩ : RosterAttestation)) = k := by
    intro k
    simp [Function.comp_def, sigPair]
  have hperm := hsorted.map fun p => (⟨p.1, p.2⟩ : RosterAttestation)
  rwa [hback, hback] at hperm

theorem blockLinkBytes_injective {rid rid' : String} {b b' : ChainBlock} (hrid : StrFits rid)
    (hrid' : StrFits rid') (hb : b.Fits rid) (hb' : b'.Fits rid')
    (hbg : b.change.isGenesis = false) (hbg' : b'.change.isGenesis = false)
    (h : blockLinkBytes rid b = blockLinkBytes rid' b') :
    rid = rid' ∧ b.height = b'.height ∧ b.prev = b'.prev ∧ b.change = b'.change ∧
      b.sigs.Perm b'.sigs := by
  rw [blockLinkBytes_eq, blockLinkBytes_eq] at h
  have h := append_cancel_left h
  obtain ⟨hheight, h⟩ := putU64_delimited trivial trivial h
  obtain ⟨hprev, h⟩ := putStr_delimited hb.prev hb'.prev h
  obtain ⟨hsigned, h⟩ := putBytes_delimited hb.signed hb'.signed h
  obtain ⟨hr, _, hchange⟩ :=
    approvalBytes_injective hrid hrid' hb.change hb'.change hbg hbg' hsigned
  exact ⟨hr, hheight, hprev, hchange, sigs_perm hb.sigs hb'.sigs h⟩

/-- Signed bytes name one change at one height, one founding table up to its display name
(an absent feature set of a keyed table reading as empty), and link bytes one block up to
the order of its signatures. -/
theorem signedBytes_determine :
    (∀ rid rid' height height' c c', StrFits rid → StrFits rid' →
      ChainChange.Fits c → ChainChange.Fits c' →
      c.isGenesis = false → c'.isGenesis = false →
      approvalBytes rid height c = approvalBytes rid' height' c' →
        rid = rid' ∧ height = height' ∧ c = c') ∧
    (∀ rid rid' height height' g c, ChainChange.isGenesis c = false →
      approvalBytes rid height (.genesis g) ≠ approvalBytes rid' height' c) ∧
    (∀ rid rid' height height' g g', Genesis.Fits g → Genesis.Fits g' →
      approvalBytes rid height (.genesis g) = approvalBytes rid' height' (.genesis g') →
        g.SameTable g') ∧
    (∀ rid rid' b b', StrFits rid → StrFits rid' → ChainBlock.Fits rid b → b'.Fits rid' →
      b.change.isGenesis = false → b'.change.isGenesis = false →
      blockLinkBytes rid b = blockLinkBytes rid' b' →
        b.height = b'.height ∧ b.prev = b'.prev ∧ b.change = b'.change ∧
          b.sigs.Perm b'.sigs) := by
  refine ⟨?_, ?_, ?_, ?_⟩
  · intro rid rid' height height' c c' hrid hrid' hc hc' hcg hcg' h
    exact approvalBytes_injective hrid hrid' hc hc' hcg hcg' h
  · intro rid rid' height height' g c hc
    exact genesis_ne_change rid rid' height height' g hc
  · intro rid rid' height height' g g' hg hg' h
    exact Genesis.rosterBytes_injective hg hg' h
  · intro rid rid' b b' hrid hrid' hb hb' hbg hbg' h
    exact (blockLinkBytes_injective hrid hrid' hb hb' hbg hbg' h).2

def sampleTable : Genesis where
  name := "molt"
  republicId := "00"
  ruleM := 1
  ruleN := 2
  identities := [⟨"ana", "aa", "cc", "ee"⟩, ⟨"bo", "bb", "dd", "ff"⟩]
  agenda := "charter"
  relays := ["wss://one"]
  features := some []

/-- A keyed table signs an absent feature set as an empty one. -/
theorem absent_features_read_empty :
    approvalBytes "00" 0 (.genesis sampleTable) =
      approvalBytes "00" 0 (.genesis { sampleTable with features := none }) ∧
    sampleTable.features ≠ none := by
  decide

def sampleRestore : ChainBlock where
  height := 1
  prev := "ab"
  change := .membership ⟨.restored, "bo", "bb", some "d0", ["wss://two"], some "v2:0:dd:00"⟩
  sigs := [⟨"bo", "01"⟩, ⟨"ana", "02"⟩]

theorem sampleRestore_fits : sampleRestore.Fits "00" := by
  have hm : Membership.Fits
      ⟨.restored, "bo", "bb", some "d0", ["wss://two"], some "v2:0:dd:00"⟩ := by
    refine ⟨by decide, by decide, ?_, by decide, ?_⟩ <;> rintro _ ⟨⟩ <;> decide
  exact ⟨by decide, hm, by decide, by decide⟩

theorem sampleRestore_bytes_determine : StrFits "00" ∧ sampleRestore.Fits "00" ∧
    sampleRestore.sigs.Perm sampleRestore.sigs.reverse := by
  have hrid : StrFits "00" := by decide
  have hturned : ChainBlock.Fits "00" { sampleRestore with sigs := sampleRestore.sigs.reverse } :=
    ⟨sampleRestore_fits.prev, sampleRestore_fits.change, sampleRestore_fits.signed, by decide⟩
  have h := signedBytes_determine.2.2.2 "00" "00" sampleRestore
    { sampleRestore with sigs := sampleRestore.sigs.reverse } hrid hrid sampleRestore_fits hturned
    rfl rfl (by decide +kernel)
  exact ⟨hrid, sampleRestore_fits, h.2.2.2⟩

end Molt.Core
