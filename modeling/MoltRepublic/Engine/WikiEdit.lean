import Mathlib
import MoltRepublic.Engine.Ballots
import MoltRepublic.Wiki.Edited

/-! A wiki edit that replaces an open card: the pages are folded and checked, the old card is
withdrawn, and the patch goes through the propose path, which weighs it first (`proposals`). -/

namespace Molt.Wiki.EditDesk
open Molt.Core Json Check List

structure Draft where
  patch : String
  summary : String
  found : List (String × String)
  repaired : List RepairedLinks

namespace Draft

def payload (w : Draft) : Value := wikiPayload w.summary w.patch

def warnings (w : Draft) : List String := w.found.map fun m => m.1 ++ ": " ++ m.2

def held (w : Draft) (allow : AllowWarnings) : List (String × String) := w.found.filter fun m => !allow.admits m.1

end Draft

variable (d : EditDesk)

def draftOf (edits : List WikiEdit) (r : Repair) (renames : Tree) (patch : String) : Except EditError Draft := do
  let summary := (countChanges d.touchedLines r.base r.after renames).summary
  let header ← d.wikiPatchCheck (wikiPayload summary patch)
  let found := header.map (fun m => ("header", m)) ++ d.openWarnings (edits.flatMap editPaths ++ r.touched) ++
    r.warnings.map (fun m => ("rename_link", m)) ++ d.laterWarnings edits r.base r.after renames
  return ⟨patch, summary, found, r.repaired⟩

/-- The part of `cmd_wiki_edit` that moves nothing. -/
def draft (edits : List WikiEdit) (repairLinks : Bool) : Except EditError Draft := do
  d.feature
  ensure (edits.isEmpty = false) (.badPayload "no edits")
  d.supersedes
  let tree ← d.wikiBase
  let base := restrict tree (edits.flatMap editPaths)
  ensure (edits.any addsRelation = true → d.graph.isSome = true) (.indexBuilding 0 tree.entries.length)
  let s ← edits.foldlM (d.foldWikiEdit base) { after := base }
  match s.renames.values.find? fun old => (s.after.get? old).isSome with
  | some old => throw (.badPayload s!"{old}: moved and re-created - two votes")
  | none =>
    let r := d.repairRenameLinks tree base s.after s.renames repairLinks
    match buildPatch d.diff r.base r.after s.renames with
    | none => throw (.badPayload "nothing to change")
    | some patch => d.draftOf edits r s.renames patch

def put (dryRun : Bool) (allow : AllowWarnings) (w : Draft) : Except EditError WikiReply := do
  if dryRun then
    return .preview w.patch w.summary w.warnings w.repaired
  ensure (w.held allow = []) (.badPayload (heldText (w.held allow)))
  d.propose w.payload
  return .proposed w.payload w.warnings w.repaired

variable {d : EditDesk} {edits : List WikiEdit} {repairLinks : Bool}

theorem cast_eq_put (dryRun : Bool) (allow : AllowWarnings) (r : Repair) (renames : Tree) (patch : String) :
    d.cast edits dryRun allow r renames patch = d.draftOf edits r renames patch >>= d.put dryRun allow := by
  unfold cast draftOf
  dsimp only
  cases d.wikiPatchCheck (wikiPayload (countChanges d.touchedLines r.base r.after renames).summary patch) with
  | error err | ok header => rfl

theorem cmdWikiEdit_eq_put (dryRun : Bool) (allow : AllowWarnings) :
    d.cmdWikiEdit edits dryRun allow repairLinks = d.draft edits repairLinks >>= d.put dryRun allow := by
  unfold cmdWikiEdit draft
  simp only [bind_assoc]
  congr 1
  funext _
  congr 1
  funext _
  congr 1
  funext _
  congr 1
  funext tree
  congr 1
  funext _
  congr 1
  funext s
  cases s.renames.values.find? fun old => (s.after.get? old).isSome with
  | some old => rfl
  | none =>
    generalize d.repairRenameLinks tree (restrict tree (edits.flatMap editPaths)) s.after s.renames repairLinks = r
    cases buildPatch d.diff r.base r.after s.renames with
    | none => rfl
    | some patch => exact cast_eq_put ..

theorem draft_eq_ok {w : Draft} (h : d.draft edits repairLinks = .ok w) :
    d.feature = .ok () ∧ d.supersedes = .ok () ∧ ∃ header, d.wikiPatchCheck w.payload = .ok header := by
  obtain ⟨⟨⟩, hfeature, h⟩ := bind_eq_ok.mp h
  obtain ⟨-, -, h⟩ := bind_eq_ok.mp h
  obtain ⟨⟨⟩, hsupersedes, h⟩ := bind_eq_ok.mp h
  obtain ⟨tree, -, h⟩ := bind_eq_ok.mp h
  obtain ⟨-, -, h⟩ := bind_eq_ok.mp h
  obtain ⟨s, -, h⟩ := bind_eq_ok.mp h
  refine ⟨hfeature, hsupersedes, ?_⟩
  split at h
  · cases h
  · dsimp only at h
    split at h
    · cases h
    · obtain ⟨header, hheader, h⟩ := bind_eq_ok.mp h
      cases h
      exact ⟨header, hheader⟩

theorem restrict_empty (paths : List String) : restrict SortedMap.empty paths = SortedMap.empty := by
  unfold restrict
  induction paths with
  | nil => rfl
  | cons p paths ih =>
    exact ih

theorem changes_created (path content : String) :
    changes SortedMap.empty (SortedMap.empty.insert path content) SortedMap.empty = [.added path content] := by
  have hkept : (SortedMap.empty.insert path content : Tree).entries.filterMap
      (fun e => changeAt SortedMap.empty (SortedMap.empty.insert path content) SortedMap.empty e.1 e.2) =
      [.added path content] := rfl
  unfold changes
  rw [hkept]
  exact mergeSort_singleton ..

theorem draft_created {path page : String} (hfeature : d.feature = .ok ()) (hmay : d.supersedes = .ok ())
    (hbase : d.wikiBase = .ok SortedMap.empty) (hdiff : LineDiff.Faithful d.diff) (hvalid : validPath path = true)
    (hclean : CleanChange d.diff (.added path page)) :
    ∃ w, d.draft [.create path page] false = .ok w ∧
      w.patch = String.join [renderChange d.diff (.added path page)] := by
  have hall : ∀ c ∈ [NetChange.added path page], CleanChange d.diff c := by simpa using hclean
  have hparse : parsePatch (String.join [renderChange d.diff (.added path page)]) =
      [fileOf d.diff (.added path page)] := by
    have hemitted := parsePatch_emitted hdiff hall
    rwa [map_singleton, map_singleton] at hemitted
  have hpatch : buildPatch d.diff SortedMap.empty (SortedMap.empty.insert path page) SortedMap.empty =
      some (String.join [renderChange d.diff (.added path page)]) := by
    unfold buildPatch
    rw [changes_created]
    rfl
  have happly : applyPatch SortedMap.empty [fileOf d.diff (.added path page)] =
      .ok (SortedMap.empty.insert path page) := by
    have hstands : ∀ c ∈ [NetChange.added path page], c.Stands SortedMap.empty := by
      intro c hc
      rw [mem_singleton.mp hc]
      exact trivial
    have hneeds : ∀ c ∈ [NetChange.added path page], (∀ p ∈ c.paths, validPath p = true) ∧ c.Free SortedMap.empty := by
      intro c hc
      rw [mem_singleton.mp hc]
      exact ⟨fun p hp => mem_singleton.mp hp ▸ hvalid, rfl⟩
    have happly : applyPatch SortedMap.empty ([NetChange.added path page].map (fileOf d.diff)) =
        .ok ([NetChange.added path page].foldl (fun T c => c.result T) SortedMap.empty) :=
      (applyPatch_changeset hdiff hall hstands).mpr ⟨cons_ne_nil _ _, pairwise_singleton .., hneeds, rfl⟩
    rwa [map_singleton, foldl_cons, foldl_nil] at happly
  have hfold : [WikiEdit.create path page].foldlM (d.foldWikiEdit SortedMap.empty) { after := SortedMap.empty } =
      .ok { after := SortedMap.empty.insert path page } := by
    exact bind_eq_ok.mpr ⟨_, bind_eq_ok.mpr ⟨⟨⟩, ensure_eq_ok.mpr hvalid, bind_eq_ok.mpr
      ⟨⟨⟩, ensure_eq_ok.mpr ⟨rfl, rfl⟩, rfl⟩⟩, rfl⟩
  generalize String.join [renderChange d.diff (.added path page)] = patch at hparse hpatch ⊢
  have hcheck : ∀ summary, ∃ header, d.wikiPatchCheck (wikiPayload summary patch) = .ok header := by
    intro summary
    have hfiles : wikiPatchFiles (wikiPayload summary patch) = some [fileOf d.diff (.added path page)] :=
      congrArg some hparse
    unfold wikiPatchCheck
    rw [hfiles, hbase]
    dsimp only
    rw [restrict_empty, happly]
    exact ⟨_, rfl⟩
  have hdraft : ∃ w, d.draftOf [.create path page]
      ⟨SortedMap.empty, SortedMap.empty.insert path page, [], [], []⟩ SortedMap.empty patch = .ok w ∧
        w.patch = patch := by
    obtain ⟨header, hheader⟩ := hcheck (countChanges d.touchedLines SortedMap.empty (SortedMap.empty.insert path page)
      SortedMap.empty).summary
    unfold draftOf
    dsimp only
    rw [hheader]
    exact ⟨_, rfl, rfl⟩
  obtain ⟨w, hw, hpatched⟩ := hdraft
  refine ⟨w, ?_, hpatched⟩
  have hplain : [WikiEdit.create path page].any addsRelation = true → d.graph.isSome = true := fun h => by cases h
  unfold draft
  refine bind_eq_ok.mpr ⟨⟨⟩, hfeature, ?_⟩
  refine bind_eq_ok.mpr ⟨⟨⟩, ensure_eq_ok.mpr rfl, ?_⟩
  refine bind_eq_ok.mpr ⟨⟨⟩, hmay, ?_⟩
  refine bind_eq_ok.mpr ⟨SortedMap.empty, hbase, ?_⟩
  rw [restrict_empty]
  refine bind_eq_ok.mpr ⟨⟨⟩, ensure_eq_ok.mpr hplain, ?_⟩
  refine bind_eq_ok.mpr ⟨_, hfold, ?_⟩
  have hnone : (SortedMap.empty : Tree).values.find?
      (fun old => ((SortedMap.empty.insert path page : Tree).get? old).isSome) = none := rfl
  have hrepair : ∀ tree base after, d.repairRenameLinks tree base after SortedMap.empty false =
      ⟨base, after, [], [], []⟩ := fun _ _ _ => rfl
  dsimp only
  rw [hrepair, hpatch]
  exact hw

end Molt.Wiki.EditDesk

namespace Molt.Engine
open Molt.Core Json Chain Wiki Check

section

def nonceLen : ℕ := 12

def tagLen : ℕ := 16

def mlsFrameOverhead : ℕ := 384

def eventFrameOverhead : ℕ := 512

def defaultSizeBudget : ℕ := 128 * 1024

def maxPlaintextFor (budget : ℕ) : ℕ :=
  (budget - eventFrameOverhead) / 4 * 3 - (mlsFrameOverhead + nonceLen + tagLen)

def transportPlaintextCeiling : ℕ := maxPlaintextFor defaultSizeBudget

def longestName (roster : List String) : String :=
  roster.foldl (fun by_ m => if (Text.utf8 by_).length ≤ (Text.utf8 m).length then m else by_) ""

def isObject : Value → Bool
  | .obj _ => true
  | _ => false

/-- The envelope of the block that would apply a payload, at the highest numbers and signed by
every seat. -/
def appliedEnvelope (surface : Surface) (payload : Value) (roster : List String) : Value :=
  let top : Value := .num (.posInt (UInt64.ofNat (2 ^ 64 - 1)))
  .obj [("seq", top), ("ts", top), ("by", .str (longestName roster)),
    ("body", .obj [("type", .str "committed"), ("height", top), ("prev", .str (String.ofList (List.replicate 64 'f'))),
      ("change", .obj [("kind", .str "applied"), ("proposal_id", top), ("surface", .str surface.asStr),
        ("payload", payload)]),
      ("sigs", .arr (roster.map fun m =>
        .obj [("member", .str m), ("sig", .str (String.ofList (List.replicate 128 'f')))]))]),
    ("prev_seq", top)]

def appliedBlockPlaintextLen (surface : Surface) (payload : Value) (roster : List String) : ℕ :=
  (toVec (appliedEnvelope surface payload roster)).length

def payloadFits (surface : Surface) (payload : Value) (roster : List String) : Bool :=
  appliedBlockPlaintextLen surface payload roster ≤ transportPlaintextCeiling

/-- `validate_payload_fits`, for a payload that sets no image. -/
def validatePayloadFits (surface : Surface) (payload : Value) (roster : List String) : Except EditError Unit :=
  let excess := appliedBlockPlaintextLen surface payload roster - transportPlaintextCeiling
  ensure (payloadFits surface payload roster = true)
    (.badPayload s!"the proposal is {(excess + 1023) / 1024} KiB over what this republic's relays carry")

theorem length_utf8_le_toVec (s : String) : (Text.utf8 s).length ≤ (toVec (.str s)).length := by
  have hflat : ∀ l : List UInt8, l.length ≤ (l.flatMap escapeByte).length := by
    intro l
    induction l with
    | nil => exact le_rfl
    | cons b l ih =>
      have hone : 1 ≤ (escapeByte b).length := by
        unfold escapeByte
        split_ifs <;> simp
      rw [List.flatMap_cons, List.length_append, List.length_cons]
      omega
  have := hflat (Text.utf8 s)
  simp only [toVec, writeString, List.cons_append, List.length_cons, List.length_append, List.length_nil]
  omega

theorem length_toVec_field {key : String} {v : Value} {fields : List (String × Value)} (h : (key, v) ∈ fields) :
    (toVec v).length ≤ (toVec (.obj fields)).length := by
  have hrest : ∀ fs : List (String × Value), (key, v) ∈ fs → (toVec v).length ≤ (writeFields fs).length := by
    intro fs
    induction fs with
    | nil => exact fun h => absurd h List.not_mem_nil
    | cons f fs ih =>
      intro hmem
      simp only [writeFields, List.length_cons, List.length_append]
      rcases List.mem_cons.mp hmem with rfl | hmem
      · dsimp only
        omega
      · have := ih hmem
        omega
  cases fields with
  | nil => exact absurd h List.not_mem_nil
  | cons f fs =>
    simp only [toVec, List.length_cons, List.length_append]
    rcases List.mem_cons.mp h with rfl | h
    · dsimp only
      omega
    · have := hrest fs h
      omega

theorem length_patch_le (surface : Surface) (summary patch : String) (roster : List String) :
    patch.toList.length ≤ appliedBlockPlaintextLen surface (EditDesk.wikiPayload summary patch) roster := by
  have hpatch := (Text.length_utf8_le patch).trans (length_utf8_le_toVec patch)
  have hpayload : (toVec (.str patch)).length ≤ (toVec (EditDesk.wikiPayload summary patch)).length :=
    length_toVec_field (.tail _ (.tail _ List.mem_cons_self))
  unfold appliedBlockPlaintextLen appliedEnvelope
  refine (hpatch.trans hpayload).trans ?_
  refine le_trans ?_ (length_toVec_field (.tail _ (.tail _ (List.mem_cons_of_mem _
    List.mem_cons_self))))
  refine le_trans ?_ (length_toVec_field (.tail _ (.tail _ (List.mem_cons_of_mem _
    List.mem_cons_self))))
  exact length_toVec_field (.tail _ (.tail _ (List.mem_cons_of_mem _
    List.mem_cons_self)))

end

/-- The engine around the cards, as the wiki's commands read it: what its pages and its features
are goes by the chain alone, the warnings look at the cards too. -/
structure WikiSide where
  desk : Chain.Holder → EditDesk
  openWarnings : Node → Option UInt64 → List String → List (String × String)
  laterWarnings : Node → Option UInt64 → List WikiEdit → Tree → Tree → Tree → List (String × String)
  /-- A single operator's own approval, and `try_apply`. -/
  solo : Node → UInt64 → Node

namespace Node

def ownOpen (S : Site) (n : Node) (id : UInt64) : Except EditError Unit :=
  match n.proposals.lookup id with
  | none => .error .unknownProposal
  | some p => do
    ensure (p.state = .proposed) .alreadyTerminal
    ensure (p.proposer = S.member) .notTheProposer

def mayReplace (S : Site) (n : Node) : Option UInt64 → Except EditError Unit
  | none => .ok ()
  | some old => n.ownOpen S old

def desk (S : Site) (w : WikiSide) (n : Node) (supersedes : Option UInt64) : EditDesk :=
  { w.desk n.chain with
    supersedes := n.mayReplace S supersedes
    openWarnings := w.openWarnings n supersedes
    laterWarnings := w.laterWarnings n supersedes }

/-- `cmd_withdraw` of the card that is replaced. -/
def withdrawOld (S : Site) (e : Env) (n : Node) (supersedes : Option UInt64) : Outcome × Except EditError Unit :=
  match supersedes with
  | none => (⟨n, [], []⟩, .ok ())
  | some old => (n.cmdWithdraw S e old, n.ownOpen S old)

/-- The gates of `propose_payload` that a payload of the wiki meets. -/
def proposeGates (n : Node) (d : EditDesk) (payload : Value) : Except EditError Unit := do
  d.feature
  ensure (isObject payload = true) (.badPayload "payload must be a JSON object")
  ensure (reservedOp payload = false ∧ isBaseEntryOp payload = false) (.badPayload "reserved op")
  validatePayloadFits .memory payload n.roster
  let _ ← d.wikiPatchCheck payload
  return ()

def landWiki (S : Site) (e : Env) (w : WikiSide) (n : Node) (id : UInt64) (payload : Value) : Outcome :=
  let governed := n.head.isSome
  let n := n.applyProposed S e S.member id .memory payload
  let decided := Entry.decided id .memory payload
  if !governed then ⟨w.solo n id, [], [decided]⟩
  else if S.selfCosign then
    let signed := n.chainSign S e id
    { signed with log := decided :: signed.log }
  else ⟨n, [], [decided]⟩

/-- `cmd_propose` of a wiki payload; no reply where the next id leaves 64 bits and the code
aborts. -/
def proposeWiki (S : Site) (e : Env) (w : WikiSide) (n : Node) (payload : Value) :
    Outcome × Option (Except EditError Unit) :=
  match n.proposeGates (w.desk n.chain) payload with
  | .error err => (⟨n, [], []⟩, some (.error err))
  | .ok () =>
    match n.mintProposalId S with
    | none => (⟨n, [], []⟩, none)
    | some (id, n) => (n.landWiki S e w id payload, some (.ok ()))

/-- `cmd_wiki_edit`: the node behind the call, and its reply. -/
def cmdWikiEdit (S : Site) (e : Env) (w : WikiSide) (n : Node) (edits : List WikiEdit) (dryRun : Bool)
    (allow : AllowWarnings) (supersedes : Option UInt64) (repairLinks : Bool) :
    Outcome × Option (Except EditError WikiReply) :=
  match (n.desk S w supersedes).draft edits repairLinks with
  | .error err => (⟨n, [], []⟩, some (.error err))
  | .ok draft =>
    if dryRun then
      (⟨n, [], []⟩, some (.ok (.preview draft.patch draft.summary draft.warnings draft.repaired)))
    else if draft.held allow ≠ [] then
      (⟨n, [], []⟩, some (.error (.badPayload (EditDesk.heldText (draft.held allow)))))
    else
      match n.withdrawOld S e supersedes with
      | (o, .error err) => (o, some (.error err))
      | (o, .ok ()) =>
        let (cast, reply) := o.node.proposeWiki S e w draft.payload
        (⟨cast.node, o.calls ++ cast.calls, o.log ++ cast.log⟩,
          reply.map fun r => r.map fun _ => .proposed draft.payload draft.warnings draft.repaired)

section
variable {S : Site} {e : Env} {w : WikiSide} {n : Node} {id : UInt64} {supersedes : Option UInt64}

theorem ownOpen_eq_ok : n.ownOpen S id = .ok () ↔
    ∃ p, n.proposals.lookup id = some p ∧ p.state = .proposed ∧ p.proposer = S.member := by
  unfold ownOpen
  cases n.proposals.lookup id with
  | none => exact iff_of_false (fun h => by cases h) (fun h => by obtain ⟨_, h, _⟩ := h; cases h)
  | some p =>
    simp [bind_eq_ok, ensure_eq_ok]

theorem registerWithdraw_closes {p : ProposalRecord} (hp : n.proposals.lookup id = some p)
    (hopen : p.state = .proposed) {seat : String} (hmine : (n.mintingSeat id).getD p.proposer = seat) (ts : UInt64) :
    (n.registerWithdraw id seat ts).1.identities = n.identities ∧
      ∃ q, (n.registerWithdraw id seat ts).1.proposals.lookup id = some q ∧ q.state = .rejected := by
  unfold registerWithdraw
  rw [hp]
  dsimp only
  rw [if_neg (not_not.mpr hopen), if_neg (not_not.mpr hmine)]
  have hadjust : (n.adjust id (·.pullBack ts)).proposals.lookup id = some (p.pullBack ts) := by
    simp only [adjust, hp, AList.lookup_insert]
  have hstash : Alike id (n.adjust id (·.pullBack ts)) ((n.adjust id (·.pullBack ts)).stashVoted id) :=
    alike_stashVoted id
  obtain ⟨q, hq, hstanding⟩ := hstash.known hadjust
  refine ⟨hstash.identities.trans (by simp only [adjust, hp]), q, hq, ?_⟩
  exact congrArg Standing.state hstanding

theorem registerWithdraw_foreign {p : ProposalRecord} (hp : n.proposals.lookup id = some p) {seat : String}
    (hforeign : (n.mintingSeat id).getD p.proposer ≠ seat) (ts : UInt64) : (n.registerWithdraw id seat ts).1 = n := by
  unfold registerWithdraw
  rw [hp]
  dsimp only
  split_ifs
  · rfl
  · rfl

def Closes (S : Site) (n : Node) (supersedes : Option UInt64) : Prop :=
  ∃ old p, supersedes = some old ∧ n.proposals.lookup old = some p ∧ (n.mintingSeat old).getD p.proposer = S.member

theorem withdrawOld_spec (h : n.mayReplace S supersedes = .ok ()) :
    ∃ o, n.withdrawOld S e supersedes = (o, .ok ()) ∧ o.node.chain = n.chain ∧ o.node.roster = n.roster ∧
      (o.node = n ↔ ¬ n.Closes S supersedes) := by
  cases supersedes with
  | none => exact ⟨_, rfl, rfl, rfl, iff_of_true rfl (fun h => by obtain ⟨_, _, h, _⟩ := h; cases h)⟩
  | some old =>
    have hown : n.ownOpen S old = .ok () := h
    obtain ⟨p, hp, hopen, hproposer⟩ := ownOpen_eq_ok.mp hown
    have hcall : (n.cmdWithdraw S e old).node = (n.registerWithdraw old S.member e.now).1 := by
      unfold cmdWithdraw
      rw [hp]
      dsimp only
      rw [if_neg (by simp [hopen, hproposer])]
    refine ⟨_, by rw [withdrawOld, hown], ?_⟩
    rw [hcall]
    refine ⟨(still_registerWithdraw (Q := .none) old S.member e.now).chain, ?_⟩
    by_cases hmine : (n.mintingSeat old).getD p.proposer = S.member
    · obtain ⟨hidentities, q, hq, hrejected⟩ := registerWithdraw_closes hp hopen hmine e.now
      refine ⟨by rw [roster, hidentities, roster], iff_of_false (fun heq => ?_) (not_not.mpr ⟨old, p, rfl, hp, hmine⟩)⟩
      rw [heq, hp] at hq
      cases hq
      rw [hopen] at hrejected
      cases hrejected
    · rw [registerWithdraw_foreign hp hmine]
      refine ⟨rfl, iff_of_true rfl ?_⟩
      rintro ⟨_, q, heq, hq, hmine'⟩
      cases heq
      cases hp.symm.trans hq
      exact hmine hmine'

theorem proposeGates_draft {edits : List WikiEdit} {repairLinks : Bool} {draft : EditDesk.Draft} {m : Node}
    (h : (n.desk S w supersedes).draft edits repairLinks = .ok draft) (hchain : m.chain = n.chain)
    (hroster : m.roster = n.roster) :
    m.proposeGates (w.desk m.chain) draft.payload = validatePayloadFits .memory draft.payload n.roster := by
  obtain ⟨hfeature, -, header, hheader⟩ := EditDesk.draft_eq_ok h
  have hfeature' : (w.desk n.chain).feature = .ok () := hfeature
  have hheader' : (w.desk n.chain).wikiPatchCheck draft.payload = .ok header := hheader
  have hobject : isObject draft.payload = true := rfl
  have hop : reservedOp draft.payload = false ∧ isBaseEntryOp draft.payload = false := ⟨rfl, rfl⟩
  unfold proposeGates
  rw [hchain, hroster, hfeature', hheader', hobject, hop.1, hop.2]
  cases validatePayloadFits .memory draft.payload n.roster with
  | error err | ok _ => rfl

theorem proposeWiki_refused {m : Node} {payload : Value} :
    (∃ err, (m.proposeWiki S e w payload).2 = some (.error err)) ↔
      ∃ err, m.proposeGates (w.desk m.chain) payload = .error err := by
  unfold proposeWiki
  cases m.proposeGates (w.desk m.chain) payload with
  | error err => exact iff_of_true ⟨err, rfl⟩ ⟨err, rfl⟩
  | ok _ =>
    refine iff_of_false ?_ nofun
    dsimp only
    split
    all_goals exact nofun

theorem validatePayloadFits_refused {payload : Value} {members : List String} :
    (∃ err, validatePayloadFits .memory payload members = .error err) ↔
      payloadFits .memory payload members = false := by
  unfold validatePayloadFits ensure
  split_ifs with hfits
  · exact iff_of_false nofun (by simp [hfits])
  · exact iff_of_true ⟨_, rfl⟩ (by simpa using hfits)

/-- The call reaches the withdrawal, it closes the old card, and then the patch is too large. -/
def LosesCard (S : Site) (w : WikiSide) (n : Node) (edits : List WikiEdit) (dryRun : Bool) (allow : AllowWarnings)
    (supersedes : Option UInt64) (repairLinks : Bool) : Prop :=
  n.Closes S supersedes ∧ dryRun = false ∧ ∃ draft, (n.desk S w supersedes).draft edits repairLinks = .ok draft ∧
    draft.held allow = [] ∧ payloadFits .memory draft.payload n.roster = false

variable {edits : List WikiEdit} {dryRun : Bool} {allow : AllowWarnings} {repairLinks : Bool}

theorem LosesCard.loses (h : n.LosesCard S w edits dryRun allow supersedes repairLinks) (e : Env) :
    ∃ err, (n.cmdWikiEdit S e w edits dryRun allow supersedes repairLinks).2 = some (.error err) ∧
      (n.cmdWikiEdit S e w edits dryRun allow supersedes repairLinks).1.node ≠ n := by
  obtain ⟨hcloses, rfl, draft, hdraft, hheld, hunfit⟩ := h
  obtain ⟨-, hmay, -⟩ := EditDesk.draft_eq_ok hdraft
  obtain ⟨o, ho, hchain, hroster, hsame⟩ := withdrawOld_spec (e := e) hmay
  obtain ⟨err, hfits⟩ := validatePayloadFits_refused.mpr hunfit
  have hcall : o.node.proposeWiki S e w draft.payload = (⟨o.node, [], []⟩, some (.error err)) := by
    unfold proposeWiki
    rw [proposeGates_draft hdraft hchain hroster, hfits]
  refine ⟨err, ?_⟩
  unfold cmdWikiEdit
  rw [hdraft]
  dsimp only
  rw [if_neg Bool.false_ne_true, if_neg (not_not.mpr hheld), ho]
  dsimp only
  rw [hcall]
  exact ⟨rfl, fun heq => hsame.mp heq hcloses⟩

theorem refused_of_keeps (h : ¬ n.LosesCard S w edits dryRun allow supersedes repairLinks) {err : EditError}
    (herr : (n.cmdWikiEdit S e w edits dryRun allow supersedes repairLinks).2 = some (.error err)) :
    (n.cmdWikiEdit S e w edits dryRun allow supersedes repairLinks).1.node = n := by
  unfold cmdWikiEdit at herr ⊢
  cases hdraft : (n.desk S w supersedes).draft edits repairLinks with
  | error err' => rfl
  | ok draft =>
    rw [hdraft] at herr
    dsimp only at herr ⊢
    split_ifs at herr ⊢ with hdry hheld
    · rfl
    · rfl
    · obtain ⟨-, hmay, -⟩ := EditDesk.draft_eq_ok hdraft
      obtain ⟨o, ho, hchain, hroster, hsame⟩ := withdrawOld_spec (e := e) hmay
      rw [ho] at herr ⊢
      -- an error behind the withdrawal is one of the gates, so it is the size
      obtain ⟨reply, hreply, herr⟩ := Option.map_eq_some_iff.mp herr
      cases reply with
      | ok _ => cases herr
      | error err' =>
        obtain ⟨_, hgates⟩ := proposeWiki_refused.mp ⟨err', hreply⟩
        rw [proposeGates_draft hdraft hchain hroster] at hgates
        have hunfit : payloadFits .memory draft.payload n.roster = false := validatePayloadFits_refused.mp ⟨_, hgates⟩
        have hcall : (o.node.proposeWiki S e w draft.payload).1.node = o.node := by
          unfold proposeWiki
          rw [proposeGates_draft hdraft hchain hroster, hgates]
        rw [hcall]
        exact hsame.mpr fun hcloses => h ⟨hcloses, by simpa using hdry, draft, hdraft, not_not.mp hheld, hunfit⟩

/-- A refused wiki edit leaves cards, votes and chain as they were exactly where the size of the
patch does not refuse it behind the withdrawal. -/
theorem refused_edit_moves_nothing_iff (S : Site) (e : Env) (w : WikiSide) (n : Node) (edits : List WikiEdit)
    (dryRun : Bool) (allow : AllowWarnings) (supersedes : Option UInt64) (repairLinks : Bool) :
    (∀ err, (n.cmdWikiEdit S e w edits dryRun allow supersedes repairLinks).2 = some (.error err) →
      (n.cmdWikiEdit S e w edits dryRun allow supersedes repairLinks).1.node = n) ↔
    ¬ n.LosesCard S w edits dryRun allow supersedes repairLinks := by
  constructor
  · intro h hloses
    obtain ⟨err, herr, hmoved⟩ := hloses.loses e
    exact hmoved (h err herr)
  · exact fun h err herr => refused_of_keeps h herr

end

end Node

namespace Sample
open Text LineDiff

def longPage (k : ℕ) : String := String.ofList (List.replicate k 'x' ++ ['\n'])

variable (k : ℕ)

theorem longPage_plain : '\r' ∉ (longPage k).toList := by
  rw [longPage, String.toList_ofList, List.mem_append, List.mem_replicate]
  rintro (⟨-, hc⟩ | hc)
  · cases hc
  · exact absurd (List.mem_singleton.mp hc) (by decide)

theorem splitLines_longPage : splitLines (longPage k) = [longPage k] := by
  have hline : '\n' ∉ List.replicate k 'x' := fun h => absurd (List.eq_of_mem_replicate h) (by decide)
  rw [splitLines_eq (longPage_plain k), toElements, longPage, String.toList_ofList, elementsFrom_line hline]
  rfl

theorem length_longPage_le (path : String) :
    k ≤ (renderChange whole (.added path (longPage k))).toList.length := by
  have hpage : (longPage k).toList.length = k + 1 := by
    rw [longPage, String.toList_ofList, List.length_append, List.length_replicate, List.length_singleton]
  have hlines : splitLines "" = [] := rfl
  have hhunks : whole [] [longPage k] = [⟨0, 0, [(.insert, longPage k)]⟩] := rfl
  unfold renderChange unified
  dsimp only
  rw [hlines, splitLines_longPage, hhunks]
  simp [renderHunk, renderLine, String.toList_append, List.length_append, hpage]
  omega

def emptyWiki : WikiSide where
  desk := fun _ => EditDesk.sample SortedMap.empty
  openWarnings := fun _ _ _ => []
  laterWarnings := fun _ _ _ _ _ _ => []
  solo := fun n _ => n

def openCard : ProposalRecord :=
  { surface := .memory, payload := EditDesk.wikiPayload "+1" "old", proposer := "ann" }

def replacing : Node := { start.node with proposals := AList.insert 1 openCard ∅ }

/-- The patch of a page of 100000 characters is over the size, and the card it was to replace is
gone. -/
theorem oversized_edit_loses_card : ∃ err,
    (replacing.cmdWikiEdit site env emptyWiki [.create "a.md" (longPage 100000)] false (.all true) (some 1) false).2 =
      some (.error err) ∧
    (replacing.cmdWikiEdit site env emptyWiki [.create "a.md" (longPage 100000)] false (.all true) (some 1)
      false).1.node ≠ replacing := by
  have hclean : CleanChange whole (.added "a.md" (longPage 100000)) := by
    refine ⟨⟨⟨by decide, by decide⟩, by unfold OneSided; decide⟩, ?_⟩
    refine cleanDiff_plain whole_faithful (by decide) (longPage_plain 100000) (by decide) ?_
    rw [longPage, String.toList_ofList, List.length_append, List.length_replicate]
    decide
  have hlong := length_longPage_le 100000 "a.md"
  generalize longPage 100000 = page at hclean hlong
  obtain ⟨draft, hdraft, hpatch⟩ := EditDesk.draft_created (d := replacing.desk site emptyWiki (some 1)) rfl
    (by decide +kernel) rfl whole_faithful (by decide +kernel) hclean
  refine Node.LosesCard.loses ⟨⟨1, openCard, rfl, rfl, by decide +kernel⟩, rfl, draft, hdraft, ?_, ?_⟩ env
  · exact List.filter_eq_nil_iff.mpr fun _ _ => Bool.false_ne_true
  · have hsize := length_patch_le .memory draft.summary draft.patch replacing.roster
    have hjoin : draft.patch.toList = (renderChange whole (.added "a.md" page)).toList := by
      rw [hpatch, String.toList_join]
      exact List.append_nil _
    rw [hjoin] at hsize
    have hceiling : transportPlaintextCeiling < 100000 := by decide
    exact decide_eq_false (Nat.not_le.mpr (hceiling.trans_le (hlong.trans hsize)))

end Sample

end Molt.Engine
