import Mathlib
import MoltRepublic.Core.Slots

/-! The Shared Files votes (`files_state`). An op may rely on the op before it: one
without an identity keeps the share's, one without series material keeps the key an
earlier op pinned. -/

namespace Molt.Projection
open Molt.Core Text Json List Function
open Option hiding or_assoc

@[ext] structure ShareIdentity where
  sharer : String
  name : String
  kind : String
  size : UInt64
  checksum : String
  sharedTs : UInt64
  keyB64 : String
  pieces : UInt32
  root : String
  deriving DecidableEq

def ShareIdentity.fromPayload (v : Value) : Option ShareIdentity := do
  let sharer ← v.getStr "by"
  let name ← v.getStr "name"
  let size ← v.getU64 "size"
  let pieces := (v.getU64 "pieces").getD 0
  let me : ShareIdentity :=
    { sharer, name, size
      kind := (v.getStr "kind").getD ""
      checksum := (v.getStr "checksum").getD ""
      sharedTs := (v.getU64 "shared_ts").getD 0
      keyB64 := (v.getStr "key_b64").getD ""
      pieces := if pieces.toNat < 2 ^ 32 then pieces.toUInt32 else 0
      root := (v.getStr "root").getD "" }
  if me.sharer ≠ "" ∧ me.name ≠ "" then some me else none

/-- `adopt_material`: take the series material of `prev` when there is none of its own. -/
def ShareIdentity.adoptMaterial (me prev : ShareIdentity) : ShareIdentity :=
  if me.keyB64 = "" ∧ prev.keyB64 ≠ "" then
    { me with keyB64 := prev.keyB64, pieces := prev.pieces, root := prev.root }
  else me

inductive FileState where
  | persistent (m : ShareIdentity)
  | unpersisted (m : ShareIdentity) (since : UInt64)
  | deleted (m : ShareIdentity)
  deriving DecidableEq

def FileState.identity : FileState → ShareIdentity
  | persistent m => m
  | unpersisted m _ => m
  | deleted m => m

def parseId (v : Value) : Option String :=
  (v.getStr "id").filter fun s => (utf8 s).length == 32 && (utf8 s).all isLowerHexdigit

def foldIdentity (prev : Option FileState) (m : ShareIdentity) : ShareIdentity :=
  match prev with
  | some p => m.adoptMaterial p.identity
  | none => m

def fileStep (prev : Option FileState) (v : Value) : Option FileState :=
  match v.getStr "op" with
  | some "persist" =>
    match ShareIdentity.fromPayload v with
    | some m => some (.persistent (foldIdentity prev m))
    | none => prev
  | some "unpersist" =>
    match v.getU64 "at" with
    | none => prev
    | some since =>
      match (ShareIdentity.fromPayload v).or (prev.map FileState.identity) with
      | some m =>
        let m := foldIdentity prev m
        some (.unpersisted m (max since m.sharedTs))
      | none => prev
  | some "delete" =>
    match (ShareIdentity.fromPayload v).or (prev.map FileState.identity) with
    | some m => some (.deleted (foldIdentity prev m))
    | none => prev
  | _ => prev

def foldFileEntry (out : String → Option FileState) (v : Value) : String → Option FileState :=
  match parseId v with
  | some id => update out id (fileStep (out id) v)
  | none => out

def filesState (entries : List Value) : String → Option FileState :=
  entries.foldl foldFileEntry fun _ => none

section

inductive Verdict where
  | persistent
  | unpersisted (since : UInt64)
  | deleted

def Verdict.on (m : ShareIdentity) : Verdict → FileState
  | persistent => .persistent m
  | unpersisted since => .unpersisted m (max since m.sharedTs)
  | deleted => .deleted m

@[simp] theorem Verdict.on_identity (w : Verdict) (m : ShareIdentity) : (w.on m).identity = m := by
  cases w <;> rfl

inductive ShareOp where
  | ignored
  | carrying (m : ShareIdentity) (w : Verdict)
  | bare (w : Verdict)

def ShareOp.apply (prev : Option FileState) : ShareOp → Option FileState
  | ignored => prev
  | carrying m w => some (w.on (foldIdentity prev m))
  | bare w => prev.map fun p => w.on p.identity

def verdictOf (v : Value) : Option Verdict :=
  match v.getStr "op" with
  | some "persist" => some .persistent
  | some "unpersist" => (v.getU64 "at").map .unpersisted
  | some "delete" => some .deleted
  | _ => none

def readOp (v : Value) : ShareOp :=
  match verdictOf v, ShareIdentity.fromPayload v with
  | none, _ => .ignored
  | some w, some m => .carrying m w
  | some .persistent, none => .ignored
  | some w, none => .bare w

theorem foldIdentity_self (p : FileState) : foldIdentity (some p) p.identity = p.identity := by
  simp only [foldIdentity, ShareIdentity.adoptMaterial]
  split_ifs with h
  · exact absurd h.1 h.2
  · rfl

theorem fileStep_eq_apply (prev : Option FileState) (v : Value) :
    fileStep prev v = (readOp v).apply prev := by
  unfold fileStep readOp verdictOf
  split
  · cases ShareIdentity.fromPayload v <;> rfl
  · cases v.getU64 "at" with
    | none => rfl
    | some since =>
      cases ShareIdentity.fromPayload v with
      | some m => rfl
      | none => cases prev <;> simp [ShareOp.apply, foldIdentity_self, Verdict.on]
  · cases ShareIdentity.fromPayload v with
    | some m => rfl
    | none => cases prev <;> simp [ShareOp.apply, foldIdentity_self, Verdict.on]
  · rfl

def ShareOp.Carries : ShareOp → Prop
  | carrying _ _ => True
  | _ => False

def ShareOp.Keyed : ShareOp → Prop
  | carrying m _ => m.keyB64 ≠ ""
  | _ => False

instance : DecidablePred ShareOp.Carries := fun op => by
  cases op <;> unfold ShareOp.Carries <;> infer_instance

instance : DecidablePred ShareOp.Keyed := fun op => by
  cases op <;> unfold ShareOp.Keyed <;> infer_instance

theorem ShareOp.Keyed.carries {op : ShareOp} (h : op.Keyed) : op.Carries := by
  cases op <;> trivial

def seriesKey (s : Option FileState) : String := (s.map fun p => p.identity.keyB64).getD ""

def foldOps (s : Option FileState) (ops : List ShareOp) : Option FileState :=
  ops.foldl ShareOp.apply s

variable (s : Option FileState)

@[simp] theorem foldOps_nil : foldOps s [] = s := rfl

variable (op : ShareOp)

@[simp] theorem foldOps_cons (ops : List ShareOp) :
    foldOps s (op :: ops) = foldOps (op.apply s) ops := rfl

theorem foldOps_append (u v : List ShareOp) :
    foldOps s (u ++ v) = foldOps (foldOps s u) v := foldl_append

theorem foldIdentity_keyed (prev : Option FileState) {m : ShareIdentity} (h : m.keyB64 ≠ "") :
    foldIdentity prev m = m := by
  cases prev <;> simp [foldIdentity, ShareIdentity.adoptMaterial, h]

theorem foldIdentity_unkeyed {prev : Option FileState} (h : seriesKey prev = "")
    (m : ShareIdentity) : foldIdentity prev m = m := by
  cases prev with
  | none => rfl
  | some p =>
    have hp : p.identity.keyB64 = "" := h
    simp [foldIdentity, ShareIdentity.adoptMaterial, hp]

theorem apply_isSome_iff :
    (op.apply s).isSome ↔ s.isSome ∨ op.Carries := by
  cases op <;> simp [ShareOp.apply, ShareOp.Carries]

theorem seriesKey_apply_iff :
    seriesKey (op.apply s) ≠ "" ↔ seriesKey s ≠ "" ∨ op.Keyed := by
  cases op with
  | ignored => simp [ShareOp.apply, ShareOp.Keyed]
  | bare w => cases s <;> simp [ShareOp.apply, ShareOp.Keyed, seriesKey]
  | carrying m w =>
    simp only [ShareOp.apply, ShareOp.Keyed]
    by_cases hm : m.keyB64 = ""
    · cases s with
      | none => simp [seriesKey, foldIdentity, hm]
      | some p =>
        by_cases hp : p.identity.keyB64 = "" <;>
          simp [seriesKey, foldIdentity, ShareIdentity.adoptMaterial, hm, hp]
    · simp [seriesKey, foldIdentity_keyed s hm, hm]

theorem foldOps_isSome_iff (ops : List ShareOp) :
    (foldOps s ops).isSome ↔ s.isSome ∨ ∃ op ∈ ops, op.Carries := by
  induction ops generalizing s with
  | nil => simp
  | cons op ops ih =>
    rw [foldOps_cons, ih, apply_isSome_iff]
    simp [or_assoc]

theorem seriesKey_foldOps_iff (ops : List ShareOp) :
    seriesKey (foldOps s ops) ≠ "" ↔ seriesKey s ≠ "" ∨ ∃ op ∈ ops, op.Keyed := by
  induction ops generalizing s with
  | nil => simp
  | cons op ops ih =>
    rw [foldOps_cons, ih, seriesKey_apply_iff]
    simp [or_assoc]

theorem apply_eq_apply {a b : Option FileState} {op : ShareOp}
    (h : op.Keyed ∨ (op.Carries ∧ seriesKey a = "" ∧ seriesKey b = "")) :
    op.apply a = op.apply b := by
  cases op with
  | ignored | bare w => simp [ShareOp.Keyed, ShareOp.Carries] at h
  | carrying m w =>
    rcases h with hkeyed | ⟨_, ha, hb⟩
    · rw [ShareOp.apply, ShareOp.apply, foldIdentity_keyed a hkeyed, foldIdentity_keyed b hkeyed]
    · rw [ShareOp.apply, ShareOp.apply, foldIdentity_unkeyed ha, foldIdentity_unkeyed hb]

theorem foldOps_eq_iff_keyed {a b : Option FileState} (ha : seriesKey a ≠ "")
    (hb : seriesKey b = "") (t : List ShareOp) :
    foldOps a t = foldOps b t ↔ ∃ op ∈ t, op.Keyed := by
  constructor
  · intro h
    have hkey := (seriesKey_foldOps_iff a t).mpr (.inl ha)
    rw [h, seriesKey_foldOps_iff] at hkey
    exact hkey.resolve_left fun hne => hne hb
  · rintro ⟨op, hop, hkeyed⟩
    obtain ⟨u, v, rfl⟩ := append_of_mem hop
    rw [foldOps_append, foldOps_append, foldOps_cons, foldOps_cons,
      apply_eq_apply (.inl hkeyed)]

theorem foldOps_eq_iff_carries {a : Option FileState} (ha : a.isSome) (hkey : seriesKey a = "")
    (t : List ShareOp) : foldOps a t = foldOps none t ↔ ∃ op ∈ t, op.Carries := by
  constructor
  · intro h
    have hsome := (foldOps_isSome_iff a t).mpr (.inl ha)
    rw [h, foldOps_isSome_iff] at hsome
    simpa using hsome
  · intro h
    induction t generalizing a with
    | nil => simp at h
    | cons op t ih =>
      rw [foldOps_cons, foldOps_cons]
      by_cases hop : op.Carries
      · rw [apply_eq_apply (b := none) (.inr ⟨hop, hkey, rfl⟩)]
      · -- an op that leans on the share leaves the lost one lost
        have hnone : op.apply none = none := by cases op <;> simp_all [ShareOp.apply, ShareOp.Carries]
        have hunkeyed : seriesKey (op.apply a) = "" := by
          by_contra hne
          exact hop (((seriesKey_apply_iff a op).mp hne).resolve_left (fun h => h hkey)).carries
        rw [hnone]
        refine ih ((apply_isSome_iff a op).mpr (.inl ha)) hunkeyed ?_
        simpa [hop] using h

/-- When a share survives a cut: the identity is brought along by the last op before the
cut or by one behind it, and so is the series key, unless no op before the cut has one. -/
def ShareSurvivesCut (p t : List ShareOp) : Prop :=
  ((∃ op ∈ p, op.Carries) → (∃ op ∈ p.getLast?, op.Carries) ∨ ∃ op ∈ t, op.Carries) ∧
    ((∃ op ∈ p, op.Keyed) → (∃ op ∈ p.getLast?, op.Keyed) ∨ ∃ op ∈ t, op.Keyed)

theorem foldOps_cut_iff (p t : List ShareOp) :
    foldOps none (p ++ t) = foldOps none (p.getLast?.toList ++ t) ↔ ShareSurvivesCut p t := by
  rcases p.eq_nil_or_concat with rfl | ⟨q, x, rfl⟩
  · simp [ShareSurvivesCut]
  rw [concat_eq_append, foldOps_append none (q ++ [x]), getLast?_concat,
    toList_some, ShareSurvivesCut, getLast?_concat]
  have hx : foldOps none ([x] ++ t) = foldOps (x.apply none) t := rfl
  have hp : foldOps none (q ++ [x]) = x.apply (foldOps none q) := by rw [foldOps_append]; rfl
  have hkeyp := seriesKey_foldOps_iff none (q ++ [x])
  have hkeyx := seriesKey_apply_iff none x
  simp only [show seriesKey none = "" from rfl, ne_eq, not_true_eq_false, false_or] at hkeyp hkeyx
  by_cases hxkeyed : x.Keyed
  · rw [hp, hx, apply_eq_apply (b := none) (.inl hxkeyed)]
    simp [hxkeyed, hxkeyed.carries]
  by_cases hpkeyed : ∃ op ∈ q ++ [x], op.Keyed
  · rw [hx, foldOps_eq_iff_keyed (hkeyp.mpr hpkeyed) (not_not.mp fun h => hxkeyed (hkeyx.mp h))]
    simp only [hpkeyed, mem_some_iff, exists_eq_left', hxkeyed, false_or, forall_const]
    exact ⟨fun ⟨op, hop, hk⟩ => ⟨fun _ => .inr ⟨op, hop, hk.carries⟩, op, hop, hk⟩, And.right⟩
  have hunkeyed : seriesKey (foldOps none (q ++ [x])) = "" :=
    not_not.mp fun h => hpkeyed (hkeyp.mp h)
  by_cases hxcarries : x.Carries
  · have hq : seriesKey (foldOps none q) = "" := by
      by_contra hne
      obtain ⟨op, hop, hk⟩ := ((seriesKey_foldOps_iff none q).mp hne).resolve_left (fun h => h rfl)
      exact hpkeyed ⟨op, mem_append_left _ hop, hk⟩
    rw [hp, hx, apply_eq_apply (b := none) (.inr ⟨hxcarries, hq, rfl⟩)]
    exact iff_of_true rfl ⟨fun _ => .inl ⟨x, rfl, hxcarries⟩, fun h => absurd h hpkeyed⟩
  have hnone : x.apply none = none := by cases x <;> simp_all [ShareOp.apply, ShareOp.Carries]
  by_cases hpcarries : ∃ op ∈ q ++ [x], op.Carries
  · have hsome := (foldOps_isSome_iff none (q ++ [x])).mpr (.inr hpcarries)
    rw [hx, hnone, foldOps_eq_iff_carries hsome hunkeyed]
    simp only [hpkeyed, hpcarries, mem_some_iff, exists_eq_left', hxcarries, false_or,
      forall_const, false_imp_iff, and_true]
  · have hlost : foldOps none (q ++ [x]) = none := by
      by_contra hne
      have := (foldOps_isSome_iff none (q ++ [x])).mp (isSome_iff_ne_none.mpr hne)
      exact hpcarries (this.resolve_left (by simp))
    rw [hlost, hx, hnone]
    exact iff_of_true rfl ⟨fun h => absurd h hpcarries, fun h => absurd h hpkeyed⟩

end

section

def shareOp (id : String) (v : Value) : Option ShareOp :=
  if parseId v = some id ∧ v.getStr "op" ∈ [some "persist", some "unpersist", some "delete"] then
    some (readOp v)
  else none

def shareOps (id : String) (entries : List (UInt64 × Value)) : List ShareOp :=
  (payloads entries).filterMap (shareOp id)

theorem readOp_ignored {v : Value}
    (h : v.getStr "op" ∉ [some "persist", some "unpersist", some "delete"]) :
    readOp v = .ignored := by
  have hw : verdictOf v = none := by
    unfold verdictOf
    split <;> simp_all
  rw [readOp, hw]

theorem foldFileEntry_apply (out : String → Option FileState) (v : Value) (id : String) :
    foldFileEntry out v id = (shareOp id v).elim (out id) (ShareOp.apply (out id)) := by
  unfold foldFileEntry shareOp
  cases hid : parseId v with
  | none => simp
  | some j =>
    by_cases hj : j = id
    · subst hj
      by_cases hop : v.getStr "op" ∈ [some "persist", some "unpersist", some "delete"]
      · simp [fileStep_eq_apply, hop]
      · simp [fileStep_eq_apply, readOp_ignored hop, hop, ShareOp.apply]
    · simp [hj, update_of_ne (Ne.symm hj)]

theorem filesState_apply (entries : List Value) (id : String) :
    filesState entries id = foldOps none (entries.filterMap (shareOp id)) := by
  have hstart : ∀ (out : String → Option FileState), entries.foldl foldFileEntry out id =
      foldOps (out id) (entries.filterMap (shareOp id)) := by
    induction entries with
    | nil => intro out; rfl
    | cons v entries ih =>
      intro out
      rw [foldl_cons, ih, foldFileEntry_apply]
      cases hv : shareOp id v <;> simp [hv]
  exact hstart _

theorem shareOp_isSome_iff {id : String}
    (hid : ((utf8 id).length == 32 && (utf8 id).all isLowerHexdigit) = true) (v : Value) :
    (shareOp id v).isSome ↔ appliedLwwSlot .files v = some ("files." ++ id) := by
  have hslotId : isShareSlotId id = true := by
    rw [Bool.and_eq_true] at hid
    rw [isShareSlotId, Bool.and_eq_true]
    refine ⟨hid.1, all_eq_true.mpr fun b hb => ?_⟩
    exact isAsciiHexdigit_of_lower (all_eq_true.mp hid.2 b hb)
  have hparse : parseId v = some id ↔ v.getStr "id" = some id := by
    rw [parseId, filter_eq_some_iff]
    exact and_iff_left hid
  have hshare : (shareOp id v).isSome ↔ v.getStr "id" = some id ∧
      v.getStr "op" ∈ [some "persist", some "unpersist", some "delete"] := by
    rw [← hparse, shareOp]
    split_ifs with h
    · exact iff_of_true rfl h
    · exact iff_of_false (by simp) h
  rw [hshare, show appliedLwwSlot .files v = filesSlot v from rfl, filesSlot]
  split <;> simp_all

theorem shareOp_eq_none {id : String}
    (hid : ¬((utf8 id).length == 32 && (utf8 id).all isLowerHexdigit) = true) (v : Value) :
    shareOp id v = none := by
  unfold shareOp
  rw [if_neg]
  rintro ⟨hparse, _⟩
  exact hid (filter_eq_some_iff.mp hparse).2

def FilesSurviveCut (before after : List (UInt64 × Value)) : Prop :=
  ∀ id, ShareSurvivesCut (shareOps id before) (shareOps id after)

theorem filesState_cut_iff (before after : List (UInt64 × Value)) :
    filesState (payloads (before ++ after)) =
        filesState (payloads (summarize .files before ++ after)) ↔
      FilesSurviveCut before after := by
  rw [funext_iff]
  refine forall_congr' fun id => ?_
  rw [filesState_apply, filesState_apply]
  by_cases hid : ((utf8 id).length == 32 && (utf8 id).all isLowerHexdigit) = true
  · rw [filterMap_payloads_cut (shareOp_isSome_iff hid), filterMap_payloads_append]
    exact foldOps_cut_iff _ _
  · have hnil : ∀ l : List Value, l.filterMap (shareOp id) = [] := fun l =>
      List.filterMap_eq_nil_iff.mpr fun v _ => shareOp_eq_none hid v
    refine iff_of_true (by rw [hnil, hnil]) ?_
    simp [shareOps, hnil, ShareSurvivesCut]

def samplePersist : Value :=
  .obj [("by", .str "ana"), ("id", .str "000102030405060708090a0b0c0d0e0f"),
    ("key_b64", .str "AAAAAAAAAAAAAAAAAAAAAAAAAAAAAAAAAAAAAAAAAAA="), ("name", .str "plan.txt"),
    ("op", .str "persist"), ("pieces", .num (.posInt 1)),
    ("root", .str "1111111111111111111111111111111111111111111111111111111111111111"),
    ("size", .num (.posInt 1000))]

def sampleUnpersist : Value :=
  .obj [("at", .num (.posInt 5)), ("by", .str "ana"),
    ("id", .str "000102030405060708090a0b0c0d0e0f"), ("name", .str "plan.txt"),
    ("op", .str "unpersist"), ("size", .num (.posInt 1000))]

/-- The full log keeps the key the first vote pinned; behind the cut only the second vote
is left, and the share has none. -/
theorem filesState_cut_forgets :
    filesState (payloads ([(1, samplePersist), (2, sampleUnpersist)] ++ [])) ≠
      filesState (payloads (summarize .files [(1, samplePersist), (2, sampleUnpersist)] ++ [])) := by
  intro h
  have hshare := congrFun h "000102030405060708090a0b0c0d0e0f"
  revert hshare
  decide

end

end Molt.Projection
