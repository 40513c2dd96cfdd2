import Mathlib
import MoltRepublic.Projection.Relays

/-! The organization as the applied log leaves it (`org_effective` and
`member_profiles`). Every field is a register of its own: the name refuses a blank
value and the retention window an unparseable one, the others take every edit. -/

namespace Molt.Projection
open Molt.Core Text Json Guarded List Function Option

structure Unicode where
  isAlphanumeric : Char → Bool
  charToLowercase : Char → List Char
  toLowercase : String → String

/-- What a node brings to the reading of the log: the founding names of its replica, the
directory of the open workspace, Unicode and SHA-256. -/
structure Reader where
  unicode : Unicode
  sha256 : List UInt8 → List UInt8
  name : String
  agenda : String
  dir : Option String
  relays : List String

def isAsciiAlphanumeric (c : Char) : Bool :=
  ('0' ≤ c && c ≤ '9') || ('a' ≤ c && c ≤ 'z') || ('A' ≤ c && c ≤ 'Z')

/-- `slugify`: lowercase, runs of other characters collapsed to single dashes; `dash`
suppresses the next one. -/
def slugChars (U : Unicode) : List Char → Bool → List Char
  | [], _ => []
  | c :: cs, dash =>
    if U.isAlphanumeric c then U.charToLowercase c ++ slugChars U cs false
    else if dash then slugChars U cs true
    else '-' :: slugChars U cs true

def trimEndDashes (cs : List Char) : List Char := (cs.reverse.dropWhile (· == '-')).reverse

def slugify (U : Unicode) (name : String) : String :=
  let trimmed := trimEndDashes (slugChars U name.toList true)
  if trimmed.isEmpty then "workspace" else String.ofList trimmed

def afterLastDot (cs : List Char) : List Char := (cs.reverse.takeWhile (· != '.')).reverse

def logoExt (U : Unicode) (value : String) : String :=
  let ext := U.toLowercase (String.ofList (afterLastDot value.toList))
  if ext != "" && (utf8 ext).length ≤ 5 && ext != value && ext.toList.all isAsciiAlphanumeric then
    ext
  else "png"

def avatarStem (R : Reader) (member : String) : String :=
  let slug := (slugify R.unicode member).toList.filter fun c => isAsciiAlphanumeric c || c == '-'
  let hash := String.ofList ((hexEncode (R.sha256 (utf8 member))).toList.take 24)
  let trimmed := trimEndDashes (slug.dropWhile (· == '-'))
  if trimmed.isEmpty then hash else String.ofList trimmed ++ "-" ++ hash

def avatarFileName (R : Reader) (member value : String) : String :=
  "avatar-" ++ avatarStem R member ++ "." ++ logoExt R.unicode value

def pathJoin (dir file : String) : String :=
  if dir = "" || dir.toList.getLast? = some '/' then dir ++ file else dir ++ "/" ++ file

/-- The picture an image entry stands for: the materialized file when the workspace is
open and the entry carries bytes, else the display value. -/
def imageRef (R : Reader) (file value : String) (v : Value) : String :=
  match R.dir, (v.getStr "bytes_b64").any (· != "") with
  | some dir, true => pathJoin dir file
  | _, _ => value

def entryValue (v : Value) : String := (v.getStr "value").getD ""

def defaultChatRetentionDays : UInt64 := 7

def parseRetentionDays (value : String) : Option UInt64 := do
  let word ← (splitWhitespace value).head?
  let days ← parseU64 word
  if 1 ≤ days ∧ days ≤ 365 then some days else none

@[ext] structure OrgEffective where
  name : String
  agenda : String
  retentionDays : UInt64
  image : String
  relays : String

def joinSpace (l : List String) : String := String.intercalate " " l

def foldOrgEntry (R : Reader) (eff : OrgEffective) (v : Value) : OrgEffective :=
  match v.getStr "op" with
  | some "set_name" =>
    let name := trim (entryValue v)
    if name ≠ "" then { eff with name := name } else eff
  | some "set_charter" => { eff with agenda := entryValue v }
  | some "set_chat_retention" =>
    match parseRetentionDays (entryValue v) with
    | some days => { eff with retentionDays := days }
    | none => eff
  | some "set_image" =>
    { eff with image := imageRef R ("logo." ++ logoExt R.unicode (entryValue v)) (entryValue v) v }
  | some "remove_image" => { eff with image := "" }
  | some "set_relays" =>
    { eff with relays := joinSpace (foldPoolEdit (splitWhitespace eff.relays) (entryValue v)) }
  | _ => eff

def orgEffective (R : Reader) (entries : List Value) : OrgEffective :=
  entries.foldl (foldOrgEntry R)
    ⟨R.name, R.agenda, defaultChatRetentionDays, "", joinSpace R.relays⟩

@[ext] structure MemberProfile where
  image : String
  desc : String

def profileEntry (R : Reader) (member : String) (entry : MemberProfile) (v : Value) :
    Option MemberProfile :=
  match v.getStr "op" with
  | some "set_member_image" =>
    let file := avatarFileName R member (entryValue v)
    some { entry with image := imageRef R file (entryValue v) v }
  | some "remove_member_image" => some { entry with image := "" }
  | some "set_member_desc" => some { entry with desc := entryValue v }
  | _ => none

def foldProfileEntry (R : Reader) (out : String → Option MemberProfile) (v : Value) :
    String → Option MemberProfile :=
  match profileMember v with
  | none => out
  | some member =>
    match profileEntry R member ((out member).getD ⟨"", ""⟩) v with
    | some profile => update out member (some profile)
    | none => out

def memberProfiles (R : Reader) (entries : List Value) : String → Option MemberProfile :=
  entries.foldl (foldProfileEntry R) fun _ => none

section

def opValue (op : String) (v : Value) : Option String :=
  if v.getStr "op" = some op then some (entryValue v) else none

def imageEdit (R : Reader) (v : Value) : Option String :=
  match v.getStr "op" with
  | some "set_image" =>
    some (imageRef R ("logo." ++ logoExt R.unicode (entryValue v)) (entryValue v) v)
  | some "remove_image" => some ""
  | _ => none

def memberImageEdit (R : Reader) (m : String) (v : Value) : Option String :=
  if profileMember v = some m then
    match v.getStr "op" with
    | some "set_member_image" =>
      some (imageRef R (avatarFileName R m (entryValue v)) (entryValue v) v)
    | some "remove_member_image" => some ""
    | _ => none
  else none

def memberDescEdit (m : String) (v : Value) : Option String :=
  if profileMember v = some m ∧ v.getStr "op" = some "set_member_desc" then some (entryValue v)
  else none

def ValidName (value : String) : Prop := trim value ≠ ""

def ValidRetention (value : String) : Prop := (parseRetentionDays value).isSome

instance : DecidablePred ValidName := fun _ => inferInstanceAs (Decidable (_ ≠ _))

instance : DecidablePred ValidRetention := fun _ => inferInstanceAs (Decidable (_ = true))

def retentionValue (value : String) : UInt64 := (parseRetentionDays value).getD 0

variable (R : Reader)

variable (eff : OrgEffective)

theorem foldOrgEntry_name (v : Value) :
    (foldOrgEntry R eff v).name = (opValue "set_name" v).elim eff.name
      (edit (fun _ e => ValidName e) trim eff.name) := by
  unfold foldOrgEntry opValue
  split
  case h_1 hop =>
    by_cases hblank : trim (entryValue v) = "" <;> simp [hop, edit, ValidName, hblank]
  case h_3 hop =>
    simp only [hop, Option.some.injEq, String.reduceEq, if_false, elim_none]
    split <;> rfl
  all_goals simp_all

theorem foldOrgEntry_agenda (v : Value) :
    (foldOrgEntry R eff v).agenda = (opValue "set_charter" v).elim eff.agenda
      (edit (fun _ _ => True) id eff.agenda) := by
  unfold foldOrgEntry opValue
  split
  case h_1 hop =>
    simp only [hop, Option.some.injEq, String.reduceEq, if_false, elim_none]
    split_ifs <;> rfl
  case h_3 hop =>
    simp only [hop, Option.some.injEq, String.reduceEq, if_false, elim_none]
    split <;> rfl
  all_goals simp_all [edit]

theorem foldOrgEntry_retentionDays (v : Value) :
    (foldOrgEntry R eff v).retentionDays = (opValue "set_chat_retention" v).elim eff.retentionDays
      (edit (fun _ e => ValidRetention e) retentionValue eff.retentionDays) := by
  unfold foldOrgEntry opValue
  split
  case h_1 hop =>
    simp only [hop, Option.some.injEq, String.reduceEq, if_false, elim_none]
    split_ifs <;> rfl
  case h_3 hop =>
    cases hdays : parseRetentionDays (entryValue v) <;>
      simp [hop, edit, ValidRetention, retentionValue, hdays]
  all_goals simp_all

theorem foldOrgEntry_image (v : Value) :
    (foldOrgEntry R eff v).image = (imageEdit R v).elim eff.image
      (edit (fun _ _ => True) id eff.image) := by
  unfold foldOrgEntry imageEdit
  split
  case h_1 hop =>
    simp only [hop]
    split_ifs <;> rfl
  case h_3 hop =>
    simp only [hop]
    split <;> rfl
  all_goals simp_all [edit]

/-- The pictures and descriptions a seat was given, read as its profile: a seat nobody
gave either has none. -/
def profileOf (image desc : Option String) : Option MemberProfile :=
  if image = none ∧ desc = none then none else some ⟨image.getD "", desc.getD ""⟩

theorem profileEntry_eq (m : String) (image desc : Option String) (v : Value) (hm : profileMember v = some m) :
    profileEntry R m ⟨image.getD "", desc.getD ""⟩ v =
      if memberImageEdit R m v = none ∧ memberDescEdit m v = none then none
      else profileOf ((memberImageEdit R m v).or image) ((memberDescEdit m v).or desc) := by
  unfold profileEntry memberImageEdit memberDescEdit
  split <;> simp_all [profileOf]

theorem foldProfileEntry_apply (out : String → Option MemberProfile) (v : Value) (m : String)
    (image desc : Option String) (h : out m = profileOf image desc) :
    foldProfileEntry R out v m =
      profileOf ((memberImageEdit R m v).or image) ((memberDescEdit m v).or desc) := by
  unfold foldProfileEntry
  by_cases hm : profileMember v = some m
  · have hentry : (out m).getD ⟨"", ""⟩ = ⟨image.getD "", desc.getD ""⟩ := by
      rw [h, profileOf]
      split_ifs with hnone
      · rw [hnone.1, hnone.2]; rfl
      · rfl
    simp only [hm, hentry, profileEntry_eq R m image desc v hm]
    split_ifs with hnone
    · simp [hnone.1, hnone.2, h]
    · cases hp : profileOf ((memberImageEdit R m v).or image) ((memberDescEdit m v).or desc) with
      | none => simp_all [profileOf]
      | some profile => simp
  · have hedits : memberImageEdit R m v = none ∧ memberDescEdit m v = none := by
      simp [memberImageEdit, memberDescEdit, hm]
    rw [hedits.1, hedits.2, none_or, none_or, ← h]
    cases hv : profileMember v with
    | none => rfl
    | some member =>
      have hne : m ≠ member := fun he => hm (by rw [hv, he])
      cases hp : profileEntry R member ((out member).getD ⟨"", ""⟩) v with
      | none => simp [hp]
      | some profile => simp [hp, update_of_ne hne]

theorem memberProfiles_apply (entries : List Value) (m : String) :
    memberProfiles R entries m = profileOf (entries.filterMap (memberImageEdit R m)).getLast?
      (entries.filterMap (memberDescEdit m)).getLast? := by
  unfold memberProfiles
  induction entries using List.reverseRecOn with
  | nil => rfl
  | append_singleton entries v ih =>
    rw [foldl_append, foldl_cons, foldl_nil, foldProfileEntry_apply R _ v m _ _ ih,
      filterMap_append, filterMap_append, getLast?_append, getLast?_append]
    cases hi : memberImageEdit R m v <;> cases hd : memberDescEdit m v <;>
      simp [hi, hd]

end

section

theorem opValue_isSome_iff {op slot : String}
    (h : ∀ v : Value, v.getStr "op" = some op ↔ appliedLwwSlot .organization v = some slot)
    (v : Value) : (opValue op v).isSome ↔ appliedLwwSlot .organization v = some slot := by
  rw [← h, opValue]
  split_ifs with hop <;> simp [hop]

theorem setName_slot (v : Value) : v.getStr "op" = some "set_name" ↔
    appliedLwwSlot .organization v = some "organization.name" :=
  (Iff.trans (organizationSlot_eq_iff (by decide) v) (by simp)).symm

theorem setCharter_slot (v : Value) : v.getStr "op" = some "set_charter" ↔
    appliedLwwSlot .organization v = some "organization.charter" :=
  (Iff.trans (organizationSlot_eq_iff (by decide) v) (by simp)).symm

theorem setChatRetention_slot (v : Value) : v.getStr "op" = some "set_chat_retention" ↔
    appliedLwwSlot .organization v = some "organization.retention" :=
  (Iff.trans (organizationSlot_eq_iff (by decide) v) (by simp)).symm

theorem imageEdit_isSome_iff (R : Reader) (v : Value) : (imageEdit R v).isSome ↔
    appliedLwwSlot .organization v = some "organization.image" := by
  refine Iff.trans ?_ (organizationSlot_eq_iff (by decide) v).symm
  unfold imageEdit
  split <;> simp_all

theorem memberImageEdit_isSome_iff (R : Reader) (m : String) (v : Value) :
    (memberImageEdit R m v).isSome ↔
      appliedLwwSlot .organization v = some ("member.image:" ++ m) := by
  refine Iff.trans ?_ (organizationSlot_eq_image_iff v m).symm
  unfold memberImageEdit
  split_ifs with hm
  · split <;> simp_all
  · simp [hm]

theorem memberDescEdit_isSome_iff (m : String) (v : Value) : (memberDescEdit m v).isSome ↔
    appliedLwwSlot .organization v = some ("member.desc:" ++ m) := by
  refine Iff.trans ?_ (organizationSlot_eq_desc_iff v m).symm
  unfold memberDescEdit
  split_ifs with h <;> simp [h]

end

def SameOrganization (R : Reader) (xs ys : List Value) : Prop :=
  (orgEffective R xs).name = (orgEffective R ys).name ∧
    (orgEffective R xs).agenda = (orgEffective R ys).agenda ∧
    (orgEffective R xs).retentionDays = (orgEffective R ys).retentionDays ∧
    (orgEffective R xs).image = (orgEffective R ys).image ∧
    memberProfiles R xs = memberProfiles R ys

def opValues (op : String) (entries : List (UInt64 × Value)) : List String :=
  (payloads entries).filterMap (opValue op)

/-- When the organization survives a cut: for the name and for the retention window, the
last edit before the cut is valid, or one behind it is, or the last valid value before
the cut is the one the republic starts with. -/
def OrgSurvivesCut (R : Reader) (before after : List (UInt64 × Value)) : Prop :=
  ValidSurvivesCut ValidName trim R.name (opValues "set_name" before) (opValues "set_name" after) ∧
    ValidSurvivesCut ValidRetention retentionValue defaultChatRetentionDays
      (opValues "set_chat_retention" before) (opValues "set_chat_retention" after)

variable (R : Reader)

theorem orgEffective_name_cut_iff (before after : List (UInt64 × Value)) :
    (orgEffective R (payloads (before ++ after))).name =
        (orgEffective R (payloads (summarize .organization before ++ after))).name ↔
      ValidSurvivesCut ValidName trim R.name (opValues "set_name" before)
        (opValues "set_name" after) := by
  have h := fun entries => foldl_eq_run (foldOrgEntry_name R)
    ⟨R.name, R.agenda, defaultChatRetentionDays, "", joinSpace R.relays⟩ entries
  rw [orgEffective, orgEffective, h, h, filterMap_payloads_cut (opValue_isSome_iff setName_slot),
    filterMap_payloads_append]
  exact run_valid_summary_iff _ _ _

theorem orgEffective_retentionDays_cut_iff (before after : List (UInt64 × Value)) :
    (orgEffective R (payloads (before ++ after))).retentionDays =
        (orgEffective R (payloads (summarize .organization before ++ after))).retentionDays ↔
      ValidSurvivesCut ValidRetention retentionValue defaultChatRetentionDays
        (opValues "set_chat_retention" before) (opValues "set_chat_retention" after) := by
  have h := fun entries => foldl_eq_run (foldOrgEntry_retentionDays R)
    ⟨R.name, R.agenda, defaultChatRetentionDays, "", joinSpace R.relays⟩ entries
  rw [orgEffective, orgEffective, h, h,
    filterMap_payloads_cut (opValue_isSome_iff setChatRetention_slot), filterMap_payloads_append]
  exact run_valid_summary_iff _ _ _

theorem orgEffective_agenda_cut (before after : List (UInt64 × Value)) :
    (orgEffective R (payloads (before ++ after))).agenda =
      (orgEffective R (payloads (summarize .organization before ++ after))).agenda := by
  have h := fun entries => foldl_eq_run (foldOrgEntry_agenda R)
    ⟨R.name, R.agenda, defaultChatRetentionDays, "", joinSpace R.relays⟩ entries
  rw [orgEffective, orgEffective, h, h, filterMap_payloads_append,
    filterMap_payloads_cut (opValue_isSome_iff setCharter_slot)]
  exact run_always_summary _ _ _

theorem orgEffective_image_cut (before after : List (UInt64 × Value)) :
    (orgEffective R (payloads (before ++ after))).image =
      (orgEffective R (payloads (summarize .organization before ++ after))).image := by
  have h := fun entries => foldl_eq_run (foldOrgEntry_image R)
    ⟨R.name, R.agenda, defaultChatRetentionDays, "", joinSpace R.relays⟩ entries
  rw [orgEffective, orgEffective, h, h, filterMap_payloads_append,
    filterMap_payloads_cut (imageEdit_isSome_iff R)]
  exact run_always_summary _ _ _

theorem memberProfiles_cut (before after : List (UInt64 × Value)) :
    memberProfiles R (payloads (before ++ after)) =
      memberProfiles R (payloads (summarize .organization before ++ after)) := by
  funext m
  rw [memberProfiles_apply, memberProfiles_apply, filterMap_payloads_append,
    filterMap_payloads_append, filterMap_payloads_cut (memberImageEdit_isSome_iff R m),
    filterMap_payloads_cut (memberDescEdit_isSome_iff m), getLast?_summary, getLast?_summary]

theorem sameOrganization_cut_iff (R : Reader) (before after : List (UInt64 × Value)) :
    SameOrganization R (payloads (before ++ after))
        (payloads (summarize .organization before ++ after)) ↔
      OrgSurvivesCut R before after := by
  simp only [SameOrganization, orgEffective_agenda_cut R before after,
    orgEffective_image_cut R before after, memberProfiles_cut R before after, true_and, and_true]
  exact and_congr (orgEffective_name_cut_iff R before after)
    (orgEffective_retentionDays_cut_iff R before after)

def setName (value : String) : Value := .obj [("op", .str "set_name"), ("value", .str value)]

def sampleReader : Reader where
  unicode := ⟨isAsciiAlphanumeric, fun c => [c.toLower], String.toLower⟩
  sha256 := id
  name := "Founded"
  agenda := ""
  dir := none
  relays := []

/-- Named `Alpha`, then by a blank edit nobody reads: after the cut only the blank edit is
left, and the republic is back to its founding name. -/
theorem sameOrganization_cut_forgets : ¬SameOrganization sampleReader
    (payloads ([(1, setName "Alpha"), (2, setName " ")] ++ []))
    (payloads (summarize .organization [(1, setName "Alpha"), (2, setName " ")] ++ [])) := by
  intro h
  have hname := h.1
  revert hname
  decide

end Molt.Projection
