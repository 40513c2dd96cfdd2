import Mathlib
import MoltRepublic.Core.Text
import MoltRepublic.Lib.SortedMap

/-! Backup retention: a workspace keeps its newest copies in the bucket, and the bucket is held
under a quota. Neither deletes the copy just uploaded nor a copy older than a set-aside keys
file, and the quota leaves every workspace its newest copy. -/

namespace Molt.Backup
open Text List SortedMap
open Option hiding all_eq_true filter_filter filter_map mem_map mem_map_of_mem

section

structure BackupObject where
  key : String
  size : ℕ
  deriving DecidableEq

def backupObjectPrefix : String := "molt/"

/-- `format!` with a width of twelve digits. -/
def paddedDigits (ts : ℕ) : List Char := (Nat.toDigits 10 ts).leftpad 12 '0'

def backupKey (id : String) (ts : ℕ) : String :=
  backupObjectPrefix ++ id ++ "/" ++ String.ofList (paddedDigits ts) ++ ".molt.enc"

def stripSuffixChars (tail cs : List Char) : Option (List Char) :=
  (stripPrefixChars tail.reverse cs.reverse).map List.reverse

def isLowerHex (c : Char) : Bool := ('0' ≤ c && c ≤ '9') || ('a' ≤ c && c ≤ 'f')

def parseBackupKey (key : String) : Option (String × ℕ) := do
  let rest ← stripPrefixChars backupObjectPrefix.toList key.toList
  let (id, file) ← splitOnceChars '/' rest
  -- a name of 64 bytes that are all hex digits is one of 64 characters
  if id.length ≠ 64 ∨ ¬ id.all isLowerHex then none
  else
    let stem ← stripSuffixChars ".molt.enc".toList file
    if stem.length ≠ 12 ∨ ¬ stem.all Char.isDigit then none
    else
      let ts ← parseU64 (String.ofList stem)
      return (String.ofList id, ts.toNat)

theorem stripSuffixChars_eq {tail cs rest : List Char} (h : stripSuffixChars tail cs = some rest) :
    cs = rest ++ tail := by
  obtain ⟨back, hback, rfl⟩ := map_eq_some_iff.mp h
  have hcs := congrArg List.reverse (stripPrefixChars_eq_some.mp hback)
  rwa [reverse_reverse, reverse_append, reverse_reverse] at hcs

theorem splitOnceChars_eq {d : Char} {cs left right : List Char} (h : splitOnceChars d cs = some (left, right)) :
    cs = left ++ d :: right := by
  induction cs generalizing left with
  | nil => cases h
  | cons c cs ih =>
    rw [splitOnceChars] at h
    split_ifs at h with hcd
    · cases h
      rw [hcd, nil_append]
    · obtain ⟨⟨left', right'⟩, hrest, heq⟩ := map_eq_some_iff.mp h
      cases heq
      rw [ih hrest, cons_append]

structure Named (key id : String) (ts : ℕ) (stem : List Char) : Prop where
  spells : key.toList = backupObjectPrefix.toList ++ (id.toList ++ '/' :: (stem ++ ".molt.enc".toList))
  width : stem.length = 12
  digits : ∀ c ∈ stem, c.isDigit = true
  age : ts = Nat.ofDigitChars 10 stem 0

variable {ts : ℕ}

theorem parseBackupKey_named {key id : String} (h : parseBackupKey key = some (id, ts)) :
    ∃ stem, Named key id ts stem := by
  unfold parseBackupKey at h
  obtain ⟨rest, hrest, h⟩ := bind_eq_some_iff.mp h
  obtain ⟨⟨name, file⟩, hsplit, h⟩ := bind_eq_some_iff.mp h
  dsimp only at h
  split_ifs at h with hname
  obtain ⟨stem, hstem, h⟩ := bind_eq_some_iff.mp h
  split_ifs at h with hwidth
  obtain ⟨value, hvalue, h⟩ := bind_eq_some_iff.mp h
  cases h
  push Not at hwidth
  have hdigits := all_eq_true.mp hwidth.2
  have hne : stem ≠ [] := fun hnil => by simp [hnil] at hwidth
  rw [parseU64_digits hne hdigits] at hvalue
  split_ifs at hvalue with hbound
  refine ⟨stem, ?_, hwidth.1, hdigits, ?_⟩
  · rw [stripPrefixChars_eq_some.mp hrest, splitOnceChars_eq hsplit, stripSuffixChars_eq hstem]
    simp
  · rw [← Option.some.inj hvalue]
    exact UInt64.toNat_ofNat_of_lt' hbound

theorem paddedDigits_digits (ts : ℕ) : ∀ c ∈ paddedDigits ts, c.isDigit = true := by
  intro c hc
  rcases mem_append.mp hc with hzero | hdigit
  · rw [eq_of_mem_replicate hzero]
    rfl
  · exact Nat.isDigit_of_mem_toDigits (by decide) (by decide) hdigit

theorem paddedDigits_value (ts : ℕ) : Nat.ofDigitChars 10 (paddedDigits ts) 0 = ts := by
  have hzeros : ∀ n, Nat.ofDigitChars 10 (List.replicate n '0' ++ Nat.toDigits 10 ts) 0 = ts := by
    intro n
    induction n with
    | zero => exact Nat.ofDigitChars_ten_toDigits
    | succ n ih =>
      exact ih
  exact hzeros _

theorem length_paddedDigits (h : ts < 10 ^ 12) : (paddedDigits ts).length = 12 := by
  have hlen : (Nat.toDigits 10 ts).length ≤ 12 := (Nat.length_toDigits_le_iff (by decide) (by decide)).mpr h
  unfold paddedDigits
  rw [length_leftpad]
  exact Nat.max_eq_left hlen

theorem parse_backupKey {id : String} (hlen : id.toList.length = 64) (hhex : id.toList.all isLowerHex = true)
    (hts : ts < 10 ^ 12) : parseBackupKey (backupKey id ts) = some (id, ts) := by
  have hwidth := length_paddedDigits hts
  have hdigits := paddedDigits_digits ts
  have hslash : '/' ∉ id.toList := fun hmem => by
    have hbad := all_eq_true.mp hhex _ hmem
    simp [isLowerHex] at hbad
  have hspell : (backupKey id ts).toList =
      backupObjectPrefix.toList ++ (id.toList ++ '/' :: (paddedDigits ts ++ ".molt.enc".toList)) := by
    simp [backupKey]
  have hstem : stripSuffixChars ".molt.enc".toList (paddedDigits ts ++ ".molt.enc".toList) =
      some (paddedDigits ts) := by
    unfold stripSuffixChars
    rw [reverse_append, stripPrefixChars_append, map_some, reverse_reverse]
  have hne : paddedDigits ts ≠ [] := fun hnil => by simp [hnil] at hwidth
  have hbound : ts < 2 ^ 64 := hts.trans (by decide)
  unfold parseBackupKey
  rw [hspell, stripPrefixChars_append]
  dsimp only [bind_eq_bind, bind_some]
  rw [splitOnceChars_append hslash]
  dsimp only [bind_some]
  rw [if_neg (by simp [hlen, hhex]), hstem, bind_some,
    if_neg (by simpa [hwidth] using hdigits), parseU64_digits hne hdigits, paddedDigits_value, if_pos hbound,
    bind_some, UInt64.toNat_ofNat_of_lt' hbound, String.ofList_toList]
  rfl

theorem parse_backupKey_sample : parseBackupKey (backupKey (String.ofList (replicate 64 'a')) 1753400000) =
    some (String.ofList (replicate 64 'a'), 1753400000) :=
  parse_backupKey (by decide +kernel) (by decide +kernel) (by decide)

end

section

theorem ofDigitChars_lt {cs ds : List Char} (hlen : cs.length = ds.length) (hdigits : ∀ c ∈ cs, c.isDigit = true)
    {low high : ℕ} (h : low < high) : Nat.ofDigitChars 10 cs low < Nat.ofDigitChars 10 ds high := by
  induction cs generalizing ds low high with
  | nil =>
    cases ds with
    | nil => exact h
    | cons d ds => cases hlen
  | cons c cs ih =>
    cases ds with
    | nil => cases hlen
    | cons d ds =>
      have hc : c.toNat - '0'.toNat ≤ 9 := by
        have hdigit := hdigits c (.head _)
        simp only [Char.isDigit, Bool.and_eq_true, decide_eq_true_eq] at hdigit
        have htop : c.toNat ≤ 57 := hdigit.2
        have hzero : '0'.toNat = 48 := rfl
        omega
      rw [Nat.ofDigitChars_cons, Nat.ofDigitChars_cons]
      refine ih (Nat.succ.inj hlen) (fun x hx => hdigits x (.tail _ hx)) ?_
      omega

theorem ofDigitChars_strictMono {cs ds : List Char} (hlen : cs.length = ds.length)
    (hcs : ∀ c ∈ cs, c.isDigit = true) (hds : ∀ d ∈ ds, d.isDigit = true) (acc : ℕ) (h : cs < ds) :
    Nat.ofDigitChars 10 cs acc < Nat.ofDigitChars 10 ds acc := by
  induction cs generalizing ds acc with
  | nil =>
    cases ds with
    | nil => exact absurd h (not_lt_nil _)
    | cons d ds => cases hlen
  | cons c cs ih =>
    cases ds with
    | nil => cases hlen
    | cons d ds =>
      rw [Nat.ofDigitChars_cons, Nat.ofDigitChars_cons]
      rcases cons_lt_cons_iff.mp h with hlt | ⟨rfl, hrest⟩
      · refine ofDigitChars_lt (Nat.succ.inj hlen) (fun x hx => hcs x (.tail _ hx)) ?_
        have hlow := hcs c (.head _)
        simp only [Char.isDigit, Bool.and_eq_true, decide_eq_true_eq] at hlow
        have hbase : 48 ≤ c.toNat := hlow.1
        have hnat : c.toNat < d.toNat := hlt
        have hzero : '0'.toNat = 48 := rfl
        omega
      · exact ih (Nat.succ.inj hlen) (fun x hx => hcs x (.tail _ hx))
          (fun x hx => hds x (.tail _ hx)) _ hrest

theorem append_lt_append_iff {cs ds : List Char} (pre : List Char) : pre ++ cs < pre ++ ds ↔ cs < ds := by
  induction pre with
  | nil => rfl
  | cons c pre ih =>
    rw [cons_append, cons_append, cons_lt_cons_iff, ih]
    simp

theorem lt_append_of_lt {cs ds : List Char} (hlen : cs.length = ds.length) (tail : List Char) (h : cs < ds) :
    cs ++ tail < ds ++ tail := by
  induction cs generalizing ds with
  | nil =>
    cases ds with
    | nil => exact absurd h (not_lt_nil _)
    | cons d ds => cases hlen
  | cons c cs ih =>
    cases ds with
    | nil => cases hlen
    | cons d ds =>
      rw [cons_append, cons_append, cons_lt_cons_iff]
      rcases cons_lt_cons_iff.mp h with hlt | ⟨heq, hrest⟩
      · exact .inl hlt
      · exact .inr ⟨heq, ih (Nat.succ.inj hlen) hrest⟩

variable {key key' id : String} {ts ts' : ℕ} {stem stem' : List Char}

theorem Named.lt_of_stem (h : Named key id ts stem) (h' : Named key' id ts' stem') (hlt : stem < stem') :
    key < key' ∧ ts < ts' := by
  have hlen : stem.length = stem'.length := h.width.trans h'.width.symm
  refine ⟨?_, ?_⟩
  · rw [String.lt_iff_toList_lt, h.spells, h'.spells, append_lt_append_iff, append_lt_append_iff,
      cons_lt_cons_iff]
    exact .inr ⟨rfl, lt_append_of_lt hlen _ hlt⟩
  · rw [h.age, h'.age]
    exact ofDigitChars_strictMono hlen h.digits h'.digits 0 hlt

theorem key_lt_iff (h : parseBackupKey key = some (id, ts)) (h' : parseBackupKey key' = some (id, ts')) :
    key < key' ↔ ts < ts' := by
  obtain ⟨stem, hnamed⟩ := parseBackupKey_named h
  obtain ⟨stem', hnamed'⟩ := parseBackupKey_named h'
  rcases lt_trichotomy stem stem' with hlt | heq | hgt
  · have hboth := hnamed.lt_of_stem hnamed' hlt
    exact ⟨fun _ => hboth.2, fun _ => hboth.1⟩
  · subst heq
    have hkey : key = key' := String.toList_injective (hnamed.spells.trans hnamed'.spells.symm)
    have hts : ts = ts' := hnamed.age.trans hnamed'.age.symm
    simp [hkey, hts]
  · have hboth := hnamed'.lt_of_stem hnamed hgt
    exact ⟨fun hlt => absurd hlt (lt_asymm hboth.1), fun hlt => absurd hlt (lt_asymm hboth.2)⟩

theorem key_eq_of_age (h : parseBackupKey key = some (id, ts)) (h' : parseBackupKey key' = some (id, ts)) :
    key = key' :=
  le_antisymm (not_lt.mp fun hlt => lt_irrefl _ ((key_lt_iff h' h).mp hlt))
    (not_lt.mp fun hlt => lt_irrefl _ ((key_lt_iff h h').mp hlt))

end

section

/-- Per workspace, when a damaged keys file was set aside: an older copy may hold the share. -/
abbrev Pins := String → Option ℕ

def unpinnedKeys (keys : List String) (pinnedBefore : Option ℕ) : List String :=
  match pinnedBefore with
  | some pin => keys.filter fun k => (parseBackupKey k).all fun parsed : String × ℕ => pin ≤ parsed.2
  | none => keys

def pruneCandidates (keys : List String) (keep : ℕ) (justUploaded : String) (pinnedBefore : Option ℕ) : List String :=
  let keys := (unpinnedKeys keys pinnedBefore).mergeSort (· ≤ ·)
  let excess := keys.length - keep
  (keys.take excess).filter (· ≠ justUploaded)

def copiesOf (bucket : List BackupObject) (id : String) : List BackupObject :=
  bucket.filter fun o => (parseBackupKey o.key).any fun parsed : String × ℕ => parsed.1 = id

def pruneOldCopies (keep : ℕ) (justUploaded : String) (pins : Pins) (bucket : List BackupObject) (id : String) :
    List BackupObject :=
  let delete := pruneCandidates ((copiesOf bucket id).map BackupObject.key) keep justUploaded (pins id)
  bucket.filter fun o => o.key ∉ delete

structure QuotaObject where
  key : String
  id : String
  ts : ℕ
  size : ℕ
  deriving DecidableEq

def quotaObjects (listed : List BackupObject) : List QuotaObject :=
  listed.filterMap fun o => (parseBackupKey o.key).map fun parsed : String × ℕ => ⟨o.key, parsed.1, parsed.2, o.size⟩

def ownBackups (objects : List QuotaObject) (own : List String) : List QuotaObject := objects.filter fun o => o.id ∈ own

def saturatingAdd (a b : ℕ) : ℕ := min (a + b) (2 ^ 64 - 1)

def oldestFirst (a b : QuotaObject) : Bool := a.ts < b.ts || (a.ts == b.ts && a.key ≤ b.key)

def keepNewest (newest : SortedMap String QuotaObject) (o : QuotaObject) : SortedMap String QuotaObject :=
  match newest.get? o.id with
  | some cur => if cur.ts < o.ts ∨ cur.ts = o.ts ∧ cur.key < o.key then newest.insert o.id o else newest
  | none => newest.insert o.id o

def deleteOldest (maxBytes : ℕ) : List QuotaObject → ℕ → List String × ℕ
  | [], remaining => ([], remaining)
  | c :: candidates, remaining =>
    if remaining ≤ maxBytes then ([], remaining)
    else
      let (delete, left) := deleteOldest maxBytes candidates (remaining - c.size)
      (c.key :: delete, left)

def quotaCandidates (objects : List QuotaObject) (maxBytes : ℕ) (justUploaded : String) (pins : Pins) :
    List String × ℕ :=
  let used := objects.foldl (fun acc o => saturatingAdd acc o.size) 0
  if maxBytes = 0 ∨ used ≤ maxBytes then ([], used)
  else
    let newest := objects.foldl keepNewest SortedMap.empty
    let candidates := objects.filter fun o =>
      o.key ≠ justUploaded ∧ (pins o.id).all (fun pin => pin ≤ o.ts) ∧ (newest.get? o.id).all fun n => n.key ≠ o.key
    deleteOldest maxBytes (candidates.mergeSort oldestFirst) used

end

section
variable {pins : Pins} {keep : ℕ} {justUploaded : String}

def pinned (pins : Pins) (key : String) : Bool :=
  (parseBackupKey key).any fun parsed : String × ℕ => (pins parsed.1).any fun pin => parsed.2 < pin

variable {id : String}

variable {key : String}

theorem pinned_eq {ts : ℕ} (h : parseBackupKey key = some (id, ts)) :
    pinned pins key = (pins id).any fun pin => ts < pin := by
  unfold pinned
  rw [h]
  rfl

variable {o : BackupObject}

theorem mem_copiesOf {bucket : List BackupObject} :
    o ∈ copiesOf bucket id ↔ o ∈ bucket ∧ ∃ ts, parseBackupKey o.key = some (id, ts) := by
  unfold copiesOf
  rw [mem_filter]
  refine and_congr_right fun _ => ?_
  cases parseBackupKey o.key with
  | none => simp
  | some parsed =>
    obtain ⟨id', ts⟩ := parsed
    simp

theorem mem_unpinnedKeys {keys : List String} {ts : ℕ} (h : parseBackupKey key = some (id, ts)) :
    key ∈ unpinnedKeys keys (pins id) ↔ key ∈ keys ∧ pinned pins key = false := by
  rw [pinned_eq h]
  unfold unpinnedKeys
  cases pins id with
  | none => simp
  | some pin => simp [mem_filter, h]

theorem unpinnedKeys_copiesOf (pins : Pins) (bucket : List BackupObject) (id : String) :
    unpinnedKeys ((copiesOf bucket id).map BackupObject.key) (pins id) =
      ((copiesOf bucket id).filter fun o => !pinned pins o.key).map BackupObject.key := by
  have hcopies : ∀ o ∈ copiesOf bucket id, ∃ ts, parseBackupKey o.key = some (id, ts) :=
    fun o ho => (mem_copiesOf.mp ho).2
  unfold unpinnedKeys
  cases hpin : pins id with
  | none =>
    refine congrArg _ (filter_eq_self.mpr fun o ho => ?_).symm
    obtain ⟨ts, hts⟩ := hcopies o ho
    rw [pinned_eq hts, hpin]
    rfl
  | some pin =>
    dsimp only
    rw [filter_map]
    refine congrArg _ (filter_congr fun o ho => ?_)
    obtain ⟨ts, hts⟩ := hcopies o ho
    simp [pinned_eq hts, hpin, hts, ← decide_not]

theorem prune_cut (keys : List String) (keep : ℕ) (justUploaded : String) (pinnedBefore : Option ℕ) :
    ∃ old new : List String, (old ++ new).Perm (unpinnedKeys keys pinnedBefore) ∧ (old ++ new).Pairwise (· ≤ ·) ∧
      new.length ≤ keep ∧ pruneCandidates keys keep justUploaded pinnedBefore = old.filter (· ≠ justUploaded) := by
  set sorted := (unpinnedKeys keys pinnedBefore).mergeSort (· ≤ ·) with hsorted
  have hpairwise : sorted.Pairwise (· ≤ ·) := by
    have htrans : ∀ a b c : String, decide (a ≤ b) = true → decide (b ≤ c) = true → decide (a ≤ c) = true :=
      fun a b c hab hbc => decide_eq_true (le_trans (of_decide_eq_true hab) (of_decide_eq_true hbc))
    have htotal : ∀ a b : String, (decide (a ≤ b) || decide (b ≤ a)) = true := fun a b => by simpa using le_total a b
    exact (pairwise_mergeSort htrans htotal (unpinnedKeys keys pinnedBefore)).imp of_decide_eq_true
  refine ⟨sorted.take (sorted.length - keep), sorted.drop (sorted.length - keep), ?_, ?_, ?_, rfl⟩
  · rw [take_append_drop]
    exact mergeSort_perm _ _
  · rw [take_append_drop]
    exact hpairwise
  · rw [length_drop]
    omega

theorem mem_pruneCandidates {bucket : List BackupObject}
    (h : key ∈ pruneCandidates ((copiesOf bucket id).map BackupObject.key) keep justUploaded (pins id)) :
    key ≠ justUploaded ∧ pinned pins key = false ∧ ∃ ts, parseBackupKey key = some (id, ts) := by
  obtain ⟨old, new, hperm, -, -, hdelete⟩ :=
    prune_cut ((copiesOf bucket id).map BackupObject.key) keep justUploaded (pins id)
  rw [hdelete, mem_filter] at h
  have hkeys := hperm.subset (mem_append_left new h.1)
  have hsub : key ∈ (copiesOf bucket id).map BackupObject.key := by
    unfold unpinnedKeys at hkeys
    split at hkeys
    · exact (mem_filter.mp hkeys).1
    · exact hkeys
  obtain ⟨o, ho, rfl⟩ := mem_map.mp hsub
  obtain ⟨-, ts, hts⟩ := mem_copiesOf.mp ho
  exact ⟨of_decide_eq_true h.2, ((mem_unpinnedKeys hts).mp hkeys).2, ts, hts⟩

theorem pruneOldCopies_sublist (bucket : List BackupObject) (id : String) :
    (pruneOldCopies keep justUploaded pins bucket id).Sublist bucket := filter_sublist

theorem pruneOldCopies_keeps {bucket : List BackupObject} (ho : o ∈ bucket)
    (h : o.key = justUploaded ∨ pinned pins o.key = true) (id : String) :
    o ∈ pruneOldCopies keep justUploaded pins bucket id := by
  refine mem_filter.mpr ⟨ho, decide_eq_true fun hdelete => ?_⟩
  obtain ⟨hne, hfree, -⟩ := mem_pruneCandidates hdelete
  rcases h with hjust | hpin
  · exact hne hjust
  · rw [hfree] at hpin
    cases hpin

def counts (pins : Pins) (justUploaded : String) (o : BackupObject) : Bool :=
  !pinned pins o.key && o.key ≠ justUploaded

theorem counts_iff :
    counts pins justUploaded o = true ↔ pinned pins o.key = false ∧ o.key ≠ justUploaded := by
  simp [counts]

variable {bucket : List BackupObject} (hkeys : (bucket.map BackupObject.key).Nodup)

theorem nodup_copiesOf {bucket : List BackupObject} (hkeys : (bucket.map BackupObject.key).Nodup) (id : String) :
    ((copiesOf bucket id).map BackupObject.key).Nodup := hkeys.sublist (filter_sublist.map _)

include hkeys in
theorem pruneOldCopies_older (ho : o ∈ bucket) (hgone : o ∉ pruneOldCopies keep justUploaded pins bucket id) :
    ∃ ts, parseBackupKey o.key = some (id, ts) ∧
      ∀ k ∈ pruneOldCopies keep justUploaded pins bucket id, counts pins justUploaded k = true →
        ∀ ts', parseBackupKey k.key = some (id, ts') → ts < ts' := by
  have hdelete : o.key ∈ pruneCandidates ((copiesOf bucket id).map BackupObject.key) keep justUploaded (pins id) := by
    by_contra hnot
    exact hgone (mem_filter.mpr ⟨ho, decide_eq_true hnot⟩)
  obtain ⟨-, -, ts, hts⟩ := mem_pruneCandidates hdelete
  refine ⟨ts, hts, fun k hk hcounts ts' hts' => ?_⟩
  obtain ⟨hkin, hkept⟩ := mem_filter.mp hk
  obtain ⟨hfree, hnotjust⟩ := counts_iff.mp hcounts
  obtain ⟨old, new, hperm, hsorted, -, hcut⟩ :=
    prune_cut ((copiesOf bucket id).map BackupObject.key) keep justUploaded (pins id)
  have hkept' := of_decide_eq_true hkept
  rw [hcut, mem_filter] at hdelete hkept'
  have hnew : k.key ∈ new := by
    have hmem : k.key ∈ (copiesOf bucket id).map BackupObject.key :=
      mem_map_of_mem (mem_copiesOf.mpr ⟨hkin, ts', hts'⟩)
    rcases mem_append.mp (hperm.mem_iff.mpr ((mem_unpinnedKeys hts').mpr ⟨hmem, hfree⟩)) with hold | hnew
    · exact absurd ⟨hold, decide_eq_true hnotjust⟩ hkept'
    · exact hnew
  have hle : o.key ≤ k.key := (pairwise_append.mp hsorted).2.2 _ hdelete.1 _ hnew
  have hne : o.key ≠ k.key := by
    have hnodup : (unpinnedKeys ((copiesOf bucket id).map BackupObject.key) (pins id)).Nodup := by
      unfold unpinnedKeys
      split
      · exact (nodup_copiesOf hkeys id).filter _
      · exact nodup_copiesOf hkeys id
    exact (nodup_append.mp (hperm.nodup_iff.mpr hnodup)).2.2 _ hdelete.1 _ hnew
  exact (key_lt_iff hts hts').mp (lt_of_le_of_ne hle hne)

theorem pruneOldCopies_count (bucket : List BackupObject) (id : String) :
    ((copiesOf (pruneOldCopies keep justUploaded pins bucket id) id).filter (counts pins justUploaded)).length ≤
      keep := by
  obtain ⟨old, new, hperm, -, hlen, hcut⟩ :=
    prune_cut ((copiesOf bucket id).map BackupObject.key) keep justUploaded (pins id)
  set delete := pruneCandidates ((copiesOf bucket id).map BackupObject.key) keep justUploaded (pins id) with hdelete
  -- the copies that count are the unpinned ones, less those deleted
  have hcopies : ((copiesOf (pruneOldCopies keep justUploaded pins bucket id) id).filter
      (counts pins justUploaded)).map BackupObject.key =
      (unpinnedKeys ((copiesOf bucket id).map BackupObject.key) (pins id)).filter
        fun k => k ∉ delete ∧ k ≠ justUploaded := by
    have hcomm : copiesOf (pruneOldCopies keep justUploaded pins bucket id) id =
        (copiesOf bucket id).filter fun o => o.key ∉ delete := filter_comm ..
    rw [hcomm, unpinnedKeys_copiesOf, filter_map, filter_filter, filter_filter]
    refine congrArg (List.map BackupObject.key) (filter_congr fun o _ => ?_)
    cases hpin : pinned pins o.key <;> simp [counts, hpin, and_comm]
  have hnone : old.filter (fun k => k ∉ delete ∧ k ≠ justUploaded) = [] := by
    rw [filter_eq_nil_iff]
    intro k hk hboth
    obtain ⟨hkept, hne⟩ := of_decide_eq_true hboth
    rw [hcut] at hkept
    exact hkept (mem_filter.mpr ⟨hk, decide_eq_true hne⟩)
  rw [← length_map BackupObject.key, hcopies, ← (hperm.filter _).length_eq, filter_append, hnone,
    nil_append]
  exact Nat.le_trans (length_filter_le _ _) hlen

end

section
variable {pins : Pins} {justUploaded : String} {maxBytes : ℕ}

def bytes (objects : List QuotaObject) : ℕ := (objects.map QuotaObject.size).sum

def rest (objects : List QuotaObject) (deleted : List String) : List QuotaObject :=
  objects.filter fun o => o.key ∉ deleted

def Newest (objects : List QuotaObject) (o : QuotaObject) : Prop := ∀ other ∈ objects, other.id = o.id → other.ts ≤ o.ts

def Deletable (objects : List QuotaObject) (justUploaded : String) (pins : Pins) (o : QuotaObject) : Prop :=
  o.key ≠ justUploaded ∧ pinned pins o.key = false ∧ ¬ Newest objects o

instance (objects : List QuotaObject) (justUploaded : String) (pins : Pins) :
    DecidablePred (Deletable objects justUploaded pins) := fun o => by
  unfold Deletable Newest
  infer_instance

variable {objects : List QuotaObject}

theorem saturating_fold {acc : ℕ} (h : acc + bytes objects < 2 ^ 64) :
    objects.foldl (fun acc o => saturatingAdd acc o.size) acc = acc + bytes objects := by
  induction objects generalizing acc with
  | nil => rfl
  | cons o objects ih =>
    have hsum : bytes (o :: objects) = o.size + bytes objects := rfl
    have hadd : saturatingAdd acc o.size = acc + o.size := Nat.min_eq_left (by omega)
    rw [foldl_cons, hadd, ih (by omega), hsum, Nat.add_assoc]

theorem bytes_rest {taken : List QuotaObject} (hkeys : (objects.map QuotaObject.key).Nodup)
    (hnodup : taken.Nodup) (hsub : taken ⊆ objects) :
    bytes (rest objects (taken.map QuotaObject.key)) + bytes taken = bytes objects := by
  have hkey : ∀ o ∈ objects, o.key ∈ taken.map QuotaObject.key ↔ o ∈ taken := by
    intro o ho
    refine ⟨fun hmem => ?_, mem_map_of_mem⟩
    obtain ⟨t, ht, heq⟩ := mem_map.mp hmem
    exact inj_on_of_nodup_map hkeys (hsub ht) ho heq ▸ ht
  have hperm : (objects.filter fun o => o.key ∈ taken.map QuotaObject.key).Perm taken := by
    refine (perm_ext_iff_of_nodup (hkeys.of_map _ |>.filter _) hnodup).mpr fun o => ?_
    rw [mem_filter]
    refine ⟨fun h => (hkey o h.1).mp (of_decide_eq_true h.2), fun h => ⟨hsub h, decide_eq_true ?_⟩⟩
    exact (hkey o (hsub h)).mpr h
  have hsplit := (filter_append_perm (fun o : QuotaObject => decide (o.key ∈ taken.map QuotaObject.key)) objects)
  have hsum := (hsplit.map QuotaObject.size).sum_eq
  rw [map_append, sum_append, (hperm.map QuotaObject.size).sum_eq] at hsum
  unfold bytes rest
  rw [← hsum, Nat.add_comm]
  simp only [decide_not]

theorem deleteOldest_spec (maxBytes : ℕ) (candidates : List QuotaObject) (remaining : ℕ)
    (h : bytes candidates ≤ remaining) :
    ∃ n ≤ candidates.length, deleteOldest maxBytes candidates remaining =
        ((candidates.take n).map QuotaObject.key, remaining - bytes (candidates.take n)) ∧
      (∀ m < n, maxBytes < remaining - bytes (candidates.take m)) ∧
      (n = candidates.length ∨ remaining - bytes (candidates.take n) ≤ maxBytes) := by
  induction candidates generalizing remaining with
  | nil => exact ⟨0, Nat.le_refl _, rfl, fun m hm => absurd hm (Nat.not_lt_zero m), .inl rfl⟩
  | cons c candidates ih =>
    have hsum : ∀ l, bytes (c :: l) = c.size + bytes l := fun _ => rfl
    rw [hsum] at h
    rw [deleteOldest]
    split_ifs with hfits
    · exact ⟨0, Nat.zero_le _, rfl, fun m hm => absurd hm (Nat.not_lt_zero m), .inr hfits⟩
    · obtain ⟨n, hn, hrun, hover, hend⟩ := ih (remaining - c.size) (by omega)
      have hback : ∀ m, remaining - bytes ((c :: candidates).take (m + 1)) =
          remaining - c.size - bytes (candidates.take m) := by
        intro m
        rw [take_succ_cons, hsum, Nat.sub_add_eq]
      refine ⟨n + 1, Nat.succ_le_succ hn, ?_, ?_, ?_⟩
      · rw [hrun, hback]
        rfl
      · intro m hm
        cases m with
        | zero => exact Nat.not_le.mp hfits
        | succ m =>
          rw [hback]
          exact hover m (Nat.lt_of_succ_lt_succ hm)
      · rw [hback]
        exact hend.imp_left (congrArg Nat.succ)

def Listed (objects : List QuotaObject) : Prop := ∀ o ∈ objects, parseBackupKey o.key = some (o.id, o.ts)

theorem listed_quotaObjects (bucket : List BackupObject) : Listed (quotaObjects bucket) := by
  intro o ho
  obtain ⟨b, -, hb⟩ := mem_filterMap.mp ho
  obtain ⟨⟨id, ts⟩, hparse, rfl⟩ := map_eq_some_iff.mp hb
  exact hparse

theorem get?_keepNewest (newest : SortedMap String QuotaObject) (o : QuotaObject) (id : String) :
    (keepNewest newest o).get? id =
      if id = o.id then some (match newest.get? o.id with
        | some cur => if cur.ts < o.ts ∨ cur.ts = o.ts ∧ cur.key < o.key then o else cur
        | none => o)
      else newest.get? id := by
  unfold keepNewest
  cases hcur : newest.get? o.id with
  | none =>
    rw [get?_insert]
  | some cur =>
    dsimp only
    split_ifs with hnewer hid hid
    · rw [get?_insert, if_pos hid]
    · rw [get?_insert, if_neg hid]
    · rw [hid, hcur]
    · rfl

theorem newest_spec (objects : List QuotaObject) (id : String) :
    (∀ n, (objects.foldl keepNewest SortedMap.empty).get? id = some n →
      n ∈ objects ∧ n.id = id ∧ ∀ o ∈ objects, o.id = id → o.ts ≤ n.ts) ∧
    ((objects.foldl keepNewest SortedMap.empty).get? id = none → ∀ o ∈ objects, o.id ≠ id) := by
  induction objects using List.reverseRecOn with
  | nil => exact ⟨fun n hn => (by cases hn), fun _ o ho => absurd ho not_mem_nil⟩
  | append_singleton objects o ih =>
    rw [foldl_concat, get?_keepNewest]
    generalize objects.foldl keepNewest SortedMap.empty = newest at ih
    obtain ⟨hsome, hnone⟩ := ih
    by_cases hid : id = o.id
    · rw [if_pos hid, ← hid]
      refine ⟨fun n hn => ?_, fun h => by cases h⟩
      cases hcur : newest.get? id with
      | none =>
        rw [hcur] at hn
        cases hn
        refine ⟨by simp, hid.symm, fun x hx hxid => ?_⟩
        rcases mem_append.mp hx with hx | hx
        · exact absurd hxid (hnone hcur x hx)
        · rw [mem_singleton.mp hx]
      | some cur =>
        obtain ⟨hmem, hcurid, hle⟩ := hsome cur hcur
        rw [hcur] at hn
        dsimp only at hn
        split_ifs at hn with hnewer
        · cases hn
          refine ⟨by simp, hid.symm, fun x hx hxid => ?_⟩
          rcases mem_append.mp hx with hx | hx
          · have hxcur := hle x hx hxid
            omega
          · rw [mem_singleton.mp hx]
        · cases hn
          refine ⟨mem_append_left _ hmem, hcurid, fun x hx hxid => ?_⟩
          rcases mem_append.mp hx with hx | hx
          · exact hle x hx hxid
          · rw [mem_singleton.mp hx]
            omega
    · rw [if_neg hid]
      refine ⟨fun n hn => ?_, fun h x hx => ?_⟩
      · obtain ⟨hmem, hnid, hle⟩ := hsome n hn
        refine ⟨mem_append_left _ hmem, hnid, fun x hx hxid => ?_⟩
        rcases mem_append.mp hx with hx | hx
        · exact hle x hx hxid
        · exact absurd (mem_singleton.mp hx ▸ hxid.symm) hid
      · rcases mem_append.mp hx with hx | hx
        · exact hnone h x hx
        · rw [mem_singleton.mp hx]
          exact Ne.symm hid

theorem spared_iff (hlisted : Listed objects) {o : QuotaObject} (ho : o ∈ objects) :
    ((objects.foldl keepNewest SortedMap.empty).get? o.id).all (fun n => n.key ≠ o.key) = true ↔
      ¬ Newest objects o := by
  obtain ⟨hsome, hnone⟩ := newest_spec objects o.id
  cases hn : (objects.foldl keepNewest SortedMap.empty).get? o.id with
  | none => exact absurd rfl (hnone hn o ho)
  | some n =>
    obtain ⟨hmem, hid, hle⟩ := hsome n hn
    rw [all_some, decide_eq_true_iff, not_iff_not]
    have hparse := hlisted o ho
    have hparse' := hlisted n hmem
    rw [hid] at hparse'
    constructor
    · intro hkey
      have hage : n.ts = o.ts := by
        rw [hkey, hparse] at hparse'
        exact (congrArg Prod.snd (Option.some.inj hparse')).symm
      exact fun x hx hxid => hage ▸ hle x hx hxid
    · intro hnewest
      have hage : n.ts = o.ts := Nat.le_antisymm (hnewest n hmem hid) (hle o ho rfl)
      rw [hage] at hparse'
      exact key_eq_of_age hparse' hparse

theorem candidates_eq (hlisted : Listed objects) :
    (objects.filter fun o => o.key ≠ justUploaded ∧ (pins o.id).all (fun pin => pin ≤ o.ts) ∧
      ((objects.foldl keepNewest SortedMap.empty).get? o.id).all fun n => n.key ≠ o.key) =
      objects.filter fun o => Deletable objects justUploaded pins o := by
  refine filter_congr fun o ho => decide_eq_decide.mpr ?_
  have hpin : (pins o.id).all (fun pin => pin ≤ o.ts) = true ↔ pinned pins o.key = false := by
    rw [pinned_eq (hlisted o ho)]
    cases pins o.id <;> simp
  exact and_congr_right fun _ => and_congr hpin (spared_iff hlisted ho)

/-- What the quota does: of the deletable objects the oldest go, one by one, until the rest fits
or none is left. -/
structure QuotaOutcome (objects : List QuotaObject) (maxBytes : ℕ) (justUploaded : String) (pins : Pins)
    (delete : List String) (remaining : ℕ) (order : List QuotaObject) (n : ℕ) : Prop where
  candidates : order.Perm (objects.filter fun o => Deletable objects justUploaded pins o)
  oldest : order.Pairwise fun a b => a.ts ≤ b.ts
  deletes : delete = (order.take n).map QuotaObject.key
  remains : remaining = bytes (rest objects delete)
  above : ∀ m < n, maxBytes < bytes (rest objects ((order.take m).map QuotaObject.key))
  stops : remaining ≤ maxBytes ∨ maxBytes = 0 ∧ n = 0 ∨ n = order.length

theorem oldestFirst_trans (a b c : QuotaObject) (hab : oldestFirst a b = true) (hbc : oldestFirst b c = true) :
    oldestFirst a c = true := by
  simp only [oldestFirst, Bool.or_eq_true, Bool.and_eq_true, decide_eq_true_eq, beq_iff_eq] at hab hbc ⊢
  rcases hab with hab | ⟨hab, hkab⟩ <;> rcases hbc with hbc | ⟨hbc, hkbc⟩
  · exact .inl (hab.trans hbc)
  · exact .inl (hbc ▸ hab)
  · exact .inl (hab ▸ hbc)
  · exact .inr ⟨hab.trans hbc, le_trans hkab hkbc⟩

theorem oldestFirst_total (a b : QuotaObject) : (oldestFirst a b || oldestFirst b a) = true := by
  simp only [oldestFirst, Bool.or_eq_true, Bool.and_eq_true, decide_eq_true_eq, beq_iff_eq]
  rcases Nat.lt_trichotomy a.ts b.ts with hlt | heq | hgt
  · exact .inl (.inl hlt)
  · exact (le_total a.key b.key).imp (fun h => .inr ⟨heq, h⟩) fun h => .inr ⟨heq.symm, h⟩
  · exact .inr (.inl hgt)

theorem quotaCandidates_spec (maxBytes : ℕ) (justUploaded : String) (pins : Pins) (hlisted : Listed objects)
    (hkeys : (objects.map QuotaObject.key).Nodup) (hsizes : bytes objects < 2 ^ 64) :
    ∃ order n, QuotaOutcome objects maxBytes justUploaded pins (quotaCandidates objects maxBytes justUploaded pins).1
      (quotaCandidates objects maxBytes justUploaded pins).2 order n := by
  have hused : objects.foldl (fun acc o => saturatingAdd acc o.size) 0 = bytes objects := by
    rw [saturating_fold (by omega), Nat.zero_add]
  set order := (objects.filter fun o => Deletable objects justUploaded pins o).mergeSort oldestFirst with horder
  have hperm : order.Perm (objects.filter fun o => Deletable objects justUploaded pins o) := mergeSort_perm _ _
  have hsorted : order.Pairwise fun a b => a.ts ≤ b.ts := by
    refine (pairwise_mergeSort oldestFirst_trans oldestFirst_total _).imp fun {a b} h => ?_
    simp only [oldestFirst, Bool.or_eq_true, Bool.and_eq_true, decide_eq_true_eq, beq_iff_eq] at h
    omega
  have hsub : order ⊆ objects := fun o ho => (mem_filter.mp (hperm.subset ho)).1
  have hnodup : order.Nodup := hperm.nodup_iff.mpr (hkeys.of_map.filter _)
  have hrest : ∀ m, bytes (rest objects ((order.take m).map QuotaObject.key)) + bytes (order.take m) = bytes objects :=
    fun m => bytes_rest hkeys (hnodup.sublist (take_sublist ..)) fun o ho => hsub (mem_of_mem_take ho)
  have hnone : rest objects [] = objects := filter_eq_self.mpr fun o _ => by simp
  unfold quotaCandidates
  rw [hused]
  dsimp only
  rw [candidates_eq hlisted]
  split_ifs with hquiet
  · refine ⟨order, 0, hperm, hsorted, rfl, ?_, fun m hm => absurd hm (Nat.not_lt_zero m), ?_⟩
    · rw [hnone]
    · rcases hquiet with hzero | hfits
      · exact .inr (.inl ⟨hzero, rfl⟩)
      · exact .inl hfits
  · have htotal := hrest order.length
    rw [take_length] at htotal
    obtain ⟨n, hn, hrun, hover, hend⟩ :=
      deleteOldest_spec maxBytes order (bytes objects) (by omega)
    rw [hrun]
    refine ⟨order, n, hperm, hsorted, rfl, ?_, fun m hm => ?_, ?_⟩
    · have hleft := hrest n
      dsimp only
      omega
    · have hleft := hrest m
      have hmore := hover m hm
      omega
    · exact hend.elim (fun h => .inr (.inr h)) .inl

end

section
variable {pins : Pins} {keep : ℕ} {justUploaded : String}

theorem pruned_sublist (ids : List String) (bucket : List BackupObject) :
    (ids.foldl (pruneOldCopies keep justUploaded pins) bucket).Sublist bucket := by
  induction ids generalizing bucket with
  | nil => exact List.Sublist.refl _
  | cons id ids ih => exact (ih _).trans (pruneOldCopies_sublist bucket id)

theorem pruned_keeps (ids : List String) {bucket : List BackupObject} {o : BackupObject} (ho : o ∈ bucket)
    (h : o.key = justUploaded ∨ pinned pins o.key = true) :
    o ∈ ids.foldl (pruneOldCopies keep justUploaded pins) bucket := by
  induction ids generalizing bucket with
  | nil => exact ho
  | cons id ids ih => exact ih (pruneOldCopies_keeps ho h id)

theorem pruned_count {ids : List String} {id : String} (hid : id ∈ ids) (bucket : List BackupObject) :
    ((copiesOf (ids.foldl (pruneOldCopies keep justUploaded pins) bucket) id).filter
      (counts pins justUploaded)).length ≤ keep := by
  induction ids generalizing bucket with
  | nil => cases hid
  | cons first ids ih =>
    rcases mem_cons.mp hid with rfl | hid
    · have hless : (ids.foldl (pruneOldCopies keep justUploaded pins)
          (pruneOldCopies keep justUploaded pins bucket id)).Sublist _ := pruned_sublist ids _
      exact Nat.le_trans ((hless.filter _).filter _).length_le (pruneOldCopies_count bucket id)
    · exact ih hid _

theorem pruned_older {bucket : List BackupObject} (hkeys : (bucket.map BackupObject.key).Nodup) {ids : List String}
    {o : BackupObject} (ho : o ∈ bucket) (hgone : o ∉ ids.foldl (pruneOldCopies keep justUploaded pins) bucket) :
    ∃ id ∈ ids, ∃ ts, parseBackupKey o.key = some (id, ts) ∧
      ∀ k ∈ ids.foldl (pruneOldCopies keep justUploaded pins) bucket, counts pins justUploaded k = true →
        ∀ ts', parseBackupKey k.key = some (id, ts') → ts < ts' := by
  induction ids generalizing bucket with
  | nil => exact absurd ho hgone
  | cons id ids ih =>
    by_cases hstep : o ∈ pruneOldCopies keep justUploaded pins bucket id
    · obtain ⟨id', hid', ts, hts, hold⟩ := ih (hkeys.sublist ((pruneOldCopies_sublist bucket id).map _)) hstep hgone
      exact ⟨id', .tail _ hid', ts, hts, hold⟩
    · obtain ⟨ts, hts, hold⟩ := pruneOldCopies_older hkeys ho hstep
      exact ⟨id, .head _, ts, hts, fun k hk => hold k ((pruned_sublist ids _).subset hk)⟩

theorem quotaObjects_keys (bucket : List BackupObject) :
    ((quotaObjects bucket).map QuotaObject.key).Sublist (bucket.map BackupObject.key) := by
  induction bucket with
  | nil => exact List.Sublist.refl _
  | cons o bucket ih =>
    unfold quotaObjects at ih ⊢
    rw [filterMap_cons]
    cases parseBackupKey o.key with
    | none => exact ih.cons _
    | some parsed => exact ih.cons_cons _

theorem quotaObjects_bytes (bucket : List BackupObject) :
    bytes (quotaObjects bucket) ≤ (bucket.map BackupObject.size).sum := by
  induction bucket with
  | nil => exact Nat.le_refl _
  | cons o bucket ih =>
    unfold quotaObjects bytes at ih ⊢
    rw [filterMap_cons]
    cases parseBackupKey o.key with
    | none => exact ih.trans (Nat.le_add_left ..)
    | some parsed => exact Nat.add_le_add_left ih _

theorem bytes_sublist {objects objects' : List QuotaObject} (h : objects.Sublist objects') :
    bytes objects ≤ bytes objects' := (h.map _).sum_le_sum fun _ _ => Nat.zero_le _

/-- Pruned per workspace and then held under the quota, the bucket keeps what it must. -/
theorem retention_keeps (bucket : List BackupObject) (hkeys : (bucket.map BackupObject.key).Nodup)
    (hsizes : (bucket.map BackupObject.size).sum < 2 ^ 64) (keep maxBytes : ℕ) (justUploaded : String) (pins : Pins)
    (ids own : List String) :
    let pruned := ids.foldl (pruneOldCopies keep justUploaded pins) bucket
    let objects := ownBackups (quotaObjects pruned) own
    let quota := quotaCandidates objects maxBytes justUploaded pins
    (∀ o ∈ bucket, o.key = justUploaded ∨ pinned pins o.key = true → o ∈ pruned ∧ o.key ∉ quota.1) ∧
    (∀ o ∈ pruned, ∀ id ts, parseBackupKey o.key = some (id, ts) →
      (∀ k ∈ pruned, ∀ ts', parseBackupKey k.key = some (id, ts') → ts' ≤ ts) → o.key ∉ quota.1) ∧
    (∀ id ∈ ids, ((copiesOf pruned id).filter (counts pins justUploaded)).length ≤ keep) ∧
    (∀ o ∈ bucket, o ∉ pruned → ∃ id ∈ ids, ∃ ts, parseBackupKey o.key = some (id, ts) ∧
      ∀ k ∈ pruned, counts pins justUploaded k = true → ∀ ts', parseBackupKey k.key = some (id, ts') → ts < ts') ∧
    ∃ order n, QuotaOutcome objects maxBytes justUploaded pins quota.1 quota.2 order n := by
  intro pruned objects quota
  have hless : pruned.Sublist bucket := pruned_sublist ids bucket
  have hlisted : Listed objects := fun o ho => listed_quotaObjects pruned o (List.mem_filter.mp ho).1
  have hown : objects.Sublist (quotaObjects pruned) := List.filter_sublist
  have hobjects : (objects.map QuotaObject.key).Nodup :=
    hkeys.sublist (((hown.map _).trans (quotaObjects_keys pruned)).trans (hless.map _))
  have hbytes : bytes objects < 2 ^ 64 := by
    have hsum : (pruned.map BackupObject.size).sum ≤ (bucket.map BackupObject.size).sum :=
      (hless.map _).sum_le_sum fun _ _ => Nat.zero_le _
    exact Nat.lt_of_le_of_lt ((bytes_sublist hown).trans ((quotaObjects_bytes pruned).trans hsum)) hsizes
  obtain ⟨order, n, hquota⟩ :=
    quotaCandidates_spec maxBytes justUploaded pins hlisted hobjects hbytes
  have hdeletable : ∀ key ∈ quota.1, ∃ o ∈ objects, o.key = key ∧ Deletable objects justUploaded pins o := by
    intro key hkey
    rw [hquota.deletes] at hkey
    obtain ⟨o, ho, rfl⟩ := List.mem_map.mp hkey
    obtain ⟨hmem, hdel⟩ := List.mem_filter.mp (hquota.candidates.subset (List.mem_of_mem_take ho))
    exact ⟨o, hmem, rfl, of_decide_eq_true hdel⟩
  refine ⟨fun o ho hprotected => ⟨pruned_keeps ids ho hprotected, fun hkey => ?_⟩,
    fun o ho id ts hparse hnewest hkey => ?_, fun id hid => pruned_count hid bucket,
    fun o ho hgone => pruned_older hkeys ho hgone, order, n, hquota⟩
  · obtain ⟨q, -, hq, hjust, hfree, -⟩ := hdeletable _ hkey
    rw [hq] at hjust hfree
    rcases hprotected with h | h
    · exact hjust h
    · rw [hfree] at h
      cases h
  · obtain ⟨q, hqmem, hq, -, -, hold⟩ := hdeletable _ hkey
    have hqparse := hlisted q hqmem
    rw [hq, hparse] at hqparse
    obtain ⟨rfl, rfl⟩ := Prod.mk.inj (Option.some.inj hqparse)
    refine hold fun other hother hid => ?_
    obtain ⟨b, hb, hbq⟩ := List.mem_filterMap.mp (List.mem_filter.mp hother).1
    obtain ⟨⟨id', ts'⟩, hbparse, rfl⟩ := Option.map_eq_some_iff.mp hbq
    exact hnewest b hb ts' (hid ▸ hbparse)

def sampleId (c : Char) : String := String.ofList (List.replicate 64 c)

theorem retention_keeps_sample :
    (⟨backupKey (sampleId 'a') 5, 10⟩ : BackupObject) ∈
      [sampleId 'a'].foldl (pruneOldCopies 1 (backupKey (sampleId 'a') 5) fun _ => none)
        [⟨backupKey (sampleId 'a') 5, 10⟩, ⟨backupKey (sampleId 'a') 7, 10⟩, ⟨backupKey (sampleId 'b') 6, 10⟩] :=
  ((retention_keeps
    [⟨backupKey (sampleId 'a') 5, 10⟩, ⟨backupKey (sampleId 'a') 7, 10⟩, ⟨backupKey (sampleId 'b') 6, 10⟩]
    (by decide +kernel) (by decide +kernel) 1 5 (backupKey (sampleId 'a') 5) (fun _ => none) [sampleId 'a']
    [sampleId 'a', sampleId 'b']).1 _ (by simp) (Or.inl rfl)).1

end

end Molt.Backup
