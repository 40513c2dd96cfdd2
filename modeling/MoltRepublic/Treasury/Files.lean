import Mathlib
import MoltRepublic.Core.Bytes
import MoltRepublic.Lib.Cursor
import MoltRepublic.Treasury.Scan

/-! The saved files of a purse: the scan state, the keys record of a run, and the list of records
of the keys file. What a reader accepts is what the writer writes, and the scan file reads back
from every state a scan can be in. -/

namespace Molt.Treasury
open Molt.Core Text Cursor

section

def scanTag : List UInt8 := utf8 "molt-wallet-scan-v4"

def saturatingMul (a b : ℕ) : ℕ := min (a * b) (2 ^ 64 - 1)

def Dust.possible (d : Dust) : Prop := d.total ≤ saturatingMul d.count (dustLimit - 1)

def Dust.covers (d part : Dust) : Prop := part.count ≤ d.count ∧ part.total ≤ d.total

instance (d : Dust) : Decidable d.possible := by
  unfold Dust.possible
  infer_instance

instance (d part : Dust) : Decidable (d.covers part) := by
  unfold Dust.covers
  infer_instance

def putDust (d : Dust) : List UInt8 := leBytes 8 d.count ++ leBytes 8 d.total

def putRecent (e : ℕ × Recent) : List UInt8 :=
  leBytes 8 e.1 ++ e.2.hash.toList ++ leBytes 8 e.2.time ++ putDust e.2.dust

def putLock : Lock → List UInt8
  | .none => leBytes 1 0 ++ leBytes 8 0
  | .block h => leBytes 1 1 ++ leBytes 8 h
  | .time t => leBytes 1 2 ++ leBytes 8 t

def putReceived (r : Received) : List UInt8 :=
  r.key.toList ++ leBytes 8 r.amount ++ leBytes 8 r.height ++ leBytes 8 r.time ++ r.tx.toList ++
    leBytes 8 r.indexInTx ++ putLock r.lock

def ScanState.encode (s : ScanState) : List UInt8 :=
  putBytes scanTag ++ putStr s.address ++ leBytes 8 s.birthday ++ leBytes 8 s.next ++
    putCount s.recent.entries.length ++ s.recent.entries.flatMap putRecent ++ putDust s.dust ++
    putCount s.outputs.length ++ s.outputs.flatMap putReceived

def readDust : Cursor Dust := do
  let count ← number 8
  let total ← number 8
  return ⟨count, total⟩

def readLock : Cursor Lock := do
  let kind ← number 1
  let value ← number 8
  orFail (match kind, value with
    | 0, 0 => some .none
    | 1, h => some (.block h)
    | 2, t => some (.time t)
    | _, _ => none)

def readRecent (birthday next : ℕ) (acc : SortedMap ℕ Recent × Dust) : Cursor (SortedMap ℕ Recent × Dust) := do
  let h ← number 8
  let hash ← array 32
  let time ← number 8
  let dust ← readDust
  let ascending := acc.1.entries.getLast?.all fun e => e.1 < h
  check (ascending = true ∧ birthday ≤ h ∧ h < next ∧ dust.possible)
  return (acc.1.insert h ⟨hash, time, dust⟩, acc.2.add dust)

def readReceived (birthday next : ℕ) (acc : Finset Key × List Received) : Cursor (Finset Key × List Received) := do
  let key ← array 32
  let amount ← number 8
  let height ← number 8
  let time ← number 8
  let tx ← array 32
  let index ← number 8
  let lock ← readLock
  check (birthday ≤ height ∧ height < next ∧ key ∉ acc.1)
  return (insert key acc.1, acc.2 ++ [⟨key, amount, height, time, tx, index, lock⟩])

def readHead : Cursor (String × ℕ × ℕ) := do
  let tag ← Cursor.bytes
  check (tag = scanTag)
  let address ← orFail (fromUtf8 (← Cursor.bytes))
  let birthday ← number 8
  let next ← number 8
  check (birthday ≤ next)
  return (address, birthday, next)

def readWindow (birthday next : ℕ) : Cursor (SortedMap ℕ Recent × Dust) := do
  let blocks ← number 4
  check (blocks ≤ recentBlocks)
  loop (readRecent birthday next) blocks (SortedMap.empty, Dust.zero)

def readOutputs (birthday next : ℕ) : Cursor (Finset Key × List Received) := do
  let count ← number 4
  check (count ≤ maxOutputs)
  loop (readReceived birthday next) count (∅, [])

def readScan : Cursor ScanState := do
  let (address, birthday, next) ← readHead
  let (recent, windowed) ← readWindow birthday next
  let dust ← readDust
  check (dust.possible ∧ dust.covers windowed)
  let (seen, outputs) ← readOutputs birthday next
  return ⟨address, birthday, next, recent, seen, outputs, dust⟩

def ScanState.parse (bytes : List UInt8) : Option ScanState := whole readScan bytes

def windowed (entries : List (ℕ × Recent)) : Dust := entries.foldl (fun d e => d.add e.2.dust) Dust.zero

structure RecentOk (birthday next : ℕ) (e : ℕ × Recent) : Prop where
  height : birthday ≤ e.1 ∧ e.1 < next
  word : e.1 < 2 ^ 64
  time : e.2.time < 2 ^ 64
  dust : e.2.dust.Fits
  possible : e.2.dust.possible

def Lock.Fits : Lock → Prop
  | .none => True
  | .block h => h < 2 ^ 64
  | .time t => t < 2 ^ 64

structure Received.Fits (r : Received) : Prop where
  amount : r.amount < 2 ^ 64
  height : r.height < 2 ^ 64
  time : r.time < 2 ^ 64
  index : r.indexInTx < 2 ^ 64
  lock : r.lock.Fits

structure Valid (s : ScanState) : Prop where
  address : (utf8 s.address).length < 2 ^ 32
  birthday : s.birthday < 2 ^ 64
  next : s.next < 2 ^ 64
  ordered : s.birthday ≤ s.next
  window : s.recent.entries.length ≤ recentBlocks
  recent : ∀ e ∈ s.recent.entries, RecentOk s.birthday s.next e
  dust : s.dust.Fits
  possible : s.dust.possible
  covers : s.dust.covers (windowed s.recent.entries)
  room : s.outputs.length ≤ maxOutputs
  outputs : ∀ r ∈ s.outputs, r.Fits ∧ s.birthday ≤ r.height ∧ r.height < s.next
  distinct : (s.outputs.map Received.key).Nodup
  seen : s.seen = keys s.outputs

theorem readDust_codec : Codec readDust Dust.Fits putDust := by
  intro bytes d rest
  unfold readDust putDust Dust.Fits
  simp only [bind_eq_some, number_codec _ _ _ _, pure_eq_some]
  constructor
  · rintro ⟨count, _, ⟨hcount, rfl⟩, total, _, ⟨htotal, rfl⟩, rfl, rfl⟩
    exact ⟨⟨hcount, htotal⟩, by simp⟩
  · rintro ⟨⟨hcount, htotal⟩, rfl⟩
    exact ⟨d.count, _, ⟨hcount, List.append_assoc ..⟩, d.total, rest, ⟨htotal, rfl⟩, rfl, rfl⟩

theorem readLock_codec : Codec readLock Lock.Fits putLock := by
  intro bytes lock rest
  unfold readLock
  simp only [bind_eq_some, number_codec _ _ _ _, orFail_eq_some]
  constructor
  · rintro ⟨kind, _, ⟨hkind, rfl⟩, value, _, ⟨hvalue, rfl⟩, hlock, rfl⟩
    split at hlock
    · cases hlock
      exact ⟨trivial, (List.append_assoc ..).symm⟩
    · cases hlock
      exact ⟨hvalue, (List.append_assoc ..).symm⟩
    · cases hlock
      exact ⟨hvalue, (List.append_assoc ..).symm⟩
    · cases hlock
  · rintro ⟨hfits, rfl⟩
    cases lock with
    | none => exact ⟨0, _, ⟨by decide, List.append_assoc ..⟩, 0, rest, ⟨by decide, rfl⟩, rfl, rfl⟩
    | block h => exact ⟨1, _, ⟨by decide, List.append_assoc ..⟩, h, rest, ⟨hfits, rfl⟩, rfl, rfl⟩
    | time t => exact ⟨2, _, ⟨by decide, List.append_assoc ..⟩, t, rest, ⟨hfits, rfl⟩, rfl, rfl⟩

def pushRecent (acc : SortedMap ℕ Recent × Dust) (e : ℕ × Recent) : SortedMap ℕ Recent × Dust :=
  (acc.1.insert e.1 e.2, acc.2.add e.2.dust)

def Above (birthday next : ℕ) (acc : SortedMap ℕ Recent × Dust) (e : ℕ × Recent) : Prop :=
  RecentOk birthday next e ∧ (acc.1.entries.getLast?.all fun top => top.1 < e.1) = true

variable {birthday next : ℕ}

theorem readRecent_eq_some (acc : SortedMap ℕ Recent × Dust) (bytes : List UInt8)
    (acc' : SortedMap ℕ Recent × Dust) (rest : List UInt8) :
    readRecent birthday next acc bytes = some (acc', rest) ↔
      ∃ e, Above birthday next acc e ∧ pushRecent acc e = acc' ∧ bytes = putRecent e ++ rest := by
  unfold readRecent putRecent
  simp only [bind_eq_some, number_codec _ _ _ _, array_codec _ _ _ _, readDust_codec _ _ _, check_eq_some, pure_eq_some]
  constructor
  · rintro ⟨h, _, ⟨hword, rfl⟩, hash, _, ⟨-, rfl⟩, time, _, ⟨htime, rfl⟩, dust, _, ⟨hdust, rfl⟩, -, _,
      ⟨⟨hasc, hlow, hhigh, hposs⟩, rfl⟩, rfl, rfl⟩
    exact ⟨(h, ⟨hash, time, dust⟩), ⟨⟨⟨hlow, hhigh⟩, hword, htime, hdust, hposs⟩, hasc⟩, rfl,
      by simp⟩
  · rintro ⟨⟨h, hash, time, dust⟩, ⟨⟨⟨hlow, hhigh⟩, hword, htime, hdust, hposs⟩, hasc⟩, rfl, rfl⟩
    exact ⟨h, _, ⟨hword, by simp⟩, hash, _, ⟨trivial, rfl⟩, time, _, ⟨htime, rfl⟩, dust,
      _, ⟨hdust, rfl⟩, (), _, ⟨⟨hasc, hlow, hhigh, hposs⟩, rfl⟩, rfl, rfl⟩

theorem foldl_pushRecent {entries : List (ℕ × Recent)} (h : Ascending entries) :
    entries.foldl pushRecent (SortedMap.empty, Dust.zero) = (⟨entries, h⟩, windowed entries) := by
  induction entries using List.reverseRecOn with
  | nil => rfl
  | append_singleton entries e ih =>
    have hbelow : ∀ f ∈ entries, f.1 < e.1 := fun f hf =>
      (List.pairwise_append.mp h).2.2 f hf e (List.mem_singleton_self e)
    rw [List.foldl_concat, ih (List.pairwise_append.mp h).1]
    unfold pushRecent windowed
    rw [List.foldl_concat]
    exact Prod.ext (SortedMap.ext (insertEntry_of_lt hbelow e.2)) rfl

theorem steps_recent {entries : List (ℕ × Recent)} :
    Steps pushRecent (Above birthday next) (SortedMap.empty, Dust.zero) entries ↔
      Ascending entries ∧ ∀ e ∈ entries, RecentOk birthday next e := by
  induction entries using List.reverseRecOn with
  | nil => exact iff_of_true trivial ⟨List.Pairwise.nil, fun e he => absurd he List.not_mem_nil⟩
  | append_singleton entries e ih =>
    rw [steps_concat, ih]
    constructor
    · rintro ⟨⟨hasc, hall⟩, hok, htop⟩
      rw [foldl_pushRecent hasc] at htop
      have hbelow : ∀ f ∈ entries, f.1 < e.1 := by
        intro f hf
        obtain ⟨front, top, rfl⟩ := List.eq_nil_or_concat' entries |>.resolve_left (List.ne_nil_of_mem hf)
        have hlt : top.1 < e.1 := by simpa using htop
        rcases List.mem_append.mp hf with hf | hf
        · exact Nat.lt_trans ((List.pairwise_append.mp hasc).2.2 f hf top (.head _)) hlt
        · rw [List.mem_singleton.mp hf]
          exact hlt
      refine ⟨List.pairwise_append.mpr ⟨hasc, List.pairwise_singleton .., fun f hf g hg => ?_⟩, ?_⟩
      · rw [List.mem_singleton.mp hg]
        exact hbelow f hf
      · exact List.forall_mem_append.mpr ⟨hall, List.forall_mem_singleton.mpr hok⟩
    · rintro ⟨hasc, hall⟩
      have hfront := (List.pairwise_append.mp hasc).1
      refine ⟨⟨hfront, fun f hf => hall f (List.mem_append_left _ hf)⟩, hall e (by simp), ?_⟩
      rw [foldl_pushRecent hfront]
      show (entries.getLast?.all fun top => top.1 < e.1) = true
      cases htop : entries.getLast? with
      | none => rfl
      | some top =>
        have hlt := (List.pairwise_append.mp hasc).2.2 top (List.mem_of_getLast? htop) e (List.mem_singleton_self e)
        exact decide_eq_true hlt

def pushReceived (acc : Finset Key × List Received) (r : Received) : Finset Key × List Received :=
  (insert r.key acc.1, acc.2 ++ [r])

def Unheld (birthday next : ℕ) (acc : Finset Key × List Received) (r : Received) : Prop :=
  (r.Fits ∧ birthday ≤ r.height ∧ r.height < next) ∧ r.key ∉ acc.1

theorem readReceived_eq_some (acc : Finset Key × List Received) (bytes : List UInt8)
    (acc' : Finset Key × List Received) (rest : List UInt8) :
    readReceived birthday next acc bytes = some (acc', rest) ↔
      ∃ r, Unheld birthday next acc r ∧ pushReceived acc r = acc' ∧ bytes = putReceived r ++ rest := by
  unfold readReceived putReceived
  simp only [bind_eq_some, number_codec _ _ _ _, array_codec _ _ _ _, readLock_codec _ _ _, check_eq_some, pure_eq_some]
  constructor
  · rintro ⟨key, _, ⟨-, rfl⟩, amount, _, ⟨hamount, rfl⟩, height, _, ⟨hheight, rfl⟩, time, _, ⟨htime, rfl⟩, tx, _,
      ⟨-, rfl⟩, index, _, ⟨hindex, rfl⟩, lock, _, ⟨hlock, rfl⟩, -, _, ⟨⟨hlow, hhigh, hnew⟩, rfl⟩, rfl, rfl⟩
    exact ⟨⟨key, amount, height, time, tx, index, lock⟩,
      ⟨⟨⟨hamount, hheight, htime, hindex, hlock⟩, hlow, hhigh⟩, hnew⟩, rfl, by simp⟩
  · rintro ⟨⟨key, amount, height, time, tx, index, lock⟩,
      ⟨⟨⟨hamount, hheight, htime, hindex, hlock⟩, hlow, hhigh⟩, hnew⟩, rfl, rfl⟩
    exact ⟨key, _, ⟨trivial, by simp only [List.append_assoc]⟩, amount, _, ⟨hamount, rfl⟩, height, _,
      ⟨hheight, rfl⟩, time, _, ⟨htime, rfl⟩, tx, _, ⟨trivial, rfl⟩, index, _, ⟨hindex, rfl⟩, lock, _, ⟨hlock, rfl⟩, (),
      _, ⟨⟨hlow, hhigh, hnew⟩, rfl⟩, rfl, rfl⟩

theorem foldl_pushReceived (outputs : List Received) :
    outputs.foldl pushReceived (∅, []) = (keys outputs, outputs) := by
  induction outputs using List.reverseRecOn with
  | nil => rfl
  | append_singleton outputs r ih =>
    rw [List.foldl_concat, ih, keys_append, Finset.union_comm]
    rfl

theorem steps_received {outputs : List Received} :
    Steps pushReceived (Unheld birthday next) (∅, []) outputs ↔
      (outputs.map Received.key).Nodup ∧ ∀ r ∈ outputs, r.Fits ∧ birthday ≤ r.height ∧ r.height < next := by
  induction outputs using List.reverseRecOn with
  | nil => exact iff_of_true trivial ⟨List.nodup_nil, fun r hr => absurd hr List.not_mem_nil⟩
  | append_singleton outputs r ih =>
    have hkeys : r.key ∉ keys outputs ↔ r.key ∉ outputs.map Received.key := by rw [keys, List.mem_toFinset]
    rw [steps_concat, ih, foldl_pushReceived, Unheld, hkeys, List.map_append, List.map_singleton,
      ← List.concat_eq_append, List.nodup_concat]
    simp only [List.mem_append, List.mem_singleton, or_imp, forall_and, forall_eq]
    tauto

theorem loop_recent {n : ℕ} {acc : SortedMap ℕ Recent × Dust} {bytes rest : List UInt8} :
    loop (readRecent birthday next) n (SortedMap.empty, Dust.zero) bytes = some (acc, rest) ↔
      acc.1.entries.length = n ∧ (∀ e ∈ acc.1.entries, RecentOk birthday next e) ∧ acc.2 = windowed acc.1.entries ∧
        bytes = acc.1.entries.flatMap putRecent ++ rest := by
  rw [loop_eq_some readRecent_eq_some]
  constructor
  · rintro ⟨entries, rfl, hsteps, hfold, rfl⟩
    obtain ⟨hasc, hall⟩ := steps_recent.mp hsteps
    rw [foldl_pushRecent hasc] at hfold
    subst hfold
    exact ⟨rfl, hall, rfl, rfl⟩
  · obtain ⟨⟨entries, hasc⟩, sum⟩ := acc
    dsimp only
    rintro ⟨rfl, hall, rfl, rfl⟩
    exact ⟨entries, rfl, steps_recent.mpr ⟨hasc, hall⟩, foldl_pushRecent hasc, rfl⟩

theorem loop_received {n : ℕ} {acc : Finset Key × List Received} {bytes rest : List UInt8} :
    loop (readReceived birthday next) n (∅, []) bytes = some (acc, rest) ↔
      acc.2.length = n ∧ ((acc.2.map Received.key).Nodup ∧
        ∀ r ∈ acc.2, r.Fits ∧ birthday ≤ r.height ∧ r.height < next) ∧ acc.1 = keys acc.2 ∧
        bytes = acc.2.flatMap putReceived ++ rest := by
  rw [loop_eq_some readReceived_eq_some]
  constructor
  · rintro ⟨outputs, rfl, hsteps, hfold, rfl⟩
    rw [foldl_pushReceived] at hfold
    subst hfold
    exact ⟨rfl, steps_received.mp hsteps, rfl, rfl⟩
  · obtain ⟨seen, outputs⟩ := acc
    dsimp only
    rintro ⟨rfl, hall, rfl, rfl⟩
    exact ⟨outputs, rfl, steps_received.mpr hall, foldl_pushReceived outputs, rfl⟩

theorem fromUtf8_eq_some {raw : List UInt8} {s : String} : fromUtf8 raw = some s ↔ raw = utf8 s :=
  ⟨fun h => (utf8_of_fromUtf8 h).symm, fun h => h ▸ fromUtf8_utf8 s⟩

theorem readHead_eq_some {bytes rest : List UInt8} {address : String} :
    readHead bytes = some ((address, birthday, next), rest) ↔
      ((utf8 address).length < 2 ^ 32 ∧ birthday < 2 ^ 64 ∧ next < 2 ^ 64 ∧ birthday ≤ next) ∧
        bytes = putBytes scanTag ++ (putStr address ++ (leBytes 8 birthday ++ (leBytes 8 next ++ rest))) := by
  have htag : scanTag.length < 256 ^ 4 := by decide +kernel
  unfold readHead
  simp only [bind_eq_some, number_codec _ _ _ _, bytes_codec _ _ _, orFail_eq_some, fromUtf8_eq_some, check_eq_some,
    pure_eq_some, Prod.mk.injEq]
  constructor
  · rintro ⟨_, _, ⟨-, rfl⟩, -, _, ⟨rfl, rfl⟩, _, _, ⟨haddress, rfl⟩, address, _, ⟨rfl, rfl⟩, birthday, _,
      ⟨hbirthday, rfl⟩, next, _, ⟨hnext, rfl⟩, -, _, ⟨hordered, rfl⟩, ⟨rfl, rfl, rfl⟩, rfl⟩
    exact ⟨⟨haddress, hbirthday, hnext, hordered⟩, rfl⟩
  · rintro ⟨⟨haddress, hbirthday, hnext, hordered⟩, rfl⟩
    exact ⟨scanTag, _, ⟨htag, rfl⟩, (), _, ⟨rfl, rfl⟩, utf8 address, _, ⟨haddress, rfl⟩, address, _, ⟨rfl, rfl⟩,
      birthday, _, ⟨hbirthday, rfl⟩, next, _, ⟨hnext, rfl⟩, (), _, ⟨hordered, rfl⟩, ⟨rfl, rfl, rfl⟩, rfl⟩

theorem readWindow_eq_some {acc : SortedMap ℕ Recent × Dust} {bytes rest : List UInt8} :
    readWindow birthday next bytes = some (acc, rest) ↔
      acc.1.entries.length ≤ recentBlocks ∧ (∀ e ∈ acc.1.entries, RecentOk birthday next e) ∧
        acc.2 = windowed acc.1.entries ∧
        bytes = putCount acc.1.entries.length ++ (acc.1.entries.flatMap putRecent ++ rest) := by
  unfold readWindow
  simp only [bind_eq_some, number_codec _ _ _ _, check_eq_some, loop_recent]
  constructor
  · rintro ⟨_, _, ⟨-, rfl⟩, -, _, ⟨hwindow, rfl⟩, rfl, hrecent, hsum, rfl⟩
    exact ⟨hwindow, hrecent, hsum, rfl⟩
  · rintro ⟨hwindow, hrecent, hsum, rfl⟩
    exact ⟨_, _, ⟨hwindow.trans_lt (by decide), rfl⟩, (), _, ⟨hwindow, rfl⟩, rfl, hrecent, hsum, rfl⟩

theorem readOutputs_eq_some {acc : Finset Key × List Received} {bytes rest : List UInt8} :
    readOutputs birthday next bytes = some (acc, rest) ↔
      acc.2.length ≤ maxOutputs ∧ ((acc.2.map Received.key).Nodup ∧
        ∀ r ∈ acc.2, r.Fits ∧ birthday ≤ r.height ∧ r.height < next) ∧ acc.1 = keys acc.2 ∧
        bytes = putCount acc.2.length ++ (acc.2.flatMap putReceived ++ rest) := by
  unfold readOutputs
  simp only [bind_eq_some, number_codec _ _ _ _, check_eq_some, loop_received]
  constructor
  · rintro ⟨_, _, ⟨-, rfl⟩, -, _, ⟨hroom, rfl⟩, rfl, houtputs, hseen, rfl⟩
    exact ⟨hroom, houtputs, hseen, rfl⟩
  · rintro ⟨hroom, houtputs, hseen, rfl⟩
    exact ⟨_, _, ⟨hroom.trans_lt (by decide), rfl⟩, (), _, ⟨hroom, rfl⟩, rfl, houtputs, hseen, rfl⟩

theorem readScan_codec : Codec readScan Valid ScanState.encode := by
  intro bytes s rest
  unfold readScan
  simp only [bind_eq_some, Prod.exists, readHead_eq_some, readWindow_eq_some, readDust_codec _ _ _, check_eq_some,
    readOutputs_eq_some, pure_eq_some]
  constructor
  · rintro ⟨address, birthday, next, _, ⟨⟨haddress, hbirthday, hnext, hordered⟩, rfl⟩, recent, _, _,
      ⟨hwindow, hrecent, rfl, rfl⟩, dust, _, ⟨hdust, rfl⟩, -, _, ⟨⟨hpossible, hcovers⟩, rfl⟩, _, outputs, _,
      ⟨hroom, ⟨hdistinct, houtputs⟩, rfl, rfl⟩, rfl, rfl⟩
    refine ⟨⟨haddress, hbirthday, hnext, hordered, hwindow, hrecent, hdust, hpossible, hcovers, hroom, houtputs,
      hdistinct, rfl⟩, ?_⟩
    simp [ScanState.encode]
  · rintro ⟨hvalid, rfl⟩
    obtain ⟨address, birthday, next, recent, seen, outputs, dust⟩ := s
    refine ⟨address, birthday, next, _, ⟨⟨hvalid.address, hvalid.birthday, hvalid.next, hvalid.ordered⟩, ?_⟩, recent, _,
      _, ⟨hvalid.window, hvalid.recent, rfl, rfl⟩, dust, _, ⟨hvalid.dust, rfl⟩, (), _,
      ⟨⟨hvalid.possible, hvalid.covers⟩, rfl⟩, seen, outputs, rest,
      ⟨hvalid.room, ⟨hvalid.distinct, hvalid.outputs⟩, hvalid.seen, rfl⟩, rfl, rfl⟩
    simp only [ScanState.encode, List.append_assoc]

end

section

structure Block.Fits (b : Block) : Prop where
  time : b.time < 2 ^ 64
  found : ∀ r ∈ b.found, r.Fits

variable {address : String} {birthday : ℕ} {calls L : List Block} {s : ScanState}

theorem scan_keeps {P : ScanState → List Block → Prop} (hnew : P (ScanState.new address birthday) [])
    (hstep : ∀ s L b s' step, b ∈ calls → P s L → s.apply b = some (s', step) → P s' (standing L b s' step))
    (h : scan address birthday calls = some (s, L)) : P s L := by
  induction calls using List.reverseRecOn generalizing s L with
  | nil =>
    cases h
    exact hnew
  | append_singleton calls b ih =>
    rw [scan, List.foldlM_append] at h
    obtain ⟨⟨t, M⟩, hcalls, hb⟩ := Option.bind_eq_some_iff.mp h
    obtain ⟨⟨t', M'⟩, hone, hend⟩ := Option.bind_eq_some_iff.mp hb
    cases hend
    obtain ⟨step, happly, rfl⟩ := scanStep_eq_some.mp hone
    have hbefore : P t M := ih (fun s L c s' st hc => hstep s L c s' st (List.mem_append_left _ hc)) hcalls
    exact hstep t M b s step (List.mem_append_right _ (List.mem_singleton_self b)) hbefore happly

theorem standing_subset (L : List Block) (b : Block) (s : ScanState) (step : Step) :
    ∀ c ∈ standing L b s step, c ∈ L ∨ c = b := by
  intro c hc
  cases step with
  | applied new => simpa [standing] using hc
  | reorg =>
    rw [standing] at hc
    split_ifs at hc
    · exact absurd hc List.not_mem_nil
    · exact .inl (List.dropLast_subset _ hc)
  | outOfOrder | full => exact .inl hc

theorem scan_standing (h : scan address birthday calls = some (s, L)) : ∀ b ∈ L, b ∈ calls := by
  refine scan_keeps (P := fun _ L => ∀ b ∈ L, b ∈ calls) (fun b hb => absurd hb List.not_mem_nil) ?_ h
  intro s L b s' step hb hL _ c hc
  rcases standing_subset L b s' step c hc with hc | rfl
  · exact hL c hc
  · exact hb

theorem rewind_window (s : ScanState) (h : s.recent.entries.length ≤ recentBlocks) :
    s.rewind.recent.entries.length ≤ recentBlocks := by
  unfold ScanState.rewind
  split
  · exact Nat.zero_le _
  · rename_i top block recent hpop
    split_ifs
    · exact Nat.zero_le _
    · have hshort : recent.entries.length ≤ s.recent.entries.length := by
        obtain ⟨e, -, he⟩ := Option.map_eq_some_iff.mp hpop
        cases he
        exact (List.dropLast_sublist _).length_le
      exact hshort.trans h

theorem scan_window (h : scan address birthday calls = some (s, L)) : s.recent.entries.length ≤ recentBlocks := by
  refine scan_keeps (P := fun s _ => s.recent.entries.length ≤ recentBlocks) (Nat.zero_le _) ?_ h
  intro s L b s' step _ hs happly
  rcases ScanState.apply_cases happly with ⟨rfl, -⟩ | ⟨-, -, rfl, -⟩ | ⟨-, -, -, -, rfl, -⟩
  · exact hs
  · exact rewind_window s hs
  · simp only [ScanState.record, SortedMap.keepLast, List.length_drop]
    omega

def Dust.Small (d : Dust) : Prop := d.total ≤ d.count * (dustLimit - 1)

theorem Dust.Small.possible {d : Dust} (h : d.Small) (hfits : d.Fits) : d.possible :=
  le_min h (Nat.le_sub_one_of_lt hfits.2)

theorem exactDust_small (found : List Received) : (exactDust found).Small := by
  have hbelow : ∀ a ∈ (found.filter isDust).map Received.amount, a ≤ dustLimit - 1 := by
    intro a ha
    obtain ⟨r, hr, rfl⟩ := List.mem_map.mp ha
    exact Nat.le_sub_one_of_lt (of_decide_eq_true (List.mem_filter.mp hr).2)
  have hsum := List.sum_le_card_nsmul _ _ hbelow
  rwa [List.length_map] at hsum

variable {entries : List (ℕ × Recent)}

theorem dustOf_small (h : ∀ e ∈ entries, e.2.dust.Small) : (dustOf entries).Small := by
  induction entries with
  | nil => exact Nat.zero_le _
  | cons e entries ih =>
    have hhead : e.2.dust.total ≤ e.2.dust.count * (dustLimit - 1) := h e List.mem_cons_self
    have htail : (dustOf entries).total ≤ (dustOf entries).count * (dustLimit - 1) :=
      ih fun f hf => h f (.tail _ hf)
    show e.2.dust.total + (dustOf entries).total ≤ (e.2.dust.count + (dustOf entries).count) * (dustLimit - 1)
    rw [Nat.add_mul]
    exact Nat.add_le_add hhead htail

theorem windowed_eq (h : (dustOf entries).Fits) : windowed entries = dustOf entries := by
  induction entries using List.reverseRecOn with
  | nil => rfl
  | append_singleton entries e ih =>
    have hsum : dustOf (entries ++ [e]) =
        ⟨(dustOf entries).count + e.2.dust.count, (dustOf entries).total + e.2.dust.total⟩ := by
      simp [dustOf]
    rw [windowed, List.foldl_concat, ← windowed, ih (Dust.Fits.left h).1, hsum]
    exact Dust.add_eq (hsum ▸ h)

theorem content_entry : ∀ e ∈ (content L).entries,
    (∃ b ∈ L, e.1 = b.height ∧ e.2.time = b.time) ∧ e.2.dust.Small := by
  induction L using List.reverseRecOn with
  | nil => exact fun e he => absurd he List.not_mem_nil
  | append_singleton L b ih =>
    intro e he
    rw [content_concat] at he
    rcases List.mem_append.mp he with he | he
    · obtain ⟨⟨c, hc, hmeta⟩, hsmall⟩ := ih e he
      exact ⟨⟨c, List.mem_append_left _ hc, hmeta⟩, hsmall⟩
    · rw [List.mem_singleton.mp he]
      exact ⟨⟨b, List.mem_append_right _ (List.mem_singleton_self b), rfl, rfl⟩, exactDust_small _⟩

theorem content_outputs_fit (h : ∀ b ∈ L, b.Fits) : ∀ r ∈ (content L).outputs, r.Fits := by
  induction L using List.reverseRecOn with
  | nil => exact fun r hr => absurd hr List.not_mem_nil
  | append_singleton L b ih =>
    intro r hr
    rw [content_concat] at hr
    rcases List.mem_append.mp hr with hr | hr
    · exact ih (fun c hc => h c (List.mem_append_left _ hc)) r hr
    · have hfound : r ∈ b.found := ((unseen_spec _ _ _).1 r (List.mem_of_mem_filter hr)).1
      exact (h b (List.mem_append_right _ (List.mem_singleton_self b))).found r hfound

theorem Dust.Fits.of_mem (h : (dustOf entries).Fits) :
    ∀ e ∈ entries, e.2.dust.Fits := by
  intro e he
  have hcount := List.le_sum_of_mem (List.mem_map_of_mem (f := fun e => e.2.dust.count) he)
  have htotal := List.le_sum_of_mem (List.mem_map_of_mem (f := fun e => e.2.dust.total) he)
  exact ⟨hcount.trans_lt h.1, htotal.trans_lt h.2⟩

theorem Follows.height_ge (h : Follows s L) : ∀ b ∈ L, s.birthday ≤ b.height := by
  intro b hb
  have hmem : b.height ∈ L.map Block.height := List.mem_map_of_mem hb
  rw [h.heights, List.mem_range'_1] at hmem
  exact hmem.1

theorem Follows.valid (h : Follows s L) (haddress : (utf8 s.address).length < 2 ^ 32)
    (hfits : ∀ b ∈ L, b.Fits) (hdust : (dustOf (content L).entries).Fits)
    (hwindow : s.recent.entries.length ≤ recentBlocks) : Valid s := by
  obtain ⟨older, holder⟩ := h.recent
  have hsplit : dustOf (content L).entries =
      ⟨(dustOf older).count + (dustOf s.recent.entries).count, (dustOf older).total + (dustOf s.recent.entries).total⟩ := by
    rw [← holder, dustOf_append]
  have hwindowed : windowed s.recent.entries = dustOf s.recent.entries :=
    windowed_eq (Dust.Fits.left (holder ▸ hdust)).2
  have hordered : s.birthday ≤ s.next := h.next ▸ Nat.le_add_right ..
  refine ⟨haddress, hordered.trans_lt h.bound, h.bound, hordered, hwindow, ?_, h.dust ▸ hdust, ?_, ?_, h.room, ?_, ?_,
    h.seen⟩
  · intro e he
    have hmem : e ∈ (content L).entries := h.recent.subset he
    obtain ⟨⟨b, hb, hheight, htime⟩, hsmall⟩ := content_entry e hmem
    have hlt : e.1 < s.next := h.entry_lt e he
    exact ⟨⟨hheight ▸ h.height_ge b hb, hlt⟩, hlt.trans h.bound, htime ▸ (hfits b hb).time,
      Dust.Fits.of_mem hdust e hmem, hsmall.possible (Dust.Fits.of_mem hdust e hmem)⟩
  · rw [h.dust]
    exact (dustOf_small fun e he => (content_entry e he).2).possible hdust
  · rw [h.dust, hwindowed, hsplit]
    exact ⟨Nat.le_add_left .., Nat.le_add_left ..⟩
  · intro r hr
    rw [h.outputs] at hr
    obtain ⟨b, hb, hheight⟩ := content_outputs_height h.honest r hr
    exact ⟨content_outputs_fit hfits r hr, hheight ▸ h.height_ge b hb, hheight ▸ h.height_lt b hb⟩
  · rw [h.outputs]
    exact content_keys_nodup L

/-- A state a scan can be in: blocks found by a scanner that gives each output its block's height,
with the sums of the dust below `2 ^ 64`. -/
def Scanned (s : ScanState) : Prop :=
  ∃ address birthday calls L, birthday < 2 ^ 64 ∧ (utf8 address).length < 2 ^ 32 ∧
    (∀ b ∈ calls, b.Honest ∧ b.Fits) ∧ DustFits address birthday calls ∧ scan address birthday calls = some (s, L)

theorem Scanned.valid (h : Scanned s) : Valid s := by
  obtain ⟨address, birthday, calls, L, hbirthday, haddress, hblocks, hdust, hscan⟩ := h
  obtain ⟨hfollows, rfl, -⟩ := scan_follows address hbirthday (fun b hb => (hblocks b hb).1) hdust hscan
  exact hfollows.valid haddress (fun b hb => (hblocks b (scan_standing hscan b hb)).2)
    (hdust calls s L List.prefix_rfl hscan) (scan_window hscan)

end

section

def keysTag : List UInt8 := utf8 "molt-wallet-keys-v1"

inductive Network where
  | mainnet
  | testnet
  | stagenet
  deriving DecidableEq

def networkByte : Network → ℕ
  | .mainnet => 0
  | .testnet => 1
  | .stagenet => 2

def networkFromByte : ℕ → Option Network
  | 0 => some .mainnet
  | 1 => some .testnet
  | 2 => some .stagenet
  | _ => none

structure RunId where
  republicId : Vector UInt8 32
  initId : ℕ
  run : Vector UInt8 32
  deriving DecidableEq

def RunId.put (r : RunId) : List UInt8 := r.republicId.toList ++ leBytes 8 r.initId ++ r.run.toList

structure KeysRecord where
  run : RunId
  transcript : Vector UInt8 32
  address : String
  network : Network
  m : ℕ
  n : ℕ
  birthday : ℕ
  attestation : Vector UInt8 64
  share : List UInt8
  view : Vector UInt8 32
  deriving DecidableEq

def KeysRecord.encode (k : KeysRecord) : List UInt8 :=
  putBytes keysTag ++ k.run.put ++ k.transcript.toList ++ putStr k.address ++ leBytes 1 (networkByte k.network) ++
    leBytes 2 k.m ++ leBytes 2 k.n ++ leBytes 8 k.birthday ++ k.attestation.toList ++ putBytes k.share ++ k.view.toList

def takeRun : Cursor RunId := do
  let republicId ← array 32
  let initId ← number 8
  let run ← array 32
  return ⟨republicId, initId, run⟩

def readKeys : Cursor KeysRecord := do
  let tag ← Cursor.bytes
  check (tag = keysTag)
  let run ← takeRun
  let transcript ← array 32
  let address ← orFail (fromUtf8 (← Cursor.bytes))
  let network ← orFail (networkFromByte (← number 1))
  let m ← number 2
  let n ← number 2
  let birthday ← number 8
  let attestation ← array 64
  let share ← Cursor.bytes
  let view ← array 32
  return ⟨run, transcript, address, network, m, n, birthday, attestation, share, view⟩

def KeysRecord.parse (bytes : List UInt8) : Option KeysRecord := whole readKeys bytes

/-- The record's numbers are words of their widths, its strings are under the length a layout
can carry. -/
structure KeysRecord.Fits (k : KeysRecord) : Prop where
  initId : k.run.initId < 2 ^ 64
  address : (utf8 k.address).length < 2 ^ 32
  m : k.m < 2 ^ 16
  n : k.n < 2 ^ 16
  birthday : k.birthday < 2 ^ 64
  share : k.share.length < 2 ^ 32

theorem networkFromByte_eq_some {b : ℕ} {network : Network} :
    networkFromByte b = some network ↔ b = networkByte network := by
  constructor
  · intro h
    unfold networkFromByte at h
    split at h
    · cases h
      rfl
    · cases h
      rfl
    · cases h
      rfl
    · cases h
  · rintro rfl
    cases network with
    | mainnet | testnet | stagenet => rfl

theorem networkByte_lt (network : Network) : networkByte network < 256 ^ 1 := by
  cases network with
  | mainnet | testnet | stagenet => decide

theorem takeRun_codec : Codec takeRun (fun r => r.initId < 2 ^ 64) RunId.put := by
  intro bytes r rest
  unfold takeRun RunId.put
  simp only [bind_eq_some, number_codec _ _ _ _, array_codec _ _ _ _, pure_eq_some]
  constructor
  · rintro ⟨republicId, _, ⟨-, rfl⟩, initId, _, ⟨hinit, rfl⟩, run, _, ⟨-, rfl⟩, rfl, rfl⟩
    exact ⟨hinit, by simp⟩
  · rintro ⟨hinit, rfl⟩
    exact ⟨r.republicId, _, ⟨trivial, by simp⟩, r.initId, _, ⟨hinit, rfl⟩, r.run, rest,
      ⟨trivial, rfl⟩, rfl, rfl⟩

theorem readKeys_codec : Codec readKeys KeysRecord.Fits KeysRecord.encode := by
  have htag : keysTag.length < 256 ^ 4 := by decide +kernel
  intro bytes k rest
  unfold readKeys
  simp only [bind_eq_some, bytes_codec _ _ _, takeRun_codec _ _ _, array_codec _ _ _ _, number_codec _ _ _ _,
    orFail_eq_some, fromUtf8_eq_some, networkFromByte_eq_some, check_eq_some, pure_eq_some]
  constructor
  · rintro ⟨_, _, ⟨-, rfl⟩, -, _, ⟨rfl, rfl⟩, run, _, ⟨hinit, rfl⟩, transcript, _, ⟨-, rfl⟩, _, _, ⟨haddress, rfl⟩,
      address, _, ⟨rfl, rfl⟩, _, _, ⟨-, rfl⟩, network, _, ⟨rfl, rfl⟩, m, _, ⟨hm, rfl⟩, n, _, ⟨hn, rfl⟩, birthday, _,
      ⟨hbirthday, rfl⟩, attestation, _, ⟨-, rfl⟩, share, _, ⟨hshare, rfl⟩, view, _, ⟨-, rfl⟩, rfl, rfl⟩
    exact ⟨⟨hinit, haddress, hm, hn, hbirthday, hshare⟩, by
      simp only [KeysRecord.encode, putStr, putBytes, List.append_assoc]⟩
  · rintro ⟨⟨hinit, haddress, hm, hn, hbirthday, hshare⟩, rfl⟩
    exact ⟨keysTag, _, ⟨htag, by simp only [KeysRecord.encode, putBytes, List.append_assoc]; rfl⟩, (), _, ⟨rfl, rfl⟩,
      k.run, _, ⟨hinit, rfl⟩, k.transcript, _, ⟨trivial, rfl⟩, utf8 k.address, _,
      ⟨haddress, by simp [putStr, putBytes]⟩, k.address, _, ⟨rfl, rfl⟩,
      networkByte k.network, _, ⟨networkByte_lt _, rfl⟩, k.network, _, ⟨rfl, rfl⟩, k.m, _, ⟨hm, rfl⟩, k.n, _,
      ⟨hn, rfl⟩, k.birthday, _, ⟨hbirthday, rfl⟩, k.attestation, _, ⟨trivial, rfl⟩, k.share, _,
      ⟨hshare, rfl⟩, k.view, rest, ⟨trivial, rfl⟩, rfl, rfl⟩

def walletKeysTag : List UInt8 := utf8 "molt-wallet-keys-file-v1"

def encodeWalletKeys (records : List (List UInt8)) : List UInt8 :=
  putBytes walletKeysTag ++ putCount records.length ++ records.flatMap putBytes

def readRecords : Cursor (List (List UInt8)) := do
  let tag ← Cursor.bytes
  check (tag = walletKeysTag)
  let count ← number 4
  loop (fun out => do return out ++ [← Cursor.bytes]) count []

def decodeWalletKeys (plain : List UInt8) : Option (List (List UInt8)) := whole readRecords plain

def RecordsFit (records : List (List UInt8)) : Prop := records.length < 2 ^ 32 ∧ ∀ r ∈ records, r.length < 2 ^ 32

theorem steps_records {records out : List (List UInt8)} :
    Steps (fun out r => out ++ [r]) (fun _ r => r.length < 256 ^ 4) out records ↔ ∀ r ∈ records, r.length < 2 ^ 32 := by
  induction records generalizing out with
  | nil => exact iff_of_true trivial fun r hr => absurd hr List.not_mem_nil
  | cons r records ih =>
    rw [Steps, ih, List.forall_mem_cons]
    rfl

theorem loop_records {n : ℕ} {records : List (List UInt8)} {bytes rest : List UInt8} :
    loop (fun out => do return out ++ [← Cursor.bytes]) n [] bytes = some (records, rest) ↔
      records.length = n ∧ (∀ r ∈ records, r.length < 2 ^ 32) ∧ bytes = records.flatMap putBytes ++ rest := by
  have hstep : ∀ (out : List (List UInt8)) bytes out' rest,
      (do return out ++ [← Cursor.bytes] : Cursor (List (List UInt8))) bytes = some (out', rest) ↔
        ∃ r, r.length < 256 ^ 4 ∧ out ++ [r] = out' ∧ bytes = putBytes r ++ rest := by
    intro out bytes out' rest
    simp only [bind_eq_some, bytes_codec _ _ _, pure_eq_some]
    constructor
    · rintro ⟨r, _, ⟨hr, rfl⟩, rfl, rfl⟩
      exact ⟨r, hr, rfl, rfl⟩
    · rintro ⟨r, hr, rfl, rfl⟩
      exact ⟨r, rest, ⟨hr, rfl⟩, rfl, rfl⟩
  have hfold : ∀ records : List (List UInt8), records.foldl (fun out r => out ++ [r]) [] = records := fun records => by
    rw [← List.flatMap_eq_foldl, List.flatMap_singleton']
  rw [loop_eq_some hstep]
  constructor
  · rintro ⟨entries, rfl, hsteps, hfolded, rfl⟩
    rw [hfold] at hfolded
    subst hfolded
    exact ⟨rfl, steps_records.mp hsteps, rfl⟩
  · rintro ⟨rfl, hrecords, rfl⟩
    exact ⟨records, rfl, steps_records.mpr hrecords, hfold records, rfl⟩

theorem readRecords_codec : Codec readRecords RecordsFit encodeWalletKeys := by
  have htag : walletKeysTag.length < 256 ^ 4 := by decide +kernel
  intro bytes records rest
  unfold readRecords
  simp only [bind_eq_some, bytes_codec _ _ _, number_codec _ _ _ _, check_eq_some, loop_records]
  constructor
  · rintro ⟨_, _, ⟨-, rfl⟩, -, _, ⟨rfl, rfl⟩, _, _, ⟨hcount, rfl⟩, rfl, hrecords, rfl⟩
    exact ⟨⟨hcount, hrecords⟩, by simp only [encodeWalletKeys, putBytes, putCount, List.append_assoc]⟩
  · rintro ⟨⟨hcount, hrecords⟩, rfl⟩
    exact ⟨walletKeysTag, _, ⟨htag, by simp only [encodeWalletKeys, putBytes, putCount, List.append_assoc]⟩, (), _,
      ⟨rfl, rfl⟩, records.length, _, ⟨hcount, rfl⟩, rfl, hrecords, rfl⟩

end

/-- The purse's files are canonical: of every state a scan can be in, of every keys record and of
every list of records. -/
theorem saved_files_canonical :
    Canonical ScanState.encode ScanState.parse Scanned ∧
    Canonical KeysRecord.encode KeysRecord.parse KeysRecord.Fits ∧
    Canonical encodeWalletKeys decodeWalletKeys RecordsFit :=
  ⟨readScan_codec.canonical fun _ h => h.valid, readKeys_codec.canonical fun _ h => h,
    readRecords_codec.canonical fun _ h => h⟩

end Molt.Treasury
