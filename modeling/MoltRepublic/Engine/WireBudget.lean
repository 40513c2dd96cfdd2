import Mathlib
import MoltRepublic.Engine.WikiEdit

/-! What an admitted payload costs on the wire: the frame a plaintext is sealed into, and the
envelopes that carry a payload as a block and as the proposal of it. -/

namespace Molt.Engine
open Molt.Core Json Text List

section

def usizeMax : ℕ := 2 ^ 64 - 1

def frameCost (plaintextLen : ℕ) : ℕ :=
  let sealed := min (min (min (plaintextLen + mlsFrameOverhead) usizeMax + nonceLen) usizeMax + tagLen) usizeMax
  min (min ((sealed + 2) / 3 * 4) usizeMax + eventFrameOverhead) usizeMax

theorem frameCost_le_iff {budget len : ℕ} (hbudget : frameCost 0 ≤ budget) (hlen : len < 2 ^ 63) :
    frameCost len ≤ budget ↔ len ≤ maxPlaintextFor budget := by
  have hzero : frameCost 0 = 1064 := by decide
  have hcost : frameCost len = (len + 412 + 2) / 3 * 4 + 512 := by
    simp only [frameCost, usizeMax, mlsFrameOverhead, nonceLen, tagLen, eventFrameOverhead]
    omega
  have hmax : maxPlaintextFor budget = (budget - 512) / 4 * 3 - 412 := rfl
  omega

end

section

def quoted (s : String) : ℕ := (writeString s).length

theorem length_str (s : String) : (toVec (.str s)).length = quoted s := by rw [toVec, quoted]

theorem length_writeFields (fields : List (String × Value)) :
    (writeFields fields).length = 1 + (fields.map fun f => quoted f.1 + (toVec f.2).length + 2).sum := by
  induction fields with
  | nil => rfl
  | cons f fs ih =>
    simp only [writeFields, quoted, length_cons, length_append, ih, map_cons, sum_cons]
    omega

theorem length_obj (k : String) (v : Value) (fs : List (String × Value)) :
    (toVec (.obj ((k, v) :: fs))).length =
      1 + (((k, v) :: fs).map fun f => quoted f.1 + (toVec f.2).length + 2).sum := by
  rw [toVec]
  simp only [quoted, length_cons, length_append, length_writeFields, map_cons, sum_cons]
  omega

theorem length_writeItems (items : List Value) :
    (writeItems items).length = 1 + (items.map fun v => (toVec v).length + 1).sum := by
  induction items with
  | nil => rfl
  | cons v vs ih =>
    simp only [writeItems, length_cons, length_append, ih, map_cons, sum_cons]
    omega

theorem length_arr (items : List Value) :
    (toVec (.arr items)).length = 1 + max 1 (items.map fun v => (toVec v).length + 1).sum := by
  match items with
  | [] => rfl
  | v :: vs =>
    rw [toVec]
    simp only [length_cons, length_append, length_writeItems, map_cons, sum_cons]
    omega

def u64 (n : UInt64) : Value := .num (.posInt n)

def digits (n : UInt64) : ℕ := (toVec (u64 n)).length

theorem digits_le (n : UInt64) : digits n ≤ 20 := by
  rw [digits, u64, toVec, Number.bytes, decimal, length_map]
  exact Nat.toDigits_length 10 n.toNat 20 (by decide) (n.toNat_lt.trans (by decide))

theorem digits_max : digits (UInt64.ofNat (2 ^ 64 - 1)) = 20 := by decide +kernel

theorem flatMap_escapeByte {l : List UInt8} (h : l.all isLowerHexdigit = true) : l.flatMap escapeByte = l := by
  have hplain : ∀ b : UInt8, isLowerHexdigit b = true → escapeByte b = [b] := by
    intro b hb
    unfold isLowerHexdigit at hb
    unfold escapeByte
    grind
  induction l with
  | nil => rfl
  | cons b l ih =>
    rw [all_cons, Bool.and_eq_true] at h
    rw [flatMap_cons, hplain b h.1, ih h.2, singleton_append]

theorem quoted_hex {s : String} {bytes : ℕ} (h : Crypto.isHex s bytes = true) : quoted s = bytes * 2 + 2 := by
  simp only [Crypto.isHex, Bool.and_eq_true, beq_iff_eq] at h
  simp [quoted, writeString, flatMap_escapeByte h.2, h.1]

theorem isHex_replicate (bytes : ℕ) : Crypto.isHex (String.ofList (List.replicate (bytes * 2) 'f')) bytes = true := by
  have hbytes : utf8 (String.ofList (List.replicate (bytes * 2) 'f')) = List.replicate (bytes * 2) 102 := by
    rw [utf8_ofList, flatMap_replicate]
    show (List.replicate (bytes * 2) [102]).flatten = _
    rw [flatten_replicate_singleton]
  rw [Crypto.isHex, hbytes, length_replicate, beq_self_eq_true, Bool.true_and, all_replicate]
  split <;> rfl

end

section

inductive PayloadEvent where
  | committed (height : UInt64) (prev : String) (proposalId : UInt64) (surface : Surface) (payload : Value)
      (sigs : List RosterAttestation)
  | proposed (id : UInt64) (surface : Surface) (payload : Value)

structure PayloadEnvelope where
  seq : UInt64
  ts : UInt64
  by_ : String
  body : PayloadEvent
  prevSeq : UInt64

def attestationJson (a : RosterAttestation) : Value := .obj [("member", .str a.member), ("sig", .str a.sig)]

def PayloadEvent.toJson : PayloadEvent → Value
  | .committed height prev proposalId surface payload sigs =>
    .obj [("type", .str "committed"), ("height", u64 height), ("prev", .str prev),
      ("change", .obj [("kind", .str "applied"), ("proposal_id", u64 proposalId), ("surface", .str surface.asStr),
        ("payload", payload)]),
      ("sigs", .arr (sigs.map attestationJson))]
  | .proposed id surface payload =>
    .obj [("type", .str "proposed"), ("id", u64 id), ("surface", .str surface.asStr), ("payload", payload)]

/-- A zero `prev_seq` is left out. -/
def PayloadEnvelope.toJson (e : PayloadEnvelope) : Value :=
  .obj ([("seq", u64 e.seq), ("ts", u64 e.ts), ("by", .str e.by_), ("body", e.body.toJson)] ++
    if e.prevSeq = 0 then [] else [("prev_seq", u64 e.prevSeq)])

def topEnvelope (roster : List String) (surface : Surface) (payload : Value) (sender : String) : PayloadEnvelope :=
  let top := UInt64.ofNat (2 ^ 64 - 1)
  ⟨top, top, sender, .committed top (String.ofList (List.replicate 64 'f')) top surface payload
    (roster.map fun m => ⟨m, String.ofList (List.replicate 128 'f')⟩), top⟩

theorem appliedEnvelope_eq (surface : Surface) (payload : Value) (roster : List String) :
    appliedEnvelope surface payload roster = (topEnvelope roster surface payload (longestName roster)).toJson := by
  simp only [appliedEnvelope, topEnvelope, PayloadEnvelope.toJson, PayloadEvent.toJson, u64, map_map]
  rfl

def sigsCost (names : List String) : ℕ := 1 + max 1 (names.map fun m => quoted m + 149).sum

theorem length_sigs {sigs : List RosterAttestation} (hhex : ∀ a ∈ sigs, Crypto.isHex a.sig 64 = true) :
    (toVec (.arr (sigs.map attestationJson))).length = sigsCost (sigs.map RosterAttestation.member) := by
  have hone : ∀ a ∈ sigs, (toVec (attestationJson a)).length + 1 = quoted a.member + 149 := by
    intro a ha
    have hkeys : quoted "member" = 8 ∧ quoted "sig" = 5 := by decide
    rw [attestationJson, length_obj]
    simp only [map_cons, map_nil, sum_cons, sum_nil, length_str, hkeys, quoted_hex (hhex a ha)]
    omega
  rw [length_arr, sigsCost, map_map, map_map]
  congr 2
  exact congrArg List.sum (map_congr_left hone)

def bodyCost (surface : Surface) (payload : Value) : ℕ := quoted surface.asStr + (toVec payload).length

variable {surface : Surface} {payload : Value}

theorem length_committed {height proposalId : UInt64} {prev : String} {sigs : List RosterAttestation}
    (hprev : Crypto.isHex prev 32 = true) (hhex : ∀ a ∈ sigs, Crypto.isHex a.sig 64 = true) :
    (toVec (PayloadEvent.committed height prev proposalId surface payload sigs).toJson).length =
      bodyCost surface payload + digits height + digits proposalId + sigsCost (sigs.map RosterAttestation.member) +
        177 := by
  have hkeys : quoted "type" = 6 ∧ quoted "height" = 8 ∧ quoted "prev" = 6 ∧ quoted "change" = 8 ∧
      quoted "sigs" = 6 ∧ quoted "kind" = 6 ∧ quoted "proposal_id" = 13 ∧ quoted "surface" = 9 ∧
      quoted "payload" = 9 ∧ quoted "committed" = 11 ∧ quoted "applied" = 9 := by decide
  rw [PayloadEvent.toJson, length_obj]
  simp only [map_cons, map_nil, sum_cons, sum_nil, length_obj, length_str,
    hkeys, quoted_hex hprev, length_sigs hhex, ← digits.eq_1, bodyCost]
  omega

theorem length_proposed {id : UInt64} :
    (toVec (PayloadEvent.proposed id surface payload).toJson).length = bodyCost surface payload + digits id + 47 := by
  have hkeys : quoted "type" = 6 ∧ quoted "id" = 4 ∧ quoted "surface" = 9 ∧ quoted "payload" = 9 ∧
      quoted "proposed" = 10 := by decide
  rw [PayloadEvent.toJson, length_obj]
  simp only [map_cons, map_nil, sum_cons, sum_nil, length_str, hkeys, ← digits.eq_1, bodyCost]
  omega

theorem length_envelope (e : PayloadEnvelope) :
    (toVec e.toJson).length = (toVec e.body.toJson).length + quoted e.by_ + digits e.seq + digits e.ts +
      (if e.prevSeq = 0 then 0 else digits e.prevSeq + 12) + 28 := by
  have hkeys : quoted "seq" = 5 ∧ quoted "ts" = 4 ∧ quoted "by" = 4 ∧ quoted "body" = 6 ∧
      quoted "prev_seq" = 10 := by decide
  rw [PayloadEnvelope.toJson, cons_append, length_obj]
  split <;>
    simp only [map_cons, map_nil, sum_cons, sum_nil, cons_append, nil_append,
      append_nil, length_str, hkeys, ← digits.eq_1] <;> omega

/-- The most a block of a payload costs from one sender: every number at twenty digits, every
seat's signature. -/
def topCost (roster : List String) (surface : Surface) (payload : Value) (sender : String) : ℕ :=
  bodyCost surface payload + sigsCost roster + quoted sender + 317

theorem members_attested (roster : List String) (sig : String) :
    (roster.map fun m => RosterAttestation.mk m sig).map RosterAttestation.member = roster := by
  rw [map_map]
  exact map_id _

variable {roster : List String}

theorem attested_hex {sig : String} (hsig : Crypto.isHex sig 64 = true) :
    ∀ a ∈ roster.map fun m => RosterAttestation.mk m sig, Crypto.isHex a.sig 64 = true := by
  intro a ha
  obtain ⟨m, -, rfl⟩ := mem_map.mp ha
  exact hsig

theorem length_topEnvelope (roster : List String) (surface : Surface) (payload : Value) (sender : String) :
    (toVec (topEnvelope roster surface payload sender).toJson).length = topCost roster surface payload sender := by
  have htop : (if (topEnvelope roster surface payload sender).prevSeq = 0 then 0
      else digits (topEnvelope roster surface payload sender).prevSeq + 12) = 32 := by
    have hne : UInt64.ofNat (2 ^ 64 - 1) ≠ 0 := by decide
    exact (if_neg hne).trans (congrArg (· + 12) digits_max)
  have hbody : (toVec (topEnvelope roster surface payload sender).body.toJson).length =
      bodyCost surface payload + 20 + 20 + sigsCost roster + 177 := by
    show (toVec (PayloadEvent.committed (UInt64.ofNat (2 ^ 64 - 1)) (String.ofList (List.replicate 64 'f'))
      (UInt64.ofNat (2 ^ 64 - 1)) surface payload
      (roster.map fun m => ⟨m, String.ofList (List.replicate 128 'f')⟩)).toJson).length = _
    rw [length_committed (isHex_replicate 32) (attested_hex (isHex_replicate 64)), members_attested, digits_max]
  rw [length_envelope, htop, hbody, topCost]
  show _ + quoted sender + digits (UInt64.ofNat (2 ^ 64 - 1)) + digits (UInt64.ofNat (2 ^ 64 - 1)) + 32 + 28 = _
  rw [digits_max]
  omega

theorem appliedBlockPlaintextLen_eq (surface : Surface) (payload : Value) (roster : List String) :
    appliedBlockPlaintextLen surface payload roster = topCost roster surface payload (longestName roster) := by
  rw [appliedBlockPlaintextLen, appliedEnvelope_eq, length_topEnvelope]

theorem sigsCost_le {names : List String} (h : names.Sublist roster) : sigsCost names ≤ sigsCost roster := by
  have hsum := List.Sublist.sum_le_sum (h.map fun m => quoted m + 149) fun _ _ => Nat.zero_le _
  unfold sigsCost
  omega

/-- The envelopes an admitted payload can be sent in: the block at any height with any of the
seats' signatures, and the proposal before it. -/
inductive Carries (roster : List String) (surface : Surface) (payload : Value) : PayloadEnvelope → Prop
  | committed {seq ts prevSeq height id : UInt64} {sender prev : String} {sigs : List RosterAttestation} :
      sender ∈ roster → Crypto.isHex prev 32 = true → (sigs.map RosterAttestation.member).Sublist roster →
      (∀ a ∈ sigs, Crypto.isHex a.sig 64 = true) →
      Carries roster surface payload ⟨seq, ts, sender, .committed height prev id surface payload sigs, prevSeq⟩
  | proposed {seq ts prevSeq id : UInt64} {sender : String} : sender ∈ roster →
      Carries roster surface payload ⟨seq, ts, sender, .proposed id surface payload, prevSeq⟩

theorem length_le_topCost {e : PayloadEnvelope} (h : Carries roster surface payload e) :
    e.by_ ∈ roster ∧ (toVec e.toJson).length ≤ topCost roster surface payload e.by_ := by
  have hprev : (if e.prevSeq = 0 then 0 else digits e.prevSeq + 12) ≤ 32 := by
    have := digits_le e.prevSeq
    split <;> omega
  have hseq := digits_le e.seq
  have hts := digits_le e.ts
  cases h with
  | @committed seq ts prevSeq height id sender prev sigs hsender hprevHex hsub hhex =>
    refine ⟨hsender, ?_⟩
    rw [length_envelope, length_committed hprevHex hhex, topCost]
    have := sigsCost_le hsub
    have := digits_le height
    have := digits_le id
    simp only at *
    omega
  | @proposed seq ts prevSeq id sender hsender =>
    refine ⟨hsender, ?_⟩
    rw [length_envelope, length_proposed, topCost]
    have := digits_le id
    simp only at *
    omega

def Publishable (roster : List String) (surface : Surface) (payload : Value) : Prop :=
  ∀ e, Carries roster surface payload e → (toVec e.toJson).length ≤ transportPlaintextCeiling

theorem publishable_iff :
    Publishable roster surface payload ↔
      ∀ m ∈ roster, topCost roster surface payload m ≤ transportPlaintextCeiling := by
  constructor
  · intro h m hm
    rw [← length_topEnvelope]
    apply h
    exact .committed hm (isHex_replicate 32) (by rw [members_attested]) (attested_hex (isHex_replicate 64))
  · intro h e he
    obtain ⟨hmem, hle⟩ := length_le_topCost he
    exact hle.trans (h _ hmem)

/-- The gate lets a payload through that fits from the seat with the longest name, and another
seat's name can be longer once it is quoted. A frame is within a budget exactly up to the
plaintext the budget is divided into. -/
theorem admitted_published_iff (roster : List String) (surface : Surface) (payload : Value) :
    (∀ budget len : ℕ, frameCost 0 ≤ budget → len < 2 ^ 63 → (frameCost len ≤ budget ↔ len ≤ maxPlaintextFor budget)) ∧
      ((payloadFits surface payload roster = true → Publishable roster surface payload) ↔
        (transportPlaintextCeiling < topCost roster surface payload (longestName roster) ∨
          ∀ m ∈ roster, topCost roster surface payload m ≤ transportPlaintextCeiling)) := by
  refine ⟨fun _ _ => frameCost_le_iff, ?_⟩
  rw [publishable_iff, payloadFits, decide_eq_true_eq, appliedBlockPlaintextLen_eq, imp_iff_not_or, Nat.not_le]

namespace Sample

theorem length_utf8_replicate (n : ℕ) (c : Char) :
    (utf8 (String.ofList (List.replicate n c))).length = n * (String.utf8EncodeChar c).length := by
  rw [utf8_ofList, flatMap_replicate, length_flatten, map_replicate, sum_replicate_nat]

theorem quoted_replicate (n : ℕ) (c : Char) :
    quoted (String.ofList (List.replicate n c)) = n * ((String.utf8EncodeChar c).flatMap escapeByte).length + 2 := by
  have hflat : ((utf8 (String.ofList (List.replicate n c))).flatMap escapeByte).length =
      n * ((String.utf8EncodeChar c).flatMap escapeByte).length := by
    rw [utf8_ofList, flatMap_assoc, flatMap_replicate, length_flatten, map_replicate,
      sum_replicate_nat]
  simp [quoted, writeString, hflat]

def umlauts : String := String.ofList (List.replicate 33 'ä')
def quotes : String := String.ofList (List.replicate 64 '"')

def charter : Value := .obj [("op", .str "set_charter"), ("value", .str (String.ofList (List.replicate 96581 'x')))]

def late : PayloadEnvelope :=
  ⟨9999999, 1785000000, quotes, .committed 99999 (String.ofList (List.replicate 64 'f')) 9223372036854775808
    .organization charter ([umlauts, quotes].map fun m => ⟨m, String.ofList (List.replicate 128 'f')⟩), 9999998⟩

theorem encoded : (String.utf8EncodeChar 'ä').length = 2 ∧ (String.utf8EncodeChar '"').length = 1 ∧
    ((String.utf8EncodeChar 'ä').flatMap escapeByte).length = 2 ∧
    ((String.utf8EncodeChar '"').flatMap escapeByte).length = 2 ∧
    ((String.utf8EncodeChar 'x').flatMap escapeByte).length = 1 := by decide +kernel

theorem quoted_umlauts : quoted umlauts = 68 := by
  unfold umlauts
  rw [quoted_replicate 33 'ä', encoded.2.2.1]

theorem quoted_quotes : quoted quotes = 130 := by
  unfold quotes
  rw [quoted_replicate 64 '"', encoded.2.2.2.1]

theorem longest : longestName [umlauts, quotes] = umlauts := by
  have humlauts : (utf8 umlauts).length = 66 := by
    unfold umlauts
    rw [length_utf8_replicate 33 'ä', encoded.1]
  have hquotes : (utf8 quotes).length = 64 := by
    unfold quotes
    rw [length_utf8_replicate 64 '"', encoded.2.1]
  unfold longestName
  have hfirst : (utf8 "").length ≤ (utf8 umlauts).length := by
    rw [humlauts]
    decide
  rw [List.foldl_cons, if_pos hfirst, List.foldl_cons, humlauts, hquotes, if_neg (by decide), List.foldl_nil]

theorem bodyCost_charter : bodyCost .organization charter = 96626 := by
  have hkeys : quoted "op" = 4 ∧ quoted "value" = 7 ∧ quoted "set_charter" = 13 ∧ quoted "organization" = 14 := by
    decide
  rw [bodyCost, charter, length_obj]
  simp only [map_cons, map_nil, sum_cons, sum_nil, length_str, hkeys, quoted_replicate, encoded,
    Surface.asStr]
  omega

theorem sigsCost_pair : sigsCost [umlauts, quotes] = 497 := by
  simp only [sigsCost, map_cons, map_nil, sum_cons, sum_nil, quoted_umlauts, quoted_quotes]
  rfl

end Sample

open Sample in
/-- A payload that just fits from the seat of umlauts, sent by the seat of quotes. -/
theorem admitted_unpublishable :
    payloadFits .organization charter [umlauts, quotes] = true ∧
      Carries [umlauts, quotes] .organization charter late ∧
      transportPlaintextCeiling < (toVec late.toJson).length := by
  have hceiling : transportPlaintextCeiling = 97508 := by decide
  refine ⟨?_, ?_, ?_⟩
  · rw [payloadFits, decide_eq_true_eq, appliedBlockPlaintextLen_eq, longest, topCost, bodyCost_charter,
      sigsCost_pair, quoted_umlauts, hceiling]
  · refine .committed (List.mem_cons_of_mem _ (List.mem_singleton_self _)) (isHex_replicate 32) ?_
      (attested_hex (isHex_replicate 64))
    rw [members_attested]
  · have hbody : (toVec late.body.toJson).length = 96626 + 5 + 19 + 497 + 177 := by
      have hnumbers : digits 99999 = 5 ∧ digits 9223372036854775808 = 19 := by decide +kernel
      rw [← bodyCost_charter, ← sigsCost_pair, ← hnumbers.1, ← hnumbers.2]
      show (toVec (PayloadEvent.committed 99999 (String.ofList (List.replicate 64 'f')) 9223372036854775808
        .organization charter
        ([umlauts, quotes].map fun m => ⟨m, String.ofList (List.replicate 128 'f')⟩)).toJson).length = _
      rw [length_committed (isHex_replicate 32) (attested_hex (isHex_replicate 64)), members_attested]
    have hseq : digits late.seq = 7 := by decide +kernel
    have hts : digits late.ts = 10 := by decide +kernel
    have hprev : (if late.prevSeq = 0 then 0 else digits late.prevSeq + 12) = 19 := by decide +kernel
    rw [length_envelope, hbody, hseq, hts, hprev, hceiling, show quoted late.by_ = 130 from quoted_quotes]
    decide

end

end Molt.Engine
