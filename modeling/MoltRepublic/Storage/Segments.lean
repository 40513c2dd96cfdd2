import Mathlib
import MoltRepublic.Storage.Export

/-! The frames of a log segment (`molt-storage`): how one is written, how a segment is split into
its valid frames, and the scan for a frame behind the damage. -/

namespace Molt.Storage
open List Option

/-- What the log rests on: the checksum and the cipher of a frame, with its tag of 16 bytes. -/
structure LogPrimitives where
  crc32c : Bytes → UInt32
  encrypt : Bytes → Bytes → Bytes → Bytes → Option Bytes
  decrypt : Bytes → Bytes → Bytes → Bytes → Option Bytes
  tagged : ∀ key nonce aad pt ct, encrypt key nonce aad pt = some ct → ct.length = pt.length + 16

def frameHeaderLen : Nat := 8

def frameMaxLen : Nat := 64 * 1024 * 1024

def tornScanBudgetFactor : Nat := 4

def frameAad (id : Bytes) (segment seq : Nat) : Bytes := id ++ leBytes 8 segment ++ leBytes 8 seq

structure RawFrame where
  nonce : Bytes
  ciphertext : Bytes
  /-- Just past the frame. -/
  end_ : Nat
  deriving DecidableEq

section
variable (P : LogPrimitives)

def encodeFrame (key id : Bytes) (segment seq : Nat) (nonce plaintext : Bytes) : Except StorageError Bytes :=
  match P.encrypt key nonce (frameAad id segment seq) plaintext with
  | none => .error (.crypto "frame encryption failed")
  | some ct =>
    if 2 ^ 32 ≤ ct.length then .error (.corrupt "frame over 4 GiB")
    else .ok (leBytes 4 ct.length ++ leBytes 4 (P.crc32c ct).toNat ++ nonce ++ ct)

/-- The length of the ciphertext, where the bytes can hold the frame their first four claim. -/
def claimedLen (rest : Bytes) : Option Nat :=
  if rest.length < frameHeaderLen + nonceLen then none
  else
    let len := leValue (rest.take 4)
    if len = 0 ∨ frameMaxLen < len then none
    else if rest.length < frameHeaderLen + nonceLen + len then none
    else some len

def ciphertextOf (rest : Bytes) (len : Nat) : Bytes := (rest.drop (frameHeaderLen + nonceLen)).take len

def checksOut (rest : Bytes) (len : Nat) : Bool :=
  (P.crc32c (ciphertextOf rest len)).toNat = leValue ((rest.drop 4).take 4)

def splitFrom (data : Bytes) : Nat → Nat → List RawFrame × Option Nat
  | 0, _ => ([], none)
  | fuel + 1, pos =>
    if data.length ≤ pos then ([], none)
    else
      let rest := data.drop pos
      match claimedLen rest with
      | none => ([], some pos)
      | some len =>
        if checksOut P rest len then
          let next := pos + (frameHeaderLen + nonceLen + len)
          let (frames, torn) := splitFrom data fuel next
          (⟨(rest.drop frameHeaderLen).take nonceLen, ciphertextOf rest len, next⟩ :: frames, torn)
        else ([], some pos)

def splitFrames (data : Bytes) : List RawFrame × Option Nat := splitFrom P data data.length 0

def scanFrom (data : Bytes) : Nat → Nat → Nat → Bool
  | 0, _, _ => false
  | fuel + 1, budget, pos =>
    if data.length < pos + frameHeaderLen + nonceLen then false
    else
      match claimedLen (data.drop pos) with
      | none => scanFrom data fuel budget (pos + 1)
      | some len =>
        if budget < len then false
        else if checksOut P (data.drop pos) len then true
        else scanFrom data fuel (budget - len) (pos + 1)

def hasValidFrameAfter (data : Bytes) (pos : Nat) : Bool :=
  scanFrom P data data.length (min (data.length * tornScanBudgetFactor) (2 ^ 64 - 1)) (pos + 1)

def validAt (data : Bytes) (pos : Nat) : Bool := (claimedLen (data.drop pos)).any (checksOut P (data.drop pos))

def NextFrame (data : Bytes) (pos next : Nat) : Prop :=
  ∃ len, claimedLen (data.drop pos) = some len ∧ checksOut P (data.drop pos) len = true ∧
    next = pos + (frameHeaderLen + nonceLen + len)

structure RunEnds (data : Bytes) (pos : Nat) : Prop where
  reached : Relation.ReflTransGen (NextFrame P data) 0 pos
  damaged : validAt P data pos = false
  inside : pos < data.length

def charge (data : Bytes) (pos : Nat) : Nat := (claimedLen (data.drop pos)).getD 0

end

theorem claimedLen_eq_some {rest : Bytes} {len : Nat} : claimedLen rest = some len ↔
    frameHeaderLen + nonceLen + len ≤ rest.length ∧ leValue (rest.take 4) = len ∧ len ≠ 0 ∧ len ≤ frameMaxLen := by
  unfold claimedLen
  dsimp only
  split_ifs with hshort hlen hfits
  · exact iff_of_false nofun fun h => by omega
  · refine iff_of_false nofun ?_
    rintro ⟨-, rfl, hne, hle⟩
    omega
  · refine iff_of_false nofun ?_
    rintro ⟨hle, rfl, -, -⟩
    omega
  · constructor
    · intro h
      cases h
      refine ⟨by omega, rfl, by omega, by omega⟩
    · rintro ⟨-, rfl, -, -⟩
      rfl

section

variable {P : LogPrimitives} {data : Bytes}

variable {pos : Nat}

variable {next : Nat}

theorem NextFrame.le (h : NextFrame P data pos next) : pos + 33 ≤ next ∧ next ≤ data.length := by
  obtain ⟨len, hlen, -, rfl⟩ := h
  obtain ⟨hfits, -, hne, -⟩ := claimedLen_eq_some.mp hlen
  rw [length_drop] at hfits
  unfold frameHeaderLen nonceLen at *
  omega

theorem NextFrame.valid (h : NextFrame P data pos next) : validAt P data pos = true := by
  obtain ⟨len, hlen, hcheck, -⟩ := h
  rw [validAt, hlen]
  exact hcheck

theorem NextFrame.unique {m n : Nat} (hm : NextFrame P data pos m) (hn : NextFrame P data pos n) : m = n := by
  obtain ⟨len, hlen, -, rfl⟩ := hm
  obtain ⟨len', hlen', -, rfl⟩ := hn
  rw [hlen] at hlen'
  rw [Option.some.inj hlen']

theorem validAt_iff : validAt P data pos = true ↔ ∃ next, NextFrame P data pos next := by
  refine ⟨fun h => ?_, fun ⟨_, h⟩ => h.valid⟩
  obtain ⟨len, hlen, hcheck⟩ := (Option.any_eq_true ..).mp h
  exact ⟨_, len, hlen, hcheck, rfl⟩

theorem splitFrom_end (h : data.length ≤ pos) (fuel : Nat) : splitFrom P data fuel pos = ([], none) := by
  cases fuel with
  | zero => rfl
  | succ fuel => exact if_pos h

theorem splitFrom_damaged (hpos : pos < data.length) (h : validAt P data pos = false) (fuel : Nat) :
    splitFrom P data (fuel + 1) pos = ([], some pos) := by
  rw [splitFrom, if_neg (by omega)]
  rw [validAt] at h
  dsimp only
  cases hlen : claimedLen (data.drop pos) with
  | none => rfl
  | some len =>
    rw [hlen, any_some] at h
    dsimp only
    rw [h]
    rfl

def frameBetween (data : Bytes) (pos next : Nat) : RawFrame :=
  ⟨((data.drop pos).drop frameHeaderLen).take nonceLen, ciphertextOf (data.drop pos)
    (next - pos - (frameHeaderLen + nonceLen)), next⟩

theorem splitFrom_frame (h : NextFrame P data pos next) (fuel : Nat) :
    splitFrom P data (fuel + 1) pos =
      (frameBetween data pos next :: (splitFrom P data fuel next).1, (splitFrom P data fuel next).2) := by
  have hle := h.le
  obtain ⟨len, hlen, hcheck, rfl⟩ := h
  have hback : pos + (frameHeaderLen + nonceLen + len) - pos - (frameHeaderLen + nonceLen) = len := by omega
  rw [splitFrom, if_neg (by omega), frameBetween, hback]
  dsimp only
  rw [hlen]
  dsimp only
  rw [hcheck]
  rfl

theorem splitFrom_torn {fuel : Nat} (hfuel : data.length ≤ pos + fuel) {torn : Nat} :
    (splitFrom P data fuel pos).2 = some torn ↔
      Relation.ReflTransGen (NextFrame P data) pos torn ∧ validAt P data torn = false ∧ torn < data.length := by
  induction fuel generalizing pos with
  | zero =>
    refine iff_of_false nofun ?_
    rintro ⟨hreach, -, hlt⟩
    rcases Relation.ReflTransGen.cases_head hreach with rfl | ⟨next, hnext, -⟩
    · omega
    · have := hnext.le
      omega
  | succ fuel ih =>
    rcases Nat.lt_or_ge pos data.length with hpos | hpos
    · cases hvalid : validAt P data pos with
      | true =>
        obtain ⟨next, hnext⟩ := validAt_iff.mp hvalid
        have hle := hnext.le
        rw [splitFrom_frame hnext, ih (by omega)]
        refine and_congr_left fun hend => ⟨.head hnext, fun h => ?_⟩
        rcases Relation.ReflTransGen.cases_head h with rfl | ⟨next', hnext', hrest⟩
        · rw [hvalid] at hend
          exact absurd hend.1 (by decide)
        · exact hnext.unique hnext' ▸ hrest
      | false =>
        rw [splitFrom_damaged hpos hvalid, some_inj]
        constructor
        · rintro rfl
          exact ⟨.refl, hvalid, hpos⟩
        · rintro ⟨hreach, -, -⟩
          rcases Relation.ReflTransGen.cases_head hreach with heq | ⟨next, hnext, -⟩
          · exact heq
          · rw [hnext.valid] at hvalid
            cases hvalid
    · rw [splitFrom_end hpos]
      refine iff_of_false nofun ?_
      rintro ⟨hreach, -, hlt⟩
      rcases Relation.ReflTransGen.cases_head hreach with rfl | ⟨next, hnext, -⟩
      · omega
      · have := hnext.le
        omega

theorem splitFrames_torn {torn : Nat} : (splitFrames P data).2 = some torn ↔ RunEnds P data torn := by
  rw [splitFrames, splitFrom_torn (by omega)]
  exact ⟨fun ⟨h, h', h''⟩ => ⟨h, h', h''⟩, fun ⟨h, h', h''⟩ => ⟨h, h', h''⟩⟩

end

section

variable {P : LogPrimitives} {data : Bytes}

theorem charge_eq_zero {pos : Nat} (h : claimedLen (data.drop pos) = none) : charge data pos = 0 := by
  rw [charge, h]
  rfl

theorem scanFrom_iff {fuel budget pos : Nat} (hfuel : data.length ≤ pos + fuel) :
    scanFrom P data fuel budget pos = true ↔ ∃ q, pos ≤ q ∧ validAt P data q = true ∧
      (∀ p, pos ≤ p → p < q → validAt P data p = false) ∧ ∑ p ∈ Finset.Ico pos (q + 1), charge data p ≤ budget := by
  have hbound : ∀ q, validAt P data q = true → q + 33 ≤ data.length := by
    intro q hq
    obtain ⟨next, hnext⟩ := validAt_iff.mp hq
    exact hnext.le.1.trans hnext.le.2
  induction fuel generalizing budget pos with
  | zero =>
    refine iff_of_false nofun ?_
    rintro ⟨q, hq, hvalid, -⟩
    have := hbound q hvalid
    omega
  | succ fuel ih =>
    rw [scanFrom]
    split_ifs with hend
    · refine iff_of_false nofun ?_
      rintro ⟨q, hq, hvalid, -⟩
      have := hbound q hvalid
      unfold frameHeaderLen nonceLen at hend
      omega
    · -- the offset is charged, and either answers or is left behind
      have hstep : ∀ {b c : Nat}, charge data pos = c → validAt P data pos = false → c ≤ b →
          (scanFrom P data fuel (b - c) (pos + 1) = true ↔ ∃ q, pos ≤ q ∧ validAt P data q = true ∧
            (∀ p, pos ≤ p → p < q → validAt P data p = false) ∧ ∑ p ∈ Finset.Ico pos (q + 1), charge data p ≤ b) := by
        intro b c hc hno hcb
        have hrest : data.length ≤ pos + 1 + fuel := by omega
        refine (ih hrest).trans ?_
        constructor
        · rintro ⟨q, hq, hvalid, hfirst, hsum⟩
          refine ⟨q, by omega, hvalid, fun p hp hpq => ?_, ?_⟩
          · rcases Nat.eq_or_lt_of_le hp with rfl | hp
            · exact hno
            · exact hfirst p hp hpq
          · rw [Finset.sum_eq_sum_Ico_succ_bot (by omega), hc]
            omega
        · rintro ⟨q, hq, hvalid, hfirst, hsum⟩
          have hne : pos ≠ q := by
            rintro rfl
            rw [hno] at hvalid
            cases hvalid
          refine ⟨q, by omega, hvalid, fun p hp hpq => hfirst p (by omega) hpq, ?_⟩
          rw [Finset.sum_eq_sum_Ico_succ_bot (by omega), hc] at hsum
          omega
      cases hlen : claimedLen (data.drop pos) with
      | none =>
        have hno : validAt P data pos = false := by rw [validAt, hlen]; rfl
        exact hstep (charge_eq_zero hlen) hno (Nat.zero_le _)
      | some len =>
        have hcharge : charge data pos = len := by rw [charge, hlen]; rfl
        have hvalid : validAt P data pos = checksOut P (data.drop pos) len := by rw [validAt, hlen]; rfl
        dsimp only
        split_ifs with hbudget hcheck
        · refine iff_of_false nofun ?_
          rintro ⟨q, hq, -, -, hsum⟩
          rw [Finset.sum_eq_sum_Ico_succ_bot (by omega), hcharge] at hsum
          omega
        · refine iff_of_true rfl ⟨pos, le_refl _, hvalid.trans hcheck, fun p hp hpq => by omega, ?_⟩
          rw [Nat.Ico_succ_singleton, Finset.sum_singleton, hcharge]
          omega
        · exact hstep hcharge (hvalid.trans (by simpa using hcheck)) (by omega)

end

section

variable {P : LogPrimitives}

def IsEncoded (P : LogPrimitives) (f : Bytes) : Prop :=
  ∃ key id segment seq nonce plaintext, nonce.length = nonceLen ∧
    encodeFrame P key id segment seq nonce plaintext = .ok f

def rawFrames : Nat → List Bytes → List RawFrame
  | _, [] => []
  | start, f :: fs =>
    ⟨(f.drop frameHeaderLen).take nonceLen, f.drop (frameHeaderLen + nonceLen), start + f.length⟩ ::
      rawFrames (start + f.length) fs

structure Parts (P : LogPrimitives) (f nonce ct : Bytes) : Prop where
  layout : f = leBytes 4 ct.length ++ leBytes 4 (P.crc32c ct).toNat ++ nonce ++ ct
  nonce_length : nonce.length = nonceLen
  ct_pos : 0 < ct.length
  ct_lt : ct.length < 2 ^ 32

theorem IsEncoded.parts {f : Bytes} (h : IsEncoded P f) : ∃ nonce ct, Parts P f nonce ct := by
  obtain ⟨key, id, segment, seq, nonce, plaintext, hnonce, hf⟩ := h
  unfold encodeFrame at hf
  cases hct : P.encrypt key nonce (frameAad id segment seq) plaintext with
  | none =>
    rw [hct] at hf
    cases hf
  | some ct =>
    rw [hct] at hf
    dsimp only at hf
    split_ifs at hf with hlong
    have htag := P.tagged _ _ _ _ _ hct
    exact ⟨nonce, ct, (Except.ok.inj hf).symm, hnonce, by omega, by omega⟩

namespace Parts

variable {f nonce ct : Bytes} (h : Parts P f nonce ct)
include h

theorem length : f.length = frameHeaderLen + nonceLen + ct.length := by
  rw [h.layout]
  simp only [length_append, leBytes_length, h.nonce_length]
  unfold frameHeaderLen
  omega

theorem drop_body : f.drop (frameHeaderLen + nonceLen) = ct := by
  rw [h.layout]
  refine drop_left' ?_
  simp only [length_append, leBytes_length, h.nonce_length]
  unfold frameHeaderLen
  omega

theorem take_len : f.take 4 = leBytes 4 ct.length := by
  rw [h.layout, append_assoc, append_assoc]
  exact take_left' (leBytes_length 4 _)

theorem take_crc : (f.drop 4).take 4 = leBytes 4 (P.crc32c ct).toNat := by
  rw [h.layout, append_assoc, append_assoc, drop_left' (leBytes_length 4 _)]
  exact take_left' (leBytes_length 4 _)

theorem value_len : leValue (f.take 4) = ct.length := by
  rw [h.take_len]
  exact leValue_leBytes (lt_of_lt_of_le h.ct_lt (by norm_num))

variable (rest : Bytes)

theorem claims : claimedLen (f ++ rest) = some ct.length ↔ ct.length ≤ frameMaxLen := by
  have hlen := h.length
  have hpos := h.ct_pos
  have hfour : (f ++ rest).take 4 = f.take 4 := by
    refine take_append_of_le_length ?_
    unfold frameHeaderLen at hlen
    omega
  rw [claimedLen_eq_some, hfour, h.value_len, length_append]
  constructor
  · exact fun hall => hall.2.2.2
  · exact fun hle => ⟨by omega, rfl, by omega, hle⟩

theorem claims_some {rest : Bytes} {len : Nat} (hclaim : claimedLen (f ++ rest) = some len) : len = ct.length := by
  have hlen := h.length
  have hfour : (f ++ rest).take 4 = f.take 4 := by
    refine take_append_of_le_length ?_
    unfold frameHeaderLen at hlen
    omega
  obtain ⟨-, hvalue, -⟩ := claimedLen_eq_some.mp hclaim
  rw [← hvalue, hfour, h.value_len]

theorem ciphertext : ciphertextOf (f ++ rest) ct.length = ct := by
  have hlen := h.length
  rw [ciphertextOf, drop_append_of_le_length (by omega), h.drop_body]
  exact take_left' rfl

theorem checks : checksOut P (f ++ rest) ct.length = true := by
  have hlen := h.length
  have hcrc : ((f ++ rest).drop 4).take 4 = (f.drop 4).take 4 := by
    unfold frameHeaderLen at hlen
    rw [drop_append_of_le_length (by omega), take_append_of_le_length]
    rw [length_drop]
    omega
  have hvalue : leValue (leBytes 4 (P.crc32c ct).toNat) = (P.crc32c ct).toNat :=
    leValue_leBytes (lt_of_lt_of_le (P.crc32c ct).toNat_lt (by norm_num))
  rw [checksOut, h.ciphertext, hcrc, h.take_crc, hvalue]
  exact decide_eq_true rfl

theorem cut_short {part : Bytes} (hpart : part <+: f) (hne : part ≠ f) : claimedLen part = none := by
  rw [eq_none_iff_forall_ne_some]
  intro len hclaim
  obtain ⟨hfits, hvalue, -⟩ := claimedLen_eq_some.mp hclaim
  obtain ⟨rest, hsplit⟩ := hpart
  have hfour : f.take 4 = part.take 4 := by
    rw [← hsplit]
    refine take_append_of_le_length ?_
    unfold frameHeaderLen at hfits
    omega
  rw [← hfour, h.value_len] at hvalue
  have hshort : part.length < f.length := by
    rw [← hsplit, length_append]
    have : rest ≠ [] := by
      rintro rfl
      exact hne (by simpa using hsplit)
    have := length_pos_iff.mpr this
    omega
  have hlen := h.length
  omega

end Parts

theorem splitFrom_written {frames : List Bytes} {part f : Bytes} (hframes : ∀ g ∈ frames, IsEncoded P g)
    (hf : IsEncoded P f) (hpart : part <+: f) (hne : part ≠ f) {data : Bytes} {fuel pos : Nat}
    (hdata : data.drop pos = frames.flatten ++ part) (hpos : pos ≤ data.length) (hfuel : data.length ≤ pos + fuel) :
    splitFrom P data fuel pos =
        (rawFrames pos frames, if part = [] then none else some (pos + frames.flatten.length)) ↔
      ∀ g ∈ frames, g.length ≤ frameHeaderLen + nonceLen + frameMaxLen := by
  induction frames generalizing fuel pos with
  | nil =>
    refine iff_of_true ?_ (by simp)
    rw [flatten_nil, nil_append] at hdata
    have hlen := congrArg List.length hdata
    rw [length_drop] at hlen
    by_cases hempty : part = []
    · rw [if_pos hempty, splitFrom_end]
      · rfl
      · rw [hempty, length_nil] at hlen
        omega
    · have hpos' := length_pos_iff.mpr hempty
      obtain ⟨nonce, ct, hparts⟩ := hf.parts
      rw [if_neg hempty]
      obtain ⟨fuel, rfl⟩ : ∃ k, fuel = k + 1 := ⟨fuel - 1, by omega⟩
      rw [splitFrom_damaged (by omega)]
      · rfl
      · rw [validAt, hdata, hparts.cut_short hpart hne]
        rfl
  | cons g frames ih =>
    obtain ⟨nonce, ct, hparts⟩ := (hframes g (.head _)).parts
    have hglen := hparts.length
    have hlen := congrArg List.length hdata
    rw [length_drop, flatten_cons, append_assoc, length_append] at hlen
    have hct := hparts.ct_pos
    obtain ⟨fuel, rfl⟩ : ∃ k, fuel = k + 1 := ⟨fuel - 1, by unfold frameHeaderLen at hglen; omega⟩
    rw [flatten_cons, append_assoc] at hdata
    by_cases hbound : ct.length ≤ frameMaxLen
    · have hnext : NextFrame P data pos (pos + g.length) := by
        refine ⟨ct.length, ?_, ?_, ?_⟩
        · rw [hdata]
          exact (hparts.claims _).mpr hbound
        · rw [hdata]
          exact hparts.checks _
        · rw [hglen]
      have hbetween : frameBetween data pos (pos + g.length) =
          ⟨(g.drop frameHeaderLen).take nonceLen, g.drop (frameHeaderLen + nonceLen), pos + g.length⟩ := by
        have hlen' : pos + g.length - pos - (frameHeaderLen + nonceLen) = ct.length := by omega
        rw [frameBetween, hlen', hdata, hparts.ciphertext, hparts.drop_body]
        rw [drop_append_of_le_length (by omega), take_append_of_le_length]
        rw [length_drop]
        omega
      have hrest : data.drop (pos + g.length) = frames.flatten ++ part := by
        rw [← drop_drop, hdata]
        exact drop_left' rfl
      have hih := ih (fun x hx => hframes x (.tail _ hx)) hrest (by omega)
        (by unfold frameHeaderLen at hglen; omega : data.length ≤ pos + g.length + fuel)
      rw [splitFrom_frame hnext, hbetween, rawFrames, forall_mem_cons, flatten_cons, length_append,
        ← Nat.add_assoc, ← hih]
      constructor
      · intro heq
        obtain ⟨hfirst, hsecond⟩ := Prod.mk.inj heq
        exact ⟨by omega, Prod.ext (List.cons.inj hfirst).2 hsecond⟩
      · rintro ⟨-, heq⟩
        rw [heq]
    · refine iff_of_false ?_ fun hall => hbound ?_
      · have hdamaged : validAt P data pos = false := by
          rw [validAt, hdata]
          cases hclaim : claimedLen (g ++ (frames.flatten ++ part)) with
          | none => rfl
          | some len =>
            obtain rfl := hparts.claims_some hclaim
            exact absurd ((hparts.claims _).mp hclaim) hbound
        rw [splitFrom_damaged (by unfold frameHeaderLen at hglen; omega) hdamaged]
        intro heq
        cases (Prod.mk.inj heq).1
      · have := hall g (.head _)
        omega

end

end Molt.Storage
