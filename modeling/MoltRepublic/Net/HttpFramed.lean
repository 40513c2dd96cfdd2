import Mathlib
import MoltRepublic.Net.Http

/-! A framed answer is read whole or not at all: the decoder and the walk take the same turns over
the chunks, and no cut of the stream is a turn of its own. -/

namespace Molt.Http
open Text Check Resumed Slices List Option Nat

theorem position_line {line : List UInt8} (h : position crlf line = none) (m : List UInt8) :
    position crlf (line ++ crlf ++ m) = some line.length := by
  induction line with
  | nil => rfl
  | cons b line ih =>
    rw [position] at h
    split at h
    · cases h
    · rename_i hpre
      have hnot : ¬ crlf.isPrefixOf (b :: (line ++ crlf ++ m)) = true := by
        cases line with
        | nil => simp [crlf, List.isPrefixOf]
        | cons c line => simpa [crlf, List.isPrefixOf] using hpre
      rw [cons_append, cons_append, position, if_neg hnot, ih (by simpa using h)]
      rfl

variable {raw : List UInt8} {e : ℕ}

theorem headEnd_append (h : headEnd raw = some e) (m : List UInt8) :
    headEnd (raw ++ m) = some e := by
  obtain ⟨i, hi, rfl⟩ := map_eq_some_iff.mp h
  rw [headEnd, position_append hi]
  rfl

theorem headEnd_le (h : headEnd raw = some e) : e ≤ raw.length := by
  obtain ⟨i, hi, rfl⟩ := map_eq_some_iff.mp h
  exact position_bound hi

theorem headEnd_of_append {m : List UInt8} (h : headEnd (raw ++ m) = some e) (hle : e ≤ raw.length) :
    headEnd raw = some e := by
  obtain ⟨i, hi, rfl⟩ := map_eq_some_iff.mp h
  rw [headEnd, position_of_append hi hle (by decide)]
  rfl

variable {p : UInt64 × List (String × String) × ℕ}

theorem parseHead_eq :
    parseHead raw = some p ↔ headEnd raw = some p.2.2 ∧ ∃ head, fromUtf8 (raw.take (p.2.2 - 4)) = some head ∧
      parseStatus ((splitCrlf head.toList).headD []) = some p.1 ∧
        (splitCrlf head.toList).tail.filterMap headerLine = p.2.1 := by
  obtain ⟨status, headers, start⟩ := p
  unfold parseHead
  simp only [bind_eq_bind, bind_eq_some_iff, Option.pure_def, Option.some.injEq, Prod.mk.injEq]
  constructor
  · rintro ⟨e, he, head, hhead, st, hst, rfl, rfl, rfl⟩
    exact ⟨he, head, hhead, hst, rfl⟩
  · rintro ⟨he, head, hhead, hst, rfl⟩
    exact ⟨start, he, head, hhead, status, hst, rfl, rfl, rfl⟩

theorem parseHead_append (h : parseHead raw = some p) (m : List UInt8) : parseHead (raw ++ m) = some p := by
  obtain ⟨hend, head, hhead, hrest⟩ := parseHead_eq.mp h
  refine parseHead_eq.mpr ⟨headEnd_append hend m, head, ?_, hrest⟩
  rw [take_append_of_le_length ((sub_le _ _).trans (headEnd_le hend)), hhead]

theorem parseHead_le (h : parseHead raw = some p) :
    p.2.2 ≤ raw.length := headEnd_le (parseHead_eq.mp h).1

theorem parseHead_of_append {m : List UInt8} (h : parseHead (raw ++ m) = some p) :
    parseHead raw = if p.2.2 ≤ raw.length then some p else none := by
  split
  · rename_i hle
    obtain ⟨hend, head, hhead, hrest⟩ := parseHead_eq.mp h
    refine parseHead_eq.mpr ⟨headEnd_of_append hend hle, head, ?_, hrest⟩
    rwa [take_append_of_le_length ((sub_le _ _).trans hle)] at hhead
  · rename_i hgt
    rw [eq_none_iff_forall_not_mem]
    intro q hq
    have hq' := parseHead_append hq m
    rw [h] at hq'
    cases hq'
    exact hgt (parseHead_le hq)

def nextChunk (maxResponse : ℕ) (body rest : List UInt8) : Turn (List UInt8) (Except HttpFault Unit) :=
  match position crlf rest with
  | none => .wait
  | some lineEnd =>
    match readSize (rest.take lineEnd) with
    | .error f => .done (.error f)
    | .ok size =>
      if size > maxResponse then .done (.error (tooLarge maxResponse))
      else if size = 0 then .done (.ok ())
      else if rest.length < lineEnd + 2 + size + 2 then .wait
      else if (body ++ (rest.drop (lineEnd + 2)).take size).length > maxResponse then
        .done (.error (tooLarge maxResponse))
      else .skip (lineEnd + 2 + size + 2) (body ++ (rest.drop (lineEnd + 2)).take size)

variable {maxResponse : ℕ}

theorem nextChunk_append {body rest : List UInt8} (h : nextChunk maxResponse body rest ≠ .wait) (m : List UInt8) :
    nextChunk maxResponse body (rest ++ m) = nextChunk maxResponse body rest := by
  unfold nextChunk at h ⊢
  cases hpos : position crlf rest with
  | none =>
    rw [hpos] at h
    exact absurd rfl h
  | some lineEnd =>
    have hbound : lineEnd + 2 ≤ rest.length := position_bound hpos
    rw [hpos] at h
    rw [position_append hpos]
    dsimp only at h ⊢
    rw [take_append_of_le_length (by omega)]
    cases hsize : readSize (rest.take lineEnd) with
    | error f => rfl
    | ok size =>
      rw [hsize] at h
      dsimp only at h ⊢
      by_cases hlarge : size > maxResponse
      · rw [if_pos hlarge, if_pos hlarge]
      rw [if_neg hlarge] at h ⊢
      rw [if_neg hlarge]
      by_cases hzero : size = 0
      · rw [if_pos hzero, if_pos hzero]
      rw [if_neg hzero] at h ⊢
      rw [if_neg hzero]
      by_cases hshort : rest.length < lineEnd + 2 + size + 2
      · rw [if_pos hshort] at h
        exact absurd rfl h
      have hlong : ¬ (rest ++ m).length < lineEnd + 2 + size + 2 := by
        rw [length_append]
        omega
      have hdata : ((rest ++ m).drop (lineEnd + 2)).take size = (rest.drop (lineEnd + 2)).take size := by
        rw [drop_append_of_le_length hbound, take_append_of_le_length (by rw [length_drop]; omega)]
      rw [if_neg hshort, if_neg hlong, hdata]

variable {n : ℕ}

theorem nextChunk_skip {body rest t : List UInt8} (h : nextChunk maxResponse body rest = .skip n t) :
    5 ≤ n ∧ n ≤ rest.length ∧ t.length ≤ maxResponse := by
  unfold nextChunk at h
  split at h
  · cases h
  · rename_i lineEnd hpos
    split at h
    · cases h
    · split_ifs at h with hlarge hzero hshort hmany
      cases h
      exact ⟨by omega, by omega, by omega⟩

theorem nextChunk_steady (maxResponse : ℕ) : Steady (nextChunk maxResponse) where
  done h m := by rw [nextChunk_append (by rw [h]; nofun) m, h]
  skip h m := by rw [nextChunk_append (by rw [h]; nofun) m, h]
  inside h := ⟨by have := (nextChunk_skip h).1; omega, (nextChunk_skip h).2.1⟩

theorem nextChunk_done {body rest : List UInt8} {f : HttpFault} (h : nextChunk maxResponse body rest = .done (.error f)) :
    ∃ msg, f = .err msg := by
  have hread : ∀ {line : List UInt8} {f : HttpFault}, readSize line = .error f → ∃ msg, f = .err msg := by
    intro line f hline
    unfold readSize at hline
    split at hline
    · cases hline
      exact ⟨_, rfl⟩
    · split at hline
      · cases hline
        exact ⟨_, rfl⟩
      · cases hline
  unfold nextChunk at h
  split at h
  · cases h
  · split at h
    · rename_i hsize
      cases h
      exact hread hsize
    · split_ifs at h
      · cases h
        exact ⟨_, rfl⟩
      · cases h
      · cases h
        exact ⟨_, rfl⟩

abbrev ChunkScan (maxResponse : ℕ) := Scan (nextChunk maxResponse)

theorem chunkScan_error {body rest t : List UInt8} {f : HttpFault}
    (h : ChunkScan maxResponse body rest n t (some (.error f))) : ∃ msg, f = .err msg := by
  generalize ho : some (Except.error f) = out at h
  induction h with
  | wait => cases ho
  | done hturn =>
    cases ho
    exact nextChunk_done hturn
  | skip _ _ ih => exact ih ho

variable {o : Option (Except HttpFault Unit)}

theorem chunkScan_small {body rest t : List UInt8} (h : ChunkScan maxResponse body rest n t o)
    (hbody : body.length ≤ maxResponse) : t.length ≤ maxResponse := by
  induction h with
  | wait | done => exact hbody
  | skip hturn _ ih => exact ih (nextChunk_skip hturn).2.2

def decoded : Option (Except HttpFault Unit) → List UInt8 → Except HttpFault (List UInt8)
  | none, _ => .error truncated
  | some (.error f), _ => .error f
  | some (.ok ()), body => .ok body

theorem dechunkFrom_succ (hmax : maxResponse ≤ 2 ^ 62) (fuel : ℕ) (rest body : List UInt8) :
    dechunkFrom maxResponse (fuel + 1) rest body =
      match nextChunk maxResponse body rest with
      | .wait => .error truncated
      | .done o => decoded (some o) body
      | .skip n t => dechunkFrom maxResponse fuel (rest.drop n) t := by
  rw [dechunkFrom, nextChunk]
  cases hpos : position crlf rest with
  | none => rfl
  | some lineEnd =>
    have hbound : lineEnd + 2 ≤ rest.length := position_bound hpos
    dsimp only
    rw [sliceTo_eq (show lineEnd ≤ rest.length by omega)]
    show (do let size ← readSize (rest.take lineEnd); _) = _
    cases hsize : readSize (rest.take lineEnd) with
    | error f => rfl
    | ok size =>
      show (if size > maxResponse then _ else _) = _
      dsimp only
      by_cases hlarge : size > maxResponse
      · rw [if_pos hlarge, if_pos hlarge]
        rfl
      rw [if_neg hlarge, if_neg hlarge, sliceFrom_eq hbound]
      show (if size = 0 then _ else _) = _
      by_cases hzero : size = 0
      · rw [if_pos hzero, if_pos hzero]
        rfl
      rw [if_neg hzero, if_neg hzero, word_eq (by omega)]
      show (if (rest.drop (lineEnd + 2)).length < size + 2 then _ else _) = _
      by_cases hshort : rest.length < lineEnd + 2 + size + 2
      · rw [if_pos hshort, if_pos (by rw [length_drop]; omega)]
      rw [if_neg hshort, if_neg (by rw [length_drop]; omega), sliceTo_eq (by rw [length_drop]; omega),
        sliceFrom_eq (by rw [length_drop]; omega)]
      show (if (body ++ (rest.drop (lineEnd + 2)).take size).length > maxResponse then _ else _) = _
      by_cases hmany : (body ++ (rest.drop (lineEnd + 2)).take size).length > maxResponse
      · rw [if_pos hmany, if_pos hmany]
        rfl
      rw [if_neg hmany, if_neg hmany, drop_drop]
      rfl

theorem dechunkFrom_eq (hmax : maxResponse ≤ 2 ^ 62) {fuel : ℕ} {rest body t : List UInt8}
    (h : ChunkScan maxResponse body rest n t o) (hfuel : rest.length < fuel) :
    dechunkFrom maxResponse fuel rest body = decoded o t := by
  induction h generalizing fuel with
  | wait hturn =>
    obtain ⟨fuel, rfl⟩ := exists_eq_add_one.mpr (zero_lt_of_lt hfuel)
    rw [dechunkFrom_succ hmax, hturn]
    rfl
  | done hturn =>
    obtain ⟨fuel, rfl⟩ := exists_eq_add_one.mpr (zero_lt_of_lt hfuel)
    rw [dechunkFrom_succ hmax, hturn]
  | skip hturn _ ih =>
    obtain ⟨fuel, rfl⟩ := exists_eq_add_one.mpr (zero_lt_of_lt hfuel)
    obtain ⟨hpos, hle, -⟩ := nextChunk_skip hturn
    rw [dechunkFrom_succ hmax, hturn]
    exact ih (by rw [length_drop]; omega)

theorem dechunk_eq (hmax : maxResponse ≤ 2 ^ 62) {rest t : List UInt8}
    (h : ChunkScan maxResponse [] rest n t o) : dechunk maxResponse rest = decoded o t :=
  dechunkFrom_eq hmax h (lt_succ_self _)

theorem readSize_eq (line : List UInt8) :
    (fromUtf8 line).bind chunkSize = match readSize line with
      | .ok size => some size
      | .error _ => none := by
  unfold readSize
  cases fromUtf8 line with
  | none => rfl
  | some text => cases hsize : chunkSize text <;> simp [hsize]

theorem walkFrom_succ (hmax : maxResponse ≤ 2 ^ 62) (hraw : raw.length < 2 ^ 63) (fuel : ℕ) {at_ : ℕ}
    (hat : at_ ≤ raw.length) {body : List UInt8} (hbody : body.length ≤ maxResponse) :
    match nextChunk maxResponse body (raw.drop at_) with
    | .wait => walkFrom maxResponse raw (fuel + 1) at_ body.length = .ok (false, ⟨some at_, body.length⟩)
    | .done _ => ∃ w, walkFrom maxResponse raw (fuel + 1) at_ body.length = .ok (true, w)
    | .skip n t => walkFrom maxResponse raw (fuel + 1) at_ body.length =
        walkFrom maxResponse raw fuel (at_ + n) t.length := by
  have hlen : (raw.drop at_).length = raw.length - at_ := length_drop
  rw [walkFrom, sliceFrom_eq hat, ok_bind, nextChunk]
  cases hpos : position crlf (raw.drop at_) with
  | none => rfl
  | some lineEnd =>
    have hbound : lineEnd + 2 ≤ (raw.drop at_).length := position_bound hpos
    dsimp only
    rw [sliceTo_eq (show lineEnd ≤ (raw.drop at_).length by omega), ok_bind, readSize_eq]
    cases hsize : readSize ((raw.drop at_).take lineEnd) with
    | error f => exact ⟨_, rfl⟩
    | ok size =>
      dsimp only
      by_cases hlarge : size > maxResponse
      · rw [if_pos hlarge, filter_some_neg (by simpa using hlarge)]
        exact ⟨_, rfl⟩
      rw [if_neg hlarge, filter_some_pos (by simpa using hlarge)]
      dsimp only
      by_cases hzero : size = 0
      · rw [if_pos hzero, if_pos hzero]
        exact ⟨_, rfl⟩
      rw [if_neg hzero, if_neg hzero, word_eq (by omega), ok_bind]
      by_cases hshort : (raw.drop at_).length < lineEnd + 2 + size + 2
      · rw [if_pos hshort, if_pos hshort]
      have hdata : (body ++ ((raw.drop at_).drop (lineEnd + 2)).take size).length = body.length + size := by
        rw [length_append, length_take_of_le (by rw [length_drop]; omega)]
      rw [if_neg hshort, if_neg hshort, word_eq (by omega), ok_bind, ← hdata]
      by_cases hmany : (body ++ ((raw.drop at_).drop (lineEnd + 2)).take size).length > maxResponse
      · rw [if_pos hmany, if_pos hmany]
        exact ⟨_, rfl⟩
      rw [if_neg hmany, if_neg hmany, word_eq (by omega), ok_bind]

theorem walkFrom_eq (hmax : maxResponse ≤ 2 ^ 62) (hraw : raw.length < 2 ^ 63) {fuel at_ : ℕ}
    {rest body t : List UInt8} (h : ChunkScan maxResponse body rest n t o) (hrest : raw.drop at_ = rest)
    (hat : at_ ≤ raw.length) (hbody : body.length ≤ maxResponse) (hfuel : rest.length < fuel) :
    ∃ w, walkFrom maxResponse raw fuel at_ body.length = .ok (o.isSome, w) ∧
      (o = none → w = ⟨some (at_ + n), t.length⟩) := by
  induction h generalizing fuel at_ with
  | wait hturn =>
    obtain ⟨fuel, rfl⟩ := exists_eq_add_one.mpr (zero_lt_of_lt hfuel)
    have hstep := walkFrom_succ hmax hraw fuel hat hbody
    rw [hrest, hturn] at hstep
    exact ⟨_, hstep, fun _ => rfl⟩
  | done hturn =>
    obtain ⟨fuel, rfl⟩ := exists_eq_add_one.mpr (zero_lt_of_lt hfuel)
    have hstep := walkFrom_succ hmax hraw fuel hat hbody
    rw [hrest, hturn] at hstep
    obtain ⟨w, hw⟩ := hstep
    exact ⟨w, hw, nofun⟩
  | @skip body rest n t k u o hturn _ ih =>
    obtain ⟨fuel, rfl⟩ := exists_eq_add_one.mpr (zero_lt_of_lt hfuel)
    obtain ⟨hpos, hle, hsmall⟩ := nextChunk_skip hturn
    have hstep := walkFrom_succ hmax hraw fuel hat hbody
    rw [hrest, hturn] at hstep
    have hlen : rest.length = raw.length - at_ := hrest ▸ length_drop
    have hless : (rest.drop n).length < fuel := by
      rw [length_drop]
      omega
    rw [hstep, ← Nat.add_assoc]
    exact ih (by rw [← hrest, drop_drop]) (by omega) hsmall hless

/-- The bytes at hand settle the answer: its head is there and its body is whole or past repair,
or there is no head in more than 64 KiB. -/
def Settled (headOnly : Bool) (maxResponse : ℕ) (raw : List UInt8) : Prop :=
  match parseHead raw with
  | none => raw.length > maxDownloadHead
  | some (_, headers, start) =>
    headOnly = true ∨
      if isChunked headers = true then ∃ n t o, ChunkScan maxResponse [] (raw.drop start) n t (some o)
      else ∃ len, contentLength headers = some len ∧ len ≤ (raw.drop start).length

def Carries (maxResponse : ℕ) (raw : List UInt8) (w : Completion) : Prop :=
  w = {} ∨ ∃ status headers start n t, parseHead raw = some (status, headers, start) ∧
    isChunked headers = true ∧ ChunkScan maxResponse [] (raw.drop start) n t none ∧
      w = ⟨some (start + n), t.length⟩

theorem Completion.check_spec (hmax : maxResponse ≤ 2 ^ 62) (headOnly : Bool) {more : List UInt8}
    (hraw : (raw ++ more).length < 2 ^ 63) {w : Completion} (h : Carries maxResponse raw w) :
    ∃ ans w', w.check headOnly maxResponse (raw ++ more) = .ok (ans, w') ∧
      (ans = true ↔ Settled headOnly maxResponse (raw ++ more)) ∧
      (ans = false → Carries maxResponse (raw ++ more) w') := by
  unfold Completion.check Settled
  cases hhead : parseHead (raw ++ more) with
  | none =>
    refine ⟨_, w, rfl, decide_eq_true_iff, fun _ => ?_⟩
    rcases h with rfl | ⟨status, headers, start, n, t, hold, -⟩
    · exact .inl rfl
    · rw [parseHead_append hold] at hhead
      cases hhead
  | some p =>
    obtain ⟨status, headers, start⟩ := p
    have hstart : start ≤ (raw ++ more).length := parseHead_le hhead
    cases headOnly with
    | true => exact ⟨true, w, rfl, by simp, nofun⟩
    | false =>
      simp only [Bool.false_eq_true, if_false, false_or]
      cases hchunked : isChunked headers with
      | false =>
        simp only [Bool.not_false, if_true, Bool.false_eq_true, if_false]
        rw [sliceFrom_eq hstart]
        refine ⟨_, w, rfl, ?_, fun _ => ?_⟩
        · simp [Option.any_eq_true]
        · rcases h with rfl | ⟨_, _, _, n, t, hold, hchunked', -⟩
          · exact .inl rfl
          · cases hhead.symm.trans (parseHead_append hold more)
            rw [hchunked] at hchunked'
            cases hchunked'
      | true =>
        simp only [Bool.not_true, if_true, Bool.false_eq_true, if_false]
        -- the walk is at the offset the scan of all the chunks comes through
        obtain ⟨at_, body, hat, hbody, hw, hpass⟩ : ∃ (at_ : ℕ) (body : List UInt8),
            at_ ≤ (raw ++ more).length ∧ body.length ≤ maxResponse ∧
              (w.chunkAt.getD start = at_ ∧ w.total = body.length) ∧
              ∀ k u o, ChunkScan maxResponse body ((raw ++ more).drop at_) k u o →
                ∃ n, start + n = at_ + k ∧ ChunkScan maxResponse [] ((raw ++ more).drop start) n u o := by
          rcases h with rfl | ⟨_, _, _, n, t, hold, -, hscan, rfl⟩
          · exact ⟨start, [], hstart, Nat.zero_le _, ⟨rfl, rfl⟩, fun k u o hscan => ⟨k, rfl, hscan⟩⟩
          · cases hhead.symm.trans (parseHead_append hold more)
            have hle : start ≤ raw.length := parseHead_le hold
            have hn := hscan.le_length (nextChunk_steady maxResponse)
            rw [length_drop] at hn
            refine ⟨start + n, t, ?_, chunkScan_small hscan (Nat.zero_le _), ⟨rfl, rfl⟩, fun k u o hmore => ?_⟩
            · rw [length_append]
              omega
            · refine ⟨n + k, by omega, ?_⟩
              rw [drop_append_of_le_length hle]
              refine hscan.resume (nextChunk_steady maxResponse) ?_
              rwa [← drop_append_of_le_length hle, drop_drop]
        obtain ⟨k, u, o, hscan⟩ := Scan.total (nextChunk_steady maxResponse) body ((raw ++ more).drop at_)
        obtain ⟨n, hn, hwhole⟩ := hpass k u o hscan
        have hless : ((raw ++ more).drop at_).length < (raw ++ more).length + 1 := by
          rw [length_drop]
          omega
        obtain ⟨w', hwalk, hnone⟩ := walkFrom_eq hmax hraw hscan rfl hat hbody hless
        refine ⟨o.isSome, w', ?_, ?_, fun ho => ?_⟩
        · rw [hw.1, hw.2, hwalk]
        · constructor
          · intro ho
            obtain ⟨out, rfl⟩ := isSome_iff_exists.mp ho
            exact ⟨n, u, out, hwhole⟩
          · rintro ⟨n', u', out, hwhole'⟩
            rw [(hwhole.unique hwhole').2.2]
            rfl
        · obtain rfl : o = none := by simpa using ho
          rw [hnone rfl, ← hn]
          exact .inr ⟨status, headers, start, n, u, hhead, hchunked, hwhole, rfl⟩

theorem framedBody_total (hmax : maxResponse ≤ 2 ^ 62) (headOnly : Bool) (headers : List (String × String))
    (rest : List UInt8) : framedBody headOnly maxResponse headers rest ≠ .error .panicked := by
  unfold framedBody
  split
  · nofun
  · split
    · obtain ⟨n, t, o, hscan⟩ := Scan.total (nextChunk_steady maxResponse) [] rest
      rw [dechunk_eq hmax hscan]
      rcases o with _ | f | _
      · nofun
      · obtain ⟨msg, rfl⟩ := chunkScan_error hscan
        nofun
      · nofun
    · split
      · split
        · nofun
        · rename_i hlen
          rw [sliceTo_eq (Nat.le_of_not_lt hlen)]
          nofun
      · nofun

theorem parseResponse_of_head {headOnly : Bool} {status : UInt64} {headers : List (String × String)}
    {start : ℕ} (h : parseHead raw = some (status, headers, start)) :
    parseResponse headOnly maxResponse raw =
      (framedBody headOnly maxResponse headers (raw.drop start)).map fun body => ⟨status, headers, body⟩ := by
  unfold parseResponse
  rw [h]
  dsimp only
  rw [sliceFrom_eq (parseHead_le h), ok_bind]
  cases framedBody headOnly maxResponse headers (raw.drop start) <;> rfl

theorem parseResponse_total (hmax : maxResponse ≤ 2 ^ 62) (headOnly : Bool) (raw : List UInt8) :
    parseResponse headOnly maxResponse raw ≠ .error .panicked := by
  cases hhead : parseHead raw with
  | none =>
    unfold parseResponse
    rw [hhead]
    nofun
  | some p =>
    obtain ⟨status, headers, start⟩ := p
    rw [parseResponse_of_head hhead]
    have htotal := framedBody_total hmax headOnly headers (raw.drop start)
    cases hbody : framedBody headOnly maxResponse headers (raw.drop start) with
    | ok body => nofun
    | error f =>
      rw [hbody] at htotal
      intro hpanic
      exact htotal (congrArg Except.error (Except.error.inj hpanic))

theorem Settled.parse_append (hmax : maxResponse ≤ 2 ^ 62) {headOnly : Bool}
    (h : Settled headOnly maxResponse raw) (hhead : parseHead raw = some p) (m : List UInt8) :
    Settled headOnly maxResponse (raw ++ m) ∧
      parseResponse headOnly maxResponse (raw ++ m) = parseResponse headOnly maxResponse raw := by
  obtain ⟨status, headers, start⟩ := p
  have hle : start ≤ raw.length := parseHead_le hhead
  rw [parseResponse_of_head hhead, parseResponse_of_head (parseHead_append hhead m),
    drop_append_of_le_length hle]
  unfold Settled at h ⊢
  rw [hhead] at h
  rw [parseHead_append hhead m]
  dsimp only at h ⊢
  rw [drop_append_of_le_length hle]
  unfold framedBody
  rcases h with hhead | h
  · rw [if_pos hhead, if_pos hhead]
    exact ⟨.inl hhead, rfl⟩
  · split at h
    · rename_i hchunked
      obtain ⟨n, t, o, hscan⟩ := h
      have hmore := hscan.append (nextChunk_steady maxResponse) m
      rw [if_pos hchunked, if_pos hchunked, if_pos hchunked, dechunk_eq hmax hscan, dechunk_eq hmax hmore]
      exact ⟨.inr ⟨n, t, o, hmore⟩, rfl⟩
    · rename_i hplain
      obtain ⟨len, hlen, hfits⟩ := h
      have hfits' : len ≤ (raw.drop start ++ m).length := hfits.trans (by rw [length_append]; omega)
      rw [if_neg hplain, if_neg hplain, if_neg hplain, hlen]
      dsimp only
      rw [if_neg (Nat.not_lt.mpr hfits), if_neg (Nat.not_lt.mpr hfits'), sliceTo_eq hfits, sliceTo_eq hfits',
        take_append_of_le_length hfits]
      exact ⟨.inr ⟨len, rfl, hfits'⟩, rfl⟩

theorem responseComplete_spec (hmax : maxResponse ≤ 2 ^ 62) (headOnly : Bool) (raw : List UInt8) :
    ∃ complete, responseComplete headOnly maxResponse raw = .ok complete ∧
      (complete = true → Settled headOnly maxResponse raw ∧ ∃ r, parseResponse headOnly maxResponse raw = .ok r) ∧
      (Settled headOnly maxResponse raw → (∃ r, parseResponse headOnly maxResponse raw = .ok r) → complete = true) := by
  cases hhead : parseHead raw with
  | none =>
    refine ⟨false, by unfold responseComplete; rw [hhead], nofun, ?_⟩
    rintro - ⟨r, hr⟩
    unfold parseResponse at hr
    rw [hhead] at hr
    cases hr
  | some p =>
    obtain ⟨status, headers, start⟩ := p
    unfold responseComplete Settled
    rw [parseResponse_of_head hhead, hhead]
    dsimp only
    unfold framedBody
    cases headOnly with
    | true => exact ⟨true, rfl, fun _ => ⟨.inl rfl, _, rfl⟩, fun _ _ => rfl⟩
    | false =>
      simp only [Bool.false_eq_true, if_false, false_or]
      rw [sliceFrom_eq (parseHead_le hhead), ok_bind]
      split
      · obtain ⟨n, t, o, hscan⟩ := Scan.total (nextChunk_steady maxResponse) [] (raw.drop start)
        rw [dechunk_eq hmax hscan]
        rcases o with _ | f | _
        · refine ⟨false, rfl, nofun, ?_⟩
          rintro - ⟨r, hr⟩
          cases hr
        · obtain ⟨msg, rfl⟩ := chunkScan_error hscan
          refine ⟨false, rfl, nofun, ?_⟩
          rintro - ⟨r, hr⟩
          cases hr
        · exact ⟨true, rfl, fun _ => ⟨⟨n, t, _, hscan⟩, _, rfl⟩, fun _ _ => rfl⟩
      · cases hlen : contentLength headers with
        | none =>
          refine ⟨false, rfl, nofun, ?_⟩
          rintro ⟨len, hsome, -⟩
          cases hsome
        | some len =>
          dsimp only
          refine ⟨_, rfl, fun hfits => ?_, fun hsettled _ => ?_⟩
          · have hle := decide_eq_true_iff.mp hfits
            rw [if_neg (Nat.not_lt.mpr hle), sliceTo_eq hle]
            exact ⟨⟨len, rfl, hle⟩, _, rfl⟩
          · obtain ⟨len', hsome, hle⟩ := hsettled
            obtain rfl := Option.some.inj hsome
            exact decide_eq_true hle

def SizeLine (size : ℕ) (line : List UInt8) : Prop :=
  ∃ (digits pad : List Char) (ext : List UInt8), digits ≠ [] ∧ hexDigits digits 0 = some size ∧
    (∀ c ∈ pad, c = ' ' ∨ c = '\t') ∧ (ext = [] ∨ ∃ more, ext = utf8 ";" ++ more) ∧
    line = utf8 (String.ofList (digits ++ pad)) ++ ext ∧ position crlf line = none

inductive Chunked : List UInt8 → List UInt8 → Prop
  | last {line} : SizeLine 0 line → Chunked (line ++ crlf) []
  | chunk {line data rest body} : SizeLine data.length line → data ≠ [] → Chunked rest body →
      Chunked (line ++ crlf ++ data ++ crlf ++ rest) (data ++ body)

/-- An answer up to where its body is whole, and that body; what comes after are the trailers of
a chunked one. -/
def Framed (headOnly : Bool) (front trailers body : List UInt8) : Prop :=
  ∃ status headers start, parseHead front = some (status, headers, start) ∧ start ≤ maxDownloadHead ∧
    if headOnly = true then front.length = start ∧ trailers = [] ∧ body = []
    else if isChunked headers = true then Chunked (front.drop start) body
    else contentLength headers = some body.length ∧ front.drop start = body ∧ trailers = []

theorem utf8EncodeChar_append_inj {c d : Char} {a b : List UInt8}
    (h : String.utf8EncodeChar c ++ a = String.utf8EncodeChar d ++ b) : c = d ∧ a = b := by
  have hchar : c = d := by
    have hc := ByteArray.utf8DecodeChar?_utf8EncodeChar_append (b := ⟨a.toArray⟩) (c := c)
    have hd := ByteArray.utf8DecodeChar?_utf8EncodeChar_append (b := ⟨b.toArray⟩) (c := d)
    have hbytes : (String.utf8EncodeChar c).toByteArray ++ ⟨a.toArray⟩ =
        (String.utf8EncodeChar d).toByteArray ++ ⟨b.toArray⟩ := by
      apply ByteArray.ext
      simpa using congrArg List.toArray h
    rw [hbytes] at hc
    exact Option.some.inj (hc.symm.trans hd)
  subst hchar
  exact ⟨rfl, append_cancel_left h⟩

theorem toList_of_utf8 (cs : List Char) {text : String} {ext : List UInt8}
    (h : utf8 text = utf8 (String.ofList cs) ++ ext) :
    ∃ rest, text.toList = cs ++ rest ∧ utf8 (String.ofList rest) = ext := by
  obtain ⟨l, rfl⟩ : ∃ l, text = String.ofList l := ⟨text.toList, by simp⟩
  rw [String.toList_ofList]
  rw [utf8_ofList, utf8_ofList] at h
  induction cs generalizing l with
  | nil => exact ⟨l, rfl, by rw [utf8_ofList, h]; rfl⟩
  | cons c cs ih =>
    cases l with
    | nil =>
      have hlen := congrArg List.length h
      rw [flatMap_cons, append_assoc, length_append] at hlen
      have hpos := c.utf8Size_pos
      rw [String.length_utf8EncodeChar, flatMap_nil, length_nil] at hlen
      omega
    | cons d l =>
      rw [flatMap_cons, flatMap_cons, append_assoc] at h
      obtain ⟨rfl, hrest⟩ := utf8EncodeChar_append_inj h
      obtain ⟨rest, hl, hext⟩ := ih l hrest
      exact ⟨rest, by rw [hl]; rfl, hext⟩

theorem hexDigits_chars {cs : List Char} {acc : ℕ} (h : hexDigits cs acc = some n) :
    ∀ c ∈ cs, isWhitespace c = false ∧ c ≠ ';' ∧ c ≠ '+' ∧ c ≠ '<' := by
  induction cs generalizing acc with
  | nil => exact fun c hc => nomatch hc
  | cons d cs ih =>
    have hrange : ∀ {lo hi : Char}, lo ≤ d ∧ d ≤ hi → lo.toNat ≤ d.toNat ∧ d.toNat ≤ hi.toNat := fun h => h
    have hchar : ('0'.toNat ≤ d.toNat ∧ d.toNat ≤ '9'.toNat) ∨ ('a'.toNat ≤ d.toNat ∧ d.toNat ≤ 'f'.toNat) ∨
        ('A'.toNat ≤ d.toNat ∧ d.toNat ≤ 'F'.toNat) := by
      rw [hexDigits] at h
      split_ifs at h with h0 h1 h2
      · exact .inl (hrange h0)
      · exact .inr (.inl (hrange h1))
      · exact .inr (.inr (hrange h2))
    have hrest : ∃ acc', hexDigits cs acc' = some n := by
      rw [hexDigits] at h
      split_ifs at h
      all_goals exact ⟨_, h⟩
    obtain ⟨acc', hrest⟩ := hrest
    intro c hc
    rcases mem_cons.mp hc with rfl | hc
    · have hn : 48 ≤ c.toNat ∧ c.toNat ≤ 102 ∧ c.toNat ≠ 59 ∧ c.toNat ≠ 60 := by
        simp only [Char.reduceToNat] at hchar
        omega
      refine ⟨?_, ?_, ?_, ?_⟩
      · simp [isWhitespace]
        omega
      · rintro rfl
        simp at hn
      · rintro rfl
        simp at hn
      · rintro rfl
        simp at hn
    · exact ih hrest c hc

theorem dropWhile_of_none {α : Type} {p : α → Bool} {l : List α} (h : ∀ a ∈ l, p a = false) : l.dropWhile p = l := by
  cases l with
  | nil => rfl
  | cons a l => exact dropWhile_cons_of_neg (by simp [h a (.head _)])

theorem trim_padded {digits pad : List Char} (hdigits : ∀ c ∈ digits, isWhitespace c = false) (hne : digits ≠ [])
    (hpad : ∀ c ∈ pad, isWhitespace c = true) : trim (String.ofList (digits ++ pad)) = String.ofList digits := by
  have hfront : (digits ++ pad).dropWhile isWhitespace = digits ++ pad := by
    cases digits with
    | nil => exact absurd rfl hne
    | cons c digits =>
      exact dropWhile_cons_of_neg (by simp [hdigits c (.head _)])
  have hback : (pad.reverse ++ digits.reverse).dropWhile isWhitespace = digits.reverse := by
    rw [dropWhile_append_of_pos fun c hc => hpad c (mem_reverse.mp hc)]
    exact dropWhile_of_none fun c hc => hdigits c (mem_reverse.mp hc)
  rw [trim, String.toList_ofList, hfront, reverse_append, hback, reverse_reverse]

theorem fromStrRadix_digits {cs : List Char} (hne : cs ≠ []) (hplus : '+' ∉ cs) :
    fromStrRadix (String.ofList cs) = (hexDigits cs 0).filter (· < 2 ^ 64) := by
  unfold fromStrRadix
  rw [String.toList_ofList]
  split
  · exact absurd (.head _) hplus
  · rw [if_neg (by simpa using hne)]

theorem SizeLine.read {size : ℕ} {line : List UInt8} (h : SizeLine size line) :
    readSize line = .ok size ∨ ∃ msg, readSize line = .error (.err msg) := by
  obtain ⟨digits, pad, ext, hne, hnum, hpad, hext, rfl, -⟩ := h
  have hchars := hexDigits_chars hnum
  unfold readSize
  cases htext : fromUtf8 (utf8 (String.ofList (digits ++ pad)) ++ ext) with
  | none => exact .inr ⟨_, rfl⟩
  | some text =>
    obtain ⟨rest, hlist, hrest⟩ := toList_of_utf8 _ (utf8_of_fromUtf8 htext)
    have hstop : ∀ c ∈ digits ++ pad, (c != ';') = true := by
      intro c hc
      rcases mem_append.mp hc with hc | hc
      · simpa using (hchars c hc).2.1
      · rcases hpad c hc with rfl | rfl <;> decide
    have hsegment : text.toList.takeWhile (· != ';') = digits ++ pad := by
      rw [hlist, takeWhile_append_of_pos hstop]
      rcases hext with rfl | ⟨more, rfl⟩
      · have hnil : rest = [] := by
          cases rest with
          | nil => rfl
          | cons c rest =>
            have hlen := congrArg List.length hrest
            have hpos := c.utf8Size_pos
            rw [utf8_ofList, flatMap_cons, length_append, String.length_utf8EncodeChar,
              length_nil] at hlen
            omega
        rw [hnil, takeWhile_nil, append_nil]
      · obtain ⟨rest', hrest', -⟩ := toList_of_utf8 [';'] hrest
        rw [String.toList_ofList] at hrest'
        rw [hrest', cons_append, takeWhile_cons_of_neg (by decide), append_nil]
    have hread : chunkSize text = (some size).filter (· < 2 ^ 64) := by
      rw [chunkSize, hsegment, trim_padded (fun c hc => (hchars c hc).1) hne (fun c hc => by
        rcases hpad c hc with rfl | rfl <;> decide)]
      rw [fromStrRadix_digits hne fun hplus => (hchars '+' hplus).2.2.1 rfl, hnum]
    dsimp only
    rw [hread]
    by_cases hsize : size < 2 ^ 64
    · rw [filter_some_pos (by simpa using hsize)]
      exact .inl rfl
    · rw [filter_some_neg (by simpa using hsize)]
      exact .inr ⟨_, rfl⟩

theorem nextChunk_line (maxResponse : ℕ) (body more : List UInt8) {line : List UInt8} {size : ℕ}
    (h : SizeLine size line) :
    (∃ f, nextChunk maxResponse body (line ++ crlf ++ more) = .done (.error f)) ∨
    nextChunk maxResponse body (line ++ crlf ++ more) =
      if size = 0 then .done (.ok ())
      else if more.length < size + 2 then .wait
      else if (body ++ more.take size).length > maxResponse then .done (.error (tooLarge maxResponse))
      else .skip (line.length + 2 + size + 2) (body ++ more.take size) := by
  have hline : (line ++ crlf ++ more).take line.length = line := by
    rw [append_assoc, take_left]
  have hmore : (line ++ crlf ++ more).drop (line.length + 2) = more :=
    drop_left' (length_append ..)
  have hlen : (line ++ crlf ++ more).length = line.length + 2 + more.length := by
    rw [length_append, length_append]
    rfl
  obtain ⟨-, -, -, -, -, -, -, -, hnone⟩ := id h
  unfold nextChunk
  rw [position_line hnone]
  dsimp only
  rw [hline, hmore, hlen]
  rcases h.read with hread | ⟨msg, hread⟩
  · rw [hread]
    dsimp only
    by_cases hlarge : size > maxResponse
    · rw [if_pos hlarge]
      exact .inl ⟨_, rfl⟩
    · have hshort : line.length + 2 + more.length < line.length + 2 + size + 2 ↔ more.length < size + 2 := by omega
      rw [if_neg hlarge]
      simp only [hshort]
      exact .inr trivial
  · rw [hread]
    exact .inl ⟨_, rfl⟩

theorem Chunked.scan {enc data : List UInt8} (h : Chunked enc data) (body : List UInt8)
    (hfits : (body ++ data).length ≤ maxResponse) :
    ∃ n t o, ChunkScan maxResponse body enc n t (some o) ∧ (o = .ok () → t = body ++ data) := by
  induction h generalizing body with
  | @last line hline =>
    rcases nextChunk_line maxResponse body [] hline with ⟨f, herr⟩ | hok
    · rw [append_nil] at herr
      exact ⟨_, _, _, .done herr, nofun⟩
    · rw [append_nil] at hok
      exact ⟨_, _, _, .done hok, fun _ => (append_nil body).symm⟩
  | @chunk line data rest body' hline hne _ ih =>
    rw [append_assoc, append_assoc]
    rcases nextChunk_line maxResponse body (data ++ (crlf ++ rest)) hline with
      ⟨f, herr⟩ | hok
    · exact ⟨_, _, _, .done herr, nofun⟩
    · have hlong : ¬ (data ++ (crlf ++ rest)).length < data.length + 2 := by
        rw [length_append, length_append]
        show ¬ data.length + (2 + rest.length) < data.length + 2
        omega
      have hsmall : (body ++ data).length ≤ maxResponse := by
        rw [← append_assoc, length_append] at hfits
        omega
      rw [if_neg (fun h0 => hne (length_eq_zero_iff.mp h0)), if_neg hlong, take_left,
        if_neg (Nat.not_lt.mpr hsmall)] at hok
      obtain ⟨n, t, o, hscan, ht⟩ := ih (body ++ data) (by rwa [append_assoc])
      have hdrop : (line ++ crlf ++ (data ++ (crlf ++ rest))).drop (line.length + 2 + data.length + 2) = rest := by
        rw [show line ++ crlf ++ (data ++ (crlf ++ rest)) = (line ++ crlf ++ data ++ crlf) ++ rest by simp]
        exact drop_left' (by simp [crlf]; omega)
      exact ⟨_, t, o, .skip hok (hdrop ▸ hscan), fun ho => (ht ho).trans (append_assoc ..)⟩

theorem Chunked.short {enc data : List UInt8} (h : Chunked enc data) {cut : List UInt8} (hcut : cut <+: enc)
    (hne : cut ≠ enc) {body t : List UInt8} (hscan : ChunkScan maxResponse body cut n t o) : o ≠ some (.ok ()) := by
  -- cut within the first line, or right behind it, the scan waits
  have hwait : ∀ {line more cut : List UInt8} {size : ℕ}, SizeLine size line → cut <+: line ++ crlf ++ more →
      cut.length < line.length + 2 → ∀ body, nextChunk maxResponse body cut = .wait := by
    intro line more cut size hline hpre hlen body
    obtain ⟨-, -, -, -, -, -, -, -, hnone⟩ := hline
    have hpos : position crlf cut = none := by
      rw [eq_none_iff_forall_not_mem]
      intro i hi
      have hbound : i + 2 ≤ cut.length := position_bound hi
      obtain ⟨rest, hrest⟩ := hpre
      have hmore := position_append hi rest
      rw [hrest, position_line hnone] at hmore
      cases hmore
      omega
    rw [nextChunk, hpos]
  induction h generalizing cut body n with
  | @last line hline =>
    have hlen : cut.length < line.length + 2 := by
      have hle := hcut.length_le
      rw [length_append, show crlf.length = 2 from rfl] at hle
      refine lt_of_le_of_ne hle fun heq => hne (hcut.eq_of_length ?_)
      rw [heq, length_append]
      rfl
    have hturn := hwait hline (by rwa [append_nil]) hlen body
    cases hscan with
    | wait => nofun
    | done hdone => cases hturn.symm.trans hdone
    | skip hskip => cases hturn.symm.trans hskip
  | @chunk line data rest body' hline hdata _ ih =>
    have hsplit : line ++ crlf ++ data ++ crlf ++ rest = line ++ crlf ++ (data ++ (crlf ++ rest)) := by simp
    rw [hsplit] at hcut hne
    by_cases hlen : cut.length < line.length + 2
    · have hturn := hwait hline hcut hlen body
      cases hscan with
      | wait => nofun
      | done hdone => cases hturn.symm.trans hdone
      | skip hskip => cases hturn.symm.trans hskip
    obtain ⟨more, rfl⟩ : line ++ crlf <+: cut := by
      refine prefix_of_prefix_length_le (prefix_append ..) hcut ?_
      rw [length_append]
      exact Nat.le_of_not_lt hlen
    have hmore : more <+: data ++ (crlf ++ rest) := (prefix_append_right_inj _).mp hcut
    rcases nextChunk_line maxResponse body more hline with ⟨f, herr⟩ | hturn
    · cases hscan with
      | wait => nofun
      | done hdone =>
        cases herr.symm.trans hdone
        nofun
      | skip hskip => cases herr.symm.trans hskip
    rw [if_neg (fun h0 => hdata (length_eq_zero_iff.mp h0))] at hturn
    by_cases hshort : more.length < data.length + 2
    · rw [if_pos hshort] at hturn
      cases hscan with
      | wait => nofun
      | done hdone => cases hturn.symm.trans hdone
      | skip hskip => cases hturn.symm.trans hskip
    rw [if_neg hshort] at hturn
    split at hturn
    · cases hscan with
      | wait => nofun
      | done hdone =>
        cases hturn.symm.trans hdone
        nofun
      | skip hskip => cases hturn.symm.trans hskip
    · obtain ⟨tail, rfl⟩ : data ++ crlf <+: more := by
        refine prefix_of_prefix_length_le ?_ hmore ?_
        · rw [← append_assoc]
          exact prefix_append ..
        · rw [length_append]
          exact Nat.le_of_not_lt hshort
      cases hscan with
      | wait => nofun
      | done hdone => cases hturn.symm.trans hdone
      | skip hskip hrest =>
        cases hturn.symm.trans hskip
        rw [show line ++ crlf ++ (data ++ crlf ++ tail) = (line ++ crlf ++ data ++ crlf) ++ tail by simp,
          drop_left' (by simp [crlf]; omega)] at hrest
        rw [append_assoc, prefix_append_right_inj, prefix_append_right_inj] at hmore
        refine ih hmore ?_ hrest
        rintro rfl
        exact hne (by simp)

end Molt.Http
