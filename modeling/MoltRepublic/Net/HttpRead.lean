import Mathlib
import MoltRepublic.Net.HttpFramed

/-! The reads of a framed answer: it is read whole or not at all, however the network cuts it. -/

namespace Molt.Http
open Text Check Resumed Slices List Option

variable {maxResponse : ℕ} {headOnly : Bool}

variable {trailers : List UInt8}

theorem Framed.head {front body : List UInt8} (h : Framed headOnly front trailers body) :
    ∃ p, parseHead front = some p ∧ p.2.2 ≤ maxDownloadHead := by
  obtain ⟨status, headers, start, hhead, hstart, -⟩ := h
  exact ⟨_, hhead, hstart⟩

variable {rest : List UInt8}

theorem framedBody_chunked {headers : List (String × String)} (hbody : ¬ headOnly = true)
    (hchunked : isChunked headers = true) :
    framedBody headOnly maxResponse headers rest = dechunk maxResponse rest := by
  rw [framedBody, if_neg hbody, if_pos hchunked]

theorem framedBody_length {headers : List (String × String)} {len : ℕ} (hbody : ¬ headOnly = true)
    (hplain : ¬ isChunked headers = true) (hlen : contentLength headers = some len) :
    framedBody headOnly maxResponse headers rest =
      if rest.length < len then .error (.err "http body was truncated") else sliceTo rest len := by
  rw [framedBody, if_neg hbody, if_neg hplain, hlen]

theorem Chunked.length_le {enc data : List UInt8} (h : Chunked enc data) : data.length ≤ enc.length := by
  induction h with
  | last => exact Nat.zero_le _
  | chunk _ _ _ ih =>
    simp only [length_append]
    omega

theorem Framed.settled (hmax : maxResponse ≤ 2 ^ 62) {front body : List UInt8}
    (h : Framed headOnly front trailers body) (hfits : front.length ≤ maxResponse) :
    Settled headOnly maxResponse front ∧
      ∀ r, parseResponse headOnly maxResponse front = .ok r → r.body = body := by
  obtain ⟨status, headers, start, hhead, -, hbody⟩ := h
  have hbodyOf : ∀ r, parseResponse headOnly maxResponse front = .ok r →
      framedBody headOnly maxResponse headers (front.drop start) = .ok r.body := by
    intro r hr
    rw [parseResponse_of_head hhead] at hr
    obtain ⟨b, hb, rfl⟩ := map_eq_ok.mp hr
    exact hb
  have hlen : (front.drop start).length ≤ maxResponse := by
    rw [length_drop]
    omega
  unfold Settled
  rw [hhead]
  dsimp only
  split at hbody
  · rename_i hhead
    obtain ⟨-, -, rfl⟩ := hbody
    refine ⟨.inl hhead, fun r hr => ?_⟩
    have hparsed := hbodyOf r hr
    rw [framedBody, if_pos hhead] at hparsed
    exact (Except.ok.inj hparsed).symm
  · rename_i hwanted
    split at hbody
    · rename_i hchunked
      obtain ⟨n, t, o, hscan, ht⟩ := hbody.scan [] (hbody.length_le.trans hlen)
      rw [if_pos hchunked]
      refine ⟨.inr ⟨n, t, o, hscan⟩, fun r hr => ?_⟩
      have hparsed := hbodyOf r hr
      rw [framedBody_chunked hwanted hchunked, dechunk_eq hmax hscan] at hparsed
      rcases o with f | ⟨⟩
      · cases hparsed
      · rw [← Except.ok.inj hparsed, ht rfl]
        rfl
    · rename_i hplain
      obtain ⟨hcount, rfl, -⟩ := hbody
      rw [if_neg hplain]
      refine ⟨.inr ⟨_, hcount, le_rfl⟩, fun r hr => ?_⟩
      have hparsed := hbodyOf r hr
      rw [framedBody_length hwanted hplain hcount, if_neg (lt_irrefl _), sliceTo_eq le_rfl, take_length]
        at hparsed
      exact (Except.ok.inj hparsed).symm

theorem Framed.short (hmax : maxResponse ≤ 2 ^ 62) {front body : List UInt8}
    (h : Framed headOnly front trailers body) {cut : List UInt8} (hcut : cut <+: front) (hne : cut ≠ front) :
    (∃ msg, parseResponse headOnly maxResponse cut = .error (.err msg)) ∧ closeDelimited headOnly cut = false := by
  have hfails : (∀ r, parseResponse headOnly maxResponse cut ≠ .ok r) →
      ∃ msg, parseResponse headOnly maxResponse cut = .error (.err msg) := by
    intro hno
    have htotal := parseResponse_total hmax headOnly cut
    cases hparse : parseResponse headOnly maxResponse cut with
    | ok r => exact absurd hparse (hno r)
    | error f =>
      cases f with
      | err msg => exact ⟨msg, rfl⟩
      | panicked => exact absurd hparse htotal
  obtain ⟨status, headers, start, hhead, -, hbody⟩ := h
  obtain ⟨rest, rfl⟩ := hcut
  have hpart := parseHead_of_append hhead
  split at hpart
  · rename_i hle
    have hdrop : (cut ++ rest).drop start = cut.drop start ++ rest := drop_append_of_le_length hle
    rw [hdrop] at hbody
    have hrest : rest ≠ [] := fun hnil => hne (by rw [hnil, append_nil])
    split at hbody
    · rename_i hhead
      have hpos := length_pos_iff.mpr hrest
      have hall := hbody.1
      rw [length_append] at hall
      dsimp only at hle
      omega
    · rename_i hwanted
      have hparse : ∀ r, parseResponse headOnly maxResponse cut = .ok r →
          framedBody headOnly maxResponse headers (cut.drop start) = .ok r.body := by
        intro r hr
        rw [parseResponse_of_head hpart] at hr
        obtain ⟨b, hb, rfl⟩ := map_eq_ok.mp hr
        exact hb
      have hclose : isChunked headers = true ∨ (contentLength headers).isSome = true →
          closeDelimited headOnly cut = false := by
        intro hframed
        rw [closeDelimited, hpart]
        rcases hframed with hframed | hframed
        · simp [hframed]
        · simp [isNone_eq_false_iff.mpr hframed]
      split at hbody
      · rename_i hchunked
        refine ⟨hfails fun r hr => ?_, hclose (Or.inl hchunked)⟩
        obtain ⟨n, t, o, hscan⟩ := Scan.total (nextChunk_steady maxResponse) [] (cut.drop start)
        have hshort := hbody.short (prefix_append ..) (fun heq => hrest (self_eq_append_right.mp heq)) hscan
        have hparsed := hparse r hr
        rw [framedBody_chunked hwanted hchunked, dechunk_eq hmax hscan] at hparsed
        rcases o with _ | f | ⟨⟩
        · cases hparsed
        · cases hparsed
        · exact hshort rfl
      · rename_i hplain
        obtain ⟨hcount, hall, -⟩ := hbody
        refine ⟨hfails fun r hr => ?_, hclose (Or.inr (by rw [hcount]; rfl))⟩
        have hparsed := hparse r hr
        have hless : (cut.drop start).length < body.length := by
          rw [← hall, length_append]
          exact Nat.lt_add_of_pos_right (length_pos_iff.mpr hrest)
        rw [framedBody_length hwanted hplain hcount, if_pos hless] at hparsed
        cases hparsed
  · refine ⟨hfails fun r hr => ?_, ?_⟩
    · rw [parseResponse, hpart] at hr
      cases hr
    · rw [closeDelimited, hpart]
      simp

def arrives (bytes : List UInt8) : Read := .data bytes false

def Stops : List Read → Prop
  | [] => True
  | .data bytes _ :: _ => bytes = []
  | .failed _ :: _ => True
  | .timedOut :: _ => True

variable {buf : List UInt8} {w : Completion}

theorem readFrom_arrives (headOnly : Bool) (hmax : maxResponse ≤ 2 ^ 62) {bytes : List UInt8}
    (h : Carries maxResponse buf w) (hne : bytes ≠ []) (hfits : (buf ++ bytes).length ≤ maxResponse)
    (reads : List Read) :
    (Settled headOnly maxResponse (buf ++ bytes) ∧
      readFrom headOnly maxResponse buf w (.data bytes false :: reads) =
        (parseResponse headOnly maxResponse (buf ++ bytes), reads)) ∨
    (¬ Settled headOnly maxResponse (buf ++ bytes) ∧ ∃ w', Carries maxResponse (buf ++ bytes) w' ∧
      readFrom headOnly maxResponse buf w (.data bytes false :: reads) =
        readFrom headOnly maxResponse (buf ++ bytes) w' reads) := by
  have hword : (buf ++ bytes).length < 2 ^ 63 := by omega
  obtain ⟨ans, w', hcheck, hsettled, hcarries⟩ := w.check_spec hmax headOnly hword h
  rw [readFrom, if_neg hne, if_neg (Nat.not_lt.mpr hfits), if_neg (by simp), hcheck]
  cases ans with
  | true => exact .inl ⟨hsettled.mp rfl, rfl⟩
  | false =>
    refine .inr ⟨fun hyes => ?_, w', hcarries rfl, rfl⟩
    simpa using hsettled.mpr hyes

theorem Framed.parse (hmax : maxResponse ≤ 2 ^ 62) {front body : List UInt8}
    (h : Framed headOnly front trailers body) (hfits : front.length ≤ maxResponse) {more : List UInt8}
    (hstream : buf ++ rest = front ++ trailers ++ more) (hsettled : Settled headOnly maxResponse buf) :
    parseResponse headOnly maxResponse buf = parseResponse headOnly maxResponse (front ++ trailers) := by
  obtain ⟨p, hhead, hsmall⟩ := h.head
  have hwhole : parseHead (buf ++ rest) = some p := by
    rw [hstream, append_assoc]
    exact parseHead_append hhead _
  have hbuf : parseHead buf = some p := by
    have hpart := parseHead_of_append hwhole
    split at hpart
    · exact hpart
    · rename_i hgt
      rw [Settled, hpart] at hsettled
      exact absurd (hsmall.trans hsettled.le) hgt
  have hfront := (h.settled hmax hfits).1.parse_append hmax hhead trailers
  rcases prefix_or_prefix_of_prefix (prefix_append buf rest)
    (hstream ▸ prefix_append (front ++ trailers) more) with ⟨tail, htail⟩ | ⟨tail, htail⟩
  · rw [← htail]
    exact (hsettled.parse_append hmax hbuf tail).2.symm
  · rw [← htail]
    exact (hfront.1.parse_append hmax (parseHead_append hhead trailers) tail).2

theorem readFrom_whole (hmax : maxResponse ≤ 2 ^ 62) {front body more : List UInt8}
    (h : Framed headOnly front trailers body) (later : List Read) {pieces : List (List UInt8)}
    (hpieces : ∀ p ∈ pieces, p ≠ []) (buf : List UInt8) (hcarries : Carries maxResponse buf w)
    (hstream : buf ++ pieces.flatten = front ++ trailers ++ more)
    (hfits : (buf ++ pieces.flatten).length ≤ maxResponse) (hmissing : buf.length < front.length) :
    ∃ k ≤ pieces.length,
      readFrom headOnly maxResponse buf w (pieces.map arrives ++ later) =
        (parseResponse headOnly maxResponse (front ++ trailers), (pieces.drop k).map arrives ++ later) ∧
      ∀ j < k, (buf ++ (pieces.take j).flatten).length < front.length := by
  have hfront : front.length ≤ maxResponse := by
    rw [hstream, length_append, length_append] at hfits
    omega
  induction pieces generalizing buf w with
  | nil =>
    have hlen := congrArg List.length hstream
    simp only [flatten_nil, append_nil, length_append] at hlen
    omega
  | cons p ps ih =>
    rw [flatten_cons, ← append_assoc] at hstream hfits
    have hthis : (buf ++ p).length ≤ maxResponse := by
      rw [length_append] at hfits
      omega
    have hzero : (buf ++ ((p :: ps).take 0).flatten).length < front.length := by simpa using hmissing
    rcases readFrom_arrives headOnly hmax hcarries (hpieces p (.head _)) hthis
      (ps.map arrives ++ later) with ⟨hsettled, hread⟩ | ⟨hopen, w', hcarries', hread⟩
    · refine ⟨1, by simp, ?_, ?_⟩
      · rw [← h.parse hmax hfront hstream hsettled]
        exact hread
      · intro j hj
        obtain rfl : j = 0 := by omega
        exact hzero
    · have hmissing' : (buf ++ p).length < front.length := by
        by_contra hall
        obtain ⟨tail, htail⟩ : front <+: buf ++ p := by
          refine prefix_of_prefix_length_le ?_ (prefix_append (buf ++ p) ps.flatten) (Nat.le_of_not_lt hall)
          rw [hstream, append_assoc]
          exact prefix_append ..
        obtain ⟨q, hhead, -⟩ := h.head
        apply hopen
        rw [← htail]
        exact ((h.settled hmax hfront).1.parse_append hmax hhead tail).1
      obtain ⟨k, hk, hrest, hbefore⟩ := ih (fun q hq => hpieces q (.tail _ hq)) (buf ++ p) hcarries'
        hstream hfits hmissing'
      refine ⟨k + 1, by simpa using hk, ?_, ?_⟩
      · rw [drop_succ_cons, ← hrest]
        exact hread
      · intro j hj
        cases j with
        | zero => exact hzero
        | succ j =>
          rw [take_succ_cons, flatten_cons, ← append_assoc]
          exact hbefore j (by omega)

theorem readFrom_short (hmax : maxResponse ≤ 2 ^ 62) {front body : List UInt8}
    (h : Framed headOnly front trailers body) {later : List Read} (hstops : Stops later)
    {pieces : List (List UInt8 × Bool)} (hpieces : ∀ p ∈ pieces, p.1 ≠ [])
    (hcarries : Carries maxResponse buf w) (hcut : buf ++ (pieces.map Prod.fst).flatten <+: front)
    (hne : buf ++ (pieces.map Prod.fst).flatten ≠ front) :
    ∃ msg, (readFrom headOnly maxResponse buf w (pieces.map (fun p => .data p.1 p.2) ++ later)).1 =
      .error (.err msg) := by
  induction pieces generalizing buf w with
  | nil =>
    rw [map_nil, flatten_nil, append_nil] at hcut hne
    obtain ⟨⟨msg, hparse⟩, hclose⟩ := h.short hmax hcut hne
    rw [map_nil, nil_append]
    cases later with
    | nil => exact ⟨msg, hparse⟩
    | cons read later =>
      cases read with
      | data bytes late =>
        have hclosed : bytes = [] := hstops
        rw [readFrom, if_pos hclosed]
        exact ⟨msg, hparse⟩
      | failed why =>
        obtain ⟨complete, hcomplete, honly, -⟩ := responseComplete_spec hmax headOnly buf
        cases complete with
        | true =>
          obtain ⟨-, r, hr⟩ := honly rfl
          rw [hparse] at hr
          cases hr
        | false =>
          rw [readFrom, hcomplete, hclose]
          exact ⟨_, rfl⟩
      | timedOut => exact ⟨_, rfl⟩
  | cons p ps ih =>
    obtain ⟨bytes, late⟩ := p
    rw [map_cons, flatten_cons, ← append_assoc] at hcut hne
    have hbytes : bytes ≠ [] := hpieces _ (.head _)
    have hrest := fun q hq => hpieces q (.tail _ hq)
    rw [map_cons, cons_append]
    by_cases hlarge : (buf ++ bytes).length > maxResponse
    · rw [readFrom, if_neg hbytes, if_pos hlarge]
      exact ⟨_, rfl⟩
    cases late with
    | true =>
      rw [readFrom, if_neg hbytes, if_neg hlarge, if_pos rfl]
      exact ⟨_, rfl⟩
    | false =>
      rcases readFrom_arrives headOnly hmax hcarries hbytes (Nat.le_of_not_lt hlarge)
        (ps.map (fun p => .data p.1 p.2) ++ later) with ⟨-, hread⟩ | ⟨-, w', hcarries', hread⟩
      · rw [hread]
        have hpart : buf ++ bytes <+: front := (prefix_append ..).trans hcut
        refine (h.short hmax hpart fun heq => ?_).1
        -- a read that brought all of it leaves nothing for the later ones
        have hlen := hcut.length_le
        rw [length_append, heq] at hlen
        have hnil : (ps.map Prod.fst).flatten = [] := length_eq_zero_iff.mp (by omega)
        rw [hnil, append_nil] at hne
        exact hne heq
      · rw [hread]
        exact ih hrest hcarries' hcut hne

theorem readFrom_total (hmax : maxResponse ≤ 2 ^ 62) {reads : List Read} (h : Carries maxResponse buf w) :
    (readFrom headOnly maxResponse buf w reads).1 ≠ .error .panicked := by
  induction reads generalizing buf w with
  | nil => exact parseResponse_total hmax headOnly buf
  | cons read reads ih =>
    cases read with
    | timedOut => nofun
    | failed why =>
      obtain ⟨complete, hcomplete, -⟩ := responseComplete_spec hmax headOnly buf
      rw [readFrom, hcomplete]
      dsimp only
      split
      · exact parseResponse_total hmax headOnly buf
      · nofun
    | data bytes late =>
      by_cases hclosed : bytes = []
      · rw [readFrom, if_pos hclosed]
        exact parseResponse_total hmax headOnly buf
      by_cases hlarge : (buf ++ bytes).length > maxResponse
      · rw [readFrom, if_neg hclosed, if_pos hlarge]
        nofun
      cases late with
      | true =>
        rw [readFrom, if_neg hclosed, if_neg hlarge, if_pos rfl]
        nofun
      | false =>
        rcases readFrom_arrives headOnly hmax h hclosed (Nat.le_of_not_lt hlarge) reads with
          ⟨-, hread⟩ | ⟨-, w', hcarries, hread⟩
        · rw [hread]
          exact parseResponse_total hmax headOnly _
        · rw [hread]
          exact ih hcarries

/-- The piece at which the walk answers `true`. -/
def walkAlong (headOnly : Bool) (maxResponse : ℕ) :
    Completion → List UInt8 → List (List UInt8) → Except HttpFault (Option ℕ)
  | _, _, [] => .ok none
  | w, buf, p :: ps =>
    match w.check headOnly maxResponse (buf ++ p) with
    | .error f => .error f
    | .ok (true, _) => .ok (some 0)
    | .ok (false, w) => (walkAlong headOnly maxResponse w (buf ++ p) ps).map (Option.map (· + 1))

theorem walkAlong_eq (hmax : maxResponse ≤ 2 ^ 62) (headOnly : Bool) {pieces : List (List UInt8)}
    (buf : List UInt8) (h : Carries maxResponse buf w) (hword : (buf ++ pieces.flatten).length < 2 ^ 63) :
    ∃ o, walkAlong headOnly maxResponse w buf pieces = .ok o ∧
      (∀ i < pieces.length, Settled headOnly maxResponse (buf ++ (pieces.take (i + 1)).flatten) →
        ∃ j ≤ i, o = some j) ∧
      ∀ j, o = some j → Settled headOnly maxResponse (buf ++ (pieces.take (j + 1)).flatten) := by
  induction pieces generalizing buf w with
  | nil => exact ⟨none, rfl, fun i hi => absurd hi (Nat.not_lt_zero i), nofun⟩
  | cons p ps ih =>
    rw [flatten_cons, ← append_assoc] at hword
    have hthis : (buf ++ p).length < 2 ^ 63 := by
      rw [length_append] at hword
      omega
    obtain ⟨ans, w', hcheck, hsettled, hcarries⟩ := w.check_spec hmax headOnly hthis h
    unfold walkAlong
    rw [hcheck]
    cases ans with
    | true =>
      refine ⟨some 0, rfl, fun i _ _ => ⟨0, Nat.zero_le i, rfl⟩, fun j hj => ?_⟩
      cases hj
      simpa using hsettled.mp rfl
    | false =>
      have hopen : ¬ Settled headOnly maxResponse (buf ++ p) := fun hyes => by simpa using hsettled.mpr hyes
      obtain ⟨o, ho, hearly, hlate⟩ := ih (buf ++ p) (hcarries rfl) hword
      dsimp only
      rw [ho]
      refine ⟨o.map (· + 1), rfl, fun i hi hat => ?_, fun j hj => ?_⟩
      · cases i with
        | zero => exact absurd (by simpa using hat) hopen
        | succ i =>
          rw [take_succ_cons, flatten_cons, ← append_assoc] at hat
          obtain ⟨j, hj, rfl⟩ := hearly i (by simpa using hi) hat
          exact ⟨j + 1, Nat.succ_le_succ hj, rfl⟩
      · obtain ⟨i, rfl, rfl⟩ := map_eq_some_iff.mp hj
        rw [take_succ_cons, flatten_cons, ← append_assoc]
        exact hlate i rfl

/-- A framed answer is read whole, whatever the cuts, with no read past the one that made it whole;
an end before that is an error, the walk answers with the test for completeness, and nothing leaves
its range. -/
theorem read_whole_or_not (hmax : maxResponse ≤ 2 ^ 62) (headOnly : Bool) :
    (∀ (front trailers body more : List UInt8) (later : List Read) (pieces : List (List UInt8)),
      Framed headOnly front trailers body → (∀ p ∈ pieces, p ≠ []) →
      pieces.flatten = front ++ trailers ++ more → pieces.flatten.length ≤ maxResponse →
        (∃ k ≤ pieces.length,
          readFullResponse headOnly maxResponse (pieces.map arrives ++ later) =
            (parseResponse headOnly maxResponse (front ++ trailers), (pieces.drop k).map arrives ++ later) ∧
          ∀ j < k, (pieces.take j).flatten.length < front.length) ∧
        ∀ r, parseResponse headOnly maxResponse (front ++ trailers) = .ok r → r.body = body) ∧
    (∀ (front trailers body : List UInt8) (later : List Read) (pieces : List (List UInt8 × Bool)),
      Framed headOnly front trailers body → Stops later → (∀ p ∈ pieces, p.1 ≠ []) →
      (pieces.map Prod.fst).flatten <+: front → (pieces.map Prod.fst).flatten ≠ front →
        ∃ msg, (readFullResponse headOnly maxResponse (pieces.map (fun p => .data p.1 p.2) ++ later)).1 =
          .error (.err msg)) ∧
    (∀ pieces : List (List UInt8), pieces.flatten.length < 2 ^ 63 →
      ∃ o, walkAlong headOnly maxResponse {} [] pieces = .ok o ∧
        (∀ i < pieces.length, responseComplete headOnly maxResponse (pieces.take (i + 1)).flatten = .ok true →
          ∃ j ≤ i, o = some j) ∧
        ∀ j, o = some j → (∃ r, parseResponse headOnly maxResponse (pieces.take (j + 1)).flatten = .ok r) →
          responseComplete headOnly maxResponse (pieces.take (j + 1)).flatten = .ok true) ∧
    (∀ reads, (readFullResponse headOnly maxResponse reads).1 ≠ .error .panicked) ∧
      ∀ raw, parseResponse headOnly maxResponse raw ≠ .error .panicked ∧
        responseComplete headOnly maxResponse raw ≠ .error .panicked := by
  refine ⟨fun front trailers body more later pieces h hpieces hstream hfits => ?_,
    fun front trailers body later pieces h hstops hpieces hcut hne => ?_, fun pieces hword => ?_,
    fun reads => readFrom_total hmax (Or.inl rfl), fun raw => ⟨parseResponse_total hmax headOnly raw, ?_⟩⟩
  · have hfront : front.length ≤ maxResponse := by
      rw [hstream, List.length_append, List.length_append] at hfits
      omega
    obtain ⟨p, hhead, -⟩ := h.head
    obtain ⟨hsettled, hbody⟩ := h.settled hmax hfront
    have hpos : 0 < front.length := by
      have hend := headEnd_le (parseHead_eq.mp hhead).1
      obtain ⟨i, -, hi⟩ := Option.map_eq_some_iff.mp (parseHead_eq.mp hhead).1
      omega
    refine ⟨?_, fun r hr => hbody r ?_⟩
    · obtain ⟨k, hk, hread, hbefore⟩ := readFrom_whole hmax h later hpieces [] (Or.inl rfl) hstream hfits hpos
      exact ⟨k, hk, hread, hbefore⟩
    · rwa [(hsettled.parse_append hmax hhead trailers).2] at hr
  · exact readFrom_short hmax h hstops hpieces (Or.inl rfl) hcut hne
  · obtain ⟨o, ho, hearly, hlate⟩ := walkAlong_eq hmax headOnly [] (Or.inl rfl) hword
    refine ⟨o, ho, fun i hi hcomplete => ?_, fun j hj hparse => ?_⟩
    · obtain ⟨complete, heq, honly, -⟩ := responseComplete_spec hmax headOnly (pieces.take (i + 1)).flatten
      obtain rfl : complete = true := Except.ok.inj (heq.symm.trans hcomplete)
      exact hearly i hi (honly rfl).1
    · obtain ⟨complete, heq, -, hall⟩ := responseComplete_spec hmax headOnly (pieces.take (j + 1)).flatten
      rw [heq, hall (hlate j hj) hparse]
  · obtain ⟨complete, heq, -⟩ := responseComplete_spec hmax headOnly raw
    rw [heq]
    nofun

namespace Sample

def head : List UInt8 := utf8 "HTTP/1.1 200 OK\r\nTransfer-Encoding: chunked"

def front : List UInt8 :=
  head ++ headTerminator ++ (utf8 "4" ++ crlf ++ utf8 "Wiki" ++ crlf ++ (utf8 "0" ++ crlf))

theorem front_framed : Framed false front crlf (utf8 "Wiki") := by
  have hhead : parseHead front = some (200, [("transfer-encoding", "chunked")], 47) := by
    refine parseHead_eq.mpr ⟨by decide +kernel, "HTTP/1.1 200 OK\r\nTransfer-Encoding: chunked", ?_,
      by decide +kernel, by decide +kernel⟩
    rw [show front.take (47 - 4) = head by decide +kernel]
    exact fromUtf8_utf8 _
  have hfour : SizeLine 4 (utf8 "4") := ⟨['4'], [], [], by decide, by decide, by simp, .inl rfl, by decide, by decide⟩
  have hzero : SizeLine 0 (utf8 "0") := ⟨['0'], [], [], by decide, by decide, by simp, .inl rfl, by decide, by decide⟩
  refine ⟨_, _, _, hhead, by decide, ?_⟩
  exact .chunk hfour (by decide) (.last hzero)

def pieces : List (List UInt8) := [front.take 50, front.drop 50 ++ crlf]

end Sample

theorem read_whole_or_not_wiki : ∃ k ≤ Sample.pieces.length,
    readFullResponse false (4 * 1024 * 1024) (Sample.pieces.map arrives ++ []) =
      (parseResponse false (4 * 1024 * 1024) (Sample.front ++ crlf), (Sample.pieces.drop k).map arrives ++ []) ∧
    ∀ j < k, (Sample.pieces.take j).flatten.length < Sample.front.length := by
  have hmax : 4 * 1024 * 1024 ≤ 2 ^ 62 := by decide
  exact ((read_whole_or_not hmax false).1 _ _ _ [] [] Sample.pieces Sample.front_framed (by decide +kernel)
    (by decide +kernel) (by decide +kernel)).1

end Molt.Http
