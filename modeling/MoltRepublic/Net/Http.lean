import Mathlib
import MoltRepublic.Core.Text
import MoltRepublic.Lib.Check
import MoltRepublic.Lib.Resumed
import MoltRepublic.Lib.Slices

/-! The reading of a framed HTTP answer: the decoder, the test that it is whole and the walk that
is carried from read to read. -/

namespace Molt.Http
open Text Check Resumed Slices

abbrev HttpFault := Fault String

def crlf : List UInt8 := [13, 10]

def headTerminator : List UInt8 := crlf ++ crlf

def maxDownloadHead : ℕ := 64 * 1024

structure HttpResponse where
  status : UInt64
  headers : List (String × String)
  body : List UInt8
deriving DecidableEq

def headEnd (raw : List UInt8) : Option ℕ := (position headTerminator raw).map (· + 4)

/-- `split("\r\n")`. -/
def splitCrlf : List Char → List (List Char)
  | [] => [[]]
  | [c] => [[c]]
  | c :: d :: cs =>
    if c = '\r' ∧ d = '\n' then [] :: splitCrlf cs
    else match splitCrlf (d :: cs) with
      | [] => [[c]]
      | line :: lines => (c :: line) :: lines

def toAsciiLowercase (s : String) : String := String.ofList (s.toList.map Char.toLower)

def headerLine (line : List Char) : Option (String × String) :=
  (splitOnceChars ':' line).map fun kv =>
    (toAsciiLowercase (trim (String.ofList kv.1)), trim (String.ofList kv.2))

def parseStatus (line : List Char) : Option UInt64 :=
  ((splitWhitespace (String.ofList line))[1]?.bind parseU64).filter fun n => n.toNat < 2 ^ 16

def parseHead (raw : List UInt8) : Option (UInt64 × List (String × String) × ℕ) := do
  let end_ ← headEnd raw
  let head ← fromUtf8 (raw.take (end_ - 4))
  let lines := splitCrlf head.toList
  let status ← parseStatus (lines.headD [])
  return (status, lines.tail.filterMap headerLine, end_)

def isChunked (headers : List (String × String)) : Bool :=
  headers.any fun h => h.1 == "transfer-encoding" &&
    (toAsciiLowercase h.2).toList.tails.any fun rest => "chunked".toList.isPrefixOf rest

def contentLength (headers : List (String × String)) : Option ℕ :=
  ((headers.find? fun h => h.1 == "content-length").bind fun h => parseU64 h.2).map UInt64.toNat

def hexDigits : List Char → ℕ → Option ℕ
  | [], acc => some acc
  | c :: cs, acc =>
    if '0' ≤ c ∧ c ≤ '9' then hexDigits cs (acc * 16 + (c.toNat - 48))
    else if 'a' ≤ c ∧ c ≤ 'f' then hexDigits cs (acc * 16 + (c.toNat - 87))
    else if 'A' ≤ c ∧ c ≤ 'F' then hexDigits cs (acc * 16 + (c.toNat - 55))
    else none

/-- `usize::from_str_radix(_, 16)`. -/
def fromStrRadix (s : String) : Option ℕ :=
  let digits := match s.toList with
    | '+' :: cs => cs
    | cs => cs
  if digits.isEmpty then none else (hexDigits digits 0).filter (· < 2 ^ 64)

def chunkSize (line : String) : Option ℕ :=
  fromStrRadix (trim (String.ofList (line.toList.takeWhile (· != ';'))))

def tooLarge (maxResponse : ℕ) : HttpFault := .err s!"http response exceeds {maxResponse} bytes"

def truncated : HttpFault := .err "chunked body was truncated"

def readSize (line : List UInt8) : Except HttpFault ℕ :=
  match fromUtf8 line with
  | none => .error (.err "bad chunk size")
  | some sizeStr =>
    match chunkSize sizeStr with
    | none => .error (.err s!"bad chunk size: {sizeStr}")
    | some size => .ok size

def dechunkFrom (maxResponse : ℕ) : ℕ → List UInt8 → List UInt8 → Except HttpFault (List UInt8)
  | 0, _, _ => .error .panicked
  | fuel + 1, rest, body =>
    match position crlf rest with
    | none => .error truncated
    | some lineEnd => do
      let line ← sliceTo rest lineEnd
      let size ← readSize line
      -- before any sum: a hostile size must not leave the range
      if size > maxResponse then .error (tooLarge maxResponse) else do
      let rest ← sliceFrom rest (lineEnd + 2)
      if size = 0 then .ok body else do
      let needed ← word (size + 2)
      if rest.length < needed then .error truncated else do
      let data ← sliceTo rest size
      let rest ← sliceFrom rest needed
      if (body ++ data).length > maxResponse then .error (tooLarge maxResponse)
      else dechunkFrom maxResponse fuel rest (body ++ data)

def dechunk (maxResponse : ℕ) (rest : List UInt8) : Except HttpFault (List UInt8) :=
  dechunkFrom maxResponse (rest.length + 1) rest []

def responseComplete (headOnly : Bool) (maxResponse : ℕ) (raw : List UInt8) : Except HttpFault Bool :=
  match parseHead raw with
  | none => .ok false
  | some (_, headers, bodyStart) =>
    if headOnly then .ok true
    else do
      let rest ← sliceFrom raw bodyStart
      if isChunked headers then
        match dechunk maxResponse rest with
        | .ok _ => .ok true
        | .error (.err _) => .ok false
        | .error .panicked => .error .panicked
      else match contentLength headers with
        | some len => .ok (decide (len ≤ rest.length))
        | none => .ok false

def closeDelimited (headOnly : Bool) (raw : List UInt8) : Bool :=
  !headOnly && (parseHead raw).any fun h => !isChunked h.2.1 && (contentLength h.2.1).isNone

def framedBody (headOnly : Bool) (maxResponse : ℕ) (headers : List (String × String)) (rest : List UInt8) :
    Except HttpFault (List UInt8) :=
  if headOnly then .ok []
  else if isChunked headers then dechunk maxResponse rest
  else match contentLength headers with
    | some len => if rest.length < len then .error (.err "http body was truncated") else sliceTo rest len
    | none => .ok rest

def parseResponse (headOnly : Bool) (maxResponse : ℕ) (raw : List UInt8) : Except HttpFault HttpResponse :=
  match parseHead raw with
  | none => .error (.err "http response head is incomplete or malformed")
  | some (status, headers, bodyStart) => do
    let rest ← sliceFrom raw bodyStart
    let body ← framedBody headOnly maxResponse headers rest
    return ⟨status, headers, body⟩

structure Completion where
  chunkAt : Option ℕ := none
  total : ℕ := 0
deriving DecidableEq

def walkFrom (maxResponse : ℕ) (raw : List UInt8) : ℕ → ℕ → ℕ → Except HttpFault (Bool × Completion)
  | 0, _, _ => .error .panicked
  | fuel + 1, at_, total => do
    let rest ← sliceFrom raw at_
    match position crlf rest with
    | none => .ok (false, ⟨at_, total⟩)
    | some lineEnd => do
      let line ← sliceTo rest lineEnd
      match ((fromUtf8 line).bind chunkSize).filter (· ≤ maxResponse) with
      | none => .ok (true, ⟨at_, total⟩)
      | some size =>
        if size = 0 then .ok (true, ⟨at_, total⟩)
        else do
          let needed ← word (lineEnd + 2 + size + 2)
          if rest.length < needed then .ok (false, ⟨at_, total⟩)
          else do
            let total ← word (total + size)
            if total > maxResponse then .ok (true, ⟨at_, total⟩)
            else do
              let at_ ← word (at_ + needed)
              walkFrom maxResponse raw fuel at_ total

/-- `true` once complete, or once broken past repair. -/
def Completion.check (headOnly : Bool) (maxResponse : ℕ) (w : Completion) (raw : List UInt8) :
    Except HttpFault (Bool × Completion) :=
  match parseHead raw with
  | none => .ok (decide (raw.length > maxDownloadHead), w)
  | some (_, headers, bodyStart) =>
    if headOnly then .ok (true, w)
    else if !isChunked headers then do
      let rest ← sliceFrom raw bodyStart
      return ((contentLength headers).any (· ≤ rest.length), w)
    else walkFrom maxResponse raw (raw.length + 1) (w.chunkAt.getD bodyStart) w.total

/-- What a read brings: bytes (none when the peer closed), too few of them by the clock or not. -/
inductive Read
  | data (bytes : List UInt8) (late : Bool)
  | failed (why : String)
  | timedOut

def readFrom (headOnly : Bool) (maxResponse : ℕ) :
    List UInt8 → Completion → List Read → Except HttpFault HttpResponse × List Read
  | buf, _, [] => (parseResponse headOnly maxResponse buf, [])
  | _, _, .timedOut :: reads => (.error (.err "http read timed out"), reads)
  | buf, _, .failed why :: reads =>
    match responseComplete headOnly maxResponse buf with
    | .error f => (.error f, reads)
    | .ok complete =>
      if complete || closeDelimited headOnly buf then (parseResponse headOnly maxResponse buf, reads)
      else (.error (.err s!"http read: {why}"), reads)
  | buf, walk, .data bytes late :: reads =>
    if bytes = [] then (parseResponse headOnly maxResponse buf, reads)
    else if (buf ++ bytes).length > maxResponse then (.error (tooLarge maxResponse), reads)
    else if late then (.error (.err "http response too slow"), reads)
    else match walk.check headOnly maxResponse (buf ++ bytes) with
      | .error f => (.error f, reads)
      | .ok (true, _) => (parseResponse headOnly maxResponse (buf ++ bytes), reads)
      | .ok (false, walk) => readFrom headOnly maxResponse (buf ++ bytes) walk reads

def readFullResponse (headOnly : Bool) (maxResponse : ℕ) (reads : List Read) :
    Except HttpFault HttpResponse × List Read :=
  readFrom headOnly maxResponse [] {} reads

end Molt.Http
