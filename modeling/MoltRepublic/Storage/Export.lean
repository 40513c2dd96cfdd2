import Mathlib
import MoltRepublic.Core.Json
import MoltRepublic.Lib.Check

/-! `molt-export-v1` (`molt-storage/export.rs`): the encrypted single-file export of a workspace.
A plaintext header, then the payload (the meta and the entries) cut into chunks, each sealed
under a stream key that binds the header, with its position and whether it is the last one.

Reading is written with the source's offsets; a slice out of bounds, a negative length or a loop
that does not end is `Fault.panic`. -/

namespace Molt.Storage

open Framing Text Json Check

abbrev Bytes := List UInt8

inductive StorageError where
  | badFile (text : String)
  | newerVersion (version : Nat)
  | corrupt (text : String)
  | crypto (text : String)
  deriving DecidableEq

inductive Fault where
  | panic
  | refused (e : StorageError)
  deriving DecidableEq

def exportMagic : Bytes := utf8 "molt-export-v1" ++ [0]

def exportVersion : Nat := 1

def exportPassphraseMinChars : Nat := 10

def exportArgon2MKib : Nat := 64 * 1024

def exportArgon2T : Nat := 3

def exportArgon2P : Nat := 1

def exportSaltLen : Nat := 32

def importArgon2MKibMax : Nat := 1024 * 1024

def importArgon2TMax : Nat := 16

def importArgon2PMax : Nat := 8

def importChunkBytesMax : Nat := 64 * 1024 * 1024

def importHeaderMax : Nat := 64 * 1024

def importMetaMax : Nat := 16 * 1024 * 1024

def readCapKey : Nat := 4 * 1024

def nonceLen : Nat := 24

structure ExportKdf where
  algo : String
  mKib : Nat
  t : Nat
  p : Nat
  salt : String
  deriving DecidableEq

structure ExportHeader where
  format : String
  version : Nat
  workspaceId : String
  keyMode : String
  kdf : Option ExportKdf
  cipher : String
  chunkBytes : Nat
  exportSalt : String
  deriving DecidableEq

structure ExportMeta where
  created : UInt64
  exporter : String
  atRest : String
  workspaceKey : String
  seed : Option String
  files : UInt64
  deriving DecidableEq

structure ExportEntry where
  path : String
  data : Bytes
  deriving DecidableEq

structure ExportArchive where
  header : ExportHeader
  info : ExportMeta
  entries : List ExportEntry
  deriving DecidableEq

inductive ExportSecret where
  | passphrase (text : String)
  | workspaceKey (key : Bytes)

/-- What the export rests on: the cipher, the key derivations, the readers `serde_json` derives for
the header and the meta, the text of a hex error and the largest `usize`. -/
structure Primitives where
  encrypt : Bytes → Bytes → Bytes → Bytes → Bytes
  decrypt : Bytes → Bytes → Bytes → Bytes → Option Bytes
  hkdf32 : Bytes → String → Bytes → Bytes
  passphraseKey : String → Bytes → Nat → Nat → Nat → Except StorageError Bytes
  decodeHeader : Bytes → Except String ExportHeader
  decodeMeta : Bytes → Except String ExportMeta
  hexError : String → String
  usizeMax : Nat

def natValue (n : Nat) : Value := .num (.posInt (UInt64.ofNat n))

def ExportKdf.toJson (k : ExportKdf) : Value :=
  .obj [("algo", .str k.algo), ("m_kib", natValue k.mKib), ("t", natValue k.t), ("p", natValue k.p),
    ("salt", .str k.salt)]

def ExportHeader.toJson (h : ExportHeader) : Value :=
  .obj ([("format", .str h.format), ("version", natValue h.version), ("workspace_id", .str h.workspaceId),
    ("key_mode", .str h.keyMode)] ++ (h.kdf.map fun k => ("kdf", k.toJson)).toList ++
    [("cipher", .str h.cipher), ("chunk_bytes", natValue h.chunkBytes), ("export_salt", .str h.exportSalt)])

def ExportMeta.toJson (m : ExportMeta) : Value :=
  .obj [("created", .num (.posInt m.created)), ("exporter", .str m.exporter), ("at_rest", .str m.atRest),
    ("workspace_key", .str m.workspaceKey), ("seed", (m.seed.map Value.str).getD .null),
    ("files", .num (.posInt m.files))]

/-- The associated data of chunk `index`: magic, workspace, position, finality. -/
def exportAad (id : Bytes) (index : Nat) (last : Bool) : Bytes :=
  exportMagic ++ id ++ leBytes 8 index ++ [if last then 1 else 0]

section
variable (P : Primitives)

def deriveWorkspaceKey (seed : Bytes) (id : String) : Bytes := P.hkdf32 seed "molt-ws-key" (utf8 id)

def idBytes (id : String) : Except StorageError Bytes :=
  match hexDecode id with
  | none => .error (.badFile s!"workspace id: {P.hexError id}")
  | some v => if v.length = 32 then .ok v else .error (.badFile "workspace id is not 32 bytes")

structure ChunkWriter where
  out : Bytes
  buf : Bytes
  index : Nat

structure Stream where
  key : Bytes
  id : Bytes
  chunkBytes : Nat
  nonce : Nat → Bytes

namespace ChunkWriter

def emit (S : Stream) (w : ChunkWriter) (plaintext : Bytes) (last : Bool) : Except StorageError ChunkWriter :=
  let ct := P.encrypt S.key (S.nonce w.index) (exportAad S.id w.index last) plaintext
  if ct.length < 2 ^ 32 then
    .ok { w with out := w.out ++ S.nonce w.index ++ leBytes 4 ct.length ++ ct, index := w.index + 1 }
  else .error (.corrupt "export chunk too large")

def emitFull (S : Stream) : Nat → ChunkWriter → Except StorageError ChunkWriter
  | 0, w => .ok w
  | fuel + 1, w =>
    if S.chunkBytes ≤ w.buf.length then
      match ChunkWriter.emit P S { w with buf := w.buf.drop S.chunkBytes } (w.buf.take S.chunkBytes) false with
      | .error e => .error e
      | .ok w => emitFull S fuel w
    else .ok w

def write (S : Stream) (w : ChunkWriter) (data : Bytes) : Except StorageError ChunkWriter :=
  emitFull P S (w.buf ++ data).length { w with buf := w.buf ++ data }

def finish (S : Stream) (w : ChunkWriter) : Except StorageError Bytes :=
  (ChunkWriter.emit P S { w with buf := [] } w.buf true).map ChunkWriter.out

end ChunkWriter

inductive ExportKey where
  | passphrase (text : String) (kdfSalt : Bytes)
  | workspace

structure Export where
  key : ExportKey
  idHex : String
  wsKey : Bytes
  seed : Option Bytes
  chunkBytes : Nat
  salt : Bytes
  created : UInt64
  files : List ExportEntry
  nonce : Nat → Bytes

namespace Export

def header (E : Export) : ExportHeader where
  format := "molt-export-v1"
  version := exportVersion
  workspaceId := E.idHex
  keyMode := match E.key with
    | .passphrase _ _ => "passphrase"
    | .workspace => "workspace"
  kdf := match E.key with
    | .passphrase _ kdfSalt => some ⟨"argon2id", exportArgon2MKib, exportArgon2T, exportArgon2P, hexEncode kdfSalt⟩
    | .workspace => none
  cipher := "xchacha20poly1305"
  chunkBytes := E.chunkBytes
  exportSalt := hexEncode E.salt

def headerBytes (E : Export) : Bytes := toVec E.header.toJson

def info (E : Export) : ExportMeta where
  created := E.created
  exporter := "0.0.8"
  atRest := "device"
  workspaceKey := hexEncode E.wsKey
  seed := E.seed.map hexEncode
  files := UInt64.ofNat E.files.length

def metaBytes (E : Export) : Bytes := toVec E.info.toJson

def kRoot (E : Export) (id : Bytes) : Except StorageError Bytes :=
  match E.key with
  | .passphrase text kdfSalt => P.passphraseKey text kdfSalt exportArgon2MKib exportArgon2T exportArgon2P
  | .workspace => .ok (P.hkdf32 E.wsKey "molt-export-backup-v1" id)

def checkPassphrasePolicy (E : Export) : Except StorageError PUnit :=
  match E.key with
  | .passphrase text _ =>
    ensure (exportPassphraseMinChars ≤ text.length)
      (.badFile s!"the export passphrase needs at least {exportPassphraseMinChars} characters")
  | .workspace => .ok ⟨⟩

def entryPieces (e : ExportEntry) : List Bytes :=
  [leBytes 2 (utf8 e.path).length, utf8 e.path, leBytes 8 e.data.length, e.data]

def writeEntries (S : Stream) (w : ChunkWriter) : List ExportEntry → Except StorageError ChunkWriter
  | [] => .ok w
  | e :: rest =>
    if (utf8 e.path).length < 2 ^ 16 then
      match (entryPieces e).foldlM (ChunkWriter.write P S) w with
      | .error e => .error e
      | .ok w => writeEntries S w rest
    else .error (.corrupt s!"entry path too long: {e.path}")

/-- `export_dir` past the reading of the directory. -/
def write (E : Export) : Except StorageError Bytes := do
  ensure (E.chunkBytes ≠ 0) (.badFile "export chunk size must be > 0")
  E.checkPassphrasePolicy
  let id ← idBytes P E.idHex
  ensure (∀ seed ∈ E.seed, deriveWorkspaceKey P seed E.idHex = E.wsKey)
    (.crypto "the stored seed does not derive this workspace's key - refusing to export")
  let kRoot ← E.kRoot P id
  let S : Stream := ⟨P.hkdf32 kRoot "molt-export-stream-v1" E.headerBytes, id, E.chunkBytes, E.nonce⟩
  ensure (E.headerBytes.length < 2 ^ 32) (.corrupt "export header too large")
  ensure (E.metaBytes.length < 2 ^ 32) (.corrupt "export meta too large")
  let w ← [leBytes 4 E.metaBytes.length, E.metaBytes].foldlM (ChunkWriter.write P S) ⟨[], [], 0⟩
  let w ← writeEntries P S w E.files
  let chunks ← w.finish P S
  pure (exportMagic ++ leBytes 4 E.headerBytes.length ++ E.headerBytes ++ chunks)

end Export

def refuse {α : Type} (e : StorageError) : Except Fault α := .error (.refused e)

/-- `read_exact` of `n` bytes: them and what is left of the input. -/
def readExact (n : Nat) (what : String) (input : Bytes) : Except Fault (Bytes × Bytes) :=
  if input.length < n then refuse (.corrupt s!"truncated export ({what})")
  else .ok (input.take n, input.drop n)

/-- `data[start..stop]`. -/
def slice (data : Bytes) (start stop : Nat) : Except Fault Bytes :=
  if start ≤ stop ∧ stop ≤ data.length then .ok ((data.drop start).take (stop - start)) else .error .panic

/-- `a - b` of two `usize`. -/
def usizeSub (a b : Nat) : Except Fault Nat := if b ≤ a then .ok (a - b) else .error .panic

def readHeader (input : Bytes) : Except Fault (ExportHeader × Bytes × Bytes) := do
  let (magic, input) ← readExact 15 "export magic" input
  ensure (magic = exportMagic) (.refused (.badFile "not a molt export (bad magic)"))
  let (len4, input) ← readExact 4 "export header length" input
  let headerLen := leValue len4
  ensure (headerLen ≠ 0 ∧ headerLen ≤ importHeaderMax) (.refused (.badFile "implausible export header length"))
  let (headerBytes, input) ← readExact headerLen "export header" input
  let header ← (P.decodeHeader headerBytes).mapError fun e => .refused (.badFile s!"export header: {e}")
  ensure (header.format = "molt-export-v1") (.refused (.badFile s!"unknown export format `{header.format}`"))
  ensure (header.version = exportVersion) (.refused (.newerVersion header.version))
  ensure (header.cipher = "xchacha20poly1305")
    (.refused (.badFile s!"unsupported export cipher `{header.cipher}`"))
  ensure (header.chunkBytes ≠ 0 ∧ header.chunkBytes ≤ importChunkBytesMax)
    (.refused (.badFile "implausible export chunk size"))
  ensure ((hexDecode header.exportSalt).any fun s => s.length = exportSaltLen)
    (.refused (.badFile "export header missing its per-blob salt"))
  pure (header, headerBytes, input)

def rootKey (header : ExportHeader) (id : Bytes) (secret : ExportSecret) : Except StorageError Bytes :=
  match secret with
  | .passphrase text =>
    if header.keyMode = "passphrase" then
      match header.kdf with
      | none => .error (.badFile "passphrase export without kdf parameters")
      | some kdf =>
        if kdf.algo ≠ "argon2id" then .error (.badFile s!"unsupported export kdf `{kdf.algo}`")
        else if importArgon2MKibMax < kdf.mKib ∨ importArgon2TMax < kdf.t ∨ importArgon2PMax < kdf.p then
          .error (.badFile "export kdf parameters beyond the import caps")
        else
          match hexDecode kdf.salt with
          | none => .error (.badFile s!"export kdf salt: {P.hexError kdf.salt}")
          | some salt =>
            if salt.length ≠ 32 then .error (.badFile "export kdf salt is not 32 bytes")
            else P.passphraseKey text salt kdf.mKib kdf.t kdf.p
    else otherMode header.keyMode
  | .workspaceKey key =>
    if header.keyMode = "workspace" then .ok (P.hkdf32 key "molt-export-backup-v1" id)
    else otherMode header.keyMode
where
  otherMode (mode : String) : Except StorageError Bytes :=
    if mode = "passphrase" ∨ mode = "workspace" then
      .error (.badFile s!"this export uses key mode `{mode}` - a different secret kind was supplied")
    else .error (.badFile s!"unknown export key mode `{mode}`")

/-- The chunk at `offset`: what it opens to and where the next one starts. -/
def readChunk (key id : Bytes) (chunkBytes : Nat) (rest : Bytes) (offset index : Nat) : Except Fault (Bytes × Nat) := do
  let left ← usizeSub rest.length offset
  ensure (nonceLen + 4 ≤ left) (.refused (.corrupt "truncated export chunk"))
  let nonce ← slice rest offset (offset + nonceLen)
  let offset := offset + nonceLen
  let len4 ← slice rest offset (offset + 4)
  let ctLen := leValue len4
  let offset := offset + 4
  ensure (ctLen ≤ chunkBytes + 16) (.refused (.corrupt "implausible export chunk length"))
  let left ← usizeSub rest.length offset
  ensure (ctLen ≤ left) (.refused (.corrupt "truncated export chunk"))
  let ct ← slice rest offset (offset + ctLen)
  let offset := offset + ctLen
  let last := decide (offset = rest.length)
  match P.decrypt key nonce (exportAad id index last) ct with
  | none => refuse (.crypto "wrong passphrase or damaged blob (chunk authentication failed)")
  | some pt =>
    ensure (last ∨ pt.length = chunkBytes) (.refused (.corrupt "short non-final export chunk (spliced blob?)"))
    pure (pt, offset)

def readChunks (key id : Bytes) (chunkBytes : Nat) (rest : Bytes) :
    Nat → Nat → Nat → Bytes → Except Fault Bytes
  | 0, _, _, _ => .error .panic
  | fuel + 1, offset, index, plaintext =>
    if rest.length ≤ offset then .ok plaintext
    else do
      let (pt, offset) ← readChunk P key id chunkBytes rest offset index
      readChunks key id chunkBytes rest fuel offset (index + 1) (plaintext ++ pt)

def legalPath (path : String) : Bool :=
  !(path.toList.isEmpty || path.toList.head? = some '/' || path.toList.contains '\\' ||
    path.toList.contains '\x00' || path.toList.contains ':' ||
    (path.toList.splitOn '/').any fun c => c.isEmpty || c = ['.'] || c = ['.', '.'])

/-- The offset moved past `n` bytes of the payload. -/
def take (pt : Bytes) (offset n : Nat) (what : String) : Except Fault Nat := do
  let left ← usizeSub pt.length offset
  ensure (n ≤ left) (.refused (.corrupt s!"truncated export payload ({what})"))
  pure (offset + n)

def parseEntry (pt : Bytes) (offset : Nat) : Except Fault (ExportEntry × Nat) := do
  let start := offset
  let offset ← take pt offset 2 "entry path length"
  let len2 ← slice pt start (start + 2)
  let pathLen := leValue len2
  let start := offset
  let offset ← take pt offset pathLen "entry path"
  let raw ← slice pt start offset
  match fromUtf8 raw with
  | none => refuse (.corrupt "entry path is not UTF-8")
  | some path =>
    ensure (legalPath path) (.refused (.corrupt s!"illegal entry path `{path}`"))
    let start := offset
    let offset ← take pt offset 8 "entry data length"
    let len8 ← slice pt start (start + 8)
    let dataLen := leValue len8
    ensure (dataLen ≤ P.usizeMax) (.refused (.corrupt "implausible entry length"))
    let start := offset
    let offset ← take pt offset dataLen "entry data"
    let data ← slice pt start offset
    pure (⟨path, data⟩, offset)

def parseEntries (pt : Bytes) : Nat → Nat → Except Fault (List ExportEntry)
  | 0, _ => .error .panic
  | fuel + 1, offset =>
    if pt.length ≤ offset then .ok []
    else do
      let (entry, offset) ← parseEntry P pt offset
      let rest ← parseEntries pt fuel offset
      pure (entry :: rest)

def parsePayload (pt : Bytes) : Except Fault (ExportMeta × List ExportEntry) := do
  let offset ← take pt 0 4 "meta length"
  let len4 ← slice pt 0 4
  let metaLen := leValue len4
  ensure (metaLen ≤ importMetaMax) (.refused (.corrupt "implausible export meta length"))
  let start := offset
  let offset ← take pt offset metaLen "meta"
  let raw ← slice pt start offset
  let info ← (P.decodeMeta raw).mapError fun e => .refused (.corrupt s!"export meta: {e}")
  let entries ← parseEntries P pt (pt.length + 1) offset
  ensure (entries.length = info.files.toNat)
    (.refused (.corrupt "entry count does not match the authenticated meta"))
  pure (info, entries)

def checkHierarchy (header : ExportHeader) (info : ExportMeta) : Except StorageError Unit :=
  match (hexDecode info.workspaceKey).filter fun v => v.length = 32 with
  | none => .error (.corrupt "export meta carries no valid workspace key")
  | some wsKey =>
    match info.seed with
    | none => .ok ()
    | some seedHex =>
      match hexDecode seedHex with
      | none => .error (.corrupt s!"export meta seed: {P.hexError seedHex}")
      | some seed =>
        if deriveWorkspaceKey P seed header.workspaceId ≠ wsKey then
          .error (.crypto "blob is internally inconsistent (key hierarchy)")
        else .ok ()

def orRefuse {α : Type} (x : Except StorageError α) : Except Fault α := x.mapError Fault.refused

def readExport (input : Bytes) (secret : ExportSecret) : Except Fault ExportArchive := do
  let (header, headerBytes, rest) ← readHeader P input
  let id ← orRefuse (idBytes P header.workspaceId)
  let kRoot ← orRefuse (rootKey P header id secret)
  let key := P.hkdf32 kRoot "molt-export-stream-v1" headerBytes
  ensure (rest ≠ []) (.refused (.corrupt "truncated export (missing final chunk)"))
  let plaintext ← readChunks P key id header.chunkBytes rest (rest.length + 1) 0 0 []
  let (info, entries) ← parsePayload P plaintext
  orRefuse (checkHierarchy P header info)
  pure ⟨header, info, entries⟩

end

end Molt.Storage
