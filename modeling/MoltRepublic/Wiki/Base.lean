import Mathlib
import MoltRepublic.Vault.Canonical
import MoltRepublic.Wiki.Fold

/-! The ratified tree on its way to another holder: the reader of its canonical bytes
(`wiki_base_from_canonical_bytes`). -/

namespace Molt.Wiki
open Molt.Core Text Json Framing Check Vault List

def readText (what : String) (rest : List UInt8) : Except String (String × List UInt8) := do
  let (raw, rest) ← readField what rest
  match fromUtf8 raw with
  | some text => return (text, rest)
  | none => throw s!"{what} is not utf-8"

def decodeEntries : Nat → Tree → List UInt8 → Except String (Tree × List UInt8)
  | 0, tree, rest => .ok (tree, rest)
  | n + 1, tree, rest => do
    let (path, rest) ← readText "a path" rest
    let (content, rest) ← readText "a document" rest
    decodeEntries n (tree.insert path content) rest

def wikiBaseFromCanonicalBytes (bytes : List UInt8) : Except String Tree := do
  let head := tag "molt-wiki-base-v1"
  ensure (bytes.take head.length = head) "not a molt-wiki-base-v1 stream"
  let (count, rest) ← readU64 "the entry count" (bytes.drop head.length)
  let (tree, rest) ← decodeEntries count SortedMap.empty rest
  ensure (rest = []) "trailing bytes after the tree"
  return tree

def putEntry (e : String × String) : List UInt8 := putStr e.1 ++ putStr e.2

structure Framed (tree : Tree) : Prop where
  count : tree.entries.length < 2 ^ 64
  fields : ∀ e ∈ tree.entries, StrFits e.1 ∧ StrFits e.2

section

theorem putEntry_delimited : Delimited (fun e => StrFits e.1 ∧ StrFits e.2) putEntry :=
  putStr_delimited.pair putStr_delimited fun _ _ => Prod.ext

theorem readText_append {text : String} (h : StrFits text) (what : String) (r : List UInt8) :
    readText what (putStr text ++ r) = .ok (text, r) := by
  unfold readText putStr
  rw [readField_append h]
  change (match fromUtf8 (utf8 text) with
    | some text => .ok (text, r)
    | none => .error s!"{what} is not utf-8") = (.ok (text, r) : Except String (String × List UInt8))
  rw [fromUtf8_utf8]

theorem readText_eq_ok {what text : String} {s r : List UInt8} (h : readText what s = .ok (text, r)) :
    s = putStr text ++ r ∧ StrFits text := by
  obtain ⟨⟨raw, rest⟩, hfield, hnext⟩ := bind_eq_ok.mp h
  obtain ⟨hs, hlen⟩ := readField_eq_ok hfield
  dsimp only at hnext
  split at hnext
  · rename_i read hread
    obtain ⟨htext, hr⟩ := Prod.mk.inj (pure_eq_ok.mp hnext)
    subst htext hr
    have hraw := utf8_of_fromUtf8 hread
    unfold putStr StrFits
    rw [hraw]
    exact ⟨hs, hlen⟩
  · exact absurd hnext (by simp [throw, throwThe, MonadExceptOf.throw])

theorem decodeEntries_append {l : List (String × String)} (h : ∀ e ∈ l, StrFits e.1 ∧ StrFits e.2)
    (tree : Tree) (r : List UInt8) : decodeEntries l.length tree (l.flatMap putEntry ++ r) =
      .ok (l.foldl (fun t e => t.insert e.1 e.2) tree, r) := by
  induction l generalizing tree with
  | nil => rfl
  | cons e l ih =>
    obtain ⟨hpath, hcontent⟩ := h e (.head _)
    rw [length_cons, decodeEntries, flatMap_cons, putEntry, append_assoc, append_assoc,
      readText_append hpath]
    simp only [Bind.bind, Except.bind, readText_append hcontent]
    exact ih (fun a ha => h a (.tail _ ha)) _

variable {tree : Tree}

theorem decodeEntries_eq_ok {n : Nat} {after : Tree} {s r : List UInt8}
    (h : decodeEntries n tree s = .ok (after, r)) : ∃ l : List (String × String), l.length = n ∧
      s = l.flatMap putEntry ++ r ∧ ∀ e ∈ l, StrFits e.1 ∧ StrFits e.2 := by
  induction n generalizing tree s with
  | zero =>
    obtain ⟨-, hr⟩ := Prod.mk.inj (Except.ok.inj h)
    exact ⟨[], rfl, hr, by simp⟩
  | succ n ih =>
    obtain ⟨⟨path, rest⟩, hpath, hnext⟩ := bind_eq_ok.mp h
    obtain ⟨⟨content, rest'⟩, hcontent, hnext⟩ := bind_eq_ok.mp hnext
    obtain ⟨l, hlen, hrest, hfits⟩ := ih hnext
    obtain ⟨hs, hpath⟩ := readText_eq_ok hpath
    obtain ⟨hs', hcontent⟩ := readText_eq_ok hcontent
    refine ⟨(path, content) :: l, by rw [length_cons, hlen], ?_, ?_⟩
    · rw [hs, hs', hrest, flatMap_cons, putEntry, append_assoc, append_assoc]
    · exact forall_mem_cons.mpr ⟨⟨hpath, hcontent⟩, hfits⟩

theorem foldl_insert_entries (tree : Tree) :
    tree.entries.foldl (fun t e => t.insert e.1 e.2) (SortedMap.empty : Tree) = tree := by
  have hentries : ∀ (l : List (String × String)) (t : Tree),
      (l.foldl (fun t e => t.insert e.1 e.2) t).entries =
        l.foldl (fun m e => insertEntry e.1 e.2 m) t.entries := by
    intro l
    induction l with
    | nil => intro t; rfl
    | cons e l ih => intro t; exact ih (t.insert e.1 e.2)
  apply SortedMap.ext
  rw [hentries]
  exact foldl_insertEntry tree.ascending

theorem wikiBaseFromCanonicalBytes_canonical (h : Framed tree) :
    wikiBaseFromCanonicalBytes (wikiBaseCanonicalBytes tree) = .ok tree := by
  have hread := decodeEntries_append h.fields SortedMap.empty []
  rw [append_nil, foldl_insert_entries] at hread
  unfold wikiBaseFromCanonicalBytes wikiBaseCanonicalBytes
  dsimp only
  have hentries : (tree.entries.flatMap fun e => putStr e.1 ++ putStr e.2) = tree.entries.flatMap putEntry := rfl
  rw [hentries]
  simp [putLen, readU64_append h.count, hread, Bind.bind, Except.bind, ensure, pure, Except.pure]

theorem wikiBaseFromCanonicalBytes_eq_ok {bytes : List UInt8}
    (h : wikiBaseFromCanonicalBytes bytes = .ok tree) : ∃ l : List (String × String),
      l.length < 256 ^ 8 ∧ (∀ e ∈ l, StrFits e.1 ∧ StrFits e.2) ∧
        bytes = tag "molt-wiki-base-v1" ++ (leBytes 8 l.length ++ l.flatMap putEntry) := by
  obtain ⟨_, htag, hnext⟩ := bind_eq_ok.mp h
  obtain ⟨⟨count, rest⟩, hcount, hnext⟩ := bind_eq_ok.mp hnext
  obtain ⟨⟨after, rest'⟩, hentries, hnext⟩ := bind_eq_ok.mp hnext
  obtain ⟨_, hend, -⟩ := bind_eq_ok.mp hnext
  have hend : rest' = [] := ensure_eq_ok.mp hend
  obtain ⟨hdrop, hlt⟩ := readU64_eq_ok hcount
  obtain ⟨l, hlen, hrest, hfits⟩ := decodeEntries_eq_ok hentries
  rw [← hlen] at hdrop hlt
  refine ⟨l, hlt, hfits, ?_⟩
  conv_lhs => rw [← take_append_drop (tag "molt-wiki-base-v1").length bytes]
  rw [ensure_eq_ok.mp htag, hdrop, hrest, hend, append_nil]

theorem wikiBaseCanonicalBytes_eq (tree : Tree) : wikiBaseCanonicalBytes tree =
    tag "molt-wiki-base-v1" ++ (leBytes 8 tree.entries.length ++ tree.entries.flatMap putEntry) :=
  append_assoc ..

theorem counted_delimited : Delimited
    (fun l : List (String × String) => l.length < 256 ^ 8 ∧ ∀ e ∈ l, StrFits e.1 ∧ StrFits e.2)
    (fun l => leBytes 8 l.length ++ l.flatMap putEntry) :=
  (leBytes_delimited 8).counted putEntry_delimited

theorem wikiBaseFromCanonicalBytes_only {other : Tree} (hframed : Framed tree) {bytes : List UInt8}
    (h : wikiBaseFromCanonicalBytes bytes = .ok other)
    (hpart : bytes <+: wikiBaseCanonicalBytes tree ∨ wikiBaseCanonicalBytes tree <+: bytes) :
    bytes = wikiBaseCanonicalBytes tree := by
  obtain ⟨l, hlt, hfits, hbytes⟩ := wikiBaseFromCanonicalBytes_eq_ok h
  have hends : ∀ r s, bytes ++ r = wikiBaseCanonicalBytes tree ++ s → r = s := by
    intro r s he
    rw [wikiBaseCanonicalBytes_eq, hbytes, append_assoc, append_assoc] at he
    exact (counted_delimited ⟨hlt, hfits⟩ ⟨hframed.count, hframed.fields⟩ (append_cancel_left he)).2
  rcases hpart with ⟨r, hr⟩ | ⟨r, hr⟩
  · have hnil : r = [] := hends r [] (by rw [hr, append_nil])
    rw [← hr, hnil, append_nil]
  · have hnil : [] = r := hends [] r (by rw [hr, append_nil])
    rw [← hr, ← hnil, append_nil]

theorem decodeEntries_overrun {n : Nat} {s : List UInt8} (h : s.length < 8 * n) (read : Tree × List UInt8) :
    decodeEntries n tree s ≠ .ok read := by
  intro hread
  obtain ⟨l, hlen, hs, -⟩ := decodeEntries_eq_ok hread
  have hleast : 8 * l.length ≤ (l.flatMap putEntry).length := by
    apply length_flatMap_ge
    intro e _
    unfold putEntry putStr
    rw [length_append, putBytes_length, putBytes_length]
    omega
  rw [hs, length_append] at h
  omega

end

end Molt.Wiki
