import Mathlib
import MoltRepublic.Lib.Framing

/-! The string operations of the Rust standard library and of the `hex` crate that
the modelled functions call, on Lean strings and on their UTF-8 bytes. -/

namespace Molt.Text
open List Nat

def utf8 (s : String) : List UInt8 := s.toByteArray.data.toList

theorem utf8_injective {s t : String} (h : utf8 s = utf8 t) : s = t := by
  apply String.toByteArray_inj.mp
  apply ByteArray.ext
  exact Array.toList_inj.mp h

/-- `String::from_utf8`. -/
def fromUtf8 (raw : List UInt8) : Option String := String.fromUTF8? ⟨raw.toArray⟩

theorem fromUtf8_utf8 (s : String) : fromUtf8 (utf8 s) = some s := by
  have hbytes : (⟨(utf8 s).toArray⟩ : ByteArray) = s.toByteArray := by
    unfold utf8
    rw [Array.toArray_toList]
  unfold fromUtf8 String.fromUTF8?
  rw [hbytes, dif_pos s.isValidUTF8]
  rfl

theorem utf8_of_fromUtf8 {raw : List UInt8} {s : String} (h : fromUtf8 raw = some s) : utf8 s = raw := by
  unfold fromUtf8 String.fromUTF8? at h
  split_ifs at h with hvalid
  cases h
  rfl

/-- `char::is_whitespace`: the Unicode `White_Space` property. -/
def isWhitespace (c : Char) : Bool :=
  let n := c.toNat
  (9 ≤ n && n ≤ 13) || n == 0x20 || n == 0x85 || n == 0xA0 || n == 0x1680 ||
    (0x2000 ≤ n && n ≤ 0x200A) || n == 0x2028 || n == 0x2029 || n == 0x202F ||
    n == 0x205F || n == 0x3000

/-- The maximal runs of characters that are not white space; `acc` is the run being
read, last character first. -/
def wordsFrom : List Char → List Char → List (List Char)
  | [], acc => if acc.isEmpty then [] else [acc.reverse]
  | c :: cs, acc =>
    if isWhitespace c then
      if acc.isEmpty then wordsFrom cs [] else acc.reverse :: wordsFrom cs []
    else wordsFrom cs (c :: acc)

def splitWhitespace (s : String) : List String := (wordsFrom s.toList []).map String.ofList

def trim (s : String) : String :=
  String.ofList (((s.toList.dropWhile isWhitespace).reverse.dropWhile isWhitespace).reverse)

def digitsValue : List Char → Nat → Option Nat
  | [], acc => some acc
  | c :: cs, acc =>
    if '0' ≤ c && c ≤ '9' then digitsValue cs (acc * 10 + (c.toNat - '0'.toNat)) else none

/-- `str::parse::<u64>`: an optional `+`, at least one digit, no overflow. -/
def parseU64 (s : String) : Option UInt64 :=
  let digits := match s.toList with
    | '+' :: cs => cs
    | cs => cs
  if digits.isEmpty then none
  else match digitsValue digits 0 with
    | some n => if n < 2 ^ 64 then some (UInt64.ofNat n) else none
    | none => none

variable {cs : List Char}

theorem digitsValue_digits (h : ∀ c ∈ cs, c.isDigit = true) (acc : Nat) :
    digitsValue cs acc = some (Nat.ofDigitChars 10 cs acc) := by
  induction cs generalizing acc with
  | nil => rfl
  | cons c cs ih =>
    have hc : ('0' ≤ c && c ≤ '9') = true := by
      have hdigit := h c (.head _)
      simpa [Char.isDigit, Char.le_def] using hdigit
    rw [digitsValue, if_pos hc, ih fun d hd => h d (.tail _ hd), ofDigitChars_cons,
      Nat.mul_comm 10 acc]

theorem parseU64_digits (hne : cs ≠ []) (h : ∀ c ∈ cs, c.isDigit = true) :
    parseU64 (String.ofList cs) =
      if Nat.ofDigitChars 10 cs 0 < 2 ^ 64 then some (UInt64.ofNat (Nat.ofDigitChars 10 cs 0)) else none := by
  unfold parseU64
  rw [String.toList_ofList]
  extract_lets digits
  have hdigits : digits = cs := by
    unfold digits
    split
    · have hsign := h '+' (.head _)
      simp [Char.isDigit] at hsign
    · rfl
  have hlist : ¬ digits.isEmpty = true := by simpa [hdigits] using hne
  rw [if_neg hlist, hdigits, digitsValue_digits h]

def isAsciiHexdigit (b : UInt8) : Bool :=
  (48 ≤ b && b ≤ 57) || (97 ≤ b && b ≤ 102) || (65 ≤ b && b ≤ 70)

def isLowerHexdigit (b : UInt8) : Bool := (48 ≤ b && b ≤ 57) || (97 ≤ b && b ≤ 102)

theorem isAsciiHexdigit_of_lower {b : UInt8} (h : isLowerHexdigit b = true) :
    isAsciiHexdigit b = true := by
  simp only [isLowerHexdigit, isAsciiHexdigit, Bool.or_eq_true] at h ⊢
  exact .inl h

def hexValue (b : UInt8) : Option UInt8 :=
  if 48 ≤ b && b ≤ 57 then some (b - 48)
  else if 97 ≤ b && b ≤ 102 then some (b - 87)
  else if 65 ≤ b && b ≤ 70 then some (b - 55)
  else none

def hexDecodeBytes : List UInt8 → Option (List UInt8)
  | [] => some []
  | [_] => none
  | a :: b :: rest => do
    let hi ← hexValue a
    let lo ← hexValue b
    let tail ← hexDecodeBytes rest
    pure ((hi * 16 + lo) :: tail)

def hexDecode (s : String) : Option (List UInt8) := hexDecodeBytes (utf8 s)

def hexDigit (n : UInt8) : Char :=
  if n < 10 then Char.ofNat (48 + n.toNat) else Char.ofNat (87 + n.toNat)

def hexEncode (bs : List UInt8) : String :=
  String.ofList (bs.flatMap fun b => [hexDigit (b / 16), hexDigit (b % 16)])

theorem utf8_ofList (cs : List Char) :
    utf8 (String.ofList cs) = cs.flatMap String.utf8EncodeChar := by
  simp [utf8, List.utf8Encode]

theorem length_utf8_le (s : String) : s.toList.length ≤ (utf8 s).length := by
  have hflat : ∀ cs : List Char, cs.length ≤ (cs.flatMap String.utf8EncodeChar).length := by
    intro cs
    induction cs with
    | nil => exact le_rfl
    | cons c cs ih =>
      have hone : 1 ≤ (String.utf8EncodeChar c).length := by
        rw [String.length_utf8EncodeChar]
        exact Char.utf8Size_pos c
      rw [flatMap_cons, length_append, length_cons]
      omega
  rw [← String.ofList_toList (s := s), utf8_ofList, String.toList_ofList]
  exact hflat s.toList

theorem hexDigit_value : ∀ n : Fin 16,
    (String.utf8EncodeChar (hexDigit (UInt8.ofNat n))).map hexValue = [some (UInt8.ofNat n)] := by
  decide

theorem hexValue_hexDigit {n : UInt8} (h : n < 16) :
    ∃ b, String.utf8EncodeChar (hexDigit n) = [b] ∧ hexValue b = some n := by
  have hn : n.toNat < 16 := UInt8.lt_iff_toNat_lt.mp h
  have hspec := hexDigit_value ⟨n.toNat, hn⟩
  simp only [UInt8.ofNat_toNat] at hspec
  obtain ⟨b, hb, hv⟩ := map_eq_singleton_iff.mp hspec
  exact ⟨b, hb, hv⟩

variable (bs : List UInt8)

theorem hexDecode_hexEncode : hexDecode (hexEncode bs) = some bs := by
  rw [hexDecode, hexEncode, utf8_ofList, flatMap_assoc]
  induction bs with
  | nil => rfl
  | cons b bs ih =>
    have hhi : b / 16 < 16 := by
      rw [UInt8.lt_iff_toNat_lt, UInt8.toNat_div]
      have := b.toNat_lt
      simp
      omega
    have hlo : b % 16 < 16 := by
      exact mod_lt _ (by decide)
    have hbyte : b / 16 * 16 + b % 16 = b := by
      apply UInt8.toNat_inj.mp
      have := b.toNat_lt
      simp
      omega
    obtain ⟨x, hx, hxv⟩ := hexValue_hexDigit hhi
    obtain ⟨y, hy, hyv⟩ := hexValue_hexDigit hlo
    simp only [flatMap_cons, flatMap_nil, append_nil] at ih ⊢
    simp only [hx, hy, cons_append, nil_append, hexDecodeBytes, hxv, hyv,
      Option.bind_eq_bind, Option.bind_some, ih, hbyte]
    rfl

theorem hexEncode_injective {a b : List UInt8} (h : hexEncode a = hexEncode b) : a = b := by
  have hdecode := congrArg hexDecode h
  rw [hexDecode_hexEncode, hexDecode_hexEncode] at hdecode
  exact Option.some.inj hdecode

theorem mem_hexEncode {bs : List UInt8} {c : Char} (h : c ∈ (hexEncode bs).toList) :
    ∃ n : Fin 16, c = hexDigit (UInt8.ofNat n) := by
  have hnibble : ∀ x : UInt8, x < 16 → ∃ n : Fin 16, hexDigit x = hexDigit (UInt8.ofNat n) := by
    intro x hx
    exact ⟨⟨x.toNat, UInt8.lt_iff_toNat_lt.mp hx⟩, by rw [UInt8.ofNat_toNat]⟩
  simp only [hexEncode, String.toList_ofList, mem_flatMap, mem_cons, not_mem_nil,
    or_false] at h
  obtain ⟨b, _, rfl | rfl⟩ := h
  · apply hnibble
    rw [UInt8.lt_iff_toNat_lt, UInt8.toNat_div]
    have := b.toNat_lt
    simp
    omega
  · apply hnibble
    exact mod_lt _ (by decide)

theorem hexEncode_all_lower : (utf8 (hexEncode bs)).all isLowerHexdigit = true := by
  have hdigit : ∀ n : Fin 16, (String.utf8EncodeChar (hexDigit (UInt8.ofNat n))).all isLowerHexdigit = true := by
    decide +kernel
  rw [all_eq_true]
  intro b hb
  have hchars : b ∈ (hexEncode bs).toList.flatMap String.utf8EncodeChar := by
    rw [← utf8_ofList, String.ofList_toList]
    exact hb
  obtain ⟨c, hc, hbc⟩ := mem_flatMap.mp hchars
  obtain ⟨n, rfl⟩ := mem_hexEncode hc
  exact all_eq_true.mp (hdigit n) b hbc

theorem hexDecodeBytes_length {raw bs : List UInt8} (h : hexDecodeBytes raw = some bs) :
    raw.length = bs.length * 2 := by
  induction raw using hexDecodeBytes.induct generalizing bs with
  | case1 =>
    obtain rfl : [] = bs := Option.some.inj h
    rfl
  | case2 a => simp [hexDecodeBytes] at h
  | case3 a b rest ih =>
    simp only [hexDecodeBytes, Option.bind_eq_bind, Option.bind_eq_some_iff] at h
    obtain ⟨hi, _, lo, _, tail, htail, h⟩ := h
    cases h
    simp only [length_cons, ih htail]
    omega

def stripPrefixChars : List Char → List Char → Option (List Char)
  | [], cs => some cs
  | _ :: _, [] => none
  | p :: ps, c :: cs => if p = c then stripPrefixChars ps cs else none

def stripPrefix (p s : String) : Option String :=
  (stripPrefixChars p.toList s.toList).map String.ofList

theorem stripPrefixChars_append (p cs : List Char) : stripPrefixChars p (p ++ cs) = some cs := by
  induction p with
  | nil => rfl
  | cons c p ih =>
    rw [cons_append, stripPrefixChars, if_pos rfl, ih]

theorem stripPrefixChars_eq_some {pat rest : List Char} :
    stripPrefixChars pat cs = some rest ↔ cs = pat ++ rest := by
  induction pat generalizing cs with
  | nil => simp [stripPrefixChars, eq_comm]
  | cons p pat ih =>
    cases cs with
    | nil => simp [stripPrefixChars]
    | cons c cs =>
      rw [stripPrefixChars]
      split
      · rename_i heq
        rw [ih, heq, cons_append, List.cons.injEq, and_iff_right rfl]
      · rename_i hne
        simp only [reduceCtorEq, cons_append, List.cons.injEq, false_iff, not_and]
        exact fun h _ => hne h.symm

def splitOnceChars (d : Char) : List Char → Option (List Char × List Char)
  | [] => none
  | c :: cs =>
    if c = d then some ([], cs)
    else (splitOnceChars d cs).map fun (a, b) => (c :: a, b)

theorem splitOnceChars_append {d : Char} {l : List Char} (h : d ∉ l) (r : List Char) :
    splitOnceChars d (l ++ d :: r) = some (l, r) := by
  induction l with
  | nil => simp [splitOnceChars]
  | cons c l ih =>
    have hc : c ≠ d := fun hcd => h (hcd ▸ .head _)
    rw [cons_append, splitOnceChars, if_neg hc, ih fun hm => h (.tail _ hm)]
    rfl

def pairLe (a b : String × String) : Prop := a.1 < b.1 ∨ a.1 = b.1 ∧ a.2 ≤ b.2

instance : DecidableRel pairLe := fun a b => by unfold pairLe; infer_instance

def sortPairs (l : List (String × String)) : List (String × String) := l.insertionSort pairLe

end Molt.Text
