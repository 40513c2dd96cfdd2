import Mathlib
import MoltRepublic.Core.Json

/-! The printed text determines the value. Numbers are the one kind of value that
does not close itself, so reading one back needs a following byte that is not part of
a number; `Stops` is that condition. -/

namespace Molt.Json
open Text Framing List Nat

def Stops (r : List UInt8) : Prop := ∀ b t, r = b :: t → isNumberByte b = false

theorem stops_nil : Stops [] := fun _ _ h => nomatch h

variable {b : UInt8}

theorem stops_cons (t : List UInt8) (h : isNumberByte b = false) : Stops (b :: t) := by
  intro c u hc
  rw [List.cons.injEq] at hc
  exact hc.1 ▸ h

theorem takeWhile_append_of_stops {l r : List UInt8} (hl : ∀ b ∈ l, isNumberByte b = true)
    (hr : Stops r) : (l ++ r).takeWhile isNumberByte = l := by
  rw [takeWhile_append_of_pos hl]
  cases r with
  | nil => simp
  | cons b t => simp [hr b t rfl]

theorem number_bytes_split {l m r s : List UInt8} (hl : ∀ b ∈ l, isNumberByte b = true)
    (hm : ∀ b ∈ m, isNumberByte b = true) (hr : Stops r) (hs : Stops s)
    (h : l ++ r = m ++ s) : l = m ∧ r = s := by
  have hlm : l = m := by
    rw [← takeWhile_append_of_stops hl hr, h, takeWhile_append_of_stops hm hs]
  subst hlm
  exact ⟨rfl, append_cancel_left h⟩

theorem digit_byte {c : Char} (h : c.isDigit = true) :
    isNumberByte (UInt8.ofNat c.toNat) = true ∧ isFloatMark (UInt8.ofNat c.toNat) = false ∧
      UInt8.ofNat c.toNat ≠ 45 := by
  have hb : 48 ≤ c.toNat ∧ c.toNat ≤ 57 := by simpa [Char.isDigit, UInt32.le_iff_toNat_le] using h
  have hall : ∀ n : Fin 58, 48 ≤ n.val → isNumberByte (UInt8.ofNat n.val) = true ∧
      isFloatMark (UInt8.ofNat n.val) = false ∧ UInt8.ofNat n.val ≠ 45 := by decide
  exact hall ⟨c.toNat, by omega⟩ hb.1

theorem mem_decimal {n : Nat} (h : b ∈ decimal n) :
    isNumberByte b = true ∧ isFloatMark b = false ∧ b ≠ 45 := by
  obtain ⟨c, hc, rfl⟩ := mem_map.mp h
  exact digit_byte (isDigit_of_mem_toDigits (by decide) (by decide) hc)

theorem digit_toNat {c : Char} (h : c.isDigit = true) : (UInt8.ofNat c.toNat).toNat = c.toNat := by
  have hb : c.toNat ≤ 57 := by
    have : 48 ≤ c.toNat ∧ c.toNat ≤ 57 := by simpa [Char.isDigit, UInt32.le_iff_toNat_le] using h
    exact this.2
  exact mod_eq_of_lt (by omega)

theorem map_digit_injective {l m : List Char} (hl : ∀ c ∈ l, c.isDigit = true)
    (hm : ∀ c ∈ m, c.isDigit = true)
    (h : l.map (fun c => UInt8.ofNat c.toNat) = m.map fun c => UInt8.ofNat c.toNat) : l = m := by
  induction l generalizing m with
  | nil => cases m with
    | nil => rfl
    | cons _ _ => simp at h
  | cons c l ih => cases m with
    | nil => simp at h
    | cons d m =>
      simp only [map_cons, List.cons.injEq] at h
      have hcd : c.toNat = d.toNat := by
        rw [← digit_toNat (hl c (.head _)), h.1,
          digit_toNat (hm d (.head _))]
      rw [Char.toNat_inj.mp hcd, ih (fun x hx => hl x (.tail _ hx))
        (fun x hx => hm x (.tail _ hx)) h.2]

theorem decimal_injective {a b : Nat} (h : decimal a = decimal b) : a = b := by
  have hd := map_digit_injective
    (fun c hc => isDigit_of_mem_toDigits (by decide) (by decide) hc)
    (fun c hc => isDigit_of_mem_toDigits (by decide) (by decide) hc) h
  rw [← ofDigitChars_ten_toDigits (n := a), hd, ofDigitChars_ten_toDigits]

theorem decimal_ne_nil (n : Nat) : decimal n ≠ [] := by
  simp [decimal, toDigits_ne_nil]

theorem Number.bytes_numeric (n : Number) : ∀ b ∈ n.bytes, isNumberByte b = true := by
  intro b hb
  cases n with
  | posInt n => exact (mem_decimal hb).1
  | negInt n =>
    rcases mem_cons.mp hb with rfl | hb
    · decide
    · exact (mem_decimal hb).1
  | float t => exact t.numeric b hb

theorem Number.bytes_ne_nil (n : Number) : n.bytes ≠ [] := by
  cases n with
  | posInt n => exact decimal_ne_nil _
  | negInt n => simp [Number.bytes]
  | float t =>
    obtain ⟨b, hb, _⟩ := t.marked
    exact ne_nil_of_mem hb

theorem Number.not_mark_of_int {n : Number} (h : ∀ t, n ≠ .float t) :
    ∀ b ∈ n.bytes, isFloatMark b = false := by
  intro b hb
  cases n with
  | posInt n => exact (mem_decimal hb).2.1
  | negInt n =>
    rcases mem_cons.mp hb with rfl | hb
    · decide
    · exact (mem_decimal hb).2.1
  | float t => exact absurd rfl (h t)

theorem Number.float_bytes_ne {n : Number} {t : FloatText} (h : ∀ t, n ≠ .float t) :
    n.bytes ≠ t.text := by
  intro he
  obtain ⟨b, hb, hm⟩ := t.marked
  exact absurd hm (by rw [Number.not_mark_of_int h b (he ▸ hb)]; decide)

theorem Number.decimal_ne_neg (a b : Nat) : decimal a ≠ 45 :: decimal b := by
  intro h
  have : (45 : UInt8) ∈ decimal a := h ▸ .head _
  exact (mem_decimal this).2.2 rfl

theorem Number.bytes_injective {m n : Number} (h : m.bytes = n.bytes) : m = n := by
  cases m with
  | posInt a => cases n with
    | posInt b => rw [UInt64.toNat_inj.mp (decimal_injective h)]
    | negInt b => exact absurd h (Number.decimal_ne_neg _ _)
    | float t => exact absurd h (Number.float_bytes_ne (fun _ => by simp))
  | negInt a => cases n with
    | posInt b => exact absurd h.symm (Number.decimal_ne_neg _ _)
    | negInt b =>
      have := decimal_injective (List.cons.inj h).2
      rw [UInt64.toNat_inj.mp (show a.toNat = b.toNat by omega)]
    | float t => exact absurd h (Number.float_bytes_ne (fun _ => by simp))
  | float s => cases n with
    | posInt b | negInt b => exact absurd h.symm (Number.float_bytes_ne (fun _ => by simp))
    | float t => rw [FloatText.ext h]

def unescape : List UInt8 → Option (UInt8 × List UInt8)
  | 92 :: 117 :: _ :: _ :: h :: l :: r =>
    (hexValue h).bind fun h => (hexValue l).map fun l => (h * 16 + l, r)
  | 92 :: 34 :: r => some (34, r)
  | 92 :: 92 :: r => some (92, r)
  | 92 :: 98 :: r => some (8, r)
  | 92 :: 116 :: r => some (9, r)
  | 92 :: 110 :: r => some (10, r)
  | 92 :: 102 :: r => some (12, r)
  | 92 :: 114 :: r => some (13, r)
  | b :: r => if b = 34 then none else some (b, r)
  | [] => none

theorem hexValue_hexByte (h : b < 32) :
    hexValue (hexByte (b / 16)) = some (b / 16) ∧ hexValue (hexByte (b % 16)) = some (b % 16) := by
  have hall : ∀ n : Fin 32, hexValue (hexByte (UInt8.ofNat n / 16)) = some (UInt8.ofNat n / 16) ∧
      hexValue (hexByte (UInt8.ofNat n % 16)) = some (UInt8.ofNat n % 16) := by decide
  have hb : b.toNat < 32 := UInt8.lt_iff_toNat_lt.mp h
  simpa using hall ⟨b.toNat, hb⟩

theorem unescape_escapeByte (b : UInt8) (r : List UInt8) :
    unescape (escapeByte b ++ r) = some (b, r) := by
  unfold escapeByte
  split_ifs with h1 h2 h3 h4 h5 h6 h7 h8
  · subst h1; rfl
  · subst h2; rfl
  · subst h3; rfl
  · subst h4; rfl
  · subst h5; rfl
  · subst h6; rfl
  · subst h7; rfl
  · obtain ⟨hh, hl⟩ := hexValue_hexByte h8
    have hb : b / 16 * 16 + b % 16 = b := by
      have := b.toNat_lt
      apply UInt8.toNat_inj.mp
      simp only [UInt8.toNat_add, UInt8.toNat_mul, UInt8.toNat_div, UInt8.toNat_mod,
        UInt8.reduceToNat]
      omega
    simp [unescape, hh, hl, hb]
  · simp only [cons_append, nil_append]
    unfold unescape
    split <;> simp_all

theorem escapeByte_delimited : Delimited (fun _ => True) escapeByte := by
  intro a b r s _ _ h
  have := congrArg unescape h
  rw [unescape_escapeByte, unescape_escapeByte] at this
  simpa using this

theorem unescape_quote (r : List UInt8) : unescape (34 :: r) = none := by
  simp [unescape]

theorem escaped_delimited {l m r s : List UInt8}
    (h : l.flatMap escapeByte ++ 34 :: r = m.flatMap escapeByte ++ 34 :: s) : l = m ∧ r = s := by
  induction l generalizing m with
  | nil =>
    cases m with
    | nil => simpa using h
    | cons b m =>
      have := congrArg unescape h
      simp [unescape_quote, append_assoc, unescape_escapeByte] at this
  | cons a l ih =>
    cases m with
    | nil =>
      have := congrArg unescape h
      simp [unescape_quote, append_assoc, unescape_escapeByte] at this
    | cons b m =>
      simp only [flatMap_cons, append_assoc] at h
      obtain ⟨rfl, hrest⟩ := escapeByte_delimited trivial trivial h
      obtain ⟨rfl, hr⟩ := ih hrest
      exact ⟨rfl, hr⟩

theorem writeString_delimited : Delimited (fun _ => True) writeString := by
  intro a b r s _ _ h
  simp only [writeString, cons_append, append_assoc, List.cons.injEq, true_and,
    nil_append] at h
  obtain ⟨hab, hrs⟩ := escaped_delimited h
  exact ⟨utf8_injective hab, hrs⟩

def leadKind (b : UInt8) : Nat :=
  if isNumberByte b then 2 else if b = 110 then 0 else if b = 116 ∨ b = 102 then 1
  else if b = 34 then 3 else if b = 91 then 4 else if b = 123 then 5 else 6

def Value.kind : Value → Nat
  | .null => 0
  | .bool _ => 1
  | .num _ => 2
  | .str _ => 3
  | .arr _ => 4
  | .obj _ => 5

theorem toVec_lead (v : Value) : ∃ b t, toVec v = b :: t ∧ leadKind b = v.kind := by
  match v with
  | .null | .bool true | .bool false => exact ⟨_, _, rfl, by decide⟩
  | .num n =>
    obtain ⟨b, t, hbt⟩ := exists_cons_of_ne_nil n.bytes_ne_nil
    have hb : isNumberByte b = true := n.bytes_numeric b (hbt ▸ .head _)
    exact ⟨b, t, hbt, by simp [leadKind, hb, Value.kind]⟩
  | .str _ | .arr [] | .arr (_ :: _) | .obj [] | .obj ((_, _) :: _) => exact ⟨_, _, rfl, rfl⟩

theorem kind_eq_of_toVec {v w : Value} {r s : List UInt8} (h : toVec v ++ r = toVec w ++ s) :
    v.kind = w.kind := by
  obtain ⟨b, t, hv, hb⟩ := toVec_lead v
  obtain ⟨c, u, hw, hc⟩ := toVec_lead w
  rw [hv, hw, cons_append, cons_append, List.cons.injEq] at h
  rw [← hb, ← hc, h.1]

theorem toVec_ne_close {v : Value} {r s : List UInt8} (hb : leadKind b = 6) :
    toVec v ++ r ≠ b :: s := by
  obtain ⟨c, t, hv, hc⟩ := toVec_lead v
  intro h
  rw [hv, cons_append, List.cons.injEq] at h
  rw [h.1, hb] at hc
  cases v <;> simp [Value.kind] at hc

theorem stops_writeItems (vs : List Value) (r : List UInt8) : Stops (writeItems vs ++ r) := by
  cases vs with
  | nil | cons v vs => exact stops_cons _ (by decide)

theorem stops_writeFields (fs : List (String × Value)) (r : List UInt8) :
    Stops (writeFields fs ++ r) := by
  cases fs with
  | nil | cons f fs => exact stops_cons _ (by decide)

mutual
theorem toVec_delimited {v w : Value} {r s : List UInt8} (hr : Stops r) (hs : Stops s)
    (h : toVec v ++ r = toVec w ++ s) : v = w ∧ r = s := by
  have hkind := kind_eq_of_toVec h
  match v, w with
  | .null, .null => simpa [toVec] using h
  | .bool true, .bool true | .bool false, .bool false => simpa [toVec] using h
  | .bool true, .bool false | .bool false, .bool true => simp [toVec] at h
  | .num a, .num b =>
    obtain ⟨hab, hrs⟩ := number_bytes_split a.bytes_numeric b.bytes_numeric hr hs h
    exact ⟨by rw [Number.bytes_injective hab], hrs⟩
  | .str a, .str b =>
    obtain ⟨hab, hrs⟩ := writeString_delimited trivial trivial h
    exact ⟨by rw [hab], hrs⟩
  | .arr [], .arr [] => simpa [toVec] using h
  | .arr (v :: vs), .arr [] =>
    simp only [toVec, cons_append, List.cons.injEq, true_and, append_assoc] at h
    exact absurd h (toVec_ne_close (by decide))
  | .arr [], .arr (w :: ws) =>
    simp only [toVec, cons_append, List.cons.injEq, true_and, append_assoc] at h
    exact absurd h.symm (toVec_ne_close (by decide))
  | .arr (v :: vs), .arr (w :: ws) =>
    simp only [toVec, cons_append, List.cons.injEq, true_and, append_assoc] at h
    obtain ⟨rfl, hrest⟩ := toVec_delimited (stops_writeItems vs r) (stops_writeItems ws s) h
    obtain ⟨rfl, hrs⟩ := writeItems_delimited hrest
    exact ⟨rfl, hrs⟩
  | .obj [], .obj [] => simpa [toVec] using h
  | .obj ((k, v) :: fs), .obj [] => simp [toVec, writeString] at h
  | .obj [], .obj ((k, v) :: fs) => simp [toVec, writeString] at h
  | .obj ((k, v) :: fs), .obj ((l, w) :: gs) =>
    simp only [toVec, cons_append, List.cons.injEq, true_and, append_assoc] at h
    obtain ⟨rfl, hv⟩ := writeString_delimited trivial trivial h
    rw [List.cons.injEq] at hv
    obtain ⟨rfl, hrest⟩ := toVec_delimited (stops_writeFields fs r) (stops_writeFields gs s) hv.2
    obtain ⟨rfl, hrs⟩ := writeFields_delimited hrest
    exact ⟨rfl, hrs⟩

theorem writeItems_delimited {vs ws : List Value} {r s : List UInt8}
    (h : writeItems vs ++ r = writeItems ws ++ s) : vs = ws ∧ r = s := by
  match vs, ws with
  | [], [] => simpa [writeItems] using h
  | v :: vs, [] => simp [writeItems] at h
  | [], w :: ws => simp [writeItems] at h
  | v :: vs, w :: ws =>
    simp only [writeItems, cons_append, List.cons.injEq, true_and, append_assoc] at h
    obtain ⟨rfl, hrest⟩ := toVec_delimited (stops_writeItems vs r) (stops_writeItems ws s) h
    obtain ⟨rfl, hrs⟩ := writeItems_delimited hrest
    exact ⟨rfl, hrs⟩

theorem writeFields_delimited {fs gs : List (String × Value)} {r s : List UInt8}
    (h : writeFields fs ++ r = writeFields gs ++ s) : fs = gs ∧ r = s := by
  match fs, gs with
  | [], [] => simpa [writeFields] using h
  | (k, v) :: fs, [] => simp [writeFields] at h
  | [], (k, v) :: gs => simp [writeFields] at h
  | (k, v) :: fs, (l, w) :: gs =>
    simp only [writeFields, cons_append, List.cons.injEq, true_and, append_assoc] at h
    obtain ⟨rfl, hv⟩ := writeString_delimited trivial trivial h
    rw [List.cons.injEq] at hv
    obtain ⟨rfl, hrest⟩ := toVec_delimited (stops_writeFields fs r) (stops_writeFields gs s) hv.2
    obtain ⟨rfl, hrs⟩ := writeFields_delimited hrest
    exact ⟨rfl, hrs⟩
end

theorem toVec_injective {v w : Value} (h : toVec v = toVec w) : v = w :=
  (toVec_delimited stops_nil stops_nil (by simpa using h)).1

end Molt.Json
