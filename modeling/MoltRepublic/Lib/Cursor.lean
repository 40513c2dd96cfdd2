import Mathlib
import MoltRepublic.Lib.Framing

/-! Strict readers of a layout. A reader is the codec of a writer when it accepts, of all bytes,
the ones that were written, and gives back what they were written from; then what is accepted is
canonical, and nothing shorter or longer is. -/

namespace Molt
open Option

abbrev Cursor (α : Type) := StateT (List UInt8) Option α

namespace Cursor

variable {α β σ : Type}

def take (n : ℕ) : Cursor (List UInt8) := fun bytes =>
  if bytes.length < n then none else some (bytes.take n, bytes.drop n)

def array (n : ℕ) : Cursor (Vector UInt8 n) := fun bytes =>
  if h : n ≤ bytes.length then some (⟨(bytes.take n).toArray, by simp [h]⟩, bytes.drop n) else none

/-- A number of `k` bytes, the lowest first. -/
def number (k : ℕ) : Cursor ℕ := do return leValue (← take k)

def bytes : Cursor (List UInt8) := do take (← number 4)

def check (p : Prop) [Decidable p] : Cursor Unit := if p then pure () else failure

def orFail : Option α → Cursor α
  | some a => pure a
  | none => failure

/-- A step made `n` times. -/
def loop (step : σ → Cursor σ) : ℕ → σ → Cursor σ
  | 0, s => pure s
  | n + 1, s => do loop step n (← step s)

def whole (read : Cursor α) (bytes : List UInt8) : Option α :=
  match read bytes with
  | some (a, []) => some a
  | _ => none

/-- The reader accepts what the writer wrote of the values that meet `P`. -/
def Codec (read : Cursor α) (P : α → Prop) (write : α → List UInt8) : Prop :=
  ∀ bytes a rest, read bytes = some (a, rest) ↔ P a ∧ bytes = write a ++ rest

section

theorem bind_eq_some {x : Cursor α} {f : α → Cursor β} {bytes rest : List UInt8} {b : β} :
    (x >>= f) bytes = some (b, rest) ↔ ∃ a mid, x bytes = some (a, mid) ∧ f a mid = some (b, rest) := by
  show (x bytes).bind _ = _ ↔ _
  rw [bind_eq_some_iff]
  simp

theorem pure_eq_some {a b : α} {bytes rest : List UInt8} :
    (pure a : Cursor α) bytes = some (b, rest) ↔ a = b ∧ bytes = rest := by
  show some (a, bytes) = _ ↔ _
  simp

theorem check_eq_some {p : Prop} [Decidable p] {bytes rest : List UInt8} {u : Unit} :
    check p bytes = some (u, rest) ↔ p ∧ bytes = rest := by
  unfold check
  split_ifs with hp
  · rw [pure_eq_some]
    simp [hp]
  · exact iff_of_false nofun fun h => hp h.1

theorem orFail_eq_some {o : Option α} {a : α} {bytes rest : List UInt8} :
    orFail o bytes = some (a, rest) ↔ o = some a ∧ bytes = rest := by
  cases o with
  | none => exact iff_of_false nofun fun h => nomatch h.1
  | some b =>
    unfold orFail
    rw [pure_eq_some, Option.some.injEq]

theorem take_eq_some {n : ℕ} {bytes part rest : List UInt8} :
    take n bytes = some (part, rest) ↔ part.length = n ∧ bytes = part ++ rest := by
  unfold take
  split_ifs with hshort
  · refine iff_of_false nofun ?_
    rintro ⟨rfl, rfl⟩
    rw [List.length_append] at hshort
    omega
  · constructor
    · intro h
      cases Option.some.inj h
      exact ⟨List.length_take_of_le (Nat.not_lt.mp hshort), (List.take_append_drop n bytes).symm⟩
    · rintro ⟨rfl, rfl⟩
      simp

theorem array_codec (n : ℕ) : Codec (array n) (fun _ => True) Vector.toList := by
  intro bytes v rest
  unfold array
  split_ifs with hlong
  · constructor
    · intro h
      cases Option.some.inj h
      exact ⟨trivial, by simp [Vector.toList]⟩
    · rintro ⟨-, rfl⟩
      have hlen : v.toList.length = n := by simp
      have htake : (v.toList ++ rest).take n = v.toList := by
        rw [List.take_append_of_le_length hlen.ge, List.take_of_length_le hlen.le]
      have hdrop : (v.toList ++ rest).drop n = rest := List.drop_left' hlen
      simp only [htake, hdrop, Option.some.injEq, Prod.mk.injEq, and_true]
      exact Vector.toList_inj.mp (by simp [Vector.toList])
  · refine iff_of_false nofun ?_
    rintro ⟨-, rfl⟩
    simp at hlong

theorem number_codec (k : ℕ) : Codec (number k) (fun n => n < 256 ^ k) (leBytes k) := by
  intro bytes n rest
  unfold number
  rw [bind_eq_some]
  simp only [take_eq_some, pure_eq_some]
  constructor
  · rintro ⟨part, mid, ⟨rfl, rfl⟩, rfl, rfl⟩
    exact ⟨leValue_lt part, by rw [leBytes_leValue]⟩
  · rintro ⟨hn, rfl⟩
    exact ⟨leBytes k n, rest, ⟨leBytes_length k n, rfl⟩, leValue_leBytes hn, rfl⟩

theorem bytes_codec : Codec bytes (fun b => b.length < 256 ^ 4) fun b => leBytes 4 b.length ++ b := by
  intro all b rest
  unfold bytes
  rw [bind_eq_some]
  simp only [number_codec 4 _, take_eq_some]
  constructor
  · rintro ⟨_, mid, ⟨hlen, rfl⟩, rfl, rfl⟩
    exact ⟨hlen, by rw [List.append_assoc]⟩
  · rintro ⟨hlen, rfl⟩
    exact ⟨b.length, b ++ rest, ⟨hlen, by rw [List.append_assoc]⟩, rfl, rfl⟩

end

section
variable {push : σ → α → σ} {Ok : σ → α → Prop} {write : α → List UInt8}

def Steps (push : σ → α → σ) (Ok : σ → α → Prop) : σ → List α → Prop
  | _, [] => True
  | s, a :: entries => Ok s a ∧ Steps push Ok (push s a) entries

theorem steps_concat {s : σ} {entries : List α} {a : α} :
    Steps push Ok s (entries ++ [a]) ↔ Steps push Ok s entries ∧ Ok (entries.foldl push s) a := by
  induction entries generalizing s with
  | nil => simp [Steps]
  | cons b entries ih => rw [List.cons_append, Steps, Steps, ih, List.foldl_cons, and_assoc]

theorem loop_eq_some {step : σ → Cursor σ}
    (hstep : ∀ s bytes s' rest, step s bytes = some (s', rest) ↔
      ∃ a, Ok s a ∧ push s a = s' ∧ bytes = write a ++ rest)
    {n : ℕ} {s s' : σ} {bytes rest : List UInt8} :
    loop step n s bytes = some (s', rest) ↔
      ∃ entries : List α, entries.length = n ∧ Steps push Ok s entries ∧ entries.foldl push s = s' ∧
        bytes = entries.flatMap write ++ rest := by
  induction n generalizing s bytes with
  | zero =>
    unfold loop
    rw [pure_eq_some]
    constructor
    · rintro ⟨rfl, rfl⟩
      exact ⟨[], rfl, trivial, rfl, rfl⟩
    · rintro ⟨entries, hlen, -, hfold, rfl⟩
      obtain rfl := List.length_eq_zero_iff.mp hlen
      exact ⟨hfold, rfl⟩
  | succ n ih =>
    unfold loop
    rw [bind_eq_some]
    simp only [hstep, ih]
    constructor
    · rintro ⟨_, _, ⟨a, ha, rfl, rfl⟩, entries, rfl, hsteps, hfold, rfl⟩
      exact ⟨a :: entries, rfl, ⟨ha, hsteps⟩, hfold, by rw [List.flatMap_cons, List.append_assoc]⟩
    · rintro ⟨entries, hlen, hsteps, hfold, rfl⟩
      cases entries with
      | nil => cases hlen
      | cons a entries =>
        exact ⟨_, _, ⟨a, hsteps.1, rfl, by rw [List.flatMap_cons, List.append_assoc]⟩, entries, Nat.succ.inj hlen,
          hsteps.2, hfold, rfl⟩

end

section
variable {read : Cursor α} {P : α → Prop} {write : α → List UInt8}

theorem Codec.whole_eq_some (h : Codec read P write) {bytes : List UInt8} {a : α} :
    whole read bytes = some a ↔ P a ∧ bytes = write a := by
  have hread : whole read bytes = some a ↔ read bytes = some (a, []) := by
    unfold whole
    split
    · rename_i heq
      rw [heq]
      simp
    · rename_i hno
      exact iff_of_false nofun fun heq => hno a heq
  rw [hread, h, List.append_nil]

theorem Codec.strict (h : Codec read P write) {a : α} (ha : P a) {part more : List UInt8} (hmore : more ≠ []) :
    (write a = part ++ more → whole read part = none) ∧ whole read (write a ++ more) = none := by
  have halone : ∀ b, P b → write a ≠ write b ++ more := by
    intro b hb heq
    have hlong : read (write a) = some (b, more) := (h _ _ _).mpr ⟨hb, heq⟩
    have hfull : read (write a) = some (a, []) := (h _ _ _).mpr ⟨ha, (List.append_nil _).symm⟩
    rw [hfull] at hlong
    exact hmore (Prod.mk.inj (Option.some.inj hlong)).2.symm
  refine ⟨fun heq => eq_none_iff_forall_not_mem.mpr fun b hb => ?_,
    eq_none_iff_forall_not_mem.mpr fun b hb => ?_⟩
  · obtain ⟨hPb, rfl⟩ := h.whole_eq_some.mp hb
    exact halone b hPb heq
  · obtain ⟨hPb, heq⟩ := h.whole_eq_some.mp hb
    have hlong : read (write b) = some (a, more) := (h _ _ _).mpr ⟨ha, heq.symm⟩
    have hfull : read (write b) = some (b, []) := (h _ _ _).mpr ⟨hPb, (List.append_nil _).symm⟩
    rw [hfull] at hlong
    exact hmore (Prod.mk.inj (Option.some.inj hlong)).2.symm

/-- What is encoded comes back, what is accepted is an encoding, and an encoding has neither a
proper beginning nor a continuation that is accepted. -/
structure Canonical (write : α → List UInt8) (parse : List UInt8 → Option α) (Ok : α → Prop) : Prop where
  back : ∀ a, Ok a → parse (write a) = some a
  again : ∀ bytes a, parse bytes = some a → write a = bytes
  short : ∀ a part more, Ok a → more ≠ [] → write a = part ++ more → parse part = none
  long : ∀ a more, Ok a → more ≠ [] → parse (write a ++ more) = none

theorem Codec.canonical {Ok : α → Prop} (h : Codec read P write) (hok : ∀ a, Ok a → P a) :
    Canonical write (whole read) Ok where
  back a ha := h.whole_eq_some.mpr ⟨hok a ha, rfl⟩
  again _ _ ha := (h.whole_eq_some.mp ha).2.symm
  short a _ _ ha hmore heq := (h.strict (hok a ha) hmore).1 heq
  long a more ha hmore := (@Codec.strict _ _ _ _ h a (hok a ha) more more hmore).2

end

end Cursor

end Molt
