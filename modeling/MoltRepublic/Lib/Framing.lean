import Mathlib

/-! Self-delimiting encoders. An encoder is delimited when what it wrote can be
read back in one way whatever follows; the layouts of the chain are sequences of
such fields, so their injectivity is read off field by field. -/

namespace Molt.Framing
open List

variable {α β : Type*}

/-- On the values that meet `P`, an encoding and what follows it are read in one way. -/
def Delimited (P : α → Prop) (e : α → List β) : Prop :=
  ∀ ⦃a b : α⦄ ⦃r s : List β⦄, P a → P b → e a ++ r = e b ++ s → a = b ∧ r = s

variable {P : α → Prop} {e : α → List β}

theorem Delimited.of_length (hlen : ∀ a b, P a → P b → (e a).length = (e b).length)
    (hinj : ∀ a b, P a → P b → e a = e b → a = b) : Delimited P e := by
  intro a b r s ha hb h
  obtain ⟨he, hr⟩ := append_inj h (hlen a b ha hb)
  exact ⟨hinj a b ha hb he, hr⟩

theorem Delimited.mono {Q : α → Prop} (h : Delimited Q e) (hPQ : ∀ a, P a → Q a) : Delimited P e :=
  fun _ _ _ _ ha hb he => h (hPQ _ ha) (hPQ _ hb) he

theorem Delimited.injective (h : Delimited P e) {a b : α} (ha : P a) (hb : P b) (he : e a = e b) : a = b :=
  (h ha hb (r := []) (s := []) (by simpa using he)).1

theorem Delimited.run (h : Delimited P e) {xs ys : List α} {r s : List β} (hx : ∀ x ∈ xs, P x)
    (hy : ∀ y ∈ ys, P y) (hlen : xs.length = ys.length) (he : xs.flatMap e ++ r = ys.flatMap e ++ s) :
    xs = ys ∧ r = s := by
  induction xs generalizing ys with
  | nil =>
    cases ys with
    | nil => exact ⟨rfl, by simpa using he⟩
    | cons y ys => simp at hlen
  | cons x xs ih =>
    cases ys with
    | nil => simp at hlen
    | cons y ys =>
      rw [flatMap_cons, flatMap_cons, append_assoc, append_assoc] at he
      obtain ⟨rfl, hrest⟩ := h (hx x (.head _)) (hy y (.head _)) he
      obtain ⟨rfl, hr⟩ := ih (fun a ha => hx a (.tail _ ha))
        (fun a ha => hy a (.tail _ ha)) (by simpa using hlen) hrest
      exact ⟨rfl, hr⟩

theorem Delimited.counted {count : Nat → List β} {N : Nat → Prop} (hcount : Delimited N count)
    (h : Delimited P e) :
    Delimited (fun xs : List α => N xs.length ∧ ∀ x ∈ xs, P x)
      (fun xs => count xs.length ++ xs.flatMap e) := by
  intro xs ys r s hx hy he
  simp only [append_assoc] at he
  obtain ⟨hlen, hrest⟩ := hcount hx.1 hy.1 he
  exact h.run hx.2 hy.2 hlen hrest

theorem Delimited.run_until (h : Delimited P e) {T : List β → Prop} (hT : ∀ a r s, P a → T s → e a ++ r ≠ s)
    {xs ys : List α} {r s : List β} (hx : ∀ x ∈ xs, P x) (hy : ∀ y ∈ ys, P y) (hr : T r) (hs : T s)
    (he : xs.flatMap e ++ r = ys.flatMap e ++ s) : xs = ys ∧ r = s := by
  induction xs generalizing ys with
  | nil =>
    cases ys with
    | nil => exact ⟨rfl, by simpa using he⟩
    | cons y ys =>
      rw [flatMap_cons, append_assoc, flatMap_nil, nil_append] at he
      exact absurd he.symm (hT y _ _ (hy y (.head _)) hr)
  | cons x xs ih =>
    cases ys with
    | nil =>
      rw [flatMap_cons, append_assoc, flatMap_nil, nil_append] at he
      exact absurd he (hT x _ _ (hx x (.head _)) hs)
    | cons y ys =>
      rw [flatMap_cons, flatMap_cons, append_assoc, append_assoc] at he
      obtain ⟨rfl, hrest⟩ := h (hx x (.head _)) (hy y (.head _)) he
      obtain ⟨rfl, hrs⟩ := ih (fun a ha => hx a (.tail _ ha))
        (fun a ha => hy a (.tail _ ha)) hrest
      exact ⟨rfl, hrs⟩

theorem Delimited.pair {γ δ : Type*} {P : γ → Prop} {Q : δ → Prop} {e : γ → List β}
    {f : δ → List β} {p : α → γ} {q : α → δ} (he : Delimited P e) (hf : Delimited Q f)
    (hpq : ∀ a b, p a = p b → q a = q b → a = b) :
    Delimited (fun a => P (p a) ∧ Q (q a)) (fun a => e (p a) ++ f (q a)) := by
  intro a b r s ha hb h
  simp only [append_assoc] at h
  obtain ⟨hp, h⟩ := he ha.1 hb.1 h
  obtain ⟨hq, h⟩ := hf ha.2 hb.2 h
  exact ⟨hpq a b hp hq, h⟩

theorem tag_ne_tag {p q : List β} (hpq : ¬ p <+: q) (hqp : ¬ q <+: p) (r s : List β) :
    p ++ r ≠ q ++ s := by
  intro h
  have hp : p <+: q ++ s := h ▸ prefix_append p r
  rcases prefix_or_prefix_of_prefix hp (prefix_append q s) with hle | hle
  · exact hpq hle
  · exact hqp hle

end Molt.Framing

namespace Molt

def leBytes : Nat → Nat → List UInt8
  | 0, _ => []
  | k + 1, n => UInt8.ofNat n :: leBytes k (n / 256)

@[simp] theorem leBytes_length (k n : Nat) : (leBytes k n).length = k := by
  induction k generalizing n with
  | zero => rfl
  | succ k ih => simp [leBytes, ih]

theorem leBytes_injective {k a b : Nat} (ha : a < 256 ^ k) (hb : b < 256 ^ k)
    (h : leBytes k a = leBytes k b) : a = b := by
  induction k generalizing a b with
  | zero => simp only [Nat.pow_zero] at ha hb; omega
  | succ k ih =>
    simp only [leBytes, List.cons.injEq] at h
    obtain ⟨hlow, hhigh⟩ := h
    have hdiv : a / 256 = b / 256 := by
      refine ih ?_ ?_ hhigh
      · rw [Nat.div_lt_iff_lt_mul (by decide), ← Nat.pow_succ]; exact ha
      · rw [Nat.div_lt_iff_lt_mul (by decide), ← Nat.pow_succ]; exact hb
    have hmod : a % 256 = b % 256 := by
      have := congrArg UInt8.toNat hlow
      simpa [UInt8.toNat_ofNat'] using this
    omega

def leValue : List UInt8 → Nat
  | [] => 0
  | b :: bs => b.toNat + 256 * leValue bs

theorem leValue_leBytes {k n : Nat} (h : n < 256 ^ k) : leValue (leBytes k n) = n := by
  induction k generalizing n with
  | zero => simp only [Nat.pow_zero] at h; simp only [leBytes, leValue]; omega
  | succ k ih =>
    have hdiv : n / 256 < 256 ^ k := by
      rw [Nat.pow_succ'] at h
      exact Nat.div_lt_of_lt_mul h
    rw [leBytes, leValue, ih hdiv, UInt8.toNat_ofNat']
    omega

theorem leBytes_leValue (raw : List UInt8) : leBytes raw.length (leValue raw) = raw := by
  induction raw with
  | nil => rfl
  | cons b raw ih =>
    have hb := b.toNat_lt
    have hdiv : (b.toNat + 256 * leValue raw) / 256 = leValue raw := by omega
    have hlow : UInt8.ofNat (b.toNat + 256 * leValue raw) = b := by
      apply UInt8.toNat_inj.mp
      rw [UInt8.toNat_ofNat']
      omega
    rw [List.length_cons, leBytes, leValue, hdiv, hlow, ih]

theorem leValue_lt (raw : List UInt8) : leValue raw < 256 ^ raw.length := by
  induction raw with
  | nil => simp [leValue]
  | cons b raw ih =>
    have hb := b.toNat_lt
    rw [List.length_cons, leValue, Nat.pow_succ]
    omega

theorem leBytes_delimited (k : Nat) :
    Framing.Delimited (fun n => n < 256 ^ k) (leBytes k) :=
  Framing.Delimited.of_length (fun _ _ _ _ => by simp) (fun _ _ ha hb => leBytes_injective ha hb)

end Molt
