import Mathlib

/-! Checked steps: functions that refuse with an error, and runs of them over a list. -/

namespace Molt.Check
open List

universe u v w
variable {ε : Type u} {α β σ τ : Type v} {ι : Type w}

def ensure (p : Prop) [Decidable p] (e : ε) : Except ε PUnit := if p then .ok ⟨⟩ else .error e

variable {x : Except ε α} {b : β}

theorem bind_eq_ok {f : α → Except ε β} :
    (x >>= f) = .ok b ↔ ∃ a, x = .ok a ∧ f a = .ok b := by
  cases x with
  | error e | ok a => simp [Bind.bind, Except.bind]

variable {a : α}

theorem pure_eq_ok {b : α} : (pure a : Except ε α) = .ok b ↔ a = b := by
  simp [pure, Except.pure]

theorem ensure_eq_ok {p : Prop} [Decidable p] {e : ε} {u : PUnit.{v + 1}} :
    ensure p e = .ok u ↔ p := by
  unfold ensure
  split_ifs with h <;> simp [h]

theorem map_eq_ok {f : α → β} : x.map f = .ok b ↔ ∃ a, x = .ok a ∧ f a = b := by
  cases x with
  | error e | ok a => simp [Except.map]

theorem mapM_eq_ok_mem {ι : Type w} {f : ι → Except ε α} {l : List ι} {r : List α}
    (h : l.mapM f = .ok r) : ∀ b ∈ r, ∃ a ∈ l, f a = .ok b := by
  induction l generalizing r with
  | nil =>
    obtain rfl := pure_eq_ok.mp (mapM_nil (f := f) ▸ h)
    simp
  | cons a l ih =>
    rw [mapM_cons] at h
    simp only [bind_eq_ok] at h
    obtain ⟨b, hb, bs, hbs, h⟩ := h
    obtain rfl := pure_eq_ok.mp h
    intro c hc
    rcases mem_cons.mp hc with rfl | hc
    · exact ⟨a, .head _, hb⟩
    · obtain ⟨d, hd, heq⟩ := ih hbs c hc
      exact ⟨d, .tail _ hd, heq⟩

theorem mapM_eq_ok_getElem {ι : Type w} {f : ι → Except ε α} {l : List ι} {r : List α}
    (h : l.mapM f = .ok r) :
    r.length = l.length ∧ ∀ (i : Nat) (a : ι), l[i]? = some a → ∃ b, f a = .ok b ∧ r[i]? = some b := by
  induction l generalizing r with
  | nil =>
    obtain rfl := pure_eq_ok.mp (mapM_nil (f := f) ▸ h)
    simp
  | cons a l ih =>
    rw [mapM_cons] at h
    simp only [bind_eq_ok] at h
    obtain ⟨b, hb, bs, hbs, h⟩ := h
    obtain rfl := pure_eq_ok.mp h
    obtain ⟨hlen, hat⟩ := ih hbs
    refine ⟨congrArg Nat.succ hlen, ?_⟩
    intro i c hc
    cases i with
    | zero =>
      obtain rfl : a = c := Option.some.inj hc
      exact ⟨b, hb, rfl⟩
    | succ i => exact hat i c hc

theorem forM_eq_ok {ι : Type w} {f : ι → Except ε PUnit.{v + 1}} {l : List ι} {u : PUnit.{v + 1}}
    (h : l.forM f = .ok u) : ∀ a ∈ l, f a = .ok ⟨⟩ := by
  induction l with
  | nil => simp
  | cons a l ih =>
    obtain ⟨_, ha, hl⟩ := bind_eq_ok.mp h
    exact forall_mem_cons.mpr ⟨ha, ih hl⟩

theorem forM_of_forall {ι : Type w} {f : ι → Except ε PUnit.{v + 1}} {l : List ι}
    (h : ∀ a ∈ l, f a = .ok ⟨⟩) : l.forM f = .ok ⟨⟩ := by
  induction l with
  | nil => rfl
  | cons a l ih =>
    rw [forall_mem_cons] at h
    exact bind_eq_ok.mpr ⟨⟨⟩, h.1, ih h.2⟩

theorem mapError_eq_ok {δ : Type u} {f : ε → δ} :
    x.mapError f = .ok a ↔ x = .ok a := by
  cases x <;> simp [Except.mapError]

variable {f : σ → ι → Except ε σ} {g : τ → ι → Except ε τ} {s t : σ}

theorem foldlM_nil_eq_ok : [].foldlM f s = .ok t ↔ s = t := by
  rw [foldlM_nil, pure_eq_ok]

variable {l : List ι}

theorem foldlM_cons_eq_ok {a : ι} :
    (a :: l).foldlM f s = .ok t ↔ ∃ r, f s a = .ok r ∧ l.foldlM f r = .ok t := by
  rw [foldlM_cons, bind_eq_ok]

theorem foldlM_append_eq_ok {k : List ι} :
    (l ++ k).foldlM f s = .ok t ↔ ∃ r, l.foldlM f s = .ok r ∧ k.foldlM f r = .ok t := by
  rw [foldlM_append, bind_eq_ok]

theorem foldlM_concat_eq_ok {a : ι} :
    (l ++ [a]).foldlM f s = .ok t ↔ ∃ r, l.foldlM f s = .ok r ∧ f r a = .ok t := by
  rw [foldlM_append_eq_ok]
  simp only [foldlM_cons_eq_ok, foldlM_nil_eq_ok, exists_eq_right]

theorem foldlM_invariant {P : σ → Prop} (hstep : ∀ s a t, a ∈ l → P s → f s a = .ok t → P t) (hs : P s)
    (h : l.foldlM f s = .ok t) : P t := by
  induction l generalizing s with
  | nil => exact foldlM_nil_eq_ok.mp h ▸ hs
  | cons a l ih =>
    obtain ⟨r, ha, hl⟩ := foldlM_cons_eq_ok.mp h
    exact ih (fun s b t hb => hstep s b t (.tail _ hb))
      (hstep s a r (.head _) hs ha) hl

theorem foldlM_history {P : List ι → σ → Prop} (hstep : ∀ k s a t, P k s → f s a = .ok t → P (k ++ [a]) t)
    {k : List ι} (hs : P k s) (h : l.foldlM f s = .ok t) : P (k ++ l) t := by
  induction l generalizing k s with
  | nil => simpa [foldlM_nil_eq_ok.mp h] using hs
  | cons a l ih =>
    obtain ⟨r, ha, hl⟩ := foldlM_cons_eq_ok.mp h
    simpa using ih (hstep k s a r hs ha) hl

theorem foldlM_simulation {R : σ → τ → Prop} {s' : τ}
    (hstep : ∀ s s' a t, a ∈ l → R s s' → f s a = .ok t → ∃ t', g s' a = .ok t' ∧ R t t') (hs : R s s')
    (h : l.foldlM f s = .ok t) : ∃ t', l.foldlM g s' = .ok t' ∧ R t t' := by
  induction l generalizing s s' with
  | nil => exact ⟨s', foldlM_nil_eq_ok.mpr rfl, foldlM_nil_eq_ok.mp h ▸ hs⟩
  | cons a l ih =>
    obtain ⟨r, ha, hl⟩ := foldlM_cons_eq_ok.mp h
    obtain ⟨r', ha', hr⟩ := hstep s s' a r (.head _) hs ha
    obtain ⟨t', hl', ht⟩ := ih (fun s s' b t hb => hstep s s' b t (.tail _ hb)) hr hl
    exact ⟨t', foldlM_cons_eq_ok.mpr ⟨r', ha', hl'⟩, ht⟩

theorem foldlM_congr {f' : σ → ι → Except ε σ} (h : ∀ a ∈ l, ∀ s, f s a = f' s a) :
    l.foldlM f s = l.foldlM f' s := by
  induction l generalizing s with
  | nil => rfl
  | cons a l ih =>
    rw [foldlM_cons, foldlM_cons, h a (.head _) s]
    congr 1
    funext r
    exact ih fun b hb => h b (.tail _ hb)

def Agree (R : α → β → Prop) : Except ε α → Except ε β → Prop
  | .ok a, .ok b => R a b
  | .error _, .error _ => True
  | _, _ => False

theorem Agree.refl : Agree Eq x x := by
  cases x with
  | error e => trivial
  | ok a => exact rfl

theorem Agree.eq_ok_iff {y : Except ε α} (h : Agree Eq x y) : x = .ok a ↔ y = .ok a := by
  cases x <;> cases y <;> simp_all [Agree]

variable {R : α → β → Prop} {y : Except ε β}

theorem Agree.of_ok (h : ∀ a, x = .ok a → ∃ b, y = .ok b ∧ R a b) (h' : ∀ b, y = .ok b → ∃ a, x = .ok a) :
    Agree R x y := by
  cases x with
  | error e =>
    cases y with
    | error e' => trivial
    | ok b =>
      obtain ⟨a, ha⟩ := h' b rfl
      cases ha
  | ok a =>
    obtain ⟨b, rfl, hab⟩ := h a rfl
    exact hab

theorem Agree.exists_ok (h : Agree R x y) (ha : x = .ok a) : ∃ b, y = .ok b ∧ R a b := by
  subst ha
  cases y with
  | error e => exact h.elim
  | ok b => exact ⟨b, rfl, h⟩

theorem Agree.exists_ok' (h : Agree R x y) (hb : y = .ok b) : ∃ a, x = .ok a ∧ R a b := by
  subst hb
  cases x with
  | error e => exact h.elim
  | ok a => exact ⟨a, rfl, h⟩

theorem Agree.bind {α' β' : Type v} {S : α' → β' → Prop} {p : α → Except ε α'} {q : β → Except ε β'}
    (h : Agree R x y) (hnext : ∀ a b, R a b → Agree S (p a) (q b)) : Agree S (x >>= p) (y >>= q) := by
  cases x with
  | error e =>
    cases y with
    | error e' => trivial
    | ok b => exact h.elim
  | ok a =>
    cases y with
    | error e' => exact h.elim
    | ok b => exact hnext a b h

end Molt.Check
