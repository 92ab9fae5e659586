/-
  Cwhip.Lib.Except

  Inversion of computations in `Except`: a computation that returns took each
  of its steps and passed each of its checks.
-/

import Mathlib.Init

namespace Cwhip.Lib

open List (mapM_cons mapM_nil map_cons mem_cons_of_mem mem_cons_self)

/-- How a reader stops without a result. -/
inductive Stop (ε : Type) where
  | diagnostic (error : ε)
  | pastEnd
  | endless

universe u v

variable {ε : Type u} {α β : Type v}

/-- Continue only if `c` holds. -/
def ensure (c : Prop) [Decidable c] (e : ε) : Except ε Unit :=
  if c then .ok () else .error e

variable {c : Prop} {e refused : ε} {x : Except ε α} {f : α → Except ε β} {a : α} {l : List α}
  {bs : List β} {γ : Type v} {p : α → Prop}

/-- A check passes exactly if its condition holds. -/
theorem ensure_eq_ok [Decidable c] {u : Unit} :
    ensure c e = .ok u ↔ c := by
  unfold ensure
  split
  · simp [*]
  · simp [*]

/-- A sequence returns exactly if both its parts do. -/
theorem bind_eq_ok {b : β} :
    (x >>= f) = .ok b ↔ ∃ a, x = .ok a ∧ f a = .ok b := by
  cases x with
  | ok a | error e => simp [bind, Except.bind]

theorem pure_eq_ok {b : α} : (pure a : Except ε α) = .ok b ↔ a = b := by
  simp [pure, Except.pure]

theorem exists_ok_of_isOk (h : x.isOk = true) : ∃ a, x = .ok a := by
  cases x with
  | ok a => exact ⟨a, rfl⟩
  | error e => cases h

theorem mapError_eq_ok {ε' : Type*} {g : ε → ε'} : x.mapError g = .ok a ↔ x = .ok a := by
  cases x with
  | error e => exact iff_of_false (by rintro ⟨⟩) (by rintro ⟨⟩)
  | ok b =>
    show (.ok b : Except ε' α) = .ok a ↔ _
    rw [Except.ok.injEq, Except.ok.injEq]

/-- The value of an option, which must be there. -/
def require (x : Option α) (e : ε) : Except ε α :=
  match x with
  | some a => .ok a
  | none => .error e

theorem require_eq_ok {x : Option α} : require x e = .ok a ↔ x = some a := by
  cases x with
  | some b | none => simp [require]

theorem ok_bind (a : α) (f : α → Except ε β) : (Except.ok a >>= f) = f a := rfl

theorem require_bind (a : α) (e : ε) (f : α → Except ε β) : (require (some a) e >>= f) = f a := rfl

theorem ensure_bind {γ : Type} [Decidable c] (h : c) (e : ε) (f : Unit → Except ε γ) :
    (ensure c e >>= f) = f () := by
  rw [ensure, if_pos h]
  rfl

theorem ensure_bind_error {γ : Type} [Decidable c] (h : ¬ c) (e : ε)
    (f : Unit → Except ε γ) : (ensure c e >>= f) = .error e := by
  rw [ensure, if_neg h]
  rfl

/-! ## Lists of computations -/

theorem mapM_length (h : l.mapM f = .ok bs) :
    bs.length = l.length := by
  induction l generalizing bs with
  | nil =>
    rw [mapM_nil, pure_eq_ok] at h
    rw [← h]
    rfl
  | cons a rest ih =>
    simp only [mapM_cons, bind_eq_ok, pure_eq_ok] at h
    obtain ⟨b, _, bs', hrest, rfl⟩ := h
    rw [List.length_cons, List.length_cons, ih hrest]

theorem mem_mapM (h : l.mapM f = .ok bs) {b : β} (hb : b ∈ bs) : ∃ a ∈ l, f a = .ok b := by
  induction l generalizing bs with
  | nil =>
    rw [mapM_nil, pure_eq_ok] at h
    rw [← h] at hb
    cases hb
  | cons a rest ih =>
    simp only [mapM_cons, bind_eq_ok, pure_eq_ok] at h
    obtain ⟨first, hfirst, others, hothers, rfl⟩ := h
    rcases List.mem_cons.mp hb with rfl | hmem
    · exact ⟨a, mem_cons_self, hfirst⟩
    · obtain ⟨a', ha', hvalue⟩ := ih hothers hmem
      exact ⟨a', mem_cons_of_mem _ ha', hvalue⟩

theorem ok_of_mapM (h : l.mapM f = .ok bs) (ha : a ∈ l) : ∃ b, f a = .ok b := by
  induction l generalizing bs with
  | nil => cases ha
  | cons first rest ih =>
    simp only [mapM_cons, bind_eq_ok] at h
    obtain ⟨b, hb, _, hrest, _⟩ := h
    rcases List.mem_cons.mp ha with rfl | hmem
    · exact ⟨b, hb⟩
    · exact ih hrest hmem

theorem mapM_map_eq {γ : Type*} (h : l.mapM f = .ok bs) {p : β → γ} {q : α → γ}
    (hpq : ∀ a b, f a = .ok b → p b = q a) :
    bs.map p = l.map q := by
  induction l generalizing bs with
  | nil =>
    rw [mapM_nil, pure_eq_ok] at h
    rw [← h]
    rfl
  | cons a rest ih =>
    simp only [mapM_cons, bind_eq_ok, pure_eq_ok] at h
    obtain ⟨first, hfirst, others, hothers, rfl⟩ := h
    rw [map_cons, map_cons, hpq a first hfirst, ih hothers]

theorem mapM_perm {l' : List α} (hperm : l.Perm l')
    (h : l.mapM f = .ok bs) : ∃ bs', l'.mapM f = .ok bs' ∧ bs.Perm bs' := by
  induction hperm generalizing bs with
  | nil => exact ⟨bs, h, List.Perm.refl bs⟩
  | cons a _ ih =>
    simp only [mapM_cons, bind_eq_ok, pure_eq_ok] at h ⊢
    obtain ⟨b, hb, rest, hrest, rfl⟩ := h
    obtain ⟨rest', hrest', hperm⟩ := ih hrest
    exact ⟨b :: rest', ⟨b, hb, rest', hrest', rfl⟩, hperm.cons b⟩
  | swap a a' _ =>
    simp only [mapM_cons, bind_eq_ok, pure_eq_ok] at h ⊢
    obtain ⟨b, hb, _, ⟨b', hb', rest, hrest, rfl⟩, rfl⟩ := h
    exact ⟨b' :: b :: rest, ⟨b', hb', _, ⟨b, hb, rest, hrest, rfl⟩, rfl⟩, List.Perm.swap b' b rest⟩
  | trans _ _ ih ih' =>
    obtain ⟨bs', h', hperm⟩ := ih h
    obtain ⟨bs'', h'', hperm'⟩ := ih' h'
    exact ⟨bs'', h'', hperm.trans hperm'⟩

theorem mapM_ok_iff {g : α → Except ε β} (h : l.mapM f = .ok bs) :
    l.mapM g = .ok bs ↔ ∀ a ∈ l, g a = f a := by
  induction l generalizing bs with
  | nil => simpa using h
  | cons a rest ih =>
    simp only [mapM_cons, bind_eq_ok, pure_eq_ok] at h ⊢
    obtain ⟨b, hb, bs', hrest, rfl⟩ := h
    rw [List.forall_mem_cons, ← ih hrest, hb]
    simp

theorem mapM_checked {valid : α → Prop} {g : α → β}
    (hf : ∀ {a b}, f a = .ok b ↔ valid a ∧ g a = b) :
    l.mapM f = .ok bs ↔ (∀ a ∈ l, valid a) ∧ l.map g = bs := by
  induction l generalizing bs with
  | nil => simp [pure_eq_ok]
  | cons a l ih =>
    rw [mapM_cons, map_cons, List.forall_mem_cons]
    simp only [bind_eq_ok, pure_eq_ok, hf, ih]
    constructor
    · rintro ⟨_, ⟨ha, rfl⟩, _, ⟨hl, rfl⟩, rfl⟩
      exact ⟨⟨ha, hl⟩, rfl⟩
    · rintro ⟨⟨ha, hl⟩, rfl⟩
      exact ⟨g a, ⟨ha, rfl⟩, l.map g, ⟨hl, rfl⟩, rfl⟩

theorem foldlM_eq_mapM {g : γ → β → γ} {c : γ} :
    l.foldlM (fun c a => f a >>= fun b => pure (g c b)) c
      = (l.mapM f).map (fun bs => bs.foldl g c) := by
  induction l generalizing c with
  | nil => rfl
  | cons a rest ih =>
    rw [List.foldlM_cons, mapM_cons]
    cases f a with
    | error e => rfl
    | ok b =>
      simp only [bind, Except.bind, pure, Except.pure] at ih ⊢
      rw [ih]
      cases rest.mapM f with
      | error e => rfl
      | ok bs => rfl

theorem foldlM_cons_ok {f : γ → α → Except ε γ} {rest : List α} {c c' : γ} :
    (a :: rest).foldlM f c = .ok c' ↔ ∃ c₁, f c a = .ok c₁ ∧ rest.foldlM f c₁ = .ok c' := by
  rw [List.foldlM_cons, bind_eq_ok]

theorem foldlM_rel {f : γ → α → Except ε γ} {R : γ → γ → Prop} (hrefl : ∀ c, R c c)
    (htrans : ∀ c₁ c₂ c₃, R c₁ c₂ → R c₂ c₃ → R c₁ c₃)
    (hstep : ∀ a ∈ l, ∀ c c', f c a = .ok c' → R c c') {c c' : γ} (h : l.foldlM f c = .ok c') :
    R c c' := by
  induction l generalizing c with
  | nil =>
    rw [List.foldlM_nil, pure_eq_ok] at h
    exact h ▸ hrefl c
  | cons a rest ih =>
    obtain ⟨middle, hfirst, hrest⟩ := foldlM_cons_ok.mp h
    exact htrans c middle c' (hstep a mem_cons_self c middle hfirst)
      (ih (fun b hb => hstep b (mem_cons_of_mem _ hb)) hrest)

/-! ## Computations that do not fail in one way -/

/-- The computation does not fail with `e`. -/
def Avoids (e : ε) (x : Except ε α) : Prop := x ≠ .error e

theorem Avoids.ok (a : α) : Avoids e (.ok a) := fun h => nomatch h

theorem Avoids.bind (hx : Avoids e x)
    (hf : ∀ a, x = .ok a → Avoids e (f a)) : Avoids e (x >>= f) := by
  intro h
  cases x with
  | ok a => exact hf a rfl h
  | error e' =>
    have herror : (Except.error e' : Except ε β) = .error e := h
    exact hx (congrArg Except.error (Except.error.inj herror))

theorem Avoids.ensure {e' : ε} (h : e' ≠ e) (c : Prop) [Decidable c] :
    Avoids e (ensure c e') := by
  intro heq
  unfold Lib.ensure at heq
  split at heq
  · cases heq
  · exact h (Except.error.inj heq)

theorem Avoids.require {e' : ε} (h : e' ≠ e) (x : Option α) : Avoids e (require x e') := by
  intro heq
  cases x with
  | some a => cases heq
  | none => exact h (Except.error.inj heq)

theorem Avoids.mapError {ε' : Type*} {g : ε → ε'} {e : ε'} (h : ∀ error, g error ≠ e)
    (x : Except ε α) :
    Avoids e (x.mapError g) := by
  intro heq
  cases x with
  | ok a => cases heq
  | error error => exact h error (Except.error.inj heq)

theorem Avoids.mapM (hf : ∀ a, Avoids e (f a)) (l : List α) :
    Avoids e (l.mapM f) := by
  induction l with
  | nil => exact Avoids.ok []
  | cons a rest ih =>
    rw [mapM_cons]
    exact (hf a).bind fun b _ => ih.bind fun bs _ => Avoids.ok (b :: bs)

theorem foldlM_avoids {f : γ → α → Except ε γ} {I : γ → Prop} (hf : ∀ a ∈ l, ∀ c, I c →
    Avoids e (f c a))
    (hstep : ∀ a ∈ l, ∀ c c', I c → f c a = .ok c' → I c') {c : γ} (hc : I c) :
    Avoids e (l.foldlM f c) := by
  induction l generalizing c with
  | nil => exact Avoids.ok c
  | cons a rest ih =>
    rw [List.foldlM_cons]
    refine (hf a mem_cons_self c hc).bind fun middle hfirst => ?_
    exact ih (fun b hb => hf b (mem_cons_of_mem _ hb)) (fun b hb => hstep b (mem_cons_of_mem _ hb))
      (hstep a mem_cons_self c middle hc hfirst)

/-! ## Computations that do not fail -/

/-- The computation returns. -/
def Succeeds (x : Except ε α) : Prop := ∃ a, x = .ok a

theorem Succeeds.ok (a : α) : Succeeds (.ok a : Except ε α) := ⟨a, rfl⟩

theorem Succeeds.pure (a : α) : Succeeds (pure a : Except ε α) := ⟨a, rfl⟩

theorem Succeeds.bind (hx : Succeeds x)
    (hf : ∀ a, x = .ok a → Succeeds (f a)) : Succeeds (x >>= f) := by
  obtain ⟨a, ha⟩ := hx
  obtain ⟨b, hb⟩ := hf a ha
  exact ⟨b, bind_eq_ok.mpr ⟨a, ha, hb⟩⟩

theorem Succeeds.ite [Decidable c] {y : Except ε α} (hx : Succeeds x) (hy : Succeeds y) :
    Succeeds (if c then x else y) := by
  split
  · exact hx
  · exact hy

theorem mapM_succeeds {f : α → Except ε β} (hf : ∀ a ∈ l, Succeeds (f a)) :
    Succeeds (l.mapM f) := by
  induction l with
  | nil => exact .ok []
  | cons a rest ih =>
    rw [mapM_cons]
    refine (hf a mem_cons_self).bind fun _ _ => ?_
    exact (ih fun b hb => hf b (mem_cons_of_mem _ hb)).bind fun _ _ => .ok _

/-- A fold returns if its invariant lets every step return, and the step keeps it. -/
theorem foldlM_succeeds {f : γ → α → Except ε γ} {I : γ → Prop}
    (hf : ∀ a ∈ l, ∀ c, I c → ∃ c', f c a = .ok c' ∧ I c') {c : γ} (hc : I c) :
    Succeeds (l.foldlM f c) := by
  induction l generalizing c with
  | nil => exact .ok c
  | cons a rest ih =>
    rw [List.foldlM_cons]
    obtain ⟨middle, hfirst, hmiddle⟩ := hf a mem_cons_self c hc
    rw [hfirst, ok_bind]
    exact ih (fun b hb => hf b (mem_cons_of_mem _ hb)) hmiddle

/-! ## Computations that may be refused -/

/-- The computation returns what has the property, or fails with the one error that it may. -/
def Ends (refused : ε) (x : Except ε α) (property : α → Prop) : Prop :=
  match x with
  | .ok a => property a
  | .error e => e = refused

theorem Ends.ok (h : p a) : Ends refused (.ok a) p := h

theorem Ends.pure (h : p a) : Ends refused (pure a : Except ε α) p := h

theorem Ends.of_eq (hx : x = .ok a) (h : p a) :
    Ends refused x p := by
  rw [hx]
  exact h

theorem Ends.returns (h : Ends refused x p) (hx : x = .ok a) : p a := by
  rw [hx] at h
  exact h

theorem Ends.error (h : Ends refused x p) (hx : x = .error e) : e = refused := by
  rw [hx] at h
  exact h

theorem Ends.bind {q : β → Prop} (hx : Ends refused x p)
    (hf : ∀ a, p a → Ends refused (f a) q) : Ends refused (x >>= f) q := by
  cases x with
  | ok a => exact hf a hx
  | error e => exact hx

theorem Ends.bind_ok {q : β → Prop} (hx : x = .ok a)
    (hf : Ends refused (f a) q) : Ends refused (x >>= f) q := by
  rw [hx]
  exact hf

theorem Ends.mono {q : α → Prop} (hx : Ends refused x p)
    (hpq : ∀ a, p a → q a) : Ends refused x q := by
  cases x with
  | ok a => exact hpq a hx
  | error e => exact hx

theorem Ends.ite [Decidable c] {y : Except ε α} (hx : c → Ends refused x p)
    (hy : ¬ c → Ends refused y p) : Ends refused (if c then x else y) p := by
  split
  · next hc => exact hx hc
  · next hc => exact hy hc

theorem Ends.require (x : Option α) : Ends refused (require x refused) fun a => x = some a := by
  cases x with
  | some a => rfl
  | none => rfl

theorem Ends.ensure (c : Prop) [Decidable c] : Ends refused (ensure c refused) fun _ => c := by
  unfold Lib.ensure
  split
  · next hc => exact hc
  · rfl

end Cwhip.Lib
