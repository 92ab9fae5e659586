/-
  Cwhip.Lib.Machine

  State machines with labelled steps: runs, reachable states, and the two
  induction rules every development over them needs (an invariant of the
  reachable states, and a preorder that every step respects).
-/

import Mathlib.Logic.Relation

namespace Cwhip.Lib

/-- A state machine: the initial states and the effect of each action, which
    may refuse to take place. -/
structure Machine (σ α ε : Type*) where
  init : σ → Prop
  step : σ → α → Except ε σ

namespace Machine

variable {σ α ε : Type*} (M : Machine σ α ε)

/-- One step, whatever its label. -/
def Next (s s' : σ) : Prop := ∃ a, M.step s a = .ok s'

/-- Any number of steps. -/
def Run : σ → σ → Prop := Relation.ReflTransGen M.Next

/-- The states some run from an initial state ends in. -/
def Reachable (s : σ) : Prop := ∃ s₀, M.init s₀ ∧ M.Run s₀ s

/-- Take the given actions one after the other. -/
def exec : σ → List α → Except ε σ
  | s, [] => .ok s
  | s, a :: as =>
    match M.step s a with
    | .ok s' => exec s' as
    | .error e => .error e

variable {M}

theorem Reachable.step {s s' : σ} {a : α} (h : M.Reachable s) (hs : M.step s a = .ok s') :
    M.Reachable s' := by
  obtain ⟨s₀, h₀, hrun⟩ := h
  exact ⟨s₀, h₀, hrun.tail ⟨a, hs⟩⟩

theorem Run.exec {s s' : σ} {as : List α} (h : M.exec s as = .ok s') : M.Run s s' := by
  induction as generalizing s with
  | nil =>
    cases h
    exact .refl
  | cons a as ih =>
    unfold Machine.exec at h
    cases hs : M.step s a with
    | ok s₁ =>
      rw [hs] at h
      exact .head ⟨a, hs⟩ (ih h)
    | error e =>
      rw [hs] at h
      cases h

theorem Reachable.exec {s s' : σ} {as : List α} (h : M.init s) (hs : M.exec s as = .ok s') :
    M.Reachable s' :=
  ⟨s, h, Run.exec hs⟩

/-- What every step keeps a run keeps. -/
theorem Run.preserves {I : σ → Prop} (hstep : ∀ s a s', I s → M.step s a = .ok s' → I s')
    {s s' : σ} (hrun : M.Run s s') (hs : I s) : I s' := by
  induction hrun with
  | refl => exact hs
  | tail _ hnext ih =>
    obtain ⟨a, ha⟩ := hnext
    exact hstep _ a _ ih ha

/-- What holds initially and is kept holds in every reachable state. -/
theorem Reachable.invariant {I : σ → Prop} (hinit : ∀ s, M.init s → I s)
    (hstep : ∀ s a s', I s → M.step s a = .ok s' → I s') {s : σ} (h : M.Reachable s) : I s := by
  obtain ⟨s₀, h₀, hrun⟩ := h
  exact hrun.preserves hstep (hinit s₀ h₀)

theorem Run.monotone {I : σ → Prop} {R : σ → σ → Prop}
    (hinv : ∀ s a s', I s → M.step s a = .ok s' → I s') (hrefl : ∀ s, R s s)
    (htrans : ∀ s₁ s₂ s₃, R s₁ s₂ → R s₂ s₃ → R s₁ s₃)
    (hstep : ∀ s a s', I s → M.step s a = .ok s' → R s s')
    {s s' : σ} (hrun : M.Run s s') (hs : I s) : R s s' := by
  induction hrun with
  | refl => exact hrefl s
  | tail hpre hnext ih =>
    obtain ⟨a, ha⟩ := hnext
    exact htrans _ _ _ ih (hstep _ a _ (Run.preserves hinv hpre hs) ha)

/-- Every action of a run satisfies `P` in the state it is taken in. -/
def Along (M : Machine σ α ε) (P : σ → α → Prop) : σ → List α → Prop
  | _, [] => True
  | s, a :: as => P s a ∧
    match M.step s a with
    | .ok s' => M.Along P s' as
    | .error _ => True

theorem along_congr {I : σ → Prop} {P Q : σ → α → Prop}
    (hinv : ∀ s a s', I s → M.step s a = .ok s' → I s') (hiff : ∀ s a, I s → (P s a ↔ Q s a))
    {s : σ} {as : List α} (hs : I s) : M.Along P s as ↔ M.Along Q s as := by
  induction as generalizing s with
  | nil => exact Iff.rfl
  | cons a as ih =>
    unfold Along
    refine and_congr (hiff s a hs) ?_
    cases hnext : M.step s a with
    | ok s' => exact ih (hinv s a s' hs hnext)
    | error e => exact Iff.rfl

theorem Along.last {P : σ → α → Prop} {s₀ s : σ} {as : List α} {a : α}
    (h : M.Along P s₀ (as ++ [a])) (hexec : M.exec s₀ as = .ok s) : P s a := by
  induction as generalizing s₀ with
  | nil =>
    cases hexec
    exact h.1
  | cons first rest ih =>
    unfold Machine.exec at hexec
    rw [List.cons_append, Along] at h
    cases hnext : M.step s₀ first with
    | ok s₁ =>
      rw [hnext] at hexec h
      exact ih h.2 hexec
    | error e =>
      rw [hnext] at hexec
      cases hexec

/-- What steps keep under a condition a run keeps that meets it at each step. -/
theorem exec_invariant_along {I : σ → Prop} {P : σ → α → Prop}
    (hstep : ∀ s a s', I s → P s a → M.step s a = .ok s' → I s') {s s' : σ} {as : List α} (hs : I s)
    (halong : M.Along P s as) (hexec : M.exec s as = .ok s') : I s' := by
  induction as generalizing s with
  | nil =>
    cases hexec
    exact hs
  | cons a as ih =>
    unfold Machine.exec at hexec
    obtain ⟨ha, halong⟩ := halong
    cases hnext : M.step s a with
    | ok s₁ =>
      rw [hnext] at hexec halong
      exact ih (hstep s a s₁ hs ha hnext) halong hexec
    | error e =>
      rw [hnext] at hexec
      cases hexec

/-- Where each step keeps `Q` exactly under `P`, so does a run. -/
theorem exec_iff_along {I Q : σ → Prop} {P : σ → α → Prop}
    (hinv : ∀ s a s', I s → M.step s a = .ok s' → I s')
    (hstep : ∀ s a s', I s → M.step s a = .ok s' → (Q s' ↔ Q s ∧ P s a))
    {s s' : σ} {as : List α} (hs : I s) (hexec : M.exec s as = .ok s') :
    Q s' ↔ Q s ∧ M.Along P s as := by
  induction as generalizing s with
  | nil =>
    cases hexec
    simp [Along]
  | cons a as ih =>
    unfold Machine.exec at hexec
    cases ha : M.step s a with
    | ok s₁ =>
      rw [ha] at hexec
      rw [ih (hinv s a s₁ hs ha) hexec, hstep s a s₁ hs ha, Along, ha, and_assoc]
    | error e =>
      rw [ha] at hexec
      cases hexec

end Machine

end Cwhip.Lib
