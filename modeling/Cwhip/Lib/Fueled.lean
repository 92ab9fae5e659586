/-
  Cwhip.Lib.Fueled

  Recursion without a bound, run with fuel.

  Where the arguments descend and no chain of them is endless, enough fuel makes
  the recursion return; in a finite graph that is where no cycle can be reached.
-/

import Mathlib.Data.Fintype.Card
import Mathlib.Logic.Relation
import Mathlib.Order.Filter.AtTopBot.Basic
import Mathlib.Order.Filter.Finite

namespace Cwhip.Lib

open Relation Filter

/-! ## Graphs -/

section Graph

variable {α : Type*} {edge : α → α → Prop}

/-- A cycle can be reached. -/
def LeadsToCycle (edge : α → α → Prop) (a : α) : Prop :=
  ∃ x, ReflTransGen edge a x ∧ TransGen edge x x

variable {a : α}

theorem leadsToCycle_iff :
    LeadsToCycle edge a ↔ TransGen edge a a ∨ ∃ b, edge a b ∧ LeadsToCycle edge b := by
  constructor
  · intro ⟨x, hreach, hcycle⟩
    rcases hreach.cases_head with rfl | ⟨b, hedge, hrest⟩
    · exact Or.inl hcycle
    · exact Or.inr ⟨b, hedge, x, hrest, hcycle⟩
  · rintro (hcycle | ⟨b, hedge, x, hrest, hcycle⟩)
    · exact ⟨a, .refl, hcycle⟩
    · exact ⟨x, .head hedge hrest, hcycle⟩

theorem acc_of_not_leadsToCycle (finite : {x | ReflTransGen edge a x}.Finite)
    (h : ¬ LeadsToCycle edge a) : Acc (fun next this => edge this next) a := by
  let Reached := {x // ReflTransGen edge a x}
  have hfinite : Finite Reached := finite
  let above : Reached → Reached → Prop := fun next this => TransGen edge this.1 next.1
  have htrans : IsTrans Reached above := ⟨fun _ _ _ h₁ h₂ => h₂.trans h₁⟩
  have hirrefl : Std.Irrefl above := ⟨fun x hx => h ⟨x.1, x.2, hx⟩⟩
  have hwf : WellFounded above := Finite.wellFounded_of_trans_of_irrefl above
  have hacc (x : Reached) : Acc (fun next this => edge this next) x.1 := by
    induction x using hwf.induction with
    | _ x ih => exact Acc.intro _ fun next hedge => ih ⟨next, x.2.tail hedge⟩ (.single hedge)
  exact hacc ⟨a, .refl⟩

end Graph

/-! ## Fuel -/

variable {α σ β : Type*}

theorem isSome_andThen {γ : Type*} {x : Option β} {f : β → Option γ} (hx : x.isSome)
    (hf : ∀ b, x = some b → (f b).isSome) : (x.bind f).isSome := by
  obtain ⟨b, hb⟩ := Option.isSome_iff_exists.mp hx
  rw [hb, Option.bind_some]
  exact hf b hb

/-- A recursion whose body calls it; without fuel there is no result. -/
def fueled (body : (α → σ → Option β) → α → σ → Option β) : Nat → α → σ → Option β
  | 0, _, _ => none
  | fuel + 1, a, s => body (fueled body fuel) a s

/-- What the calls return, the body makes use of. -/
def Monotone₂ (body : (α → σ → Option β) → α → σ → Option β) : Prop :=
  ∀ visit visit' : α → σ → Option β, (∀ a s b, visit a s = some b → visit' a s = some b) →
    ∀ a s b, body visit a s = some b → body visit' a s = some b

variable {body : (α → σ → Option β) → α → σ → Option β} {fuel : Nat} {a : α} {s : σ} {b : β}

theorem fueled_succ (hbody : Monotone₂ body)
    (h : fueled body fuel a s = some b) : fueled body (fuel + 1) a s = some b := by
  induction fuel generalizing a s b with
  | zero => cases h
  | succ fuel ih => exact hbody _ _ (fun a s b => ih) a s b h

theorem fueled_mono (hbody : Monotone₂ body) {fuel' : Nat} (hle : fuel ≤ fuel')
    (h : fueled body fuel a s = some b) :
    fueled body fuel' a s = some b := by
  induction fuel', hle using Nat.le_induction with
  | base => exact h
  | succ fuel' _ ih => exact fueled_succ hbody ih

/-- On these arguments the body returns where its calls do, and it calls itself
    on finitely many. -/
def ReturnsBelow (arguments : α → Prop) (below : α → List α) (body : (α → σ → Option β) → α →
    σ → Option β) :
    Prop :=
  ∀ visit a, arguments a → (∀ b ∈ below a, ∀ s, (visit b s).isSome) → ∀ s, (body visit a s).isSome

theorem fueled_returns {arguments : α → Prop} {below : α → List α}
    (hclosed : ∀ a, arguments a → ∀ b ∈ below a, arguments b) (h : Acc (fun b a => b ∈ below a) a)
    (ha : arguments a) :
    ∀ᶠ fuel in atTop, ∀ body : (α → σ → Option β) → α → σ → Option β,
      ReturnsBelow arguments below body →
      ∀ s, (fueled body fuel a s).isSome := by
  induction h with
  | intro a _ ih =>
    have hall : ∀ᶠ fuel in atTop, ∀ b ∈ below a, ∀ body : (α → σ → Option β) → α → σ → Option β,
        ReturnsBelow arguments below body → ∀ s, (fueled body fuel b s).isSome :=
      (eventually_all_finite (below a).finite_toSet).mpr fun b hb => ih b hb (hclosed a ha b hb)
    obtain ⟨bound, hbound⟩ := eventually_atTop.mp hall
    refine eventually_atTop.mpr ⟨bound + 1, fun fuel hfuel body hbody s => ?_⟩
    obtain ⟨less, rfl⟩ : ∃ less, fuel = less + 1 := ⟨fuel - 1, by omega⟩
    exact hbody _ a ha (fun b hb => hbound less (by omega) b hb body hbody) s

end Cwhip.Lib
