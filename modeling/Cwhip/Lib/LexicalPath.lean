/-
  Cwhip.Lib.LexicalPath

  Paths as texts: components between separators, where one component stands for the
  directory itself and one for its parent.

  `normalize` is the reference: what it makes of a path is the path in its shortest
  form, so nothing changes when it is applied again.
-/

import Mathlib.Data.List.Basic

namespace Cwhip.Lib

open List (append_assoc append_nil exists_cons_of_ne_nil mem_cons_of_mem mem_cons_self reverse_cons
  takeWhile_cons)

/-- The two characters that mean something in a path. -/
structure PathAlphabet (α : Type) where
  separator : α
  dot : α
  distinct : separator ≠ dot

namespace PathAlphabet

variable {α : Type} [DecidableEq α] (A : PathAlphabet α)

/-! ## The reference -/

def parent : List α := [A.dot, A.dot]

def absolute (path : List α) : Bool := path.head? = some A.separator

/-- What stands between the separators, without what says nothing. -/
def components (path : List α) : List (List α) :=
  (path.splitOn A.separator).filter fun component => component ≠ [] ∧ component ≠ [A.dot]

/-- A component on top of those before it, topmost first. -/
def cancel (absolute : Bool) (stack : List (List α)) (component : List α) : List (List α) :=
  if component = A.parent then
    match stack with
    | [] => if absolute then [] else [component]
    | previous :: rest =>
      if previous = A.parent then (if absolute then stack else component :: stack) else rest
  else component :: stack

def reduce (absolute : Bool) (components : List (List α)) : List (List α) :=
    components.foldl (A.cancel absolute) []

def root : Bool → List α
  | true => [A.separator]
  | false => []

/-- The text of components, topmost first. -/
def render (absolute : Bool) (stack : List (List α)) : List α :=
  A.root absolute ++ [A.separator].intercalate stack.reverse

def normalize (path : List α) : List α :=
  let text := A.render (A.absolute path) (A.reduce (A.absolute path) (A.components path))
  if text = [] then [A.dot] else text

/-- A path behind which a component can stand. -/
def separated (path : List α) : List α :=
  if path = [] ∨ path.getLast? = some A.separator then path else path ++ [A.separator]

/-! ## Components -/

variable {A}

/-- The components of a joined path are those of its parts. -/
theorem components_append (first second : List α) :
    A.components (first ++ A.separator :: second) = A.components first ++ A.components second := by
  rw [components, List.splitOn_append_cons_self, List.filter_append]
  rfl

@[simp] theorem components_nil : A.components [] = [] := rfl

@[simp] theorem components_cons_separator (path : List α) : A.components (A.separator :: path) =
    A.components path :=
  components_append [] path

theorem components_of_not_mem {component : List α} (h : A.separator ∉ component) :
    A.components component = if component = [] ∨ component = [A.dot] then [] else [component] := by
  rw [components, List.splitOn_eq_singleton h, List.filter_cons, List.filter_nil]
  split
  · rename_i hkept
    rw [decide_eq_true_eq] at hkept
    rw [if_neg (by simp [hkept])]
  · rename_i hkept
    rw [decide_eq_true_eq, not_and_or, not_not, not_not] at hkept
    rw [if_pos hkept]

theorem components_dot : A.components [A.dot] = [] := by
  rw [components_of_not_mem (by simp [A.distinct]), if_pos (.inr rfl)]

/-- How a path is read: separators are skipped, a component is read, and what is left
    is empty or starts with a separator. -/
structure Scanned (A : PathAlphabet α) (path : List α) (skipped : Nat) (component rest : List α) :
    Prop where
  components : A.components path = A.components component ++ A.components rest
  free : A.separator ∉ component
  length : skipped + component.length + rest.length = path.length
  separator : rest = [] ∨ rest.head? = some A.separator
  skips : path.head? = some A.separator → 0 < skipped
  progress : path ≠ [] → 0 < skipped + component.length

theorem components_dropWhile (path : List α) :
    A.components (path.dropWhile (· == A.separator)) = A.components path := by
  induction path with
  | nil => rfl
  | cons first rest ih =>
    rw [List.dropWhile_cons]
    split
    · rename_i hfirst
      rw [ih, eq_of_beq hfirst, components_cons_separator]
    · rfl

theorem scanned (path : List α) :
    let skipped := (path.takeWhile (· == A.separator)).length
    let component := (path.drop skipped).takeWhile (· != A.separator)
    A.Scanned path skipped component (path.drop (skipped + component.length)) := by
  intro skipped component
  have hbody : path.drop skipped = path.dropWhile (· == A.separator) := by
    conv_lhs => rw [← List.takeWhile_append_dropWhile (p := (· == A.separator)) (l := path)]
    exact List.drop_left
  have hsplit := List.takeWhile_append_dropWhile (p := (· != A.separator)) (l := path.drop skipped)
  have hrest : path.drop (skipped + component.length) = (path.drop skipped).dropWhile
      (· != A.separator) := by
    rw [← List.drop_drop]
    conv_lhs => rw [← hsplit]
    exact List.drop_left
  have hcomponents : A.components path = A.components (path.drop skipped) := by
    rw [hbody, components_dropWhile]
  have hskipped : skipped ≤ path.length := List.IsPrefix.length_le (List.takeWhile_prefix _)
  have hcomponent : component.length ≤ (path.drop skipped).length :=
    List.IsPrefix.length_le (List.takeWhile_prefix _)
  rw [List.length_drop] at hcomponent
  have hhead := List.head?_dropWhile_not (· != A.separator) (path.drop skipped)
  rw [← hrest] at hhead
  refine ⟨?_, ?_, ?_, ?_, ?_, ?_⟩
  · rw [hcomponents, ← hsplit, ← hrest]
    cases hcase : path.drop (skipped + component.length) with
    | nil => rw [append_nil, components_nil, append_nil]
    | cons first rest =>
      rw [hcase, List.head?_cons] at hhead
      dsimp only at hhead
      rw [bne_eq_false_iff_eq] at hhead
      subst hhead
      rw [components_append, components_cons_separator]
  · intro hmem
    have hother := List.all_eq_true.mp List.all_takeWhile _ hmem
    exact absurd rfl (bne_iff_ne.mp hother)
  · rw [List.length_drop]
    omega
  · cases hcase : path.drop (skipped + component.length) with
    | nil => exact .inl rfl
    | cons first rest =>
      rw [hcase, List.head?_cons] at hhead
      exact .inr (congrArg some (bne_eq_false_iff_eq.mp hhead))
  · intro hfirst
    obtain ⟨rest, rfl⟩ := List.head?_eq_some_iff.mp hfirst
    show 0 < ((A.separator :: rest).takeWhile _).length
    rw [takeWhile_cons, if_pos BEq.rfl]
    exact Nat.succ_pos _
  · intro hne
    -- a character that is not skipped is read
    obtain ⟨first, rest, rfl⟩ := exists_cons_of_ne_nil hne
    by_cases hfirst : first = A.separator
    · show 0 < ((first :: rest).takeWhile _).length + _
      rw [takeWhile_cons, if_pos (beq_iff_eq.mpr hfirst)]
      exact Nat.add_pos_left (Nat.succ_pos _) _
    · have hnone : skipped = 0 := by
        show ((first :: rest).takeWhile _).length = 0
        rw [takeWhile_cons, if_neg (fun hsame => hfirst (beq_iff_eq.mp hsame))]
        rfl
      show 0 < skipped + (((first :: rest).drop skipped).takeWhile _).length
      rw [hnone, List.drop_zero, takeWhile_cons, if_pos (bne_iff_ne.mpr hfirst)]
      exact Nat.add_pos_right _ (Nat.succ_pos _)

/-- A separator put in between changes no component. -/
theorem components_separated (path second : List α) :
    A.components (A.separated path ++ second) = A.components path ++ A.components second := by
  unfold separated
  split
  · rename_i hends
    rcases hends with rfl | hends
    · rfl
    · obtain ⟨before, rfl⟩ : ∃ before, path = before ++ [A.separator] := by
        have hne : path ≠ [] := by
          rintro rfl
          cases hends
        refine ⟨path.dropLast, ?_⟩
        rw [List.getLast?_eq_some_getLast hne, Option.some_inj] at hends
        rw [← hends, List.dropLast_append_getLast hne]
      rw [append_assoc, List.singleton_append, components_append, components_append, components_nil,
        append_nil]
  · rw [append_assoc, List.singleton_append, components_append]

theorem absolute_separated {path : List α} (h : path ≠ []) (second : List α) :
    A.absolute (A.separated path ++ second) = A.absolute path := by
  obtain ⟨first, rest, rfl⟩ := exists_cons_of_ne_nil h
  unfold separated
  split <;> rfl

/-- Paths of the same components have one normal form. -/
theorem normalize_congr {path other : List α} (habsolute : A.absolute path = A.absolute other)
    (hcomponents : A.components path = A.components other) : A.normalize path =
    A.normalize other := by
  rw [normalize, normalize, habsolute, hcomponents]

/-! ## Stacks -/

def Component (A : PathAlphabet α) (component : List α) : Prop :=
  component ≠ [] ∧ component ≠ [A.dot] ∧ A.separator ∉ component

theorem component_of_mem {path component : List α} (h : component ∈ A.components path) :
    A.Component component := by
  have hfree : ∀ (path : List α), ∀ part ∈ path.splitOn A.separator, A.separator ∉ part := by
    intro path
    induction path with
    | nil => simp
    | cons first rest ih =>
      intro part hpart
      rw [List.splitOn_cons_eq_if_modifyHead] at hpart
      split at hpart
      · rcases List.mem_cons.mp hpart with rfl | hpart
        · exact List.not_mem_nil
        · exact ih part hpart
      · rename_i hother
        obtain ⟨head, tail, htail⟩ := exists_cons_of_ne_nil (List.splitOn_ne_nil A.separator rest)
        rw [htail] at hpart ih
        rcases List.mem_cons.mp hpart with rfl | hpart
        · rw [List.mem_cons, not_or]
          exact ⟨fun hsame => hother (beq_iff_eq.mpr hsame.symm), ih head mem_cons_self⟩
        · exact ih part (mem_cons_of_mem _ hpart)
  obtain ⟨hpart, hkept⟩ := List.mem_filter.mp h
  rw [decide_eq_true_eq] at hkept
  exact ⟨hkept.1, hkept.2, hfree path component hpart⟩

/-- Nothing is left to cancel: parents stand below everything else, and not at all in
    an absolute path. -/
def Reduced (A : PathAlphabet α) (absolute : Bool) : List (List α) → Prop
  | [] => True
  | component :: rest =>
    A.Component component ∧ Reduced A absolute rest ∧
      (component = A.parent → absolute = false ∧ ∀ below ∈ rest, below = A.parent)

/-- Taking in a component keeps a stack reduced. -/
theorem Reduced.cancel {absolute : Bool} {stack : List (List α)} (h : A.Reduced absolute stack)
    {component : List α}
    (hcomponent : A.Component component) :
    A.Reduced absolute (A.cancel absolute stack component) := by
  unfold PathAlphabet.cancel
  split
  · rename_i hparent
    cases stack with
    | nil =>
      cases absolute with
      | true => exact h
      | false =>
        exact ⟨hcomponent, h, fun _ => ⟨rfl, fun _ hbelow => (List.not_mem_nil hbelow).elim⟩⟩
    | cons previous rest =>
      dsimp only
      split
      · rename_i hprevious
        obtain ⟨habsolute, hbelow⟩ := h.2.2 hprevious
        subst habsolute
        refine ⟨hcomponent, h, fun _ => ⟨rfl, fun below hmem => ?_⟩⟩
        rcases List.mem_cons.mp hmem with rfl | hmem
        · exact hprevious
        · exact hbelow below hmem
      · exact h.2.1
  · rename_i hordinary
    exact ⟨hcomponent, h, fun hparent => (hordinary hparent).elim⟩

theorem Reduced.foldl {absolute : Bool} {stack : List (List α)} (h : A.Reduced absolute stack)
    {components : List (List α)} (hcomponents : ∀ component ∈ components, A.Component component) :
    A.Reduced absolute (components.foldl (A.cancel absolute) stack) := by
  induction components generalizing stack with
  | nil => exact h
  | cons component components ih =>
    exact ih (h.cancel (hcomponents component mem_cons_self))
      fun other hother => hcomponents other (mem_cons_of_mem _ hother)

/-- A reduced stack cancels nothing more. -/
theorem Reduced.reduce_eq {absolute : Bool} {stack : List (List α)} (h : A.Reduced absolute stack) :
    A.reduce absolute stack.reverse = stack := by
  induction stack with
  | nil => rfl
  | cons component rest ih =>
    have hrest : rest.reverse.foldl (A.cancel absolute) [] = rest := ih h.2.1
    rw [reduce, reverse_cons, List.foldl_append, hrest, List.foldl_cons, List.foldl_nil]
    unfold PathAlphabet.cancel
    split
    · rename_i hparent
      obtain ⟨habsolute, hbelow⟩ := h.2.2 hparent
      subst habsolute
      cases rest with
      | nil => rfl
      | cons previous rest =>
        dsimp only
        rw [if_pos (hbelow previous mem_cons_self)]
        rfl
    · rfl

/-! ## Texts -/

omit [DecidableEq α] in
theorem intercalate_concat (separator : List α) (parts : List (List α)) (last : List α) :
    separator.intercalate (parts ++ [last]) =
      if parts = [] then last else separator.intercalate parts ++ separator ++ last := by
  induction parts with
  | nil => rw [List.nil_append, List.intercalate_singleton, if_pos rfl]
  | cons part parts ih =>
    rw [List.cons_append, List.intercalate_cons_of_ne_nil (by simp), ih,
      if_neg (List.cons_ne_nil _ _)]
    split
    · rename_i hnil
      rw [hnil, List.intercalate_singleton]
    · rename_i hne
      rw [List.intercalate_cons_of_ne_nil hne]
      simp only [append_assoc]

omit [DecidableEq α] in
theorem getLast?_render {absolute : Bool} {stack : List (List α)} (h : A.Reduced absolute stack)
    (hne : stack ≠ []) :
    ∃ last, (A.render absolute stack).getLast? = some last ∧ last ≠ A.separator := by
  obtain ⟨component, rest, rfl⟩ := exists_cons_of_ne_nil hne
  obtain ⟨hnil, -, hfree⟩ := h.1
  refine ⟨component.getLast hnil, ?_, fun hlast => hfree (hlast ▸ List.getLast_mem hnil)⟩
  have hsome : component.getLast? = some (component.getLast hnil) :=
    List.getLast?_eq_some_getLast hnil
  rw [render, reverse_cons, intercalate_concat]
  split
  · rw [List.getLast?_append, hsome]
    rfl
  · rw [List.getLast?_append, List.getLast?_append, hsome]
    rfl

theorem render_cons {absolute : Bool} {stack : List (List α)} (h : A.Reduced absolute stack)
    (component : List α) :
    A.render absolute (component :: stack) = A.separated (A.render absolute stack) ++
    component := by
  by_cases hne : stack = []
  · subst hne
    rw [render, render, List.reverse_singleton, List.intercalate_singleton, List.reverse_nil,
      List.intercalate_nil,
      append_nil, separated]
    cases absolute with
    | true => exact congrArg (· ++ component) (if_pos (.inr rfl)).symm
    | false => exact congrArg (· ++ component) (if_pos (.inl rfl)).symm
  · obtain ⟨last, hlast, hother⟩ := getLast?_render h hne
    have hends : ¬ (A.render absolute stack = [] ∨ (A.render absolute stack).getLast? =
        some A.separator) := by
      rintro (hnil | hsome)
      · rw [hnil] at hlast
        cases hlast
      · exact hother (Option.some_inj.mp (hlast.symm.trans hsome))
    rw [separated, if_neg hends, render, render, reverse_cons, intercalate_concat,
      if_neg (by rwa [List.reverse_eq_nil_iff])]
    simp only [append_assoc]

/-- A rendered stack has its entries as components. -/
theorem components_render {absolute : Bool} {stack : List (List α)} (h : A.Reduced absolute stack) :
    A.components (A.render absolute stack) = stack.reverse := by
  induction stack with
  | nil =>
    cases absolute with
    | true => exact components_cons_separator []
    | false => rfl
  | cons component rest ih =>
    obtain ⟨hnil, hdot, hfree⟩ := h.1
    rw [render_cons h.2.1, components_separated, ih h.2.1, components_of_not_mem hfree,
      if_neg (not_or_intro hnil hdot), reverse_cons]

/-- Rendering keeps absolute paths absolute. -/
theorem absolute_render {absolute : Bool} {stack : List (List α)} (h : A.Reduced absolute stack) :
    A.absolute (A.render absolute stack) = absolute := by
  cases absolute with
  | true => exact decide_eq_true rfl
  | false =>
    induction stack with
    | nil => rfl
    | cons component rest ih =>
      obtain ⟨hnil, -, hfree⟩ := h.1
      rw [render_cons h.2.1]
      by_cases hrest : A.render false rest = []
      · rw [hrest]
        obtain ⟨first, others, rfl⟩ := exists_cons_of_ne_nil hnil
        refine decide_eq_false fun hfirst => hfree ?_
        rw [← Option.some_inj.mp hfirst]
        exact mem_cons_self
      · rw [absolute_separated hrest]
        exact ih h.2.1

theorem reduced_reduce (path : List α) (absolute : Bool) :
    A.Reduced absolute (A.reduce absolute (A.components path)) :=
  Reduced.foldl (show A.Reduced absolute [] from trivial) fun _ hmem => component_of_mem hmem

/-- A normal form is its own. -/
theorem normalize_idempotent (path : List α) : A.normalize (A.normalize path) =
    A.normalize path := by
  have hreduced := reduced_reduce (A := A) path (A.absolute path)
  generalize hstack : A.reduce (A.absolute path) (A.components path) = stack at hreduced
  have hpath : A.normalize path = if A.render (A.absolute path) stack = [] then [A.dot]
      else A.render (A.absolute path) stack := by
    rw [normalize, hstack]
  rw [hpath]
  split
  · have hdot : A.absolute [A.dot] = false := decide_eq_false fun hsame =>
      A.distinct (Option.some_inj.mp hsame).symm
    rw [normalize, components_dot, hdot]
    rfl
  · rename_i hne
    rw [normalize, absolute_render hreduced, components_render hreduced, hreduced.reduce_eq]
    exact if_neg hne

/-! ## Characters -/

omit [DecidableEq α] in
theorem mem_intercalate {separator : α} {parts : List (List α)} {character : α}
    (h : character ∈ [separator].intercalate parts) : character = separator ∨ ∃ part ∈ parts,
    character ∈ part := by
  induction parts with
  | nil => cases h
  | cons part parts ih =>
    by_cases hnil : parts = []
    · subst hnil
      rw [List.intercalate_singleton] at h
      exact .inr ⟨part, mem_cons_self, h⟩
    · rw [List.intercalate_cons_of_ne_nil hnil, List.mem_append, List.mem_append,
        List.mem_singleton] at h
      rcases h with (hpart | hseparator) | hrest
      · exact .inr ⟨part, mem_cons_self, hpart⟩
      · exact .inl hseparator
      · exact (ih hrest).imp_right fun ⟨other, hother, hmem⟩ =>
          ⟨other, mem_cons_of_mem _ hother, hmem⟩

theorem mem_of_mem_splitOn {separator : α} {path part : List α}
    (hpart : part ∈ path.splitOn separator) {character : α}
    (h : character ∈ part) : character ∈ path := by
  induction path generalizing part with
  | nil =>
    rw [List.splitOn_nil, List.mem_singleton] at hpart
    rwa [hpart] at h
  | cons first rest ih =>
    rw [List.splitOn_cons_eq_if_modifyHead] at hpart
    split at hpart
    · rcases List.mem_cons.mp hpart with rfl | hpart
      · cases h
      · exact mem_cons_of_mem _ (ih hpart h)
    · obtain ⟨head, tail, htail⟩ := exists_cons_of_ne_nil (List.splitOn_ne_nil separator rest)
      rw [htail] at hpart ih
      rcases List.mem_cons.mp hpart with rfl | hpart
      · rcases List.mem_cons.mp h with rfl | h
        · exact mem_cons_self
        · exact mem_cons_of_mem _ (ih mem_cons_self h)
      · exact mem_cons_of_mem _ (ih (mem_cons_of_mem _ hpart) h)

theorem mem_foldl_cancel {absolute : Bool} {components stack : List (List α)} {component : List α}
    (h : component ∈ components.foldl (A.cancel absolute) stack) : component ∈ stack ∨
    component ∈ components := by
  induction components generalizing stack with
  | nil => exact .inl h
  | cons first rest ih =>
    rcases ih h with hstack | hrest
    · have hcancel : component ∈ stack ∨ component = first := by
        rw [cancel.eq_def] at hstack
        split at hstack
        · split at hstack
          · split at hstack
            · cases hstack
            · exact .inr (List.mem_singleton.mp hstack)
          · split at hstack
            · split at hstack
              · exact .inl hstack
              · exact (List.mem_cons.mp hstack).symm
            · exact .inl (mem_cons_of_mem _ hstack)
        · exact (List.mem_cons.mp hstack).symm
      rcases hcancel with hkept | rfl
      · exact .inl hkept
      · exact .inr mem_cons_self
    · exact .inr (mem_cons_of_mem _ hrest)

/-- Normalizing brings in no character but separators and dots. -/
theorem mem_normalize {path : List α} {character : α} (h : character ∈ A.normalize path) :
    character ∈ path ∨ character = A.separator ∨ character = A.dot := by
  rw [normalize] at h
  split at h
  · exact .inr (.inr (List.mem_singleton.mp h))
  · rcases List.mem_append.mp h with hroot | hrest
    · cases habsolute : A.absolute path with
      | true =>
        rw [habsolute] at hroot
        exact .inr (.inl (List.mem_singleton.mp hroot))
      | false =>
        rw [habsolute] at hroot
        cases hroot
    · rcases mem_intercalate hrest with hseparator | ⟨component, hcomponent, hmem⟩
      · exact .inr (.inl hseparator)
      · rcases mem_foldl_cancel (List.mem_reverse.mp hcomponent) with hnone | hread
        · cases hnone
        · exact .inl (mem_of_mem_splitOn (List.mem_filter.mp hread).1 hmem)

end PathAlphabet

end Cwhip.Lib
