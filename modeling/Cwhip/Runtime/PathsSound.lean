/-
  Cwhip.Runtime.PathsSound

  The operations on paths compute what `PathAlphabet.normalize` says, and stay inside
  their buffers.
-/

import Cwhip.Lib.LexicalPath
import Cwhip.Runtime.Paths

namespace Cwhip.Runtime.Paths

open Cwhip.Lib Cwhip.Lib.BlockArray Cwhip.Lib.PathAlphabet
open List (foldl_nil length_append length_nil length_singleton mem_append nil_append)

/-- Paths of bytes. -/
def bytePaths : PathAlphabet UInt8 := ⟨slash, dot, by decide⟩

-- ============================================================================
-- The stack of marks
-- ============================================================================

/-- Where the components start, separators included. -/
def marksOf (absolute : Bool) : List Bytes → List Nat
  | [] => []
  | _ :: rest => marksOf absolute rest ++ [(bytePaths.render absolute rest).length]

theorem marksOf_length (absolute : Bool) (stack : List Bytes) : (marksOf absolute stack).length =
    stack.length := by
  induction stack with
  | nil => rfl
  | cons component rest ih => rw [marksOf, length_append, ih, length_singleton, List.length_cons]

/-- The buffers hold a stack of components. -/
structure Stands (length : Nat) (absolute : Bool) (stack : List Bytes) (s : NormalizeBuffers) :
    Prop where
  result : s.result.Holds (length + 2) (bytePaths.render absolute stack)
  room : s.result.capacity = length + 2
  marks : s.marks.Holds (length + 2) (marksOf absolute stack)
  marksRoom : s.marks.capacity = length + 2

variable {s : NormalizeBuffers} {text component rest rest' input path : Bytes}
  {index length skipped : Nat} {absolute : Bool} {stack : List Bytes}

theorem inResult_ok {β : Type} {op : BlockM UInt8 β} {value : β} {result : BlockArray UInt8}
    (h : op s.result = .ok value result) : inResult op s = .ok value { s with result } := by
  rw [inResult, h]

theorem inMarks_ok {β : Type} {op : BlockM Nat β} {value : β} {marks : BlockArray Nat}
    (h : op s.marks = .ok value marks) : inMarks op s = .ok value { s with marks } := by
  rw [inMarks, h]

theorem slashAt_run (h : s.result.Front text) {present : Bool}
    (hindex : present = true → index < text.length) :
    slashAt present index s = .ok (present && text[index]? == some slash) s := by
  unfold slashAt
  rw [run_ite]
  cases present with
  | true =>
    have hvalue := List.getElem?_eq_getElem (hindex rfl)
    rw [if_pos rfl, run_ok (inResult_ok (h.getAt hvalue)), hvalue]
    rfl
  | false => rfl

theorem previousComponent_run {limit : Nat} {before : Bytes}
    (h : s.result.Holds limit (bytePaths.separated before ++ component))
    (hcomponent : bytePaths.Component component) :
    previousComponent before.length s = .ok (if component.length = 2 then component else []) s := by
  obtain ⟨hnil, -, hfree⟩ := hcomponent
  have hpos := List.length_pos_iff.mpr hnil
  have hlength := h.length_eq
  -- where the component starts
  have hstart (start : Nat) (hstart : (bytePaths.separated before).length = start) :
      (if s.result.length - start = 2 then inResult (read start 2) else pure [] : NormalizeM Bytes)
        s =
        .ok (if component.length = 2 then component else []) s := by
    have hrest : s.result.length - start = component.length := by
      rw [hlength, length_append]
      omega
    rw [run_ite, hrest]
    split
    · rename_i htwo
      rw [length_append, hstart] at hlength
      have hread := h.front.read
          (show start + 2 ≤ (bytePaths.separated before ++ component).length by
        rw [length_append]; omega)
      rw [List.drop_left' hstart, List.take_of_length_le (Nat.le_of_eq htwo)] at hread
      exact inResult_ok hread
    · rfl
  unfold previousComponent
  rw [run_get]
  have hless : before.length < s.result.length := by
    rw [hlength, separated]
    split <;> simp only [length_append] <;> omega
  rw [run_ok (slashAt_run h.front fun _ => hlength ▸ hless), decide_eq_true hless, Bool.true_and]
  apply hstart
  unfold separated
  split
  · have hfirst : (before ++ component)[before.length]? ≠ some slash := by
      rw [List.getElem?_append_right (Nat.le_refl _), Nat.sub_self]
      exact fun hslash => hfree (List.mem_of_getElem? hslash)
    rw [beq_eq_false_iff_ne.mpr hfirst, if_neg Bool.false_ne_true]
  · have hslash : (before ++ [bytePaths.separator] ++ component)[before.length]? = some slash := by
      rw [List.append_assoc, List.getElem?_append_right (Nat.le_refl _), Nat.sub_self]
      rfl
    rw [hslash, BEq.rfl, if_pos rfl, length_append, length_singleton]

theorem render_take {rest : List Bytes} (h : bytePaths.Reduced absolute rest) (component : Bytes) :
    (bytePaths.render absolute (component :: rest)).take (bytePaths.render absolute rest).length =
      bytePaths.render absolute rest := by
  rw [render_cons h, separated]
  split
  · rw [List.take_left]
  · rw [List.append_assoc, List.take_left]

/-- A component is taken back to the mark before it. -/
theorem cancelComponent_run (h : Stands length absolute stack s)
    (hreduced : bytePaths.Reduced absolute stack) :
    ∃ cancelled s', cancelComponent absolute s = .ok cancelled s' ∧
      if cancelled = true then Stands length absolute (bytePaths.cancel absolute stack [dot, dot])
      s'
      else s' = s ∧ bytePaths.cancel absolute stack [dot, dot] = [dot, dot] :: stack := by
  have hcount : s.marks.length = stack.length :=
    h.marks.length_eq.trans (marksOf_length absolute stack)
  unfold cancelComponent
  rw [run_get, hcount]
  cases stack with
  | nil =>
    refine ⟨absolute, s, rfl, ?_⟩
    cases absolute with
    | true => exact h
    | false => exact ⟨rfl, rfl⟩
  | cons previous rest =>
    obtain ⟨hcomponent, hrest, hbelow⟩ := hreduced
    have hmark : (marksOf absolute (previous :: rest))[rest.length]? =
        some (bytePaths.render absolute rest).length := by
      rw [marksOf, List.getElem?_append_right (by rw [marksOf_length]), marksOf_length,
        Nat.sub_self]
      rfl
    have hprevious := previousComponent_run (render_cons hrest previous ▸ h.result) hcomponent
    rw [List.length_cons, if_neg (Nat.succ_ne_zero _), Nat.add_sub_cancel,
      run_ok (inMarks_ok (h.marks.front.getAt hmark)),
      run_ok hprevious, run_ite]
    by_cases hparent : previous = [dot, dot]
    · -- nothing to cancel
      subst hparent
      obtain ⟨rfl, -⟩ := hbelow rfl
      exact ⟨false, s, rfl, rfl, rfl⟩
    · have hother : (if previous.length = 2 then previous else []) ≠ [dot, dot] := by
        split
        · exact hparent
        · exact List.cons_ne_nil _ _ ∘ Eq.symm
      have hcancel : bytePaths.cancel absolute (previous :: rest) [dot, dot] = rest := by
        rw [cancel.eq_def, if_pos (show [dot, dot] = bytePaths.parent from rfl)]
        exact if_neg hparent
      rw [if_neg hother, hcancel]
      refine ⟨true, _, rfl, ?_⟩
      have hresult := h.result.setLength (show (bytePaths.render absolute rest).length ≤ _ by
        rw [← render_take hrest previous, List.length_take]; exact Nat.min_le_right _ _)
      have hmarks := h.marks.setLength (show rest.length ≤
        _ by rw [marksOf_length]; exact Nat.le_succ _)
      rw [render_take hrest] at hresult
      rw [marksOf, List.take_left' (marksOf_length absolute rest)] at hmarks
      exact ⟨hresult, h.room, hmarks, h.marksRoom⟩

theorem appendMark_run {value : List Nat} (h : s.marks.Holds (length + 2) value)
    (hfits : value.length < s.marks.capacity) :
    ∃ marks, appendMark s = .ok () { s with marks } ∧ marks.Holds (length + 2)
      (value ++ [s.result.length]) ∧
      marks.capacity = s.marks.capacity := by
  obtain ⟨marks, hwrite, hcapacity, hholds, -⟩ := h.append
    (show value.length + [s.result.length].length ≤ s.marks.capacity from hfits)
  refine ⟨_, ?_, hholds, hcapacity⟩
  unfold appendMark
  rw [run_get, run_ok (inMarks_ok hwrite)]
  rfl

theorem appendBytes_run {value : Bytes} (h : s.result.Holds (length + 2) value) {bytes : Bytes}
    (hfits : value.length + bytes.length ≤ s.result.capacity) :
    ∃ result, appendBytes bytes s = .ok () { s with result } ∧ result.Holds (length + 2)
      (value ++ bytes) ∧
      result.capacity = s.result.capacity := by
  obtain ⟨result, hwrite, hcapacity, hholds, -⟩ := h.append hfits
  refine ⟨_, ?_, hholds, hcapacity⟩
  unfold appendBytes
  rw [run_get, run_ok (inResult_ok hwrite)]
  rfl

/-- A component is appended behind a separator and marked. -/
theorem appendComponent_run (h : Stands length absolute stack s)
    (hreduced : bytePaths.Reduced absolute stack)
    (hroom : (bytePaths.render absolute (component :: stack)).length ≤ length + 2)
    (hcount : stack.length < length + 2) :
    ∃ s', appendComponent component s = .ok () s' ∧
    Stands length absolute (component :: stack) s' := by
  have hlength := h.result.length_eq
  have hresultRoom := h.room
  have hcells := h.result.front
  obtain ⟨marks, hmark, hmarks, hmarksCapacity⟩ := appendMark_run h.marks
    (show (marksOf absolute stack).length <
      s.marks.capacity by rw [marksOf_length, h.marksRoom]; exact hcount)
  rw [hlength] at hmarks
  have hrender := render_cons hreduced component
  rw [hrender] at hroom
  generalize htext : bytePaths.render absolute stack = text at *
  have hslash := slashAt_run (s := { s with marks }) hcells
    (show decide (s.result.length ≠ 0) = true → s.result.length - 1 < text.length from fun hne => by
      have hpos := of_decide_eq_true hne
      omega)
  unfold appendComponent
  rw [run_ok hmark, run_get]
  dsimp only
  rw [run_ok hslash, run_ite]
  -- a separator is needed, or not
  have hcases : (s.result.length ≠ 0 ∧
      (decide (s.result.length ≠ 0) && text[s.result.length - 1]? == some slash) = false) ↔
        ¬ (text = [] ∨ text.getLast? = some bytePaths.separator) := by
    rw [hlength, List.getLast?_eq_getElem?, ← List.length_eq_zero_iff, not_or]
    constructor
    · rintro ⟨hne, hother⟩
      rw [decide_eq_true hne, Bool.true_and, beq_eq_false_iff_ne] at hother
      exact ⟨hne, hother⟩
    · rintro ⟨hne, hother⟩
      refine ⟨hne, ?_⟩
      rw [beq_eq_false_iff_ne.mpr (show _ ≠ some slash from hother), Bool.and_false]
  rw [separated] at hrender hroom
  by_cases hends : text = [] ∨ text.getLast? = some bytePaths.separator
  · rw [if_neg (fun hneeded => hcases.mp hneeded hends)]
    rw [if_pos hends] at hrender hroom
    rw [length_append] at hroom
    obtain ⟨result, hrun, hholds, hcapacity⟩ := appendBytes_run (s := { s with marks })
      (htext ▸ h.result) (show text.length + component.length ≤ s.result.capacity by omega)
    rw [hrun]
    refine ⟨_, rfl, hrender ▸ hholds, hcapacity.trans h.room, ?_, hmarksCapacity.trans h.marksRoom⟩
    rw [marksOf, htext]
    exact hmarks
  · rw [if_pos (hcases.mpr hends)]
    rw [if_neg hends] at hrender hroom
    rw [length_append, length_append, length_singleton] at hroom
    obtain ⟨before, hbefore, hholds, hcapacity⟩ := appendBytes_run (s := { s with marks })
      (htext ▸ h.result)
      (show text.length + [slash].length ≤ s.result.capacity by rw [length_singleton]; omega)
    obtain ⟨result, hrun, hholds', hcapacity'⟩ := appendBytes_run (s := ⟨before, marks⟩) hholds
      (show (text ++ [slash]).length + component.length ≤ before.capacity by
        rw [length_append, length_singleton]
        dsimp only at hcapacity
        omega)
    rw [run_ok hbefore, hrun]
    refine ⟨_, rfl, hrender ▸ hholds', hcapacity'.trans (hcapacity.trans h.room), ?_,
      hmarksCapacity.trans h.marksRoom⟩
    rw [marksOf, htext]
    exact hmarks

/-- What the loop still has to read, and what room it needs for that. -/
structure Pending (length : Nat) (absolute : Bool) (stack : List Bytes) (rest : Bytes) : Prop where
  room : (bytePaths.render absolute stack).length + rest.length ≤ length + 1
  count : stack.length + rest.length ≤ length
  /-- A separator in the output has one in the input. -/
  separator : bytePaths.render absolute stack = [] ∨ rest = [] ∨ rest.head? = some slash

theorem Pending.keep {stack' : List Bytes} (h : Pending length absolute stack rest)
    (hscanned : bytePaths.Scanned rest skipped component rest')
    (hrender : (bytePaths.render absolute stack').length ≤ (bytePaths.render absolute stack).length)
    (hstack : stack'.length ≤ stack.length) : Pending length absolute stack' rest' := by
  have hlength := hscanned.length
  have hroom := h.room
  have hcount := h.count
  exact ⟨by omega, by omega, .inr hscanned.separator⟩

theorem Pending.push (h : Pending length absolute stack rest)
    (hreduced : bytePaths.Reduced absolute stack)
    (hscanned : bytePaths.Scanned rest skipped component rest') (hne : component ≠ []) :
    Pending length absolute (component :: stack) rest' := by
  have hlength := hscanned.length
  have hroom := h.room
  have hcount := h.count
  have hpos := List.length_pos_iff.mpr hne
  refine ⟨?_, ?_, .inr hscanned.separator⟩
  · rw [render_cons hreduced, length_append, separated]
    split
    · omega
    · rename_i hneeded
      rw [length_append, length_singleton]
      have hskipped : 0 < skipped := by
        rcases h.separator with hempty | hdone | hslash
        · exact (hneeded (.inl hempty)).elim
        · rw [hdone, length_nil] at hlength
          omega
        · exact hscanned.skips hslash
      omega
  · rw [List.length_cons]
    omega

theorem cancel_parent (hreduced : bytePaths.Reduced absolute stack) :
    bytePaths.cancel absolute stack [dot, dot] = [dot, dot] :: stack ∨
      ((bytePaths.render absolute (bytePaths.cancel absolute stack [dot, dot])).length ≤
          (bytePaths.render absolute stack).length ∧
        (bytePaths.cancel absolute stack [dot, dot]).length ≤ stack.length) := by
  rw [cancel.eq_def, if_pos (show [dot, dot] = bytePaths.parent from rfl)]
  cases stack with
  | nil =>
    cases absolute with
    | true => exact .inr ⟨Nat.le_refl _, Nat.le_refl _⟩
    | false => exact .inl rfl
  | cons previous rest =>
    dsimp only
    split
    · cases absolute with
      | true => exact .inr ⟨Nat.le_refl _, Nat.le_refl _⟩
      | false => exact .inl rfl
    · refine .inr ⟨?_, Nat.le_succ _⟩
      rw [← render_take hreduced.2.1 previous, List.length_take]
      exact Nat.min_le_right _ _

/-- Each component is appended, skipped or cancels the one before. -/
theorem takeComponent_run (h : Stands length absolute stack s)
    (hreduced : bytePaths.Reduced absolute stack) (hpending : Pending length absolute stack rest)
    (hscanned : bytePaths.Scanned rest skipped component rest') :
    ∃ s', takeComponent absolute component s = .ok () s' ∧
      Stands length absolute ((bytePaths.components component).foldl
      (bytePaths.cancel absolute) stack) s' ∧
      Pending length absolute ((bytePaths.components component).foldl (bytePaths.cancel absolute)
      stack) rest' := by
  unfold takeComponent
  rw [components_of_not_mem hscanned.free, run_ite]
  by_cases hsays : component ≠ [] ∧ component ≠ [dot]
  · rw [if_pos hsays, if_neg
      (show ¬ (component = [] ∨ component = [bytePaths.dot]) by rwa [not_or]), List.foldl_cons,
      foldl_nil]
    -- where it is added
    have happend (hcancel : bytePaths.cancel absolute stack component = component :: stack) :
        ∃ s', appendComponent component s = .ok () s' ∧
          Stands length absolute (bytePaths.cancel absolute stack component) s' ∧
          Pending length absolute (bytePaths.cancel absolute stack component) rest' := by
      have hnext := hpending.push hreduced hscanned hsays.1
      have hroom := hnext.room
      have hcount := hpending.count
      obtain ⟨s', hrun, hstands⟩ := appendComponent_run h hreduced
        (show (bytePaths.render absolute (component :: stack)).length ≤ length + 2 by omega)
          (by omega)
      rw [hcancel]
      exact ⟨s', hrun, hstands, hnext⟩
    by_cases hparent : component = [dot, dot]
    · subst hparent
      rw [if_pos rfl]
      obtain ⟨cancelled, s', hrun, hcancelled⟩ := cancelComponent_run h hreduced
      rw [run_ok hrun]
      cases cancelled with
      | false =>
        obtain ⟨rfl, hcancel⟩ := hcancelled
        exact happend hcancel
      | true =>
        refine ⟨s', rfl, hcancelled, ?_⟩
        rcases cancel_parent hreduced with hsame | ⟨hrender, hcount⟩
        · rw [hsame]
          exact hpending.push hreduced hscanned hsays.1
        · exact hpending.keep hscanned hrender hcount
    · rw [if_neg hparent]
      exact happend (if_neg hparent)
  · rw [if_neg hsays, if_pos (show component = [] ∨ component = [bytePaths.dot] by
      rwa [not_and_or, not_not, not_not] at hsays), foldl_nil]
    exact ⟨s, rfl, h, hpending.keep hscanned (Nat.le_refl _) (Nat.le_refl _)⟩

theorem scanned_bytes (rest : Bytes) :
    ∃ skipped component, skipped = (rest.takeWhile (· == slash)).length ∧
      component = (rest.drop skipped).takeWhile (· != slash) ∧
      bytePaths.Scanned rest skipped component (rest.drop (skipped + component.length)) :=
  ⟨_, _, rfl, rfl, scanned rest⟩

/-- The loop leaves the rendered stack of all components. -/
theorem normalizeLoop_run {fuel : Nat} (h : Stands input.length absolute stack s)
    (hreduced : bytePaths.Reduced absolute stack)
    (hpending : Pending input.length absolute stack (input.drop index))
    (hfuel : (input.drop index).length < fuel) :
    ∃ s', normalizeLoop input absolute fuel index s = .ok () s' ∧
      Stands input.length absolute ((bytePaths.components (input.drop index)).foldl
      (bytePaths.cancel absolute) stack) s' ∧
      (bytePaths.render absolute ((bytePaths.components (input.drop index)).foldl
        (bytePaths.cancel absolute) stack)).length ≤
        input.length + 1 := by
  induction fuel generalizing index stack s with
  | zero => exact (Nat.not_lt_zero _ hfuel).elim
  | succ fuel ih =>
    unfold normalizeLoop
    by_cases hmore : index < input.length
    · obtain ⟨skipped, component, hskipped, hcomponent, hscanned⟩ :=
        scanned_bytes (input.drop index)
      have hprogress := hscanned.progress
        (List.ne_nil_of_length_pos (by rw [List.length_drop]; omega))
      have hlength := hscanned.length
      have hnext : (input.drop index).drop (skipped + component.length) = input.drop
          (index + skipped + component.length) := by
        rw [List.drop_drop, Nat.add_assoc]
      rw [hnext] at hscanned hlength
      rw [if_pos hmore]
      rw [← hskipped, ← List.drop_drop, ← hcomponent]
      obtain ⟨s₁, hrun, hstands, hpending'⟩ := takeComponent_run h hreduced hpending hscanned
      obtain ⟨s', hrest, hresult⟩ := ih hstands (hreduced.foldl fun _ hother =>
        component_of_mem hother) hpending' (by omega)
      rw [run_ok hrun, hscanned.components, List.foldl_append]
      exact ⟨s', hrest, hresult⟩
    · have hdone : input.drop index = [] := List.drop_eq_nil_of_le (by omega)
      rw [if_neg hmore, hdone]
      have hroom := hpending.room
      exact ⟨s, rfl, h, by rw [components_nil, foldl_nil]; omega⟩

-- ============================================================================
-- The operations
-- ============================================================================

theorem terminated_append (h : 0 ∉ text) (rest : List (Option UInt8)) :
    terminated ((text ++ [0]).map some ++ rest) = .ok text := by
  induction text with
  | nil => rfl
  | cons byte text ih =>
    rw [List.mem_cons, not_or] at h
    rw [List.cons_append, List.map_cons, List.cons_append, terminated, if_neg (Ne.symm h.1), ih h.2]
    rfl

theorem readTerminated_run {s : BlockArray UInt8} (h : s.Front (text ++ [0])) (hfree : 0 ∉ text) :
    readTerminated s = .ok text s := by
  obtain ⟨rest, hrest⟩ := h
  rw [readTerminated, ← hrest, terminated_append hfree]

theorem not_mem_normalize (h : 0 ∉ path) : 0 ∉ bytePaths.normalize path := by
  intro hzero
  rcases mem_normalize hzero with hpath | hslash | hdot
  · exact h hpath
  · exact absurd hslash (by decide)
  · exact absurd hdot (by decide)

theorem stands_empty (length : Nat) :
    Stands length false [] ⟨allocated (length + 2), allocated (length + 2)⟩ :=
  ⟨allocated_holds _, rfl, allocated_holds _, rfl⟩

theorem root_run (input : Bytes) :
    ∃ s, (bytePaths.absolute input = true →
          appendBytes [slash] ⟨allocated (input.length + 2), allocated (input.length + 2)⟩ =
          .ok () s) ∧
      (bytePaths.absolute input = false → s = ⟨allocated (input.length + 2),
      allocated (input.length + 2)⟩) ∧
      Stands input.length (bytePaths.absolute input) [] s ∧
      Pending input.length (bytePaths.absolute input) [] input := by
  cases habsolute : bytePaths.absolute input with
  | true =>
    have hfirst : input.head? = some slash := of_decide_eq_true habsolute
    obtain ⟨rest, hrest⟩ := List.head?_eq_some_iff.mp hfirst
    obtain ⟨result, hrun, hholds, hcapacity⟩ := appendBytes_run (stands_empty input.length).result
      (show ([] : Bytes).length + [slash].length ≤ input.length + 2 by simp)
    refine ⟨_, fun _ => hrun, nofun, ⟨hholds, hcapacity, allocated_holds _, rfl⟩,
      ⟨?_, Nat.le_of_eq (Nat.zero_add _), .inr (.inr hfirst)⟩⟩
    rw [Nat.add_comm]
    exact Nat.le_refl _
  | false =>
    exact ⟨_, nofun, fun _ => rfl, stands_empty _,
      ⟨Nat.le_succ_of_le (Nat.le_of_eq (Nat.zero_add _)), Nat.le_of_eq (Nat.zero_add _), .inl rfl⟩⟩

theorem finish_run (h : s.result.Holds (length + 2) text) (hroom : s.result.capacity = length + 2)
    (hlength : text.length ≤ length + 1) (hfree : 0 ∉ if text = [] then [dot] else text) :
    ∃ s', finishOutput s = .ok (if text = [] then [dot] else text) s' := by
  -- with room for the terminator
  have hrest {s : NormalizeBuffers} {text : Bytes} (h : s.result.Holds (length + 2) text)
      (hroom : s.result.capacity = length + 2) (hlength : text.length ≤ length + 1)
        (hfree : 0 ∉ text) :
      ∃ s', (do
          let s ← get
          inResult (write s.result.length [0])
          inResult readTerminated : NormalizeM Bytes) s = .ok text s' := by
    obtain ⟨result, hwrite, -, hholds, -⟩ := h.append (show text.length + [(0 : UInt8)].length ≤
        s.result.capacity by
      rw [length_singleton]; omega)
    rw [run_get, run_ok (inResult_ok hwrite)]
    exact ⟨_, inResult_ok (readTerminated_run hholds.front hfree)⟩
  unfold finishOutput
  rw [run_get, h.length_eq, run_ite]
  by_cases hempty : text = []
  · subst hempty
    obtain ⟨result, hrun, hholds, hcapacity⟩ := appendBytes_run h
      (show ([] : Bytes).length + [dot].length ≤ s.result.capacity by rw [hroom]; simp)
    rw [if_pos length_nil, run_ok hrun]
    exact hrest hholds (hcapacity.trans hroom) (by simp) (by decide)
  · rw [if_neg hempty] at hfree
    rw [if_neg (fun hzero => hempty (List.eq_nil_of_length_eq_zero hzero)), if_neg hempty]
    exact hrest h hroom hlength hfree

/-- The block holds the normal form and its terminator. -/
theorem normalizeInto_run (hfree : 0 ∉ input) :
    ∃ s', normalizeInto input ⟨allocated (input.length + 2), allocated (input.length + 2)⟩ =
      .ok (bytePaths.normalize input) s' := by
  obtain ⟨s₁, habsolute, hrelative, hstands, hpending⟩ := root_run input
  obtain ⟨s₂, hloop, hstands', hlength⟩ := normalizeLoop_run hstands (show bytePaths.Reduced _ []
    from trivial)
    (show Pending _ _ _ (input.drop 0) from hpending) (show (input.drop 0).length < input.length + 1
      from Nat.lt_succ_self _)
  have hnormal := not_mem_normalize hfree
  obtain ⟨s', hfinish⟩ := finish_run hstands'.result hstands'.room hlength hnormal
  refine ⟨s', ?_⟩
  unfold normalizeInto
  show (if bytePaths.absolute input = true then _ else _ : NormalizeM Bytes) _ = _
  rw [run_ite]
  split
  · rename_i hroot
    rw [run_ok (habsolute hroot)]
    exact (run_ok hloop _).trans hfinish
  · rename_i hroot
    rw [← hrelative (Bool.not_eq_true _ ▸ hroot)]
    exact (run_ok hloop _).trans hfinish

/-- An operation returns a text, or sets an error code because memory is refused or a
    path is longer than any that fits in memory.  It never leaves its buffers. -/
inductive Yields (available : Nat → Bool) (longest : Nat) : Except PathStop Bytes →
    Bytes → Prop where
  | returned {text : Bytes} : Yields available longest (.ok text) text
  | refused {text : Bytes} {size : Nat} (h : available size = false) :
      Yields available longest (.error (.errno .noMemory)) text
  | tooLong {errno : PathErrno} {text : Bytes} (h : longestInput < longest) :
      Yields available longest (.error (.errno errno)) text

theorem Yields.longer {available : Nat → Bool} {longest longest' : Nat}
    {result : Except PathStop Bytes} (h : Yields available longest result text)
    (hle : longest ≤ longest') : Yields available longest' result text := by
  cases h with
  | returned => exact .returned
  | refused h => exact .refused h
  | tooLong h => exact .tooLong (Nat.lt_of_lt_of_le h hle)

theorem Yields.bind {available : Nat → Bool} {longest : Nat} {result : Except PathStop Bytes}
    {text other : Bytes}
    (h : Yields available longest result text) {next : Bytes → Except PathStop Bytes}
    (hnext : Yields available longest (next text) other) : Yields available longest (result >>=
    next) other := by
  cases h with
  | returned => exact hnext
  | refused h => exact .refused h
  | tooLong h => exact .tooLong h

theorem nativeString_yields (available : Nat → Bool) {bytes : Bytes} (hfree : 0 ∉ bytes) :
    Yields available bytes.length (nativeString available bytes) bytes := by
  have hlongest : longestInput = 2 ^ 61 - 3 := rfl
  have hsize : sizeMax = 2 ^ 64 - 1 := rfl
  unfold nativeString
  split
  · rename_i hinvalid
    have hlarge := hinvalid.resolve_right hfree
    exact .tooLong (by omega)
  · split
    · rename_i hmemory
      exact .refused hmemory
    · exact .returned

/-- Normalizing yields the normal form or runs out of memory. -/
theorem normalizePath_yields (available : Nat → Bool) (hfree : 0 ∉ input) :
    Yields available input.length (normalizePath available input) (bytePaths.normalize input) := by
  obtain ⟨s', hrun⟩ := normalizeInto_run hfree
  unfold normalizePath
  split
  · rename_i hlarge
    exact .tooLong hlarge
  · split
    · rename_i hmemory
      rcases hmemory with hresult | hmarks
      · exact .refused hresult
      · exact .refused hmarks
    · rw [hrun]
      exact .returned

theorem pathNormalize_yields (available : Nat → Bool) (hfree : 0 ∉ path) :
    Yields available path.length (pathNormalize available path) (bytePaths.normalize path) :=
  (nativeString_yields available hfree).bind (normalizePath_yields available hfree)

/-! ## Joining -/

/-- Joining writes a separator where there is none. -/
theorem joinAt_run {s : BlockArray UInt8} {first : Bytes} (h : s.Front first)
    (hfits : first.length + 1 ≤ s.cells.length) :
    ∃ s', joinAt first.length s = .ok (bytePaths.separated first).length s' ∧
      s'.Front (bytePaths.separated first) ∧
      s'.cells.length = s.cells.length := by
  have hlast := List.getLast?_eq_getElem? (l := first)
  unfold joinAt
  rw [run_ite, separated]
  by_cases hempty : first = []
  · subst hempty
    exact ⟨s, rfl, h, rfl⟩
  · obtain ⟨last, hsome⟩ : ∃ last, first.getLast? = some last :=
      ⟨_, List.getLast?_eq_some_getLast hempty⟩
    rw [if_pos (fun hzero => hempty (List.eq_nil_of_length_eq_zero hzero)),
      run_ok (h.getAt (hlast ▸ hsome)), hsome]
    beta_reduce
    rw [run_ite]
    by_cases hslash : last = slash
    · subst hslash
      rw [if_neg (not_not_intro rfl), if_pos (.inr rfl)]
      exact ⟨s, rfl, h, rfl⟩
    · have hneeded : ¬ (first = [] ∨ some last = some bytePaths.separator) :=
        not_or_intro hempty fun hsame => hslash (Option.some_inj.mp hsame)
      obtain ⟨s', hwrite, hcells, hfront⟩ :=
        h.append (show first.length + [slash].length ≤ s.cells.length from hfits)
      rw [if_pos hslash, if_neg hneeded, run_ok hwrite]
      refine ⟨s', ?_, hfront, hcells⟩
      rw [length_append]
      rfl

theorem separated_length (path : Bytes) : (bytePaths.separated path).length ≤ path.length + 1 := by
  rw [separated]
  split
  · exact Nat.le_succ _
  · rw [length_append, length_singleton]

theorem not_mem_separated (h : 0 ∉ path) : 0 ∉ bytePaths.separated path := by
  rw [separated]
  split
  · exact h
  · rw [mem_append, not_or]
    exact ⟨h, by decide⟩

/-- A join stays in its buffer and gives the joined path. -/
theorem joinInto_run {first second : Bytes} (hfirst : 0 ∉ first) (hsecond : 0 ∉ second) :
    ∃ s', joinInto first second (allocated (first.length + second.length + 2)) =
      .ok (bytePaths.separated first ++ second) s' := by
  have hempty : Front (allocated (first.length + second.length + 2) : BlockArray UInt8) [] :=
    List.nil_prefix
  have hcells : (allocated (first.length + second.length + 2) : BlockArray UInt8).cells.length =
      first.length + second.length + 2 :=
    List.length_replicate
  have hlonger := separated_length first
  obtain ⟨s₁, hwrite, hsame, hfront⟩ :=
      hempty.append (show ([] : Bytes).length + first.length ≤ _ by
    rw [hcells, length_nil]; omega)
  obtain ⟨s₂, hat, hfront', hsame'⟩ := joinAt_run hfront (by rw [hsame, hcells, nil_append]; omega)
  rw [nil_append] at hat hfront'
  obtain ⟨s₃, hwrite', -, hfront''⟩ := hfront'.append
    (show (bytePaths.separated first).length + (second ++ [0]).length ≤ s₂.cells.length by
      rw [hsame', hsame, hcells, length_append, length_singleton]; omega)
  rw [← List.append_assoc] at hfront''
  have hfree : 0 ∉ bytePaths.separated first ++ second := by
    rw [mem_append, not_or]
    exact ⟨not_mem_separated hfirst, hsecond⟩
  refine ⟨s₃, ?_⟩
  unfold joinInto
  exact (run_ok hwrite _).trans
    ((run_ok hat _).trans ((run_ok hwrite' _).trans (readTerminated_run hfront'' hfree)))

/-- What `join` makes of two paths. -/
def joined (left right : Bytes) : Bytes :=
  if right.head? = some slash then bytePaths.normalize right
    else bytePaths.normalize (bytePaths.separated left ++ right)

theorem pathJoin_yields (available : Nat → Bool) {left right : Bytes} (hleft : 0 ∉ left)
    (hright : 0 ∉ right) :
    Yields available (left.length + right.length + 1) (pathJoin available left right)
    (joined left right) := by
  have hlongest : longestInput = 2 ^ 61 - 3 := rfl
  have hsize : sizeMax = 2 ^ 64 - 1 := rfl
  have hlonger := separated_length left
  unfold pathJoin joined
  refine ((nativeString_yields available hleft).longer (by omega)).bind ?_
  refine ((nativeString_yields available hright).longer (by omega)).bind ?_
  split
  · exact (normalizePath_yields available hright).longer (by omega)
  · split
    · exact .tooLong (by omega)
    · split
      · rename_i hmemory
        exact .refused hmemory
      · obtain ⟨s', hrun⟩ := joinInto_run hleft hright
        have hfree : 0 ∉ bytePaths.separated left ++ right := by
          rw [mem_append, not_or]
          exact ⟨not_mem_separated hleft, hright⟩
        rw [hrun]
        refine (normalizePath_yields available hfree).longer ?_
        rw [length_append]
        omega

/-! ## Taking apart -/

theorem trim_same (path : Bytes) :
    bytePaths.components (trimTrailingSlashes path) = bytePaths.components path ∧
      bytePaths.absolute (trimTrailingSlashes path) = bytePaths.absolute path := by
  have hreversed (bytes : Bytes) : bytePaths.components (trimReversed bytes).reverse =
      bytePaths.components bytes.reverse ∧
      bytePaths.absolute (trimReversed bytes).reverse = bytePaths.absolute bytes.reverse := by
    fun_induction trimReversed bytes with
    | case1 before rest ih =>
      rw [List.reverse_cons (a := slash), show [slash] = bytePaths.separator :: [] from rfl,
        components_append,
        components_nil, List.append_nil]
      refine ⟨ih.1, ih.2.trans ?_⟩
      rw [absolute, absolute, List.head?_append_of_ne_nil _ (by simp)]
    | case2 | case3 => exact ⟨rfl, rfl⟩
  have hpath := hreversed path.reverse
  rwa [List.reverse_reverse] at hpath

theorem trim_subset {byte : UInt8} (h : byte ∈ trimTrailingSlashes path) : byte ∈ path := by
  have hreversed (bytes : Bytes) : byte ∈ trimReversed bytes → byte ∈ bytes := by
    fun_induction trimReversed bytes with
    | case1 before rest ih => exact fun hmem => List.mem_cons_of_mem _ (ih hmem)
    | case2 => exact id
    | case3 => exact id
  exact List.mem_reverse.mp (hreversed path.reverse (List.mem_reverse.mp h))

theorem trim_length (path : Bytes) : (trimTrailingSlashes path).length ≤ path.length := by
  have hreversed (bytes : Bytes) : (trimReversed bytes).length ≤ bytes.length := by
    fun_induction trimReversed bytes with
    | case1 before rest ih => exact Nat.le_succ_of_le ih
    | case2 | case3 => exact Nat.le_refl _
  rw [trimTrailingSlashes, List.length_reverse]
  exact Nat.le_trans (hreversed path.reverse) (Nat.le_of_eq List.length_reverse)

theorem lastSlash_none (h : lastSlash text = none) : slash ∉ text := by
  induction text with
  | nil => exact List.not_mem_nil
  | cons byte rest ih =>
    rw [lastSlash] at h
    split at h
    · cases h
    · rename_i hrest
      split at h
      · cases h
      · rename_i hother
        rw [List.mem_cons, not_or]
        exact ⟨Ne.symm hother, ih hrest⟩

theorem lastSlash_some (h : lastSlash text = some index) :
    text = text.take index ++ slash :: text.drop (index + 1) ∧ slash ∉ text.drop (index + 1) := by
  induction text generalizing index with
  | nil => cases h
  | cons byte rest ih =>
    rw [lastSlash] at h
    split at h
    · rename_i behind hrest
      cases h
      obtain ⟨hsplit, hfree⟩ := ih hrest
      exact ⟨congrArg (byte :: ·) hsplit, hfree⟩
    · rename_i hrest
      split at h
      · rename_i hslash
        cases h
        subst hslash
        exact ⟨rfl, lastSlash_none hrest⟩
      · cases h

/-- What `dirname` returns for a path without trailing separators. -/
def directoryOf (value : Bytes) : Bytes :=
  match lastSlash value with
  | none => [dot]
  | some 0 => [slash]
  | some index => value.take index

/-- What `basename` returns for it. -/
def baseOf (value : Bytes) : Bytes :=
  if value = [slash] then value
  else
    match lastSlash value with
    | none => value
    | some index => value.drop (index + 1)

theorem pathBasename_yields (available : Nat → Bool) (hfree : 0 ∉ path) :
    Yields available path.length (pathBasename available path)
    (baseOf (trimTrailingSlashes path)) := by
  unfold pathBasename baseOf
  refine (nativeString_yields available hfree).bind ?_
  dsimp only
  split
  · exact .returned
  · cases lastSlash (trimTrailingSlashes path) with
    | none | some index => exact .returned

theorem pathDirname_yields (available : Nat → Bool) (hfree : 0 ∉ path) :
    Yields available path.length (pathDirname available path)
    (directoryOf (trimTrailingSlashes path)) := by
  unfold pathDirname directoryOf
  refine (nativeString_yields available hfree).bind ?_
  dsimp only
  -- the short answers are copied
  have hcopy (text : Bytes) : Yields available path.length
      (if available 2 = false then throw (.errno .noMemory) else pure text : Except PathStop Bytes)
          text := by
    split
    · rename_i hmemory
      exact .refused hmemory
    · exact .returned
  cases lastSlash (trimTrailingSlashes path) with
  | none => exact hcopy [dot]
  | some index =>
    cases index with
    | zero => exact hcopy [slash]
    | succ index => exact .returned

theorem not_absolute_of_free (h : slash ∉ text) : text.head? ≠ some slash := by
  intro hfirst
  obtain ⟨rest, rfl⟩ := List.head?_eq_some_iff.mp hfirst
  exact h List.mem_cons_self

theorem joined_parts (value : Bytes) : joined (directoryOf value)
    (baseOf value) = bytePaths.normalize value := by
  unfold joined baseOf
  by_cases hroot : value = [slash]
  · rw [if_pos hroot, hroot]
    rfl
  rw [if_neg hroot]
  unfold directoryOf
  cases hlast : lastSlash value with
  | none =>
    -- there is no separator: the directory is `.`
    have hfree := lastSlash_none hlast
    have hrelative : bytePaths.absolute value = false :=
      decide_eq_false (not_absolute_of_free hfree)
    dsimp only
    rw [if_neg (not_absolute_of_free hfree)]
    apply normalize_congr
    · rw [absolute_separated (by simp), hrelative]
      rfl
    · rw [components_separated, show [dot] = [bytePaths.dot] from rfl, components_dot, nil_append]
  | some index =>
    obtain ⟨hsplit, hfree⟩ := lastSlash_some hlast
    cases index with
    | zero =>
      dsimp only
      rw [if_neg (not_absolute_of_free hfree)]
      conv_rhs => rw [hsplit]
      apply normalize_congr
      · rfl
      · rw [components_separated]
        rfl
    | succ index =>
      dsimp only
      rw [if_neg (not_absolute_of_free hfree)]
      conv_rhs => rw [hsplit]
      have hdirectory : value.take (index + 1) ≠ [] := by
        intro hnil
        rw [(List.take_eq_nil_iff.mp hnil).resolve_left (Nat.succ_ne_zero _)] at hlast
        cases hlast
      apply normalize_congr
      · show bytePaths.absolute (bytePaths.separated (value.take (index + 1)) ++ _) = _
        rw [absolute_separated hdirectory, absolute, absolute,
          List.head?_append_of_ne_nil _ hdirectory]
      · rw [components_separated]
        exact (components_append (A := bytePaths) _ _).symm

theorem directoryOf_spec (value : Bytes) :
    (directoryOf value).length ≤ value.length + 1 ∧ ∀ byte ∈ directoryOf value, byte ∈ value ∨
    byte = dot ∨ byte = slash := by
  unfold directoryOf
  cases lastSlash value with
  | none => exact ⟨Nat.le_add_left _ _, fun byte hbyte => .inr (.inl (List.mem_singleton.mp hbyte))⟩
  | some index =>
    cases index with
    | zero =>
      exact ⟨Nat.le_add_left _ _, fun byte hbyte => .inr (.inr (List.mem_singleton.mp hbyte))⟩
    | succ index =>
      show (value.take (index + 1)).length ≤ _ ∧ ∀ byte ∈ value.take (index + 1), _
      rw [List.length_take]
      exact ⟨by omega, fun byte hbyte => .inl (List.mem_of_mem_take hbyte)⟩

theorem baseOf_spec (value : Bytes) : (baseOf value).length ≤ value.length ∧ ∀ byte ∈ baseOf value,
    byte ∈ value := by
  unfold baseOf
  split
  · exact ⟨Nat.le_refl _, fun _ hbyte => hbyte⟩
  · cases lastSlash value with
    | none => exact ⟨Nat.le_refl _, fun _ hbyte => hbyte⟩
    | some index =>
      dsimp only
      rw [List.length_drop]
      exact ⟨Nat.sub_le _ _, fun byte hbyte => List.mem_of_mem_drop hbyte⟩

/-- Lexical operations on paths.  `normalize` returns what the reference says, and the
    same when it is applied again; `join` normalizes the second path if it is absolute,
    and else the paths with one separator between them, if there is anything to
    separate; directory and base name together mean the path. -/
theorem paths_normalized (available : Nat → Bool) {path : Bytes} (hpath : 0 ∉ path) :
    Yields available path.length (pathNormalize available path) (bytePaths.normalize path) ∧
    Yields available (bytePaths.normalize path).length
      (pathNormalize available (bytePaths.normalize path))
      (bytePaths.normalize path) ∧
    (∀ right, 0 ∉ right → Yields available (path.length + right.length + 1)
      (pathJoin available path right)
      (if right.head? = some slash ∨ path = [] then bytePaths.normalize right
        else bytePaths.normalize (path ++ slash :: right))) ∧
    ∃ directory base, Yields available path.length (pathDirname available path) directory ∧
      Yields available path.length (pathBasename available path) base ∧
      Yields available (2 * path.length + 2) (pathJoin available directory base)
      (bytePaths.normalize path) := by
  refine ⟨pathNormalize_yields available hpath, ?_, ?_, ?_⟩
  · -- a normal form is its own
    have hagain := pathNormalize_yields available (not_mem_normalize hpath)
    rwa [normalize_idempotent] at hagain
  · intro right hright
    have hjoin := pathJoin_yields available hpath hright
    unfold joined at hjoin
    by_cases habsolute : right.head? = some slash
    · rw [if_pos habsolute] at hjoin
      rwa [if_pos (.inl habsolute)]
    · rw [if_neg habsolute] at hjoin
      by_cases hempty : path = []
      · subst hempty
        rwa [if_pos (.inr rfl)]
      · have hsame : bytePaths.normalize (bytePaths.separated path ++ right) = bytePaths.normalize
            (path ++ slash :: right) := by
          apply normalize_congr
          · rw [absolute_separated hempty, absolute, absolute, List.head?_append_of_ne_nil _ hempty]
          · rw [components_separated]
            exact (components_append (A := bytePaths) _ _).symm
        rwa [if_neg (not_or_intro habsolute hempty), ← hsame]
  · -- directory and base, joined, have the components of the path
    refine ⟨directoryOf (trimTrailingSlashes path), baseOf (trimTrailingSlashes path),
      pathDirname_yields available hpath, pathBasename_yields available hpath, ?_⟩
    obtain ⟨hdirectory, hdirectoryBytes⟩ := directoryOf_spec (trimTrailingSlashes path)
    obtain ⟨hbase, hbaseBytes⟩ := baseOf_spec (trimTrailingSlashes path)
    have htrim := trim_length path
    have hdirectoryFree : 0 ∉ directoryOf (trimTrailingSlashes path) := by
      intro hzero
      rcases hdirectoryBytes 0 hzero with hmem | hdot | hslash
      · exact hpath (trim_subset hmem)
      · exact absurd hdot (by decide)
      · exact absurd hslash (by decide)
    have hbaseFree : 0 ∉ baseOf (trimTrailingSlashes path) := fun hzero =>
      hpath (trim_subset (hbaseBytes 0 hzero))
    have hjoin := pathJoin_yields available hdirectoryFree hbaseFree
    rw [joined_parts, normalize_congr (trim_same path).2 (trim_same path).1] at hjoin
    exact hjoin.longer (by omega)

theorem paths_normalized_parent :
    ∃ path : Bytes, path = [0x2f, 0x61, 0x2f, 0x2e, 0x2e, 0x2f, 0x62] ∧
      Yields (fun _ => true) path.length (pathNormalize (fun _ => true) path)
      (bytePaths.normalize path) ∧
      bytePaths.normalize path = [0x2f, 0x62] := by
  have hfree : (0 : UInt8) ∉ [0x2f, 0x61, 0x2f, 0x2e, 0x2e, 0x2f, 0x62] := by decide
  have hnormal : bytePaths.normalize [0x2f, 0x61, 0x2f, 0x2e, 0x2e, 0x2f, 0x62] =
    [0x2f, 0x62] := by decide +kernel
  exact ⟨_, rfl, (paths_normalized (fun _ => true) hfree).1, hnormal⟩

/-- Nothing separates an empty path from what is joined to it. -/
theorem join_empty :
    ¬ ∀ left right, 0 ∉ left → 0 ∉ right → right.head? ≠ some slash →
      pathJoin (fun _ => true) left right = .ok (bytePaths.normalize (left ++ slash :: right)) := by
  intro hall
  have hjoin := hall [] [0x78] (by decide) (by decide) (by decide)
  have hcode : pathJoin (fun _ => true) [] [0x78] = .ok [0x78] := by decide +kernel
  have hclaim : bytePaths.normalize ([] ++ slash :: [0x78]) = [0x2f, 0x78] := by decide +kernel
  rw [hcode, hclaim] at hjoin
  cases hjoin

end Cwhip.Runtime.Paths
