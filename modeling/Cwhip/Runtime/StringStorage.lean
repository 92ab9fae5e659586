/-
  Cwhip.Runtime.StringStorage

  The bytes of a String stay a text while it grows and shrinks: its operations cut
  them where `utf8_boundary` holds (`RuntimeGc.c`).

  The bytes lie in a buffer like any other, and other storage is used in between.
-/

import Cwhip.Lib.Utf8Text
import Cwhip.Runtime.GrowableStorageRuns

namespace Cwhip.Runtime

open Cwhip.Lib Cwhip.Lib.Utf8

/-! ## One operation -/

variable {value value' other : Bytes}

theorem charBoundary_of_utf8Boundary {index : Nat} (h : WellFormed value)
    (hboundary : utf8Boundary value index = true) : CharBoundary value index := by
  rw [utf8Boundary, Bool.or_eq_true, beq_iff_eq] at hboundary
  apply charBoundary_of_lead h
  · intro byte hbyte
    rcases hboundary with rfl | hlead
    · rw [List.getElem?_eq_none (Nat.le_refl _)] at hbyte
      cases hbyte
    · rw [hbyte] at hlead
      simpa [isContinuation] using hlead
  · rcases hboundary with rfl | hlead
    · exact Nat.le_refl _
    · by_contra hless
      rw [List.getElem?_eq_none (by omega)] at hlead
      cases hlead

theorem insertedString_text {index : Int64} (h : WellFormed value) (hother : WellFormed other)
    (hinsert : insertedString index other value = .returned value') : WellFormed value' := by
  unfold insertedString at hinsert
  dsimp only at hinsert
  split at hinsert
  · cases hinsert
  split at hinsert
  · cases hinsert
  · next hboundary =>
    split at hinsert
    · cases hinsert
    · cases hinsert
      obtain ⟨hbefore, hafter, -⟩ :=
        charBoundary_of_utf8Boundary h ((Bool.not_eq_false _).mp hboundary)
      exact (hbefore.append hother).append hafter

theorem removedString_text {first last : Int64} (h : WellFormed value)
    (hremove : removedString first last value = .returned value') : WellFormed value' := by
  unfold removedString at hremove
  dsimp only at hremove
  split at hremove
  · cases hremove
  · next hboundaries =>
    simp only [not_or, Bool.not_eq_false] at hboundaries
    cases hremove
    split
    · exact (charBoundary_of_utf8Boundary h hboundaries.1).1.append
        (charBoundary_of_utf8Boundary h hboundaries.2).2.1
    · exact h

/-! ## Any sequence -/

variable {contents contents' : Contents} {buffer : Nat}

/-- The operation does to this buffer only what the methods of a String do. -/
def StringAction (buffer : Nat) : CollectionAction → Prop
  | .resizeBuffer other _ | .appendBuffer other _ | .setBuffer other _ _ => other ≠ buffer
  | .insert other _ bytes => other = buffer → WellFormed bytes
  | _ => True

/-- The buffer holds a text. -/
def Contents.HoldsText (contents : Contents) (buffer : Nat) : Prop :=
  ∃ value, contents.buffers[buffer]? = some value ∧ WellFormed value

theorem changeEntry_text {buffers : List Bytes} {entry : Nat} {op : Bytes → Outcome Bytes}
    (hvalue : buffers[buffer]? = some value) (h : WellFormed value)
    (hop : entry = buffer → ∀ value', op value = .returned value' → WellFormed value') :
    ∃ value', (changeEntry buffers entry op)[buffer]? = some value' ∧ WellFormed value' := by
  unfold changeEntry
  cases hentry : buffers[entry]? with
  | none => exact ⟨value, hvalue, h⟩
  | some old =>
    dsimp only
    cases hresult : op old with
    | raised message => exact ⟨value, hvalue, h⟩
    | returned new =>
      by_cases hsame : entry = buffer
      · subst hsame
        obtain rfl := Option.some.inj (hvalue.symm.trans hentry)
        refine ⟨new, ?_, hop rfl new hresult⟩
        exact List.getElem?_set_self (List.getElem?_eq_some_iff.mp hentry).1
      · exact ⟨value, (List.getElem?_set_ne hsame).trans hvalue, h⟩

theorem Contents.Next.holdsText {action : CollectionAction} (hnext : contents.Next action contents')
    (h : contents.HoldsText buffer) (haction : StringAction buffer action) :
    contents'.HoldsText buffer := by
  obtain ⟨value, hvalue, htext⟩ := h
  -- what is made in the course stands behind the buffers there are
  have hadded (added : Bytes) : (contents.buffers ++ [added])[buffer]? = some value :=
    (List.getElem?_append_left (List.getElem?_eq_some_iff.mp hvalue).1).trans hvalue
  cases action with
  | newList | resizeList | appendList =>
    cases hnext
    exact ⟨value, hvalue, htext⟩
  | newBuffer length =>
    unfold Contents.Next at hnext
    dsimp only at hnext
    split at hnext
    · cases hnext
      exact ⟨value, hadded _, htext⟩
    · cases hnext
      exact ⟨value, hvalue, htext⟩
  | resizeBuffer | appendBuffer | setBuffer =>
    cases hnext
    exact changeEntry_text hvalue htext fun hsame => absurd hsame haction
  | clearBuffer other =>
    cases hnext
    show ∃ value', (changeEntry _ _ fun _ => .returned [])[buffer]? = some value' ∧ _
    refine changeEntry_text hvalue htext fun _ => ?_
    rintro _ ⟨⟩
    exact .nil
  | insert other index bytes =>
    cases hnext
    exact changeEntry_text hvalue htext fun hsame _ => insertedString_text htext (haction hsame)
  | removeRange other first last =>
    cases hnext
    exact changeEntry_text hvalue htext fun _ _ => removedString_text htext
  | beginSlice other start stop =>
    unfold Contents.Next at hnext
    dsimp only at hnext
    split at hnext <;>
    · cases hnext
      exact ⟨value, hvalue, htext⟩
  | endSlice slice =>
    unfold Contents.Next at hnext
    dsimp only at hnext
    split at hnext
    · cases hnext
      exact ⟨value, hvalue, htext⟩
    · obtain ⟨_, bytes, _, _, rfl⟩ := hnext
      exact ⟨value, hadded bytes, htext⟩

theorem Contents.Reaches.holdsText {actions : List CollectionAction}
    (hreaches : contents.Reaches actions contents')
    (h : contents.HoldsText buffer) (hactions : ∀ action ∈ actions, StringAction buffer action) :
    contents'.HoldsText buffer := by
  induction actions generalizing contents with
  | nil => exact hreaches ▸ h
  | cons action actions ih =>
    obtain ⟨next, hnext, hrest⟩ := hreaches
    obtain ⟨hfirst, hothers⟩ := List.forall_mem_cons.mp hactions
    exact ih hrest (hnext.holdsText h hfirst) hothers

/-- A buffer that holds a text, and to which only Strings are inserted and ranges
    removed, holds a text after any operations on it and on other storage, within its
    capacity; the operations come to an end unless memory is refused. -/
theorem strings_stay_texts {store : Collections} (hstore : store.Represents contents)
    (htext : contents.HoldsText buffer) (turns : List CollectionTurn)
    (hturns : ∀ turn ∈ turns, StringAction buffer turn.action) :
    (∃ store' contents', store.run turns = .ok () store' ∧ store'.Represents contents' ∧
      contents'.HoldsText buffer ∧ ∀ s ∈ store'.buffers, s.length ≤ s.capacity) ∨
    ∃ store', store.run turns = .error .aborted store' ∧
      ∃ turn ∈ turns, ∃ bytes, turn.available bytes = false := by
  have hrun := run_sound hstore turns
  cases hend : store.run turns with
  | ok result store' =>
    rw [hend] at hrun
    obtain ⟨contents', hreaches, hstore'⟩ := hrun
    refine .inl ⟨store', contents', rfl, hstore', ?_, fun s hs => forall₂_fits hstore'.buffers hs⟩
    exact hreaches.holdsText htext (List.forall_mem_map.mpr hturns)
  | error stop store' =>
    rw [hend] at hrun
    obtain ⟨rfl, hmemory⟩ := hrun
    exact .inr ⟨store', rfl, hmemory⟩

/-- An empty String. -/
def emptyString : Collections := ⟨[], [.empty], []⟩

theorem emptyString_represents : emptyString.Represents ⟨[], [[]], []⟩ :=
  ⟨.nil, .cons ⟨rfl, List.nil_prefix, rfl, Nat.zero_le _⟩ .nil, rfl, fun _ h =>
    absurd h List.not_mem_nil⟩

/-- `é` is inserted; a second insertion would split it. -/
def stringTurns : List CollectionTurn :=
  [⟨.insert 0 0 [0xc3, 0xa9], fun _ => true⟩, ⟨.insert 0 1 [0x61], fun _ => true⟩]

theorem strings_stay_texts_sample : ∃ store' contents', emptyString.run stringTurns =
    .ok () store' ∧
    store'.Represents contents' ∧ contents'.HoldsText 0 := by
  have haccent : WellFormed [0xc3, 0xa9] := ⟨"é".toList, by decide +kernel⟩
  have ha : WellFormed [0x61] := ⟨"a".toList, by decide +kernel⟩
  rcases @strings_stay_texts _ 0 _ emptyString_represents ⟨[], rfl, .nil⟩ stringTurns
    (by simp [stringTurns, StringAction, haccent, ha]) with ⟨store', contents', hrun, hstore, htext,
      -⟩ | ⟨_, _, hmemory⟩
  · exact ⟨store', contents', hrun, hstore, htext⟩
  · simp [stringTurns] at hmemory

end Cwhip.Runtime
