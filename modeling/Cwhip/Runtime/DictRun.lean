/-
  Cwhip.Runtime.DictRun

  Sequences of calls on the dicts of a program, beside the same calls on
  association lists.  `mapStep_returns` is one call, `runMaps_refines` a whole
  sequence.
-/

import Cwhip.Runtime.DictSound

namespace Cwhip.Runtime

open Cwhip.Lib

variable {V : Type}

/-- A call on the dicts of a program.  A dict is the number of its creation; any
    other number is the null reference. -/
inductive MapOp (V : Type) where
  | create
  | set (dict : Nat) (key : Bytes) (value : V)
  | get (dict : Nat) (key : Bytes)
  | contains (dict : Nat) (key : Bytes)
  | remove (dict : Nat) (key : Bytes)
  | entryAt (dict : Nat) (index : Nat)
  | slice (dict : Nat) (start stop : Option Int)

/-- What a call gives. -/
inductive MapResult (V : Type) where
  | done
  | value (value : V)
  | flag (flag : Bool)
  | entry (key : Bytes) (value : V)
  | dict (dict : Nat)
  | raises (message : String)
  deriving DecidableEq

def MapResult.ofValue : Except String V → MapResult V
  | .ok found => .value found
  | .error message => .raises message

def MapResult.ofEntry : Except String (Bytes × V) → MapResult V
  | .ok found => .entry found.1 found.2
  | .error message => .raises message

/-- `checked_map`: what the call does with the dict, or the exception for null. -/
def onMap {S : Type} (dicts : List S) (dict : Nat)
    (call : S → Except MapFault (List S × MapResult V)) : Except MapFault (List S × MapResult V) :=
  match dicts[dict]? with
  | some map => call map
  | none => .ok (dicts, .raises "null dict reference")

/-- One call. -/
def mapStep (maps : List (CwhipMap V)) : MapOp V → Except MapFault (List (CwhipMap V) × MapResult V)
  | .create => .ok (maps ++ [CwhipMap.empty], .dict maps.length)
  | .set dict key value => onMap maps dict fun map => do
    let after ← map.set key value
    return (maps.set dict after, .done)
  | .get dict key => onMap maps dict fun map => do
    let result ← map.get key
    return (maps, .ofValue result)
  | .contains dict key => onMap maps dict fun map => do
    let result ← map.contains key
    return (maps, .flag result)
  | .remove dict key => onMap maps dict fun map => do
    let (after, removed) ← map.remove key
    return (maps.set dict after, .flag removed)
  | .entryAt dict index => onMap maps dict fun map =>
    return (maps, .ofEntry (map.entryAt index))
  | .slice dict start stop => onMap maps dict fun map => do
    let copy ← map.slice start stop
    return (maps ++ [copy], .dict maps.length)

/-- The call on association lists. -/
def mapSpecStep (dicts : List (List (Bytes × V))) : MapOp V → List (List (Bytes × V)) × MapResult V
  | .create => (dicts ++ [[]], .dict dicts.length)
  | .set dict key value => match dicts[dict]? with
    | some entries => (dicts.set dict (mapSet entries key value), .done)
    | none => (dicts, .raises "null dict reference")
  | .get dict key => match dicts[dict]? with
    | some entries => (dicts, .ofValue (CwhipMap.mapGet entries key))
    | none => (dicts, .raises "null dict reference")
  | .contains dict key => match dicts[dict]? with
    | some entries => (dicts, .flag (decide (key ∈ entries.map Prod.fst)))
    | none => (dicts, .raises "null dict reference")
  | .remove dict key => match dicts[dict]? with
    | some entries => (dicts.set dict (entries.filter fun entry => entry.1 ≠ key),
        .flag (decide (key ∈ entries.map Prod.fst)))
    | none => (dicts, .raises "null dict reference")
  | .entryAt dict index => match dicts[dict]? with
    | some entries =>
      (dicts, .ofEntry (require entries[index]? "dict iteration index out of bounds"))
    | none => (dicts, .raises "null dict reference")
  | .slice dict start stop => match dicts[dict]? with
    | some entries => (dicts ++ [dictSliceSpec entries start stop], .dict dicts.length)
    | none => (dicts, .raises "null dict reference")

/-- A sequence of calls, with their results. -/
def runMaps (maps : List (CwhipMap V)) :
    List (MapOp V) → Except MapFault (List (CwhipMap V) × List (MapResult V))
  | [] => .ok (maps, [])
  | op :: rest => do
    let (after, result) ← mapStep maps op
    let (last, results) ← runMaps after rest
    return (last, result :: results)

/-- The sequence on association lists. -/
def runMapSpecs (dicts : List (List (Bytes × V))) :
    List (MapOp V) → List (List (Bytes × V)) × List (MapResult V)
  | [] => (dicts, [])
  | op :: rest =>
    let (after, result) := mapSpecStep dicts op
    let (last, results) := runMapSpecs after rest
    (last, result :: results)

/-- The key a call is given. -/
def MapOp.key : MapOp V → Bytes
  | .set _ key _ | .get _ key | .contains _ key | .remove _ key => key
  | _ => []

/-- A call that no memory is large enough for: its key does not fit in an address
    space, or a dict already has `2 ^ 58` entries of 56 bytes. -/
def BeyondMemory (dicts : List (List (Bytes × V))) (op : MapOp V) : Prop :=
  sizeMax < op.key.length ∨ ∃ entries ∈ dicts, CwhipMap.entryLimit ≤ entries.length

/-- Maps that stand for these association lists. -/
structure Represents (maps : List (CwhipMap V)) (dicts : List (List (Bytes × V))) : Prop where
  values : maps.map CwhipMap.value = dicts
  indexed : ∀ map ∈ maps, map.Indexed

variable {maps : List (CwhipMap V)} {dicts : List (List (Bytes × V))}

theorem Represents.length (h : Represents maps dicts) : maps.length = dicts.length := by
  rw [← h.values, List.length_map]

theorem Represents.append (h : Represents maps dicts) {map : CwhipMap V} (hmap : map.Indexed) :
    Represents (maps ++ [map]) (dicts ++ [map.value]) := by
  refine ⟨by rw [List.map_append, h.values]; rfl, ?_⟩
  intro other hother
  rw [List.mem_append, List.mem_singleton] at hother
  obtain hold | rfl := hother
  · exact h.indexed other hold
  · exact hmap

theorem Represents.set (h : Represents maps dicts) (dict : Nat) {map : CwhipMap V}
    (hmap : map.Indexed) :
    Represents (maps.set dict map) (dicts.set dict map.value) := by
  refine ⟨by rw [List.map_set, h.values], ?_⟩
  intro other hother
  obtain hold | rfl := List.mem_or_eq_of_mem_set hother
  · exact h.indexed other hold
  · exact hmap

/-- One operation, on the table and on the dict it represents. -/
theorem mapStep_returns (h : Represents maps dicts) (op : MapOp V) :
    CwhipMap.Returns (mapStep maps op) (BeyondMemory dicts op) fun result =>
      Represents result.1 (mapSpecStep dicts op).1 ∧ result.2 = (mapSpecStep dicts op).2 := by
  have hget : ∀ dict : Nat, dicts[dict]? = maps[dict]?.map CwhipMap.value := by
    intro dict
    rw [← h.values, List.getElem?_map]
  -- the one refusal of an operation: its map holds as many entries as one can
  have hlarge : ∀ {dict : Nat} {map : CwhipMap V}, maps[dict]? = some map →
      CwhipMap.entryLimit ≤ map.entries.length → BeyondMemory dicts op := by
    intro dict map hmap hlimit
    have hvalue : map.value ∈ dicts := by
      rw [← h.values]
      exact List.mem_map.mpr ⟨map, List.mem_of_getElem? hmap, rfl⟩
    exact .inr ⟨map.value, hvalue, by rwa [CwhipMap.value_length]⟩
  cases op with
  | create => exact ⟨h.append CwhipMap.indexed_empty, congrArg _ h.length⟩
  | set dict key value =>
    rw [mapStep, mapSpecStep, onMap, hget]
    cases hmap : maps[dict]? with
    | none => exact ⟨h, rfl⟩
    | some map =>
      have hindexed := h.indexed map (List.mem_of_getElem? hmap)
      apply CwhipMap.Returns.bind ((CwhipMap.set_returns hindexed key value).mono
        (Or.rec .inl (hlarge hmap)) fun _ set => set)
      rintro after ⟨hafter, hvalue⟩
      refine ⟨?_, rfl⟩
      show Represents _ (dicts.set dict (mapSet map.value key value))
      rw [← hvalue]
      exact h.set dict hafter
  | get dict key =>
    rw [mapStep, mapSpecStep, onMap, hget]
    cases hmap : maps[dict]? with
    | none => exact ⟨h, rfl⟩
    | some map =>
      have hindexed := h.indexed map (List.mem_of_getElem? hmap)
      apply CwhipMap.Returns.bind ((CwhipMap.get_returns hindexed key).mono .inl fun _ got => got)
      rintro _ rfl
      exact ⟨h, rfl⟩
  | contains dict key =>
    rw [mapStep, mapSpecStep, onMap, hget]
    cases hmap : maps[dict]? with
    | none => exact ⟨h, rfl⟩
    | some map =>
      have hindexed := h.indexed map (List.mem_of_getElem? hmap)
      apply CwhipMap.Returns.bind
        ((CwhipMap.contains_returns hindexed key).mono .inl fun _ found => found)
      rintro _ rfl
      exact ⟨h, rfl⟩
  | remove dict key =>
    rw [mapStep, mapSpecStep, onMap, hget]
    cases hmap : maps[dict]? with
    | none => exact ⟨h, rfl⟩
    | some map =>
      have hindexed := h.indexed map (List.mem_of_getElem? hmap)
      apply CwhipMap.Returns.bind
        ((CwhipMap.remove_returns hindexed key).mono .inl fun _ removed => removed)
      rintro ⟨after, removed⟩ ⟨hafter, hvalue, hremoved⟩
      refine ⟨?_, congrArg _ hremoved⟩
      show Represents _ (dicts.set dict (map.value.filter fun entry => entry.1 ≠ key))
      rw [← hvalue]
      exact h.set dict hafter
  | entryAt dict index =>
    rw [mapStep, mapSpecStep, onMap, hget]
    cases maps[dict]? with
    | none => exact ⟨h, rfl⟩
    | some map => exact ⟨h, congrArg MapResult.ofEntry (map.entryAt_eq index)⟩
  | slice dict start stop =>
    rw [mapStep, mapSpecStep, onMap, hget]
    cases hmap : maps[dict]? with
    | none => exact ⟨h, rfl⟩
    | some map =>
      have hindexed := h.indexed map (List.mem_of_getElem? hmap)
      apply CwhipMap.Returns.bind ((CwhipMap.slice_returns hindexed start stop).mono
        (fun hover => hlarge hmap (Nat.le_of_lt hover)) fun _ sliced => sliced)
      rintro copy ⟨hcopy, hvalue⟩
      refine ⟨?_, congrArg MapResult.dict h.length⟩
      show Represents _ (dicts ++ [dictSliceSpec map.value start stop])
      rw [← hvalue]
      exact h.append hcopy

/-- The calls up to the first that memory is too small for. -/
def ReachesLimit (dicts : List (List (Bytes × V))) (ops : List (MapOp V)) : Prop :=
  ∃ before op rest, ops = before ++ op :: rest ∧ BeyondMemory (runMapSpecs dicts before).1 op

theorem runMaps_returns (h : Represents maps dicts) (ops : List (MapOp V)) :
    CwhipMap.Returns (runMaps maps ops) (ReachesLimit dicts ops) fun result =>
      Represents result.1 (runMapSpecs dicts ops).1 ∧ result.2 = (runMapSpecs dicts ops).2 := by
  induction ops generalizing maps dicts with
  | nil => exact ⟨h, rfl⟩
  | cons op rest ih =>
    have hfirst : BeyondMemory dicts op → ReachesLimit dicts (op :: rest) :=
      fun hlimit => ⟨[], op, rest, rfl, hlimit⟩
    have hlater : ReachesLimit (mapSpecStep dicts op).1 rest → ReachesLimit dicts (op :: rest) := by
      rintro ⟨before, later, after, rfl, hlimit⟩
      exact ⟨op :: before, later, after, rfl, hlimit⟩
    apply CwhipMap.Returns.bind ((mapStep_returns h op).mono hfirst fun _ step => step)
    rintro ⟨after, result⟩ ⟨hafter, hresult⟩
    apply CwhipMap.Returns.bind ((ih hafter).mono hlater fun _ run => run)
    rintro ⟨last, results⟩ ⟨hlast, hresults⟩
    exact ⟨hlast, congrArg₂ List.cons hresult hresults⟩

/-- A program's dicts are insertion-ordered association lists: any sequence of
    calls gives their results and leaves dicts in which every key is found by
    probing from its hash.  It stops early only where memory must end; no loop
    runs on and no array is read past its end. -/
theorem runMaps_refines (ops : List (MapOp V)) :
    match runMaps [] ops with
    | .ok (maps, results) =>
      (maps.map CwhipMap.value, results) = runMapSpecs [] ops ∧ ∀ map ∈ maps, map.Sound
    | .error fault => fault = .aborts ∧ ReachesLimit [] ops := by
  have hrun := @runMaps_returns V [] [] ⟨rfl, nofun⟩ ops
  cases hmaps : runMaps [] ops with
  | error fault =>
    rw [hmaps] at hrun
    exact hrun
  | ok result =>
    obtain ⟨maps, results⟩ := result
    rw [hmaps] at hrun
    obtain ⟨⟨hvalues, hindexed⟩, hresults⟩ := hrun
    exact ⟨Prod.ext hvalues hresults, fun map hmap => (hindexed map hmap).sound⟩

end Cwhip.Runtime
