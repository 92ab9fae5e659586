/-
  Cwhip.Runtime.GrowableStorageSound

  Each operation on growable storage does what its value says, or raises and leaves
  the array alone.
-/

import Cwhip.Runtime.GrowableStorage

namespace Cwhip.Runtime

open Cwhip.Lib Cwhip.Lib.BlockArray
open Cwhip.Runtime.StringStore (normalizeStringIndex)
open List (append_nil length_append length_drop length_replicate length_singleton take_of_length_le)

/-! ## Values -/

/-- How an operation on a value ends. -/
inductive Outcome (α : Type) where
  | returned (value : α)
  | raised (message : String)

/-- A value of another length; what is new is `fill`. -/
def resized {α : Type} (fill : α) (length : Nat) (value : List α) : List α :=
  value.take length ++ List.replicate (length - value.length) fill

def resizedList (length : Int64) (value : List ArrayValue) : Outcome (List ArrayValue) :=
  if length.toInt < 0 then .raised "list length must not be negative"
  else if arrayLimit < length.toInt.toNat then .raised "list length exceeds allocation limit"
  else .returned (resized .null length.toInt.toNat value)

def appendedList (element : ArrayValue) (value : List ArrayValue) : Outcome (List ArrayValue) :=
  if int64Max ≤ value.length then .raised "list length exceeds int64 range"
  else if arrayLimit < value.length + 1 then .raised "list length exceeds allocation limit"
  else .returned (value ++ [element])

def resizedBuffer (length : Int64) (value : Bytes) : Outcome Bytes :=
  if length.toInt < 0 then .raised "buffer length cannot be negative"
  else .returned (resized 0 length.toInt.toNat value)

def appendedBuffer (byte : UInt64) (value : Bytes) : Outcome Bytes :=
  if int64Max ≤ value.length then .raised "buffer length out of bounds"
  else .returned (value ++ [byte.toUInt8])

def setBuffer (index : Int64) (byte : UInt64) (value : Bytes) : Outcome Bytes :=
  if normalizeCollectionIndex index value.length < 0 ∨
      value.length ≤ normalizeCollectionIndex index value.length then
    .raised "buffer index out of bounds"
  else .returned (value.set (normalizeCollectionIndex index value.length).toNat byte.toUInt8)

def insertedString (index : Int64) (other value : Bytes) : Outcome Bytes :=
  let position := normalizeStringIndex index.toInt value.length
  if position < 0 ∨ value.length < position then .raised "String insertion index out of bounds"
  else if utf8Boundary value position.toNat =
    false then .raised "String insertion index splits a UTF-8 character"
  else if int64Max - value.length < other.length then .raised "String length out of bounds"
  else .returned (value.take position.toNat ++ other ++ value.drop position.toNat)

def removedString (first last : Int64) (value : Bytes) : Outcome Bytes :=
  let start := normalizeStringBound first.toInt value.length
  let stop := normalizeStringBound last.toInt value.length
  if utf8Boundary value start = false ∨ utf8Boundary value stop = false then
    .raised "String range splits a UTF-8 character"
  else .returned (if start < stop then value.take start ++ value.drop stop else value)

/-- An operation on an array does what is done with its value: the array holds the
    result, and no cell becomes indeterminate; if it raises, the array is as it was.
    Only the memory may make it abort. -/
def Performs {α : Type} (limit : Nat) (available : Nat → Bool)
    (result : EStateM.Result BlockStop (BlockArray α) Unit)
    (s : BlockArray α) (outcome : Outcome (List α)) : Prop :=
  match result, outcome with
  | .ok _ s', .returned value => s'.Holds limit value ∧ ∀ count, s.Written count → s'.Written count
  | .error (.raised message) s', .raised message' => s' = s ∧ message = message'
  | .error .aborted _, _ => ∃ bytes, available bytes = false
  | _, _ => False

variable {α : Type} {limit capacity length : Nat} {s : BlockArray UInt8} {value : Bytes}

/-- What performs a change ends as the reference does. -/
theorem Performs.ends {available : Nat → Bool}
    {result : EStateM.Result BlockStop (BlockArray α) Unit} {s : BlockArray α}
    {outcome : Outcome (List α)} (h : Performs limit available result s outcome) :
    (∃ s' value, result = .ok () s' ∧ outcome = .returned value ∧ s'.Holds limit value ∧
      ∀ count, s.Written count → s'.Written count) ∨
    (∃ message, result = .error (.raised message) s ∧ outcome = .raised message) ∨
    ∃ s' bytes, result = .error .aborted s' ∧ available bytes = false := by
  cases result with
  | ok _ s' =>
    cases outcome with
    | returned value => exact .inl ⟨s', value, rfl, rfl, h.1, h.2⟩
    | raised message => exact h.elim
  | error stop s' =>
    cases stop with
    | raised message =>
      cases outcome with
      | returned value => exact h.elim
      | raised message' =>
        obtain ⟨rfl, rfl⟩ := h
        exact .inr (.inl ⟨message, rfl, rfl⟩)
    | aborted =>
      obtain ⟨bytes, hbytes⟩ := h
      exact .inr (.inr ⟨s', bytes, rfl, hbytes⟩)
    | outside | indeterminate | endless => exact h.elim

/-! ## Reserving -/

theorem arrayLimit_eq : arrayLimit = 2 ^ 59 - 1 := rfl

theorem toNat_lt (length : Int64) : length.toInt.toNat ≤ int64Max := by
  have hlt := length.toInt_lt
  have hmax : int64Max = 2 ^ 63 - 1 := rfl
  omega

theorem unsigned_toInt {length : Int64} (h : ¬ length.toInt < 0) : unsigned length.toInt =
    length.toInt.toNat := by
  have hlt := length.toInt_lt
  rw [unsigned]
  omega

/-- The capacity of a list is found within its fuel. -/
theorem arrayCapacity_ends {requested : Nat} (hcapacity : capacity ≤ arrayLimit)
    (hrequested : requested ≤ arrayLimit) :
    arrayCapacity doubled capacity requested = arrayCapacity (· * 2) capacity requested ∧
      ∃ result, arrayCapacity doubled capacity requested = some result ∧ requested ≤ result ∧
        result ≤ arrayLimit ∧
        (capacity ≤ result ∨ requested = result) := by
  have hmost := arrayLimit_eq
  have hhalf : min (int64Max / 2) (arrayLimit / 2) = 2 ^ 58 - 1 := rfl
  have hexact : arrayCapacity doubled capacity requested = arrayCapacity
      (· * 2) capacity requested :=
    capacityLoop_doubled (by omega) _ _ _
  refine ⟨hexact, ?_⟩
  rw [hexact]
  obtain ⟨result, hresult, henough, hbound, hgrows⟩ :
      ∃ result, arrayCapacity (· * 2) capacity requested = some result ∧ _ :=
    capacityLoop_ends (by omega) (show 2 * _ ≤ arrayLimit by omega) (by split <;> omega) hrequested
      (show 2 ^ 62 ≤ _ * 2 ^ 63 by split <;> omega)
  exact ⟨result, hresult, henough, hbound, hgrows.imp_left fun h => by split at h <;> omega⟩

theorem bufferCapacity_ends {requested : Nat} (hcapacity : capacity ≤ int64Max)
    (hrequested : requested ≤ int64Max) :
    bufferCapacity doubled capacity requested = bufferCapacity (· * 2) capacity requested ∧
      ∃ result, bufferCapacity doubled capacity requested = some result ∧ requested ≤ result ∧
        result ≤ int64Max ∧
        (capacity ≤ result ∨ requested = result) := by
  have hmost : int64Max = 2 ^ 63 - 1 := rfl
  have hhalf : min (int64Max / 2) (sizeMax / 2) = 2 ^ 62 - 1 := rfl
  have hexact : bufferCapacity doubled capacity requested = bufferCapacity
      (· * 2) capacity requested :=
    capacityLoop_doubled (by omega) _ _ _
  refine ⟨hexact, ?_⟩
  rw [hexact]
  obtain ⟨result, hresult, henough, hbound, hgrows⟩ :
      ∃ result, bufferCapacity (· * 2) capacity requested = some result ∧ _ :=
    capacityLoop_ends (by omega) (show 2 * _ ≤ int64Max by omega) (by split <;> omega) hrequested
      (show 2 ^ 62 ≤ _ * 2 ^ 63 by split <;> omega)
  exact ⟨result, hresult, henough, hbound, hgrows.imp_left fun h => by split at h <;> omega⟩

/-- Reserving keeps what the buffer holds, also where memory runs out. -/
theorem bufferReserve_run (available : Nat → Bool) (h : s.Holds int64Max value)
    (hcapacity : capacity ≤ int64Max) :
    (bufferReserve available capacity s = .error .aborted s ∧ ∃ bytes, available bytes = false) ∨
      ∃ s', bufferReserve available capacity s = .ok () s' ∧ s'.Holds int64Max value ∧
        s'.length = s.length ∧
        capacity ≤ s'.capacity ∧ ∀ count, s.Written count → s'.Written count := by
  have hmax : int64Max = 2 ^ 63 - 1 := rfl
  have hsize : ¬ sizeMax < capacity := by
    have hsize : sizeMax = 2 ^ 64 - 1 := rfl
    omega
  unfold bufferReserve
  simp only [run_get, run_throw_bind, run_pure, run_ite, if_neg hsize]
  split
  · obtain ⟨-, grown, hgrown, henough, hlimit, -⟩ := bufferCapacity_ends h.bounded hcapacity
    rw [hgrown]
    rcases h.realloc Nat.one_pos (by omega) available (show s.capacity ≤ grown by omega) hlimit with
      ⟨hrefused, hbytes⟩ | ⟨s', hs', hholds, hsame, hkept⟩
    · exact .inl ⟨hrefused, hbytes⟩
    · exact .inr ⟨s', hs', hholds, hholds.length_eq.trans h.length_eq.symm, by omega, hkept⟩
  · exact .inr ⟨s, rfl, h, rfl, by omega, fun _ hcount => hcount⟩

/-! ## Lists -/

theorem resized_of_ge (fill : α) {value : List α} (h : value.length ≤ length) :
    resized fill length value = value ++ List.replicate (length - value.length) fill := by
  rw [resized, take_of_length_le h]

theorem resized_of_le (fill : α) {value : List α} (h : length ≤ value.length) :
    resized fill length value = value.take length := by
  rw [resized, Nat.sub_eq_zero_of_le h, List.replicate_zero, append_nil]

theorem fill_performs (available : Nat → Bool) {s₀ s : BlockArray α} {value : List α}
    (h : s.Holds limit value) (hkept : ∀ count, s₀.Written count → s.Written count) (fill : α)
    (hgrows : value.length ≤ length) (hfits : length ≤ s.capacity) :
    Performs limit available ((write s.length (List.replicate (length - s.length) fill) >>= fun _ =>
      setLength length) s) s₀ (.returned (resized fill length value)) := by
  have hlength := h.length_eq
  obtain ⟨s', hwrite, -, hholds, hmore⟩ := h.append
    (show value.length + (List.replicate (length - s.length) fill).length ≤
      s.capacity by rw [length_replicate]; omega)
  rw [run_ok hwrite, resized_of_ge fill hgrows, ← hlength]
  rw [length_replicate, show s.length + (length - s.length) = length by omega] at hholds
  exact ⟨hholds, fun count hcount => hmore count (hkept count hcount)⟩

theorem cut_performs (available : Nat → Bool) {s₀ s : BlockArray α} {value : List α}
    (h : s.Holds limit value) (hkept : ∀ count, s₀.Written count → s.Written count) (fill zero : α)
    (hless : length ≤ value.length) :
    Performs limit available ((write length (List.replicate (s.length - length) zero) >>= fun _ =>
      setLength length) s) s₀ (.returned (resized fill length value)) := by
  have hlength := h.length_eq
  have hfits := h.fits
  obtain ⟨s', hwrite, -, -, hholds, hmore⟩ := h.write hless
    (show length + (List.replicate (s.length - length) zero).length ≤
      s.capacity by rw [length_replicate]; omega)
    (show length ≤ max value.length _ by omega)
  rw [run_ok hwrite]
  refine ⟨?_, fun count hcount => hmore count (hkept count hcount)⟩
  rwa [List.append_assoc, List.take_append_of_le_length (by rw [List.length_take]; omega),
    List.take_take, Nat.min_self,
    ← resized_of_le fill hless] at hholds

/-- A resized list holds its first elements and zeros. -/
theorem arrayResize_performs (available : Nat → Bool) (length : Int64) {s : BlockArray ArrayValue}
    {value : List ArrayValue} (h : s.Holds arrayLimit value) :
    Performs arrayLimit available (arrayResize available length s) s
    (resizedList length value) := by
  have hlimit := arrayLimit_eq
  have hlength := h.length_eq
  have hfits := h.fits
  unfold arrayResize resizedList
  simp only [run_get, run_throw_bind, run_ite]
  by_cases hneg : length.toInt < 0
  · rw [if_pos hneg, if_pos hneg]
    exact ⟨rfl, rfl⟩
  · rw [if_neg hneg, if_neg hneg, unsigned_toInt hneg]
    generalize length.toInt.toNat = newLength
    by_cases hlarge : arrayLimit < newLength
    · rw [if_pos hlarge, if_pos hlarge]
      exact ⟨rfl, rfl⟩
    · rw [if_neg hlarge, if_neg hlarge]
      by_cases hgrows : s.capacity < newLength
      · -- the block grows first
        obtain ⟨-, capacity, hcapacity, henough, hbound, -⟩ :=
          arrayCapacity_ends h.bounded (show newLength ≤ arrayLimit by omega)
        rw [if_pos hgrows, hcapacity]
        dsimp only
        rw [if_neg (show ¬ arrayLimit < capacity by omega),
          if_neg (show ¬ newLength < s.length by omega)]
        rcases h.realloc (show 0 < arrayValueSize by decide)
          (show arrayLimit * arrayValueSize < 2 ^ 64 by decide) available
          (show s.capacity ≤ capacity by omega) hbound with ⟨hrefused, hbytes⟩ | ⟨s', hs', hholds,
            hsame, hkept⟩
        · rw [run_error hrefused]
          exact hbytes
        · rw [run_ok hs', ← show s'.length = s.length from hholds.length_eq.trans hlength.symm]
          exact fill_performs available hholds hkept .null (by omega) (by omega)
      · rw [if_neg hgrows]
        by_cases hless : newLength < s.length
        · rw [if_pos hless]
          exact cut_performs available h (fun _ hcount => hcount) .null .zeroed (by omega)
        · rw [if_neg hless]
          exact fill_performs available h (fun _ hcount => hcount) .null (by omega) (by omega)

/-- A new element goes behind all others. -/
theorem arrayAppend_performs (available : Nat → Bool) (element : ArrayValue)
    {s : BlockArray ArrayValue} {value : List ArrayValue} (h : s.Holds arrayLimit value) :
    Performs arrayLimit available (arrayAppend available element s) s
    (appendedList element value) := by
  have hlimit := arrayLimit_eq
  have hmax : int64Max = 2 ^ 63 - 1 := rfl
  have hlength := h.length_eq
  unfold arrayAppend appendedList
  simp only [run_get, run_throw_bind, run_ite, hlength]
  by_cases hfull : int64Max ≤ value.length
  · rw [if_pos hfull, if_pos hfull]
    exact ⟨rfl, rfl⟩
  · rw [if_neg hfull, if_neg hfull]
    have hnext : (Int64.ofNat (value.length + 1)).toInt = value.length + 1 := by
      rw [Int64.toInt_ofNat_of_lt (by omega)]
      rfl
    have hresize := arrayResize_performs available (Int64.ofNat (value.length + 1)) h
    have houtcome : resizedList (Int64.ofNat (value.length + 1)) value =
        if arrayLimit < value.length + 1 then .raised "list length exceeds allocation limit"
        else .returned (value ++ [ArrayValue.null]) := by
      have hone : value.length + 1 - value.length = 1 := by omega
      rw [resizedList, hnext, if_neg (by omega), show (value.length + 1 : Int).toNat =
        value.length + 1 from rfl,
        resized_of_ge ArrayValue.null (Nat.le_add_right _ 1), hone, List.replicate_one]
    rw [houtcome] at hresize
    rcases hresize.ends with ⟨s', value', hrun, hreturned, hholds, hkept⟩ | ⟨message,
      hrun, hraised⟩ | ⟨s', bytes, hrun, hbytes⟩
    · split at hreturned
      · cases hreturned
      · rename_i hlarge
        cases hreturned
        have hlength' := hholds.length_eq
        have hfits' := hholds.fits
        rw [length_append, length_singleton] at hlength'
        -- the new slot takes the element
        obtain ⟨s'', hwrite, -, hsame, hholds', hmore⟩ := hholds.write
          (show value.length ≤ (value ++ [ArrayValue.null]).length by rw [length_append]; omega)
          (show value.length + [element].length ≤ s'.capacity by rw [length_singleton]; omega)
          (show s'.length ≤ max (value ++ [ArrayValue.null]).length _ by
            rw [length_append, length_singleton]; omega)
        rw [run_ok hrun, run_get, show s'.length - 1 = value.length by omega, hwrite, if_neg hlarge]
        refine ⟨?_, fun count hcount => hmore count (hkept count hcount)⟩
        rw [List.take_left, length_singleton,
          List.drop_eq_nil_of_le (by rw [length_append, length_singleton]),
          append_nil, take_of_length_le (by rw [length_append, length_singleton]; omega), ← hsame]
            at hholds'
        exact hholds'
    · rw [run_error hrun]
      split at hraised
      · rename_i hlarge
        rw [if_pos hlarge, hraised]
        exact ⟨rfl, rfl⟩
      · cases hraised
    · rw [run_error hrun]
      exact ⟨bytes, hbytes⟩

/-! ## Buffers -/

theorem bufferResize_performs (available : Nat → Bool) (length : Int64)
    (h : s.Holds int64Max value) :
    Performs int64Max available (bufferResize available length s) s
    (resizedBuffer length value) := by
  have hlength := h.length_eq
  have hfits := h.fits
  have hbound := toNat_lt length
  have hsizes : int64Max ≤ sizeMax := by decide
  unfold bufferResize resizedBuffer
  simp only [run_get, run_throw_bind, run_ite]
  by_cases hneg : length.toInt < 0
  · rw [if_pos hneg, if_pos hneg]
    exact ⟨rfl, rfl⟩
  · rw [if_neg hneg, if_neg hneg, unsigned_toInt hneg]
    generalize length.toInt.toNat = newLength at hbound ⊢
    rw [if_neg (by omega)]
    by_cases hgrows : s.length < newLength
    · rw [if_pos hgrows]
      rcases bufferReserve_run available h hbound with ⟨hrefused, hbytes⟩ | ⟨s', hs', hholds, hsame,
        henough, hkept⟩
      · rw [run_error hrefused]
        exact hbytes
      · rw [run_ok hs', ← hsame]
        exact fill_performs available hholds hkept 0 (by omega) henough
    · -- the bytes cut off stay in the block
      rw [if_neg hgrows]
      refine ⟨?_, fun _ hcount => hcount⟩
      rw [resized_of_le 0 (by omega)]
      exact h.setLength (by omega)

theorem bufferAppend_performs (available : Nat → Bool) (byte : UInt64)
    (h : s.Holds int64Max value) :
    Performs int64Max available (bufferAppend available byte s) s (appendedBuffer byte value) := by
  have hlength := h.length_eq
  unfold bufferAppend appendedBuffer
  simp only [run_get, run_throw_bind, run_ite, hlength]
  by_cases hfull : int64Max ≤ value.length
  · rw [if_pos hfull, if_pos hfull]
    exact ⟨rfl, rfl⟩
  · rw [if_neg hfull, if_neg hfull]
    rcases bufferReserve_run available h (show value.length + 1 ≤ int64Max by omega) with
      ⟨hrefused, hbytes⟩ | ⟨s', hs', hholds, hsame, henough, hkept⟩
    · rw [run_error hrefused]
      exact hbytes
    · obtain ⟨s'', hwrite, -, hholds', hmore⟩ :=
        hholds.append (show value.length + [byte.toUInt8].length ≤ s'.capacity from henough)
      rw [hsame, hlength] at hwrite hholds'
      rw [run_ok hs', run_ok hwrite]
      exact ⟨hholds', fun count hcount => hmore count (hkept count hcount)⟩

/-- Setting a byte changes no other. -/
theorem bufferSet_performs (available : Nat → Bool) (index : Int64) (byte : UInt64)
    (h : s.Holds int64Max value) :
    Performs int64Max available (bufferSet index byte s) s (setBuffer index byte value) := by
  have hlength := h.length_eq
  have hfits := h.fits
  unfold bufferSet setBuffer
  simp only [run_get, run_throw_bind, run_ite, hlength]
  generalize normalizeCollectionIndex index value.length = normalized
  by_cases hout : normalized < 0 ∨ (value.length : Int) ≤ normalized
  · rw [if_pos hout, if_pos hout]
    exact ⟨rfl, rfl⟩
  · rw [if_neg hout, if_neg hout]
    obtain ⟨s', hwrite, -, hsame, hholds, hmore⟩ :=
      h.write (show normalized.toNat ≤ value.length by omega)
      (show normalized.toNat + [byte.toUInt8].length ≤ s.capacity by rw [length_singleton]; omega)
      (show s.length ≤ max value.length _ by omega)
    rw [hwrite]
    refine ⟨?_, hmore⟩
    have hset : value.take normalized.toNat ++ [byte.toUInt8] ++ value.drop (normalized.toNat +
        [byte.toUInt8].length) =
        value.set normalized.toNat byte.toUInt8 := by
      rw [List.append_assoc, List.singleton_append, length_singleton,
        ← List.set_eq_take_cons_drop _ (by omega)]
    rwa [hset, take_of_length_le (by rw [List.length_set]; omega), ← hsame] at hholds

theorem bufferNew_performs (available : Nat → Bool) (length : Int64) :
    Performs int64Max available (bufferNew available length .empty) .empty
    (resizedBuffer length []) := by
  have hbound := toNat_lt length
  have hsizes : int64Max ≤ sizeMax := by decide
  unfold bufferNew resizedBuffer
  simp only [run_throw_bind, run_ite, run_pure]
  by_cases hneg : length.toInt < 0
  · rw [if_pos hneg, if_pos hneg]
    exact ⟨rfl, rfl⟩
  · rw [if_neg hneg, if_neg hneg, unsigned_toInt hneg, if_neg (by omega)]
    by_cases hpos : 0 < length.toInt
    · rw [if_pos hpos]
      by_cases hmemory : available length.toInt.toNat = false
      · rw [if_pos hmemory]
        exact ⟨_, hmemory⟩
      · rw [if_neg hmemory]
        refine ⟨⟨?_, ?_, length_replicate, hbound⟩, ?_⟩
        · rw [resized, List.take_nil, List.nil_append, length_replicate]
          rfl
        · rw [resized, List.take_nil, List.nil_append, Front, List.map_replicate]
          exact List.prefix_rfl
        · -- nothing was written before
          rintro count ⟨values, rfl, hfront⟩
          cases List.map_eq_nil_iff.mp (List.prefix_nil.mp hfront)
          exact ⟨[], rfl, List.nil_prefix⟩
    · rw [if_neg hpos, show length.toInt.toNat = 0 by omega]
      exact ⟨⟨rfl, List.nil_prefix, rfl, Nat.zero_le _⟩, fun _ hcount => hcount⟩

/-! ## Strings -/

theorem boundaryAt_run (h : s.Holds int64Max value) (index : Nat) :
    boundaryAt index s = .ok (utf8Boundary value index) s := by
  have hlength := h.length_eq
  unfold boundaryAt utf8Boundary
  simp only [run_get, run_ite, run_pure, hlength]
  by_cases hend : index = value.length
  · rw [if_pos hend, beq_iff_eq.mpr hend, Bool.true_or]
  · rw [if_neg hend, beq_eq_false_iff_ne.mpr hend, Bool.false_or]
    by_cases hless : index < value.length
    · rw [if_pos hless, run_ok (h.front.read (show index + 1 ≤ value.length from hless)), run_pure,
        List.getElem?_eq_getElem hless, List.drop_eq_getElem_cons hless, List.take_succ_cons,
          List.take_zero]
      dsimp only
      rw [List.all_cons, List.all_nil, Bool.and_true]
    · rw [if_neg hless, List.getElem?_eq_none (by omega)]

/-- Inserting a text moves the bytes behind its place. -/
theorem stringInsert_performs (available : Nat → Bool) (index : Int64) (other : Bytes)
    (h : s.Holds int64Max value) :
    Performs int64Max available (stringInsert available index other s) s
    (insertedString index other value) := by
  have hlength := h.length_eq
  have hmax : int64Max = 2 ^ 63 - 1 := rfl
  have hsizes : sizeMax = 2 ^ 64 - 1 := rfl
  have hfits := h.fits
  have hbounded := h.bounded
  unfold stringInsert insertedString
  simp only [run_get, run_throw_bind, run_ite, hlength]
  generalize normalizeStringIndex index.toInt value.length = normalized
  by_cases hout : normalized < 0 ∨ (value.length : Int) < normalized
  · rw [if_pos hout, if_pos hout]
    exact ⟨rfl, rfl⟩
  · rw [if_neg hout, if_neg hout, run_ok (boundaryAt_run h _)]
    simp only [run_throw_bind, run_ite, run_pure]
    by_cases hsplits : utf8Boundary value normalized.toNat = false
    · rw [if_pos hsplits, if_pos hsplits]
      exact ⟨rfl, rfl⟩
    · rw [if_neg hsplits, if_neg hsplits]
      by_cases hlarge : int64Max - value.length < other.length
      · rw [if_pos (.inr (.inl hlarge)), if_pos hlarge]
        exact ⟨rfl, rfl⟩
      · rw [if_neg (by omega), if_neg hlarge]
        by_cases hnone : other.length = 0
        · rw [if_neg (not_not_intro hnone)]
          rw [List.eq_nil_of_length_eq_zero hnone, append_nil, List.take_append_drop]
          exact ⟨h, fun _ hcount => hcount⟩
        · rw [if_pos hnone]
          by_cases hmemory : available other.length = false
          · rw [if_pos hmemory]
            exact ⟨_, hmemory⟩
          · have htotal : unsigned (value.length + other.length) = value.length + other.length := by
              have hcast := unsigned_natCast (show value.length + other.length < 2 ^ 64 by omega)
              rwa [Int.natCast_add] at hcast
            rw [if_neg hmemory, htotal]
            -- a block that is refused leaves the String as it was
            rcases bufferReserve_run available h (show value.length + other.length ≤
              int64Max by omega) with ⟨hrefused, hbytes⟩ | ⟨s₁, hs₁, hholds, -, henough, hkept⟩
            · rw [run_error hrefused]
              exact hbytes
            · -- the tail moves up, and the other bytes fill the gap
              have htail : (value.drop normalized.toNat).take (value.length - normalized.toNat) =
                  value.drop normalized.toNat :=
                take_of_length_le (by rw [length_drop])
              have hread := hholds.front.read (show normalized.toNat +
                (value.length - normalized.toNat) ≤ value.length by omega)
              rw [htail] at hread
              have hcells := hholds.block
              obtain ⟨s₂, hmoved, hsame⟩ := write_append
                (show normalized.toNat + other.length + (value.drop normalized.toNat).length ≤
                    s₁.cells.length by
                  rw [length_drop]; omega)
              obtain ⟨s₃, hwrite, -, -, hholds', hmore⟩ :=
                hholds.write (show normalized.toNat ≤ value.length by omega)
                (show normalized.toNat + (other ++ value.drop normalized.toNat).length ≤
                    s₁.capacity by
                  rw [length_append, length_drop]; omega)
                (show value.length + other.length ≤
                  max value.length _ by rw [length_append, length_drop]; omega)
              rw [run_ok hs₁, run_ok hread, run_ok hmoved, run_ok (hsame.trans hwrite)]
              refine ⟨?_, fun count hcount => hmore count (hkept count hcount)⟩
              have hvalue : (value.take normalized.toNat ++
                  (other ++ value.drop normalized.toNat) ++
                  value.drop (normalized.toNat +
                    (other ++ value.drop normalized.toNat).length)).take
                    (value.length + other.length) =
                  value.take normalized.toNat ++ other ++ value.drop normalized.toNat := by
                have hover : value.length ≤ normalized.toNat +
                    (other ++ value.drop normalized.toNat).length := by
                  rw [length_append, length_drop]
                  omega
                rw [List.drop_eq_nil_of_le hover, append_nil, ← List.append_assoc,
                  take_of_length_le]
                simp only [length_append, List.length_take, length_drop]
                omega
              rwa [hvalue] at hholds'

/-- Removing a range moves the bytes behind it ahead. -/
theorem stringRemoveRange_performs (available : Nat → Bool) (first last : Int64)
    (h : s.Holds int64Max value) :
    Performs int64Max available (stringRemoveRange first last s) s
    (removedString first last value) := by
  have hlength := h.length_eq
  have hfits := h.fits
  have hstop := normalizeStringBound_le last.toInt value.length
  unfold stringRemoveRange removedString
  simp only [run_get, hlength]
  generalize normalizeStringBound first.toInt value.length = start
  generalize normalizeStringBound last.toInt value.length = stop at hstop ⊢
  rw [run_ok (boundaryAt_run h start), run_ok (boundaryAt_run h stop)]
  simp only [run_throw_bind, run_ite, run_pure]
  by_cases hsplits : utf8Boundary value start = false ∨ utf8Boundary value stop = false
  · rw [if_pos hsplits, if_pos hsplits]
    exact ⟨rfl, rfl⟩
  · rw [if_neg hsplits, if_neg hsplits]
    by_cases hless : start < stop
    · have htail : (value.drop stop).take (value.length - stop) = value.drop stop :=
        take_of_length_le (by rw [length_drop])
      have hread := h.front.read (show stop + (value.length - stop) ≤ value.length by omega)
      rw [htail] at hread
      obtain ⟨s', hwrite, -, -, hholds, hmore⟩ := h.write (show start ≤ value.length by omega)
        (show start + (value.drop stop).length ≤ s.capacity by rw [length_drop]; omega)
        (show value.length - (stop - start) ≤ max value.length _ by omega)
      rw [if_pos hless, if_pos hless, run_ok hread, run_ok hwrite]
      refine ⟨?_, hmore⟩
      rwa [List.take_left' (by simp only [length_append, List.length_take, length_drop]; omega)]
        at hholds
    · rw [if_neg hless, if_neg hless]
      exact ⟨h, fun _ hcount => hcount⟩

end Cwhip.Runtime
