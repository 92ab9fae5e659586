/-
  Cwhip.Lib.BlockArray

  Growable arrays in the memory of a C program: a block of cells, a length and a
  capacity that are kept beside it, and the operations `realloc`, `memcpy` and
  `memset` come down to.

  A cell that was never written is indeterminate.  Nothing says that the capacity is
  the size of the block, or that the elements in use were written; `Holds` does.
-/

import Cwhip.Lib.MachineInt

namespace Cwhip.Lib

open List (append_nil length_append length_drop length_map length_take map_append map_take)

/-- Why an operation stops. -/
inductive BlockStop where
  | raised (message : String)
  /-- There is no memory. -/
  | aborted
  /-- Cells outside the block. -/
  | outside
  /-- Cells that were never written. -/
  | indeterminate
  /-- A loop goes on. -/
  | endless
  deriving DecidableEq

structure BlockArray (α : Type) where
  cells : List (Option α)
  length : Nat
  capacity : Nat

abbrev BlockM (α β : Type) := EStateM BlockStop (BlockArray α) β

variable {α β γ : Type}

/-! ## Runs -/

section
variable {ε σ : Type}

theorem run_get (f : σ → EStateM ε σ β) (s : σ) : (get >>= f) s = f s s := rfl

theorem run_throw_bind (stop : ε) (f : γ → EStateM ε σ β) (s : σ) : (throw stop >>= f) s =
    .error stop s := rfl

theorem run_pure (value : β) (s : σ) : (pure value : EStateM ε σ β) s = .ok value s := rfl

theorem run_ite (c : Prop) [Decidable c] (f g : EStateM ε σ β) (s : σ) :
    (if c then f else g) s = if c then f s else g s := by
  split <;> rfl

theorem run_ok {m : EStateM ε σ γ} {s s' : σ} {value : γ} (h : m s = .ok value s')
    (f : γ → EStateM ε σ β) :
    (m >>= f) s = f value s' := by
  show EStateM.bind m f s = _
  rw [EStateM.bind, h]

theorem run_error {m : EStateM ε σ γ} {s s' : σ} {stop : ε} (h : m s = .error stop s')
    (f : γ → EStateM ε σ β) : (m >>= f) s = .error stop s' := by
  show EStateM.bind m f s = _
  rw [EStateM.bind, h]

end

namespace BlockArray

/-- Nothing is allocated. -/
def empty : BlockArray α := ⟨[], 0, 0⟩

/-- What `calloc` gives, all of it in use. -/
def zeroed (zero : α) (length : Nat) : BlockArray α := ⟨List.replicate length (some zero),
    length, length⟩

/-! ## Memory -/

/-- What `malloc` gives. -/
def allocated (capacity : Nat) : BlockArray α := ⟨List.replicate capacity none, 0, capacity⟩

/-- A block for so many elements; their size is computed modulo 2^64, and the memory
    may refuse it. -/
def realloc (available : Nat → Bool) (size capacity : Nat) : BlockM α Unit := fun s =>
  let count := unsigned (capacity * size) / size
  if available (unsigned (capacity * size)) = true then
    .ok () { s with
      cells := s.cells.take count ++ List.replicate (count - s.cells.length) none
      capacity := capacity }
  else .error .aborted s

def write (start : Nat) (values : List α) : BlockM α Unit := fun s =>
  if values = [] then .ok () s
  else if start + values.length ≤ s.cells.length then
    .ok () { s with cells := s.cells.take start ++ values.map some ++ s.cells.drop (start +
      values.length) }
  else .error .outside s

def read (start count : Nat) : BlockM α (List α) := fun s =>
  if count = 0 then .ok [] s
  else if start + count ≤ s.cells.length then
    match ((s.cells.drop start).take count).mapM id with
    | some values => .ok values s
    | none => .error .indeterminate s
  else .error .outside s

def getAt (index : Nat) : BlockM α α := fun s =>
  match s.cells[index]? with
  | some (some value) => .ok value s
  | some none => .error .indeterminate s
  | none => .error .outside s

def setLength (length : Nat) : BlockM α Unit := fun s => .ok () { s with length := length }

/-! ## What a block holds -/

/-- The first cells hold these values. -/
def Front (s : BlockArray α) (values : List α) : Prop := values.map some <+: s.cells

/-- These cells were written. -/
def Written (s : BlockArray α) (count : Nat) : Prop := ∃ values : List α, values.length = count ∧
    s.Front values

/-- The array has this value, in a block of its capacity, which is limited. -/
structure Holds (limit : Nat) (s : BlockArray α) (value : List α) : Prop where
  length_eq : s.length = value.length
  front : s.Front value
  block : s.cells.length = s.capacity
  bounded : s.capacity ≤ limit

theorem Front.take {s : BlockArray α} {values : List α} (h : s.Front values) (count : Nat) :
    s.Front (values.take count) := by
  rw [Front, map_take]
  exact (List.take_prefix _ _).trans h

theorem Front.length_le {s : BlockArray α} {values : List α} (h : s.Front values) : values.length ≤
    s.cells.length := by
  have hle := List.IsPrefix.length_le h
  rwa [length_map] at hle

theorem Holds.fits {limit : Nat} {s : BlockArray α} {value : List α} (h : s.Holds limit value) :
    s.length ≤ s.capacity := by
  rw [h.length_eq, ← h.block]
  exact h.front.length_le

theorem Written.le {s : BlockArray α} {count count' : Nat} (h : s.Written count)
    (hle : count' ≤ count) :
    s.Written count' := by
  obtain ⟨values, hlength, hfront⟩ := h
  exact ⟨values.take count', by rw [length_take]; omega, hfront.take count'⟩

theorem Holds.written {limit : Nat} {s : BlockArray α} {value : List α} (h : s.Holds limit value) :
    s.Written s.length := ⟨value, h.length_eq.symm, h.front⟩

/-- A write inside the block replaces its cells and fails nowhere. -/
theorem write_eq {s : BlockArray α} {start : Nat} {values : List α}
    (hfits : start + values.length ≤ s.cells.length) :
    write start values s =
      .ok () { s with cells := s.cells.take start ++ values.map some ++ s.cells.drop (start +
      values.length) } := by
  rw [write]
  by_cases hnil : values = []
  · rw [if_pos hnil, hnil, List.map_nil, append_nil, List.length_nil, Nat.add_zero,
      List.take_append_drop]
  · rw [if_neg hnil, if_pos hfits]

/-- Two writes side by side are one. -/
theorem write_append {s : BlockArray α} {start : Nat} {values moved : List α}
    (hfits : start + values.length + moved.length ≤ s.cells.length) :
    ∃ s', write (start + values.length) moved s = .ok () s' ∧ write start values s' = write start
    (values ++ moved) s := by
  refine ⟨_, write_eq hfits, ?_⟩
  have hbefore : (s.cells.take (start + values.length)).length = start + values.length := by
    rw [length_take]
    omega
  rw [write_eq, write_eq]
  · have hfront : (s.cells.take (start + values.length)).take start = s.cells.take start := by
      rw [List.take_take, Nat.min_eq_left (Nat.le_add_right _ _)]
    congr 2
    simp only [List.append_assoc]
    rw [List.take_append_of_le_length (by omega), hfront,
      List.drop_left' hbefore, map_append, length_append,
      Nat.add_assoc, List.append_assoc]
  · rw [length_append]
    omega
  · simp only [length_append, length_map, length_drop, hbefore]
    omega

/-- A write at or before the end of what is known leaves all of it known. -/
theorem Front.write {s : BlockArray α} {values written : List α} (h : s.Front values) {start : Nat}
    (hstart : start ≤ values.length) (hfits : start + written.length ≤ s.cells.length) :
    ∃ s', write start written s = .ok () s' ∧ s'.length = s.length ∧ s'.capacity = s.capacity ∧
      s'.cells.length = s.cells.length ∧
      s'.Front (values.take start ++ written ++ values.drop (start + written.length)) := by
  obtain ⟨rest, hrest⟩ := h
  refine ⟨_, write_eq hfits, rfl, rfl, ?_, rest.drop (start + written.length - values.length), ?_⟩
  · simp only [length_append, length_take, length_map, length_drop]
    omega
  · show _ = s.cells.take start ++ written.map some ++ s.cells.drop (start + written.length)
    rw [← hrest, List.take_append_of_le_length (by rwa [length_map]), List.drop_append, length_map,
      map_append, map_append, map_take, List.map_drop]
    simp only [List.append_assoc]

theorem Front.append {s : BlockArray α} {values written : List α} (h : s.Front values)
    (hfits : values.length + written.length ≤ s.cells.length) :
    ∃ s', BlockArray.write values.length written s = .ok () s' ∧ s'.cells.length = s.cells.length ∧
    s'.Front (values ++ written) := by
  obtain ⟨s', hwrite, -, -, hcells, hfront⟩ := h.write (Nat.le_refl _) hfits
  rw [List.take_length, List.drop_eq_nil_of_le (Nat.le_add_right _ _), append_nil] at hfront
  exact ⟨s', hwrite, hcells, hfront⟩

/-- What was written is read back. -/
theorem Front.read {s : BlockArray α} {values : List α} (h : s.Front values) {start count : Nat}
    (hrange : start + count ≤ values.length) :
    read start count s = .ok ((values.drop start).take count) s := by
  have hle := h.length_le
  obtain ⟨rest, hrest⟩ := h
  rw [BlockArray.read]
  split
  · rename_i hzero
    rw [hzero, List.take_zero]
  · have hcells : (s.cells.drop start).take count = ((values.drop start).take count).map some := by
      rw [← hrest, List.drop_append_of_le_length (by rw [length_map]; omega),
        List.take_append_of_le_length (by rw [length_drop, length_map]; omega), map_take,
          List.map_drop]
    have hall (xs : List α) : (xs.map some).mapM id = some xs := by
      induction xs with
      | nil => rfl
      | cons x xs ih =>
        rw [List.map_cons, List.mapM_cons, ih]
        rfl
    rw [if_pos (by omega), hcells, hall]

theorem Written.length_le {s : BlockArray α} {count : Nat} (h : s.Written count) :
    count ≤ s.cells.length := by
  obtain ⟨values, rfl, hfront⟩ := h
  exact hfront.length_le

/-- Written cells can be read, whatever they hold. -/
theorem Written.read {s : BlockArray α} {start count : Nat} (h : s.Written (start + count)) :
    ∃ values, read start count s = .ok values s ∧ values.length = count := by
  obtain ⟨values, hlength, hfront⟩ := h
  refine ⟨_, hfront.read (Nat.le_of_eq hlength.symm), ?_⟩
  rw [length_take, length_drop]
  omega

theorem Front.getAt {s : BlockArray α} {values : List α} (h : s.Front values) {index : Nat}
    {value : α} (hvalue : values[index]? = some value) : getAt index s = .ok value s := by
  obtain ⟨rest, hrest⟩ := h
  obtain ⟨hindex, -⟩ := List.getElem?_eq_some_iff.mp hvalue
  rw [BlockArray.getAt, ← hrest, List.getElem?_append_left (by rwa [length_map]), List.getElem?_map,
    hvalue]
  rfl

theorem allocated_holds (capacity : Nat) : Holds capacity (allocated capacity : BlockArray α) [] :=
  ⟨rfl, List.nil_prefix, List.length_replicate, Nat.le_refl _⟩

/-- Making an array shorter keeps its first elements. -/
theorem Holds.setLength {limit : Nat} {s : BlockArray α} {value : List α} (h : s.Holds limit value)
    {length : Nat}
    (hless : length ≤ value.length) : Holds limit { s with length := length }
    (value.take length) := by
  refine ⟨?_, h.front.take length, h.block, h.bounded⟩
  rw [length_take]
  exact (Nat.min_eq_left hless).symm

/-- A larger block holds the same elements. -/
theorem Holds.realloc {limit size : Nat} {s : BlockArray α} {value : List α}
    (h : s.Holds limit value)
    (hsize : 0 < size) (hlimit : limit * size < 2 ^ 64) (available : Nat → Bool) {capacity : Nat}
    (hgrows : s.capacity ≤ capacity) (hbound : capacity ≤ limit) :
    (realloc available size capacity s = .error .aborted s ∧ ∃ bytes, available bytes = false) ∨
      ∃ s', realloc available size capacity s = .ok () s' ∧ s'.Holds limit value ∧
        s'.capacity = capacity ∧
        ∀ count, s.Written count → s'.Written count := by
  have hproduct : unsigned (capacity * size) = capacity * size := by
    have hcast := unsigned_natCast (n := capacity * size)
      (Nat.lt_of_le_of_lt (Nat.mul_le_mul_right size hbound) hlimit)
    rwa [Int.natCast_mul] at hcast
  have hcount : capacity * size / size = capacity := Nat.mul_div_cancel _ hsize
  have hlength := h.block
  rw [BlockArray.realloc, hproduct, hcount]
  split
  · have htake : s.cells.take capacity = s.cells := List.take_of_length_le (by omega)
    have hkept (values : List α) (hfront : s.Front values) :
        values.map some <+: s.cells.take capacity ++ List.replicate
            (capacity - s.cells.length) none := by
      rw [htake]
      exact hfront.trans (List.prefix_append _ _)
    refine .inr ⟨_, rfl, ⟨h.length_eq, hkept value h.front, ?_, hbound⟩, rfl, ?_⟩
    · rw [length_append, List.length_replicate, htake]
      show s.cells.length + (capacity - s.cells.length) = capacity
      omega
    · rintro count ⟨values, hcount, hfront⟩
      exact ⟨values, hcount, hkept values hfront⟩
  · rename_i hrefused
    exact .inl ⟨rfl, _, Bool.not_eq_true _ ▸ hrefused⟩

theorem Written.write {s s' : BlockArray α} {start count : Nat} {written : List α}
    (h : s.Written count)
    (hstart : s.Written start) (hfits : start + written.length ≤ s.cells.length)
    (hwrite : write start written s = .ok () s') : s'.Written count := by
  have hlonger : s.Written (max count start) := by
    rcases Nat.le_total count start with hle | hle
    · rwa [Nat.max_eq_right hle]
    · rwa [Nat.max_eq_left hle]
  obtain ⟨values, hlength, hfront⟩ := hlonger
  obtain ⟨s'', hwrite', _, _, _, hfront'⟩ := hfront.write (by omega) hfits
  rw [hwrite] at hwrite'
  cases hwrite'
  have hall : s'.Written (values.take start ++ written ++ values.drop
    (start + written.length)).length := ⟨_, rfl, hfront'⟩
  apply hall.le
  simp only [length_append, length_take, length_drop]
  omega

theorem Holds.write {limit : Nat} {s : BlockArray α} {value : List α} (h : s.Holds limit value)
    {start length : Nat}
    {written : List α} (hstart : start ≤ value.length) (hfits : start + written.length ≤ s.capacity)
    (hlength : length ≤ max value.length (start + written.length)) :
    ∃ s', BlockArray.write start written s = .ok () s' ∧ s'.capacity = s.capacity ∧
      s'.length = s.length ∧
      Holds limit { s' with length := length }
        ((value.take start ++ written ++ value.drop (start + written.length)).take length) ∧
      ∀ count, s.Written count → s'.Written count := by
  rw [← h.block] at hfits
  obtain ⟨s', hwrite, hsame, hcapacity, hcells, hfront⟩ := h.front.write hstart hfits
  have hbefore : s.Written start := h.written.le (by rw [h.length_eq]; exact hstart)
  refine ⟨s', hwrite, hcapacity, hsame, ⟨?_, hfront.take length, ?_, ?_⟩, fun count hcount =>
    hcount.write hbefore hfits hwrite⟩
  · simp only [length_take, length_append, length_drop]
    omega
  · rw [hcells, h.block, hcapacity]
  · rw [hcapacity]
    exact h.bounded

/-- Appending inside the capacity writes one block behind the elements. -/
theorem Holds.append {limit : Nat} {s : BlockArray α} {value written : List α}
    (h : s.Holds limit value) (hfits : value.length + written.length ≤ s.capacity) :
    ∃ s', BlockArray.write s.length written s = .ok () s' ∧ s'.capacity = s.capacity ∧
      Holds limit { s' with length := s.length + written.length } (value ++ written) ∧
      ∀ count, s.Written count → s'.Written count := by
  obtain ⟨s', hwrite, hcapacity, -, hholds, hmore⟩ := h.write (Nat.le_refl value.length) hfits
    (show value.length + written.length ≤ max value.length _ from Nat.le_max_right _ _)
  rw [List.take_length, List.drop_eq_nil_of_le (Nat.le_add_right _ _), append_nil,
    List.take_of_length_le (Nat.le_of_eq length_append), ← h.length_eq] at hholds
  rw [← h.length_eq] at hwrite
  exact ⟨s', hwrite, hcapacity, hholds, hmore⟩

end BlockArray

/-! ## Capacities -/

/-- Doubling a capacity until it is enough; what cannot be doubled is replaced by
    what is requested.  `half` bounds what is doubled. -/
def capacityLoop (double : Nat → Nat) (half : Nat) : Nat → Nat → Nat → Option Nat
  | 0, _, _ => none
  | fuel + 1, capacity, requested =>
    if capacity < requested then
      if half < capacity then some requested
      else capacityLoop double half fuel (double capacity) requested
    else some capacity

/-- Doubling modulo 2^64. -/
def doubled (capacity : Nat) : Nat := unsigned (capacity * 2)

/-- Below the limit a checked doubling is the doubling. -/
theorem capacityLoop_doubled {half : Nat} (hhalf : half < 2 ^ 63) (fuel capacity requested : Nat) :
    capacityLoop doubled half fuel capacity requested = capacityLoop (· * 2) half fuel capacity
    requested := by
  induction fuel generalizing capacity with
  | zero => rfl
  | succ fuel ih =>
    rw [capacityLoop, capacityLoop]
    split
    · split
      · rfl
      · have hdouble : doubled capacity = capacity * 2 := by
          have hcast := unsigned_natCast (show capacity * 2 < 2 ^ 64 by omega)
          rwa [Int.natCast_mul] at hcast
        rw [hdouble, ih]
    · rfl

/-- The capacity doubles to the request within its fuel. -/
theorem capacityLoop_ends {half limit fuel capacity requested : Nat} (hhalf : half < 2 ^ 62)
    (hlimit : 2 * half ≤ limit)
    (hcapacity : capacity ≤ limit) (hrequested : requested ≤ limit)
    (hfuel : 2 ^ 62 ≤ capacity * 2 ^ fuel) :
    ∃ result, capacityLoop (· * 2) half (fuel + 1) capacity requested = some result ∧
      requested ≤ result ∧
      result ≤ limit ∧ (capacity ≤ result ∨ requested = result) := by
  induction fuel generalizing capacity with
  | zero =>
    rw [Nat.pow_zero, Nat.mul_one] at hfuel
    rw [capacityLoop]
    split
    · rw [if_pos (by omega)]
      exact ⟨requested, rfl, Nat.le_refl _, hrequested, .inr rfl⟩
    · exact ⟨capacity, rfl, by omega, hcapacity, .inl (Nat.le_refl _)⟩
  | succ fuel ih =>
    rw [capacityLoop]
    split
    · split
      · exact ⟨requested, rfl, Nat.le_refl _, hrequested, .inr rfl⟩
      · have hpow : capacity * 2 ^ (fuel + 1) = capacity * 2 * 2 ^ fuel := by
          rw [Nat.pow_succ, Nat.mul_assoc, Nat.mul_comm 2]
        rw [hpow] at hfuel
        obtain ⟨result, hresult, henough, hbound, hgrows⟩ := ih (by omega) hfuel
        exact ⟨result, hresult, henough, hbound, hgrows.imp_left fun h => by omega⟩
    · exact ⟨capacity, rfl, by omega, hcapacity, .inl (Nat.le_refl _)⟩

end Cwhip.Lib
