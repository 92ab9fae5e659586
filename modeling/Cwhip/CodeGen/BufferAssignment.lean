/-
  Cwhip.CodeGen.BufferAssignment

  Declarations and assignments of buffers (`CodeGeneratorStatements.cpp`,
  `CodeGenerator.cpp`), and the copy that they make (`RuntimeGc.c`).

  A variable or field of type `buffer` is given a copy.  What goes into a list
  or a dict is boxed with the pointer it has.
-/

import Mathlib.Logic.Function.Basic
import Mathlib.Data.List.Basic
import Cwhip.CodeGen.Hierarchy

namespace Cwhip.CodeGen.BufferAssignment

/-! ## Memory -/

/-- The static types of places that a buffer can be assigned to; `any` is that of
    elements and entries, and cannot be declared. -/
inductive BindingType where
  | buffer
  | any
  deriving DecidableEq

/-- What holds a value: a variable or field of type `buffer`, an element or an entry. -/
inductive Place where
  | identifier (name : Text)
  | field (object : Nat) (name : Text)
  | element (list index : Nat)
  | entry (dict : Nat) (key : Text)
  deriving DecidableEq

/-- The buffers, by their addresses, and the buffer that each place holds, as it
    is or boxed; a place may hold null or another value. -/
structure Memory where
  buffers : List (List UInt8)
  held : Place → Option Nat

/-- Places hold buffers that exist. -/
def Memory.Sound (memory : Memory) : Prop :=
  ∀ place address, memory.held place = some address → address < memory.buffers.length

def Memory.bytesAt (memory : Memory) (place : Place) : Option (List UInt8) :=
  (memory.held place).bind (memory.buffers[·]?)

/-- `set`, `append`, `resize` and `clear`. -/
inductive Mutation where
  | set (index : Nat) (byte : UInt8)
  | append (byte : UInt8)
  | resize (length : Nat)
  | clear

def Mutation.apply : Mutation → List UInt8 → List UInt8
  | set index byte, bytes => bytes.set index byte
  | append byte, bytes => bytes ++ [byte]
  | resize length, bytes => bytes.take length ++ List.replicate (length - bytes.length) 0
  | clear, _ => []

/-- A mutation of the buffer at a place; through null it raises. -/
def Memory.mutate (memory : Memory) (place : Place) (mutation : Mutation) : Memory :=
  match memory.held place with
  | none => memory
  | some address => { memory with buffers := memory.buffers.modify address mutation.apply }

def Memory.run (memory : Memory) : List (Place × Mutation) → Memory
  | [] => memory
  | step :: rest => (memory.mutate step.1 step.2).run rest

/-! ## Values -/

/-- Expressions of type `buffer`, and the literal `null`. -/
inductive Source where
  | null
  | place (place : Place)
  | extraction (place : Place)
  | slice (place : Place) (first last : Nat)
  | literal (bytes : List UInt8)
  | call

/-- The address an expression yields, and the memory after it: a slice and a
    literal are new buffers, and a call may do anything. -/
inductive Evaluates (memory : Memory) : Source → Option Nat → Memory → Prop where
  | null : Evaluates memory .null none memory
  | place (place : Place) : Evaluates memory (.place place) (memory.held place) memory
  | extraction (place : Place) : Evaluates memory (.extraction place) (memory.held place) memory
  | slice {place : Place} {bytes : List UInt8} (h : memory.bytesAt place = some bytes)
      (first last : Nat) :
      Evaluates memory (.slice place first last) (some memory.buffers.length)
        { memory with buffers := memory.buffers ++ [(bytes.take last).drop first] }
  | literal (bytes : List UInt8) :
      Evaluates memory (.literal bytes) (some memory.buffers.length)
        { memory with buffers := memory.buffers ++ [bytes] }
  | call {value : Option Nat} {after : Memory} (hafter : after.Sound)
      (hvalue : ∀ address, value = some address → address < after.buffers.length) :
      Evaluates memory .call value after

/-! ## The generator -/

/-- What is emitted to put a value into a place. -/
inductive Instruction where
  | bufferCopy
  | insertvalue
  | store
  | mapSet
  deriving DecidableEq

/-- `CodeGenerator::buildDynamicValue`, of a buffer. -/
def buildDynamicValue : List Instruction := [.insertvalue]

/-- `CodeGenerator::convertObjectValue`, of a buffer. -/
def convertObjectValue : BindingType → List Instruction
  | .buffer => []
  | .any => buildDynamicValue

/-- `CodeGenerator::copyBufferValue`, by the type after the conversion. -/
def copyBufferValue (source : Source) : BindingType → List Instruction
  | .any => []
  | .buffer =>
    match source with
    | .null => []
    | _ => [.bufferCopy]

/-- `emitStatement`, of a declaration or an assignment: an element and an entry
    go through `emitArrayElementStore` and `emitMapElementStore`. -/
def emitStore (source : Source) : Place → List Instruction
  | .identifier _ | .field _ _ =>
    convertObjectValue .buffer ++ copyBufferValue source .buffer ++ [.store]
  | .element _ _ => buildDynamicValue ++ [.store]
  | .entry _ _ => buildDynamicValue ++ [.mapSet]

/-- `cwhip_buffer_copy` -/
def bufferCopy (memory : Memory) (value : Option Nat) : Option Nat × Memory :=
  match value.bind (memory.buffers[·]?) with
  | none => (none, memory)
  | some bytes => (some memory.buffers.length, { memory with buffers := memory.buffers ++ [bytes] })

/-- A run of what is emitted. -/
def execute (target : Place) : List Instruction → Option Nat → Memory → Memory
  | [], _, memory => memory
  | .bufferCopy :: rest, value, memory =>
    let copy := bufferCopy memory value
    execute target rest copy.1 copy.2
  | .insertvalue :: rest, value, memory => execute target rest value memory
  | .store :: rest, value, memory | .mapSet :: rest, value, memory =>
    execute target rest value { memory with held := Function.update memory.held target value }

/-! ## Independence -/

/-- No mutation through other places is seen at the target, and none through the
    target at another place. -/
def Independent (memory : Memory) (target : Place) : Prop :=
  ∀ steps : List (Place × Mutation),
    ((∀ step ∈ steps, step.1 ≠ target) → (memory.run steps).bytesAt target = memory.bytesAt target)
      ∧
      ((∀ step ∈ steps, step.1 = target) → ∀ other, other ≠ target →
        (memory.run steps).bytesAt other = memory.bytesAt other)

/-- A place of static type `buffer`. -/
def Place.isBuffer : Place → Prop
  | identifier _ => True
  | field _ _ => True
  | element _ _ => False
  | entry _ _ => False

@[simp] theorem mutate_held (memory : Memory) (place : Place) (mutation : Mutation) :
    (memory.mutate place mutation).held = memory.held := by
  rw [Memory.mutate]
  split <;> rfl

variable {memory : Memory} {other : Place} {value : Option Nat}

theorem mutate_bytesAt {place : Place} (mutation : Mutation)
    (h : memory.held place = none ∨ memory.held other ≠ memory.held place) :
    (memory.mutate place mutation).bytesAt other = memory.bytesAt other := by
  rw [Memory.bytesAt, Memory.bytesAt, mutate_held, Memory.mutate]
  split
  · rfl
  · next address haddress =>
    cases hother : memory.held other with
    | none => rfl
    | some address' =>
      have hne : address ≠ address' := by
        rintro rfl
        rcases h with hnone | hne
        · cases haddress.symm.trans hnone
        · exact hne (hother.trans haddress.symm)
      show (memory.buffers.modify address mutation.apply)[address']? = memory.buffers[address']?
      rw [List.getElem?_modify_ne _ _ hne]

theorem run_bytesAt {steps : List (Place × Mutation)}
    (h : ∀ step ∈ steps, memory.held step.1 = none ∨ memory.held other ≠ memory.held step.1) :
    (memory.run steps).bytesAt other = memory.bytesAt other := by
  induction steps generalizing memory with
  | nil => rfl
  | cons step steps ih =>
    obtain ⟨hstep, hrest⟩ := List.forall_mem_cons.mp h
    rw [Memory.run, ih (by simpa only [mutate_held] using hrest), mutate_bytesAt step.2 hstep]

theorem independent_iff (hsound : memory.Sound) (target : Place) :
    Independent memory target ↔
      memory.held target = none ∨ ∀ other, other ≠ target →
      memory.held other ≠ memory.held target := by
  constructor
  · intro h
    by_contra hshared
    push Not at hshared
    obtain ⟨hsome, other, hne, hsame⟩ := hshared
    obtain ⟨address, haddress⟩ := Option.ne_none_iff_exists'.mp hsome
    have hlt := hsound target address haddress
    -- a byte appended through the other place is seen at the target
    have hseen := (h [(other, .append 0)]).1 fun step hstep => by
      rw [List.mem_singleton.mp hstep]
      exact hne
    rw [Memory.run, Memory.run, Memory.bytesAt, Memory.bytesAt, mutate_held, haddress] at hseen
    simp only [Memory.mutate, hsame, haddress, Option.bind_some, List.getElem?_modify_eq,
      List.getElem?_eq_getElem hlt, Option.map_eq_map, Option.map_some,
      Option.some.injEq, Mutation.apply] at hseen
    have hlength := congrArg List.length hseen
    rw [List.length_append, List.length_singleton] at hlength
    omega
  · intro h steps
    constructor
    · intro hothers
      apply run_bytesAt
      intro step hstep
      rcases h with hnone | hdistinct
      · by_cases hheld : memory.held step.1 = none
        · exact .inl hheld
        · exact .inr fun hsame => hheld (hsame.symm.trans hnone)
      · exact .inr (hdistinct step.1 (hothers step hstep)).symm
    · intro hall other hother
      apply run_bytesAt
      intro step hstep
      rw [hall step hstep]
      exact h.imp_right fun hdistinct => hdistinct other hother

/-! ## Stores -/

theorem Evaluates.sound {after : Memory} {source : Source} (hsound : memory.Sound)
    (h : Evaluates memory source value after) :
    after.Sound ∧ ∀ address, value = some address → address < after.buffers.length := by
  have hgrown : ∀ bytes : List UInt8, ∀ place address, memory.held place = some address →
      address < (memory.buffers ++ [bytes]).length := by
    intro bytes place address hheld
    have hlt := hsound place address hheld
    rw [List.length_append]
    omega
  have hfresh : ∀ (bytes : List UInt8) address, some memory.buffers.length = some address →
      address < (memory.buffers ++ [bytes]).length := by
    intro bytes address heq
    rw [← Option.some.inj heq, List.length_append, List.length_singleton]
    omega
  cases h with
  | null => exact ⟨hsound, fun _ h => nomatch h⟩
  | place place | extraction place => exact ⟨hsound, hsound place⟩
  | slice _ first last | literal bytes => exact ⟨hgrown _, hfresh _⟩
  | call hafter hvalue => exact ⟨hafter, hvalue⟩

theorem bufferCopy_spec
    (hvalue : ∀ address, value = some address → address < memory.buffers.length) :
    (bufferCopy memory value).2.held = memory.held ∧
      (bufferCopy memory value).1.bind ((bufferCopy memory value).2.buffers[·]?)
        = value.bind (memory.buffers[·]?) ∧
      memory.buffers.length ≤ (bufferCopy memory value).2.buffers.length ∧
      ∀ address, (bufferCopy memory value).1 = some address →
        address = memory.buffers.length ∧ address < (bufferCopy memory value).2.buffers.length := by
  cases value with
  | none => exact ⟨rfl, rfl, Nat.le_refl _, fun _ h => nomatch h⟩
  | some address =>
    have hget := List.getElem?_eq_getElem (hvalue address rfl)
    simp [bufferCopy, hget]

theorem execute_emitStore (source : Source) (target : Place) (value : Option Nat) (memory : Memory)
    (hnull : source = .null → value = none) :
    execute target (emitStore source target) value memory
        = { memory with held := Function.update memory.held target value } ∧
      (¬ target.isBuffer ∨ value = none) ∨
    execute target (emitStore source target) value memory
        = { (bufferCopy memory value).2 with
            held := Function.update (bufferCopy memory value).2.held target
              (bufferCopy memory value).1 } ∧
      target.isBuffer := by
  cases target with
  | identifier name | field object name =>
    cases source with
    | null => exact .inl ⟨rfl, .inr (hnull rfl)⟩
    | place | extraction | slice | literal | call => exact .inr ⟨rfl, trivial⟩
  | element list index | entry dict key => exact .inl ⟨rfl, .inl (fun h => h)⟩

/-- After a declaration or an assignment the target holds the bytes that the
    value had, and it is independent of all other places exactly when it is a
    variable or field of type `buffer`, or null was assigned, or no other place
    held the buffer that the value is. -/
theorem buffer_assignment_iff {memory after : Memory} {source : Source} {value : Option Nat}
    (target : Place) (hsound : memory.Sound) (h : Evaluates memory source value after) :
    (execute target (emitStore source target) value after).bytesAt target
        = value.bind (after.buffers[·]?) ∧
      (Independent (execute target (emitStore source target) value after) target ↔
        target.isBuffer ∨ value = none ∨ ∀ other, other ≠ target → after.held other ≠ value) := by
  obtain ⟨hafter, hvalue⟩ := h.sound hsound
  have hnull : source = .null → value = none := by
    rintro rfl
    cases h
    rfl
  have hupdate : ∀ (found : Memory) (address : Option Nat), found.Sound →
      (∀ a, address = some a → a < found.buffers.length) →
      Memory.Sound { found with held := Function.update found.held target address } := by
    intro found address hfound haddress place a hheld
    dsimp only at hheld ⊢
    by_cases hplace : place = target
    · rw [hplace, Function.update_self] at hheld
      exact haddress a hheld
    · rw [Function.update_of_ne hplace] at hheld
      exact hfound place a hheld
  rcases execute_emitStore source target value after hnull with ⟨hrun, hkind⟩ | ⟨hrun, hbuffer⟩
  · rw [hrun, independent_iff (hupdate after value hafter hvalue)]
    dsimp only [Memory.bytesAt]
    rw [Function.update_self]
    refine ⟨rfl, ?_⟩
    have hothers : (∀ other, other ≠ target →
        Function.update after.held target value other ≠ value) ↔
          ∀ other, other ≠ target → after.held other ≠ value := by
      refine forall₂_congr fun other hother => ?_
      rw [Function.update_of_ne hother]
    rw [hothers]
    constructor
    · exact .inr
    · rintro (hbuffer | hfree)
      · exact .inl (hkind.resolve_left (fun hnot => hnot hbuffer))
      · exact hfree
  · obtain ⟨hheld, hbytes, hgrows, hnew⟩ := bufferCopy_spec hvalue
    have hcopied : (bufferCopy after value).2.Sound := by
      intro place a ha
      rw [hheld] at ha
      exact Nat.lt_of_lt_of_le (hafter place a ha) hgrows
    rw [hrun, independent_iff (hupdate _ _ hcopied fun a ha => (hnew a ha).2)]
    dsimp only [Memory.bytesAt]
    rw [Function.update_self]
    refine ⟨hbytes, fun _ => .inl hbuffer, fun _ => ?_⟩
    cases hcopy : (bufferCopy after value).1 with
    | none => exact .inl rfl
    | some a =>
      right
      intro other hother hsame
      rw [Function.update_of_ne hother, hheld] at hsame
      -- the address is new, and no place held it
      have hlt := hafter other a hsame
      rw [(hnew a hcopy).1] at hlt
      exact absurd hlt (Nat.lt_irrefl _)

/-! ## A list element -/

/-- `buffer b`, with one byte, and nothing else. -/
def sampleMemory : Memory where
  buffers := [[1]]
  held := fun place => if place = .identifier ['b'] then some 0 else none

theorem sampleMemory_sound : sampleMemory.Sound := by
  intro place address h
  simp only [sampleMemory] at h
  split at h
  · cases h
    exact Nat.one_pos
  · cases h

/-- `buffer c = b` -/
theorem buffer_assignment_variable :
    Independent (execute (.identifier ['c'])
      (emitStore (.place (.identifier ['b'])) (.identifier ['c'])) (some 0) sampleMemory)
      (.identifier ['c']) :=
  (buffer_assignment_iff (.identifier ['c']) sampleMemory_sound
    (.place (.identifier ['b']))).2.mpr (.inl trivial)

/-- `values[0] = b` shares the buffer of `b`. -/
theorem buffer_assignment_element : ¬ ∀ (memory after : Memory) (source : Source)
    (value : Option Nat) (target : Place), memory.Sound → Evaluates memory source value after →
      Independent (execute target (emitStore source target) value after) target := by
  intro h
  have hstored := h sampleMemory sampleMemory _ _ (.element 0 0) sampleMemory_sound
    (.place (.identifier ['b'])) [(.identifier ['b'], .clear)]
  have hseen := hstored.1 fun step hstep => by
    rw [List.mem_singleton.mp hstep]
    exact fun heq => nomatch heq
  exact absurd hseen (by decide +kernel)

end Cwhip.CodeGen.BufferAssignment
