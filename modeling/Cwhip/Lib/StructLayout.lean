/-
  Cwhip.Lib.StructLayout

  Struct types in memory: size, alignment, and the offset that a list of member
  indices leads to.

  The members of a struct do not overlap, so two lists of indices lead to
  disjoint bytes unless one of them goes on from the other.
-/

import Mathlib.Data.List.Basic

namespace Cwhip.Lib

inductive MemoryType where
  | scalar (size align : Nat)
  | struct (members : List MemoryType)

/-- The first offset at or after another that is a multiple of an alignment. -/
def alignUp (offset align : Nat) : Nat := offset + (align - offset % align) % align

mutual

def MemoryType.align : MemoryType → Nat
  | .scalar _ align => align
  | .struct members => membersAlign members

def membersAlign : List MemoryType → Nat
  | [] => 1
  | member :: rest => max member.align (membersAlign rest)

end

mutual

def MemoryType.size : MemoryType → Nat
  | .scalar size _ => size
  | .struct members => alignUp (membersEnd members 0) (membersAlign members)

/-- Where members end that are placed from an offset on. -/
def membersEnd : List MemoryType → Nat → Nat
  | [], offset => offset
  | member :: rest, offset => membersEnd rest (alignUp offset member.align + member.size)

end

/-- The offset and the type of one of the members that are placed from an
    offset on. -/
def memberFrom : List MemoryType → Nat → Nat → Option (Nat × MemoryType)
  | [], _, _ => none
  | member :: _, offset, 0 => some (alignUp offset member.align, member)
  | member :: rest, offset, index + 1 =>
    memberFrom rest (alignUp offset member.align + member.size) index

def MemoryType.member : MemoryType → Nat → Option (Nat × MemoryType)
  | .scalar _ _, _ => none
  | .struct members, index => memberFrom members 0 index

/-- The offset and the type that a list of member indices leads to. -/
def MemoryType.element : MemoryType → List Nat → Option (Nat × MemoryType)
  | type, [] => some (0, type)
  | type, index :: rest =>
    (type.member index).bind fun member =>
      (member.2.element rest).map fun inner => (member.1 + inner.1, inner.2)

theorem le_alignUp (offset align : Nat) : offset ≤ alignUp offset align := Nat.le_add_right _ _

@[simp] theorem alignUp_zero (align : Nat) : alignUp 0 align = 0 := by
  rw [alignUp, Nat.zero_mod, Nat.sub_zero, Nat.mod_self]

/-! ## Members -/

theorem le_membersEnd (members : List MemoryType) (offset : Nat) :
    offset ≤ membersEnd members offset := by
  induction members generalizing offset with
  | nil => exact Nat.le_refl _
  | cons member rest ih =>
    rw [membersEnd]
    have hstart := le_alignUp offset member.align
    have hrest := ih (alignUp offset member.align + member.size)
    omega

variable {members : List MemoryType} {offset : Nat}

theorem memberFrom_type {index : Nat} {type : MemoryType} (h : members[index]? = some type) :
    ∃ place, memberFrom members offset index = some (place, type) := by
  induction members generalizing offset index with
  | nil => cases h
  | cons member rest ih =>
    cases index with
    | zero =>
      obtain rfl := Option.some.inj h
      exact ⟨_, rfl⟩
    | succ index => exact ih h

/-- A member lies between its start and the end of all members. -/
theorem memberFrom_inside {index place : Nat} {type : MemoryType}
    (h : memberFrom members offset index = some (place, type)) :
    offset ≤ place ∧ place + type.size ≤ membersEnd members offset := by
  induction members generalizing offset index with
  | nil => cases h
  | cons member rest ih =>
    have hstart := le_alignUp offset member.align
    rw [membersEnd]
    cases index with
    | zero =>
      obtain ⟨rfl, rfl⟩ := Prod.mk.inj (Option.some.inj h)
      exact ⟨hstart, le_membersEnd _ _⟩
    | succ index =>
      obtain ⟨hlow, hhigh⟩ := ih h
      exact ⟨by omega, hhigh⟩

/-- Of two members the first ends before the second starts. -/
theorem memberFrom_apart {first second place place' : Nat} {type type' : MemoryType}
    (hlt : first < second) (h : memberFrom members offset first = some (place, type))
    (h' : memberFrom members offset second = some (place', type')) :
    place + type.size ≤ place' := by
  induction members generalizing offset first second with
  | nil => cases h
  | cons member rest ih =>
    cases second with
    | zero => exact absurd hlt (Nat.not_lt_zero _)
    | succ second =>
      cases first with
      | zero =>
        obtain ⟨rfl, rfl⟩ := Prod.mk.inj (Option.some.inj h)
        rw [memberFrom] at h'
        exact (memberFrom_inside h').1
      | succ first => exact ih (Nat.lt_of_succ_lt_succ hlt) h h'

namespace MemoryType

variable {type : MemoryType}

variable {index place : Nat} {inner : MemoryType} {path : List Nat}

theorem member_inside
    (h : type.member index = some (place, inner)) : place + inner.size ≤ type.size := by
  cases type with
  | scalar size align => cases h
  | struct members =>
    rw [size]
    exact Nat.le_trans (memberFrom_inside h).2 (le_alignUp _ _)

variable {place' : Nat} {inner' : MemoryType} {rest : List Nat}

/-- Members of one type do not overlap. -/
theorem member_apart {first second : Nat} (hne : first ≠ second)
    (h : type.member first = some (place, inner))
    (h' : type.member second = some (place', inner')) :
    place + inner.size ≤ place' ∨ place' + inner'.size ≤ place := by
  cases type with
  | scalar size align => cases h
  | struct members =>
    rcases Nat.lt_or_gt_of_ne hne with hlt | hgt
    · exact .inl (memberFrom_apart hlt h h')
    · exact .inr (memberFrom_apart hgt h' h)

theorem member_zero {first : MemoryType} {rest : List MemoryType} :
    (struct (first :: rest)).member 0 = some (0, first) := by
  show some (alignUp 0 first.align, first) = some (0, first)
  rw [alignUp_zero]

/-! ## Lists of member indices -/

@[simp] theorem element_nil : type.element [] = some (0, type) := by
  rw [element]

theorem element_cons :
    type.element (index :: rest) = some (place, inner) ↔
      ∃ start mid offset, type.member index = some (start, mid) ∧
        mid.element rest = some (offset, inner) ∧ place = start + offset := by
  rw [element, Option.bind_eq_some_iff]
  constructor
  · rintro ⟨⟨start, mid⟩, hmember, h⟩
    obtain ⟨⟨offset, inner'⟩, hrest, hpair⟩ := Option.map_eq_some_iff.mp h
    obtain ⟨rfl, rfl⟩ := Prod.mk.inj hpair
    exact ⟨start, mid, offset, hmember, hrest, rfl⟩
  · rintro ⟨start, mid, offset, hmember, hrest, rfl⟩
    exact ⟨(start, mid), hmember, Option.map_eq_some_iff.mpr ⟨_, hrest, rfl⟩⟩

theorem element_singleton :
    type.element [index] = some (place, inner) ↔ type.member index = some (place, inner) := by
  rw [element_cons]
  constructor
  · rintro ⟨start, mid, offset, hmember, hrest, rfl⟩
    rw [element_nil] at hrest
    obtain ⟨rfl, rfl⟩ := Prod.mk.inj (Option.some.inj hrest)
    exact hmember
  · intro h
    exact ⟨place, inner, 0, h, element_nil, rfl⟩

/-- Members of members are found step by step. -/
theorem element_append :
    type.element (path ++ rest) = some (place, inner) ↔
      ∃ start mid offset, type.element path = some (start, mid) ∧
        mid.element rest = some (offset, inner) ∧ place = start + offset := by
  induction path generalizing type place with
  | nil =>
    rw [List.nil_append, element_nil]
    constructor
    · intro h
      exact ⟨0, type, place, rfl, h, (Nat.zero_add _).symm⟩
    · rintro ⟨start, mid, offset, hstart, hrest, rfl⟩
      obtain ⟨rfl, rfl⟩ := Prod.mk.inj (Option.some.inj hstart)
      rw [Nat.zero_add]
      exact hrest
  | cons index path ih =>
    rw [List.cons_append, element_cons]
    constructor
    · rintro ⟨start, mid, offset, hmember, hrest, rfl⟩
      obtain ⟨start', mid', offset', hpath, hend, rfl⟩ := ih.mp hrest
      refine ⟨start + start', mid', offset', ?_, hend, by omega⟩
      exact element_cons.mpr ⟨start, mid, start', hmember, hpath, rfl⟩
    · rintro ⟨start, mid, offset, hpath, hrest, rfl⟩
      obtain ⟨first, mid', inner', hmember, hinner, rfl⟩ := element_cons.mp hpath
      refine ⟨first, mid', inner' + offset, hmember, ?_, by omega⟩
      exact ih.mpr ⟨inner', mid, offset, hinner, hrest, rfl⟩

theorem element_inside
    (h : type.element path = some (place, inner)) : place + inner.size ≤ type.size := by
  induction path generalizing type place with
  | nil =>
    rw [element_nil] at h
    obtain ⟨rfl, rfl⟩ := Prod.mk.inj (Option.some.inj h)
    omega
  | cons index path ih =>
    obtain ⟨start, mid, offset, hmember, hrest, rfl⟩ := element_cons.mp h
    have hinner := ih hrest
    have houter := member_inside hmember
    omega

/-- Neither do members of members, unless one holds the other. -/
theorem element_apart {path' : List Nat} (hpath : ¬ path <+: path') (hpath' : ¬ path' <+: path)
    (h : type.element path = some (place, inner))
    (h' : type.element path' = some (place', inner')) :
    place + inner.size ≤ place' ∨ place' + inner'.size ≤ place := by
  induction path generalizing type place path' place' with
  | nil => exact absurd List.nil_prefix hpath
  | cons index path ih =>
    cases path' with
    | nil => exact absurd List.nil_prefix hpath'
    | cons index' path' =>
      obtain ⟨start, mid, offset, hmember, hrest, rfl⟩ := element_cons.mp h
      obtain ⟨start', mid', offset', hmember', hrest', rfl⟩ := element_cons.mp h'
      by_cases heq : index = index'
      · -- both lists enter one member
        obtain ⟨rfl, rfl⟩ :=
          Prod.mk.inj (Option.some.inj (hmember.symm.trans (heq ▸ hmember')))
        rw [heq, List.prefix_cons_inj] at hpath
        rw [heq, List.prefix_cons_inj] at hpath'
        have hinner := ih hpath hpath' hrest hrest'
        omega
      · have hinside := element_inside hrest
        have hinside' := element_inside hrest'
        have houter := member_apart heq hmember hmember'
        omega

end MemoryType

end Cwhip.Lib
