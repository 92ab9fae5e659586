/-
  Cwhip.Lib.RecordList

  Records in memory on an intrusive list.  The list is kept as the addresses in
  their order; a search and an unlinking read every record they pass, so they
  fail on an address that holds no record.

  On a well-formed list neither fails, and what they do is told by the entries:
  the records in the order of the list.
-/

import Mathlib.Data.List.Nodup
import Mathlib.Data.List.Perm.Basic
import Mathlib.Logic.Function.Basic

namespace Cwhip.Lib

/-- Records by their address, and the addresses on the list. -/
structure RecordList (ρ : Type*) where
  memory : Nat → Option ρ
  list : List Nat

namespace RecordList

variable {ρ : Type*}

def empty : RecordList ρ := ⟨fun _ => none, []⟩

/-- The first record that is looked for; `none` if a record is not there. -/
def findFrom (memory : Nat → Option ρ) (wanted : ρ → Bool) : List Nat → Option (Option Nat)
  | [] => some none
  | address :: rest =>
    match memory address with
    | none => none
    | some record => if wanted record then some (some address) else findFrom memory wanted rest

def find (l : RecordList ρ) (wanted : ρ → Bool) : Option (Option Nat) :=
    findFrom l.memory wanted l.list

/-- The list without an address; `none` if a record is not there. -/
def unlinkFrom (memory : Nat → Option ρ) (target : Nat) : List Nat → Option (List Nat)
  | [] => some []
  | address :: rest =>
    match memory address with
    | none => none
    | some _ =>
      if address = target then some rest
      else (unlinkFrom memory target rest).map (address :: ·)

def unlink (l : RecordList ρ) (target : Nat) : Option (RecordList ρ) :=
  (unlinkFrom l.memory target l.list).map fun list => { l with list }

/-- Put a new record in front. -/
def link (l : RecordList ρ) (address : Nat) (record : ρ) : RecordList ρ :=
  ⟨Function.update l.memory address (some record), address :: l.list⟩

def free (l : RecordList ρ) (address : Nat) : RecordList ρ :=
  { l with memory := Function.update l.memory address none }

/-- A record that is unlinked and freed. -/
def remove (l : RecordList ρ) (address : Nat) : RecordList ρ :=
  { l with list := l.list.erase address }.free address

def entries (l : RecordList ρ) : List ρ := l.list.filterMap l.memory

/-- The list holds the records that are in memory, each once. -/
structure WellFormed (l : RecordList ρ) : Prop where
  nodup : l.list.Nodup
  readable : ∀ address ∈ l.list, (l.memory address).isSome = true
  listed : ∀ address record, l.memory address = some record → address ∈ l.list

theorem wellFormed_empty : (empty : RecordList ρ).WellFormed :=
  ⟨List.nodup_nil, fun _ h => (nomatch h), fun _ _ h => nomatch h⟩

variable {l : RecordList ρ} {memory : Nat → Option ρ} {addresses : List Nat} {address : Nat}

theorem WellFormed.mem_entries (h : l.WellFormed) {record : ρ} :
    record ∈ l.entries ↔ ∃ address, l.memory address = some record := by
  rw [entries, List.mem_filterMap]
  constructor
  · rintro ⟨address, _, hrecord⟩
    exact ⟨address, hrecord⟩
  · rintro ⟨address, hrecord⟩
    exact ⟨address, h.listed address record hrecord, hrecord⟩

/-! ## Searching -/

theorem findFrom_spec (wanted : ρ → Bool)
    (h : ∀ address ∈ addresses, (memory address).isSome = true) :
    (findFrom memory wanted addresses = some none ∧
        ∀ record ∈ addresses.filterMap memory, wanted record = false) ∨
      ∃ address record, findFrom memory wanted addresses = some (some address) ∧
        address ∈ addresses ∧
        memory address = some record ∧ wanted record = true := by
  induction addresses with
  | nil => exact .inl ⟨rfl, fun _ h => nomatch h⟩
  | cons address rest ih =>
    obtain ⟨record, hrecord⟩ := Option.isSome_iff_exists.mp (h address List.mem_cons_self)
    unfold findFrom
    rw [hrecord]
    by_cases hwanted : wanted record = true
    · -- the first record of the list
      right
      exact ⟨address, record, if_pos hwanted, List.mem_cons_self, hrecord, hwanted⟩
    · show ((if wanted record then some (some address) else findFrom memory wanted rest) =
        some none ∧ _) ∨ _
      have hskip : (match some record with
          | none => none
          | some record =>
            if wanted record then some (some address) else findFrom memory wanted rest) =
          findFrom memory wanted rest := if_neg hwanted
      rw [if_neg hwanted, hskip]
      rcases ih fun other hother => h other (List.mem_cons_of_mem _ hother) with
        ⟨hnone, hall⟩ | ⟨other, found, hfound, hmem, hread⟩
      · left
        refine ⟨hnone, fun found hfound => ?_⟩
        rw [List.filterMap_cons_some hrecord] at hfound
        rcases List.mem_cons.mp hfound with rfl | hfound
        · simpa using hwanted
        · exact hall found hfound
      · exact .inr ⟨other, found, hfound, List.mem_cons_of_mem _ hmem, hread⟩

/-- A search finds the first record that is wanted, or there is none. -/
theorem WellFormed.find (h : l.WellFormed) (wanted : ρ → Bool) :
    (l.find wanted = some none ∧ ∀ record ∈ l.entries, wanted record = false) ∨
      ∃ address record, l.find wanted = some (some address) ∧ address ∈ l.list ∧
        l.memory address = some record ∧ wanted record = true :=
  findFrom_spec wanted h.readable

/-! ## Linking and unlinking -/

theorem filterMap_update {record : Option ρ} (h : address ∉ addresses) :
    addresses.filterMap (Function.update memory address record) = addresses.filterMap memory := by
  refine List.filterMap_congr fun other hother => ?_
  have hne : other ≠ address := by
    rintro rfl
    exact h hother
  exact Function.update_of_ne hne _ _

theorem WellFormed.fresh (h : l.WellFormed)
    (hfresh : l.memory address = none) : address ∉ l.list := by
  intro hmem
  have hread := h.readable address hmem
  rw [hfresh] at hread
  cases hread

theorem WellFormed.entries_link (h : l.WellFormed) (hfresh : l.memory address = none)
    (record : ρ) : (l.link address record).entries = record :: l.entries := by
  show (address :: l.list).filterMap (Function.update l.memory address (some record)) = _
  rw [List.filterMap_cons_some (Function.update_self ..), filterMap_update (h.fresh hfresh)]
  rfl

/-- A record linked at a free address keeps the list well formed. -/
theorem WellFormed.link (h : l.WellFormed) (hfresh : l.memory address = none)
    (record : ρ) : (l.link address record).WellFormed where
  nodup := List.nodup_cons.mpr ⟨h.fresh hfresh, h.nodup⟩
  readable := by
    intro other hother
    show (Function.update l.memory address (some record) other).isSome = true
    by_cases heq : other = address
    · simp [heq]
    · rw [Function.update_of_ne heq]
      exact h.readable other ((List.mem_cons.mp hother).resolve_left heq)
  listed := by
    intro other found hfound
    by_cases heq : other = address
    · exact heq ▸ List.mem_cons_self
    · have hold : l.memory other = some found := (Function.update_of_ne heq _ _).symm.trans hfound
      exact List.mem_cons_of_mem _ (h.listed other found hold)

theorem unlinkFrom_eq {target : Nat} (h : ∀ address ∈ addresses, (memory address).isSome = true) :
    unlinkFrom memory target addresses = some (addresses.erase target) := by
  induction addresses with
  | nil => rfl
  | cons address rest ih =>
    obtain ⟨record, hrecord⟩ := Option.isSome_iff_exists.mp (h address List.mem_cons_self)
    unfold unlinkFrom
    rw [hrecord]
    show (if address = target then some rest else (unlinkFrom memory target rest).map
      (address :: ·)) = _
    by_cases heq : address = target
    · rw [if_pos heq, heq, List.erase_cons_head]
    · rw [if_neg heq, ih fun other hother => h other (List.mem_cons_of_mem _ hother)]
      rw [List.erase_cons_tail (by simpa using heq)]
      rfl

theorem WellFormed.unlink (h : l.WellFormed) (target : Nat) :
    l.unlink target = some { l with list := l.list.erase target } := by
  rw [RecordList.unlink, unlinkFrom_eq h.readable]
  rfl

theorem WellFormed.notMem_erase (h : l.WellFormed) (target : Nat) :
    target ∉ l.list.erase target :=
  fun hin => (h.nodup.mem_erase_iff.mp hin).1 rfl

/-- Removing a record keeps the others linked. -/
theorem WellFormed.remove (h : l.WellFormed) (target : Nat) : (l.remove target).WellFormed where
  nodup := h.nodup.erase target
  readable := by
    intro address haddress
    have hin : address ∈ l.list.erase target := haddress
    have hne : address ≠ target := by
      rintro rfl
      exact h.notMem_erase address hin
    show (Function.update l.memory target none address).isSome = true
    rw [Function.update_of_ne hne]
    exact h.readable address (List.mem_of_mem_erase hin)
  listed := by
    intro address found hfound
    by_cases heq : address = target
    · have hnone : Function.update l.memory target none address = some found := hfound
      rw [heq, Function.update_self] at hnone
      cases hnone
    · have hold : l.memory address = some found := (Function.update_of_ne heq _ _).symm.trans hfound
      exact (List.mem_erase_of_ne heq).mpr (h.listed address found hold)

/-- Only the record at the address is gone. -/
theorem WellFormed.entries_remove (h : l.WellFormed) {target : Nat} {record : ρ}
    (hrecord : l.memory target = some record) :
    l.entries.Perm (record :: (l.remove target).entries) := by
  show (l.list.filterMap l.memory).Perm
    (record :: (l.list.erase target).filterMap (Function.update l.memory target none))
  rw [filterMap_update (h.notMem_erase target), ← List.filterMap_cons_some hrecord]
  exact (List.perm_cons_erase (h.listed target record hrecord)).filterMap l.memory

end RecordList

end Cwhip.Lib
