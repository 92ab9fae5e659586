/-
  Cwhip.Runtime.SplitScan

  The second scan of `split` (`RuntimeGc.c`), which fills the list allocated for the
  fields that the first one counted.  It searches the receiver again, through the
  block the separator had, and two collections run for each field it copies.

  `splitLoop_ok_iff` says exactly when it returns given fields: each of them is found,
  and kept until it is copied, in the Strings as the collections so far leave them.
-/

import Cwhip.Lib.Occurrences
import Cwhip.Runtime.StringOpsSound

namespace Cwhip.Runtime

open Cwhip.Lib

variable {data needle field : Bytes} {start count block length remaining : Nat}
  {finalizers : StringFinalizers} {s s' : StringState} {fields : List Bytes}
  {result : List (Option Bytes)}

/-! ## Searching -/

theorem findBytes_none_iff :
    findBytes data needle start = none ↔ ∀ position, start ≤ position →
    ¬ OccursAt data needle position := by
  rw [findBytes, List.find?_eq_none]
  constructor
  · intro h position hstart hoccurs
    obtain ⟨hbound, heq⟩ := occursAt_iff.mp hoccurs
    refine h position ?_ (beq_iff_eq.mpr heq)
    rw [searchPositions, if_pos (by omega), List.mem_range'_1]
    omega
  · intro h position hmem hbeq
    rw [searchPositions] at hmem
    split at hmem
    · rename_i hbounds
      rw [List.mem_range'_1] at hmem
      exact h position hmem.1 (occursAt_iff.mpr ⟨by omega, beq_iff_eq.mp hbeq⟩)
    · exact absurd hmem List.not_mem_nil

theorem findBytes_least {found : Nat} (h : findBytes data needle start = some found) :
    start ≤ found ∧ OccursAt data needle found ∧
      ∀ position, start ≤ position → position < found → ¬ OccursAt data needle position := by
  obtain ⟨hstart, hbound, heq⟩ := findBytes_some h
  refine ⟨hstart, occursAt_iff.mpr ⟨hbound, heq⟩, ?_⟩
  intro position hposition hbefore hoccurs
  obtain ⟨hbound', heq'⟩ := occursAt_iff.mp hoccurs
  -- the positions before the hit were looked at
  have hpositions : searchPositions data.length needle.length start =
      List.range' start (data.length - needle.length + 1 - start) := if_pos (by omega)
  rw [findBytes, hpositions, List.find?_range'_eq_some] at h
  have hmiss := h.2.2 position hposition hbefore
  rw [Bool.not_eq_true', beq_eq_false_iff_ne] at hmiss
  exact hmiss heq'

theorem findBytes_some_iff {found : Nat} :
    findBytes data needle start = some found ↔
      start ≤ found ∧ OccursAt data needle found ∧
        ∀ position, start ≤ position → position < found → ¬ OccursAt data needle position := by
  constructor
  · exact findBytes_least
  · rintro ⟨hle, hoccurs, hleast⟩
    cases hfind : findBytes data needle start with
    | none => exact absurd hoccurs (findBytes_none_iff.mp hfind found hle)
    | some found' =>
      obtain ⟨hle', hoccurs', hleast'⟩ := findBytes_least hfind
      rcases Nat.lt_trichotomy found found' with hlt | rfl | hlt
      · exact absurd hoccurs (hleast' found hle hlt)
      · rfl
      · exact absurd hoccurs' (hleast found' hle' hlt)

/-! ## What the second scan needs -/

/-- The search ends at the end of the field: what is read through the block that the
    separator had stands there, and nowhere before. -/
def FieldFound (strings : Strings) (block length start : Nat) (field : Bytes) : Prop :=
  ∃ separator, strings.argument.readAt block 0 length = .ok separator ∧
    OccursAt strings.receiver.value separator (start + field.length) ∧
    ∀ position, start ≤ position → position < start + field.length →
      ¬ OccursAt strings.receiver.value separator position

/-- The search ends without a hit, for want of room or of an occurrence, and the field
    goes up to the end of the receiver. -/
def LastFound (strings : Strings) (block length start : Nat) (field : Bytes) : Prop :=
  strings.receiver.length = start + field.length ∧
    (field.length < length ∨
      ∃ separator, strings.argument.readAt block 0 length = .ok separator ∧
        ∀ position, start ≤ position → ¬ OccursAt strings.receiver.value separator position)

/-- Bytes of a field can be copied: they are valid where they are read, and still
    there after the collections of the allocation. -/
def FieldKept (finalizers : StringFinalizers) (s : StringState) (start : Nat) (field : Bytes) :
    Prop :=
  field = [] ∨
    ((∃ bytes, s.strings.receiver.readAt s.strings.receiver.block start field.length = .ok bytes ∧
        validUtf8 bytes = true) ∧
      (s.allocated finalizers).strings.receiver.readAt s.strings.receiver.block start field.length =
        .ok field)

/-- The second scan finds a field from `start` on and keeps it. -/
structure FieldStays (finalizers : StringFinalizers) (s : StringState) (block length start : Nat)
    (field : Bytes) (isLast : Bool) : Prop where
  found : if isLast then LastFound s.strings block length start field
    else FieldFound s.strings block length start field
  kept : FieldKept finalizers s start field

/-- Where the field of this index starts, seen from the first. -/
def fieldStart (fields : List Bytes) (length index : Nat) : Nat :=
  ((fields.take index).map (·.length + length)).sum

/-- Every field stays.  When a field is looked for, two collections have run for each
    one before it. -/
def FieldsStay (finalizers : StringFinalizers) (s : StringState) (block length start : Nat)
    (fields : List Bytes) : Prop :=
  ∀ index (h : index < fields.length),
    FieldStays finalizers (s.after finalizers (2 * index)) block length
      (start + fieldStart fields length index) fields[index] (index + 1 == fields.length)

theorem StringState.after_add (finalizers : StringFinalizers) (s : StringState)
    (first second : Nat) :
    s.after finalizers (first + second) = (s.after finalizers first).after finalizers second := by
  induction second with
  | zero => rfl
  | succ second ih => exact congrArg (StringState.collect finalizers) ih

theorem fieldStart_cons (field : Bytes) (fields : List Bytes) (length index : Nat) :
    fieldStart (field :: fields) length (index + 1) = field.length + length +
    fieldStart fields length index := by
  rw [fieldStart, List.take_succ_cons, List.map_cons, List.sum_cons]
  rfl

theorem fieldsStay_cons :
    FieldsStay finalizers s block length start (field :: fields) ↔
      FieldStays finalizers s block length start field fields.isEmpty ∧
        FieldsStay finalizers (s.allocated finalizers) block length (start + field.length +
        length) fields := by
  have hlast : (0 + 1 == (field :: fields).length) = fields.isEmpty := by
    cases fields with
    | nil | cons _ _ => rfl
  -- the fields behind the first one start two collections later
  have hnext (index : Nat) : s.after finalizers (2 * (index + 1)) =
      (s.allocated finalizers).after finalizers (2 * index) := by
    rw [Nat.mul_succ, Nat.add_comm]
    exact s.after_add finalizers 2 (2 * index)
  have hstart (index : Nat) : start + fieldStart (field :: fields) length (index + 1) =
      start + field.length + length + fieldStart fields length index := by
    rw [fieldStart_cons]
    omega
  constructor
  · intro h
    constructor
    · have hfirst := h 0 (Nat.zero_lt_succ _)
      rw [hlast] at hfirst
      exact hfirst
    · intro index hindex
      have hrest := h (index + 1) (Nat.succ_lt_succ hindex)
      rw [hnext, hstart] at hrest
      simpa using hrest
  · rintro ⟨hfirst, hrest⟩ index hindex
    cases index with
    | zero =>
      rw [hlast]
      exact hfirst
    | succ index =>
      have hstays := hrest index (Nat.lt_of_succ_lt_succ hindex)
      rw [hnext, hstart]
      simpa using hstays

/-! ## One field -/

theorem readAt_length {v : GrowVec UInt8}
    (h : v.readAt block start count = .ok bytes) : bytes.length = count := by
  rw [GrowVec.readAt] at h
  split at h
  · rw [GrowVec.readCells] at h
    split at h
    · rename_i hrange
      cases h
      rw [List.length_take, List.length_drop]
      unfold GrowVec.capacity at hrange
      omega
    · cases h
  · cases h

theorem readFault_eq_ok {α : Type} {x : Except CellFault α} {a : α} : readFault x = .ok a ↔
    x = .ok a := by
  cases x with
  | ok b => exact ⟨fun h => by cases h; rfl, fun h => by cases h; rfl⟩
  | error fault => exact iff_of_false (fun h => nomatch h) fun h => nomatch h

theorem stringNew_ok_iff :
    stringNew finalizers s (rangeSource s start count) count = .ok (field, s') ↔
      count ≤ int64Max ∧ count = field.length ∧ FieldKept finalizers s start field ∧
      s' = s.allocated finalizers := by
  by_cases hzero : count = 0
  · subst hzero
    have hempty : stringNew finalizers s (rangeSource s start 0) 0 = .ok ([],
      s.allocated finalizers) := rfl
    rw [hempty]
    constructor
    · intro h
      cases h
      exact ⟨Nat.zero_le _, rfl, .inl rfl, rfl⟩
    · rintro ⟨_, hlength, _, rfl⟩
      rw [List.eq_nil_of_length_eq_zero hlength.symm]
  · have hsource : rangeSource s start count = .receiver s.strings.receiver.block start :=
      if_neg hzero
    have hcopy (σ : StringState) : copySource σ (.receiver s.strings.receiver.block start) count =
        readFault (σ.strings.receiver.readAt s.strings.receiver.block start count) := if_neg hzero
    rw [stringNew, hsource]
    simp only [bind_eq_ok, pure_eq_ok, ensure_eq_ok, hcopy, readSource, readFault_eq_ok,
      Prod.mk.injEq]
    constructor
    · rintro ⟨_, ⟨hmax, _⟩, bytes, hread, _, hvalid, copied, hcopied, rfl, rfl⟩
      obtain rfl := (readAt_length hcopied).symm
      exact ⟨hmax, rfl, .inr ⟨⟨bytes, hread, hvalid⟩, hcopied⟩, rfl⟩
    · rintro ⟨hmax, rfl, hkept, rfl⟩
      rcases hkept with rfl | ⟨⟨bytes, hread, hvalid⟩, hcopied⟩
      · exact absurd rfl hzero
      · exact ⟨(), ⟨hmax, by rintro ⟨⟩⟩, bytes, hread, (), hvalid, field, hcopied, rfl, rfl⟩

theorem splitField_ok_iff {next : Option Nat} (hstart : start ≤ int64Max)
    (hfield : field.length ≤ int64Max) :
    splitField finalizers s block length start = .ok (field, next, s') ↔
      ∃ found, findCached s block length start = .ok found ∧ next = found.map (· + length) ∧
        found.getD s.strings.receiver.length = start + field.length ∧
        FieldKept finalizers s start field ∧
        s' = s.allocated finalizers := by
  have hmax : int64Max = 2 ^ 63 - 1 := rfl
  rw [splitField]
  simp only [bind_eq_ok, pure_eq_ok, Prod.mk.injEq]
  constructor
  · rintro ⟨found, hfound, ⟨bytes, σ⟩, hnew, rfl, rfl, rfl⟩
    obtain ⟨hcount, hlength, hkept, hstate⟩ := stringNew_ok_iff.mp hnew
    refine ⟨found, hfound, rfl, ?_, hkept, hstate⟩
    generalize found.getD s.strings.receiver.length = stop at hcount hlength
    change _ = bytes.length at hlength
    change bytes.length ≤ int64Max at hfield
    show stop = start + bytes.length
    -- a length that wraps around is refused
    split at hlength
    · omega
    · rename_i hbefore
      omega
  · rintro ⟨found, hfound, rfl, hstop, hkept, rfl⟩
    refine ⟨found, hfound, (field, s.allocated finalizers), ?_, rfl, rfl, rfl⟩
    have hcount : (if start ≤ found.getD s.strings.receiver.length then found.getD
      s.strings.receiver.length - start
        else 2 ^ 64 + found.getD s.strings.receiver.length - start) = field.length := by
      rw [hstop, if_pos (Nat.le_add_right _ _), Nat.add_sub_cancel_left]
    rw [hcount]
    exact stringNew_ok_iff.mpr ⟨hfield, rfl, hkept, rfl⟩

theorem findCached_some_iff :
    findCached s block length start = .ok (some (start + field.length)) ↔
      FieldFound s.strings block length start field := by
  rw [findCached, FieldFound]
  split
  · -- there is no room for the separator behind the start
    rename_i hroom
    refine iff_of_false (fun h => nomatch h) ?_
    rintro ⟨separator, hread, hoccurs, _⟩
    have hbound := (occursAt_iff.mp hoccurs).1
    rw [readAt_length hread, GrowVec.value_length] at hbound
    rw [searchPositions, if_pos (by omega), List.range'_eq_nil_iff] at hroom
    omega
  · simp only [bind_eq_ok, pure_eq_ok, readFault_eq_ok, findBytes_some_iff]
    constructor
    · rintro ⟨separator, hread, _, hfound⟩
      exact ⟨separator, hread, hfound⟩
    · rintro ⟨separator, hread, hfound⟩
      exact ⟨separator, hread, Nat.le_add_right _ _, hfound⟩

theorem findCached_none_iff (hreceiver : s.strings.receiver.length = start + field.length) :
    findCached s block length start = .ok none ↔ LastFound s.strings block length start field := by
  have hroom : searchPositions s.strings.receiver.length length start = [] ↔
      field.length < length := by
    rw [searchPositions, hreceiver]
    split
    · rw [List.range'_eq_nil_iff]
      omega
    · exact iff_of_true rfl (by omega)
  rw [findCached, LastFound]
  by_cases hshort : field.length < length
  · rw [if_pos (hroom.mpr hshort)]
    exact iff_of_true rfl ⟨hreceiver, .inl hshort⟩
  · rw [if_neg fun hnil => hshort (hroom.mp hnil)]
    simp only [bind_eq_ok, pure_eq_ok, readFault_eq_ok, findBytes_none_iff]
    constructor
    · rintro ⟨separator, hread, hnone⟩
      exact ⟨hreceiver, .inr ⟨separator, hread, hnone⟩⟩
    · rintro ⟨_, hlt | ⟨separator, hread, hnone⟩⟩
      · exact absurd hlt hshort
      · exact ⟨separator, hread, hnone⟩

/-! ## The loop -/

theorem splitLoop_zero : returned (splitLoop finalizers block length 0 start s) ≠ .ok result := by
  rw [splitLoop]
  cases splitField finalizers s block length start with
  | ok found | error fault => exact fun h => nomatch h

theorem splitLoop_succ_iff :
    returned (splitLoop finalizers block length (remaining + 1) start s) = .ok result ↔
      ∃ bytes next s', splitField finalizers s block length start = .ok (bytes, next, s') ∧
        ((next = none ∧ result = some bytes :: List.replicate remaining none) ∨
          ∃ start' rest, next = some start' ∧
            returned (splitLoop finalizers block length remaining start' s') = .ok rest ∧
            result = some bytes :: rest) := by
  rw [splitLoop]
  cases hfield : splitField finalizers s block length start with
  | error fault =>
    refine iff_of_false (by rintro ⟨⟩) ?_
    rintro ⟨_, _, _, h, _⟩
    cases h
  | ok found =>
    obtain ⟨bytes, next, s'⟩ := found
    rw [ok_bind]
    constructor
    · intro h
      refine ⟨bytes, next, s', rfl, ?_⟩
      cases next with
      | none =>
        cases h
        exact .inl ⟨rfl, rfl⟩
      | some start' =>
        dsimp only at h
        cases hrest : splitLoop finalizers block length remaining start' s' with
        | error fault =>
          rw [hrest] at h
          cases h
        | ok rest =>
          rw [hrest] at h
          cases h
          exact .inr ⟨start', rest.1, rfl, by rw [hrest]; rfl, rfl⟩
    · rintro ⟨_, _, _, heq, ⟨rfl, rfl⟩ | ⟨start', rest, rfl, hrest, rfl⟩⟩
      · cases heq
        rfl
      · cases heq
        dsimp only
        cases hloop : splitLoop finalizers block length remaining start' s' with
        | error fault =>
          rw [hloop] at hrest
          cases hrest
        | ok loop =>
          rw [hloop] at hrest
          cases hrest
          rfl

theorem splitLoop_ne_nil : returned (splitLoop finalizers block length count start s) ≠ .ok [] := by
  cases count with
  | zero => exact splitLoop_zero
  | succ count =>
    rw [Ne, splitLoop_succ_iff]
    rintro ⟨_, _, _, _, ⟨_, hnil⟩ | ⟨_, _, _, _, hnil⟩⟩
    · cases hnil
    · cases hnil

theorem avoids_readFault {α : Type} {message : String} (x : Except CellFault α) :
    Avoids (.raises message) (readFault x) := by
  cases x with
  | ok a => exact Avoids.ok a
  | error fault => exact fun h => nomatch h

theorem avoids_readSource {message : String} (source : ByteSource) :
    Avoids (.raises message) (readSource s source count) := by
  cases source with
  | null => exact Avoids.ok _
  | receiver block start => exact avoids_readFault _
  | native bytes => exact Avoids.ok _

/-- A String is refused for its length or its bytes only. -/
theorem avoids_stringNew {message : String} (hlength : "String length out of bounds" ≠ message)
    (hbytes : "String bytes are not valid UTF-8" ≠ message) (source : ByteSource) :
    Avoids (.raises message) (stringNew finalizers s source count) := by
  refine (Avoids.ensure (fun h => hlength (NativeFault.raises.inj h)) _).bind fun _ _ => ?_
  refine (avoids_readSource _).bind fun bytes _ => ?_
  refine (Avoids.ensure (fun h => hbytes (NativeFault.raises.inj h)) _).bind fun _ _ => ?_
  refine Avoids.bind ?_ fun _ _ => Avoids.ok _
  rw [copySource]
  split
  · exact Avoids.ok _
  · exact avoids_readSource _

theorem avoids_splitLoop {message : String} (hlength : "String length out of bounds" ≠ message)
    (hbytes : "String bytes are not valid UTF-8" ≠ message) :
    Avoids (.raises message) (returned (splitLoop finalizers block length count start s)) := by
  have hfield (start : Nat) (s : StringState) :
      Avoids (.raises message) (splitField finalizers s block length start) := by
    refine Avoids.bind ?_ fun found _ => (avoids_stringNew hlength hbytes _).bind fun _ _ =>
      Avoids.ok _
    rw [findCached]
    split
    · exact Avoids.ok _
    · exact (avoids_readFault _).bind fun _ _ => Avoids.ok _
  have hloop : Avoids (.raises message) (splitLoop finalizers block length count start s) := by
    induction count generalizing start s with
    | zero => exact (hfield start s).bind fun _ _ h => nomatch h
    | succ count ih =>
      refine (hfield start s).bind fun found _ => ?_
      obtain ⟨bytes, next, s'⟩ := found
      cases next with
      | none => exact Avoids.ok _
      | some start' => exact ih.bind fun _ _ => Avoids.ok _
  intro h
  cases hrun : splitLoop finalizers block length count start s with
  | ok result =>
    rw [hrun] at h
    cases h
  | error fault =>
    rw [hrun] at h
    exact hloop (hrun.trans (congrArg _ (Except.error.inj h)))

theorem splitField_last_iff (hstart : start ≤ int64Max) (hfield : field.length ≤ int64Max) :
    splitField finalizers s block length start = .ok (field, none, s') ↔
      FieldStays finalizers s block length start field true ∧ s' = s.allocated finalizers := by
  rw [splitField_ok_iff hstart hfield]
  constructor
  · rintro ⟨found, hfound, hnext, hstop, hkept, hs'⟩
    obtain rfl := Option.map_eq_none_iff.mp hnext.symm
    exact ⟨⟨(findCached_none_iff hstop).mp hfound, hkept⟩, hs'⟩
  · rintro ⟨⟨hfound, hkept⟩, hs'⟩
    exact ⟨none, (findCached_none_iff hfound.1).mpr hfound, rfl, hfound.1, hkept, hs'⟩

theorem splitField_some_iff (hstart : start ≤ int64Max) (hfield : field.length ≤ int64Max)
    {next : Nat} :
    splitField finalizers s block length start = .ok (field, some next, s') ↔
      FieldStays finalizers s block length start field false ∧
        next = start + field.length + length ∧ s' = s.allocated finalizers := by
  rw [splitField_ok_iff hstart hfield]
  constructor
  · rintro ⟨found, hfound, hnext, hstop, hkept, hs'⟩
    obtain ⟨place, rfl, rfl⟩ := Option.map_eq_some_iff.mp hnext.symm
    obtain rfl : place = start + field.length := hstop
    exact ⟨⟨findCached_some_iff.mp hfound, hkept⟩, rfl, hs'⟩
  · rintro ⟨⟨hfound, hkept⟩, rfl, hs'⟩
    exact ⟨some (start + field.length), findCached_some_iff.mpr hfound, rfl, rfl, hkept, hs'⟩

/-- The second scan returns these fields exactly if every one of them stays.  No start
    passes what `int64_t` holds, be it for the fields themselves or for the receiver
    they are found in. -/
theorem splitLoop_ok_iff (hne : fields ≠ []) (hfields : ∀ field ∈ fields, field.length ≤ int64Max)
    (hstart : start ≤ int64Max)
    (hbound : ∀ index, index + 1 < fields.length →
      start + fieldStart fields length (index + 1) ≤ int64Max ∨
        ((s.after finalizers (2 * index)).strings.receiver.length ≤ int64Max)) :
    returned (splitLoop finalizers block length count start s) = .ok (fields.map some) ↔
      count = fields.length ∧ FieldsStay finalizers s block length start fields := by
  induction fields generalizing start count s with
  | nil => exact absurd rfl hne
  | cons field fields ih =>
    have hfield := hfields field List.mem_cons_self
    cases count with
    | zero => exact iff_of_false splitLoop_zero fun h => nomatch h.1
    | succ count =>
      rw [splitLoop_succ_iff, fieldsStay_cons, List.length_cons, Nat.succ_inj]
      cases fields with
      | nil =>
        constructor
        · rintro ⟨bytes, next, s', hrun, ⟨rfl, hresult⟩ | ⟨start', rest, rfl, hrest, hresult⟩⟩
          · obtain ⟨hsame, hnil⟩ := List.cons.inj hresult
            obtain rfl := Option.some.inj hsame
            obtain rfl := List.replicate_eq_nil_iff _ |>.mp hnil.symm
            refine ⟨rfl, ((splitField_last_iff hstart hfield).mp hrun).1, fun index h => ?_⟩
            exact absurd h (Nat.not_lt_zero _)
          · obtain ⟨_, rfl⟩ := List.cons.inj hresult
            exact absurd hrest splitLoop_ne_nil
        · rintro ⟨rfl, hstays, _⟩
          exact ⟨field, none, _, (splitField_last_iff hstart hfield).mpr ⟨hstays, rfl⟩,
            .inl ⟨rfl, rfl⟩⟩
      | cons second rest =>
        -- the next start is one of the fields' own or lies within the receiver
        have hnext (hstays : FieldStays finalizers s block length start field false) :
            start + field.length + length ≤ int64Max := by
          rcases hbound 0 (by simp) with hle | hle
          · simpa [fieldStart, Nat.add_assoc] using hle
          · obtain ⟨separator, hread, hoccurs, _⟩ := hstays.found
            have hend := (occursAt_iff.mp hoccurs).1
            rw [readAt_length hread, GrowVec.value_length] at hend
            exact Nat.le_trans hend hle
        have hrest (hstays : FieldStays finalizers s block length start field false) :
            returned (splitLoop finalizers block length count (start + field.length + length)
              (s.allocated finalizers)) =
              .ok ((second :: rest).map some) ↔ _ :=
          ih (List.cons_ne_nil _ _)
            (fun other hmem => hfields other (List.mem_cons_of_mem _ hmem)) (hnext hstays) (by
              intro index hindex
              have hlater := hbound (index + 1) (Nat.succ_lt_succ hindex)
              rw [fieldStart_cons, Nat.mul_succ, Nat.add_comm (2 * index), s.after_add finalizers 2]
                at hlater
              rwa [Nat.add_assoc, Nat.add_assoc start, ← Nat.add_assoc field.length])
        constructor
        · rintro ⟨bytes, next, s', hrun, ⟨rfl, hresult⟩ | ⟨start', rest', rfl, hloop, hresult⟩⟩
          · -- a null element would stand where the second field does
            have hnull := (List.cons.inj hresult).2
            cases count with
            | zero | succ count => cases hnull
          · obtain ⟨hsame, rfl⟩ := List.cons.inj hresult
            obtain rfl := Option.some.inj hsame
            obtain ⟨hstays, rfl, rfl⟩ := (splitField_some_iff hstart hfield).mp hrun
            obtain ⟨hcount, hstay⟩ := (hrest hstays).mp hloop
            exact ⟨hcount, hstays, hstay⟩
        · rintro ⟨hcount, hstays, hstay⟩
          exact ⟨field, some _, _, (splitField_some_iff hstart hfield).mpr ⟨hstays, rfl, rfl⟩,
            .inr ⟨_, _, rfl, (hrest hstays).mpr ⟨hcount, hstay⟩, rfl⟩⟩

theorem stringSplit_eq (finalizers : StringFinalizers) (s : StringState) :
    returned (stringSplit finalizers s) =
      if s.strings.argument.value = [] then .error
      (.raises "String.split separator cannot be empty")
      else if (splitFields s.strings.receiver.value s.strings.argument.value).length ≤ int64Max then
        returned (splitLoop finalizers s.strings.argument.block s.strings.argument.length
          (splitFields s.strings.receiver.value s.strings.argument.value).length 0
          (s.collect finalizers))
      else .error (.raises "String split result is too large") := by
  rw [stringSplit]
  dsimp only
  split
  · rename_i hempty
    rw [ensure_bind_error fun h => h hempty]
    rfl
  · rename_i hne
    rw [ensure_bind hne]
    split
    · rename_i hcount
      rw [ensure_bind hcount]
    · rename_i hlong
      rw [ensure_bind_error hlong]
      rfl

/-! ## Strings that are left alone -/

/-- No collection changes the Strings. -/
def Steady (finalizers : StringFinalizers) (s : StringState) : Prop :=
  ∀ collection, (finalizers collection).apply s.strings = s.strings

theorem Steady.collect (h : Steady finalizers s) : (s.collect finalizers).strings = s.strings :=
  h s.collections

theorem Steady.of_eq (h : Steady finalizers s) (hs : s'.strings = s.strings) :
    Steady finalizers s' := by
  intro collection
  rw [hs]
  exact h collection

theorem Steady.allocated (h : Steady finalizers s) : (s.allocated finalizers).strings = s.strings :=
  (h.of_eq h.collect).collect.trans h.collect

theorem Steady.fieldKept (h : Steady finalizers s)
    (hrange : start + count ≤ s.strings.receiver.length)
    (hfield : (s.strings.receiver.value.drop start).take count = field)
    (hvalid : validUtf8 field = true) :
    FieldKept finalizers s start field := by
  have hcount : field.length = count := by rw [← hfield, range_length hrange]
  have hread : s.strings.receiver.readAt s.strings.receiver.block start field.length =
      .ok field := by
    rw [hcount, GrowVec.readAt_eq (Nat.le_refl _) hrange, if_pos rfl,
      GrowVec.take_drop_cells hrange, hfield]
  refine .inr ⟨⟨field, hread, hvalid⟩, ?_⟩
  rw [h.allocated]
  exact hread

/-- The fields of Strings that are left alone stay. -/
theorem Steady.fieldsStay (h : Steady finalizers s) {separator : GrowVec UInt8}
    (hseparator : s.strings.argument = separator) (hstart : start ≤ s.strings.receiver.length)
    (hfields : Fields separator.value (s.strings.receiver.value.drop start) fields)
    (hvalid : ∀ field ∈ fields, validUtf8 field = true) :
    FieldsStay finalizers s separator.block separator.length start fields := by
  have hread : separator.readAt separator.block 0 separator.length = .ok separator.value := by
    rw [GrowVec.readAt_eq (Nat.le_refl _) (by omega), if_pos rfl]
    rfl
  generalize separator.value = needle at hread hfields
  generalize hdata : s.strings.receiver.value.drop start = data at hfields
  induction hfields generalizing start s with
  | @last data hnone =>
    have hlength : data.length = s.strings.receiver.length - start := by
      rw [← hdata, List.length_drop, GrowVec.value_length]
    refine fieldsStay_cons.mpr ⟨⟨⟨by omega, .inr ⟨needle, ?_, ?_⟩⟩, ?_⟩, fun index h =>
      absurd h (Nat.not_lt_zero _)⟩
    · rw [hseparator]
      exact hread
    · intro position hposition hoccurs
      obtain ⟨behind, rfl⟩ := Nat.exists_eq_add_of_le hposition
      rw [← GrowVec.value_length] at hstart
      rw [← occursAt_drop hstart, hdata] at hoccurs
      exact hnone behind hoccurs
    · refine h.fieldKept (by omega : start + data.length ≤ _) ?_ (hvalid _ List.mem_cons_self)
      rw [hdata, List.take_length]
  | @cons field rest fields hleftmost hrest ih =>
    have hlength : field.length + (needle.length + rest.length) = s.strings.receiver.length -
        start := by
      rw [← List.length_append, ← List.length_append, ← hdata, List.length_drop,
        GrowVec.value_length]
    have hneedle : needle.length = separator.length := readAt_length hread
    have hvalue : start ≤ s.strings.receiver.value.length := by rwa [GrowVec.value_length]
    have hbehind : s.strings.receiver.value.drop (start + field.length + separator.length) =
        rest := by
      rw [← List.drop_drop, ← List.drop_drop, hdata, List.drop_left, ← hneedle, List.drop_left]
    have hlast : fields.isEmpty = false := List.isEmpty_eq_false_iff.mpr hrest.ne_nil
    rw [fieldsStay_cons, hlast]
    refine ⟨⟨⟨needle, ?_, ?_, ?_⟩, ?_⟩, ?_⟩
    · rw [hseparator]
      exact hread
    · rw [← occursAt_drop hvalue, hdata]
      exact occursAt_behind field needle rest
    · intro position hposition hbefore hoccurs
      obtain ⟨inside, rfl⟩ := Nat.exists_eq_add_of_le hposition
      rw [← occursAt_drop hvalue, hdata] at hoccurs
      exact hleftmost inside (by omega) hoccurs
    · refine h.fieldKept (by omega : start + field.length ≤ _) ?_ (hvalid _ List.mem_cons_self)
      rw [hdata, List.take_left]
    · refine ih (h.of_eq h.allocated) ?_ ?_ (fun other hmem =>
        hvalid other (List.mem_cons_of_mem _ hmem)) ?_
      · rw [h.allocated]
        exact hseparator
      · rw [h.allocated]
        omega
      · rw [h.allocated]
        exact hbehind

end Cwhip.Runtime
