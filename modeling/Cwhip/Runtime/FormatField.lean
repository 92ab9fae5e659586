/-
  Cwhip.Runtime.FormatField

  `cwhip_string_format_spec_append` (`RuntimeGc.c`) on the tag and the 64-bit
  payload of a dynamic value: what it prints, how it pads, and the loops that
  append the fill.

  The signed hexadecimal text is computed on machine words, and the buffer for
  printed text has 128 bytes.  `formatSpecAppend_eq` relates all this to
  `Store.formatAppend`, where numbers are numbers.
-/

import Cwhip.Runtime.StringStore

namespace Cwhip.Runtime.StringStore

open Cwhip.Lib Cwhip.Lib.Utf8

/-! ## Values -/

/-- What the pointer of an object value leads to. -/
inductive ObjectReference where
  | null
  | string (object : Nat)
  /-- An object of another class than String. -/
  | other
  deriving DecidableEq, Repr

inductive DynamicValue where
  | integer (payload : Int64)
  | string
  | object (reference : ObjectReference)
  | map
  | array
  | boolean (payload : Bool)
  | float (payload : UInt64)
  | unsigned (payload : UInt64)
  | buffer
  | handle
  | type (name : Bytes)
  deriving DecidableEq, Repr

/-- The word that is passed as `integer`. -/
def DynamicValue.word : DynamicValue → UInt64
  | .integer payload => payload.toUInt64
  | .boolean payload => if payload then 1 else 0
  | .float payload | .unsigned payload => payload
  | _ => 0

def DynamicValue.integral : DynamicValue → Bool
  | .integer _ | .unsigned _ => true
  | _ => false

def DynamicValue.isFloat : DynamicValue → Bool
  | .float _ => true
  | _ => false

/-- An `int` below zero. -/
def DynamicValue.negative : DynamicValue → Bool
  | .integer payload => payload < 0
  | _ => false

/-! ## What is printed -/

/-- `abort`, or a stop of the operations on Strings. -/
inductive FieldStop where
  | aborted
  | stopped (stop : Stop)

def liftStop {α : Type} : Except Stop α → Except FieldStop α
  | .ok a => .ok a
  | .error stop => .error (.stopped stop)

/-- Text that `snprintf` puts into `text`. -/
def printed (bytes : Bytes) : Except FieldStop FormatData :=
  if bytes.length < 128 then .ok (.text bytes) else .error .aborted

variable (print : UInt64 → Bytes)

/-- `"%s%llx"`: a minus sign, and the magnitude as an unsigned word. -/
def DynamicValue.hexadecimal (value : DynamicValue) (upper : Bool) : Bytes :=
  let magnitude := if value.negative then 0 - value.word else value.word
  (if value.negative then [0x2d] else []) ++ digits 16 magnitude.toNat upper

/-- The branches by tag. -/
def Store.taggedData (σ : Store) : DynamicValue → Except FieldStop FormatData
  | .integer payload => printed (signed 10 payload.toInt false)
  | .unsigned payload => printed (digits 10 payload.toNat false)
  | .float payload => printed (print payload)
  | .boolean payload => return .constant (asciiBytes (if payload then "true" else "false"))
  | .type name => return .constant name
  | .object .null => return .constant (asciiBytes "(null)")
  | .object (.string object) => do
    let v ← liftStop (σ.buffer object)
    return .borrowed object v.block v.length
  | .object .other | .map | .array | .string => return .constant (asciiBytes "<object>")
  | .buffer | .handle =>
    .error (.stopped (.raised "buffer and handle values are not formattable" σ))

/-- The first half: `data` and `count`.  `print` is the conversion `%.15g`. -/
def Store.fieldData (σ : Store) (value : DynamicValue) (type : Option FormatType) (zeroPad : Bool) :
    Except FieldStop FormatData := do
  ensure ((type = none ∧ zeroPad = false) ∨ value.integral = true)
    (.stopped (.raised "numeric format specifiers require int or unsigned" σ))
  if type = some .c then
    ensure (value.word ≤ 127)
      (.stopped (.raised "ASCII character format requires a value in 0..127" σ))
    return .text [value.word.toUInt8]
  else if type = some .x then printed (value.hexadecimal false)
  else if type = some .X then printed (value.hexadecimal true)
  else σ.taggedData print value

/-! ## Padding -/

/-- `while (before)` and `while (after)`: chunks of at most 128 bytes. -/
def Store.fillLoop (σ : Store) (receiver : Nat) (fill : UInt8) (count : Nat) : Except Stop Store :=
  if count = 0 then .ok σ
  else do
    let chunk := if 128 < count then 128 else count
    let σ ← σ.appendBytes receiver (List.replicate chunk fill)
    σ.fillLoop receiver fill (count - chunk)
termination_by count
decreasing_by split <;> omega

/-- `before` -/
def fillBefore (alignment : Alignment) (padding : Nat) : Nat :=
  if alignment = .left then 0 else if alignment = .center then padding / 2 else padding

/-- `cwhip_string_format_spec_append`. -/
def Store.formatSpecAppend (σ : Store) (receiver : Nat) (value : DynamicValue) (spec : FormatSpec) :
    Except FieldStop Store := do
  let data ← σ.fieldData print value spec.type spec.zeroPad
  let bytes ← liftStop (σ.readData data)
  let fieldLength := data.fieldLength bytes
  let padding := if fieldLength < spec.width then spec.width - fieldLength else 0
  let alignment := spec.alignment.getD (if value.integral || value.isFloat then .right else .left)
  let before := fillBefore alignment padding
  let after := padding - before
  let sign := spec.zeroPad && bytes.head? == some 0x2d
  let fill : UInt8 := if spec.zeroPad then 0x30 else 0x20
  let σ ← liftStop (if sign then σ.appendBytes receiver [0x2d] else .ok σ)
  let σ ← liftStop (σ.fillLoop receiver fill before)
  let bytes ← liftStop (σ.readData data)
  let σ ← liftStop (σ.appendBytes receiver (if sign then bytes.tail else bytes))
  liftStop (σ.fillLoop receiver fill after)

/-- `cwhip_string_format_append`: without a specification. -/
def Store.formatAppendPlain (σ : Store) (receiver : Nat) (value : DynamicValue) :
    Except FieldStop Store :=
  σ.formatSpecAppend print receiver value ⟨none, 0, none, false⟩

/-! ## Numbers for words -/

def DynamicValue.decoded : DynamicValue → FormatValue
  | .integer payload => .integer payload.toInt
  | .unsigned payload => .unsigned payload.toNat
  | .float payload => .float (print payload)
  | .boolean payload => .boolean payload
  | .type name => .typeName name
  | .object .null => .null
  | .object (.string index) => .string index
  | .object .other | .map | .array | .string => .object
  | .buffer | .handle => .unformattable

/-- What C promises of `%.15g` in the "C" locale: ASCII text, at most a sign, 15
    digits, a point and an exponent, or a name. -/
structure PrintsFloats : Prop where
  ascii : ∀ payload, ∀ byte ∈ print payload, byte.toNat ≤ 0x7f
  short : ∀ payload, (print payload).length < 128

variable {print}

theorem digitChar_ascii (n : Nat) :
    n.digitChar.val.toNat ≤ 0x7f ∧ n.digitChar.toUpper.val.toNat ≤ 0x7f := by
  match n with
  | 0 | 1 | 2 | 3 | 4 | 5 | 6 | 7 | 8 | 9 | 10 | 11 | 12 | 13 | 14 | 15 => decide
  | n + 16 =>
    rw [show (n + 16).digitChar = '*' from Nat.digitChar_eq_star.mpr (by omega)]
    decide

def digitText (base value : Nat) (upper : Bool) : List Char :=
  (Nat.toDigits base value).map fun digit => if upper then digit.toUpper else digit

theorem digitText_ascii {base : Nat} (hbase : 1 < base) (value : Nat) (upper : Bool) :
    ∀ c ∈ digitText base value upper, c.val.toNat ≤ 0x7f := by
  have hdigit : ∀ n : Nat, (if upper then n.digitChar.toUpper else n.digitChar).val.toNat ≤
      0x7f := by
    intro n
    split
    · exact (digitChar_ascii n).2
    · exact (digitChar_ascii n).1
  induction value using Nat.strongRecOn with
  | _ value ih =>
    rw [digitText, Nat.toDigits_eq_if hbase]
    by_cases hsmall : value < base
    · intro c hc
      rw [if_pos hsmall, List.map_singleton, List.mem_singleton] at hc
      exact hc ▸ hdigit value
    · intro c hc
      rw [if_neg hsmall, List.map_append, List.mem_append, List.map_singleton,
        List.mem_singleton] at hc
      rcases hc with hc | hc
      · exact ih (value / base) (Nat.div_lt_self (by omega) hbase) c hc
      · exact hc ▸ hdigit (value % base)

/-- A value below a power of the base has no more digits than its exponent. -/
theorem digits_length {base value count : Nat} {upper : Bool} (hbase : 1 < base)
    (hcount : 0 < count) (h : value < base ^ count) : (digits base value upper).length ≤ count := by
  have hencode : digits base value upper = encode (digitText base value upper) := rfl
  rw [hencode, encode_of_ascii (digitText_ascii hbase value upper), List.length_map, digitText,
    List.length_map]
  exact (Nat.length_toDigits_le_iff hbase hcount).mpr h

theorem signed_length {base count : Nat} {value : Int} {upper : Bool} (hbase : 1 < base)
    (hcount : 0 < count) (h : value.natAbs < base ^ count) :
    (signed base value upper).length ≤ count + 1 := by
  have hdigits := @digits_length base value.natAbs count upper hbase hcount h
  unfold signed
  rw [List.length_append]
  split
  · rw [List.length_singleton]
    omega
  · rw [List.length_nil]
    omega

/-- What fits into the local array is printed whole. -/
theorem printed_eq {bytes : Bytes} (h : bytes.length < 128) : printed bytes = .ok (.text bytes) :=
    if_pos h

theorem magnitude_eq (payload : Int64) :
    (if payload < 0 then 0 - payload.toUInt64 else payload.toUInt64).toNat =
    payload.toInt.natAbs := by
  have hcond := BitVec.toInt_eq_toNat_cond payload.toBitVec
  have hlt := payload.toBitVec.isLt
  have hword : payload.toUInt64.toNat = payload.toBitVec.toNat := rfl
  have hint : payload.toInt = payload.toBitVec.toInt := rfl
  have hneg : payload < 0 ↔ payload.toInt < 0 := Int64.lt_iff_toInt_lt
  rw [← hint] at hcond
  split
  · next h =>
    rw [UInt64.toNat_sub, hword]
    rw [hneg] at h
    split at hcond <;> simp <;> omega
  · next h =>
    rw [hword]
    rw [hneg] at h
    split at hcond <;> omega

theorem decoded_integral (value : DynamicValue) : (value.decoded print).integral =
    value.integral := by
  unfold DynamicValue.decoded
  split <;> rfl

/-- A signed word is printed as its sign and magnitude. -/
theorem hexadecimal_eq (payload : Int64) (upper : Bool) :
    DynamicValue.hexadecimal (.integer payload) upper = signed 16 payload.toInt upper := by
  have hneg : payload < 0 ↔ payload.toInt < 0 := Int64.lt_iff_toInt_lt
  simp only [DynamicValue.hexadecimal, DynamicValue.negative, DynamicValue.word, decide_eq_true_eq]
  rw [magnitude_eq]
  simp only [hneg]
  rfl

theorem printed_hexadecimal {value : DynamicValue} (h : value.integral = true) (upper : Bool) :
    printed (value.hexadecimal upper) = .ok (.text (value.hexadecimal upper)) := by
  cases value with
  | integer payload =>
    have hlow := payload.le_toInt
    have hhigh := payload.toInt_lt
    have hlength := @signed_length 16 16 payload.toInt upper (by omega) (by omega) (by omega)
    rw [hexadecimal_eq]
    exact printed_eq (Nat.lt_of_le_of_lt hlength (by omega))
  | unsigned payload =>
    have hhigh := payload.toNat_lt
    have hlength := @digits_length 16 payload.toNat 16 upper (by omega) (by omega) (by omega)
    exact printed_eq (Nat.lt_of_le_of_lt hlength (by omega))
  | _ => cases h

/-- Printing by the tag is formatting without a specification. -/
theorem taggedData_eq (hprint : PrintsFloats print) (σ : Store) (value : DynamicValue) :
    σ.taggedData print value = liftStop (σ.formatData (value.decoded print) ⟨none, 0, none,
    false⟩) := by
  cases value with
  | integer payload =>
    have hlow := payload.le_toInt
    have hhigh := payload.toInt_lt
    have hlength := @signed_length 10 20 payload.toInt false (by omega) (by omega) (by omega)
    exact printed_eq (Nat.lt_of_le_of_lt hlength (by omega))
  | unsigned payload =>
    have hhigh := payload.toNat_lt
    have hlength := @digits_length 10 payload.toNat 20 false (by omega) (by omega) (by omega)
    exact printed_eq (Nat.lt_of_le_of_lt hlength (by omega))
  | float payload => exact printed_eq (hprint.short payload)
  | object reference =>
    cases reference with
    | string object =>
      show (liftStop (σ.buffer object) >>= _) = liftStop (σ.buffer object >>= _)
      cases σ.buffer object <;> rfl
    | _ => rfl
  | _ => rfl

theorem word_le_iff (payload : Int64) :
    payload.toUInt64 ≤ 127 ↔ 0 ≤ payload.toInt ∧ payload.toInt ≤ 127 := by
  have hcond := BitVec.toInt_eq_toNat_cond payload.toBitVec
  have hlt := payload.toBitVec.isLt
  have hint : payload.toInt = payload.toBitVec.toInt := rfl
  rw [← hint] at hcond
  rw [UInt64.le_iff_toNat_le]
  show payload.toBitVec.toNat ≤ 127 ↔ _
  split at hcond <;> omega

theorem word_byte {payload : Int64} (h : 0 ≤ payload.toInt) :
    payload.toUInt64.toUInt8 = UInt8.ofNat payload.toInt.toNat := by
  have hcond := BitVec.toInt_eq_toNat_cond payload.toBitVec
  have hlt := payload.toBitVec.isLt
  have hint : payload.toInt = payload.toBitVec.toInt := rfl
  have hword : payload.toUInt64.toNat = payload.toBitVec.toNat := rfl
  rw [← hint] at hcond
  apply UInt8.toNat_inj.mp
  rw [UInt64.toNat_toUInt8, UInt8.toNat_ofNat', hword]
  split at hcond <;> omega

/-- Only values from 0 to 127 are characters. -/
theorem character_eq {value : DynamicValue} (h : value.integral = true) (σ : Store) :
    (do ensure (value.word ≤ 127)
          (FieldStop.stopped (.raised "ASCII character format requires a value in 0..127" σ))
        return FormatData.text [value.word.toUInt8])
      = liftStop (σ.formatData (value.decoded print) ⟨some .c, 0, none, false⟩) := by
  unfold Store.formatData
  rw [decoded_integral, ensure_bind (show (some FormatType.c = none ∧ false = false) ∨
    value.integral = true from .inr h)]
  cases value with
  | integer payload =>
    show (ensure (payload.toUInt64 ≤ 127) _ >>= _) = liftStop (ensure _ _ >>= _)
    by_cases hrange : 0 ≤ payload.toInt ∧ payload.toInt ≤ 127
    · rw [ensure_bind ((word_le_iff payload).mpr hrange), ensure_bind hrange]
      show Except.ok (FormatData.text [payload.toUInt64.toUInt8]) = _
      rw [word_byte hrange.1]
      rfl
    · rw [ensure_bind_error (fun hle => hrange ((word_le_iff payload).mp hle)),
        ensure_bind_error hrange]
      rfl
  | unsigned payload =>
    show (ensure (payload ≤ 127) _ >>= _) = liftStop (ensure (payload.toNat ≤ 127) _ >>= _)
    have hiff : payload ≤ 127 ↔ payload.toNat ≤ 127 := UInt64.le_iff_toNat_le
    by_cases hrange : payload.toNat ≤ 127
    · rw [ensure_bind (hiff.mpr hrange), ensure_bind hrange]
      show Except.ok (FormatData.text [payload.toUInt8]) = Except.ok
        (.text [UInt8.ofNat payload.toNat])
      rfl
    · rw [ensure_bind_error (fun hle => hrange (hiff.mp hle)), ensure_bind_error hrange]
      rfl
  | _ => cases h

/-- The text of a field is that of the decoded value. -/
theorem fieldData_eq (hprint : PrintsFloats print) (σ : Store) (value : DynamicValue)
    (spec : FormatSpec) :
    σ.fieldData print value spec.type spec.zeroPad =
    liftStop (σ.formatData (value.decoded print) spec) := by
  by_cases hsuits : (spec.type = none ∧ spec.zeroPad = false) ∨ value.integral = true
  · have hplain : σ.formatData (value.decoded print) spec
        = σ.formatData (value.decoded print) ⟨spec.type, 0, none, false⟩ := by
      unfold Store.formatData
      rw [decoded_integral, ensure_bind hsuits, ensure_bind]
      rcases hsuits with hnone | hintegral
      · exact .inl ⟨hnone.1, rfl⟩
      · exact .inr hintegral
    rw [hplain, Store.fieldData, ensure_bind hsuits]
    cases htype : spec.type with
    | none =>
      rw [if_neg (by simp), if_neg (by simp), if_neg (by simp)]
      exact taggedData_eq hprint σ value
    | some type =>
      have hintegral : value.integral = true := by
        rcases hsuits with ⟨hnone, _⟩ | hintegral
        · rw [htype] at hnone
          cases hnone
        · exact hintegral
      cases type with
      | d =>
        rw [if_neg (by simp), if_neg (by simp), if_neg (by simp), taggedData_eq hprint]
        cases value with
        | integer payload => rfl
        | unsigned payload => rfl
        | _ => cases hintegral
      | c =>
        rw [if_pos rfl]
        exact character_eq hintegral σ
      | x =>
        rw [if_neg (by simp), if_pos rfl, printed_hexadecimal hintegral]
        cases value with
        | integer payload => rw [hexadecimal_eq]; rfl
        | unsigned payload => rfl
        | _ => cases hintegral
      | X =>
        rw [if_neg (by simp), if_neg (by simp), if_pos rfl, printed_hexadecimal hintegral]
        cases value with
        | integer payload => rw [hexadecimal_eq]; rfl
        | unsigned payload => rfl
        | _ => cases hintegral
  · unfold Store.fieldData Store.formatData
    rw [decoded_integral, ensure_bind_error hsuits, ensure_bind_error hsuits]
    rfl

/-- Fill is appended in blocks of the local array. -/
theorem fillLoop_eq (σ : Store) (receiver : Nat) (fill : UInt8) (count : Nat) :
    σ.fillLoop receiver fill count = σ.appendPieces receiver (fillPieces fill count) := by
  induction count using Nat.strongRecOn generalizing σ with
  | _ count ih =>
    rw [Store.fillLoop]
    split
    · next hzero =>
      subst hzero
      rfl
    · next hpos =>
      dsimp only
      split
      · next hmany =>
        have hcount : count / 128 = (count - 128) / 128 + 1 := by omega
        have hrest : count % 128 = (count - 128) % 128 := by omega
        have hpieces : fillPieces fill count = List.replicate 128 fill :: fillPieces fill
            (count - 128) := by
          rw [fillPieces, fillPieces, hcount, hrest, List.replicate_succ, List.cons_append]
        rw [hpieces, Store.appendPieces]
        congr 1
        funext σ
        exact ih (count - 128) (by omega) σ
      · next hfew =>
        have hpieces : fillPieces fill count = [List.replicate count fill] := by
          unfold fillPieces
          by_cases hfull : count = 128
          · subst hfull
            rfl
          · rw [Nat.div_eq_of_lt (by omega), Nat.mod_eq_of_lt (by omega), if_neg hpos]
            rfl
        rw [hpieces, Store.appendPieces, Nat.sub_self]
        congr 1
        funext σ
        rw [Store.fillLoop]
        rfl

theorem liftStop_bind {α β : Type} (x : Except Stop α) (f : α → Except Stop β) :
    liftStop (x >>= f) = liftStop x >>= fun a => liftStop (f a) := by
  cases x with
  | ok a => rfl
  | error stop => rfl

theorem appendPieces_append (σ : Store) (receiver : Nat) (pieces more : List Bytes) :
    σ.appendPieces receiver (pieces ++ more)
      = σ.appendPieces receiver pieces >>= fun σ => σ.appendPieces receiver more := by
  induction pieces generalizing σ with
  | nil => rfl
  | cons piece rest ih =>
    rw [List.cons_append, Store.appendPieces, Store.appendPieces]
    cases σ.appendBytes receiver piece with
    | ok σ => exact ih σ
    | error stop => rfl

theorem appendPieces_singleton (σ : Store) (receiver : Nat) (piece : Bytes) :
    σ.appendPieces receiver [piece] = σ.appendBytes receiver piece := by
  rw [Store.appendPieces]
  cases σ.appendBytes receiver piece with
  | ok σ => rfl
  | error stop => rfl

theorem formatPieces_decoded (value : DynamicValue) (spec : FormatSpec) (data : FormatData)
    (bytes : Bytes) :
    formatPieces (value.decoded print) spec data bytes =
      let padding := spec.width - data.fieldLength bytes
      let alignment := spec.alignment.getD (if value.integral || value.isFloat then .right
        else .left)
      let before := fillBefore alignment padding
      let sign := spec.zeroPad && bytes.head? == some 0x2d
      let fill : UInt8 := if spec.zeroPad then 0x30 else 0x20
      ⟨(if sign then [[0x2d]] else []) ++ fillPieces fill before, sign,
          fillPieces fill (padding - before)⟩ := by
  unfold formatPieces
  dsimp only
  -- both sides align the value alike
  generalize halignment :
    spec.alignment.getD (if (value.integral || value.isFloat) = true then .right else .left) =
      alignment
  generalize hdecoded : spec.alignment.getD _ = decoded
  have hsame : decoded = alignment := by
    rw [← hdecoded, ← halignment]
    cases value with
    | object reference => cases reference <;> rfl
    | _ => rfl
  rw [hsame]
  cases alignment <;> rfl

/-- The native format is the format of the decoded value. -/
theorem formatSpecAppend_eq (hprint : PrintsFloats print) (σ : Store) (receiver : Nat)
    (value : DynamicValue) (spec : FormatSpec) :
    σ.formatSpecAppend print receiver value spec
      = liftStop (σ.formatAppend receiver (value.decoded print) spec) := by
  unfold Store.formatSpecAppend Store.formatAppend
  rw [fieldData_eq hprint, liftStop_bind]
  congr 1
  funext data
  rw [liftStop_bind]
  congr 1
  funext bytes
  have hpadding : (if data.fieldLength bytes < spec.width then spec.width - data.fieldLength bytes
      else 0) = spec.width - data.fieldLength bytes := by
    split <;> omega
  rw [formatPieces_decoded]
  dsimp only
  rw [hpadding]
  generalize spec.width - data.fieldLength bytes = padding
  generalize fillBefore _ padding = before
  generalize (spec.zeroPad && bytes.head? == some 0x2d) = sign
  generalize (if spec.zeroPad = true then (0x30 : UInt8) else 0x20) = fill
  -- the sign and the fill before the text are appended one after the other
  have hsign : (if sign = true then σ.appendBytes receiver [0x2d] else .ok σ)
      = σ.appendPieces receiver (if sign = true then [[0x2d]] else []) := by
    split
    · exact (appendPieces_singleton σ receiver [0x2d]).symm
    · rfl
  rw [hsign, appendPieces_append]
  simp only [fillLoop_eq, liftStop_bind, bind_assoc]

end Cwhip.Runtime.StringStore
