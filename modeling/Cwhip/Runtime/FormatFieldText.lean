/-
  Cwhip.Runtime.FormatFieldText

  What `cwhip_string_format_spec_append` appends, in terms of characters: the
  text of the value, padded to the width of the specification.

  Appends are followed through the whole operation by `Appends`: they put their
  bytes behind the String, or raise once it would get too long, and leave all
  other Strings alone.
-/

import Cwhip.Runtime.FormatField

namespace Cwhip.Runtime.StringStore

open Cwhip.Lib Cwhip.Lib.Utf8
open List (append_nil head?_cons length_append length_replicate)

/-! ## Specification -/

structure FormatSpec.Parsed (spec : FormatSpec) : Prop where
  width : spec.width ≤ 1000000
  alignment : spec.zeroPad = true → spec.alignment = none
  type : spec.zeroPad = true → spec.type ≠ some .c

/-- A number in hexadecimal, with a sign. -/
def hexadecimalText (n : Int) (upper : Bool) : List Char :=
  (if n < 0 then ['-'] else []) ++ digitText 16 n.natAbs upper

/-- A number, with each of the letters. -/
def numberText (n : Int) : Option FormatType → Option (List Char)
  | none | some .d => some (toString n).toList
  | some .x => some (hexadecimalText n false)
  | some .X => some (hexadecimalText n true)
  | some .c => if 0 ≤ n ∧ n ≤ 127 then some [Char.ofNat n.toNat] else none

/-- The text of a value, if it can be formatted with the letter. -/
inductive FieldText (print : UInt64 → Bytes) (σ : Store) :
    DynamicValue → Option FormatType → List Char → Prop
  | integer {payload type text} (h : numberText payload.toInt type = some text) :
      FieldText print σ (.integer payload) type text
  | unsigned {payload type text} (h : numberText payload.toNat type = some text) :
      FieldText print σ (.unsigned payload) type text
  | float {payload text} (h : encode text = print payload) :
      FieldText print σ (.float payload) none text
  | boolean (payload : Bool) : FieldText print σ (.boolean payload) none (toString payload).toList
  | type {name text} (h : encode text = name) : FieldText print σ (.type name) none text
  | null : FieldText print σ (.object .null) none "(null)".toList
  | contents {object v text} (h : σ[object]? = some v) (htext : encode text = v.value) :
      FieldText print σ (.object (.string object)) none text
  | other : FieldText print σ (.object .other) none "<object>".toList
  | map : FieldText print σ .map none "<object>".toList
  | array : FieldText print σ .array none "<object>".toList
  | string : FieldText print σ .string none "<object>".toList

/-- Fill a text up to the width; zeros go between the sign and the digits. -/
def padField (spec : FormatSpec) (number : Bool) (text : List Char) : List Char :=
  let padding := spec.width - text.length
  if spec.zeroPad then
    match text with
    | '-' :: digits => '-' :: (List.replicate padding '0' ++ digits)
    | _ => List.replicate padding '0' ++ text
  else
    match spec.alignment.getD (if number then .right else .left) with
    | .left => text ++ List.replicate padding ' '
    | .center =>
      List.replicate (padding / 2) ' ' ++ text ++ List.replicate (padding - padding / 2) ' '
    | .right => List.replicate padding ' ' ++ text

theorem padField_length (spec : FormatSpec) (number : Bool) (text : List Char) :
    (padField spec number text).length = max spec.width text.length := by
  unfold padField
  dsimp only
  split
  · split
    · rw [List.length_cons, length_append, length_replicate, List.length_cons]
      omega
    · rw [length_append, length_replicate]
      omega
  · split
    · rw [length_append, length_replicate]
      omega
    · rw [length_append, length_append, length_replicate, length_replicate]
      omega
    · rw [length_append, length_replicate]
      omega

/-! ## Appending -/

/-- The String has grown, and no other one has changed. -/
def Grew (σ σ' : Store) (receiver : Nat) (v : GrowVec UInt8) (bytes : Bytes) : Prop :=
  (∃ v', σ'[receiver]? = some v' ∧ v'.value = v.value ++ bytes) ∧
    ∀ other, other ≠ receiver → σ'[other]? = σ[other]?

/-- The operation appends the bytes if they fit; otherwise it raises, and what
    was there stays. -/
def Appends (σ : Store) (receiver : Nat) (v : GrowVec UInt8) (bytes : Bytes)
    (result : Except Stop Store) : Prop :=
  (v.length + bytes.length ≤ int64Max → ∃ σ', result = .ok σ' ∧ Grew σ σ' receiver v bytes) ∧
    (int64Max < v.length + bytes.length →
      ∃ message σ' some, result = .error (.raised message σ') ∧ Grew σ σ' receiver v some)

theorem Grew.refl {σ : Store} {receiver : Nat} {v : GrowVec UInt8} (h : σ[receiver]? = some v) :
    Grew σ σ receiver v [] :=
  ⟨⟨v, h, (append_nil v.value).symm⟩, fun _ _ => rfl⟩

theorem appendBytes_appends {σ : Store} {receiver : Nat} {v : GrowVec UInt8}
    (h : σ[receiver]? = some v) {bytes : Bytes} (hvalid : validUtf8 bytes = true) :
    Appends σ receiver v bytes (σ.appendBytes receiver bytes) := by
  have hbuffer : σ.buffer receiver = .ok v := by rw [Store.buffer, h]; rfl
  unfold Store.appendBytes
  rw [hbuffer]
  show Appends σ receiver v bytes (ensure _ _ >>= _)
  constructor
  · intro hfits
    rw [ensure_bind ⟨by omega, by omega, hvalid⟩]
    refine ⟨_, rfl, ?_⟩
    split
    · next hnil =>
      subst hnil
      exact Grew.refl h
    · have hin : receiver < σ.length := (List.getElem?_eq_some_iff.mp h).1
      refine ⟨⟨_, List.getElem?_set_self hin, ?_⟩, ?_⟩
      · rw [GrowVec.value_splice, ← GrowVec.value_length, List.take_length, List.drop_length,
          append_nil]
      · intro other hother
        exact List.getElem?_set_ne (Ne.symm hother)
  · intro hlong
    rw [ensure_bind_error (by omega)]
    exact ⟨_, σ, [], rfl, Grew.refl h⟩

theorem Appends.bind {σ : Store} {receiver : Nat} {v : GrowVec UInt8} {bytes more : Bytes}
    {x : Except Stop Store} {f : Store → Except Stop Store} (hx : Appends σ receiver v bytes x)
    (hf : ∀ σ' v', σ'[receiver]? = some v' → v'.length ≤ int64Max → Grew σ σ' receiver v bytes →
      Appends σ' receiver v' more (f σ')) :
    Appends σ receiver v (bytes ++ more) (x >>= f) := by
  have hlength : (bytes ++ more).length = bytes.length + more.length := length_append
  rcases Nat.lt_or_ge int64Max (v.length + bytes.length) with hlong | hfits
  · -- already the first bytes do not fit
    obtain ⟨message, σ', some, rfl, hgrew⟩ := hx.2 hlong
    exact ⟨fun hall => by omega, fun _ => ⟨message, σ', some, rfl, hgrew⟩⟩
  · obtain ⟨σ', rfl, hgrew⟩ := hx.1 hfits
    obtain ⟨⟨v', hv', hvalue⟩, hframe⟩ := hgrew
    have hsize : v'.length = v.length + bytes.length := by
      rw [← GrowVec.value_length, hvalue, length_append, GrowVec.value_length]
    have hnext := hf σ' v' hv' (by omega) ⟨⟨v', hv', hvalue⟩, hframe⟩
    have hjoin : ∀ {σ'' : Store} {tail : Bytes}, Grew σ' σ'' receiver v' tail →
        Grew σ σ'' receiver v (bytes ++ tail) := by
      rintro σ'' tail ⟨⟨v'', hv'', hvalue''⟩, hframe''⟩
      refine ⟨⟨v'', hv'', ?_⟩, fun other hother => ?_⟩
      · rw [hvalue'', hvalue, List.append_assoc]
      · rw [hframe'' other hother, hframe other hother]
    constructor
    · intro hall
      obtain ⟨σ'', hresult, hgrew''⟩ := hnext.1 (by omega)
      exact ⟨σ'', hresult, hjoin hgrew''⟩
    · intro hall
      obtain ⟨message, σ'', some, hresult, hgrew''⟩ := hnext.2 (by omega)
      exact ⟨message, σ'', _, hresult, hjoin hgrew''⟩

theorem appendPieces_appends {σ : Store} {receiver : Nat} {v : GrowVec UInt8}
    (h : σ[receiver]? = some v) (hsize : v.length ≤ int64Max) {pieces : List Bytes}
    (hvalid : ∀ piece ∈ pieces, validUtf8 piece = true) :
    Appends σ receiver v pieces.flatten (σ.appendPieces receiver pieces) := by
  induction pieces using List.reverseRecOn with
  | nil => exact ⟨fun _ => ⟨σ, rfl, Grew.refl h⟩, fun hlong => absurd hlong (by simpa using hsize)⟩
  | append_singleton pieces piece ih =>
    rw [appendPieces_append, List.flatten_append, List.flatten_singleton]
    apply (ih fun other hother => hvalid other (List.mem_append_left _ hother)).bind
    intro σ' v' hv' _ _
    rw [appendPieces_singleton]
    exact appendBytes_appends hv'
      (hvalid piece (List.mem_append_right _ (List.mem_singleton_self piece)))

/-! ## The data -/

/-- A String that is borrowed from is another one. -/
def FormatData.Elsewhere (receiver : Nat) : FormatData → Prop
  | .borrowed object _ _ => object ≠ receiver
  | _ => True

theorem readData_grew {σ σ' : Store} {receiver : Nat} {v : GrowVec UInt8} {bytes : Bytes}
    (h : Grew σ σ' receiver v bytes) {data : FormatData} (hdata : data.Elsewhere receiver) :
    σ'.readData data = σ.readData data := by
  cases data with
  | text bytes => rfl
  | constant bytes => rfl
  | borrowed object block length => rw [Store.readData, Store.readData, h.2 object hdata]

theorem flatten_fillPieces (fill : UInt8) (count : Nat) :
    (fillPieces fill count).flatten = List.replicate count fill := by
  unfold fillPieces
  have hlast : (if count % 128 = 0 then [] else [List.replicate (count % 128) fill]).flatten
      = List.replicate (count % 128) fill := by
    split
    · next hzero =>
      rw [hzero]
      rfl
    · rw [List.flatten_singleton]
  rw [List.flatten_append, hlast, List.flatten_replicate_replicate, List.replicate_append_replicate]
  congr 1
  omega

theorem fillPieces_valid {fill : UInt8} (h : fill.toNat ≤ 0x7f) (count : Nat) :
    ∀ piece ∈ fillPieces fill count, validUtf8 piece = true := by
  intro piece hpiece
  rw [validUtf8_iff]
  apply wellFormed_of_ascii
  intro byte hbyte
  have hmem : byte ∈ (fillPieces fill count).flatten := List.mem_flatten.mpr ⟨piece, hpiece, hbyte⟩
  rw [flatten_fillPieces] at hmem
  rw [List.eq_of_mem_replicate hmem]
  exact h

def DynamicValue.number (value : DynamicValue) : Bool := value.integral || value.isFloat

theorem encode_zeros (count : Nat) : encode (List.replicate count '0') =
    List.replicate count 0x30 := by
  rw [encode_of_ascii, List.map_replicate]
  · rfl
  · intro c hc
    rw [List.eq_of_mem_replicate hc]
    decide

theorem encode_spaces (count : Nat) : encode (List.replicate count ' ') =
    List.replicate count 0x20 := by
  rw [encode_of_ascii, List.map_replicate]
  · rfl
  · intro c hc
    rw [List.eq_of_mem_replicate hc]
    decide

theorem head_encode (text : List Char) :
    ((encode text).head? == some 0x2d) = (text.head? == some '-') := by
  cases text with
  | nil => rfl
  | cons c rest =>
    rw [encode_cons, head?_cons]
    by_cases hminus : c = '-'
    · subst hminus
      rfl
    · obtain ⟨lead, tail, hchar, _⟩ := encodeChar_shape c
      have hlead : lead ≠ 0x2d := by
        intro heq
        have hsame : String.utf8EncodeChar c ++ [] = String.utf8EncodeChar '-' ++ tail := by
          rw [hchar, heq, append_nil]
          rfl
        exact hminus (encodeChar_append_inj hsame)
      rw [hchar, List.cons_append, head?_cons]
      simp [hlead, hminus]

theorem formatPieces_text {print : UInt64 → Bytes} (value : DynamicValue) {spec : FormatSpec}
    (hspec : spec.Parsed) (hzero : spec.zeroPad = true → value.integral = true)
    {data : FormatData} {text : List Char}
    (hlength : data.fieldLength (encode text) = text.length) :
    let pieces := formatPieces (value.decoded print) spec data (encode text)
    pieces.before.flatten ++ (if pieces.sign then (encode text).tail else encode text) ++
        pieces.after.flatten
      = encode (padField spec value.number text) := by
  rw [formatPieces_decoded, hlength]
  unfold padField
  dsimp only
  rw [List.flatten_append, flatten_fillPieces, flatten_fillPieces, head_encode]
  cases hpad : spec.zeroPad with
  | true =>
    have hright : spec.alignment.getD (if (value.integral || value.isFloat) = true then .right
        else .left) = .right := by
      rw [hspec.alignment hpad, hzero hpad]
      rfl
    rw [hright]
    simp only [fillBefore, if_true, Bool.true_and, reduceCtorEq, if_false, Nat.sub_self,
      List.replicate_zero, append_nil]
    cases text with
    | nil => simp [encode_zeros]
    | cons c rest =>
      rw [head?_cons]
      by_cases hminus : c = '-'
      · -- the zeros go behind the sign
        subst hminus
        simp only [beq_self_eq_true, if_true, encode_cons, encode_append, encode_zeros]
        rfl
      · have hhead : (some c == some '-') = false := by simpa using hminus
        rw [hhead, if_neg Bool.false_ne_true, if_neg Bool.false_ne_true]
        split
        · next heq => exact absurd (List.cons.inj heq).1 hminus
        · rw [encode_append, encode_zeros]
          rfl
  | false =>
    show _ = encode (match spec.alignment.getD (if (value.integral || value.isFloat) =
      true then .right
      else .left) with
      | .left => _
      | .center => _
      | .right => _)
    cases spec.alignment.getD (if (value.integral || value.isFloat) = true then .right
      else .left) with
    | left | center | right => simp [fillBefore, encode_spaces]

/-! ## The text -/

theorem signed_encode (base : Nat) (n : Int) (upper : Bool) :
    signed base n upper = encode ((if n < 0 then ['-'] else []) ++
    digitText base n.natAbs upper) := by
  unfold signed
  rw [encode_append]
  split
  · rfl
  · rfl

theorem toString_digits (n : Int) :
    (toString n).toList = (if n < 0 then ['-'] else []) ++ digitText 10 n.natAbs false := by
  rw [Int.toString_eq_repr, Int.repr_eq_if, digitText, List.map_id'']
  · by_cases h : 0 ≤ n
    · have hpos : n.toNat = n.natAbs := by omega
      rw [if_pos h, if_neg (by omega), Nat.toList_repr, hpos, List.nil_append]
    · have hneg : (-n).toNat = n.natAbs := by omega
      rw [if_neg h, if_pos (by omega), String.toList_append, Nat.toList_repr, hneg]
      rfl
  · intro c
    rfl

theorem ofNat_val {n : Nat} (h : n ≤ 127) : (Char.ofNat n).val.toNat = n := by
  have hvalid : n.isValidChar := .inl (by omega)
  unfold Char.ofNat
  rw [dif_pos hvalid]
  rfl

theorem numberText_ascii {n : Int} {type : Option FormatType} {text : List Char}
    (h : numberText n type = some text) : ∀ c ∈ text, c.val.toNat ≤ 0x7f := by
  have hsigned : ∀ (base : Nat) (upper : Bool), 1 < base →
      ∀ c ∈ (if n < 0 then ['-'] else []) ++ digitText base n.natAbs upper, c.val.toNat ≤ 0x7f := by
    intro base upper hbase c hc
    rcases List.mem_append.mp hc with hsign | hdigit
    · split at hsign
      · rw [List.mem_singleton.mp hsign]
        decide
      · cases hsign
    · exact digitText_ascii hbase _ _ c hdigit
  unfold numberText at h
  split at h
  · rw [← Option.some.inj h, toString_digits]
    exact hsigned 10 false (by omega)
  · rw [← Option.some.inj h, toString_digits]
    exact hsigned 10 false (by omega)
  · rw [← Option.some.inj h]
    exact hsigned 16 false (by omega)
  · rw [← Option.some.inj h]
    exact hsigned 16 true (by omega)
  · split at h
    · next hrange =>
      rw [← Option.some.inj h]
      intro c hc
      rw [List.mem_singleton.mp hc, ofNat_val (by omega)]
      omega
    · cases h

theorem signed_text (n : Int) :
    signed 10 n false = encode (toString n).toList ∧
      ∀ upper, signed 16 n upper = encode (hexadecimalText n upper) := by
  refine ⟨?_, fun upper => signed_encode 16 n upper⟩
  rw [signed_encode, toString_digits]

theorem digits_text (m : Nat) :
    digits 10 m false = encode (toString (m : Int)).toList ∧
      ∀ upper, digits 16 m upper = encode (hexadecimalText m upper) := by
  have hdigits : ∀ (base : Nat) (upper : Bool), digits base m upper = signed base m upper := by
    intro base upper
    rw [signed, if_neg (by omega)]
    rfl
  refine ⟨?_, fun upper => ?_⟩
  · rw [hdigits, (signed_text m).1]
  · rw [hdigits, (signed_text m).2]

theorem encode_character {m : Nat} (h : m ≤ 127) : encode [Char.ofNat m] = [UInt8.ofNat m] := by
  rw [encode_of_ascii]
  · rw [List.map_singleton, ofNat_val h]
  · intro c hc
    rw [List.mem_singleton.mp hc, ofNat_val h]
    exact h

/-- What a computation of the data has to do with the text of the value. -/
def Shows (σ : Store) (data : Except Stop FormatData) (text : Option (List Char)) : Prop :=
  match text with
  | some text => data = .ok (.text (encode text))
  | none => ∃ message, data = .error (.raised message σ)

theorem formatData_integer (σ : Store) (n : Int) (spec : FormatSpec) :
    Shows σ (σ.formatData (.integer n) spec) (numberText n spec.type) := by
  unfold Store.formatData
  rw [ensure_bind (.inr rfl)]
  cases spec.type with
  | none => exact congrArg (fun bytes => Except.ok (FormatData.text bytes)) (signed_text n).1
  | some type =>
    cases type with
    | d => exact congrArg (fun bytes => Except.ok (FormatData.text bytes)) (signed_text n).1
    | x => exact congrArg (fun bytes => Except.ok (FormatData.text bytes)) ((signed_text n).2 false)
    | X => exact congrArg (fun bytes => Except.ok (FormatData.text bytes)) ((signed_text n).2 true)
    | c =>
      rw [numberText]
      by_cases hrange : 0 ≤ n ∧ n ≤ 127
      · rw [if_pos hrange, Shows, encode_character (by omega)]
        exact ensure_bind hrange _ _
      · rw [if_neg hrange]
        exact ⟨_, ensure_bind_error hrange _ _⟩

theorem formatData_unsigned (σ : Store) (m : Nat) (spec : FormatSpec) :
    Shows σ (σ.formatData (.unsigned m) spec) (numberText m spec.type) := by
  unfold Store.formatData
  rw [ensure_bind (.inr rfl)]
  cases spec.type with
  | none => exact congrArg (fun bytes => Except.ok (FormatData.text bytes)) (digits_text m).1
  | some type =>
    cases type with
    | d => exact congrArg (fun bytes => Except.ok (FormatData.text bytes)) (digits_text m).1
    | x => exact congrArg (fun bytes => Except.ok (FormatData.text bytes)) ((digits_text m).2 false)
    | X => exact congrArg (fun bytes => Except.ok (FormatData.text bytes)) ((digits_text m).2 true)
    | c =>
      rw [numberText]
      by_cases hrange : m ≤ 127
      · rw [if_pos (by omega), Shows, Int.toNat_natCast, encode_character hrange]
        exact ensure_bind hrange _ _
      · rw [if_neg (by omega)]
        exact ⟨_, ensure_bind_error hrange _ _⟩

/-! ## The field -/

/-- All Strings hold text, and are no longer than the runtime lets them get. -/
structure Store.WellFormed (σ : Store) : Prop where
  text : ∀ w ∈ σ, validUtf8 w.value = true
  size : ∀ w ∈ σ, w.length ≤ int64Max

/-- What the generated code passes: a live String other than the one it is
    making, and the name of a class. -/
def DynamicValue.Presented (σ : Store) (receiver : Nat) : DynamicValue → Prop
  | .object (.string index) => index ≠ receiver ∧ index < σ.length
  | .type name => validUtf8 name = true
  | _ => True

/-- The value can be formatted so. -/
def Suits (print : UInt64 → Bytes) (σ : Store) (value : DynamicValue) (spec : FormatSpec) : Prop :=
  (∃ text, FieldText print σ value spec.type text) ∧ (spec.zeroPad = true → value.integral = true)

theorem length_encode_ascii {text : List Char} (h : ∀ byte ∈ encode text, byte.toNat ≤ 0x7f) :
    (encode text).length = text.length := by
  have hall : (encode text).filter (fun byte => !isContinuation byte) = encode text := by
    rw [List.filter_eq_self]
    intro byte hbyte
    have hle := h byte hbyte
    rw [Bool.not_eq_true', ← Bool.not_eq_true, isContinuation_iff]
    omega
  rw [← length_filter_encode text, hall]

theorem formatData_text {print : UInt64 → Bytes} (hprint : PrintsFloats print) {σ : Store}
    {receiver : Nat} {value : DynamicValue} (hvalue : value.Presented σ receiver)
    {spec : FormatSpec}
    {text : List Char} (htext : FieldText print σ value spec.type text)
    (hzero : spec.zeroPad = true → value.integral = true) :
    ∃ data, σ.formatData (value.decoded print) spec = .ok data ∧
      σ.readData data = .ok (encode text) ∧ data.fieldLength (encode text) = text.length ∧
      data.Elsewhere receiver := by
  have hnumber : ∀ {n : Int}, numberText n spec.type = some text →
      (FormatData.text (encode text)).fieldLength (encode text) = text.length := by
    intro n hn
    show (encode text).length = text.length
    rw [encode_of_ascii (numberText_ascii hn), List.length_map]
  -- without a letter and zeros, only the value decides
  have hplain : spec.type = none → value.integral = false → ∀ {data : FormatData},
      σ.formatData (value.decoded print) ⟨none, 0, none, false⟩ = .ok data →
      σ.formatData (value.decoded print) spec = .ok data := by
    intro htype hintegral data hdata
    have hpad : spec.zeroPad = false := by
      cases hpad : spec.zeroPad with
      | false => rfl
      | true => exact absurd (hzero hpad) (by rw [hintegral]; exact Bool.false_ne_true)
    rw [← hdata]
    unfold Store.formatData
    rw [ensure_bind (.inl ⟨htype, hpad⟩), htype, ensure_bind (.inl ⟨rfl, rfl⟩)]
  generalize htype : spec.type = type at htext
  cases htext with
  | @integer payload _ _ h =>
    have hdata := formatData_integer σ payload.toInt spec
    rw [← htype] at h
    rw [h] at hdata
    exact ⟨_, hdata, rfl, hnumber h, trivial⟩
  | @unsigned payload _ _ h =>
    have hdata := formatData_unsigned σ payload.toNat spec
    rw [← htype] at h
    rw [h] at hdata
    exact ⟨_, hdata, rfl, hnumber h, trivial⟩
  | @float payload _ h =>
    refine ⟨.text (print payload), hplain htype rfl rfl, congrArg Except.ok h.symm, ?_, trivial⟩
    apply length_encode_ascii
    rw [h]
    exact hprint.ascii payload
  | boolean payload =>
    refine ⟨.constant (encode (toString payload).toList), hplain htype rfl ?_, rfl,
      length_filter_encode _, trivial⟩
    cases payload <;> rfl
  | @type name _ h =>
    subst h
    exact ⟨.constant (encode text), hplain htype rfl rfl, rfl, length_filter_encode _, trivial⟩
  | @contents object v _ h htext =>
    have hbuffer : σ.buffer object = .ok v := by rw [Store.buffer, h]; rfl
    have hread : v.readAt v.block 0 v.length = .ok (encode text) := by
      have hfits := v.fits
      rw [GrowVec.readAt, if_pos rfl, GrowVec.readCells, if_pos (by rw [GrowVec.capacity]; omega),
        List.drop_zero, htext]
      rfl
    refine ⟨.borrowed object v.block v.length, hplain htype rfl ?_, ?_, length_filter_encode _,
      hvalue.1⟩
    · show (σ.buffer object >>= _) = _
      rw [hbuffer]
      rfl
    · rw [Store.readData, h]
      dsimp only
      rw [hread]
  | null | other | map | array | string =>
    exact ⟨_, hplain htype rfl rfl, rfl, length_filter_encode _, trivial⟩

theorem exists_fieldText {print : UInt64 → Bytes} (hprint : PrintsFloats print) {σ : Store}
    (hσ : σ.WellFormed) {receiver : Nat} {value : DynamicValue}
    (hvalue : value.Presented σ receiver)
    (hnumber : value.integral = false) (hbuffer : value ≠ .buffer) (hhandle : value ≠ .handle) :
    ∃ text, FieldText print σ value none text := by
  cases value with
  | integer payload | unsigned payload => cases hnumber
  | float payload =>
    obtain ⟨text, htext⟩ := wellFormed_of_ascii (hprint.ascii payload)
    exact ⟨text, .float htext⟩
  | boolean payload => exact ⟨_, .boolean payload⟩
  | type name =>
    obtain ⟨text, htext⟩ := (validUtf8_iff name).mp hvalue
    exact ⟨text, .type htext⟩
  | object reference =>
    cases reference with
    | null => exact ⟨_, .null⟩
    | string index =>
      have hin := List.getElem?_eq_getElem hvalue.2
      obtain ⟨text, htext⟩ := (validUtf8_iff _).mp (hσ.text _ (List.getElem_mem hvalue.2))
      exact ⟨text, .contents hin htext⟩
    | other => exact ⟨_, .other⟩
  | map => exact ⟨_, .map⟩
  | array => exact ⟨_, .array⟩
  | string => exact ⟨_, .string⟩
  | buffer => exact absurd rfl hbuffer
  | handle => exact absurd rfl hhandle

theorem formatData_refuses {print : UInt64 → Bytes} (hprint : PrintsFloats print) {σ : Store}
    (hσ : σ.WellFormed) {receiver : Nat} {value : DynamicValue}
    (hvalue : value.Presented σ receiver)
    {spec : FormatSpec} (h : ¬ Suits print σ value spec) :
    ∃ message, σ.formatData (value.decoded print) spec = .error (.raised message σ) := by
  by_cases hsuits : (spec.type = none ∧ spec.zeroPad = false) ∨ value.integral = true
  · have hnone : ∀ text, value.integral = true → ¬ FieldText print σ value spec.type text :=
      fun text hintegral htext => h ⟨⟨text, htext⟩, fun _ => hintegral⟩
    by_cases hintegral : value.integral = true
    · cases value with
      | integer payload =>
        have hdata := formatData_integer σ payload.toInt spec
        cases htext : numberText payload.toInt spec.type with
        | some text => exact absurd (.integer htext) (hnone text rfl)
        | none =>
          rw [htext] at hdata
          exact hdata
      | unsigned payload =>
        have hdata := formatData_unsigned σ payload.toNat spec
        cases htext : numberText payload.toNat spec.type with
        | some text => exact absurd (.unsigned htext) (hnone text rfl)
        | none =>
          rw [htext] at hdata
          exact hdata
      | _ => cases hintegral
    · obtain ⟨htype, hpad⟩ := hsuits.resolve_right hintegral
      have hrefused : value = .buffer ∨ value = .handle := by
        by_contra hother
        rw [not_or] at hother
        obtain ⟨text, htext⟩ := exists_fieldText hprint hσ hvalue (Bool.not_eq_true _ ▸ hintegral)
          hother.1 hother.2
        rw [← htype] at htext
        exact h ⟨⟨text, htext⟩, fun hzero => absurd hzero (by rw [hpad]; exact Bool.false_ne_true)⟩
      unfold Store.formatData
      rw [decoded_integral, ensure_bind hsuits, htype]
      rcases hrefused with rfl | rfl
      · exact ⟨_, rfl⟩
      · exact ⟨_, rfl⟩
  · unfold Store.formatData
    rw [decoded_integral, ensure_bind_error hsuits]
    exact ⟨_, rfl⟩

theorem formatPieces_valid {print : UInt64 → Bytes} (value : DynamicValue) (spec : FormatSpec)
    (data : FormatData) (text : List Char) :
    let pieces := formatPieces (value.decoded print) spec data (encode text)
    (∀ piece ∈ pieces.before, validUtf8 piece = true) ∧
      validUtf8 (if pieces.sign then (encode text).tail else encode text) = true ∧
      ∀ piece ∈ pieces.after, validUtf8 piece = true := by
  rw [formatPieces_decoded]
  have hfill : (if spec.zeroPad = true then (0x30 : UInt8) else 0x20).toNat ≤ 0x7f := by
    split
    · decide
    · decide
  refine ⟨?_, ?_, fillPieces_valid hfill _⟩
  · intro piece hpiece
    rcases List.mem_append.mp hpiece with hsign | hfilled
    · split at hsign
      · rw [List.mem_singleton.mp hsign]
        rfl
      · cases hsign
    · exact fillPieces_valid hfill _ piece hfilled
  · dsimp only
    split
    · next hsign =>
      -- what follows a sign is a text of its own
      rw [Bool.and_eq_true, head_encode, beq_iff_eq] at hsign
      obtain ⟨rest, rfl⟩ : ∃ rest, text = '-' :: rest := by
        cases text with
        | nil => cases hsign.2
        | cons c rest => exact ⟨rest, by rw [Option.some.inj hsign.2]⟩
      exact validUtf8_encode rest
    · exact validUtf8_encode text

theorem formatAppend_appends {print : UInt64 → Bytes} {σ : Store} {receiver : Nat}
    {v : GrowVec UInt8}
    (hreceiver : σ[receiver]? = some v) (hsize : v.length ≤ int64Max) {value : DynamicValue}
    {spec : FormatSpec} (hspec : spec.Parsed) (hzero : spec.zeroPad = true → value.integral = true)
    {data : FormatData} (hdata : σ.formatData (value.decoded print) spec = .ok data)
    {text : List Char}
    (hread : σ.readData data = .ok (encode text))
    (hlength : data.fieldLength (encode text) = text.length)
    (helsewhere : data.Elsewhere receiver) :
    Appends σ receiver v (encode (padField spec value.number text))
      (σ.formatAppend receiver (value.decoded print) spec) := by
  obtain ⟨hbefore, hmiddle, hafter⟩ := @formatPieces_valid print value spec data text
  rw [← @formatPieces_text print value spec hspec hzero data text hlength, List.append_assoc]
  unfold Store.formatAppend
  rw [hdata]
  show Appends σ receiver v _ (σ.readData data >>= _)
  rw [hread]
  apply (appendPieces_appends hreceiver hsize hbefore).bind
  intro σ₁ v₁ hv₁ _ hgrew
  rw [readData_grew hgrew helsewhere, hread]
  apply (appendBytes_appends hv₁ hmiddle).bind
  intro σ₂ v₂ hv₂ hsize₂ _
  exact appendPieces_appends hv₂ hsize₂ hafter

/-- A dynamic value that suits a specification is appended, padded to the width
    in characters; one that does not suit it is refused before anything changes. -/
theorem formatSpecAppend_field {print : UInt64 → Bytes} (hprint : PrintsFloats print) {σ : Store}
    (hσ : σ.WellFormed) {receiver : Nat} {v : GrowVec UInt8} (hreceiver : σ[receiver]? = some v)
    {value : DynamicValue} (hvalue : value.Presented σ receiver) {spec : FormatSpec}
    (hspec : spec.Parsed) :
    (¬ Suits print σ value spec →
      ∃ message, σ.formatSpecAppend print receiver value spec =
      .error (.stopped (.raised message σ))) ∧
    ∀ text, FieldText print σ value spec.type text →
      (spec.zeroPad = true → value.integral = true) →
      let field := padField spec value.number text
      field.length = max spec.width text.length ∧
      (v.length + (encode field).length ≤ int64Max →
        ∃ σ', σ.formatSpecAppend print receiver value spec = .ok σ' ∧
          Grew σ σ' receiver v (encode field)) ∧
      (int64Max < v.length + (encode field).length →
        ∃ message σ' some, σ.formatSpecAppend print receiver value spec
            = .error (.stopped (.raised message σ')) ∧ Grew σ σ' receiver v some) := by
  rw [formatSpecAppend_eq hprint]
  constructor
  · intro hunsuited
    obtain ⟨message, hmessage⟩ := formatData_refuses hprint hσ hvalue hunsuited
    refine ⟨message, ?_⟩
    unfold Store.formatAppend
    rw [hmessage]
    rfl
  · intro text htext hzero
    obtain ⟨data, hdata, hread, hlength, helsewhere⟩ := formatData_text hprint hvalue htext hzero
    have hsize := hσ.size v (List.mem_of_getElem? hreceiver)
    have hall := formatAppend_appends hreceiver hsize hspec hzero hdata hread hlength helsewhere
    refine ⟨padField_length spec value.number text, ?_, ?_⟩
    · intro hfits
      obtain ⟨σ', hresult, hgrew⟩ := hall.1 hfits
      exact ⟨σ', by rw [hresult]; rfl, hgrew⟩
    · intro hlong
      obtain ⟨message, σ', some, hresult, hgrew⟩ := hall.2 hlong
      exact ⟨message, σ', some, by rw [hresult]; rfl, hgrew⟩

/-- `"{:08x}"` of -42, into an empty String. -/
theorem formatSpecAppend_hexadecimal :
    ∃ σ', Store.formatSpecAppend (fun _ => [0x30]) [GrowVec.ofList 0 []] 0 (.integer (-42))
        ⟨some .x, 8, none, true⟩ = .ok σ' ∧
      Grew [GrowVec.ofList 0 []] σ' 0 (GrowVec.ofList 0 []) (encode "-000002a".toList) := by
  have hprint : PrintsFloats fun _ => [0x30] :=
    ⟨fun _ byte hbyte => by rw [List.mem_singleton.mp hbyte]; decide, fun _ => by simp⟩
  have hσ : Store.WellFormed [GrowVec.ofList 0 []] := by
    constructor <;> intro w hw <;> rw [List.mem_singleton.mp hw] <;> decide
  have hspec : FormatSpec.Parsed ⟨some .x, 8, none, true⟩ :=
    ⟨by decide, fun _ => rfl, fun _ => by decide⟩
  have hfield := @formatSpecAppend_field _ hprint _ hσ 0 (GrowVec.ofList 0 []) rfl
    (.integer (-42)) trivial _ hspec
  exact (hfield.2 "-2a".toList (.integer rfl) fun _ => rfl).2.1 (by decide)

end Cwhip.Runtime.StringStore
