/-
  Cwhip.Runtime.StringStore

  The Strings of a program, and formatting a value into one of them
  (`RuntimeGc.c`).

  The bytes of a String that is formatted are borrowed while pieces are appended
  to the receiver, which may be the same String.
-/

import Cwhip.Lib.Except
import Cwhip.Lib.Machine
import Cwhip.Runtime.StringTexts

namespace Cwhip.Runtime.StringStore

open Cwhip.Lib Cwhip.Lib.Utf8

/-- The buffers of the Strings, by object. -/
abbrev Store := List (GrowVec UInt8)

/-- How an operation stops early: it touches memory that is not there, or raises. -/
inductive Stop where
  | undefined
  | raised (message : String) (store : Store)

/-- `string_buffer`. -/
def Store.buffer (σ : Store) (object : Nat) : Except Stop (GrowVec UInt8) :=
  require σ[object]? (.raised "invalid String reference" σ)

/-! ## Mutations -/

/-- `cwhip_string_append_bytes`; a source inside the buffer itself is found again
    after the buffer has moved. -/
def Store.appendBytes (σ : Store) (receiver : Nat) (bytes : Bytes) : Except Stop Store := do
  let v ← σ.buffer receiver
  ensure (v.length ≤ int64Max ∧ bytes.length ≤ int64Max - v.length ∧ validUtf8 bytes = true)
    (.raised "invalid UTF-8 or String length" σ)
  return if bytes = [] then σ else σ.set receiver (v.splice 0 8 v.length v.length bytes)

/-- `normalize_string_index`. -/
def normalizeStringIndex (index : Int) (length : Nat) : Int :=
  if index < 0 then index + length else index

/-! ## Formatting -/

inductive FormatValue where
  | integer (value : Int)
  | unsigned (value : Nat)
  /-- What `%.15g` prints. -/
  | float (text : Bytes)
  | boolean (value : Bool)
  | typeName (name : Bytes)
  | string (object : Nat)
  | null
  /-- An object of another class, a list or a dict. -/
  | object
  /-- A buffer or a handle. -/
  | unformattable
  deriving DecidableEq, Repr

/-- `type`. -/
inductive FormatType where
  | d
  | c
  | x
  | X
  deriving DecidableEq, Repr

/-- `alignment`. -/
inductive Alignment where
  | left
  | center
  | right
  deriving DecidableEq, Repr

structure FormatSpec where
  type : Option FormatType
  width : Nat
  alignment : Option Alignment
  zeroPad : Bool
  deriving DecidableEq, Repr

def FormatValue.integral : FormatValue → Bool
  | .integer _ | .unsigned _ => true
  | _ => false

def asciiBytes (text : String) : Bytes := encode text.toList

/-- The digits of a number. -/
def digits (base value : Nat) (upper : Bool) : Bytes :=
  encode ((Nat.toDigits base value).map fun digit => if upper then digit.toUpper else digit)

/-- A sign and digits. -/
def signed (base : Nat) (value : Int) (upper : Bool) : Bytes :=
  (if value < 0 then [0x2d] else []) ++ digits base value.natAbs upper

/-- `data`: in `text`, elsewhere, or the borrowed bytes of a String. -/
inductive FormatData where
  | text (bytes : Bytes)
  | constant (bytes : Bytes)
  | borrowed (object block length : Nat)
  deriving DecidableEq, Repr

/-- The first half of `cwhip_string_format_spec_append`: what is printed. -/
def Store.formatData (σ : Store) (value : FormatValue) (spec : FormatSpec) :
    Except Stop FormatData := do
  ensure (spec.type = none ∧ spec.zeroPad = false ∨ value.integral = true)
    (.raised "numeric format specifiers require int or unsigned" σ)
  match spec.type, value with
  | some .c, .integer n =>
    ensure (0 ≤ n ∧ n ≤ 127) (.raised "ASCII character format requires a value in 0..127" σ)
    return .text [UInt8.ofNat n.toNat]
  | some .c, .unsigned n =>
    ensure (n ≤ 127) (.raised "ASCII character format requires a value in 0..127" σ)
    return .text [UInt8.ofNat n]
  | some .x, .integer n => return .text (signed 16 n false)
  | some .X, .integer n => return .text (signed 16 n true)
  | some .x, .unsigned n => return .text (digits 16 n false)
  | some .X, .unsigned n => return .text (digits 16 n true)
  | _, .integer n => return .text (signed 10 n false)
  | _, .unsigned n => return .text (digits 10 n false)
  | _, .float text => return .text text
  | _, .boolean b => return .constant (asciiBytes (if b then "true" else "false"))
  | _, .typeName name => return .constant name
  | _, .string object =>
    let v ← σ.buffer object
    return .borrowed object v.block v.length
  | _, .null => return .constant (asciiBytes "(null)")
  | _, .object => return .constant (asciiBytes "<object>")
  | _, .unformattable => .error (.raised "buffer and handle values are not formattable" σ)

/-- The bytes of `data`, when they are read. -/
def Store.readData (σ : Store) : FormatData → Except Stop Bytes
  | .text bytes | .constant bytes => .ok bytes
  | .borrowed object block length =>
    match σ[object]? with
    | some v =>
      match v.readAt block 0 length with
      | .ok bytes => .ok bytes
      | .error _ => .error .undefined
    | none => .error .undefined

/-- `field_length`. -/
def FormatData.fieldLength (data : FormatData) (bytes : Bytes) : Nat :=
  match data with
  | .text _ => bytes.length
  | _ => (bytes.filter fun byte => !isContinuation byte).length

def fillPieces (fill : UInt8) (count : Nat) : List Bytes :=
  List.replicate (count / 128) (List.replicate 128 fill) ++
    if count % 128 = 0 then [] else [List.replicate (count % 128) fill]

/-- What is appended: pieces before the data, the data, or what follows its sign,
    and pieces after it. -/
structure FormatPieces where
  before : List Bytes
  sign : Bool
  after : List Bytes

/-- The second half: the padding. -/
def formatPieces (value : FormatValue) (spec : FormatSpec) (data : FormatData) (bytes : Bytes) :
    FormatPieces :=
  let padding := spec.width - data.fieldLength bytes
  let number := value.integral || match value with
    | .float _ => true
    | _ => false
  let alignment := spec.alignment.getD (if number then .right else .left)
  let before := match alignment with
    | .left => 0
    | .center => padding / 2
    | .right => padding
  let sign := spec.zeroPad && bytes.head? == some 0x2d
  let fill : UInt8 := if spec.zeroPad then 0x30 else 0x20
  ⟨(if sign then [[0x2d]] else []) ++ fillPieces fill before, sign,
    fillPieces fill (padding - before)⟩

/-- Appends, one after the other. -/
def Store.appendPieces (σ : Store) (receiver : Nat) : List Bytes → Except Stop Store
  | [] => .ok σ
  | piece :: rest => do
    let σ ← σ.appendBytes receiver piece
    σ.appendPieces receiver rest

/-- `cwhip_string_format_spec_append`. -/
def Store.formatAppend (σ : Store) (receiver : Nat) (value : FormatValue) (spec : FormatSpec) :
    Except Stop Store := do
  let data ← σ.formatData value spec
  let bytes ← σ.readData data
  let pieces := formatPieces value spec data bytes
  let σ ← σ.appendPieces receiver pieces.before
  let bytes ← σ.readData data
  let σ ← σ.appendBytes receiver (if pieces.sign then bytes.tail else bytes)
  σ.appendPieces receiver pieces.after

end Cwhip.Runtime.StringStore
