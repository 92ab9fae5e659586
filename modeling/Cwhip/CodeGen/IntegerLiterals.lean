/-
  Cwhip.CodeGen.IntegerLiterals

  Integer literals from their source text to the operands in emitted code
  (`SemanticExpressions.cpp`, `CodeGenerator.cpp`).

  The analyzer reads a literal to check its range; the generator writes it again,
  by one of several routines.  An index, a slice bound or a buffer length that is
  a literal is written as it stands in the source.
-/

import Mathlib.Algebra.Group.Nat.Defs
import Mathlib.Algebra.Group.Int.Defs
import Cwhip.CodeGen.Mangling
import Cwhip.Lib.Except
import Cwhip.Lib.MachineInt
import Cwhip.Lib.Numerals

namespace Cwhip.CodeGen.Literals

open Cwhip.Lib

mutual

/-- An expression, as far as it leads to integer literals. -/
inductive Expression where
  | integer (value : Text)
  /-- With its suffix. -/
  | unsigned (value : Text)
  | enumConstant (value : Int)
  /-- An operand of this type without literals. -/
  | operand (type : Text)
  | unary (operation : Char) (left : Expression)
  | binary (operation : Text) (left right : Expression)
  | index (left position : Expression)
  | slice (left start stop step : Expression) (hasStart hasEnd hasStep : Bool)
  | buffer (length : Expression)
  /-- `resize` of a list or a buffer. -/
  | resize (receiver length : Expression)
  /-- A call with a result of this type. -/
  | call (type : Text) (arguments : Arguments)

/-- Arguments with the types of their parameters. -/
inductive Arguments where
  | nil
  | cons (parameter : Text) (argument : Expression) (rest : Arguments)

end

/-! ## Reading literals -/

def isHexadecimal : Text → Bool
  | '0' :: x :: _ => x == 'x' || x == 'X'
  | _ => false

/-- The number that a literal denotes. -/
def magnitude (literal : Text) : Option Nat :=
  if isHexadecimal literal then numeral 16 (literal.drop 2) else numeral 10 literal

/-- `parseIntegerMagnitude`: `from_chars` takes all digits, and no more than 64
    bits. -/
def parseIntegerMagnitude (literal : Text) : Option Nat :=
  (magnitude literal).filter fun value => value < 2 ^ 64

/-- `parseHexadecimalMagnitude` of the generator. -/
def parseHexadecimalMagnitude (literal : Text) : Option Nat :=
  if literal.length < 3 ∨ isHexadecimal literal = false then none
  else (numeral 16 (literal.drop 2)).filter fun value => value < 2 ^ 64

def llvmIntegerConstant (literal : Text) : Text :=
  match parseHexadecimalMagnitude literal with
  | some value => decimal value
  | none => literal

/-- `isMinimumIntegerMagnitude`, in the analyzer and in the generator. -/
def isMinimumIntegerMagnitude : Expression → Bool
  | .integer value => parseIntegerMagnitude value == some (2 ^ 63)
  | _ => false

/-- `std::to_string` -/
def toString : Int → Text
  | .ofNat n => decimal n
  | .negSucc n => '-' :: decimal (n + 1)

/-! ## Constants -/

def int64Min : Int := -2 ^ 63

/-- The exact result, if it fits in 64 bits. -/
def checked (value : Int) : Option Int := if int64Min ≤ value ∧ value ≤ int64Max then some value
    else none

/-- The operators of constant expressions; division truncates. -/
def constantOperation (operation : Text) (left right : Int) : Option Int :=
  if operation = ['+'] then checked (left + right)
  else if operation = ['-'] then checked (left - right)
  else if operation = ['*'] then checked (left * right)
  else if operation = ['/'] then
    if right ≠ 0 ∧ ¬ (left = int64Min ∧ right = -1) then some (left.tdiv right) else none
  else if operation = ['%'] then
    if right ≠ 0 ∧ ¬ (left = int64Min ∧ right = -1) then some (left.tmod right) else none
  else none

def constantInteger : Expression → Option Int
  | .enumConstant value => some value
  | .integer value =>
    match parseIntegerMagnitude value with
    | some magnitude => if (magnitude : Int) ≤ int64Max then some magnitude else none
    | none => none
  | .unary operation left =>
    if operation = '-' ∧ isMinimumIntegerMagnitude left = true then some int64Min
    else do
      let value ← constantInteger left
      if operation = '-' then (if value = int64Min then none else some (-value))
      else if operation = '+' then some value
      else none
  | .binary operation left right => do
    let left ← constantInteger left
    let right ← constantInteger right
    constantOperation operation left right
  | _ => none

/-- `SemanticAnalyzer::evaluateEnumExpression`; a member that is named stands
    for its value. -/
def evaluateEnumExpression : Expression → Except Text Int
  | .integer value =>
    require (constantInteger (.integer value))
      "enum integer literal is outside the signed 64-bit range".toList
  | .enumConstant value => .ok value
  | .unary operation left =>
    if operation = '-' ∧ isMinimumIntegerMagnitude left = true then .ok int64Min
    else do
      let value ← evaluateEnumExpression left
      if operation = '+' then .ok value
      else if operation = '-' then
        if value = int64Min then
          .error "enum constant expression overflows signed 64-bit range".toList
        else .ok (-value)
      else .error "unsupported unary operator in enum constant expression".toList
  | .binary operation left right => do
    let left ← evaluateEnumExpression left
    let right ← evaluateEnumExpression right
    if (operation = ['/'] ∨ operation = ['%']) ∧ right = 0 then
      .error "division by zero in enum constant expression".toList
    else if operation ∈ [['+'], ['-'], ['*'], ['/'], ['%']] then
      require (constantOperation operation left right)
        "enum constant expression overflows signed 64-bit range".toList
    else .error "enum value must be a compile-time integer expression".toList
  | _ => .error "enum value must be a compile-time integer expression".toList

/-! ## The analyzer -/

/-- What can be indexed and sliced. -/
def collectionTypes : List Text := ["list", "dict", "buffer"].map String.toList

section

-- the type of an operation by the types of its operands
variable (binaryType : Text → Text → Text → Except Text Text)

mutual

/-- `SemanticAnalyzer::analyzeExpression`. -/
def analyzeExpression : Expression → Text → Except Text Text
  | .integer value, expectedType =>
    match parseIntegerMagnitude value with
    | none =>
      .error (if expectedType = "unsigned".toList
        then "integer literal is outside the unsigned 64-bit range".toList
        else "integer literal is outside the signed 64-bit range".toList)
    | some magnitude =>
      if expectedType = "unsigned".toList then .ok "unsigned".toList
      else if int64Max < magnitude then
        .error "integer literal is outside the signed 64-bit range".toList
      else .ok "int".toList
  | .unsigned value, _ =>
    match parseIntegerMagnitude value.dropLast with
    | none => .error "unsigned literal is outside the 64-bit range".toList
    | some _ => .ok "unsigned".toList
  | .enumConstant _, _ => .ok "int".toList
  | .operand type, _ => .ok type
  | .unary operation left, _ =>
    if operation = '-' ∧ isMinimumIntegerMagnitude left = true then .ok "int".toList
    else do
      let operand ← analyzeExpression left []
      if operation = '!' then
        if operand = "bool".toList then .ok "bool".toList
        else .error "logical negation requires a bool operand".toList
      else if (operation = '+' ∧ operand ∈ ["int", "float", "unsigned"].map String.toList) ∨
          (operation = '-' ∧ operand ∈ ["int", "float"].map String.toList) then .ok operand
      else .error ("unary operator '".toList ++ operation ::
        ("' does not support operand type ".toList ++ operand))
  | .binary operation left right, _ => do
    let leftType ← analyzeExpression left []
    let rightType ← analyzeExpression right
      (if leftType = "type".toList ∨ isCallbackType leftType = true then leftType else [])
    binaryType operation leftType rightType
  | .index left position, _ => do
    let collectionType ← analyzeExpression left []
    if collectionType ∈ collectionTypes then do
      let positionType ← analyzeExpression position []
      if collectionType = "dict".toList then
        if positionType = "String".toList then .ok "any".toList
        else .error "dict keys must have type strg".toList
      else if positionType ≠ "int".toList then
        .error (collectionType ++ " index and slice bounds must be int".toList)
      else .ok (if collectionType = "list".toList then "any".toList else "unsigned".toList)
    else .error "indexing requires a list, dict, or buffer".toList
  | .slice left start stop step hasStart hasEnd hasStep, _ => do
    let collectionType ← analyzeExpression left []
    if hasStep = true ∧ collectionType ≠ "list".toList then
      .error "slice steps are only supported for lists".toList
    else if collectionType ∈ collectionTypes then do
      let startType ← (if hasStart then analyzeExpression start [] else .ok "int".toList)
      let stopType ← (if hasEnd then analyzeExpression stop [] else .ok "int".toList)
      if startType ≠ "int".toList ∨ stopType ≠ "int".toList then
        .error (collectionType ++ " index and slice bounds must be int".toList)
      else do
        let stepType ← (if hasStep then analyzeExpression step [] else .ok "int".toList)
        if stepType ≠ "int".toList then .error "list slice step must be int".toList
        else if hasStep = true ∧ constantInteger step =
          some 0 then .error "list slice step cannot be zero".toList
        else .ok collectionType
    else .error "slicing requires a list, dict, or buffer".toList
  | .buffer length, _ => do
    let type ← analyzeExpression length []
    if type = "int".toList then .ok "buffer".toList
      else .error "buffer length must have type int".toList
  | .resize receiver length, _ => do
    let receiverType ← analyzeExpression receiver []
    if receiverType = "list".toList ∨ receiverType = "buffer".toList then do
      let type ← analyzeExpression length []
      if type = "int".toList then .ok "void".toList
      else if receiverType = "list".toList then .error "list resize length must be int".toList
      else .error "buffer 'resize' expects one int length".toList
    else .error "not a list or a buffer".toList
  | .call type arguments, _ => do
    analyzeArguments arguments
    .ok type

/-- Each argument is analyzed for the type of its parameter. -/
def analyzeArguments : Arguments → Except Text Unit
  | .nil => .ok ()
  | .cons parameter argument rest => do
    let _ ← analyzeExpression argument parameter
    analyzeArguments rest

end

/-- `SemanticAnalyzer::analyzeLValue` of an element that is assigned to. -/
def analyzeElementTarget (left position : Expression) : Except Text Text := do
  let collectionType ← analyzeExpression binaryType left []
  if collectionType ∈ collectionTypes then do
    let positionType ← analyzeExpression binaryType position []
    if collectionType = "dict".toList then
      if positionType = "String".toList then .ok "any".toList
      else .error "dict keys must have type strg".toList
    else if positionType ≠ "int".toList then .error (collectionType ++ " index must be int".toList)
    else .ok (if collectionType = "list".toList then "any".toList else "buffer-byte".toList)
  else .error "index assignment requires a list, dict, or buffer".toList

/-! ## The generator -/

/-- A literal and the operand that is emitted for it. -/
structure Use where
  literal : Expression
  operand : Text

/-- `CodeGenerator::emitIntegerExpression`, with what `emitExpression` makes of
    the expression. -/
def integerOperand (expression : Expression) (emitted : Except Text (Text × List Use)) :
    Except Text (List Use) :=
  match expression with
  | .integer value => .ok [⟨.integer value, value⟩]
  | _ => do
    let (type, uses) ← emitted
    if type = "int".toList then .ok uses else .error "integer expression required".toList

mutual

/-- `CodeGenerator::emitExpression`: the type of the value, and the literals with
    their operands. -/
def emitExpression : Expression → Text → Except Text (Text × List Use)
  | .integer value, expectedType =>
    .ok (if expectedType = "unsigned".toList then "unsigned".toList else "int".toList,
      [⟨.integer value, llvmIntegerConstant value⟩])
  | .unsigned value, _ =>
    .ok ("unsigned".toList, [⟨.unsigned value, llvmIntegerConstant value.dropLast⟩])
  | .enumConstant value, _ => .ok ("int".toList, [⟨.enumConstant value, toString value⟩])
  | .operand type, _ => .ok (type, [])
  | .unary operation left, _ =>
    if operation = '-' ∧ isMinimumIntegerMagnitude left = true then
      .ok ("int".toList, [⟨.unary operation left, "-9223372036854775808".toList⟩])
    else do
      let (type, uses) ← emitExpression left []
      if operation = '+' ∨ operation = '-' then .ok (type, uses)
      else if operation = '!' then .ok ("bool".toList, uses)
      else .error ("unary operator '".toList ++ operation :: ['\''])
  | .binary operation left right, _ => do
    let (leftType, leftUses) ← emitExpression left []
    let (rightType, rightUses) ← emitExpression right (if leftType = "type".toList then leftType
      else [])
    let type ← binaryType operation leftType rightType
    .ok (type, leftUses ++ rightUses)
  | .index left position, _ => do
    let (collectionType, uses) ← emitExpression left []
    if collectionType = "list".toList then do
      let positionUses ← integerOperand position (emitExpression position [])
      .ok ("any".toList, uses ++ positionUses)
    else if collectionType = "buffer".toList then do
      let positionUses ← integerOperand position (emitExpression position [])
      .ok ("unsigned".toList, uses ++ positionUses)
    else do
      let (_, keyUses) ← emitExpression position []
      .ok ("any".toList, uses ++ keyUses)
  | .slice left start stop step hasStart hasEnd hasStep, _ => do
    let (collectionType, uses) ← emitExpression left []
    let startUses ← (if hasStart then integerOperand start (emitExpression start []) else .ok [])
    let stopUses ← (if hasEnd then integerOperand stop (emitExpression stop []) else .ok [])
    let stepUses ← (if hasStep then integerOperand step (emitExpression step []) else .ok [])
    .ok (collectionType, uses ++ startUses ++ stopUses ++ stepUses)
  | .buffer length, _ => do
    let uses ← integerOperand length (emitExpression length [])
    .ok ("buffer".toList, uses)
  | .resize receiver length, _ => do
    let (receiverType, uses) ← emitExpression receiver []
    if receiverType = "list".toList then do
      let (_, lengthUses) ← emitExpression length []
      .ok ("void".toList, uses ++ lengthUses)
    else do
      let lengthUses ← integerOperand length (emitExpression length [])
      .ok ("void".toList, uses ++ lengthUses)
  | .call type arguments, _ => do
    let uses ← emitArguments arguments
    .ok (type, uses)

def emitArguments : Arguments → Except Text (List Use)
  | .nil => .ok []
  | .cons parameter argument rest => do
    let (_, uses) ← emitExpression argument parameter
    let restUses ← emitArguments rest
    .ok (uses ++ restUses)

end

/-- The target of an assignment to an element, which is emitted before the value. -/
def emitElementTarget (left position : Expression) : Except Text (Text × List Use) := do
  let (collectionType, uses) ← emitExpression binaryType left []
  if collectionType = "list".toList then do
    let positionUses ← integerOperand position (emitExpression binaryType position [])
    .ok ("any".toList, uses ++ positionUses)
  else if collectionType = "buffer".toList then do
    let positionUses ← integerOperand position (emitExpression binaryType position [])
    .ok ("buffer-byte".toList, uses ++ positionUses)
  else do
    let (_, keyUses) ← emitExpression binaryType position []
    .ok ("any".toList, uses ++ keyUses)

end

/-! ## What literals denote -/

def exactOperation (operation : Text) (left right : Int) : Option Int :=
  if operation = ['+'] then some (left + right)
  else if operation = ['-'] then some (left - right)
  else if operation = ['*'] then some (left * right)
  else if operation = ['/'] then (if right = 0 then none else some (left.tdiv right))
  else if operation = ['%'] then (if right = 0 then none else some (left.tmod right))
  else none

/-- The number that an expression of literals denotes. -/
def mathValue : Expression → Option Int
  | .integer value => (magnitude value).map Int.ofNat
  | .unsigned value => (magnitude value.dropLast).map Int.ofNat
  | .enumConstant value => some value
  | .unary operation left =>
    if operation = '-' then (mathValue left).map fun value => -value
    else if operation = '+' then mathValue left
    else none
  | .binary operation left right => do
    let left ← mathValue left
    let right ← mathValue right
    exactOperation operation left right
  | _ => none

mutual

/-- The literals of an expression, in order; the smallest integer is one with
    its minus. -/
def literals : Expression → List Expression
  | .integer value => [.integer value]
  | .unsigned value => [.unsigned value]
  | .enumConstant value => [.enumConstant value]
  | .operand _ => []
  | .unary operation left =>
    if operation = '-' ∧ isMinimumIntegerMagnitude left = true then [.unary operation left]
      else literals left
  | .binary _ left right => literals left ++ literals right
  | .index left position => literals left ++ literals position
  | .slice left start stop step hasStart hasEnd hasStep =>
    literals left ++ (if hasStart then literals start else []) ++ (if hasEnd then literals stop
      else []) ++
      if hasStep then literals step else []
  | .buffer length => literals length
  | .resize receiver length => literals receiver ++ literals length
  | .call _ arguments => argumentLiterals arguments

def argumentLiterals : Arguments → List Expression
  | .nil => []
  | .cons _ argument rest => literals argument ++ argumentLiterals rest

end

/-! ## Integer positions -/

def hexadecimalInteger : Expression → Bool
  | .integer value => isHexadecimal value
  | _ => false

section

variable (binaryType : Text → Text → Text → Except Text Text)

mutual

/-- The positions, slice bounds and buffer lengths within an expression.  The
    length of a list that is resized is none of them. -/
def bounds : Expression → List Expression
  | .integer _ => []
  | .unsigned _ => []
  | .enumConstant _ => []
  | .operand _ => []
  | .unary _ left => bounds left
  | .binary _ left right => bounds left ++ bounds right
  | .index left position => bounds left ++ position :: bounds position
  | .slice left start stop step hasStart hasEnd hasStep =>
    bounds left ++ (if hasStart then start :: bounds start else []) ++
      (if hasEnd then stop :: bounds stop else []) ++ if hasStep then step :: bounds step else []
  | .buffer length => length :: bounds length
  | .resize receiver length =>
    bounds receiver ++
      match analyzeExpression binaryType receiver [] with
      | .ok type => if type = "list".toList then bounds length else length :: bounds length
      | .error _ => []
  | .call _ arguments => argumentBounds arguments

def argumentBounds : Arguments → List Expression
  | .nil => []
  | .cons _ argument rest => bounds argument ++ argumentBounds rest

end

end

section

-- the equations of the recursions, once for all proofs
attribute [local simp] analyzeExpression emitExpression literals bounds

end

/-- The operand is the decimal constant of what the literal denotes. -/
def Use.Lowered (use : Use) : Prop :=
  ∃ value, mathValue use.literal = some value ∧ signedNumeral use.operand = some value

/-- The expression is emitted, each of its literals as the decimal constant of
    what it denotes. -/
def LowersLiterals (binaryType : Text → Text → Text → Except Text Text) (e : Expression)
    (expectedType : Text) : Prop :=
  ∃ type uses, emitExpression binaryType e expectedType = .ok (type, uses) ∧
    uses.map Use.literal = literals e ∧ ∀ use ∈ uses, use.Lowered

/-- The target of an assignment to an element is, like the element itself. -/
def LowersTarget (binaryType : Text → Text → Text → Except Text Text) (left position : Expression) :
    Prop :=
  ∃ type uses, emitElementTarget binaryType left position = .ok (type, uses) ∧
    uses.map Use.literal = literals (.index left position) ∧ ∀ use ∈ uses, use.Lowered

/-! ## One literal -/

variable {literal : Text} {value : Nat}

theorem signedNumeral_hexadecimal (h : isHexadecimal literal = true) :
    signedNumeral literal = none := by
  unfold isHexadecimal at h
  split at h
  · next x rest =>
    have hx : digitValue 10 x = none := by
      rcases (Bool.or_eq_true _ _).mp h with h | h
      · rw [eq_of_beq h]
        decide
      · rw [eq_of_beq h]
        decide
    -- the zero is a digit, but not what follows it
    have hnone : numeral 10 ('0' :: x :: rest) = none := by
      have hzero : digitValue 10 '0' = some 0 := by decide
      rw [numeral, if_neg (List.cons_ne_nil _ _)]
      simp only [numeralFrom, hzero, hx, Option.bind_eq_bind, Option.bind_some, Option.bind_none]
    rw [signedNumeral, hnone]
    · rfl
    · intro digits heq
      cases heq
  · cases h

theorem signedNumeral_decimal (n : Nat) : signedNumeral (decimal n) = some (n : Int) :=
  signedNumeral_of_numeral (numeral_toDigits n)

theorem signedNumeral_toString (value : Int) : signedNumeral (toString value) = some value := by
  cases value with
  | ofNat n => exact signedNumeral_decimal n
  | negSucc n => exact signedNumeral_neg (numeral_toDigits (n + 1))

theorem magnitude_of_parse (h : parseIntegerMagnitude literal = some value) :
    magnitude literal = some value ∧ value < 2 ^ 64 := by
  obtain ⟨hvalue, hless⟩ := Option.filter_eq_some_iff.mp h
  exact ⟨hvalue, of_decide_eq_true hless⟩

theorem signedNumeral_llvmIntegerConstant (h : parseIntegerMagnitude literal = some value) :
    signedNumeral (llvmIntegerConstant literal) = some (value : Int) := by
  obtain ⟨hvalue, hless⟩ := magnitude_of_parse h
  unfold magnitude at hvalue
  cases hhex : isHexadecimal literal with
  | true =>
    rw [if_pos hhex] at hvalue
    -- there are digits behind the prefix
    have hlength : ¬ literal.length < 3 := by
      intro hshort
      obtain ⟨first, rest, digit, hdigits, _⟩ := numeral_head hvalue
      have hdrop : (literal.drop 2).length = literal.length - 2 := List.length_drop
      rw [hdigits, List.length_cons] at hdrop
      omega
    have hparsed : parseHexadecimalMagnitude literal = some value := by
      rw [parseHexadecimalMagnitude, if_neg (by simp [hlength, hhex]), hvalue, Option.filter_some,
        if_pos (decide_eq_true hless)]
    rw [llvmIntegerConstant, hparsed]
    exact signedNumeral_decimal value
  | false =>
    rw [hhex] at hvalue
    rw [llvmIntegerConstant, parseHexadecimalMagnitude, if_pos (Or.inr hhex)]
    exact signedNumeral_of_numeral hvalue

theorem Use.lowered_raw_iff (h : parseIntegerMagnitude literal = some value) :
    Use.Lowered ⟨.integer literal, literal⟩ ↔ isHexadecimal literal = false := by
  obtain ⟨hvalue, _⟩ := magnitude_of_parse h
  constructor
  · intro ⟨number, _, hnumber⟩
    cases hhex : isHexadecimal literal with
    | false => rfl
    | true =>
      rw [signedNumeral_hexadecimal hhex] at hnumber
      cases hnumber
  · intro hhex
    refine ⟨value, by rw [mathValue, hvalue]; rfl, ?_⟩
    rw [magnitude, hhex] at hvalue
    exact signedNumeral_of_numeral hvalue

theorem Use.lowered_integer (h : parseIntegerMagnitude literal = some value) :
    Use.Lowered ⟨.integer literal, llvmIntegerConstant literal⟩ :=
  ⟨value, by rw [mathValue, (magnitude_of_parse h).1]; rfl, signedNumeral_llvmIntegerConstant h⟩

theorem Use.lowered_unsigned (h : parseIntegerMagnitude literal.dropLast = some value) :
    Use.Lowered ⟨.unsigned literal, llvmIntegerConstant literal.dropLast⟩ :=
  ⟨value, by rw [mathValue, (magnitude_of_parse h).1]; rfl, signedNumeral_llvmIntegerConstant h⟩

theorem signedNumeral_minimum : signedNumeral "-9223372036854775808".toList = some int64Min := by
  decide +kernel

theorem Use.lowered_minimum {left : Expression} (h : isMinimumIntegerMagnitude left = true) :
    Use.Lowered ⟨.unary '-' left, "-9223372036854775808".toList⟩ := by
  cases left with
  | integer value =>
    have hparsed : parseIntegerMagnitude value = some (2 ^ 63) := eq_of_beq h
    refine ⟨int64Min, ?_, signedNumeral_minimum⟩
    rw [mathValue, if_pos rfl, mathValue, (magnitude_of_parse hparsed).1]
    rfl
  | _ => cases h

/-! ## What is emitted -/

/-- The uses are those of the literals, and all are lowered exactly if no
    literal in an integer position is hexadecimal. -/
structure Emission (uses : List Use) (literals positions : List Expression) : Prop where
  literals_eq : uses.map Use.literal = literals
  lowered_iff : (∀ use ∈ uses, use.Lowered) ↔
    ∀ position ∈ positions, hexadecimalInteger position = false

theorem Emission.nil : Emission [] [] [] :=
  ⟨rfl, by simp⟩

theorem Emission.one {use : Use} (h : use.Lowered) : Emission [use] [use.literal] [] :=
  ⟨rfl, by simp [h]⟩

theorem Emission.append {uses uses' : List Use}
    {literals literals' positions positions' : List Expression}
    (h : Emission uses literals positions) (h' : Emission uses' literals' positions') :
    Emission (uses ++ uses') (literals ++ literals') (positions ++ positions') := by
  refine ⟨?_, ?_⟩
  · rw [List.map_append, h.literals_eq, h'.literals_eq]
  · rw [List.forall_mem_append, List.forall_mem_append, h.lowered_iff, h'.lowered_iff]

theorem analyzeExpression_ordinary {binaryType : Text → Text → Text → Except Text Text}
    {e : Expression} {expectedType : Text} (h : expectedType ≠ "unsigned".toList) :
    analyzeExpression binaryType e expectedType = analyzeExpression binaryType e [] := by
  have hnil : ([] : Text) ≠ "unsigned".toList := by decide
  cases e with
  | integer value => simp only [analyzeExpression, if_neg h, if_neg hnil]
  | _ => simp only [analyzeExpression]

section

variable {binaryType : Text → Text → Text → Except Text Text}

/-- An expression is emitted with the type that it was analyzed with. -/
def Emits (binaryType : Text → Text → Text → Except Text Text) (e : Expression)
    (expectedType type : Text) :
    Prop :=
  ∃ uses, emitExpression binaryType e expectedType = .ok (type, uses) ∧
    Emission uses (literals e) (bounds binaryType e)

theorem integerOperand_spec {e : Expression} (hanalyzed : analyzeExpression binaryType e [] =
    .ok "int".toList) (hemits : Emits binaryType e [] "int".toList) :
    ∃ uses, integerOperand e (emitExpression binaryType e []) = .ok uses ∧
      Emission uses (literals e) (e :: bounds binaryType e) := by
  obtain ⟨uses, hemitted, hemission⟩ := hemits
  -- all but a literal are emitted as elsewhere
  have hother (hno : ∀ value, e ≠ .integer value) :
      ∃ uses, integerOperand e (emitExpression binaryType e []) = .ok uses ∧
        Emission uses (literals e) (e :: bounds binaryType e) := by
    have hlast : hexadecimalInteger e = false := by
      cases e with
      | integer value => exact absurd rfl (hno value)
      | _ => rfl
    refine ⟨uses, ?_, hemission.literals_eq, ?_⟩
    · rw [hemitted]
      unfold integerOperand
      split
      · next value => exact absurd rfl (hno value)
      · rfl
    · rw [List.forall_mem_cons, hemission.lowered_iff]
      exact ⟨fun h => ⟨hlast, h⟩, fun h => h.2⟩
  cases e with
  | integer value =>
    obtain ⟨magnitude, hparsed⟩ : ∃ magnitude, parseIntegerMagnitude value = some magnitude := by
      cases hparsed : parseIntegerMagnitude value with
      | some magnitude => exact ⟨magnitude, rfl⟩
      | none =>
        rw [analyzeExpression, hparsed] at hanalyzed
        cases hanalyzed
    refine ⟨[⟨.integer value, value⟩], rfl, rfl, ?_⟩
    simpa [bounds, hexadecimalInteger] using Use.lowered_raw_iff hparsed
  | _ => exact hother fun value heq => nomatch heq

variable {type : Text} {left : Expression}

theorem callback_ne_unsigned (h : type = "type".toList ∨ isCallbackType type = true) :
    type ≠ "unsigned".toList := by
  rintro rfl
  rcases h with h | h
  · revert h
    decide
  · revert h
    decide +kernel

theorem emits_integer {value expectedType : Text}
    (h : analyzeExpression binaryType (.integer value) expectedType = .ok type) :
    Emits binaryType (.integer value) expectedType type := by
  rw [analyzeExpression] at h
  cases hparsed : parseIntegerMagnitude value with
  | none =>
    rw [hparsed] at h
    cases h
  | some magnitude =>
    rw [hparsed] at h
    dsimp only at h
    have hemission := Emission.one (Use.lowered_integer hparsed)
    by_cases hunsigned : expectedType = "unsigned".toList
    · rw [if_pos hunsigned] at h
      cases h
      exact ⟨_, by rw [emitExpression, if_pos hunsigned], hemission⟩
    · rw [if_neg hunsigned] at h
      split at h
      · cases h
      · cases h
        exact ⟨_, by rw [emitExpression, if_neg hunsigned], hemission⟩

theorem emits_unsigned {value expectedType : Text}
    (h : analyzeExpression binaryType (.unsigned value) expectedType = .ok type) :
    Emits binaryType (.unsigned value) expectedType type := by
  rw [analyzeExpression] at h
  cases hparsed : parseIntegerMagnitude value.dropLast with
  | none =>
    rw [hparsed] at h
    cases h
  | some magnitude =>
    rw [hparsed] at h
    cases h
    exact ⟨_, by rw [emitExpression], Emission.one (Use.lowered_unsigned hparsed)⟩

theorem sliceBound_spec {present : Bool} {e : Expression}
    (hemits : ∀ type, analyzeExpression binaryType e [] = .ok type → Emits binaryType e [] type)
    (h : (if present then analyzeExpression binaryType e [] else .ok "int".toList) =
    .ok "int".toList) :
    ∃ uses, (if present then integerOperand e (emitExpression binaryType e []) else .ok []) =
      .ok uses ∧
      Emission uses (if present then literals e else []) (if present then e :: bounds binaryType e
      else []) := by
  cases present with
  | false => exact ⟨[], rfl, Emission.nil⟩
  | true => exact integerOperand_spec h (hemits _ h)

/-- The expression is emitted with the type that it is analyzed with, whatever
    is expected. -/
def Kept (binaryType : Text → Text → Text → Except Text Text) (e : Expression) : Prop :=
  ∀ expectedType type, analyzeExpression binaryType e expectedType = .ok type →
    Emits binaryType e expectedType type

theorem Kept.enumConstant (value : Int) : Kept binaryType (.enumConstant value) := by
  intro expectedType type h
  rw [analyzeExpression] at h
  cases h
  have hlowered : Use.Lowered ⟨.enumConstant value, toString value⟩ :=
    ⟨value, rfl, signedNumeral_toString value⟩
  exact ⟨_, by rw [emitExpression], Emission.one hlowered⟩

theorem Kept.operand (operandType : Text) : Kept binaryType (.operand operandType) := by
  intro expectedType type h
  rw [analyzeExpression] at h
  cases h
  exact ⟨[], by rw [emitExpression], Emission.nil⟩

theorem Kept.unary {operation : Char} (keptLeft : Kept binaryType left) :
    Kept binaryType (.unary operation left) := by
  intro expectedType type h
  rw [analyzeExpression] at h
  unfold Emits
  rw [literals, bounds, emitExpression]
  by_cases hminimum : operation = '-' ∧ isMinimumIntegerMagnitude left = true
  · rw [if_pos hminimum] at h
    rw [if_pos hminimum, if_pos hminimum]
    cases h
    have hnone : bounds binaryType left = [] := by
      cases left with
      | integer value => rw [bounds]
      | _ => cases hminimum.2
    rw [hnone]
    obtain ⟨rfl, hleft⟩ := hminimum
    exact ⟨_, rfl, Emission.one (Use.lowered_minimum hleft)⟩
  · rw [if_neg hminimum] at h
    rw [if_neg hminimum, if_neg hminimum]
    obtain ⟨operand, hleft, h⟩ := bind_eq_ok.mp h
    obtain ⟨uses, hemitted, hemission⟩ := keptLeft _ _ hleft
    refine ⟨uses, ?_, hemission⟩
    rw [hemitted]
    dsimp only [bind, Except.bind]
    by_cases hnot : operation = '!'
    · rw [if_pos hnot] at h
      split at h
      · cases h
        subst hnot
        rfl
      · cases h
    · rw [if_neg hnot] at h
      split at h
      · next hsign =>
        cases h
        exact if_pos (hsign.imp And.left And.left)
      · cases h

theorem Kept.binary {operation : Text} {right : Expression} (keptLeft : Kept binaryType left)
    (keptRight : Kept binaryType right) : Kept binaryType (.binary operation left right) := by
  intro expectedType type h
  rw [analyzeExpression] at h
  obtain ⟨leftType, hleft, h⟩ := bind_eq_ok.mp h
  obtain ⟨rightType, hright, h⟩ := bind_eq_ok.mp h
  obtain ⟨leftUses, hleftEmitted, hleftEmission⟩ := keptLeft _ _ hleft
  -- the two passes expect different types of the right operand
  have hright : analyzeExpression binaryType right
      (if leftType = "type".toList then leftType else []) = .ok rightType := by
    split at hright
    · next hexpected =>
      rw [analyzeExpression_ordinary (callback_ne_unsigned hexpected)] at hright
      split
      · next htype => rw [analyzeExpression_ordinary (callback_ne_unsigned (Or.inl htype)), hright]
      · exact hright
    · next hexpected =>
      rw [if_neg fun htype => hexpected (Or.inl htype)]
      exact hright
  obtain ⟨rightUses, hrightEmitted, hrightEmission⟩ := keptRight _ _ hright
  refine ⟨leftUses ++ rightUses,
    ?_, by rw [literals, bounds]; exact hleftEmission.append hrightEmission⟩
  rw [emitExpression]
  exact bind_eq_ok.mpr ⟨_, hleftEmitted, bind_eq_ok.mpr ⟨_, hrightEmitted,
    bind_eq_ok.mpr ⟨_, h, rfl⟩⟩⟩

theorem Kept.index {position : Expression} (keptLeft : Kept binaryType left)
    (keptPosition : Kept binaryType position) : Kept binaryType (.index left position) := by
  intro expectedType type h
  rw [analyzeExpression] at h
  obtain ⟨collectionType, hleft, h⟩ := bind_eq_ok.mp h
  obtain ⟨uses, hemitted, hemission⟩ := keptLeft _ _ hleft
  split at h
  · next hcollection =>
    obtain ⟨positionType, hposition, h⟩ := bind_eq_ok.mp h
    obtain ⟨positionUses, hpositionEmitted, hpositionEmission⟩ := keptPosition _ _ hposition
    unfold Emits
    rw [literals, bounds, emitExpression, hemitted]
    dsimp only [bind, Except.bind]
    by_cases hdict : collectionType = "dict".toList
    · subst hdict
      rw [if_pos rfl] at h
      split at h
      · next hkey =>
        cases h
        -- a key is a string
        have hlast : hexadecimalInteger position = false := by
          cases position with
          | integer value =>
            rw [analyzeExpression] at hposition
            subst hkey
            split at hposition
            · cases hposition
            · rw [if_neg (by decide)] at hposition
              split at hposition
              · cases hposition
              · cases hposition
          | _ => rfl
        refine ⟨uses ++ positionUses, ?_, (hemission.append hpositionEmission).literals_eq, ?_⟩
        · rw [if_neg (by decide), if_neg (by decide), hpositionEmitted]
        · rw [(hemission.append hpositionEmission).lowered_iff, List.forall_mem_append,
            List.forall_mem_append,
            List.forall_mem_cons]
          exact ⟨fun h => ⟨h.1, hlast, h.2⟩, fun h => ⟨h.1, h.2.2⟩⟩
      · cases h
    · rw [if_neg hdict] at h
      split at h
      · cases h
      · next hint =>
        have hint := not_not.mp hint
        cases h
        subst hint
        obtain ⟨boundUses, hbound, hboundEmission⟩ :=
          integerOperand_spec hposition ⟨_, hpositionEmitted, hpositionEmission⟩
        refine ⟨uses ++ boundUses, ?_, hemission.append hboundEmission⟩
        rw [hbound]
        by_cases hlist : collectionType = "list".toList
        · rw [if_pos hlist, if_pos hlist]
        · have hbuffer : collectionType = "buffer".toList := by
            simp only [collectionTypes, List.map_cons, List.map_nil, List.mem_cons,
              List.not_mem_nil, or_false] at hcollection
            exact (hcollection.resolve_left hlist).resolve_left hdict
          rw [if_neg hlist, if_neg hlist, if_pos hbuffer]
  · cases h

theorem Kept.slice {left start stop step : Expression} {hasStart hasEnd hasStep : Bool}
    (keptLeft : Kept binaryType left) (keptStart : Kept binaryType start)
    (keptStop : Kept binaryType stop)
    (keptStep : Kept binaryType step) :
    Kept binaryType (.slice left start stop step hasStart hasEnd hasStep) := by
  intro expectedType type h
  rw [analyzeExpression] at h
  obtain ⟨collectionType, hleft, h⟩ := bind_eq_ok.mp h
  obtain ⟨uses, hemitted, hemission⟩ := keptLeft _ _ hleft
  split at h
  · cases h
  · split at h
    · obtain ⟨startType, hstart, h⟩ := bind_eq_ok.mp h
      obtain ⟨stopType, hstop, h⟩ := bind_eq_ok.mp h
      split at h
      · cases h
      · next hints =>
        obtain ⟨hstartInt, hstopInt⟩ := not_or.mp hints
        obtain ⟨stepType, hstep, h⟩ := bind_eq_ok.mp h
        split at h
        · cases h
        · next hstepInt =>
          split at h
          · cases h
          · cases h
            rw [not_not.mp hstartInt] at hstart
            rw [not_not.mp hstopInt] at hstop
            rw [not_not.mp hstepInt] at hstep
            obtain ⟨startUses, hstartOperand, hstartEmission⟩ :=
              sliceBound_spec (keptStart []) hstart
            obtain ⟨stopUses, hstopOperand, hstopEmission⟩ := sliceBound_spec (keptStop []) hstop
            obtain ⟨stepUses, hstepOperand, hstepEmission⟩ := sliceBound_spec (keptStep []) hstep
            refine ⟨uses ++ startUses ++ stopUses ++ stepUses, ?_, ?_⟩
            · rw [emitExpression]
              exact bind_eq_ok.mpr ⟨_, hemitted, bind_eq_ok.mpr ⟨_, hstartOperand,
                bind_eq_ok.mpr ⟨_, hstopOperand, bind_eq_ok.mpr ⟨_, hstepOperand, rfl⟩⟩⟩⟩
            · rw [literals, bounds]
              exact ((hemission.append hstartEmission).append hstopEmission).append hstepEmission
    · cases h

theorem Kept.buffer {length : Expression} (keptLength : Kept binaryType length) :
    Kept binaryType (.buffer length) := by
  intro expectedType type h
  rw [analyzeExpression] at h
  obtain ⟨lengthType, hlength, h⟩ := bind_eq_ok.mp h
  split at h
  · next hint =>
    cases h
    subst hint
    obtain ⟨uses, hoperand, hemission⟩ := integerOperand_spec hlength (keptLength _ _ hlength)
    refine ⟨uses, ?_, by rw [literals, bounds]; exact hemission⟩
    rw [emitExpression]
    exact bind_eq_ok.mpr ⟨_, hoperand, rfl⟩
  · cases h

theorem Kept.resize {receiver length : Expression} (keptReceiver : Kept binaryType receiver)
    (keptLength : Kept binaryType length) : Kept binaryType (.resize receiver length) := by
  intro expectedType type h
  rw [analyzeExpression] at h
  obtain ⟨receiverType, hreceiver, h⟩ := bind_eq_ok.mp h
  obtain ⟨uses, hemitted, hemission⟩ := keptReceiver _ _ hreceiver
  split at h
  · obtain ⟨lengthType, hlength, h⟩ := bind_eq_ok.mp h
    split at h
    · next hint =>
      cases h
      subst hint
      obtain ⟨lengthUses, hlengthEmitted, hlengthEmission⟩ := keptLength _ _ hlength
      unfold Emits
      rw [literals, bounds, emitExpression, hreceiver, hemitted]
      dsimp only [bind, Except.bind]
      by_cases hlist : receiverType = "list".toList
      · rw [if_pos hlist, if_pos hlist, hlengthEmitted]
        exact ⟨_, rfl, hemission.append hlengthEmission⟩
      · rw [if_neg hlist, if_neg hlist]
        obtain ⟨operandUses, hoperand, hoperandEmission⟩ :=
          integerOperand_spec hlength ⟨_, hlengthEmitted, hlengthEmission⟩
        rw [hoperand]
        exact ⟨_, rfl, hemission.append hoperandEmission⟩
    · split at h
      · cases h
      · cases h
  · cases h

mutual

theorem kept : ∀ e : Expression, Kept binaryType e
  | .integer _ => fun _ _ => emits_integer
  | .unsigned _ => fun _ _ => emits_unsigned
  | .enumConstant value => .enumConstant value
  | .operand type => .operand type
  | .unary _ left => (kept left).unary
  | .binary _ left right => (kept left).binary (kept right)
  | .index left position => (kept left).index (kept position)
  | .slice left start stop step _ _ _ => (kept left).slice (kept start) (kept stop) (kept step)
  | .buffer length => (kept length).buffer
  | .resize receiver length => (kept receiver).resize (kept length)
  | .call _ arguments => by
    intro expectedType type h
    rw [analyzeExpression] at h
    obtain ⟨_, harguments, h⟩ := bind_eq_ok.mp h
    cases h
    obtain ⟨uses, hemitted, hemission⟩ := arguments_kept arguments harguments
    refine ⟨uses, ?_, by rw [literals, bounds]; exact hemission⟩
    rw [emitExpression]
    exact bind_eq_ok.mpr ⟨_, hemitted, rfl⟩

theorem arguments_kept : ∀ arguments : Arguments, analyzeArguments binaryType arguments = .ok () →
    ∃ uses, emitArguments binaryType arguments = .ok uses ∧
      Emission uses (argumentLiterals arguments) (argumentBounds binaryType arguments)
  | .nil, _ => ⟨[], by rw [emitArguments], Emission.nil⟩
  | .cons parameter argument rest, h => by
    rw [analyzeArguments] at h
    obtain ⟨type, hargument, h⟩ := bind_eq_ok.mp h
    obtain ⟨uses, hemitted, hemission⟩ := kept argument _ _ hargument
    obtain ⟨restUses, hrest, hrestEmission⟩ := arguments_kept rest h
    refine ⟨uses ++ restUses,
      ?_, by rw [argumentLiterals, argumentBounds]; exact hemission.append hrestEmission⟩
    rw [emitArguments]
    exact bind_eq_ok.mpr ⟨_, hemitted, bind_eq_ok.mpr ⟨_, hrest, rfl⟩⟩

end

end

/-! ## Elements that are assigned to -/

section

variable {binaryType : Text → Text → Text → Except Text Text} {left position : Expression}

theorem analyzeElement_of_target {type : Text}
    (h : analyzeElementTarget binaryType left position = .ok type) :
    ∃ type, analyzeExpression binaryType (.index left position) [] = .ok type := by
  rw [analyzeElementTarget] at h
  obtain ⟨collectionType, hleft, h⟩ := bind_eq_ok.mp h
  rw [analyzeExpression, hleft]
  split at h
  · next hcollection =>
    obtain ⟨positionType, hposition, h⟩ := bind_eq_ok.mp h
    dsimp only [bind, Except.bind]
    rw [if_pos hcollection, hposition]
    dsimp only
    split at h
    · next hdict =>
      rw [if_pos hdict]
      split at h
      · next hkey => exact ⟨_, if_pos hkey⟩
      · cases h
    · next hdict =>
      rw [if_neg hdict]
      split at h
      · cases h
      · next hint => exact ⟨_, if_neg hint⟩
  · cases h

/-- An element is emitted alike where it is read and where it is assigned to. -/
theorem emitElementTarget_uses :
    (emitElementTarget binaryType left position).map Prod.snd =
      (emitExpression binaryType (.index left position) []).map Prod.snd := by
  rw [emitElementTarget, emitExpression]
  cases emitExpression binaryType left [] with
  | error message => rfl
  | ok emitted =>
    dsimp only [bind, Except.bind]
    split
    · rfl
    · split
      · cases integerOperand position (emitExpression binaryType position []) <;> rfl
      · rfl

theorem emitElementTarget_iff {uses : List Use} :
    (∃ type, emitElementTarget binaryType left position = .ok (type, uses)) ↔
      ∃ type, emitExpression binaryType (.index left position) [] = .ok (type, uses) := by
  have huses {emitted : Except Text (Text × List Use)} :
      (∃ type, emitted = .ok (type, uses)) ↔ emitted.map Prod.snd = .ok uses := by
    cases emitted <;> simp [Except.map, Prod.ext_iff]
  rw [huses, huses, emitElementTarget_uses]

theorem lowersTarget_iff : LowersTarget binaryType left position ↔
    LowersLiterals binaryType (.index left position) [] := by
  constructor
  · rintro ⟨type, uses, hemitted, hlowered⟩
    obtain ⟨type', hemitted'⟩ := emitElementTarget_iff.mp ⟨type, hemitted⟩
    exact ⟨type', uses, hemitted', hlowered⟩
  · rintro ⟨type, uses, hemitted, hlowered⟩
    obtain ⟨type', hemitted'⟩ := emitElementTarget_iff.mpr ⟨type, hemitted⟩
    exact ⟨type', uses, hemitted', hlowered⟩

end

/-! ## Enum values -/

theorem constantOperation_value {operation : Text} {left right value : Int}
    (h : constantOperation operation left right = some value) :
    exactOperation operation left right = some value := by
  have hchecked {exact : Int} (h : checked exact = some value) : some exact = some value := by
    unfold checked at h
    split at h
    · exact h
    · cases h
  unfold exactOperation
  unfold constantOperation at h
  split at h
  · next hadd => rw [if_pos hadd, hchecked h]
  · next hadd =>
    rw [if_neg hadd]
    split at h
    · next hsub => rw [if_pos hsub, hchecked h]
    · next hsub =>
      rw [if_neg hsub]
      split at h
      · next hmul => rw [if_pos hmul, hchecked h]
      · next hmul =>
        rw [if_neg hmul]
        split at h
        · next hdiv =>
          rw [if_pos hdiv]
          split at h
          · next hright => rw [if_neg hright.1, h]
          · cases h
        · next hdiv =>
          rw [if_neg hdiv]
          split at h
          · next hmod =>
            rw [if_pos hmod]
            split at h
            · next hright => rw [if_neg hright.1, h]
            · cases h
          · cases h

theorem evaluateEnumExpression_value : ∀ {e : Expression} {value : Int},
    evaluateEnumExpression e = .ok value → mathValue e = some value
  | .integer literal, value, h => by
    rw [evaluateEnumExpression, require_eq_ok, constantInteger] at h
    split at h
    · next magnitude hparsed =>
      split at h
      · rw [mathValue, (magnitude_of_parse hparsed).1]
        exact h
      · cases h
    · cases h
  | .enumConstant _, value, h => by
    rw [evaluateEnumExpression] at h
    rw [mathValue, Except.ok.inj h]
  | .unary operation left, value, h => by
    rw [evaluateEnumExpression] at h
    split at h
    · next hminimum =>
      obtain ⟨rfl, hleft⟩ := hminimum
      obtain ⟨number, hnumber, hsame⟩ := Use.lowered_minimum hleft
      have heq : number = value := by
        rw [signedNumeral_minimum] at hsame
        rw [← Option.some.inj hsame, Except.ok.inj h]
      rw [← heq]
      exact hnumber
    · obtain ⟨operand, hleft, h⟩ := bind_eq_ok.mp h
      have hoperand := evaluateEnumExpression_value hleft
      rw [mathValue]
      split at h
      · next hplus =>
        rw [if_neg (by rw [hplus]; decide), if_pos hplus, hoperand, Except.ok.inj h]
      · split at h
        · next hminus =>
          rw [if_pos hminus, hoperand]
          split at h
          · cases h
          · rw [← Except.ok.inj h]
            rfl
        · cases h
  | .binary operation left right, value, h => by
    rw [evaluateEnumExpression] at h
    obtain ⟨leftValue, hleft, h⟩ := bind_eq_ok.mp h
    obtain ⟨rightValue, hright, h⟩ := bind_eq_ok.mp h
    split at h
    · cases h
    · split at h
      · rw [mathValue, evaluateEnumExpression_value hleft, evaluateEnumExpression_value hright]
        exact constantOperation_value (require_eq_ok.mp h)
      · cases h

/-! ## The law -/

theorem lowersLiterals_of_accepted {binaryType : Text → Text → Text → Except Text Text}
    {e : Expression}
    {expectedType type : Text}
    (hanalyzed : analyzeExpression binaryType e expectedType = .ok type) :
    LowersLiterals binaryType e expectedType ↔
      ∀ bound ∈ bounds binaryType e, hexadecimalInteger bound = false := by
  obtain ⟨uses, hemitted, hemission⟩ := kept e expectedType type hanalyzed
  rw [← hemission.lowered_iff]
  constructor
  · intro ⟨_, uses', hemitted', _, hlowered⟩
    rw [hemitted] at hemitted'
    have huses : uses = uses' := congrArg Prod.snd (Except.ok.inj hemitted')
    exact huses ▸ hlowered
  · intro hlowered
    exact ⟨type, uses, hemitted, hemission.literals_eq, hlowered⟩

/-- The literals of an accepted expression, and of an element that is assigned to,
    are emitted as the decimal constants of what they denote exactly if none that is
    a position, a slice bound or a buffer length is hexadecimal; an enum value always
    is. -/
theorem lowersLiterals_iff (binaryType : Text → Text → Text → Except Text Text) :
    (∀ e expectedType type, analyzeExpression binaryType e expectedType = .ok type →
      (LowersLiterals binaryType e expectedType ↔
        ∀ bound ∈ bounds binaryType e, hexadecimalInteger bound = false)) ∧
    (∀ left position type, analyzeElementTarget binaryType left position = .ok type →
      (LowersTarget binaryType left position ↔
        ∀ bound ∈ bounds binaryType (.index left position), hexadecimalInteger bound = false)) ∧
    ∀ initializer value, evaluateEnumExpression initializer = .ok value →
      mathValue initializer = some value ∧ signedNumeral (toString value) = some value := by
  refine ⟨fun e expectedType type h => lowersLiterals_of_accepted h, ?_, ?_⟩
  · intro left position type htarget
    obtain ⟨_, h⟩ := analyzeElement_of_target htarget
    rw [lowersTarget_iff, lowersLiterals_of_accepted h]
  · exact fun initializer value h => ⟨evaluateEnumExpression_value h, signedNumeral_toString value⟩

def hexadecimalPosition : Expression := .index (.operand "list".toList) (.integer "0x10".toList)

/-- A literal within a position. -/
def negatedPosition : Expression :=
  .index (.operand "list".toList) (.unary '-' (.integer "0x10".toList))

theorem negatedPosition_lowersLiterals :
    LowersLiterals (fun _ type _ => .ok type) negatedPosition [] ∧
      ¬ LowersLiterals (fun _ type _ => .ok type) hexadecimalPosition [] ∧
      ¬ LowersTarget (fun _ type _ => .ok type) (.operand "buffer".toList)
      (.integer "0x10".toList) := by
  obtain ⟨hexpressions, htargets, _⟩ := lowersLiterals_iff fun _ type _ => .ok type
  refine ⟨(hexpressions negatedPosition [] "any".toList (by rfl)).mpr (by decide), ?_, ?_⟩
  · rw [hexpressions hexadecimalPosition [] "any".toList (by rfl)]
    decide
  · rw [htargets _ _ "buffer-byte".toList (by rfl)]
    decide

/-- It is accepted, and emitted as `0x10`. -/
theorem hexadecimalPosition_raw :
    (analyzeExpression (fun _ type _ => .ok type) hexadecimalPosition [] = .ok "any".toList ∧
      emitExpression (fun _ type _ => .ok type) hexadecimalPosition [] =
        .ok ("any".toList, [⟨.integer "0x10".toList, "0x10".toList⟩])) ∧
    ¬ ∀ e expectedType type, analyzeExpression (fun _ type _ => .ok type) e expectedType =
      .ok type →
      LowersLiterals (fun _ type _ => .ok type) e expectedType := by
  refine ⟨⟨by rfl, by rfl⟩, fun hclaim => ?_⟩
  obtain ⟨type, uses, hemitted, _, hlowered⟩ := hclaim hexadecimalPosition [] "any".toList (by rfl)
  have huses : uses = [⟨.integer "0x10".toList, "0x10".toList⟩] :=
    (congrArg Prod.snd (Except.ok.inj hemitted)).symm
  subst huses
  obtain ⟨_, _, hnumber⟩ := hlowered _ List.mem_cons_self
  rw [signedNumeral_hexadecimal (by decide)] at hnumber
  cases hnumber

end Cwhip.CodeGen.Literals
