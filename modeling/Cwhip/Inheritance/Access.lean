/-
  Cwhip.Inheritance.Access

  Field accesses in the analyzer (`SemanticExpressions.cpp`, cases Identifier
  and Member) and in the code generator (`CodeGenerator.cpp`,
  `CodeGeneratorLayout.cpp`), and when they resolve to the same field of the
  same subobject.

  Assignment targets go through the same checks (`analyzeLValue`,
  `emitFieldBinding`).
-/

import Cwhip.Inheritance.Lookup
import Cwhip.Lib.Except

namespace Cwhip.Inheritance

open Cwhip.Lib

/-- An expression, as far as field access looks into it.  Base qualifiers
    already stand behind their implicit receiver. -/
inductive Access where
  /-- An identifier bound to a local or parameter of this type. -/
  | identifier (type : String)
  /-- An identifier that is not: a field of the current class. -/
  | fieldName (name : String)
  | implicitThis
  /-- An `as` cast to this class. -/
  | objectCast (type : String)
  /-- Any other expression of this type. -/
  | value (type : String)
  | member (left : Access) (name : String)
  deriving DecidableEq, Repr

/-- The field an access resolves to: the expression whose object it is in, and
    the subobject and declaration. -/
structure Target where
  root : Access
  found : FoundField
  deriving DecidableEq

structure Typed where
  type : String
  target : Option Target
  deriving DecidableEq

/-- The expression a chain of members starts from, and the names after it. -/
def Access.flatten : Access → Access × List String
  | .member left name => (left.flatten.1, left.flatten.2 ++ [name])
  | root => (root, [])

/-- The roots the generator's `resolveBaseQualifier` takes. -/
def Access.qualifiable : Access → Bool
  | .identifier _ | .fieldName _ | .objectCast _ | .implicitThis => true
  | _ => false

/-- A receiver that is a view of one of its root's bases. -/
structure Qualified where
  root : Access
  rootClass : ClassDeclaration
  path : List String
  view : ClassDeclaration
  place : Place String

/-- The loop of both `resolveBaseQualifier`s over the names after the root,
    with the place of the base it ends in. -/
def walkBases (p : Program) :
    List String → ClassDeclaration → Place String → Option (ClassDeclaration × Place String)
  | [], view, place => some (view, place)
  | name :: rest, view, place => do
    let index ← view.edges.findIdx? (fun base => base.2.label.name == name)
    let base ← view.edges[index]?
    let next ← p.find name
    walkBases p rest next ((fieldSearch name).enter place index base.1 base.2)

def qualify (p : Program) (root : Access) (type : String) (names : List String) :
    Option Qualified := do
  let rootClass ← p.find type
  let view ← walkBases p names rootClass whole
  return ⟨root, rootClass, names, view.1, view.2⟩

/-! ## The analyzer -/

namespace Context

variable (ctx : Context)

/-- A member access on the class `owner`, reached from `accessOwner` along
    `path`.  An enum constant is no field access. -/
def analyzeMember (accessOwner : ClassDeclaration) (path : List String) (owner : ClassDeclaration)
    (place : Place String) (name : String) : Except String FoundField := do
  ensure (ctx.accessibleMemberCount owner name ≤ 1)
    (if countEnumMembers owner name = 0 then
      s!"ambiguous inherited field '{name}'; qualify it through a base class"
    else s!"ambiguous inherited member '{name}'; qualify it through a base class")
  ensure (¬ ((countFields owner name ≠ 0 ∨ countEnumMembers owner name ≠ 0) ∧
      (ctx.accessibleMemberCount owner name = 0 ∨
        (path ≠ [] ∧ ctx.basePathAccessible accessOwner path = false))))
    (if countEnumMembers owner name = 0 then
      s!"field '{name}' is not accessible through this inheritance path"
    else s!"enum member '{name}' is not accessible through this inheritance path")
  ensure (countEnumMembers owner name = 0) s!"enum constant '{name}'"
  require (ctx.findField owner name place)
    s!"class '{owner.label.name}' has no field '{name}'"

/-- An identifier that is not a local or parameter. -/
def analyzeFieldName (name : String) : Except String FoundField := do
  let current ← require ctx.currentClass s!"undefined variable '{name}' or field"
  ensure (¬ (countEnumMembers current name ≠ 0 ∧ 1 < ctx.accessibleMemberCount current name))
    s!"ambiguous inherited member '{name}'; qualify it through a base class"
  ensure (¬ (countFields current name ≠ 0 ∧ ctx.accessibleMemberCount current name = 0))
    s!"field '{name}' is not accessible in this class"
  ensure (countFields current name ≤ 1)
    s!"ambiguous inherited field '{name}'; qualify it through a base class"
  let found ← require (ctx.findField current name whole) s!"undefined variable '{name}' or field"
  ensure (ctx.memberAccessible current name = true)
    s!"field '{name}' is not accessible in this class"
  return found

/-- Expressions that are no member access. -/
def analyzeRoot : Access → Except String Typed
  | .identifier type => .ok ⟨type, none⟩
  | .fieldName name => do
    let found ← ctx.analyzeFieldName name
    return ⟨found.field.type, some ⟨.implicitThis, found⟩⟩
  | .implicitThis => do
    let current ← require ctx.currentClass "no current class"
    return ⟨current.label.name, none⟩
  | .objectCast type => .ok ⟨type, none⟩
  | .value type => .ok ⟨type, none⟩
  | .member _ _ => .error "not a root"

/-- `SemanticAnalyzer::resolveBaseQualifier`. -/
def resolveBaseQualifier (receiver : Access) : Except String (Option Qualified) :=
  match receiver.flatten.2 with
  | [] => .ok none
  | names => do
    let root ← ctx.analyzeRoot receiver.flatten.1
    return qualify ctx.program receiver.flatten.1 root.type names

/-- `SemanticAnalyzer::analyzeExpression` on field accesses. -/
def analyze : Access → Except String Typed
  | .member left name =>
    match ctx.resolveBaseQualifier left with
    | .error message => .error message
    | .ok (some q) => do
      let found ← ctx.analyzeMember q.rootClass q.path q.view q.place name
      return ⟨found.field.type, some ⟨q.root, found⟩⟩
    | .ok none => do
      let receiver ← analyze left
      let owner ← require (ctx.program.find receiver.type)
        s!"unknown class '{receiver.type}'"
      let found ← ctx.analyzeMember owner [] owner whole name
      return ⟨found.field.type, some ⟨left, found⟩⟩
  | .identifier type => ctx.analyzeRoot (.identifier type)
  | .fieldName name => ctx.analyzeRoot (.fieldName name)
  | .implicitThis => ctx.analyzeRoot .implicitThis
  | .objectCast type => ctx.analyzeRoot (.objectCast type)
  | .value type => ctx.analyzeRoot (.value type)

/-! ## The code generator -/

/-- The field the generator finds in `owner` and the address it computes from
    an object at `place`, with the type it gives the result. -/
def emitField (name : String) (owner : ClassDeclaration) (place : Place String) :
    Option (String × FoundField) := do
  let found ← findFieldPath name owner
  let address ← fieldAddress ctx.program found.1 owner place
  return (found.2.type, address)

/-- Expressions that are no member access; an unbound identifier is a field of
    the object at `%this` (`findVariable`, `emitAddress`). -/
def emitRoot : Access → Option Typed
  | .identifier type => some ⟨type, none⟩
  | .fieldName name => do
    let current ← ctx.currentClass
    let found ← ctx.emitField name current whole
    return ⟨found.1, some ⟨.implicitThis, found.2⟩⟩
  | .implicitThis => do
    let current ← ctx.currentClass
    return ⟨current.label.name, none⟩
  | .objectCast type => some ⟨type, none⟩
  | .value type => some ⟨type, none⟩
  | .member _ _ => none

/-- `CodeGenerator::resolveBaseQualifier`. -/
def emitQualifier (receiver : Access) : Option Qualified :=
  match receiver.flatten.2 with
  | [] => none
  | names =>
    if receiver.flatten.1.qualifiable then do
      let root ← ctx.emitRoot receiver.flatten.1
      qualify ctx.program receiver.flatten.1 root.type names
    else none

/-- `CodeGenerator::emitExpression` on field accesses. -/
def emit : Access → Option Typed
  | .member left name =>
    match ctx.emitQualifier left with
    | some q => do
      let object ← subobjectAddress ctx.program q.path q.rootClass whole
      let found ← ctx.emitField name q.view object.2
      return ⟨found.1, some ⟨q.root, found.2⟩⟩
    | none => do
      let receiver ← emit left
      let owner ← ctx.program.find receiver.type
      let found ← ctx.emitField name owner whole
      return ⟨found.1, some ⟨left, found.2⟩⟩
  | .identifier type => ctx.emitRoot (.identifier type)
  | .fieldName name => ctx.emitRoot (.fieldName name)
  | .implicitThis => ctx.emitRoot .implicitThis
  | .objectCast type => ctx.emitRoot (.objectCast type)
  | .value type => ctx.emitRoot (.value type)

end Context

end Cwhip.Inheritance
