/-
  Cwhip.CodeGen.EmissionUnits

  The functions that each emission unit defines and declares
  (`CodeGeneratorModule.cpp`, and the loop of `main.cpp` over the modules).

  The program is emitted once for the main unit and once for each package.  A
  unit defines the methods, destructor copies and finalizers of its own classes
  and declares the methods and finalizers of the others.  Metadata and thunks of
  all classes are emitted in each unit.
-/

import Cwhip.CodeGen.SymbolsDistinct
import Cwhip.CodeGen.ObjectLayout

namespace Cwhip.CodeGen

open Cwhip.Lib
open Cwhip.Inheritance (AccessLevel BaseInfo)

/-! ## Types and names of functions -/

/-- `CodeGenerator::llvmType` -/
def llvmTypeName (type : Text) : Text :=
  if type = "int".toList then "i64".toList
  else if type = "bool".toList then "i1".toList
  else if type = "float".toList then "double".toList
  else if type = "unsigned".toList then "i64".toList
  else if type = "String".toList then "ptr".toList
  else if type = dynamicType then "%CwhipArrayValue".toList
  else if type = "type".toList then "%CwhipString".toList
  else if type = "void".toList then "void".toList
  else "ptr".toList

structure FunctionType where
  returnType : Text
  parameters : List Text
  deriving DecidableEq

inductive EmittedFunction where
  /-- A native function that methods are bound to. -/
  | external (externalSymbol : Text)
  | method (owner : ClassInfo) (declaration : MethodDeclaration)
  | destroyCopy (dynamicOwner : ClassInfo) (index : Nat) (destroyed : ClassInfo)
  | finalizer (dynamicOwner : ClassInfo)
  deriving DecidableEq

def EmittedFunction.symbol : EmittedFunction → Text
  | .external externalSymbol => '@' :: externalSymbol
  | .method owner declaration => methodSymbol owner.name declaration
  | .destroyCopy dynamicOwner index destroyed => destroyCopyName dynamicOwner index destroyed
  | .finalizer dynamicOwner => finalizerName dynamicOwner

/-- A `define` or a `declare` of a unit. -/
structure FunctionEntry where
  function : EmittedFunction
  symbol : Text
  type : FunctionType
  defined : Bool
  deriving DecidableEq

/-- A use of a function in metadata or in emitted code, with the type it is used
    at. -/
structure Reference where
  function : EmittedFunction
  type : FunctionType

def methodType (method : MethodDeclaration) : FunctionType :=
  ⟨llvmTypeName method.returnType,
    "ptr".toList :: ((if method.isConstructor then ["i1".toList] else []) ++
      method.parameters.map llvmTypeName)⟩

/-- `void (ptr)` -/
def finalizerType : FunctionType := ⟨"void".toList, ["ptr".toList]⟩

/-! ## Units -/

structure OutOfLineMethodDefinition where
  className : Text
  method : MethodDeclaration
  /-- The native function that the method is bound to. -/
  externalSymbol : Option Text

/-- An accepted program with the packages it loads. -/
structure EmissionUnits where
  program : Program
  /-- The names of `moduleLoad.modules`. -/
  modules : List Text
  /-- Each module is loaded once. -/
  modulesDistinct : modules.Nodup
  modulesNamed : [] ∉ modules
  /-- Classes come from the main source or from a loaded module. -/
  loaded : ∀ c ∈ program.classes, c.label.moduleName = [] ∨ c.label.moduleName ∈ modules
  /-- `makeBuiltinExceptionClass` -/
  builtin : ∀ c ∈ program.classes, c.label.builtin = true → ∀ method ∈ c.label.methods,
    method.isDestructor = false
  /-- Constructors and destructors return nothing. -/
  returnNothing : ∀ c ∈ program.classes, ∀ method ∈ c.label.methods,
    method.ordinary = false → method.returnType = "void".toList
  /-- The destructor syntax declares no constructor. -/
  destructors : ∀ c ∈ program.classes, ∀ method ∈ c.label.methods,
    method.isDestructor = true → method.isConstructor = false
  outOfLineMethods : List OutOfLineMethodDefinition
  /-- "out-of-line definition signature does not match declaration", and the
      name of a constructor is that of its class. -/
  matching : ∀ definition ∈ outOfLineMethods, ∃ c ∈ program.classes,
    c.label.name = definition.className ∧ ∃ declaration ∈ c.label.methods,
      declaration.name = definition.method.name ∧
      declaration.parameters = definition.method.parameters ∧
      declaration.returnType = definition.method.returnType ∧
      declaration.isConstructor = definition.method.isConstructor ∧
      declaration.isDestructor = definition.method.isDestructor
  /-- The constructors that the code of a module calls. -/
  constructorCalls : Text → List (ClassDeclaration × MethodDeclaration)
  constructorsDeclared : ∀ generatingModule, ∀ call ∈ constructorCalls generatingModule,
    call.1 ∈ program.classes ∧ call.2 ∈ call.1.label.methods ∧ call.2.isConstructor = true

namespace EmissionUnits

variable (e : EmissionUnits)

/-- The main unit, and one for each module. -/
def units : List Text := [] :: e.modules

/-- `methodDefinitions_.find` -/
def findDefinition (owner : ClassInfo) (declaration : MethodDeclaration) :
    Option OutOfLineMethodDefinition :=
  e.outOfLineMethods.find? fun definition =>
    definition.className ++ '.' :: methodSignatureKey definition.method
      == owner.name ++ '.' :: methodSignatureKey declaration

/-- The method that `emitMethod` emits for a declaration. -/
def emittedMethod (owner : ClassInfo) (declaration : MethodDeclaration) : MethodDeclaration :=
  match e.findDefinition owner declaration with
  | some definition => definition.method
  | none => declaration

/-- `externMethodDeclaration` -/
def externType (method : MethodDeclaration) : FunctionType :=
  ⟨if method.returnType = "bool".toList then "zeroext i1".toList
    else llvmTypeName method.returnType,
    "ptr".toList :: method.parameters.map fun type =>
      if type = "bool".toList then "i1 zeroext".toList else llvmTypeName type⟩

/-- The native functions, each declared where it is first bound. -/
def externDeclarations : List OutOfLineMethodDefinition → List Text → List FunctionEntry
  | [], _ => []
  | definition :: rest, declared =>
    match definition.externalSymbol with
    | none => externDeclarations rest declared
    | some externalSymbol =>
      if externalSymbol ∈ declared then externDeclarations rest declared
      else
        ⟨.external externalSymbol, '@' :: externalSymbol, externType definition.method, false⟩ ::
          externDeclarations rest (externalSymbol :: declared)

/-- `emitMethod` under its own symbol. -/
def emitMethod (owner : ClassInfo) (declaration : MethodDeclaration) : FunctionEntry :=
  let method := e.emittedMethod owner declaration
  ⟨.method owner declaration, methodSymbol owner.name method, methodType method, true⟩

def declareMethod (owner : ClassInfo) (method : MethodDeclaration) : FunctionEntry :=
  ⟨.method owner method, methodSymbol owner.name method, methodType method, false⟩

def declareFinalizer (owner : ClassInfo) : FunctionEntry :=
  ⟨.finalizer owner, finalizerName owner, finalizerType, false⟩

def classMethods (generatingModule : Text) (owner : ClassInfo) : List FunctionEntry :=
  if owner.moduleName != generatingModule then
    owner.methods.map (declareMethod owner) ++ [declareFinalizer owner]
  else owner.methods.map (e.emitMethod owner)

/-- `emitMethod` under the symbol of a destructor copy. -/
def emitDestroyCopy (dynamicOwner : ClassInfo) (call : ClassInfo × Nat) : FunctionEntry :=
  ⟨.destroyCopy dynamicOwner call.2 call.1, destroyCopyName dynamicOwner call.2 call.1,
    match call.1.methods.find? MethodDeclaration.isDestructor with
    | some method => methodType (e.emittedMethod call.1 method)
    | none => finalizerType, true⟩

def classCopies (generatingModule : Text) (dynamicOwner : ClassDeclaration) : List FunctionEntry :=
  if dynamicOwner.label.moduleName != generatingModule then []
  else (destructorChain e.program dynamicOwner).zipIdx.map (e.emitDestroyCopy dynamicOwner.label)

def classFinalizer (generatingModule : Text) (dynamicOwner : ClassDeclaration) :
    List FunctionEntry :=
  if dynamicOwner.label.moduleName != generatingModule then []
  else if destructorChain e.program dynamicOwner = [] then []
  else [⟨.finalizer dynamicOwner.label, finalizerName dynamicOwner.label, finalizerType, true⟩]

/-- The functions of a unit that are not private to it. -/
def emitted (generatingModule : Text) : List FunctionEntry :=
  externDeclarations e.outOfLineMethods [] ++
    (e.program.classes.flatMap (fun owner => e.classMethods generatingModule owner.label) ++
      (e.program.classes.flatMap (e.classCopies generatingModule) ++
        e.program.classes.flatMap (e.classFinalizer generatingModule)))

/-- The definitions of all units. -/
def definitions : List (Text × FunctionEntry) :=
  e.units.flatMap fun generatingModule =>
    ((e.emitted generatingModule).filter FunctionEntry.defined).map (Prod.mk generatingModule)

end EmissionUnits

/-! ## References -/

mutual

/-- `containsDestructor` -/
def containsDestructor : ClassDeclaration → Bool
  | .node info bases =>
    info.methods.any MethodDeclaration.isDestructor || basesContainDestructor bases

def basesContainDestructor : Edges ClassInfo BaseInfo → Bool
  | .nil => false
  | .cons _ base rest => containsDestructor base || basesContainDestructor rest

end

namespace EmissionUnits

variable (e : EmissionUnits)

def finalizerPointer (owner : ClassDeclaration) : Bool :=
  !owner.label.builtin && containsDestructor owner

def thunkCalls (owner : ClassDeclaration) (view : List Text × ClassDeclaration) : List Reference :=
  (methodSlots view.2).filterMap fun slot =>
    (implementation e.program owner view slot).map fun impl =>
      ⟨.method impl.owner.label impl.method,
        ⟨llvmTypeName impl.method.returnType,
          "ptr".toList :: impl.method.parameters.map llvmTypeName⟩⟩

def finalizerCalls (generatingModule : Text) (dynamicOwner : ClassDeclaration) : List Reference :=
  if dynamicOwner.label.moduleName != generatingModule then []
  else (destructorChain e.program dynamicOwner).zipIdx.map fun call =>
    ⟨.destroyCopy dynamicOwner.label call.2 call.1, finalizerType⟩

def constructorCall (call : ClassDeclaration × MethodDeclaration) : Reference :=
  ⟨.method call.1.label call.2, ⟨"void".toList,
    "ptr".toList :: "i1".toList :: call.2.parameters.map llvmTypeName⟩⟩

/-- The methods, destructor copies and finalizers that a unit uses. -/
def references (generatingModule : Text) : List Reference :=
  (e.program.classes.filter finalizerPointer).map (fun owner => ⟨.finalizer owner.label,
    finalizerType⟩) ++
    (e.program.classes.flatMap (fun owner => (subobjects owner).flatMap (e.thunkCalls owner)) ++
      (e.program.classes.flatMap (e.finalizerCalls generatingModule) ++
        (e.constructorCalls generatingModule).map constructorCall))

/-- The functions of a class that some unit is to define. -/
def classFunctions (c : ClassDeclaration) : List EmittedFunction :=
  c.label.methods.map (.method c.label) ++
    ((destructorChain e.program c).zipIdx.map (fun call => .destroyCopy c.label call.2 call.1) ++
      if destructorChain e.program c = [] then [] else [.finalizer c.label])

/-- The entries of a unit for a symbol; LLVM takes one. -/
def occurrences (entries : List FunctionEntry) (symbol : Text) : List FunctionEntry :=
  entries.filter fun entry => entry.symbol == symbol

end EmissionUnits

structure Partitioned (e : EmissionUnits) : Prop where
  /-- Each function of each class is defined in one unit, and no other function
      is defined under its symbol. -/
  defined : ∀ c ∈ e.program.classes, ∀ function ∈ e.classFunctions c, ∃ generatingModule ∈ e.units,
    ∃ entry : FunctionEntry, entry.function = function ∧
      e.definitions.filter (fun definition => definition.2.symbol == function.symbol)
        = [(generatingModule, entry)]
  /-- What a unit refers to is there once, at the type it is used at. -/
  linked : ∀ generatingModule ∈ e.units, ∀ reference ∈ e.references generatingModule,
    ∃ entry : FunctionEntry, entry.function = reference.function ∧ entry.type = reference.type ∧
      EmissionUnits.occurrences (e.emitted generatingModule) reference.function.symbol = [entry]
  /-- A function has one type in all units. -/
  typed : ∀ generatingModule ∈ e.units, ∀ entry ∈ e.emitted generatingModule,
    ∀ generatingModule' ∈ e.units, ∀ entry' ∈ e.emitted generatingModule',
      entry.function = entry'.function → entry.type = entry'.type
  finalizers : ∀ c ∈ e.program.classes, EmissionUnits.finalizerPointer c = true ↔
    ∃ generatingModule ∈ e.units, ∃ entry ∈ e.emitted generatingModule,
      entry.function = .finalizer c.label ∧ entry.defined = true

/-- A unit refers to a method: to ordinary ones with thunks, to constructors with
    calls. -/
def EmissionUnits.Refers (e : EmissionUnits) (generatingModule : Text) (c : ClassDeclaration)
    (method : MethodDeclaration) : Prop :=
  method.ordinary = true ∨ (c, method) ∈ e.constructorCalls generatingModule

/-- No symbol is used twice. -/
structure Unclashing (e : EmissionUnits) : Prop where
  /-- Where a method has the name of a finalizer there is no such finalizer, and
      the method is not used where one is declared. -/
  finalizers : ∀ c ∈ e.program.classes, ∀ method ∈ c.label.methods, method.parameters = [] →
    ∀ d ∈ e.program.classes, c.label.name ++ '.' :: method.name = finalizeName ++ '.' ::
      d.label.name →
      destructorChain e.program d = [] ∧ ∀ generatingModule ∈ e.units,
        generatingModule ≠ d.label.moduleName → ¬ e.Refers generatingModule c method
  /-- Native functions are named otherwise than what the units use. -/
  externals : ∀ definition ∈ e.outOfLineMethods, ∀ externalSymbol ∈ definition.externalSymbol,
    ∀ generatingModule ∈ e.units, ∀ reference ∈ e.references generatingModule,
      reference.function.symbol ≠ '@' :: externalSymbol

end Cwhip.CodeGen
