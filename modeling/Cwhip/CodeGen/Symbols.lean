/-
  Cwhip.CodeGen.Symbols

  The global names that one emitted module defines (`CodeGeneratorModule.cpp`,
  `CodeGenerator.cpp`): methods, thunks, method tables, metadata of classes and
  views, offset tables, finalizers and the copies of destructors they call.

  Every module defines the thunks, tables and metadata of all classes of the
  program, and the methods and finalizers of its own.
-/

import Cwhip.CodeGen.Slots

namespace Cwhip.CodeGen

open Cwhip.Lib
open Cwhip.Inheritance (AccessLevel BaseInfo)

/-! ## Names -/

@[irreducible] def methodStem : Text := "@cwhip.".toList

/-- What the names of generated globals start with. -/
inductive Stem where
  | thunk
  | finalizer
  | destroyCopy
  | methodTable
  | classMetadata
  | viewMetadata
  | referenceOffsets
  | dynamicReferenceOffsets
  | baseNames
  | exceptionMetadata
  | stringMetadata
  deriving DecidableEq

@[irreducible] def Stem.text : Stem → Text
  | .thunk => "@cwhip.thunk.".toList
  | .finalizer => "@cwhip.finalize.".toList
  | .destroyCopy => "@cwhip.destroy.".toList
  | .methodTable => "@.cw.method.table.".toList
  | .classMetadata => "@.cw.class.meta.".toList
  | .viewMetadata => "@.cw.view.meta.".toList
  | .referenceOffsets => "@.cw.reference.offsets.".toList
  | .dynamicReferenceOffsets => "@.cw.dynamic.reference.offsets.".toList
  | .baseNames => "@.cw.base.names.".toList
  | .exceptionMetadata => "@cwhip_exception_class_meta".toList
  | .stringMetadata => "@cwhip_string_class_meta".toList

@[irreducible] def rootTag : Text := "root".toList

@[irreducible] def stringClass : Text := "String".toList

/-- The name of a view in symbols. -/
def subobjectTag (path : List Text) : Text :=
  if path = [] then rootTag
  else path.foldl (fun tag name => (if 1 < tag.length then tag ++ ['_'] else tag) ++ name) ['p']

/-- `CodeGenerator::methodSymbol`. -/
def methodSymbol (className : Text) (method : MethodDeclaration) : Text :=
  if method.isDestructor then methodStem ++ (className ++ '.' :: method.name)
  else methodStem ++ (className ++ '.' :: (method.name ++ mangleParameters method.parameters))

def methodTableName (owner : ClassInfo) (path : List Text) : Text :=
  if path = [] then Stem.methodTable.text ++ owner.name
  else Stem.methodTable.text ++ (owner.name ++ '.' :: subobjectTag path)

def viewMetadataName (owner : ClassInfo) (path : List Text) : Text :=
  if owner.builtin = true ∧ path = [] then Stem.exceptionMetadata.text
  else if owner.name = stringClass ∧ path = [] then Stem.stringMetadata.text
  else if path = [] then Stem.classMetadata.text ++ owner.name
  else Stem.viewMetadata.text ++ (owner.name ++ '.' :: subobjectTag path)

def thunkName (owner : ClassInfo) (path : List Text) (slotIndex : Nat) : Text :=
  Stem.thunk.text ++ (owner.name ++ '.' :: (subobjectTag path ++ '.' :: decimal slotIndex))

def finalizerName (owner : ClassInfo) : Text := Stem.finalizer.text ++ owner.name

def destroyCopyName (owner : ClassInfo) (index : Nat) (destroyed : ClassInfo) : Text :=
  Stem.destroyCopy.text ++ (owner.name ++ '.' :: (decimal index ++ '.' :: destroyed.name))

/-! ## Field types -/

@[irreducible] def dynamicType : Text := "any".toList

def isDynamicValueType (type : Text) : Bool := type == dynamicType

@[irreducible] def referenceTypes : List Text :=
    ["list", "dict", "buffer", "String"].map String.toList

def isManagedReferenceType (p : Program) (type : Text) : Bool :=
  isCallbackType type || referenceTypes.contains type || (p.find type).isSome

/-- The types of the fields of the whole object. -/
def objectFields (owner : ClassDeclaration) : List Text :=
  (subobjects owner).flatMap fun subobject => subobject.2.label.fields

/-! ## Destructors -/

mutual

/-- The recursion of `virtualBaseNames`, on the virtual bases seen. -/
def virtualBasesFrom : ClassDeclaration → List Text → List Text × List Text
  | .node _ bases, seen => virtualBasesBases bases seen

def virtualBasesBases : Edges ClassInfo BaseInfo → List Text → List Text × List Text
  | .nil, seen => ([], seen)
  | .cons edge base rest, seen =>
    if edge.isVirtual = true ∧ base.label.name ∈ seen then virtualBasesBases rest seen
    else
      let entered := if edge.isVirtual then base.label.name :: seen else seen
      let below := virtualBasesFrom base entered
      let after := virtualBasesBases rest below.2
      (below.1 ++ (if edge.isVirtual then [base.label.name] else []) ++ after.1, after.2)

end

/-- `CodeGenerator::virtualBaseNames`. -/
def virtualBaseNames (owner : ClassDeclaration) : List Text := (virtualBasesFrom owner []).1

mutual

/-- `collectNonVirtual`: the classes whose destructors a class and its non-virtual
    bases declare, the last base first. -/
def collectNonVirtual : ClassDeclaration → List ClassInfo
  | .node info bases =>
    (info.methods.filter MethodDeclaration.isDestructor).map (fun _ => info) ++ collectBases bases

def collectBases : Edges ClassInfo BaseInfo → List ClassInfo
  | .nil => []
  | .cons edge base rest =>
    collectBases rest ++ if edge.isVirtual then [] else collectNonVirtual base

end

def destructorChain (p : Program) (owner : ClassDeclaration) : List ClassInfo :=
  collectNonVirtual owner ++ (virtualBaseNames owner).reverse.flatMap fun name =>
    match p.find name with
    | some base => collectNonVirtual base
    | none => []

/-! ## The globals of a module -/

variable (p : Program) (generatingModule : Text)

def viewSymbols (owner : ClassDeclaration) (view : List Text × ClassDeclaration) : List Text :=
  (if methodSlots view.2 = [] then [] else [methodTableName owner.label view.1])
    ++ [viewMetadataName owner.label view.1]

/-- The globals of `emitClassTypesAndMetadata` for a class. -/
def classMetadataSymbols (owner : ClassDeclaration) : List Text :=
  let fields := objectFields owner
  (if fields.any (fun type => isManagedReferenceType p type && !isDynamicValueType type) then
      [Stem.referenceOffsets.text ++ owner.label.name] else [])
    ++ (if fields.any isDynamicValueType then
      [Stem.dynamicReferenceOffsets.text ++ owner.label.name] else [])
    ++ (if (subobjects owner).any (fun subobject => subobject.1 != []) then
      [Stem.baseNames.text ++ owner.label.name] else [])
    ++ (subobjects owner).flatMap (viewSymbols owner)

def metadataSymbols : List Text :=
  (p.classes.filter fun owner => !owner.label.builtin).flatMap (classMetadataSymbols p)

def viewThunks (owner : ClassDeclaration) (view : List Text × ClassDeclaration) : List Text :=
  ((methodSlots view.2).zipIdx.filter fun slot => (implementation p owner view slot.1).isSome).map
    fun slot => thunkName owner.label view.1 slot.2

def thunkSymbols : List Text :=
  p.classes.flatMap fun owner => (subobjects owner).flatMap (viewThunks p owner)

def moduleClasses : List ClassDeclaration :=
  p.classes.filter fun owner => owner.label.moduleName == generatingModule

def methodSymbols : List Text :=
  (moduleClasses p generatingModule).flatMap fun owner =>
    owner.label.methods.map (methodSymbol owner.label.name)

/-- The finalizer of a class and the destructors it calls. -/
def classFinalizers (owner : ClassDeclaration) : List Text :=
  if destructorChain p owner = [] then []
  else (destructorChain p owner).zipIdx.map (fun call => destroyCopyName owner.label call.2 call.1)
    ++ [finalizerName owner.label]

def finalizerSymbols : List Text :=
  (moduleClasses p generatingModule).flatMap (classFinalizers p)

/-- The finalizers of other modules, which the module declares. -/
def declaredFinalizers : List Text :=
  (p.classes.filter fun owner => owner.label.moduleName != generatingModule).map fun owner =>
    finalizerName owner.label

/-- The globals that the module defines. -/
def definedSymbols : List Text :=
  metadataSymbols p ++ (methodSymbols p generatingModule ++ (thunkSymbols p ++
    finalizerSymbols p generatingModule))

/-- The globals of the module that are no user methods. -/
def generatedSymbols : List Text :=
  metadataSymbols p ++ (thunkSymbols p ++
    (finalizerSymbols p generatingModule ++ declaredFinalizers p generatingModule))

end Cwhip.CodeGen
