/-
  Cwhip.CodeGen.BaseAccess

  Which base paths the analyzer lets an expression take (`SemanticInheritance.cpp`),
  on the classes of the code generator.
-/

import Cwhip.CodeGen.Slots

namespace Cwhip.CodeGen

open Cwhip.Inheritance (AccessLevel BaseInfo Restriction)

/-- `SemanticAnalyzer::isSubclassOf`. -/
def Program.isSubclassOf (p : Program) (type base : Text) : Bool :=
  match p.find type with
  | none => false
  | some c => c.subtrees.any (fun u => u.label.name == base)

abbrev Context := Inheritance.Standing Program.classes

namespace Context

variable (ctx : Context)

/-- Whether the current class gets past a restriction. -/
def admits (r : Restriction Text) : Bool :=
  r.admits ctx.program.isSubclassOf (ctx.currentClass.map (·.label.name))

/-- `SemanticAnalyzer::basePathAccessible`. -/
def basePathAccessible (owner : ClassDeclaration) (path : List Text) : Bool :=
  match Restriction.along ClassInfo.name owner path ⟨.publicAccess, []⟩ with
  | none => false
  | some r => ctx.admits r

end Context

end Cwhip.CodeGen
