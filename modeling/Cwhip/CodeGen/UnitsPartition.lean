/-
  Cwhip.CodeGen.UnitsPartition

  When the units partition the program.

  Units own the classes of their module, so what they define is disjoint.  What
  is left are symbols: a method of a class `finalize` has the name of a finalizer,
  and a native function any name.
-/

import Cwhip.CodeGen.EmissionUnits

namespace Cwhip.CodeGen

open Cwhip.Lib
open Cwhip.Inheritance (AccessLevel BaseInfo)
open List (mem_append mem_cons_of_mem mem_cons_self nodup_nil)

/-! ## Lists -/

theorem filter_eq_singleton {α : Type} {l : List α} {test : α → Bool} (hnodup : l.Nodup) {a : α}
    (ha : a ∈ l) (htest : test a = true) (hunique : ∀ b ∈ l, test b = true → b = a) :
    l.filter test = [a] := by
  refine List.perm_singleton.mp ((List.perm_ext_iff_of_nodup (hnodup.filter _)
    (List.nodup_singleton a)).mpr ?_)
  intro b
  rw [List.mem_filter, List.mem_singleton]
  exact ⟨fun h => hunique b h.1 h.2, fun h => h ▸ ⟨ha, htest⟩⟩

theorem eq_of_filter_singleton {α : Type} {l : List α} {test : α → Bool} {a b : α}
    (h : l.filter test = [a]) (hb : b ∈ l) (htest : test b = true) : b = a :=
  List.mem_singleton.mp (h ▸ List.mem_filter.mpr ⟨hb, htest⟩)

/-! ## The symbols of functions -/

inductive FunctionOf (p : Program) (c : ClassDeclaration) : EmittedFunction → Prop where
  | method {declaration : MethodDeclaration} (h : declaration ∈ c.label.methods) :
      FunctionOf p c (.method c.label declaration)
  | destroyCopy {call : ClassInfo × Nat} (h : call ∈ (destructorChain p c).zipIdx) :
      FunctionOf p c (.destroyCopy c.label call.2 call.1)
  | finalizer : FunctionOf p c (.finalizer c.label)

/-- A method with the name of a finalizer. -/
structure NamedAlike (c : ClassDeclaration) (method : MethodDeclaration) (d : ClassDeclaration) :
    Prop where
  plain : method.parameters = []
  name : c.label.name ++ '.' :: method.name = finalizeName ++ '.' :: d.label.name

section

variable {p : Program} {c d : ClassDeclaration}

theorem methodSymbol_namedAlike (hc : c ∈ p.classes) {method : MethodDeclaration}
    (h : method ∈ c.label.methods) (hd : d ∈ p.classes) :
    methodSymbol c.label.name method = finalizerName d.label ↔ NamedAlike c method d :=
  (methodSymbol_eq_finalizer hc h hd).trans ⟨fun h => ⟨h.1, h.2⟩, fun h => ⟨h.1, h.2⟩⟩

theorem destroyCopy_unique {call call' : ClassInfo × Nat} (hc : c ∈ p.classes) (hd : d ∈ p.classes)
    (h : call ∈ (destructorChain p c).zipIdx) (h' : call' ∈ (destructorChain p d).zipIdx)
    (hsymbol : destroyCopyName c.label call.2 call.1 = destroyCopyName d.label call'.2 call'.1) :
    c = d ∧ call = call' := by
  have hclass := (destroyCopyName_belongs c call.2 call.1).unique hc hd
    (hsymbol ▸ destroyCopyName_belongs d call'.2 call'.1)
  subst hclass
  exact ⟨rfl, List.inj_on_of_nodup_map (List.nodup_zipIdx_map_snd _) h h'
    (destroyCopyName_index hsymbol)⟩

theorem destroyCopy_ne_finalizer {index : Nat} {destroyed : ClassInfo} :
    destroyCopyName c.label index destroyed ≠ finalizerName d.label := by
  intro hsymbol
  have hstem := (destroyCopyName_belongs c index destroyed).stem_unique
    (hsymbol ▸ finalizerName_belongs d)
  cases hstem

/-- Functions of one symbol are the same, but for a method named like a finalizer. -/
theorem FunctionOf.unique {f g : EmittedFunction} (hf : FunctionOf p c f) (hg : FunctionOf p d g)
    (hc : c ∈ p.classes) (hd : d ∈ p.classes) (hsymbol : f.symbol = g.symbol) :
    f = g ∨ (∃ method ∈ c.label.methods, f = .method c.label method ∧ g = .finalizer d.label ∧
        NamedAlike c method d) ∨
      ∃ method ∈ d.label.methods, g = .method d.label method ∧ f = .finalizer c.label ∧
        NamedAlike d method c := by
  cases hf with
  | method hmethod =>
    cases hg with
    | method hother =>
      obtain ⟨rfl, rfl⟩ := methodSymbol_injective hc hd hmethod hother hsymbol
      exact .inl rfl
    | destroyCopy hcall =>
      exact absurd hsymbol
        (methodSymbol_ne_destroyCopy hc hmethod hd (List.fst_mem_of_mem_zipIdx hcall) _)
    | finalizer =>
      exact .inr (.inl ⟨_, hmethod, rfl, rfl, (methodSymbol_namedAlike hc hmethod hd).mp hsymbol⟩)
  | destroyCopy hcall =>
    cases hg with
    | method hother =>
      exact absurd hsymbol.symm
        (methodSymbol_ne_destroyCopy hd hother hc (List.fst_mem_of_mem_zipIdx hcall) _)
    | destroyCopy hcall' =>
      obtain ⟨rfl, rfl⟩ := destroyCopy_unique hc hd hcall hcall' hsymbol
      exact .inl rfl
    | finalizer => exact absurd hsymbol destroyCopy_ne_finalizer
  | finalizer =>
    cases hg with
    | method hother =>
      exact .inr (.inr
        ⟨_, hother, rfl, rfl, (methodSymbol_namedAlike hd hother hc).mp hsymbol.symm⟩)
    | destroyCopy hcall' => exact absurd hsymbol.symm destroyCopy_ne_finalizer
    | finalizer =>
      have hname : finalizerName c.label = finalizerName d.label := hsymbol
      have hclass := (finalizerName_belongs c).unique hc hd (hname ▸ finalizerName_belongs d)
      exact .inl (congrArg _ (congrArg Tree.label hclass))

/-! ## Which classes have a finalizer -/

mutual

theorem containsDestructor_collected (u : ClassDeclaration) (h : containsDestructor u = true) :
    collectNonVirtual u ≠ [] ∨ ∃ v, IsVirtualBase u v ∧ collectNonVirtual v ≠ [] := by
  match u with
  | .node info bases =>
    rw [containsDestructor, Bool.or_eq_true] at h
    rw [collectNonVirtual]
    rcases h with hown | hbases
    · obtain ⟨method, hmethod, hdestructor⟩ := List.any_eq_true.mp hown
      have hlisted :
          info ∈ (info.methods.filter MethodDeclaration.isDestructor).map fun _ => info :=
        List.mem_map.mpr ⟨method, List.mem_filter.mpr ⟨hmethod, hdestructor⟩, rfl⟩
      exact .inl (List.ne_nil_of_mem (List.mem_append_left _ hlisted))
    · rcases basesContainDestructor_collected bases hbases with
        hcollected | ⟨base, hbase, v, hv, hcollected⟩
      · exact .inl (List.append_ne_nil_of_right_ne_nil _ hcollected)
      · refine .inr ⟨v, ?_, hcollected⟩
        rcases hv with ⟨hvirtual, rfl⟩ | hv
        · exact ⟨.node info bases, Tree.mem_subtrees_self _, base, hbase, hvirtual, rfl⟩
        · exact hv.subtree (Tree.mem_subtrees.mpr (.inr ⟨base, hbase, Tree.mem_subtrees_self _⟩))

theorem basesContainDestructor_collected (bases : Edges ClassInfo BaseInfo)
    (h : basesContainDestructor bases = true) :
    collectBases bases ≠ [] ∨ ∃ base ∈ bases.toList, ∃ v,
      (base.1.isVirtual = true ∧ base.2 = v ∨ IsVirtualBase base.2 v) ∧
      collectNonVirtual v ≠ [] := by
  match bases with
  | .nil => cases h
  | .cons edge base rest =>
    rw [basesContainDestructor, Bool.or_eq_true] at h
    rw [collectBases]
    rcases h with hbase | hrest
    · rcases containsDestructor_collected base hbase with hcollected | ⟨v, hv, hcollected⟩
      · cases hvirtual : edge.isVirtual with
        | true =>
          exact .inr ⟨(edge, base), mem_cons_self, base, .inl ⟨hvirtual, rfl⟩, hcollected⟩
        | false => exact .inl (List.append_ne_nil_of_right_ne_nil _ hcollected)
      · exact .inr ⟨(edge, base), mem_cons_self, v, .inr hv, hcollected⟩
    · rcases basesContainDestructor_collected rest hrest with
        hcollected | ⟨found, hfound, v, hv, hcollected⟩
      · exact .inl (List.append_ne_nil_of_left_ne_nil hcollected _)
      · exact .inr ⟨found, mem_cons_of_mem _ hfound, v, hv, hcollected⟩

end

mutual

theorem containsDestructor_iff (c : ClassDeclaration) : containsDestructor c = true ↔
    ∃ u ∈ c.subtrees, u.label.methods.any MethodDeclaration.isDestructor = true := by
  match c with
  | .node info bases =>
    rw [containsDestructor, Bool.or_eq_true, basesContainDestructor_iff bases]
    constructor
    · rintro (hown | ⟨base, hbase, u, hu, hdestructor⟩)
      · exact ⟨.node info bases, Tree.mem_subtrees_self _, hown⟩
      · exact ⟨u, Tree.mem_subtrees.mpr (.inr ⟨base, hbase, hu⟩), hdestructor⟩
    · rintro ⟨u, hu, hdestructor⟩
      rcases Tree.mem_subtrees.mp hu with rfl | ⟨base, hbase, hu⟩
      · exact .inl hdestructor
      · exact .inr ⟨base, hbase, u, hu, hdestructor⟩

theorem basesContainDestructor_iff (bases : Edges ClassInfo BaseInfo) :
    basesContainDestructor bases = true ↔ ∃ base ∈ bases.toList, ∃ u ∈ base.2.subtrees,
      u.label.methods.any MethodDeclaration.isDestructor = true := by
  match bases with
  | .nil => simp [basesContainDestructor, Edges.toList]
  | .cons edge base rest =>
    rw [basesContainDestructor, Bool.or_eq_true, containsDestructor_iff base,
      basesContainDestructor_iff rest, Edges.toList, List.exists_mem_cons_iff]

end

mutual

theorem collectNonVirtual_destructor {c : ClassDeclaration} {info : ClassInfo}
    (h : info ∈ collectNonVirtual c) : info.methods.any MethodDeclaration.isDestructor = true := by
  match c with
  | .node own bases =>
    rw [collectNonVirtual, mem_append] at h
    rcases h with h | h
    · obtain ⟨method, hmethod, rfl⟩ := List.mem_map.mp h
      obtain ⟨hmem, hdestructor⟩ := List.mem_filter.mp hmethod
      exact List.any_eq_true.mpr ⟨method, hmem, hdestructor⟩
    · exact collectBases_destructor h

theorem collectBases_destructor {bases : Edges ClassInfo BaseInfo} {info : ClassInfo}
    (h : info ∈ collectBases bases) : info.methods.any MethodDeclaration.isDestructor = true := by
  match bases with
  | .nil => cases h
  | .cons edge base rest =>
    rw [collectBases, mem_append] at h
    rcases h with h | h
    · exact collectBases_destructor h
    · split at h
      · cases h
      · exact collectNonVirtual_destructor h

end

theorem destructorChain_destructor {info : ClassInfo} (h : info ∈ destructorChain p c) :
    info.methods.any MethodDeclaration.isDestructor = true := by
  rw [destructorChain, mem_append] at h
  rcases h with h | h
  · exact collectNonVirtual_destructor h
  · obtain ⟨name, -, hname⟩ := List.mem_flatMap.mp h
    split at hname
    · exact collectNonVirtual_destructor hname
    · cases hname

theorem destructorChain_subtree (hc : c ∈ p.classes) {info : ClassInfo}
    (h : info ∈ destructorChain p c) : ∃ u ∈ c.subtrees, u.label = info := by
  rw [destructorChain, mem_append] at h
  rcases h with h | h
  · exact mem_collectNonVirtual h
  · obtain ⟨name, hname, hmem⟩ := List.mem_flatMap.mp h
    obtain ⟨v, hv, rfl⟩ :=
      (mem_virtualBaseNames (p.distinctBases hc) (p.coherent hc)).mp (List.mem_reverse.mp hname)
    have hsubtree := mem_subtrees_below hv.below
    rw [p.find_subtree hc hsubtree] at hmem
    obtain ⟨u, hu, hlabel⟩ := mem_collectNonVirtual hmem
    exact ⟨u, Tree.mem_subtrees_trans _ hsubtree hu, hlabel⟩

/-- A hierarchy has a destructor exactly where its chain does. -/
theorem containsDestructor_chain (hc : c ∈ p.classes) :
    containsDestructor c = true ↔ destructorChain p c ≠ [] := by
  constructor
  · intro h
    rw [destructorChain]
    rcases containsDestructor_collected c h with hcollected | ⟨v, hv, hcollected⟩
    · exact List.append_ne_nil_of_left_ne_nil hcollected _
    · refine List.append_ne_nil_of_right_ne_nil _ ?_
      have hname := (mem_virtualBaseNames (p.distinctBases hc) (p.coherent hc)).mpr ⟨v, hv, rfl⟩
      have hfind := p.find_subtree hc (mem_subtrees_below hv.below)
      obtain ⟨info, hinfo⟩ := List.exists_mem_of_ne_nil _ hcollected
      refine List.ne_nil_of_mem (a := info) (List.mem_flatMap.mpr ⟨_,
        List.mem_reverse.mpr hname, ?_⟩)
      rw [hfind]
      exact hinfo
  · intro h
    obtain ⟨info, hinfo⟩ := List.exists_mem_of_ne_nil _ h
    obtain ⟨u, hu, rfl⟩ := destructorChain_subtree hc hinfo
    exact (containsDestructor_iff c).mpr ⟨u, hu, destructorChain_destructor hinfo⟩

end

section

variable {e : EmissionUnits} {c d : ClassDeclaration} {generatingModule : Text}

/-! ## Native functions -/

theorem mem_externDeclarations {definitions : List OutOfLineMethodDefinition} {declared : List Text}
    {entry : FunctionEntry} (h : entry ∈ EmissionUnits.externDeclarations definitions declared) :
    ∃ definition ∈ definitions, ∃ externalSymbol ∈ definition.externalSymbol,
      externalSymbol ∉ declared ∧ entry.function = .external externalSymbol ∧
        entry.symbol = '@' :: externalSymbol ∧ entry.defined = false := by
  fun_induction EmissionUnits.externDeclarations definitions declared with
  | case1 => cases h
  | case2 definition rest declared hnone ih
  | case3 definition rest declared externalSymbol hsome hdeclared ih =>
    obtain ⟨found, hfound, hentry⟩ := ih h
    exact ⟨found, mem_cons_of_mem _ hfound, hentry⟩
  | case4 definition rest declared externalSymbol hsome hfresh ih =>
    rcases List.mem_cons.mp h with rfl | h
    · exact ⟨definition, mem_cons_self, externalSymbol, hsome, hfresh, rfl, rfl, rfl⟩
    · obtain ⟨found, hfound, name, hname, hnotDeclared, hentry⟩ := ih h
      exact ⟨found, mem_cons_of_mem _ hfound, name, hname,
        fun hmem => hnotDeclared (mem_cons_of_mem _ hmem), hentry⟩

theorem externDeclarations_nodup (definitions : List OutOfLineMethodDefinition)
    (declared : List Text) :
    ((EmissionUnits.externDeclarations definitions declared).map FunctionEntry.function).Nodup := by
  fun_induction EmissionUnits.externDeclarations definitions declared with
  | case1 => exact nodup_nil
  | case2 definition rest declared hnone ih => exact ih
  | case3 definition rest declared externalSymbol hsome hdeclared ih => exact ih
  | case4 definition rest declared externalSymbol hsome hfresh ih =>
    refine List.nodup_cons.mpr ⟨?_, ih⟩
    intro hmem
    obtain ⟨entry, hentry, hfunction⟩ := List.mem_map.mp hmem
    obtain ⟨found, -, name, -, hnotDeclared, hname, -⟩ := mem_externDeclarations hentry
    obtain rfl := EmittedFunction.external.inj (hfunction.symm.trans hname)
    exact hnotDeclared mem_cons_self

theorem externDeclarations_declares {definitions : List OutOfLineMethodDefinition}
    {declared : List Text} {definition : OutOfLineMethodDefinition} (h : definition ∈ definitions)
    {externalSymbol : Text} (hsome : externalSymbol ∈ definition.externalSymbol)
    (hfresh : externalSymbol ∉ declared) :
    ∃ entry ∈ EmissionUnits.externDeclarations definitions declared,
      entry.function = .external externalSymbol ∧ entry.symbol = '@' :: externalSymbol := by
  fun_induction EmissionUnits.externDeclarations definitions declared with
  | case1 => cases h
  | case2 first rest declared hnone ih =>
    rcases List.mem_cons.mp h with rfl | h
    · cases hnone.symm.trans hsome
    · exact ih h hfresh
  | case3 first rest declared name hname hdeclared ih =>
    rcases List.mem_cons.mp h with rfl | h
    · exact absurd (Option.some.inj (hname.symm.trans hsome) ▸ hdeclared) hfresh
    · exact ih h hfresh
  | case4 first rest declared name hname hnew ih =>
    by_cases heq : externalSymbol = name
    · subst heq
      exact ⟨_, mem_cons_self, rfl, rfl⟩
    · have hrest : definition ∈ rest := by
        rcases List.mem_cons.mp h with rfl | h
        · exact absurd (Option.some.inj (hsome.symm.trans hname)) heq
        · exact h
      obtain ⟨entry, hentry, hnamed⟩ := ih hrest (by simp [heq, hfresh])
      exact ⟨entry, mem_cons_of_mem _ hentry, hnamed⟩

/-! ## Methods and copies are emitted as they are declared -/

theorem emittedMethod_signature (hc : c ∈ e.program.classes) {method : MethodDeclaration}
    (h : method ∈ c.label.methods) :
    (e.emittedMethod c.label method).name = method.name ∧
      (e.emittedMethod c.label method).parameters = method.parameters ∧
      (e.emittedMethod c.label method).returnType = method.returnType ∧
      (e.emittedMethod c.label method).isConstructor = method.isConstructor ∧
      (e.emittedMethod c.label method).isDestructor = method.isDestructor := by
  rw [EmissionUnits.emittedMethod]
  split
  · next definition hfound =>
    have hkey := List.find?_some hfound
    obtain ⟨owner, howner, hclass, declaration, hdeclaration, hname, hparameters, hreturn,
      hconstructor, hdestructor⟩ := e.matching definition (List.mem_of_find?_eq_some hfound)
    have hsymbol : methodSymbol owner.label.name declaration =
        methodSymbol c.label.name method := by
      rw [methodSymbol_eq howner hdeclaration, methodSymbol_eq hc h, hclass, hname, hparameters]
      have htext : definition.className ++ '.' :: (definition.method.name ++
          mangleParameters definition.method.parameters) = c.label.name ++ '.' :: (method.name ++
            mangleParameters method.parameters) := eq_of_beq hkey
      simpa only [List.append_assoc, List.cons_append, List.append_cancel_left_eq] using htext
    obtain ⟨-, rfl⟩ := methodSymbol_injective howner hc hdeclaration h hsymbol
    exact ⟨hname.symm, hparameters.symm, hreturn.symm, hconstructor.symm, hdestructor.symm⟩
  · exact ⟨rfl, rfl, rfl, rfl, rfl⟩

theorem emittedMethod_type (hc : c ∈ e.program.classes) {method : MethodDeclaration}
    (h : method ∈ c.label.methods) : methodType (e.emittedMethod c.label method) =
    methodType method := by
  obtain ⟨-, hparameters, hreturn, hconstructor, -⟩ := emittedMethod_signature hc h
  rw [methodType, methodType, hparameters, hreturn, hconstructor]

theorem emitMethod_eq (hc : c ∈ e.program.classes) {method : MethodDeclaration}
    (h : method ∈ c.label.methods) : e.emitMethod c.label method
      = ⟨.method c.label method, methodSymbol c.label.name method, methodType method, true⟩ := by
  obtain ⟨hname, hparameters, -, -, hdestructor⟩ := emittedMethod_signature hc h
  rw [EmissionUnits.emitMethod, emittedMethod_type hc h, methodSymbol, hname,
    hparameters, hdestructor]
  rfl

theorem llvmTypeName_void : llvmTypeName "void".toList = "void".toList := by decide +kernel

theorem destructor_type (hc : c ∈ e.program.classes) {method : MethodDeclaration}
    (h : method ∈ c.label.methods) (hdestructor : method.isDestructor = true) :
    methodType method = finalizerType := by
  have hreturn := e.returnNothing c hc method h (by simp [MethodDeclaration.ordinary, hdestructor])
  rw [methodType, e.program.plainDestructors c hc method h hdestructor,
    e.destructors c hc method h hdestructor, hreturn, llvmTypeName_void]
  rfl

theorem emitDestroyCopy_eq (hc : c ∈ e.program.classes) {call : ClassInfo × Nat}
    (h : call ∈ (destructorChain e.program c).zipIdx) : e.emitDestroyCopy c.label call
      = ⟨.destroyCopy c.label call.2 call.1, destroyCopyName c.label call.2 call.1, finalizerType,
          true⟩ := by
  have hmem := List.fst_mem_of_mem_zipIdx h
  obtain ⟨u, hu, hlabel⟩ := mem_destructorChain hc hmem
  rw [EmissionUnits.emitDestroyCopy]
  split
  · next method hmethod =>
    have hdeclared := List.mem_of_find?_eq_some hmethod
    have hdestructor := List.find?_some hmethod
    rw [← hlabel] at hdeclared ⊢
    rw [emittedMethod_type hu hdeclared, destructor_type hu hdeclared hdestructor]
  · rfl

/-! ## The entries of a unit -/

/-- What a unit defines and declares. -/
inductive EntryOf (e : EmissionUnits) (generatingModule : Text) : FunctionEntry → Prop where
  | external {entry : FunctionEntry}
      (h : entry ∈ EmissionUnits.externDeclarations e.outOfLineMethods []) :
      EntryOf e generatingModule entry
  | method {c : ClassDeclaration} (hc : c ∈ e.program.classes) {method : MethodDeclaration}
      (h : method ∈ c.label.methods) :
      EntryOf e generatingModule ⟨.method c.label method, methodSymbol c.label.name method,
        methodType method, c.label.moduleName == generatingModule⟩
  | destroyCopy {c : ClassDeclaration} (hc : c ∈ e.program.classes)
      (own : c.label.moduleName = generatingModule) {call : ClassInfo × Nat}
      (h : call ∈ (destructorChain e.program c).zipIdx) :
      EntryOf e generatingModule ⟨.destroyCopy c.label call.2 call.1,
        destroyCopyName c.label call.2 call.1, finalizerType, true⟩
  | declared {c : ClassDeclaration} (hc : c ∈ e.program.classes)
      (foreign : c.label.moduleName ≠ generatingModule) :
      EntryOf e generatingModule ⟨.finalizer c.label, finalizerName c.label, finalizerType, false⟩
  | finalizer {c : ClassDeclaration} (hc : c ∈ e.program.classes)
      (own : c.label.moduleName = generatingModule) (h : destructorChain e.program c ≠ []) :
      EntryOf e generatingModule ⟨.finalizer c.label, finalizerName c.label, finalizerType, true⟩

theorem classMethods_eq (hc : c ∈ e.program.classes) : e.classMethods generatingModule c.label
    = c.label.methods.map (fun method => ⟨.method c.label method, methodSymbol c.label.name method,
        methodType method, c.label.moduleName == generatingModule⟩) ++
      if c.label.moduleName = generatingModule then []
      else [⟨.finalizer c.label, finalizerName c.label, finalizerType, false⟩] := by
  rw [EmissionUnits.classMethods]
  by_cases hmodule : c.label.moduleName = generatingModule
  · rw [if_neg (by simp [hmodule]), if_pos hmodule, List.append_nil]
    refine List.map_congr_left ?_
    intro method hmethod
    rw [emitMethod_eq hc hmethod, beq_iff_eq.mpr hmodule]
  · rw [if_pos (by simpa using hmodule), if_neg hmodule, EmissionUnits.declareFinalizer]
    refine congrArg (· ++ _) (List.map_congr_left ?_)
    intro method hmethod
    rw [EmissionUnits.declareMethod, beq_eq_false_iff_ne.mpr hmodule]

theorem classCopies_eq (hc : c ∈ e.program.classes) : e.classCopies generatingModule c
    = if c.label.moduleName = generatingModule then
        (destructorChain e.program c).zipIdx.map fun call => ⟨.destroyCopy c.label call.2 call.1,
          destroyCopyName c.label call.2 call.1, finalizerType, true⟩
      else [] := by
  rw [EmissionUnits.classCopies]
  by_cases hmodule : c.label.moduleName = generatingModule
  · rw [if_neg (by simp [hmodule]), if_pos hmodule]
    exact List.map_congr_left fun call hcall => emitDestroyCopy_eq hc hcall
  · rw [if_pos (by simpa using hmodule), if_neg hmodule]

theorem mem_classFinalizer {entry : FunctionEntry} : entry ∈ e.classFinalizer generatingModule c ↔
    c.label.moduleName = generatingModule ∧ destructorChain e.program c ≠ [] ∧
      entry = ⟨.finalizer c.label, finalizerName c.label, finalizerType, true⟩ := by
  rw [EmissionUnits.classFinalizer]
  by_cases hmodule : c.label.moduleName = generatingModule
  · rw [if_neg (by simp [hmodule])]
    by_cases hchain : destructorChain e.program c = [] <;> simp [hmodule, hchain]
  · rw [if_pos (by simpa using hmodule)]
    simp [hmodule]

/-- The entries of a unit, part by part. -/
theorem mem_emitted {entry : FunctionEntry} :
    entry ∈ e.emitted generatingModule ↔ EntryOf e generatingModule entry := by
  simp only [EmissionUnits.emitted, mem_append, List.mem_flatMap]
  constructor
  · rintro (h | ⟨c, hc, h⟩ | ⟨c, hc, h⟩ | ⟨c, hc, h⟩)
    · exact .external h
    · rw [classMethods_eq hc, mem_append] at h
      rcases h with h | h
      · obtain ⟨method, hmethod, rfl⟩ := List.mem_map.mp h
        exact .method hc hmethod
      · split at h
        · cases h
        · next hmodule =>
          obtain rfl := List.mem_singleton.mp h
          exact .declared hc hmodule
    · rw [classCopies_eq hc] at h
      split at h
      · next hmodule =>
        obtain ⟨call, hcall, rfl⟩ := List.mem_map.mp h
        exact .destroyCopy hc hmodule hcall
      · cases h
    · obtain ⟨hmodule, hchain, rfl⟩ := mem_classFinalizer.mp h
      exact .finalizer hc hmodule hchain
  · intro h
    cases h with
    | external h => exact .inl h
    | method hc hmethod =>
      refine .inr (.inl ⟨_, hc, ?_⟩)
      rw [classMethods_eq hc]
      exact List.mem_append_left _ (List.mem_map.mpr ⟨_, hmethod, rfl⟩)
    | destroyCopy hc own hcall =>
      refine .inr (.inr (.inl ⟨_, hc, ?_⟩))
      rw [classCopies_eq hc, if_pos own]
      exact List.mem_map.mpr ⟨_, hcall, rfl⟩
    | declared hc foreign =>
      refine .inr (.inl ⟨_, hc, ?_⟩)
      rw [classMethods_eq hc, if_neg foreign]
      exact List.mem_append_right _ mem_cons_self
    | finalizer hc own hchain =>
      exact .inr (.inr (.inr ⟨_, hc, mem_classFinalizer.mpr ⟨own, hchain, rfl⟩⟩))

def EmittedFunction.owner : EmittedFunction → Option ClassInfo
  | .external _ => none
  | .method owner _ => some owner
  | .destroyCopy dynamicOwner _ _ => some dynamicOwner
  | .finalizer dynamicOwner => some dynamicOwner

theorem FunctionOf.owner {p : Program} {function : EmittedFunction} (h : FunctionOf p c function) :
    function.owner = some c.label := by
  cases h <;> rfl

theorem nodup_flatMap_entries {f : ClassDeclaration → List FunctionEntry}
    (hnodup : ∀ c ∈ e.program.classes, (f c).Nodup)
    (howner : ∀ c ∈ e.program.classes, ∀ entry ∈ f c, entry.function.owner = some c.label) :
    (e.program.classes.flatMap f).Nodup := by
  refine List.nodup_flatMap.mpr ⟨hnodup, ?_⟩
  refine (List.Nodup.of_map _ e.program.distinct).imp_of_mem ?_
  intro c d hc hd hne entry hentry hentry'
  have hlabel := (howner c hc entry hentry).symm.trans (howner d hd entry hentry')
  exact hne (e.program.class_unique hc hd (congrArg ClassInfo.name (Option.some.inj hlabel)))

theorem classMethods_nodup (hc : c ∈ e.program.classes) :
    (e.classMethods generatingModule c.label).Nodup := by
  rw [classMethods_eq hc]
  have hmethods : c.label.methods.Nodup := List.Nodup.of_map _ (e.program.methods c hc)
  refine (hmethods.map ?_).append ?_ ?_
  · intro method other h
    exact (EmittedFunction.method.inj (FunctionEntry.mk.inj h).1).2
  · split
    · exact nodup_nil
    · exact List.nodup_singleton _
  · intro entry hmethod hfinalizer
    obtain ⟨method, -, rfl⟩ := List.mem_map.mp hmethod
    split at hfinalizer
    · cases hfinalizer
    · exact absurd (List.mem_singleton.mp hfinalizer) (by simp)

theorem classCopies_nodup (hc : c ∈ e.program.classes) :
    (e.classCopies generatingModule c).Nodup := by
  rw [classCopies_eq hc]
  split
  · have hindices := List.nodup_zipIdx_map_snd (destructorChain e.program c)
    refine (List.Nodup.of_map _ hindices).map_on ?_
    intro call hcall call' hcall' h
    exact List.inj_on_of_nodup_map hindices hcall hcall'
      (EmittedFunction.destroyCopy.inj (FunctionEntry.mk.inj h).1).2.1
  · exact nodup_nil

theorem classFinalizer_nodup : (e.classFinalizer generatingModule c).Nodup := by
  rw [EmissionUnits.classFinalizer]
  split
  · exact nodup_nil
  · split
    · exact nodup_nil
    · exact List.nodup_singleton _

/-- No unit emits a function twice. -/
theorem emitted_nodup (e : EmissionUnits) (generatingModule : Text) :
    (e.emitted generatingModule).Nodup := by
  have hmethods : ∀ c ∈ e.program.classes, ∀ entry ∈ e.classMethods generatingModule c.label,
      entry.function.owner = some c.label ∧ ((∃ method, entry.function = .method c.label method) ∨
        entry.defined = false ∧ entry.function = .finalizer c.label) := by
    intro c hc entry h
    rw [classMethods_eq hc, mem_append] at h
    rcases h with h | h
    · obtain ⟨method, -, rfl⟩ := List.mem_map.mp h
      exact ⟨rfl, .inl ⟨method, rfl⟩⟩
    · split at h
      · cases h
      · obtain rfl := List.mem_singleton.mp h
        exact ⟨rfl, .inr ⟨rfl, rfl⟩⟩
  have hcopies : ∀ c ∈ e.program.classes, ∀ entry ∈ e.classCopies generatingModule c,
      ∃ index destroyed, entry.function = .destroyCopy c.label index destroyed := by
    intro c hc entry h
    rw [classCopies_eq hc] at h
    split at h
    · obtain ⟨call, -, rfl⟩ := List.mem_map.mp h
      exact ⟨_, _, rfl⟩
    · cases h
  have hexternals := List.Nodup.of_map _ (externDeclarations_nodup e.outOfLineMethods [])
  refine hexternals.append ((nodup_flatMap_entries (fun c hc => classMethods_nodup hc)
    (fun c hc entry h => (hmethods c hc entry h).1)).append
      ((nodup_flatMap_entries (fun c hc => classCopies_nodup hc) ?_).append
        (nodup_flatMap_entries (fun _ _ => classFinalizer_nodup) ?_) ?_) ?_) ?_
  · intro c hc entry h
    obtain ⟨index, destroyed, hfunction⟩ := hcopies c hc entry h
    rw [hfunction]
    rfl
  · intro c _ entry h
    obtain ⟨-, -, rfl⟩ := mem_classFinalizer.mp h
    rfl
  · -- no copy of a destructor is a finalizer
    intro entry hcopy hfinalizer
    obtain ⟨c, hc, h⟩ := List.mem_flatMap.mp hcopy
    obtain ⟨d, -, h'⟩ := List.mem_flatMap.mp hfinalizer
    obtain ⟨index, destroyed, hfunction⟩ := hcopies c hc entry h
    obtain ⟨-, -, rfl⟩ := mem_classFinalizer.mp h'
    cases hfunction
  · -- no method is either of them
    intro entry hmethod hrest
    obtain ⟨c, hc, h⟩ := List.mem_flatMap.mp hmethod
    rcases List.mem_append.mp hrest with hcopy | hfinalizer
    · obtain ⟨d, hd, h'⟩ := List.mem_flatMap.mp hcopy
      obtain ⟨index, destroyed, hfunction⟩ := hcopies d hd entry h'
      rcases (hmethods c hc entry h).2 with ⟨method, heq⟩ | ⟨-, heq⟩ <;>
        cases hfunction.symm.trans heq
    · obtain ⟨d, -, h'⟩ := List.mem_flatMap.mp hfinalizer
      obtain ⟨-, -, rfl⟩ := mem_classFinalizer.mp h'
      rcases (hmethods c hc _ h).2 with ⟨method, heq⟩ | ⟨heq, -⟩ <;> cases heq
  · -- what is declared external belongs to no class
    intro entry hexternal hrest
    obtain ⟨-, -, name, -, -, hfunction, -⟩ := mem_externDeclarations hexternal
    rw [mem_append, mem_append] at hrest
    rcases hrest with hmethod | hcopy | hfinalizer
    · obtain ⟨c, hc, h⟩ := List.mem_flatMap.mp hmethod
      cases congrArg EmittedFunction.owner hfunction ▸ (hmethods c hc entry h).1
    · obtain ⟨d, hd, h'⟩ := List.mem_flatMap.mp hcopy
      obtain ⟨index, destroyed, heq⟩ := hcopies d hd entry h'
      cases hfunction.symm.trans heq
    · obtain ⟨d, -, h'⟩ := List.mem_flatMap.mp hfinalizer
      obtain ⟨-, -, rfl⟩ := mem_classFinalizer.mp h'
      cases hfunction

/-- The type that the function of a class has wherever it is emitted. -/
def EmittedFunction.type : EmittedFunction → FunctionType
  | .method _ declaration => methodType declaration
  | _ => finalizerType

def classEntry (generatingModule : Text) (owner : ClassInfo) (function : EmittedFunction) :
    FunctionEntry :=
  ⟨function, function.symbol, function.type, owner.moduleName == generatingModule⟩

theorem EntryOf.cases {entry : FunctionEntry} (h : EntryOf e generatingModule entry) :
    entry ∈ EmissionUnits.externDeclarations e.outOfLineMethods [] ∨
      ∃ c ∈ e.program.classes, FunctionOf e.program c entry.function ∧
        entry = classEntry generatingModule c.label entry.function := by
  cases h with
  | external h => exact .inl h
  | method hc hmethod => exact .inr ⟨_, hc, .method hmethod, rfl⟩
  | destroyCopy hc own hcall =>
    refine .inr ⟨_, hc, .destroyCopy hcall, ?_⟩
    rw [classEntry, beq_iff_eq.mpr own]
    rfl
  | declared hc foreign =>
    refine .inr ⟨_, hc, .finalizer, ?_⟩
    rw [classEntry, beq_eq_false_iff_ne.mpr foreign]
    rfl
  | finalizer hc own hchain =>
    refine .inr ⟨_, hc, .finalizer, ?_⟩
    rw [classEntry, beq_iff_eq.mpr own]
    rfl

theorem FunctionOf.label_unique {p : Program} {function : EmittedFunction}
    (h : FunctionOf p c function) (h' : FunctionOf p d function) : c.label = d.label :=
  Option.some.inj (h.owner.symm.trans h'.owner)

theorem EntryOf.entry_eq {entry : FunctionEntry} (h : EntryOf e generatingModule entry)
    (hof : FunctionOf e.program c entry.function) :
    entry = classEntry generatingModule c.label entry.function := by
  rcases h.cases with hexternal | ⟨d, -, hof', heq⟩
  · obtain ⟨-, -, name, -, -, hname, -⟩ := mem_externDeclarations hexternal
    cases hname ▸ hof.owner
  · rw [← hof'.label_unique hof]
    exact heq

/-- Units agree on the type of a function. -/
theorem EntryOf.type_unique {generatingModule' : Text} {entry entry' : FunctionEntry}
    (h : EntryOf e generatingModule entry) (h' : EntryOf e generatingModule' entry')
    (hfunction : entry.function = entry'.function) : entry.type = entry'.type := by
  rcases h.cases with hexternal | ⟨c, -, hof, heq⟩
  · rcases h'.cases with hexternal' | ⟨d, -, hof, heq⟩
    · rw [List.inj_on_of_nodup_map (externDeclarations_nodup _ _) hexternal hexternal' hfunction]
    · obtain ⟨-, -, name, -, -, hname, -⟩ := mem_externDeclarations hexternal
      cases (hfunction.symm.trans hname) ▸ hof.owner
  · rw [heq, h'.entry_eq (hfunction ▸ hof), hfunction]
    rfl

theorem EntryOf.finalizer_entry (hd : d ∈ e.program.classes) {entry : FunctionEntry}
    (h : EntryOf e generatingModule entry) (hfunction : entry.function = .finalizer d.label) :
    d.label.moduleName = generatingModule → destructorChain e.program d ≠ [] := by
  intro hmodule
  have hsame : ∀ c ∈ e.program.classes,
      EmittedFunction.finalizer c.label = .finalizer d.label → c = d := by
    intro c hc heq
    exact e.program.class_unique hc hd (congrArg ClassInfo.name (EmittedFunction.finalizer.inj heq))
  cases h with
  | external h =>
    obtain ⟨-, -, name, -, -, hname, -⟩ := mem_externDeclarations h
    cases hname.symm.trans hfunction
  | method hc hmethod | destroyCopy hc own hcall => cases hfunction
  | declared hc foreign => exact absurd (hsame _ hc hfunction ▸ hmodule) foreign
  | finalizer hc own hchain => exact hsame _ hc hfunction ▸ hchain

theorem mem_emitted_function (hc : c ∈ e.program.classes) {function : EmittedFunction}
    (h : function ∈ e.classFunctions c) :
    FunctionOf e.program c function ∧
      EntryOf e c.label.moduleName (classEntry c.label.moduleName c.label function) := by
  rw [EmissionUnits.classFunctions, mem_append, mem_append] at h
  rw [classEntry, beq_self_eq_true]
  rcases h with h | h | h
  · obtain ⟨method, hmethod, rfl⟩ := List.mem_map.mp h
    have hentry : EntryOf e c.label.moduleName _ := .method hc hmethod
    rw [beq_self_eq_true] at hentry
    exact ⟨.method hmethod, hentry⟩
  · obtain ⟨call, hcall, rfl⟩ := List.mem_map.mp h
    exact ⟨.destroyCopy hcall, .destroyCopy hc rfl hcall⟩
  · split at h
    · cases h
    · next hchain =>
      obtain rfl := List.mem_singleton.mp h
      exact ⟨.finalizer, .finalizer hc rfl hchain⟩

/-! ## References -/

inductive ReferenceOf (e : EmissionUnits) (generatingModule : Text) : Reference → Prop where
  | finalizer {c : ClassDeclaration} (hc : c ∈ e.program.classes)
      (h : destructorChain e.program c ≠ []) :
      ReferenceOf e generatingModule ⟨.finalizer c.label, finalizerType⟩
  | method {c : ClassDeclaration} (hc : c ∈ e.program.classes) {method : MethodDeclaration}
      (h : method ∈ c.label.methods) (refers : e.Refers generatingModule c method) :
      ReferenceOf e generatingModule ⟨.method c.label method, methodType method⟩
  | destroyCopy {c : ClassDeclaration} (hc : c ∈ e.program.classes)
      (own : c.label.moduleName = generatingModule) {call : ClassInfo × Nat}
      (h : call ∈ (destructorChain e.program c).zipIdx) :
      ReferenceOf e generatingModule ⟨.destroyCopy c.label call.2 call.1, finalizerType⟩

theorem finalizerPointer_iff (hc : c ∈ e.program.classes) :
    EmissionUnits.finalizerPointer c = true ↔ destructorChain e.program c ≠ [] := by
  rw [EmissionUnits.finalizerPointer, Bool.and_eq_true, containsDestructor_chain hc]
  refine ⟨And.right, fun h => ⟨?_, h⟩⟩
  cases hbuiltin : c.label.builtin with
  | false => rfl
  | true =>
    have hcontains := (containsDestructor_chain (p := e.program) hc).mpr h
    obtain ⟨u, hu, hdestructor⟩ := (containsDestructor_iff c).mp hcontains
    obtain rfl : u = c := by
      rcases Tree.mem_subtrees.mp hu with rfl | ⟨base, hbase, -⟩
      · rfl
      · cases e.program.builtinBases c hc hbuiltin ▸ hbase
    obtain ⟨method, hmethod, htest⟩ := List.any_eq_true.mp hdestructor
    cases (e.builtin u hc hbuiltin method hmethod).symm.trans htest

theorem pathCandidates_classes {p : Program} {before path : List Text}
    {candidate : List Text × ClassDeclaration} (h : candidate ∈ pathCandidates p before path) :
    candidate.2 ∈ p.classes := by
  induction path generalizing before with
  | nil => cases h
  | cons name rest ih =>
    rw [pathCandidates] at h
    split at h
    · cases h
    · next base hbase =>
      rcases List.mem_cons.mp h with rfl | h
      · exact List.mem_of_find?_eq_some hbase
      · exact ih h

theorem implementation_class {p : Program} (hc : c ∈ p.classes)
    {view : List Text × ClassDeclaration}
    (hview : view ∈ subobjects c) {slot : MethodDeclaration} {impl : Implementation}
    (h : implementation p c view slot = some impl) :
    impl.owner ∈ p.classes ∧ impl.method ∈ impl.owner.label.ordinaryMethods := by
  obtain ⟨himplements, before, after, hsplit, -⟩ := firstImplementation_eq_some h
  refine ⟨?_, (implementing_eq_some himplements).1⟩
  have hcandidate : (impl.path, impl.owner) ∈ candidates p c view :=
    hsplit ▸ List.mem_append_right _ mem_cons_self
  rw [candidates, List.mem_cons, mem_append] at hcandidate
  rcases hcandidate with hown | hpath | hnested
  · exact (Prod.mk.inj hown).2 ▸ hc
  · exact pathCandidates_classes hpath
  · obtain ⟨nested, hnested, heq⟩ := List.mem_map.mp (List.mem_filter.mp hnested).1
    obtain ⟨_, hwalk⟩ := subobjects_walk (p.distinctBases hc) hview whole
    have hviewClass := p.mem_subtree hc (walk_mem hwalk)
    obtain ⟨_, hwalk'⟩ := subobjects_walk (p.distinctBases hviewClass) hnested whole
    exact (Prod.mk.inj heq).2 ▸ p.mem_subtree hviewClass (walk_mem hwalk')

theorem methodType_ordinary {method : MethodDeclaration} (h : method.ordinary = true) :
    methodType method = ⟨llvmTypeName method.returnType,
      "ptr".toList :: method.parameters.map llvmTypeName⟩ := by
  have hconstructor : method.isConstructor = false := by
    rw [MethodDeclaration.ordinary, Bool.and_eq_true, Bool.not_eq_true'] at h
    exact h.1
  rw [methodType, hconstructor]
  rfl

theorem constructorCall_eq {call : ClassDeclaration × MethodDeclaration}
    (h : call ∈ e.constructorCalls generatingModule) :
    EmissionUnits.constructorCall call = ⟨.method call.1.label call.2, methodType call.2⟩ := by
  obtain ⟨hc, hmethod, hconstructor⟩ := e.constructorsDeclared _ call h
  have hreturn := e.returnNothing _ hc _ hmethod
    (by simp [MethodDeclaration.ordinary, hconstructor])
  rw [EmissionUnits.constructorCall, methodType, hconstructor, hreturn, llvmTypeName_void]
  rfl

theorem own_thunk (hc : c ∈ e.program.classes) {method : MethodDeclaration}
    (h : method ∈ c.label.ordinaryMethods) :
    ⟨.method c.label method, methodType method⟩ ∈ e.thunkCalls c ([], c) := by
  have hown : implementation e.program c ([], c) method = some ⟨c, method, []⟩ := by
    rw [implementation, firstImplementation, candidates, List.findSome?_cons,
      e.program.implementing_own hc h ⟨rfl, rfl⟩]
    rfl
  refine List.mem_filterMap.mpr ⟨method, e.program.own_slot hc h, ?_⟩
  rw [hown, methodType_ordinary (mem_ordinaryMethods.mp h).2]
  rfl

theorem mem_references {reference : Reference} :
    reference ∈ e.references generatingModule ↔ ReferenceOf e generatingModule reference := by
  simp only [EmissionUnits.references, mem_append, List.mem_flatMap]
  constructor
  · rintro (h | ⟨c, hc, view, hview, h⟩ | ⟨c, hc, h⟩ | h)
    · obtain ⟨c, hc, rfl⟩ := List.mem_map.mp h
      obtain ⟨hmem, hpointer⟩ := List.mem_filter.mp hc
      exact .finalizer hmem ((finalizerPointer_iff hmem).mp hpointer)
    · obtain ⟨slot, -, hslot⟩ := List.mem_filterMap.mp h
      obtain ⟨impl, himpl, rfl⟩ := Option.map_eq_some_iff.mp hslot
      obtain ⟨howner, hordinary⟩ := implementation_class hc hview himpl
      obtain ⟨hmethod, htest⟩ := mem_ordinaryMethods.mp hordinary
      rw [← methodType_ordinary htest]
      exact .method howner hmethod (.inl htest)
    · rw [EmissionUnits.finalizerCalls] at h
      split at h
      · cases h
      · next hmodule =>
        obtain ⟨call, hcall, rfl⟩ := List.mem_map.mp h
        exact .destroyCopy hc (by simpa using hmodule) hcall
    · obtain ⟨call, hcall, rfl⟩ := List.mem_map.mp h
      obtain ⟨hc, hmethod, -⟩ := e.constructorsDeclared _ call hcall
      rw [constructorCall_eq hcall]
      exact .method hc hmethod (.inr hcall)
  · intro h
    cases h with
    | finalizer hc hchain =>
      exact .inl (List.mem_map.mpr
        ⟨_, List.mem_filter.mpr ⟨hc, (finalizerPointer_iff hc).mpr hchain⟩, rfl⟩)
    | method hc hmethod refers =>
      rcases refers with hordinary | hcall
      · exact .inr (.inl ⟨_, hc, _, self_mem_subobjects _,
          own_thunk hc (mem_ordinaryMethods.mpr ⟨hmethod, hordinary⟩)⟩)
      · exact .inr (.inr (.inr (List.mem_map.mpr ⟨_, hcall, constructorCall_eq hcall⟩)))
    | destroyCopy hc own hcall =>
      refine .inr (.inr (.inl ⟨_, hc, ?_⟩))
      rw [EmissionUnits.finalizerCalls, if_neg (by simp [own])]
      exact List.mem_map.mpr ⟨_, hcall, rfl⟩

theorem ReferenceOf.entry {reference : Reference} (h : ReferenceOf e generatingModule reference) :
    ∃ c ∈ e.program.classes, FunctionOf e.program c reference.function ∧
      reference.type = reference.function.type ∧
        EntryOf e generatingModule (classEntry generatingModule c.label reference.function) := by
  cases h with
  | @finalizer c hc hchain =>
    refine ⟨c, hc, .finalizer, rfl, ?_⟩
    by_cases hmodule : c.label.moduleName = generatingModule
    · rw [classEntry, beq_iff_eq.mpr hmodule]
      exact .finalizer hc hmodule hchain
    · rw [classEntry, beq_eq_false_iff_ne.mpr hmodule]
      exact .declared hc hmodule
  | @method c hc _ hmethod refers => exact ⟨c, hc, .method hmethod, rfl, .method hc hmethod⟩
  | @destroyCopy c hc own _ hcall =>
    refine ⟨c, hc, .destroyCopy hcall, rfl, ?_⟩
    rw [classEntry, beq_iff_eq.mpr own]
    exact .destroyCopy hc own hcall

theorem ReferenceOf.refers {reference : Reference} (h : ReferenceOf e generatingModule reference)
    (hc : c ∈ e.program.classes) {method : MethodDeclaration}
    (hfunction : reference.function = .method c.label method) :
    e.Refers generatingModule c method := by
  cases h with
  | finalizer => cases hfunction
  | method hd hmethod refers =>
    obtain ⟨hlabel, rfl⟩ := EmittedFunction.method.inj hfunction
    exact e.program.class_unique hd hc (congrArg ClassInfo.name hlabel) ▸ refers
  | destroyCopy => cases hfunction

theorem ReferenceOf.chain {reference : Reference} (h : ReferenceOf e generatingModule reference)
    (hc : c ∈ e.program.classes) (hfunction : reference.function = .finalizer c.label) :
    destructorChain e.program c ≠ [] := by
  cases h with
  | finalizer hd hchain =>
    have hlabel := EmittedFunction.finalizer.inj hfunction
    exact e.program.class_unique hd hc (congrArg ClassInfo.name hlabel) ▸ hchain
  | method | destroyCopy => cases hfunction

/-! ## The partition -/

theorem mem_definitions {definition : Text × FunctionEntry} : definition ∈ e.definitions ↔
    definition.1 ∈ e.units ∧ EntryOf e definition.1 definition.2 ∧ definition.2.defined = true := by
  obtain ⟨unit, entry⟩ := definition
  simp only [EmissionUnits.definitions, List.mem_flatMap, List.mem_map, List.mem_filter,
    mem_emitted]
  constructor
  · rintro ⟨generatingModule, hunit, entry, ⟨hentry, hdefined⟩, heq⟩
    obtain ⟨rfl, rfl⟩ := Prod.mk.inj heq
    exact ⟨hunit, hentry, hdefined⟩
  · rintro ⟨hunit, hentry, hdefined⟩
    exact ⟨unit, hunit, entry, ⟨hentry, hdefined⟩, rfl⟩

theorem definitions_nodup (e : EmissionUnits) : e.definitions.Nodup := by
  refine List.nodup_flatMap.mpr ⟨?_, ?_⟩
  · intro generatingModule _
    exact ((emitted_nodup e generatingModule).filter _).map fun _ _ heq => (Prod.mk.inj heq).2
  · have hunits : e.units.Nodup := List.nodup_cons.mpr ⟨e.modulesNamed, e.modulesDistinct⟩
    refine hunits.imp ?_
    intro unit unit' hne definition h h'
    obtain ⟨entry, -, rfl⟩ := List.mem_map.mp h
    obtain ⟨entry', -, heq⟩ := List.mem_map.mp h'
    exact hne (Prod.mk.inj heq).1.symm

theorem own_unit (hc : c ∈ e.program.classes) : c.label.moduleName ∈ e.units := by
  rcases e.loaded c hc with hmain | hmodule
  · exact hmain ▸ mem_cons_self
  · exact mem_cons_of_mem _ hmodule

theorem FunctionOf.same {f g : EmittedFunction} (hf : FunctionOf e.program c f)
    (hg : FunctionOf e.program d g) (hc : c ∈ e.program.classes) (hd : d ∈ e.program.classes)
    (hsymbol : g.symbol = f.symbol)
    (hmethod : ∀ method ∈ c.label.methods, f = .method c.label method → g = .finalizer d.label →
      ¬ NamedAlike c method d)
    (hfinalizer : ∀ method ∈ d.label.methods, g = .method d.label method → f = .finalizer c.label →
      ¬ NamedAlike d method c) : g = f := by
  rcases hf.unique hg hc hd hsymbol.symm with
    heq | ⟨method, hmem, hf, hg, halike⟩ | ⟨method, hmem, hg, hf, halike⟩
  · exact heq.symm
  · exact absurd halike (hmethod method hmem hf hg)
  · exact absurd halike (hfinalizer method hmem hg hf)

theorem Unclashing.defined (h : Unclashing e) (hc : c ∈ e.program.classes)
    {function : EmittedFunction} (hfunction : function ∈ e.classFunctions c) :
    e.definitions.filter (fun definition => definition.2.symbol == function.symbol)
      = [(c.label.moduleName, classEntry c.label.moduleName c.label function)] := by
  obtain ⟨hof, hentry⟩ := mem_emitted_function hc hfunction
  refine filter_eq_singleton (definitions_nodup e)
    (mem_definitions.mpr ⟨own_unit hc, hentry, beq_self_eq_true _⟩) (beq_self_eq_true _) ?_
  rintro ⟨unit, other⟩ hother hsymbol
  obtain ⟨-, hother, hdefined⟩ := mem_definitions.mp hother
  rcases hother.cases with hexternal | ⟨d, hd, hof', heq⟩
  · obtain ⟨-, -, name, -, -, -, -, hdeclared⟩ := mem_externDeclarations hexternal
    cases hdeclared.symm.trans hdefined
  · have hunit : d.label.moduleName = unit := by
      rw [heq] at hdefined
      exact eq_of_beq hdefined
    have hsymbols : other.function.symbol = function.symbol := by
      rw [heq] at hsymbol
      exact eq_of_beq hsymbol
    -- a finalizer that is defined has a chain
    have hsame : other.function = function := by
      refine hof.same hof' hc hd hsymbols ?_ ?_
      · intro method hmem _ hg halike
        exact hother.finalizer_entry hd hg hunit
          (h.finalizers c hc method hmem halike.plain d hd halike.name).1
      · intro method hmem _ hf halike
        exact hentry.finalizer_entry hc hf rfl
          (h.finalizers d hd method hmem halike.plain c hc halike.name).1
    have hlabel : d.label = c.label := hof'.label_unique (hsame ▸ hof)
    have hentries : other = classEntry unit d.label other.function := heq
    rw [hentries, ← hunit, hlabel, hsame]

theorem Unclashing.linked (h : Unclashing e) (hunit : generatingModule ∈ e.units)
    {reference : Reference} (hreference : reference ∈ e.references generatingModule) :
    ∃ entry : FunctionEntry, entry.function = reference.function ∧ entry.type = reference.type ∧
      EmissionUnits.occurrences (e.emitted generatingModule) reference.function.symbol =
      [entry] := by
  have hrefers := mem_references.mp hreference
  obtain ⟨c, hc, hof, htype, hentry⟩ := hrefers.entry
  refine ⟨_, rfl, htype.symm, filter_eq_singleton (emitted_nodup e _) (mem_emitted.mpr hentry)
    (beq_self_eq_true _) ?_⟩
  intro other hother hsymbol
  have hother := mem_emitted.mp hother
  rcases hother.cases with hexternal | ⟨d, hd, hof', heq⟩
  · obtain ⟨definition, hdefinition, name, hname, -, -, hnamed, -⟩ :=
      mem_externDeclarations hexternal
    exact absurd ((eq_of_beq hsymbol).symm.trans hnamed)
      (h.externals definition hdefinition name hname _ hunit reference hreference)
  · have hsymbols : other.function.symbol = reference.function.symbol := by
      rw [heq] at hsymbol
      exact eq_of_beq hsymbol
    have hsame : other.function = reference.function := by
      refine hof.same hof' hc hd hsymbols ?_ ?_
      · intro method hmem hf hg halike
        obtain ⟨hchain, hunused⟩ := h.finalizers c hc method hmem halike.plain d hd halike.name
        by_cases hmodule : d.label.moduleName = generatingModule
        · exact hother.finalizer_entry hd hg hmodule hchain
        · exact hunused generatingModule hunit (Ne.symm hmodule) (hrefers.refers hc hf)
      · intro method hmem hg hf halike
        exact hrefers.chain hc hf (h.finalizers d hd method hmem halike.plain c hc halike.name).1
    have hlabel : d.label = c.label := hof'.label_unique (hsame ▸ hof)
    rw [heq, hlabel, hsame]

theorem finalizers_defined (hc : c ∈ e.program.classes) : EmissionUnits.finalizerPointer c = true ↔
    ∃ generatingModule ∈ e.units, ∃ entry ∈ e.emitted generatingModule,
      entry.function = .finalizer c.label ∧ entry.defined = true := by
  rw [finalizerPointer_iff hc]
  constructor
  · intro hchain
    exact ⟨_, own_unit hc, _, mem_emitted.mpr (.finalizer hc rfl hchain), rfl, rfl⟩
  · rintro ⟨generatingModule, -, entry, hentry, hfunction, hdefined⟩
    have hentry := mem_emitted.mp hentry
    have hof : FunctionOf e.program c entry.function := hfunction ▸ .finalizer
    refine hentry.finalizer_entry hc hfunction ?_
    rw [hentry.entry_eq hof] at hdefined
    exact eq_of_beq hdefined

theorem Unclashing.partitioned (h : Unclashing e) : Partitioned e where
  defined c hc function hfunction :=
    ⟨_, own_unit hc, classEntry c.label.moduleName c.label function, rfl, h.defined hc hfunction⟩
  linked _ hunit _ hreference := h.linked hunit hreference
  typed _ _ _ hentry _ _ _ hentry' hfunction :=
    (mem_emitted.mp hentry).type_unique (mem_emitted.mp hentry') hfunction
  finalizers _ hc := finalizers_defined hc

theorem Partitioned.unchained (h : Partitioned e) (hc : c ∈ e.program.classes)
    {method : MethodDeclaration} (hmethod : method ∈ c.label.methods) (hd : d ∈ e.program.classes)
    (halike : NamedAlike c method d) : destructorChain e.program d = [] := by
  by_contra hchain
  have hfunction : .method c.label method ∈ e.classFunctions c :=
    List.mem_append_left _ (List.mem_map.mpr ⟨method, hmethod, rfl⟩)
  obtain ⟨unit, -, entry, hentry, hdefinitions⟩ := h.defined c hc _ hfunction
  have hfinalizer : (d.label.moduleName, ⟨.finalizer d.label, finalizerName d.label, finalizerType,
      true⟩) ∈ e.definitions := mem_definitions.mpr ⟨own_unit hd, .finalizer hd rfl hchain, rfl⟩
  have hsymbol := (methodSymbol_namedAlike hc hmethod hd).mpr halike
  have hsame := eq_of_filter_singleton hdefinitions hfinalizer (beq_iff_eq.mpr hsymbol.symm)
  obtain ⟨-, rfl⟩ := Prod.mk.inj hsame
  cases hentry

theorem Partitioned.unused (h : Partitioned e) (hc : c ∈ e.program.classes)
    {method : MethodDeclaration} (hmethod : method ∈ c.label.methods) (hd : d ∈ e.program.classes)
    (halike : NamedAlike c method d) (hunit : generatingModule ∈ e.units)
    (hforeign : generatingModule ≠ d.label.moduleName) : ¬ e.Refers generatingModule c method := by
  intro hrefers
  obtain ⟨entry, hentry, -, hoccurrences⟩ :=
    h.linked _ hunit _ (mem_references.mpr (.method hc hmethod hrefers))
  have hfinalizer := mem_emitted.mpr (.declared hd (Ne.symm hforeign))
  have hsymbol := (methodSymbol_namedAlike hc hmethod hd).mpr halike
  rw [EmissionUnits.occurrences] at hoccurrences
  obtain rfl := eq_of_filter_singleton hoccurrences hfinalizer (beq_iff_eq.mpr hsymbol.symm)
  cases hentry

theorem Partitioned.unclashing (h : Partitioned e) : Unclashing e where
  finalizers c hc method hmethod hplain d hd hname :=
    ⟨h.unchained hc hmethod hd ⟨hplain, hname⟩, fun _ hunit hforeign =>
      h.unused hc hmethod hd ⟨hplain, hname⟩ hunit hforeign⟩
  externals := by
    intro definition hdefinition externalSymbol hsome generatingModule hunit reference
      hreference hsymbol
    obtain ⟨entry, hentry, -, hoccurrences⟩ := h.linked _ hunit _ hreference
    obtain ⟨external, hexternal, hnative, hnamed⟩ :=
      externDeclarations_declares hdefinition hsome (List.not_mem_nil (a := externalSymbol))
    rw [EmissionUnits.occurrences] at hoccurrences
    obtain rfl := eq_of_filter_singleton hoccurrences (mem_emitted.mpr (.external hexternal))
      (beq_iff_eq.mpr (hnamed.trans hsymbol.symm))
    obtain ⟨c, -, hof, -⟩ := (mem_references.mp hreference).entry
    cases (hentry.symm.trans hnative) ▸ hof.owner

end

/-- For every accepted program and the packages it loads: the units partition the
    program exactly if no symbol is used twice. -/
theorem partitioned_iff (e : EmissionUnits) : Partitioned e ↔ Unclashing e :=
  ⟨Partitioned.unclashing, Unclashing.partitioned⟩

/-! ## A class named like the prefix of finalizers -/

/-- `class K { destroy() }` of the package `P` -/
def destroyedK : ClassDeclaration :=
  .node ⟨"K".toList, "P".toList, false, [],
    [⟨destroyName, "void".toList, [], .publicAccess, false, true⟩]⟩ .nil

/-- `class finalize { void K() }` of the main source -/
def finalizeClass : ClassDeclaration :=
  .node ⟨finalizeName, [], false, [], [plainMethod "K" "void"]⟩ .nil

def finalizeClasses : List ClassDeclaration := [destroyedK, finalizeClass]

theorem finalizeClasses_plain :
    ∀ c ∈ finalizeClasses, ∀ method ∈ c.label.methods, method.parameters = [] := by decide +kernel

def finalizeProgram : Program where
  classes := finalizeClasses
  resolved := by decide +kernel
  distinct := by decide +kernel
  qualified := by decide +kernel
  separate := by decide +kernel
  builtinBases := by decide +kernel
  directBases := by decide +kernel
  methodNames := by decide +kernel
  destructors := by decide +kernel
  plainDestructors := fun c hc method h _ => finalizeClasses_plain c hc method h
  methods := by decide +kernel
  types := normalized_of_plain finalizeClasses_plain
  overrides := by decide +kernel

def finalizeUnits : EmissionUnits where
  program := finalizeProgram
  modules := ["P".toList]
  modulesDistinct := by decide +kernel
  modulesNamed := by decide +kernel
  loaded := by decide +kernel
  builtin := by decide +kernel
  returnNothing := by decide +kernel
  destructors := by decide +kernel
  outOfLineMethods := []
  matching := fun _ h => absurd h List.not_mem_nil
  constructorCalls := fun _ => []
  constructorsDeclared := fun _ _ h => absurd h List.not_mem_nil

/-- `finalize.K` is the method of the main unit and the finalizer of the package's
    unit. -/
theorem finalizeUnits_clash : ¬ ∀ e : EmissionUnits, Partitioned e := by
  intro h
  have hclash := (h finalizeUnits).unclashing.finalizers finalizeClass (by decide +kernel)
    (plainMethod "K" "void") (by decide +kernel) rfl destroyedK (by decide +kernel)
      (by decide +kernel)
  exact absurd hclash.1 (by decide +kernel)

end Cwhip.CodeGen
