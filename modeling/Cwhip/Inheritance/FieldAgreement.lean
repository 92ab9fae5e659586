/-
  Cwhip.Inheritance.FieldAgreement

  When the code generator computes the address of the field the analyzer
  checked.

  An unqualified field name always does.  A member access does exactly if the
  first subobject in depth-first base order that declares the field is one the
  analyzer's own edge filter reaches, and a base-qualified receiver starts from
  a variable, a cast or the implicit receiver.
-/

import Cwhip.Inheritance.Access

namespace Cwhip.Inheritance

open Cwhip.Lib
open Option (bind_eq_bind bind_eq_some_iff bind_some pure_def)

namespace Context

variable {ctx : Context}

/-! ## Views -/

theorem findIdx?_getElem? {α : Type} {f : α → Bool} {l : List α} {index : Nat} {a : α}
    (h : l.findIdx? f = some index) (hat : l[index]? = some a) : f a = true := by
  obtain ⟨hlt, hf, _⟩ := List.findIdx?_eq_some_iff_getElem.mp h
  rw [List.getElem?_eq_getElem hlt] at hat
  obtain rfl := Option.some.inj hat
  exact hf

variable {c : ClassDeclaration} {place : Place String} {name : String} {root receiver : Access}
  {q : Qualified} {found : FoundField} {t : Typed}

theorem walkBases_spec (p : Program) (names : List String) {view : ClassDeclaration}
    {place' : Place String} (hc : c ∈ p.classes)
    (h : walkBases p names c place = some (view, place')) :
    view ∈ p.classes ∧ subobjectAddress p names c place = some (view, place') := by
  induction names generalizing c place with
  | nil =>
    rw [walkBases] at h
    obtain ⟨rfl, rfl⟩ := Prod.mk.inj (Option.some.inj h)
    exact ⟨hc, rfl⟩
  | cons name rest ih =>
    rw [walkBases] at h
    simp only [bind_eq_bind, bind_eq_some_iff] at h
    obtain ⟨index, hindex, base, hat, next, hnext, hrest⟩ := h
    have hmem := List.mem_of_getElem? hat
    have hname : base.2.label.name = name := by simpa using findIdx?_getElem? hindex hat
    have hbase := p.find_base hc hmem
    rw [hname, hnext] at hbase
    obtain rfl : next = base.2 := Option.some.inj hbase
    obtain ⟨hview, haddress⟩ := ih (p.mem_base hc hmem) hrest
    refine ⟨hview, ?_⟩
    rw [subobjectAddress]
    simp only [bind_eq_bind, hindex, hat, hnext, bind_some]
    by_cases hvirtual : base.1.isVirtual = true
    · have henter : (fieldSearch name).enter place index base.1 base.2 = ⟨some name, []⟩ := by
        rw [← hname]
        exact if_pos hvirtual
      have hslot : name ∈ virtualBaseNames c := by
        rw [← hname]
        exact mem_virtualBaseNames hmem hvirtual
      rw [if_pos hvirtual, if_pos hslot, ← henter]
      exact haddress
    · have henter : (fieldSearch name).enter place index base.1 base.2
          = ⟨place.anchor, place.indices ++ [index]⟩ := if_neg hvirtual
      rw [if_neg hvirtual, ← henter]
      exact haddress

theorem mem_of_find {p : Program} (h : p.find name = some c) : c ∈ p.classes :=
  List.mem_of_find?_eq_some h

theorem qualify_spec {p : Program} {type : String} {names : List String}
    (h : qualify p root type names = some q) :
    q.root = root ∧ q.view ∈ p.classes ∧
      subobjectAddress p q.path q.rootClass whole = some (q.view, q.place) := by
  simp only [qualify, bind_eq_bind, bind_eq_some_iff, pure_def,
    Option.some.injEq] at h
  obtain ⟨rootClass, hclass, ⟨view, place⟩, hwalk, rfl⟩ := h
  obtain ⟨hview, haddress⟩ := walkBases_spec p names (mem_of_find hclass) hwalk
  exact ⟨rfl, hview, haddress⟩

/-! ## Fields of a view -/

theorem emitField_eq (hc : c ∈ ctx.program.classes) {first : ClassDeclaration × Place String}
    (hfirst : firstDeclaring name c place = some first) :
    ∃ field, ctx.emitField name c place = some (field.type, ⟨first.1, first.2, field⟩) ∧
      first.1.label.findField name = some field := by
  have hspec := findFieldPath_spec ctx.program name c hc place
  rw [hfirst] at hspec
  obtain ⟨path, field, hfound, haddress, hfield⟩ := hspec
  refine ⟨field, ?_, hfield⟩
  unfold emitField
  rw [hfound]
  simp [haddress]

/-- The first subobject that declares the field is one the analyzer reaches. -/
def Reachable (ctx : Context) (name : String) (view : ClassDeclaration) (place : Place String) :
    Prop :=
  ∀ first, firstDeclaring name view place = some first →
    (ctx.accessibleFieldSearch name).Reaches view place first.1 first.2

theorem exists_first (h : ctx.findField c name place = some found) :
    ∃ first, firstDeclaring name c place = some first := by
  obtain ⟨hreach, hfield⟩ := findField_sound h
  cases hfirst : firstDeclaring name c place with
  | some first => exact ⟨first, rfl⟩
  | none =>
    have hnone := firstDeclaring_none name c place hfirst _ hreach.mem_subtrees
    exact absurd ((declaresField_of_find hfield).symm.trans hnone) (by decide)

theorem member_agrees_iff {accessOwner view : ClassDeclaration} {path : List String}
    (hview : view ∈ ctx.program.classes)
    (h : ctx.analyzeMember accessOwner path view place name = .ok found) :
    ctx.emitField name view place = some (found.field.type, found) ↔
      Reachable ctx name view place := by
  simp only [analyzeMember, bind_eq_ok, ensure_eq_ok, require_eq_ok] at h
  obtain ⟨_, hcount, _, _, _, henum, hfind⟩ := h
  obtain ⟨hreach, hfield⟩ := findField_sound hfind
  obtain ⟨first, hfirst⟩ := exists_first hfind
  obtain ⟨field, hemit, hfirstField⟩ := emitField_eq hview hfirst
  have hstop := (firstDeclaring_some name view place hfirst).2
  rw [hemit]
  constructor
  · intro heq
    obtain ⟨_, hfound⟩ := Prod.mk.inj (Option.some.inj heq)
    intro first' hfirst'
    obtain rfl : first = first' := Option.some.inj (hfirst.symm.trans hfirst')
    rw [← hfound] at hreach
    exact hreach
  · intro hreachable
    obtain ⟨howner, hplace⟩ := accessible_unique hview hcount henum hreach
      (declaresField_of_find hfield) (hreachable first hfirst) hstop
    rw [howner, hfirstField] at hfield
    obtain rfl := Option.some.inj hfield
    rw [← howner, ← hplace]

theorem fieldName_agrees (h : ctx.analyzeFieldName name = .ok found) :
    ∃ current, ctx.currentClass = some current ∧
      ctx.emitField name current whole = some (found.field.type, found) := by
  simp only [analyzeFieldName, bind_eq_ok, ensure_eq_ok, require_eq_ok, pure_eq_ok] at h
  obtain ⟨current, hcurrent, _, _, _, _, _, hcount, found', hfind, _, _, rfl⟩ := h
  refine ⟨current, hcurrent, ?_⟩
  have hmem := ctx.current_mem current hcurrent
  obtain ⟨hreach, hfield⟩ := findField_sound hfind
  obtain ⟨first, hfirst⟩ := exists_first hfind
  obtain ⟨field, hemit, hfirstField⟩ := emitField_eq hmem hfirst
  obtain ⟨hreachFirst, hstop⟩ := firstDeclaring_some name current whole hfirst
  have hweight : ∀ u : ClassDeclaration, u.label.declaresField name = true →
      1 ≤ (u.label.fields.filter fun field => field.name == name).length :=
    fun u hu => filter_length_pos hu
  have hdeclares := declaresField_of_find hfield
  have heq := hit_unique hmem hcount (reaches_field hreach) hdeclares hreachFirst hstop
    (hweight _ hdeclares) (hweight _ hstop)
  obtain ⟨howner, hplace⟩ := Prod.mk.inj heq
  rw [hemit]
  rw [howner, hfirstField] at hfield
  obtain rfl := Option.some.inj hfield
  rw [← howner, ← hplace]

theorem root_agrees (h : ctx.analyzeRoot root = .ok t) :
    ctx.emitRoot root = some t := by
  cases root with
  | identifier type | objectCast type | value type => exact congrArg some (Except.ok.inj h)
  | implicitThis =>
    simp only [analyzeRoot, bind_eq_ok, require_eq_ok, pure_eq_ok] at h
    obtain ⟨current, hcurrent, rfl⟩ := h
    simp [emitRoot, hcurrent]
  | fieldName name =>
    simp only [analyzeRoot, bind_eq_ok, pure_eq_ok] at h
    obtain ⟨found, hfound, rfl⟩ := h
    obtain ⟨current, hcurrent, hemit⟩ := fieldName_agrees hfound
    simp [emitRoot, hcurrent, hemit]
  | member left name => cases h

/-! ## Accesses -/

/-- The field accesses that are evaluated for an access: itself, and those in
    its receiver unless that is only a qualifier. -/
def evaluated (ctx : Context) : Access → List Access
  | .member left name =>
    .member left name ::
      match ctx.resolveBaseQualifier left with
      | .ok (some _) => []
      | _ => evaluated ctx left
  | root => [root]

/-- Where the generator computes the address of the field the analyzer checked. -/
def Resolvable (ctx : Context) : Access → Prop
  | .member left name =>
    match ctx.resolveBaseQualifier left with
    | .ok (some q) => q.root.qualifiable = true ∧ Reachable ctx name q.view q.place
    | _ => ∀ receiver, ctx.analyze left = .ok receiver → ∀ owner,
        ctx.program.find receiver.type = some owner → Reachable ctx name owner whole
  | _ => True

theorem emitQualifier_eq {q : Option Qualified} (h : ctx.resolveBaseQualifier receiver = .ok q) :
    ctx.emitQualifier receiver = if receiver.flatten.1.qualifiable = true then q else none := by
  unfold resolveBaseQualifier at h
  unfold emitQualifier
  cases hnames : receiver.flatten.2 with
  | nil =>
    rw [hnames] at h
    obtain rfl := Except.ok.inj h
    simp
  | cons name rest =>
    rw [hnames] at h
    simp only [bind_eq_ok, pure_eq_ok] at h
    obtain ⟨root, hroot, rfl⟩ := h
    simp only [root_agrees hroot, bind_eq_bind, bind_some]

theorem flatten_ne (h : receiver.flatten.2 ≠ []) :
    receiver ≠ receiver.flatten.1 := by
  have hroot : ∀ a : Access, ∀ left name, a.flatten.1 ≠ .member left name := by
    intro a
    induction a with
    | member left name ih => exact ih
    | _ => intro left name h; cases h
  cases receiver with
  | member left name =>
    intro heq
    exact hroot (.member left name) left name heq.symm
  | _ => exact absurd rfl h

theorem qualified_spec (h : ctx.resolveBaseQualifier receiver = .ok (some q)) :
    q.root = receiver.flatten.1 ∧ receiver ≠ q.root ∧ q.view ∈ ctx.program.classes ∧
      subobjectAddress ctx.program q.path q.rootClass whole = some (q.view, q.place) := by
  unfold resolveBaseQualifier at h
  cases hnames : receiver.flatten.2 with
  | nil =>
    rw [hnames] at h
    cases h
  | cons name rest =>
    rw [hnames] at h
    simp only [bind_eq_ok, pure_eq_ok] at h
    obtain ⟨root, _, hq⟩ := h
    obtain ⟨hroot, hview, haddress⟩ := qualify_spec hq
    refine ⟨hroot, ?_, hview, haddress⟩
    rw [hroot]
    exact flatten_ne (by rw [hnames]; simp)

theorem qualified_agrees_iff {left : Access} (hq : ctx.resolveBaseQualifier left = .ok (some q))
    (h : ctx.analyze (.member left name) = .ok t) :
    ctx.emit (.member left name) = some t ↔
      q.root.qualifiable = true ∧ Reachable ctx name q.view q.place := by
  obtain ⟨hroot, hne, hview, haddress⟩ := qualified_spec hq
  rw [analyze, hq] at h
  simp only [bind_eq_ok, pure_eq_ok] at h
  obtain ⟨found, hfound, rfl⟩ := h
  rw [emit, emitQualifier_eq hq, ← hroot]
  by_cases hqualifiable : q.root.qualifiable = true
  · rw [if_pos hqualifiable, ← member_agrees_iff hview hfound]
    simp only [haddress, bind_eq_bind, bind_some, pure_def]
    cases ctx.emitField name q.view q.place with
    | none => simp
    | some result => simp [Prod.ext_iff, hqualifiable]
  · -- the generator takes the qualifier for a field access of its own
    rw [if_neg hqualifiable]
    constructor
    · intro hemit
      simp only [bind_eq_bind, bind_eq_some_iff, pure_def, Option.some.injEq,
        Typed.mk.injEq, Target.mk.injEq] at hemit
      obtain ⟨_, _, _, _, _, _, _, hleft, _⟩ := hemit
      exact absurd hleft hne
    · exact fun h => absurd h.1 hqualifiable

theorem plain_agrees_iff {left : Access} {receiver : Typed}
    (hq : ctx.resolveBaseQualifier left = .ok none) (hleft : ctx.analyze left = .ok receiver)
    (hemit : ctx.emit left = some receiver) (h : ctx.analyze (.member left name) = .ok t) :
    ctx.emit (.member left name) = some t ↔
      ∀ owner, ctx.program.find receiver.type = some owner → Reachable ctx name owner whole := by
  rw [analyze, hq] at h
  simp only [bind_eq_ok, require_eq_ok, pure_eq_ok, hleft, Except.ok.injEq,
    exists_eq_left'] at h
  obtain ⟨owner, howner, found, hfound, rfl⟩ := h
  have hnone : ctx.emitQualifier left = none := by
    rw [emitQualifier_eq hq]
    exact ite_self _
  rw [emit, hnone]
  simp only [hemit, howner, bind_eq_bind, bind_some, pure_def,
    Option.some.injEq, forall_eq']
  rw [← member_agrees_iff (mem_of_find howner) hfound]
  cases ctx.emitField name owner whole with
  | none => simp
  | some result => simp [Prod.ext_iff]

theorem evaluated_self (a : Access) : a ∈ ctx.evaluated a := by
  cases a <;> simp [evaluated]

theorem root_agrees_iff (hevaluated : ctx.evaluated root = [root])
    (hanalyze : ctx.analyze root = ctx.analyzeRoot root) (hemit : ctx.emit root = ctx.emitRoot root)
    (hresolvable : Resolvable ctx root) :
    (∀ b ∈ ctx.evaluated root, ∀ t', ctx.analyze b = .ok t' → ctx.emit b = some t') ↔
      ∀ b ∈ ctx.evaluated root, Resolvable ctx b := by
  rw [hevaluated, List.forall_mem_singleton, List.forall_mem_singleton, hanalyze, hemit]
  exact ⟨fun _ => hresolvable, fun _ t' ht' => root_agrees ht'⟩

/-- For every accepted access: the generator computes the address of the field
    and subobject the analyzer checked, here and in the receivers, exactly if
    all of these are resolvable. -/
theorem field_access_agrees_iff {a : Access} {t : Typed} (h : ctx.analyze a = .ok t) :
    (∀ b ∈ ctx.evaluated a, ∀ t', ctx.analyze b = .ok t' → ctx.emit b = some t') ↔
      ∀ b ∈ ctx.evaluated a, Resolvable ctx b := by
  induction a generalizing t with
  | member left name ih =>
    cases hq : ctx.resolveBaseQualifier left with
    | error message =>
      rw [analyze, hq] at h
      cases h
    | ok qualifier =>
      cases qualifier with
      | some q =>
        have hiff := qualified_agrees_iff hq h
        have hevaluated : ctx.evaluated (.member left name) = [.member left name] := by
          rw [evaluated, hq]
        rw [hevaluated, List.forall_mem_singleton, List.forall_mem_singleton, Resolvable, hq]
        simp only [h, Except.ok.injEq, forall_eq']
        exact hiff
      | none =>
        have hplain := h
        rw [analyze, hq] at hplain
        simp only [bind_eq_ok] at hplain
        obtain ⟨receiver, hleft, _⟩ := hplain
        have hevaluated : ctx.evaluated (.member left name)
            = .member left name :: ctx.evaluated left := by
          rw [evaluated, hq]
        rw [hevaluated, List.forall_mem_cons, List.forall_mem_cons, Resolvable, hq]
        simp only [h, hleft, Except.ok.injEq, forall_eq']
        rw [← ih hleft]
        constructor
        · rintro ⟨hhere, hbelow⟩
          have hemit := hbelow left (evaluated_self left) receiver hleft
          exact ⟨(plain_agrees_iff hq hleft hemit h).mp hhere, hbelow⟩
        · rintro ⟨hhere, hbelow⟩
          have hemit := hbelow left (evaluated_self left) receiver hleft
          exact ⟨(plain_agrees_iff hq hleft hemit h).mpr hhere, hbelow⟩
  | identifier type | fieldName name | implicitThis | objectCast type | value type =>
    exact root_agrees_iff rfl rfl rfl trivial

/-! ## A hidden field -/

/-- `class A { private: int x }` -/
def hiddenA : ClassDeclaration := .node ⟨"A", [⟨"int", "x", .privateAccess⟩], []⟩ .nil

/-- `class B { public: String x }` -/
def shownB : ClassDeclaration := .node ⟨"B", [⟨"String", "x", .publicAccess⟩], []⟩ .nil

/-- `class C : A, B` -/
def derivedC : ClassDeclaration :=
  .node ⟨"C", [], []⟩
    (.cons ⟨.publicAccess, false⟩ hiddenA (.cons ⟨.publicAccess, false⟩ shownB .nil))

/-- `class D : B, A` -/
def derivedD : ClassDeclaration :=
  .node ⟨"D", [], []⟩
    (.cons ⟨.publicAccess, false⟩ shownB (.cons ⟨.publicAccess, false⟩ hiddenA .nil))

def hiddenProgram : Program where
  classes := [hiddenA, shownB, derivedC, derivedD]
  resolved := by decide
  directBases := by decide
  uniqueFields := by decide
  freshFields := by decide

/-- The start block of a program with these classes. -/
def hiddenStart : Context := ⟨hiddenProgram, none, fun _ h => nomatch h⟩

/-- `d.x` on a variable of type `D`, where the field that is declared first is the
    accessible one, and its receiver resolve alike. -/
theorem field_access_agrees_shown :
    Resolvable hiddenStart (.member (.identifier "D") "x") ∧
      Resolvable hiddenStart (.identifier "D") := by
  have hanalyze : hiddenStart.analyze (.member (.identifier "D") "x") = .ok ⟨"String",
      some ⟨.identifier "D", ⟨shownB, ⟨none, [0]⟩, ⟨"String", "x", .publicAccess⟩⟩⟩⟩ := by decide
  have hemit : hiddenStart.emit (.member (.identifier "D") "x") = some ⟨"String",
      some ⟨.identifier "D", ⟨shownB, ⟨none, [0]⟩, ⟨"String", "x", .publicAccess⟩⟩⟩⟩ := by decide
  have hevaluated : hiddenStart.evaluated (.member (.identifier "D") "x")
      = [.member (.identifier "D") "x", .identifier "D"] := by decide
  have hresolvable := (field_access_agrees_iff hanalyze).mp
  rw [hevaluated, List.forall_mem_cons, List.forall_mem_singleton, List.forall_mem_cons,
    List.forall_mem_singleton] at hresolvable
  refine hresolvable ⟨?_, ?_⟩
  · intro t' ht'
    obtain rfl := Except.ok.inj (hanalyze.symm.trans ht')
    exact hemit
  · exact fun t' ht' => congrArg some (Except.ok.inj ht')

/-- `c.x` on a variable of type `C`: the analyzer checks `B.x`, the generator
    computes the address of `A.x`. -/
theorem hidden_field_differs : ¬ ∀ (ctx : Context) (a : Access) (t : Typed),
    ctx.analyze a = .ok t → ctx.emit a = some t := by
  intro h
  have hanalyze : hiddenStart.analyze (.member (.identifier "C") "x") = .ok ⟨"String",
      some ⟨.identifier "C", ⟨shownB, ⟨none, [1]⟩, ⟨"String", "x", .publicAccess⟩⟩⟩⟩ := by decide
  exact absurd (h _ _ _ hanalyze) (by decide)

end Context

end Cwhip.Inheritance
