/-
  Cwhip.CodeGen.CallbackTypes

  Callback signatures as type names (`CallbackType.hpp`), and what
  `SemanticAnalyzer::normalizeType` makes of them.

  Both loops of the decoder count angle brackets, so what is tracked of a type
  name is the depth at each of its characters.
-/

import Cwhip.CodeGen.Symbols
import Cwhip.Parser.Token

namespace Cwhip.CodeGen

open Cwhip.Parser (SourceLocation DiagnosticError)

/-! ## Decoding -/

/-- `++depth` and `--depth` of the decoder. -/
def depthAfter (depth : Int) (c : Char) : Int :=
  if c = '<' then depth + 1 else if c = '>' then depth - 1 else depth

/-- The first loop: the text up to an opening parenthesis outside of angle
    brackets, and what follows it. -/
def scanResult : Int → Text → Text × Text
  | _, [] => ([], [])
  | depth, c :: rest =>
    if c = '(' ∧ depth = 0 then ([], rest)
    else (c :: (scanResult (depthAfter depth c) rest).1, (scanResult (depthAfter depth c) rest).2)

/-- The second loop: the texts between commas outside of angle brackets. -/
def scanParameters : Int → Text → Text × List Text
  | _, [] => ([], [])
  | depth, c :: rest =>
    if c = ',' ∧ depth = 0 then
      ([], (scanParameters depth rest).1 :: (scanParameters depth rest).2)
    else
      (c :: (scanParameters (depthAfter depth c) rest).1,
        (scanParameters (depthAfter depth c) rest).2)

/-- The last text is no parameter if it is empty. -/
def parameterTexts : Text → List Text → List Text
  | last, [] => if last = [] then [] else [last]
  | first, next :: rest => first :: parameterTexts next rest

/-- `callbackSignature`, behind `callback<`; the last two characters close it. -/
def callbackSignature (type : Text) : Text × List Text :=
  let scanned := scanResult 0 (type.drop 9)
  let parts := scanParameters 0 (scanned.2.take (scanned.2.length - 2))
  (scanned.1, parameterTexts parts.1 parts.2)

/-! ## Type names -/

/-- What the parser accepts as a type, nested to any depth. -/
abbrev TypeName (type : Text) : Prop := Normalized (fun name => isQualified name = true) type

/-- From a depth a text goes back to depth 0, and separates nothing there. -/
def Enclosed : Int → Text → Prop
  | depth, [] => depth = 0
  | depth, c :: rest =>
    0 ≤ depth ∧ (depth = 0 → c ≠ '(' ∧ c ≠ ',') ∧ Enclosed (depthAfter depth c) rest

variable {depth : Int} {text rest : Text} {parameters : List Text}

theorem Enclosed.within {outer : Int} (h : Enclosed depth text) (houter : 0 < outer)
    (hrest : Enclosed outer rest) : Enclosed (depth + outer) (text ++ rest) := by
  induction text generalizing depth with
  | nil =>
    have hzero : depth = 0 := h
    rw [hzero, Int.zero_add]
    exact hrest
  | cons c text ih =>
    obtain ⟨hpos, _, htext⟩ := h
    refine ⟨by omega, fun hzero => by omega, ?_⟩
    have hnext : depthAfter (depth + outer) c = depthAfter depth c + outer := by
      simp only [depthAfter]
      split
      · omega
      · split
        · omega
        · rfl
    show Enclosed (depthAfter (depth + outer) c) (text ++ rest)
    rw [hnext]
    exact ih htext

theorem enclosed_plain {text : Text} (h : ∀ c ∈ text, c ≠ '<' ∧ c ≠ '>' ∧ c ≠ '(' ∧ c ≠ ',')
    {rest : Text} (hrest : Enclosed 0 rest) : Enclosed 0 (text ++ rest) := by
  induction text with
  | nil => exact hrest
  | cons c text ih =>
    obtain ⟨⟨hopen, hclose, hparen, hcomma⟩, htext⟩ := List.forall_mem_cons.mp h
    refine ⟨Int.le_refl 0, fun _ => ⟨hparen, hcomma⟩, ?_⟩
    show Enclosed (depthAfter 0 c) (text ++ rest)
    rw [depthAfter, if_neg hopen, if_neg hclose]
    exact ih htext

theorem enclosed_inner {c : Char} (hopen : c ≠ '<') (hclose : c ≠ '>')
    (h : Enclosed 1 rest) : Enclosed 1 (c :: rest) := by
  refine ⟨by omega, fun hzero => absurd hzero (by decide), ?_⟩
  rw [depthAfter, if_neg hopen, if_neg hclose]
  exact h

theorem enclosed_joined (h : ∀ type ∈ parameters, Enclosed 0 type)
    (hrest : Enclosed 1 rest) : Enclosed 1 ([','].intercalate parameters ++ rest) := by
  induction parameters with
  | nil => exact hrest
  | cons type later ih =>
    obtain ⟨htype, hlater⟩ := List.forall_mem_cons.mp h
    cases later with
    | nil =>
      rw [List.intercalate_singleton]
      exact htype.within (by omega) hrest
    | cons next later =>
      rw [List.intercalate_cons_cons, List.append_assoc, List.append_assoc]
      exact htype.within (by omega) (enclosed_inner (by decide) (by decide) (ih hlater))

theorem plain_of_isQualified {name : Text} (h : isQualified name = true) :
    ∀ c ∈ name, c ≠ '<' ∧ c ≠ '>' ∧ c ≠ '(' ∧ c ≠ ',' := by
  intro c hc
  rcases isQualified_mem h hc with rfl | hpart
  · decide
  · refine ⟨?_, ?_, ?_, ?_⟩ <;>
    · rintro rfl
      exact absurd hpart (by decide)

theorem builtinTypes_qualified : (builtinTypes.all isQualified) = true := by decide +kernel

theorem enclosed_of_typeName {type : Text} (h : TypeName type) : Enclosed 0 type ∧ type ≠ [] := by
  have hname : ∀ {name : Text}, isQualified name = true → Enclosed 0 name ∧ name ≠ [] := by
    intro name hname
    obtain ⟨first, rest, heq, _⟩ := isQualified_first hname
    refine ⟨?_, by rw [heq]; exact List.cons_ne_nil _ _⟩
    rw [← List.append_nil name]
    exact enclosed_plain (plain_of_isQualified hname) (rfl : (0 : Int) = 0)
  induction h with
  | builtin h => exact hname (List.all_eq_true.mp builtinTypes_qualified _ h)
  | named h => exact hname h
  | @callback result parameters _ _ ihresult ihparameters =>
    rw [callbackType, callbackOpen_eq]
    refine ⟨?_, List.cons_ne_nil _ _⟩
    have hclose : Enclosed 1 [')', '>'] := ⟨by decide, by decide, by decide, by decide, rfl⟩
    have hinner := ihresult.1.within (by omega : (0 : Int) < 1)
      (enclosed_inner (c := '(') (by decide) (by decide)
        (enclosed_joined (fun type hmem => (ihparameters type hmem).1) hclose))
    have hword : ∀ c ∈ "callback".toList, c ≠ '<' ∧ c ≠ '>' ∧ c ≠ '(' ∧ c ≠ ',' :=
      plain_of_isQualified (by decide +kernel)
    exact enclosed_plain hword ⟨by decide, by decide, hinner⟩

/-! ## Decoding what was encoded -/

theorem scanResult_enclosed (h : Enclosed depth text) (rest : Text) :
    scanResult depth (text ++ '(' :: rest) = (text, rest) := by
  induction text generalizing depth with
  | nil => exact if_pos ⟨rfl, h⟩
  | cons c text ih =>
    obtain ⟨_, hseparates, htext⟩ := h
    rw [List.cons_append, scanResult, if_neg (fun hc => (hseparates hc.2).1 hc.1), ih htext]

theorem scanParameters_enclosed (h : Enclosed depth text) :
    scanParameters depth text = (text, []) ∧ ∀ rest, scanParameters depth (text ++ ',' :: rest)
      = (text, (scanParameters 0 rest).1 :: (scanParameters 0 rest).2) := by
  induction text generalizing depth with
  | nil =>
    have hzero : depth = 0 := h
    rw [hzero]
    exact ⟨rfl, fun rest => if_pos ⟨rfl, rfl⟩⟩
  | cons c text ih =>
    obtain ⟨_, hseparates, htext⟩ := h
    have hcomma : ¬ (c = ',' ∧ depth = 0) := fun hc => (hseparates hc.2).2 hc.1
    refine ⟨?_, fun rest => ?_⟩
    · rw [scanParameters, if_neg hcomma, (ih htext).1]
    · rw [List.cons_append, scanParameters, if_neg hcomma, (ih htext).2 rest]

theorem parameterTexts_joined (h : ∀ type ∈ parameters, Enclosed 0 type ∧ type ≠ []) :
    parameterTexts (scanParameters 0 ([','].intercalate parameters)).1
      (scanParameters 0 ([','].intercalate parameters)).2 = parameters := by
  induction parameters with
  | nil => rfl
  | cons type later ih =>
    obtain ⟨⟨htype, hne⟩, hlater⟩ := List.forall_mem_cons.mp h
    cases later with
    | nil =>
      rw [List.intercalate_singleton, (scanParameters_enclosed htype).1, parameterTexts, if_neg hne]
    | cons next later =>
      rw [List.intercalate_cons_cons, List.append_assoc, List.singleton_append,
        (scanParameters_enclosed htype).2, parameterTexts, ih hlater]

theorem callbackSignature_callbackType {result : Text} (hresult : TypeName result)
    (hparameters : ∀ type ∈ parameters, TypeName type) :
    callbackSignature (callbackType result parameters) = (result, parameters) := by
  have hopen : (callbackType result parameters).drop 9
      = result ++ '(' :: ([','].intercalate parameters ++ [')', '>']) := by
    rw [callbackType, callbackOpen_eq]
    rfl
  have hclosed : ([','].intercalate parameters ++ [')', '>']).take
      (([','].intercalate parameters ++ [')', '>']).length - 2) = [','].intercalate parameters := by
    rw [List.length_append]
    exact List.take_left' (by simp)
  simp only [callbackSignature, hopen, hclosed,
    scanResult_enclosed (enclosed_of_typeName hresult).1,
    parameterTexts_joined fun type hmem => enclosed_of_typeName (hparameters type hmem)]

/-! ## Normalizing -/

theorem scanResult_length (depth : Int) (text : Text) :
    (scanResult depth text).1.length + (scanResult depth text).2.length ≤ text.length := by
  induction text generalizing depth with
  | nil => exact Nat.le_refl 0
  | cons c text ih =>
    have := ih (depthAfter depth c)
    rw [scanResult]
    split <;> simp only [List.length_cons, List.length_nil] <;> omega

theorem scanParameters_length (depth : Int) (text : Text) :
    (scanParameters depth text).1.length ≤ text.length ∧
      ∀ part ∈ (scanParameters depth text).2, part.length ≤ text.length := by
  induction text generalizing depth with
  | nil => exact ⟨Nat.le_refl 0, fun part hmem => absurd hmem List.not_mem_nil⟩
  | cons c text ih =>
    have hlater : ∀ depth, ∀ part ∈ (scanParameters depth text).2,
        part.length ≤ (c :: text).length :=
      fun depth part hmem => Nat.le_succ_of_le ((ih depth).2 part hmem)
    rw [scanParameters]
    split
    · refine ⟨Nat.zero_le _, List.forall_mem_cons.mpr ⟨?_, hlater depth⟩⟩
      exact Nat.le_succ_of_le (ih depth).1
    · exact ⟨Nat.succ_le_succ (ih (depthAfter depth c)).1, hlater (depthAfter depth c)⟩

theorem mem_parameterTexts {first part : Text} {rest : List Text}
    (h : part ∈ parameterTexts first rest) : part = first ∨ part ∈ rest := by
  induction rest generalizing first with
  | nil =>
    rw [parameterTexts] at h
    split at h
    · cases h
    · exact .inl (List.mem_singleton.mp h)
  | cons next rest ih =>
    rcases List.mem_cons.mp h with rfl | h
    · exact .inl rfl
    · exact .inr (List.mem_cons.mpr (ih h))

theorem callbackSignature_shorter {type : Text} (h : isCallbackType type = true) :
    (callbackSignature type).1.length < type.length ∧
      ∀ part ∈ (callbackSignature type).2, part.length < type.length := by
  have hlong : 9 ≤ type.length := by
    have hprefix := List.isPrefixOf_iff_prefix.mp h
    rw [callbackOpen_eq] at hprefix
    exact hprefix.length_le
  have hscanned := scanResult_length 0 (type.drop 9)
  rw [List.length_drop] at hscanned
  refine ⟨?_, fun part hmem => ?_⟩
  · show (scanResult 0 (type.drop 9)).1.length < type.length
    omega
  · have hparts := scanParameters_length 0
      ((scanResult 0 (type.drop 9)).2.take ((scanResult 0 (type.drop 9)).2.length - 2))
    have htaken := List.length_take_le' ((scanResult 0 (type.drop 9)).2.length - 2)
      (scanResult 0 (type.drop 9)).2
    rcases mem_parameterTexts hmem with rfl | hmem
    · have := hparts.1
      omega
    · have := hparts.2 part hmem
      omega

section

variable (hasNamespaceOrClass : Text → Bool) (resolveClassName : Text → Except DiagnosticError Text)
  (location : SourceLocation)

/-- `normalizeType`, of a type that is no callback. -/
def normalizeName (type : Text) : Except DiagnosticError Text :=
  if type ∈ builtinTypes then .ok type
  else if '.' ∉ type ∧ hasNamespaceOrClass type = false then
    .error ⟨location, "unknown type or class '".toList ++ (type ++ ['\''])⟩
  else resolveClassName type

/-- `SemanticAnalyzer::normalizeType` -/
def normalizeType (type : Text) : Except DiagnosticError Text :=
  if _h : isCallbackType type = true then do
    let result ← normalizeType (callbackSignature type).1
    let parameters ← (callbackSignature type).2.attach.mapM fun part => normalizeType part.1
    return callbackType result parameters
  else normalizeName hasNamespaceOrClass resolveClassName location type
termination_by type.length
decreasing_by
  · exact (callbackSignature_shorter _h).1
  · exact (callbackSignature_shorter _h).2 part.1 part.2

theorem isCallbackType_callbackType (result : Text) (parameters : List Text) :
    isCallbackType (callbackType result parameters) = true := by
  rw [isCallbackType, callbackType, List.isPrefixOf_iff_prefix]
  exact List.prefix_append _ _

theorem mapM_attach {α β ε : Type} (f : α → Except ε β) (l : List α) :
    l.attach.mapM (fun part => f part.1) = l.mapM f := by
  show l.attach.mapM (f ∘ Subtype.val) = l.mapM f
  rw [← List.mapM_map, List.attach_map_subtype_val]

theorem normalizeType_callbackType {result : Text} {parameters : List Text}
    (hresult : TypeName result) (hparameters : ∀ type ∈ parameters, TypeName type) :
    normalizeType hasNamespaceOrClass resolveClassName location
      (callbackType result parameters) = do
      let result ← normalizeType hasNamespaceOrClass resolveClassName location result
      let parameters ← parameters.mapM (normalizeType hasNamespaceOrClass resolveClassName location)
      return callbackType result parameters := by
  rw [normalizeType, dif_pos (isCallbackType_callbackType result parameters), mapM_attach,
    callbackSignature_callbackType hresult hparameters]

end

/-- For every signature over any types, nested to any depth: decoding its type
    name gives it back, other signatures have other names, and the normalized
    name is the name of the normalized signature. -/
theorem callback_types_faithful {result : Text} {parameters : List Text} (hresult : TypeName result)
    (hparameters : ∀ type ∈ parameters, TypeName type) :
    callbackSignature (callbackType result parameters) = (result, parameters) ∧
      (∀ result' parameters', TypeName result' → (∀ type ∈ parameters', TypeName type) →
        callbackType result parameters = callbackType result' parameters' →
          result = result' ∧ parameters = parameters') ∧
      ∀ hasNamespaceOrClass resolveClassName location,
        normalizeType hasNamespaceOrClass resolveClassName location (callbackType result parameters)
        = do
          let result ← normalizeType hasNamespaceOrClass resolveClassName location result
          let parameters ←
            parameters.mapM (normalizeType hasNamespaceOrClass resolveClassName location)
          return callbackType result parameters := by
  have hdecoded := callbackSignature_callbackType hresult hparameters
  refine ⟨hdecoded, ?_, fun _ _ _ => normalizeType_callbackType _ _ _ hresult hparameters⟩
  intro result' parameters' hresult' hparameters' hsame
  rw [hsame, callbackSignature_callbackType hresult' hparameters'] at hdecoded
  obtain ⟨hres, hpars⟩ := Prod.mk.inj hdecoded
  exact ⟨hres.symm, hpars.symm⟩

/-- `callback<void(callback<int(float)>,list)>` -/
theorem callback_types_nested :
    callbackSignature (callbackType "void".toList
        [callbackType "int".toList ["float".toList], "list".toList])
      = ("void".toList, [callbackType "int".toList ["float".toList], "list".toList]) := by
  have hbuiltin : ∀ type ∈ ["int", "float", "list", "void"].map String.toList, TypeName type := by
    intro type hmem
    have hall : ∀ type ∈ ["int", "float", "list", "void"].map String.toList,
        type ∈ builtinTypes := by
      decide
    exact .builtin (hall type hmem)
  have hinner : TypeName (callbackType "int".toList ["float".toList]) := by
    refine .callback (hbuiltin _ (by decide)) ?_
    intro type hmem
    exact hbuiltin type (by rw [List.mem_singleton.mp hmem]; decide)
  refine (callback_types_faithful (hbuiltin _ (by decide)) ?_).1
  intro type hmem
  rcases List.mem_cons.mp hmem with rfl | hmem
  · exact hinner
  · exact hbuiltin type (by rw [List.mem_singleton.mp hmem]; decide)

/-! ## Overloads -/

/-- Parameter lists of valid types are told apart by their codes, so that two
    methods of a class under one name share a symbol only if they take the same
    parameters. -/
theorem overloads_mangled_apart {types types' : List Text} (htypes : ∀ type ∈ types, TypeName type)
    (htypes' : ∀ type ∈ types', TypeName type) :
    (mangleParameters types = mangleParameters types' ↔ types = types') ∧
      ∀ className (method method' : MethodDeclaration), method.parameters = types →
        method'.parameters = types' → method.name = method'.name →
        method.isDestructor = false → method'.isDestructor = false →
        methodSymbol className method = methodSymbol className method' → types = types' := by
  have hapart : mangleParameters types = mangleParameters types' → types = types' :=
    mangleParameters_injective (fun type hmem => (htypes type hmem).readable fun _ => id)
      fun type hmem => (htypes' type hmem).readable fun _ => id
  refine ⟨⟨hapart, fun h => h ▸ rfl⟩, ?_⟩
  rintro className method method' rfl rfl hname hordinary hordinary' hsymbol
  rw [methodSymbol, methodSymbol, hordinary, hordinary', hname] at hsymbol
  have htail := List.append_cancel_left (List.append_cancel_left hsymbol)
  exact hapart (List.append_cancel_left (List.cons.inj htail).2)

/-- `f(Point, callback int(Point, callback void(int)))`, and the overload that takes
    the `int` itself, behind a callback without a parameter. -/
theorem overloads_mangled_nested :
    mangleParameters ["Point".toList, callbackType "int".toList
        ["Point".toList, callbackType "void".toList ["int".toList]]] ≠
      mangleParameters ["Point".toList, callbackType "int".toList
        ["Point".toList, callbackType "void".toList []], "int".toList] := by
  have hpoint : TypeName "Point".toList := .named (by decide +kernel)
  have hint : TypeName "int".toList := .builtin (by decide)
  have hvoid : TypeName "void".toList := .builtin (by decide)
  have hnested {parameters : List Text} (h : ∀ type ∈ parameters, TypeName type) :
      TypeName (callbackType "int".toList ["Point".toList,
          callbackType "void".toList parameters]) := by
    refine .callback hint (List.forall_mem_cons.mpr ⟨hpoint, ?_⟩)
    exact List.forall_mem_singleton.mpr (.callback hvoid h)
  intro h
  have hsame := (overloads_mangled_apart
    (List.forall_mem_cons.mpr ⟨hpoint, List.forall_mem_singleton.mpr
      (hnested (List.forall_mem_singleton.mpr hint))⟩)
    (List.forall_mem_cons.mpr ⟨hpoint, List.forall_mem_cons.mpr
      ⟨hnested fun type hmem => absurd hmem List.not_mem_nil,
        List.forall_mem_singleton.mpr hint⟩⟩)).1.mp h
  cases congrArg List.length hsame

end Cwhip.CodeGen
