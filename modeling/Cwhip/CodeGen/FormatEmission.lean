/-
  Cwhip.CodeGen.FormatEmission

  `emitFormatString`: the code of a format expression, and what it leaves in the
  String that it builds.

  The code makes the String of the first segment, evaluates the arguments in
  order and formats each one for all of its fields, and then appends fields and
  segments in turn.
-/

import Cwhip.Parser.FormatArguments

namespace Cwhip.CodeGen

open Cwhip.Lib
open Cwhip.Parser
open Cwhip.Runtime.StringStore (FormatSpec)

variable {ε V : Type}

/-- The steps of the emitted code. -/
inductive FormatStep (ε : Type) where
  /-- `cwhip_string_format_new` for the result. -/
  | formatNew (leading : Text)
  | evaluate (argument : ε)
  /-- A String of its own for a field, to which the current value is formatted. -/
  | formatField (field : Nat) (spec : FormatSpec)
  | appendField (field : Nat)
  | appendSegment (segment : Text)
  deriving DecidableEq, Repr

def unmatchedPlaceholders : Text :=
    "backend could not match format placeholders to arguments".toList

def argumentFields (fields : List ((Nat × FormatSpec) × Nat)) (index : Nat) : List (FormatStep ε) :=
  (fields.filter fun field => field.1.1 = index).map fun field => .formatField field.2 field.1.2

/-- The loop over the arguments. -/
def emitArguments (fields : List ((Nat × FormatSpec) × Nat)) : Nat → List ε → List (FormatStep ε)
  | _, [] => []
  | index, argument :: rest =>
    .evaluate argument :: (argumentFields fields index ++ emitArguments fields (index + 1) rest)

/-- One round of the loop that assembles the result. -/
def emitAppend (expression : FormatExpression ε) (part : (Nat × Text) × Nat) :
    Except DiagnosticError (List (FormatStep ε)) := do
  let ((argumentIndex, trailing), field) := part
  ensure (argumentIndex < expression.arguments.length) ⟨expression.location, unmatchedPlaceholders⟩
  return .appendField field :: if trailing.isEmpty then [] else [.appendSegment trailing]

def emitFormatString (expression : FormatExpression ε) :
    Except DiagnosticError (List (FormatStep ε)) := do
  let segments := expression.formatSegments
  let argumentIndices := expression.formatArgumentIndices
  ensure (segments.length = argumentIndices.length + 1 ∧ expression.formatSpecs.length =
    argumentIndices.length) ⟨expression.location, unmatchedPlaceholders⟩
  let fields := (argumentIndices.zip expression.formatSpecs).zipIdx
  let appends ← (argumentIndices.zip segments.tail).zipIdx.mapM (emitAppend expression)
  return .formatNew (segments.headD []) :: (emitArguments fields 0 expression.arguments ++
    appends.flatten)

/-! ## Running the code -/

/-- The result, the arguments that have been evaluated, the last of their
    values, and the Strings of the fields. -/
structure FormatState (ε V : Type) where
  destination : Text
  evaluated : List ε
  value : Option V
  formatted : Nat → Option Text

def FormatState.start : FormatState ε V := ⟨[], [], none, fun _ => none⟩

section

variable (evaluate : ε → V) (render : V → FormatSpec → Text)

def FormatState.step (σ : FormatState ε V) : FormatStep ε → Option (FormatState ε V)
  | .formatNew leading => some { σ with destination := leading }
  | .evaluate argument =>
    some { σ with evaluated := σ.evaluated ++ [argument], value := some (evaluate argument) }
  | .formatField field spec => σ.value.map fun value =>
    { σ with formatted := Function.update σ.formatted field (some (render value spec)) }
  | .appendField field => (σ.formatted field).map fun text =>
    { σ with destination := σ.destination ++ text }
  | .appendSegment segment => some { σ with destination := σ.destination ++ segment }

def runFormat (σ : FormatState ε V) (steps : List (FormatStep ε)) : Option (FormatState ε V) :=
  steps.foldlM (FormatState.step evaluate render) σ

theorem runFormat_append (σ : FormatState ε V) (steps rest : List (FormatStep ε)) :
    runFormat evaluate render σ (steps ++ rest) =
      (runFormat evaluate render σ steps).bind fun σ' => runFormat evaluate render σ' rest :=
  List.foldlM_append

theorem runFormat_cons (σ : FormatState ε V) (step : FormatStep ε) (rest : List (FormatStep ε)) :
    runFormat evaluate render σ (step :: rest) =
      (σ.step evaluate render step).bind fun σ' => runFormat evaluate render σ' rest :=
  List.foldlM_cons

/-- A template with its fields filled in. -/
def renderPieces : List Piece → List Text → Text
  | [], _ => []
  | piece :: rest, fields =>
    match piece.character? with
    | some c => c :: renderPieces rest fields
    | none => fields.headD [] ++ renderPieces rest fields.tail

/-- Fields between segments. -/
def splice : List Text → List Text → Text
  | segment :: segments, fields => segment ++ (fields.zip segments).flatMap fun part =>
    part.1 ++ part.2
  | [], _ => []

theorem exists_segments (pieces : List Piece) : ∃ segment segments, segmentsOf pieces = segment ::
    segments := by
  apply List.exists_cons_of_ne_nil
  apply List.ne_nil_of_length_pos
  rw [segmentsOf_length]
  exact Nat.succ_pos _

theorem splice_segmentsOf (pieces : List Piece) {fields : List Text}
    (hlength : fields.length = (fieldNames pieces).length) :
    splice (segmentsOf pieces) fields = renderPieces pieces fields := by
  induction pieces generalizing fields with
  | nil =>
    have hnil : fields = [] := List.length_eq_zero_iff.mp hlength
    subst hnil
    rfl
  | cons piece pieces ih =>
    have hcharacter : ∀ c, piece.character? = some c → fieldNames (piece :: pieces) =
        fieldNames pieces := by
      intro c hc
      cases piece with
      | field name spec => cases hc
      | _ => rfl
    obtain ⟨segment, segments, hsegments⟩ := exists_segments pieces
    rw [segmentsOf, renderPieces, hsegments]
    rw [hsegments] at ih
    cases hc : piece.character? with
    | some c =>
      dsimp only
      rw [hcharacter c hc] at hlength
      rw [← ih hlength]
      rfl
    | none =>
      cases piece with
      | field name spec =>
        cases fields with
        | nil => cases hlength
        | cons text fields =>
          have hrest := @ih fields (Nat.succ.inj hlength)
          dsimp only [List.headD_cons, List.tail_cons]
          rw [← hrest]
          simp [splice]
      | _ => cases hc

/-! ## What the code leaves -/

def fieldText (arguments : List ε) (index : Nat) (spec : FormatSpec) : Text :=
  ((arguments[index]?).map fun argument => render (evaluate argument) spec).getD []

theorem runFormat_argumentFields {fields entries : List ((Nat × FormatSpec) × Nat)}
    (hentries : entries ⊆ fields)
    (hkeys : ∀ entry ∈ fields, ∀ other ∈ fields, entry.2 = other.2 → entry = other) (index : Nat)
    {σ : FormatState ε V} {value : V} (hvalue : σ.value = some value)
    {text : Nat → FormatSpec → Text} (htext : ∀ spec, text index spec = render value spec) :
    ∃ formatted, runFormat evaluate render σ (argumentFields entries index) =
      some { σ with formatted := formatted } ∧
      (∀ entry ∈ fields, σ.formatted entry.2 = some (text entry.1.1 entry.1.2) →
        formatted entry.2 = some (text entry.1.1 entry.1.2)) ∧
      ∀ entry ∈ entries, entry.1.1 = index → formatted entry.2 =
          some (text entry.1.1 entry.1.2) := by
  induction entries generalizing σ with
  | nil => exact ⟨σ.formatted, rfl, fun _ _ h => h, List.forall_mem_nil _⟩
  | cons first entries ih =>
    obtain ⟨hfirst, hentries⟩ := List.cons_subset.mp hentries
    by_cases hindex : first.1.1 = index
    · have hsteps : (argumentFields (first :: entries) index : List (FormatStep ε))
          = .formatField first.2 first.1.2 :: argumentFields entries index := by
        simp [argumentFields, hindex]
      have hstep : σ.step evaluate render (.formatField first.2 first.1.2)
          = some { σ with
              formatted := Function.update σ.formatted first.2
                (some (render value first.1.2)) } := by
        rw [FormatState.step, hvalue]
        rfl
      rw [hsteps, runFormat_cons, hstep, Option.bind_some]
      obtain ⟨formatted, hrun, hkept, hnew⟩ := @ih hentries
        { σ with formatted := Function.update σ.formatted first.2 (some (render value first.1.2)) }
          hvalue
      refine ⟨formatted, hrun, ?_, ?_⟩
      · intro entry hentry hbefore
        apply hkept entry hentry
        by_cases hkey : entry.2 = first.2
        · rw [hkeys entry hentry first hfirst hkey]
          show Function.update _ _ _ _ = _
          rw [Function.update_self, hindex, htext]
        · show Function.update _ _ _ _ = _
          rw [Function.update_of_ne hkey, hbefore]
      · refine List.forall_mem_cons.mpr ⟨fun _ => ?_, hnew⟩
        apply hkept first hfirst
        show Function.update _ _ _ _ = _
        rw [Function.update_self, hindex, htext]
    · have hsteps : (argumentFields (first :: entries) index : List (FormatStep ε))
          = argumentFields entries index := by
        simp [argumentFields, hindex]
      rw [hsteps]
      obtain ⟨formatted, hrun, hkept, hnew⟩ := ih hentries hvalue
      exact ⟨formatted, hrun, hkept, List.forall_mem_cons.mpr ⟨fun heq => absurd heq hindex, hnew⟩⟩

theorem runFormat_emitArguments {fields : List ((Nat × FormatSpec) × Nat)} {arguments : List ε}
    (hkeys : ∀ entry ∈ fields, ∀ other ∈ fields, entry.2 = other.2 → entry = other) (rest : List ε)
    {index : Nat} (hrest : arguments.drop index = rest) {σ : FormatState ε V}
    (hdone : ∀ entry ∈ fields, entry.1.1 < index →
      σ.formatted entry.2 = some (fieldText evaluate render arguments entry.1.1 entry.1.2)) :
    ∃ value formatted, runFormat evaluate render σ (emitArguments fields index rest)
        = some ⟨σ.destination, σ.evaluated ++ rest, value, formatted⟩ ∧
      ∀ entry ∈ fields, entry.1.1 < index + rest.length →
        formatted entry.2 = some (fieldText evaluate render arguments entry.1.1 entry.1.2) := by
  induction rest generalizing index σ with
  | nil =>
    rw [List.append_nil]
    exact ⟨σ.value, σ.formatted, rfl, hdone⟩
  | cons argument rest ih =>
    have hat : arguments[index]? = some argument := by
      rw [← List.head?_drop, hrest]
      rfl
    have hnext : arguments.drop (index + 1) = rest := by
      rw [← List.drop_drop, hrest]
      rfl
    rw [emitArguments, runFormat_cons]
    show ∃ value formatted, runFormat evaluate render
      { σ with evaluated := σ.evaluated ++ [argument], value := some (evaluate argument) } _ = _ ∧ _
    have htext : ∀ spec, fieldText evaluate render arguments index spec =
        render (evaluate argument) spec := by
      intro spec
      rw [fieldText, hat]
      rfl
    obtain ⟨formatted, hrun, hkept, hnew⟩ := runFormat_argumentFields evaluate render
      (List.Subset.refl fields) hkeys index
      (σ := { σ with
        evaluated := σ.evaluated ++ [argument], value := some (evaluate argument) }) rfl htext
    rw [runFormat_append, hrun, Option.bind_some]
    obtain ⟨value, formatted', hrun', hall⟩ := @ih (index + 1) hnext
      ⟨σ.destination, σ.evaluated ++ [argument], some (evaluate argument), formatted⟩ (by
        intro entry hentry hless
        rcases Nat.lt_succ_iff_lt_or_eq.mp hless with hless | heq
        · exact hkept entry hentry (hdone entry hentry hless)
        · exact hnew entry hentry heq)
    refine ⟨value, formatted', ?_, ?_⟩
    · rw [hrun']
      simp
    · intro entry hentry hless
      rw [List.length_cons] at hless
      exact hall entry hentry (by omega)

theorem runFormat_emitAppend (expression : FormatExpression ε) {parts : List ((Nat × Text) × Nat)}
    (hparts : ∀ part ∈ parts, part.1.1 < expression.arguments.length) (text : Nat → Text) :
    ∃ appends, parts.mapM (emitAppend expression) = .ok appends ∧
      ∀ σ : FormatState ε V, (∀ part ∈ parts, σ.formatted part.2 = some (text part.2)) →
        runFormat evaluate render σ appends.flatten
          = some { σ with destination := σ.destination ++ parts.flatMap fun part => text part.2 ++
          part.1.2 } := by
  induction parts with
  | nil =>
    refine ⟨[], rfl, fun σ _ => ?_⟩
    rw [List.flatMap_nil, List.append_nil]
    rfl
  | cons part parts ih =>
    obtain ⟨hpart, hparts⟩ := List.forall_mem_cons.mp hparts
    obtain ⟨appends, hok, hrun⟩ := ih hparts
    refine ⟨(.appendField part.2 :: if part.1.2.isEmpty then [] else [.appendSegment part.1.2]) ::
      appends, ?_, ?_⟩
    · rw [List.mapM_cons, emitAppend, ensure_bind hpart, hok]
      rfl
    · intro σ hformatted
      obtain ⟨hfirst, hformatted⟩ := List.forall_mem_cons.mp hformatted
      have hstep : σ.step evaluate render (.appendField part.2)
          = some { σ with destination := σ.destination ++ text part.2 } := by
        rw [FormatState.step, hfirst]
        rfl
      rw [List.flatten_cons, List.cons_append, runFormat_cons, hstep, Option.bind_some,
        runFormat_append]
      by_cases hempty : part.1.2 = []
      · rw [if_pos (List.isEmpty_iff.mpr hempty)]
        show runFormat evaluate render { σ with destination := σ.destination ++ text part.2 } _ = _
        rw [hrun { σ with destination := σ.destination ++ text part.2 } hformatted,
          List.flatMap_cons, hempty, List.append_nil, List.append_assoc]
      · rw [if_neg (by rwa [List.isEmpty_iff])]
        show runFormat evaluate render { σ with destination := σ.destination ++ text part.2 ++
          part.1.2 } _ = _
        rw [hrun { σ with destination := σ.destination ++ text part.2 ++ part.1.2 } hformatted,
          List.flatMap_cons]
        simp only [List.append_assoc]

theorem flatMap_zipIdx {indices : List Nat} {trailing texts : List Text}
    (hlength : indices.length = texts.length)
    {start : Nat} (text : Nat → Text) (htext : ∀ i t, texts[i]? = some t → text (start + i) = t) :
    ((indices.zip trailing).zipIdx start).flatMap (fun part => text part.2 ++ part.1.2)
      = (texts.zip trailing).flatMap fun part => part.1 ++ part.2 := by
  induction indices generalizing texts trailing start with
  | nil =>
    have hnil : texts = [] := List.length_eq_zero_iff.mp hlength.symm
    subst hnil
    rfl
  | cons index indices ih =>
    cases texts with
    | nil => cases hlength
    | cons first texts =>
      cases trailing with
      | nil => rfl
      | cons segment trailing =>
        rw [List.zip_cons_cons, List.zip_cons_cons, List.zipIdx_cons, List.flatMap_cons,
          List.flatMap_cons,
          ih (Nat.succ.inj hlength) (fun i t ht => ?_)]
        · dsimp only
          rw [show text start = first from htext 0 first rfl]
        · rw [Nat.add_assoc, Nat.add_comm 1 i]
          exact htext (i + 1) t ht

theorem Binds.length {argumentNames placeholderNames : List Text} {indices : List Nat}
    (h : Binds argumentNames placeholderNames indices) :
    indices.length = placeholderNames.length ∧ ∀ index ∈ indices, index < argumentNames.length := by
  cases h with
  | positional _ _ hlength =>
    refine ⟨List.length_range, fun index hindex => ?_⟩
    rw [← hlength]
    exact List.mem_range.mp hindex
  | named _ _ _ hbound =>
    refine ⟨hbound.length_eq.symm, ?_⟩
    clear * - hbound
    induction hbound with
    | nil => exact List.forall_mem_nil _
    | cons hname _ ih => exact List.forall_mem_cons.mpr ⟨(List.getElem?_eq_some_iff.mp hname).1, ih⟩

def fieldTexts (arguments : List ε) (indices : List Nat) (specs : List FormatSpec) : List Text :=
  List.zipWith (fieldText evaluate render arguments) indices specs

theorem emitFormatString_runs (location : SourceLocation) (template : Text)
    (arguments : List (FormatArgument ε))
    {pieces : List Piece} {indices : List Nat}
    (hbinds : Binds (arguments.map (·.name)) (fieldNames pieces) indices) :
    ∃ steps value formatted,
      emitFormatString (formatOf location template arguments pieces indices) = .ok steps ∧
        runFormat evaluate render .start steps = some ⟨renderPieces pieces
          (fieldTexts evaluate render (arguments.map (·.expression)) indices (fieldSpecs pieces)),
          arguments.map (·.expression), value, formatted⟩ := by
  obtain ⟨hlength, hbound⟩ := Binds.length hbinds
  have hspecs := (fieldSpecs_length pieces).trans hlength.symm
  obtain ⟨leading, trailing, hsegments⟩ := exists_segments pieces
  have htrailing := segmentsOf_length pieces
  rw [hsegments, List.length_cons, ← hlength] at htrailing
  rw [List.length_map] at hbound
  let expressions := arguments.map (·.expression)
  have hexpressions : expressions.length = arguments.length := List.length_map _
  let fields := (indices.zip (fieldSpecs pieces)).zipIdx
  let texts := fieldTexts evaluate render expressions indices (fieldSpecs pieces)
  have htexts : texts.length = indices.length := by
    show (List.zipWith _ _ _).length = _
    rw [List.length_zipWith, hspecs, Nat.min_self]
  -- the loop over the arguments
  have hkeys : ∀ entry ∈ fields, ∀ other ∈ fields, entry.2 = other.2 → entry = other := by
    intro entry hentry other hother heq
    rw [List.mem_zipIdx_iff_getElem?] at hentry hother
    rw [heq, hother] at hentry
    exact Prod.ext (Option.some.inj hentry).symm heq
  obtain ⟨value, formatted, hrun, hformatted⟩ := @runFormat_emitArguments ε V evaluate render fields
    expressions hkeys expressions 0 List.drop_zero ⟨leading, [], none, fun _ => none⟩
    fun entry _ hless => absurd hless (Nat.not_lt_zero _)
  -- the loop that assembles the result
  have hparts : ∀ part ∈ (indices.zip trailing).zipIdx,
      part.1.1 < (formatOf location template arguments pieces indices).arguments.length := by
    intro part hpart
    have hindex := List.of_mem_zip (List.fst_mem_of_mem_zipIdx hpart)
    exact Nat.lt_of_lt_of_eq (hbound _ hindex.1) hexpressions.symm
  obtain ⟨appends, hok, happends⟩ := runFormat_emitAppend (V := V) evaluate render
    (formatOf location template arguments pieces indices) hparts fun field => texts.getD field []
  have hfilled : ∀ part ∈ (indices.zip trailing).zipIdx,
      formatted part.2 = some (texts.getD part.2 []) := by
    intro part hpart
    have hmem := List.of_mem_zip (List.fst_mem_of_mem_zipIdx hpart)
    have hat := List.mem_zipIdx_iff_getElem?.mp hpart
    obtain ⟨hindex, _⟩ := List.getElem?_zip_eq_some.mp hat
    have hin : part.2 < indices.length := (List.getElem?_eq_some_iff.mp hindex).1
    obtain ⟨spec, hspec⟩ : ∃ spec, (fieldSpecs pieces)[part.2]? = some spec :=
      ⟨_, List.getElem?_eq_getElem (hspecs.symm ▸ hin)⟩
    have hentry : ((part.1.1, spec), part.2) ∈ fields :=
      List.mk_mem_zipIdx_iff_getElem?.mpr (List.getElem?_zip_eq_some.mpr ⟨hindex, hspec⟩)
    have htext : texts[part.2]? = some (fieldText evaluate render expressions part.1.1 spec) := by
      show (List.zipWith _ _ _)[part.2]? = _
      rw [List.getElem?_zipWith, hindex, hspec]
    rw [hformatted _ hentry (by rw [Nat.zero_add, hexpressions]; exact hbound _ hmem.1),
      List.getD_eq_getElem?_getD,
      htext]
    rfl
  have hflat : ((indices.zip trailing).zipIdx 0).flatMap (fun part =>
      texts.getD part.2 [] ++ part.1.2)
      = (texts.zip trailing).flatMap fun part => part.1 ++ part.2 := by
    refine flatMap_zipIdx htexts.symm (fun field => texts.getD field []) fun i t ht => ?_
    rw [Nat.zero_add, List.getD_eq_getElem?_getD, ht]
    rfl
  have hsplice : leading ++ ((texts.zip trailing).flatMap fun part => part.1 ++ part.2) =
      renderPieces pieces texts := by
    rw [← splice_segmentsOf pieces (htexts.trans hlength), hsegments]
    rfl
  refine ⟨.formatNew leading :: (emitArguments fields 0 expressions ++ appends.flatten), value,
    formatted, ?_, ?_⟩
  · unfold emitFormatString
    have hcount : (formatOf location template arguments pieces indices).formatSegments.length
        = (formatOf location template arguments pieces indices).formatArgumentIndices.length +
            1 := by
      show (segmentsOf pieces).length = indices.length + 1
      rw [hsegments, List.length_cons, htrailing]
    have htail : (formatOf location template arguments pieces indices).formatSegments.tail =
        trailing := by
      show (segmentsOf pieces).tail = trailing
      rw [hsegments, List.tail_cons]
    have hhead : (formatOf location template arguments pieces indices).formatSegments.headD [] =
        leading := by
      show (segmentsOf pieces).headD [] = leading
      rw [hsegments, List.headD_cons]
    dsimp only
    rw [ensure_bind ⟨hcount, hspecs⟩, htail, hhead]
    show ((((indices.zip trailing).zipIdx).mapM _) >>= _) = _
    rw [hok]
    rfl
  · rw [runFormat_cons]
    show runFormat evaluate render ⟨leading, [], none, fun _ => none⟩ _ = _
    rw [runFormat_append, hrun, Option.bind_some, happends ⟨leading, [] ++ expressions, value,
      formatted⟩ hfilled, hflat,
      hsplice, List.nil_append]

end

/-! ## Templates -/

/-- The templates of the grammar with arguments that match them are accepted,
    and nothing else; what is accepted has a segment around each field, and its
    code fills the fields of the template, each with the argument bound to it. -/
theorem parseFormat_correct (location : SourceLocation) (template : Text)
    (arguments : List (FormatArgument ε)) :
    (∀ parsed, parseFormat location template arguments = .ok parsed ↔
      ∃ pieces indices, IsTemplate pieces template ∧ DistinctNames arguments ∧
        Binds (arguments.map (·.name)) (fieldNames pieces) indices ∧
        formatOf location template arguments pieces indices = parsed) ∧
    ∀ parsed, parseFormat location template arguments = .ok parsed →
      parsed.formatSegments.length = parsed.formatSpecs.length + 1 ∧
      parsed.formatArgumentIndices.length = parsed.formatSpecs.length ∧
      (∀ spec ∈ parsed.formatSpecs, spec.Parsed) ∧
      ∃ pieces, IsTemplate pieces template ∧ parsed.formatSegments = segmentsOf pieces ∧
        parsed.formatSpecs = fieldSpecs pieces ∧
        ∀ (V : Type) (evaluate : ε → V) (render : V → FormatSpec → Text), ∃ steps value formatted,
          emitFormatString parsed = .ok steps ∧
            runFormat evaluate render .start steps = some ⟨renderPieces pieces
              (fieldTexts evaluate render (arguments.map (·.expression))
                parsed.formatArgumentIndices (fieldSpecs pieces)),
              arguments.map (·.expression), value, formatted⟩ := by
  refine ⟨parseFormat_eq_ok_iff location template arguments, fun parsed hparsed => ?_⟩
  obtain ⟨pieces, indices, htemplate, _, hbinds, rfl⟩ :=
    (parseFormat_eq_ok_iff location template arguments parsed).mp hparsed
  have hspecs := fieldSpecs_length pieces
  refine ⟨?_, ?_, fieldSpecs_parsed htemplate.2, pieces, htemplate, rfl, rfl,
    fun V evaluate render => ?_⟩
  · show (segmentsOf pieces).length = (fieldSpecs pieces).length + 1
    rw [segmentsOf_length, hspecs]
  · exact (Binds.length hbinds).1.trans hspecs.symm
  · exact emitFormatString_runs evaluate render location template arguments hbinds

end Cwhip.CodeGen
