/-
  Cwhip.Parser.FormatArguments

  The arguments of `format`: what `parseFormatArguments` collects, and how
  `validateFormatString` binds each field of the template to one of them.

  Fields without a name take the arguments in order; fields with names take the
  arguments of their names, each as often as it is named.
-/

import Mathlib.Data.List.Forall2
import Mathlib.Data.List.Nodup
import Cwhip.Parser.FormatTemplate

namespace Cwhip.Parser

open Cwhip.Lib
open Cwhip.Runtime.StringStore (FormatSpec)

variable {ε : Type}

/-- The parts of an expression that formatting uses. -/
structure FormatExpression (ε : Type) where
  location : SourceLocation
  value : Text
  arguments : List ε
  argumentNames : List Text
  argumentNameLocations : List SourceLocation
  formatSegments : List Text
  formatArgumentIndices : List Nat
  formatSpecs : List FormatSpec
  deriving DecidableEq, Repr

/-- An argument of a format call; one without a name has the empty name. -/
structure FormatArgument (ε : Type) where
  name : Text
  location : SourceLocation
  expression : ε
  deriving DecidableEq, Repr

/-- A template before its arguments. -/
def FormatExpression.template (location : SourceLocation) (value : Text) : FormatExpression ε :=
  ⟨location, value, [], [], [], [], [], []⟩

/-- One round of the loop of `parseFormatArguments`. -/
def FormatExpression.argument (format : FormatExpression ε) (argument : FormatArgument ε) :
    Except DiagnosticError (FormatExpression ε) := do
  ensure (argument.name = [] ∨ argument.name ∉ format.argumentNames)
    ⟨argument.location, "duplicate named format argument '".toList ++ argument.name ++ "'".toList⟩
  return { format with
    argumentNames := format.argumentNames ++ [argument.name]
    argumentNameLocations := format.argumentNameLocations ++ [argument.location]
    arguments := format.arguments ++ [argument.expression] }

def parseFormatArguments (format : FormatExpression ε) (arguments : List (FormatArgument ε)) :
    Except DiagnosticError (FormatExpression ε) :=
  arguments.foldlM FormatExpression.argument format

def mixedArguments : Text := "named and positional format arguments cannot be mixed".toList

def unusedArgument (name : Text) : Text := "unused named format argument '".toList ++
    name ++ "'".toList

/-- The second half of `validateFormatString`: the argument of each placeholder. -/
def bindArguments (format : FormatExpression ε) (placeholderNames : List Text) :
    Except DiagnosticError (List Nat) := do
  let hasNamedPlaceholder := placeholderNames.any fun name => !name.isEmpty
  let hasPositionalPlaceholder := placeholderNames.any List.isEmpty
  ensure (¬ (hasPositionalPlaceholder = true ∧ hasNamedPlaceholder = true))
    ⟨format.location, "named and positional placeholders cannot be mixed".toList⟩
  ensure (format.argumentNames.length = format.arguments.length ∧
      format.argumentNameLocations.length = format.arguments.length)
    ⟨format.location, "invalid format argument metadata".toList⟩
  let hasNamedArgument := format.argumentNames.any fun name => !name.isEmpty
  let hasPositionalArgument := format.argumentNames.any List.isEmpty
  ensure (¬ (hasNamedArgument = true ∧ hasPositionalArgument = true)) ⟨format.location,
    mixedArguments⟩
  let names := format.argumentNames.zip format.argumentNameLocations
  if hasNamedPlaceholder then do
    ensure (hasPositionalArgument = false) ⟨format.location, mixedArguments⟩
    match names.find? fun (name, _) => !placeholderNames.contains name with
    | some (name, location) => .error ⟨location, unusedArgument name⟩
    | none =>
      placeholderNames.mapM fun name => require (format.argumentNames.idxOf? name)
        ⟨format.location, "missing named format argument '".toList ++ name ++ "'".toList⟩
  else
    match names.find? fun (name, _) => !name.isEmpty with
    | some (name, location) =>
      .error ⟨location, if placeholderNames.isEmpty then unusedArgument name else mixedArguments⟩
    | none => do
      ensure (placeholderNames.length = format.arguments.length)
        ⟨format.location,
          "formatted string must have one '\x7b\x7d' placeholder per argument".toList⟩
      return List.range placeholderNames.length

def validateFormatString (format : FormatExpression ε) :
    Except DiagnosticError (FormatExpression ε) := do
  let scanned ← scanTemplate format.location .empty format.value
  let indices ← bindArguments format scanned.placeholderNames
  return { format with
    formatSegments := scanned.formatSegments ++ [scanned.segment]
    formatSpecs := scanned.formatSpecs
    formatArgumentIndices := indices }

/-- A call `format(template, arguments...)`. -/
def parseFormat (location : SourceLocation) (template : Text)
    (arguments : List (FormatArgument ε)) :
    Except DiagnosticError (FormatExpression ε) := do
  let format ← parseFormatArguments (.template location template) arguments
  validateFormatString format

/-! ## What pieces say -/

/-- The character that a piece stands for in its segment. -/
def Piece.character? : Piece → Option Char
  | .literal c => some c
  | .openBrace => some '{'
  | .closeBrace => some '}'
  | .field _ _ => none

/-- The literal text around the fields. -/
def segmentsOf : List Piece → List Text
  | [] => [[]]
  | piece :: rest =>
    match piece.character? with
    | some c => (segmentsOf rest).modifyHead (c :: ·)
    | none => [] :: segmentsOf rest

def fieldNames (pieces : List Piece) : List Text :=
  pieces.filterMap fun
    | .field name _ => some name
    | _ => none

def fieldSpecs (pieces : List Piece) : List FormatSpec :=
  pieces.filterMap fun
    | .field _ spec => some ((spec.map SpecText.spec).getD defaultSpec)
    | _ => none

theorem segmentsOf_length (pieces : List Piece) : (segmentsOf pieces).length =
    (fieldNames pieces).length + 1 := by
  induction pieces with
  | nil => rfl
  | cons piece pieces ih =>
    cases piece with
    | literal c | openBrace | closeBrace | field name spec =>
      simpa [segmentsOf, Piece.character?, fieldNames] using ih

theorem fieldSpecs_length (pieces : List Piece) : (fieldSpecs pieces).length =
    (fieldNames pieces).length := by
  induction pieces with
  | nil => rfl
  | cons piece pieces ih => cases piece <;> simpa [fieldSpecs, fieldNames] using ih

theorem fieldSpecs_parsed {pieces : List Piece} (h : ∀ piece ∈ pieces, piece.WellFormed) :
    ∀ spec ∈ fieldSpecs pieces, spec.Parsed := by
  intro spec hspec
  obtain ⟨piece, hpiece, hsome⟩ := List.mem_filterMap.mp hspec
  cases piece with
  | field name text =>
    rw [← Option.some.inj hsome]
    cases text with
    | none => exact ⟨Nat.zero_le _, fun hzero => Bool.noConfusion hzero, fun hzero =>
      Bool.noConfusion hzero⟩
    | some text => exact ((h _ hpiece).2 text rfl).parsed
  | _ => cases hsome

/-- Scanning adds the segments and fields of the pieces. -/
theorem scanned_pieces (pieces : List Piece) (s : Scanned) :
    (pieces.foldl Scanned.piece s).formatSegments ++ [(pieces.foldl Scanned.piece s).segment]
        = s.formatSegments ++ (segmentsOf pieces).modifyHead (s.segment ++ ·) ∧
      (pieces.foldl Scanned.piece s).placeholderNames = s.placeholderNames ++ fieldNames pieces ∧
      (pieces.foldl Scanned.piece s).formatSpecs = s.formatSpecs ++ fieldSpecs pieces := by
  induction pieces generalizing s with
  | nil => simp [segmentsOf, fieldNames, fieldSpecs]
  | cons piece pieces ih =>
    obtain ⟨hsegments, hnames, hspecs⟩ := ih (s.piece piece)
    rw [List.foldl_cons, hsegments, hnames, hspecs]
    -- a character goes to the segment in front; a field starts a new one
    cases piece with
    | literal c | openBrace | closeBrace =>
      simp [Scanned.piece, Scanned.character, segmentsOf, Piece.character?, fieldNames, fieldSpecs,
        List.modifyHead_modifyHead, Function.comp_def]
    | field name spec =>
      simp only [Scanned.piece, Scanned.field, segmentsOf, Piece.character?, fieldNames, fieldSpecs]
      cases segmentsOf pieces <;> simp

/-! ## The arguments -/

/-- No name is given twice. -/
def DistinctNames (arguments : List (FormatArgument ε)) : Prop :=
  arguments.Pairwise fun earlier later => later.name = [] ∨ earlier.name ≠ later.name

/-- The expression with the arguments that have been parsed. -/
def FormatExpression.withArguments (format : FormatExpression ε)
    (arguments : List (FormatArgument ε)) :
    FormatExpression ε :=
  { format with
    argumentNames := format.argumentNames ++ arguments.map (·.name)
    argumentNameLocations := format.argumentNameLocations ++ arguments.map (·.location)
    arguments := format.arguments ++ arguments.map (·.expression) }

/-- Arguments are accepted where no name is given twice. -/
theorem parseFormatArguments_eq_ok_iff (format result : FormatExpression ε)
    (arguments : List (FormatArgument ε)) :
    parseFormatArguments format arguments = .ok result ↔
      (∀ argument ∈ arguments, argument.name = [] ∨ argument.name ∉ format.argumentNames) ∧
        DistinctNames arguments ∧ format.withArguments arguments = result := by
  unfold parseFormatArguments DistinctNames
  induction arguments generalizing format with
  | nil =>
    rw [List.foldlM_nil, pure_eq_ok]
    simp [FormatExpression.withArguments]
  | cons argument arguments ih =>
    rw [List.foldlM_cons, List.forall_mem_cons, List.pairwise_cons]
    by_cases hnew : argument.name = [] ∨ argument.name ∉ format.argumentNames
    · rw [FormatExpression.argument, ensure_bind hnew]
      show (List.foldlM FormatExpression.argument (format.withArguments [argument]) arguments =
        .ok result) ↔ _
      rw [ih]
      have hwith : (format.withArguments [argument]).withArguments arguments
          = format.withArguments (argument :: arguments) := by
        simp [FormatExpression.withArguments]
      have hearlier : (∀ later ∈ arguments, later.name = [] ∨
          later.name ∉ (format.withArguments [argument]).argumentNames) ↔
          (∀ later ∈ arguments, later.name = [] ∨ later.name ∉ format.argumentNames) ∧
            ∀ later ∈ arguments, later.name = [] ∨ argument.name ≠ later.name := by
        rw [← forall₂_and]
        refine forall₂_congr fun later _ => ?_
        simp only [FormatExpression.withArguments, List.map_cons, List.map_nil, List.mem_append,
          List.mem_singleton, not_or]
        tauto
      rw [hwith, hearlier]
      tauto
    · rw [FormatExpression.argument, ensure_bind_error hnew]
      constructor
      · intro h
        cases h
      · intro h
        exact absurd h.1.1 hnew

/-! ## Binding -/

/-- Which argument each field takes. -/
inductive Binds (argumentNames placeholderNames : List Text) : List Nat → Prop
  /-- One field for each argument, in order. -/
  | positional (harguments : ∀ name ∈ argumentNames, name = [])
      (hfields : ∀ name ∈ placeholderNames, name = [])
      (hlength : placeholderNames.length = argumentNames.length) :
      Binds argumentNames placeholderNames (List.range placeholderNames.length)
  /-- All arguments are used, and each field takes the one of its name. -/
  | named {indices : List Nat} (hne : placeholderNames ≠ [])
      (hfields : ∀ name ∈ placeholderNames, name ≠ [])
      (harguments : ∀ name ∈ argumentNames, name ≠ [] ∧ name ∈ placeholderNames)
      (hbound : List.Forall₂ (fun name index => argumentNames[index]? = some name) placeholderNames
        indices) :
      Binds argumentNames placeholderNames indices

theorem mapM_require_iff {α β ω : Type} {f : α → Option β} {e : α → ω} {l : List α} {bs : List β} :
    (l.mapM fun a => require (f a) (e a)) = .ok bs ↔
    List.Forall₂ (fun a b => f a = some b) l bs := by
  induction l generalizing bs with
  | nil =>
    rw [List.mapM_nil, pure_eq_ok, List.forall₂_nil_left_iff]
    exact eq_comm
  | cons a l ih =>
    rw [List.mapM_cons, List.forall₂_cons_left_iff]
    simp only [bind_eq_ok, require_eq_ok, pure_eq_ok, ih]
    constructor
    · rintro ⟨b, hb, bs', hbs, rfl⟩
      exact ⟨b, bs', hb, hbs, rfl⟩
    · rintro ⟨b, bs', hb, hbs, rfl⟩
      exact ⟨b, hb, bs', hbs, rfl⟩

theorem idxOf?_eq_some_iff {names : List Text} (hdistinct : names.Nodup) (name : Text)
    (index : Nat) :
    names.idxOf? name = some index ↔ names[index]? = some name := by
  rw [List.idxOf?_eq_some_iff, List.getElem?_eq_some_iff]
  constructor
  · rintro ⟨hindex, hname, _⟩
    exact ⟨hindex, hname⟩
  · rintro ⟨hindex, hname⟩
    refine ⟨hindex, hname, fun j hj hsame => ?_⟩
    have heq := (List.Nodup.getElem_inj_iff hdistinct).mp (hsame.trans hname.symm)
    omega

theorem any_named_iff (names : List Text) :
    (names.any fun name => !name.isEmpty) = true ↔ ∃ name ∈ names, name ≠ [] := by
  simp [List.any_eq_true]

theorem any_positional_iff (names : List Text) : names.any List.isEmpty = true ↔ [] ∈ names := by
  simp [List.any_eq_true, List.isEmpty_iff]

/-- Each field is bound to the argument of its name or place. -/
theorem bindArguments_iff {format : FormatExpression ε}
    (hnames : format.argumentNames.length = format.arguments.length)
    (hlocations : format.argumentNameLocations.length = format.arguments.length)
    (hdistinct : (∀ name ∈ format.argumentNames, name ≠ []) → format.argumentNames.Nodup)
    (placeholderNames : List Text) (indices : List Nat) :
    bindArguments format placeholderNames = .ok indices ↔
      Binds format.argumentNames placeholderNames indices := by
  have hzip : (format.argumentNames.zip format.argumentNameLocations).map Prod.fst =
      format.argumentNames :=
    List.map_fst_zip (by omega)
  have hfind : ∀ p : Text → Bool,
      (format.argumentNames.zip format.argumentNameLocations).find? (fun pair => p pair.1) = none ↔
        ∀ name ∈ format.argumentNames, ¬ p name = true := by
    intro p
    rw [List.find?_eq_none]
    constructor
    · intro h name hname
      rw [← hzip] at hname
      obtain ⟨pair, hpair, rfl⟩ := List.mem_map.mp hname
      exact h pair hpair
    · intro h pair hpair
      exact h pair.1 (hzip ▸ List.mem_map_of_mem hpair)
  have hall : ∀ names : List Text, ¬ (names.any fun name => !name.isEmpty) = true ↔ ∀ name ∈ names,
      name = [] := by
    intro names
    rw [any_named_iff]
    push Not
    rfl
  have hnone : ∀ names : List Text, names.any List.isEmpty = false ↔ ∀ name ∈ names, name ≠ [] := by
    intro names
    rw [← Bool.not_eq_true, any_positional_iff]
    exact ⟨fun h name hname heq => h (heq ▸ hname), fun h hmem => h [] hmem rfl⟩
  constructor
  · intro h
    unfold bindArguments at h
    obtain ⟨_, hfields, h⟩ := bind_eq_ok.mp h
    obtain ⟨_, _, h⟩ := bind_eq_ok.mp h
    obtain ⟨_, harguments, h⟩ := bind_eq_ok.mp h
    have hfields := ensure_eq_ok.mp hfields
    dsimp only at h
    -- one name among the fields makes every field and every argument a named one
    split at h
    · next hnamed =>
      obtain ⟨_, hpositional, h⟩ := bind_eq_ok.mp h
      have hpositional := (hnone _).mp (ensure_eq_ok.mp hpositional)
      split at h
      · cases h
      · next hused =>
        rw [mapM_require_iff] at h
        have hused := (hfind fun name => !placeholderNames.contains name).mp hused
        obtain ⟨name, hname, _⟩ := (any_named_iff _).mp hnamed
        refine .named (List.ne_nil_of_mem hname) ?_ (fun name hname => ⟨hpositional name hname, ?_⟩)
          ?_
        · refine (hnone _).mp ?_
          rw [← Bool.not_eq_true]
          exact fun hempty => hfields ⟨hempty, hnamed⟩
        · simpa using hused name hname
        · exact h.imp fun name index hindex =>
            (idxOf?_eq_some_iff (hdistinct hpositional) name index).mp hindex
    · next hnamed =>
      split at h
      · cases h
      · next hunnamed =>
        obtain ⟨_, hlength, h⟩ := bind_eq_ok.mp h
        have hunnamed := (hfind fun name => !name.isEmpty).mp hunnamed
        rw [← pure_eq_ok.mp h]
        refine .positional (fun name hname => ?_) ((hall _).mp hnamed) ?_
        · simpa using hunnamed name hname
        · rw [hnames]
          exact ensure_eq_ok.mp hlength
  · intro h
    unfold bindArguments
    dsimp only
    cases h with
    | positional harguments hfields hlength =>
      have hnamed := (hall _).mpr hfields
      have hunnamed := (hall _).mpr harguments
      have hmixed : ∀ p : Prop, ¬ (p ∧ (placeholderNames.any fun name => !name.isEmpty) = true) :=
        fun _ h => hnamed h.2
      have hmixed' : ∀ p : Prop, ¬ ((format.argumentNames.any fun name => !name.isEmpty) = true ∧
          p) :=
        fun _ h => hunnamed h.1
      rw [ensure_bind (hmixed _), ensure_bind ⟨hnames, hlocations⟩, ensure_bind (hmixed' _),
        if_neg hnamed]
      have hsearch := (hfind fun name => !name.isEmpty).mpr
        fun name hname => by simp [harguments name hname]
      rw [hsearch]
      dsimp only
      rw [ensure_bind (hlength.trans hnames)]
      rfl
    | named hne hfields harguments hbound =>
      have hpositionalFields := (hnone _).mpr hfields
      have hpositional := (hnone _).mpr fun name hname => (harguments name hname).1
      obtain ⟨first, hfirst⟩ := List.exists_mem_of_ne_nil _ hne
      have hnamed := (any_named_iff placeholderNames).mpr ⟨first, hfirst, hfields first hfirst⟩
      have hmixed : ∀ p : Prop, ¬ (placeholderNames.any List.isEmpty = true ∧ p) := fun _ h => by
        rw [hpositionalFields] at h
        cases h.1
      have hmixed' : ∀ p : Prop, ¬ (p ∧ format.argumentNames.any List.isEmpty = true) :=
          fun _ h => by
        rw [hpositional] at h
        cases h.2
      rw [ensure_bind (hmixed _), ensure_bind ⟨hnames, hlocations⟩, ensure_bind (hmixed' _),
        if_pos hnamed,
        ensure_bind hpositional]
      have hsearch := (hfind fun name => !placeholderNames.contains name).mpr fun name hname => by
        simp [(harguments name hname).2]
      rw [hsearch]
      dsimp only
      rw [mapM_require_iff]
      refine hbound.imp fun name index hindex => ?_
      exact (idxOf?_eq_some_iff (hdistinct fun name hname => (harguments name hname).1) name
        index).mpr hindex

/-! ## Calls -/

theorem DistinctNames.nodup {arguments : List (FormatArgument ε)} (h : DistinctNames arguments)
    (hnamed : ∀ name ∈ arguments.map (·.name), name ≠ []) : (arguments.map (·.name)).Nodup := by
  rw [List.Nodup, List.pairwise_map]
  refine List.Pairwise.imp_of_mem (fun _ hlater hdistinct => ?_) h
  exact hdistinct.resolve_left (hnamed _ (List.mem_map_of_mem hlater))

/-- A format expression, by the pieces of its template. -/
def formatOf (location : SourceLocation) (template : Text) (arguments : List (FormatArgument ε))
    (pieces : List Piece) (indices : List Nat) : FormatExpression ε where
  location
  value := template
  arguments := arguments.map (·.expression)
  argumentNames := arguments.map (·.name)
  argumentNameLocations := arguments.map (·.location)
  formatSegments := segmentsOf pieces
  formatArgumentIndices := indices
  formatSpecs := fieldSpecs pieces

/-- A call is accepted exactly if its template and arguments fit. -/
theorem parseFormat_eq_ok_iff (location : SourceLocation) (template : Text)
    (arguments : List (FormatArgument ε)) (parsed : FormatExpression ε) :
    parseFormat location template arguments = .ok parsed ↔
      ∃ pieces indices, IsTemplate pieces template ∧ DistinctNames arguments ∧
        Binds (arguments.map (·.name)) (fieldNames pieces) indices ∧
        formatOf location template arguments pieces indices = parsed := by
  have hscanned : ∀ pieces : List Piece,
      (pieces.foldl Scanned.piece .empty).formatSegments ++
          [(pieces.foldl Scanned.piece .empty).segment]
          = segmentsOf pieces ∧
        (pieces.foldl Scanned.piece .empty).placeholderNames = fieldNames pieces ∧
        (pieces.foldl Scanned.piece .empty).formatSpecs = fieldSpecs pieces := by
    intro pieces
    obtain ⟨hsegments, hnames, hspecs⟩ := scanned_pieces pieces .empty
    rw [hsegments, hnames, hspecs]
    refine ⟨?_, rfl, rfl⟩
    show (segmentsOf pieces).modifyHead ([] ++ ·) = segmentsOf pieces
    cases segmentsOf pieces <;> rfl
  have hbind : DistinctNames arguments → ∀ names indices,
      bindArguments ((FormatExpression.template location template).withArguments arguments) names =
        .ok indices ↔
        Binds (arguments.map (·.name)) names indices := by
    intro hdistinct names indices
    exact bindArguments_iff (by simp [FormatExpression.withArguments, FormatExpression.template])
      (by simp [FormatExpression.withArguments, FormatExpression.template]) hdistinct.nodup
        names indices
  unfold parseFormat validateFormatString
  simp only [bind_eq_ok, pure_eq_ok, parseFormatArguments_eq_ok_iff, scanTemplate_iff]
  constructor
  · rintro ⟨_, ⟨_, hdistinct, rfl⟩, _, ⟨pieces, htemplate, rfl⟩, indices, hindices, rfl⟩
    obtain ⟨hsegments, hnames, hspecs⟩ := hscanned pieces
    rw [hnames, hbind hdistinct] at hindices
    refine ⟨pieces, indices, htemplate, hdistinct, hindices, ?_⟩
    rw [hsegments, hspecs]
    rfl
  · rintro ⟨pieces, indices, htemplate, hdistinct, hindices, rfl⟩
    obtain ⟨hsegments, hnames, hspecs⟩ := hscanned pieces
    refine ⟨_, ⟨fun _ _ => .inr List.not_mem_nil, hdistinct, rfl⟩, _, ⟨pieces, htemplate, rfl⟩,
      indices, ?_, ?_⟩
    · rw [hnames]
      exact (hbind hdistinct _ _).mpr hindices
    · rw [hsegments, hspecs]
      rfl

end Cwhip.Parser
