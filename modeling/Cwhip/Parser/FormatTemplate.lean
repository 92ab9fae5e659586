/-
  Cwhip.Parser.FormatTemplate

  Templates of `format` and of `print` with several arguments: the scanning
  loop of `validateFormatString`, and the documented grammar of templates.

  A template is a sequence of pieces: characters, doubled braces and fields
  `{name:spec}`, where the name and the specification may be absent.  The loop
  accepts exactly the texts of such sequences, and what it collects is what the
  pieces say, piece by piece.
-/

import Cwhip.CodeGen.Mangling
import Cwhip.Lib.NumeralOrder
import Cwhip.Packages.Version
import Cwhip.Parser.Token
import Cwhip.Runtime.FormatFieldText

namespace Cwhip.Parser

open Cwhip.Lib
open Cwhip.CodeGen (isIdentifierStart isIdentifierPart isIdentifier)
open Cwhip.Packages (cutAt cutAt_none cutAt_some cutAt_append cutAt_of_notMem)
open Cwhip.Runtime.StringStore (FormatSpec FormatType)
open List (head?_cons length_cons mem_append nil_append)

/-! ## Specifications -/

/-- The largest width. -/
def maxFormatWidth : Nat := 1000000

def takeAlignment : Text → Option Runtime.StringStore.Alignment × Text
  | '<' :: rest => (some .left, rest)
  | '>' :: rest => (some .right, rest)
  | '^' :: rest => (some .center, rest)
  | text => (none, text)

/-- The loop over the digits of the width. -/
def takeWidth (location : SourceLocation) : Nat → Text → Except DiagnosticError (Nat × Text)
  | width, [] => .ok (width, [])
  | width, c :: rest =>
    if c.isDigit then
      if maxFormatWidth < width * 10 + (c.toNat - '0'.toNat) then
        .error ⟨location, "format width exceeds 1000000".toList⟩
      else takeWidth location (width * 10 + (c.toNat - '0'.toNat)) rest
    else .ok (width, c :: rest)

def takeType : Text → Option FormatType × Text
  | 'd' :: rest => (some .d, rest)
  | 'x' :: rest => (some .x, rest)
  | 'X' :: rest => (some .X, rest)
  | 'c' :: rest => (some .c, rest)
  | text => (none, text)

/-- What follows the colon of a field. -/
def parseSpec (location : SourceLocation) (text : Text) : Except DiagnosticError FormatSpec := do
  let (alignment, text) := takeAlignment text
  let zeroPad := text.head? == some '0'
  let (width, text) ← takeWidth location 0 text
  let (type, text) := takeType text
  ensure (text = [] ∧ ¬ (zeroPad = true ∧ (alignment.isSome = true ∨ type = some .c)))
    ⟨location, "invalid format specifier".toList⟩
  return ⟨type, width, alignment, zeroPad⟩

/-! ## The loop -/

/-- What has been collected in front of the rest of a template. -/
structure Scanned where
  formatSegments : List Text
  segment : Text
  placeholderNames : List Text
  formatSpecs : List FormatSpec
  deriving DecidableEq, Repr

def Scanned.empty : Scanned := ⟨[], [], [], []⟩

def Scanned.character (s : Scanned) (c : Char) : Scanned := { s with segment := s.segment ++ [c] }

/-- A field, which ends a segment. -/
def Scanned.field (s : Scanned) (name : Text) (spec : FormatSpec) : Scanned :=
  ⟨s.formatSegments ++ [s.segment], [], s.placeholderNames ++ [name], s.formatSpecs ++ [spec]⟩

/-- What stands between the braces of a field. -/
def parseField (location : SourceLocation) (body : Text) :
    Except DiagnosticError (Text × FormatSpec) := do
  let (name, colon) := cutAt ':' body
  ensure (name = [] ∨ isIdentifier name = true)
    ⟨location, "malformed placeholder name in formatted string".toList⟩
  match colon with
  | none => return (name, ⟨none, 0, none, false⟩)
  | some text => do
    let spec ← parseSpec location text
    return (name, spec)

theorem cutAt_length {c : Char} {text before after : Text}
    (h : cutAt c text = (before, some after)) :
    after.length < text.length := by
  rw [(cutAt_some h).1, List.length_append, length_cons]
  omega

/-- The loop over the characters of a template. -/
def scanTemplate (location : SourceLocation) (s : Scanned) (text : Text) :
    Except DiagnosticError Scanned :=
  match text with
  | [] => .ok s
  | c :: rest =>
    if c = '{' then
      if rest.head? = some '{' then scanTemplate location (s.character '{') rest.tail
      else
        match _h : cutAt '}' rest with
        | (_, none) => .error ⟨location, "unmatched '\x7b' in formatted string".toList⟩
        | (body, some after) => do
          let (name, spec) ← parseField location body
          scanTemplate location (s.field name spec) after
    else if c = '}' then
      if rest.head? = some '}' then scanTemplate location (s.character '}') rest.tail
      else .error ⟨location, "unmatched '\x7d' in formatted string".toList⟩
    else scanTemplate location (s.character c) rest
termination_by text.length
decreasing_by
  · rw [List.length_tail, length_cons]
    omega
  · have hshort := cutAt_length (by assumption)
    rw [length_cons]
    omega
  · rw [List.length_tail, length_cons]
    omega
  · rw [length_cons]
    omega

/-! ## The grammar -/

structure SpecText where
  alignment : Option Runtime.StringStore.Alignment
  width : Text
  type : Option FormatType
  deriving DecidableEq, Repr

def alignmentText : Option Runtime.StringStore.Alignment → Text
  | none => []
  | some .left => ['<']
  | some .right => ['>']
  | some .center => ['^']

def typeText : Option FormatType → Text
  | none => []
  | some .d => ['d']
  | some .x => ['x']
  | some .X => ['X']
  | some .c => ['c']

/-- `[alignment][width][type]` -/
def SpecText.text (spec : SpecText) : Text := alignmentText spec.alignment ++ spec.width ++
    typeText spec.type

/-- The width is a number that is not too large, and one with a leading zero
    goes with no alignment and not with `c`. -/
structure SpecText.WellFormed (spec : SpecText) : Prop where
  digits : ∀ c ∈ spec.width, c.isDigit = true
  width : numeralValue spec.width ≤ maxFormatWidth
  alignment : spec.width.head? = some '0' → spec.alignment = none
  type : spec.width.head? = some '0' → spec.type ≠ some .c

def SpecText.spec (spec : SpecText) : FormatSpec :=
  ⟨spec.type, numeralValue spec.width, spec.alignment, spec.width.head? == some '0'⟩

/-- The pieces of a template. -/
inductive Piece where
  | literal (c : Char)
  | openBrace
  | closeBrace
  | field (name : Text) (spec : Option SpecText)
  deriving DecidableEq, Repr

/-- The specification of a field that has none. -/
def defaultSpec : FormatSpec := ⟨none, 0, none, false⟩

def fieldBody (name : Text) : Option SpecText → Text
  | none => name
  | some spec => name ++ ':' :: spec.text

def Piece.text : Piece → Text
  | .literal c => [c]
  | .openBrace => ['{', '{']
  | .closeBrace => ['}', '}']
  | .field name spec => '{' :: fieldBody name spec ++ ['}']

def Piece.WellFormed : Piece → Prop
  | .literal c => c ≠ '{' ∧ c ≠ '}'
  | .openBrace => True
  | .closeBrace => True
  | .field name spec => (name = [] ∨ isIdentifier name = true) ∧ ∀ text, spec = some text →
      text.WellFormed

def IsTemplate (pieces : List Piece) (template : Text) : Prop :=
  pieces.flatMap Piece.text = template ∧ ∀ piece ∈ pieces, piece.WellFormed

/-- What the loop collects from a piece. -/
def Scanned.piece (s : Scanned) : Piece → Scanned
  | .literal c => s.character c
  | .openBrace => s.character '{'
  | .closeBrace => s.character '}'
  | .field name spec => s.field name ((spec.map SpecText.spec).getD defaultSpec)

/-! ## Parsing a specification -/

variable {c : Char} {text rest name : Text} {location : SourceLocation} {start : Nat}
  {type : Option FormatType}

/-- A width is made of digits and no larger than the largest width. -/
theorem takeWidth_le {width : Nat} (h : takeWidth location start text = .ok (width, rest))
    (hstart : start ≤ maxFormatWidth) :
    ∃ digits, text = digits ++ rest ∧ (∀ c ∈ digits, c.isDigit = true) ∧
      width = Nat.ofDigitChars 10 digits start ∧ width ≤ maxFormatWidth := by
  induction text generalizing start with
  | nil =>
    rw [takeWidth] at h
    cases h
    exact ⟨[], rfl, List.forall_mem_nil _, by rw [Nat.ofDigitChars_nil], hstart⟩
  | cons c tail ih =>
    rw [takeWidth] at h
    split at h
    · next hc =>
      split at h
      · cases h
      · next hle =>
        obtain ⟨digits, rfl, hdigits, hwidth, hmax⟩ := ih h (Nat.not_lt.mp hle)
        refine ⟨c :: digits, rfl, List.forall_mem_cons.mpr ⟨hc, hdigits⟩, ?_, hmax⟩
        rw [Nat.ofDigitChars_cons, Nat.mul_comm 10 start]
        exact hwidth
    · cases h
      exact ⟨[], rfl, List.forall_mem_nil _, by rw [Nat.ofDigitChars_nil], hstart⟩

theorem takeWidth_digits {digits : Text} (hdigits : ∀ c ∈ digits, c.isDigit = true)
    (hrest : ∀ c, rest.head? = some c → c.isDigit = false)
    (hmax : Nat.ofDigitChars 10 digits start ≤ maxFormatWidth) :
    takeWidth location start (digits ++ rest) = .ok (Nat.ofDigitChars 10 digits start, rest) := by
  induction digits generalizing start with
  | nil =>
    cases rest with
    | nil => rfl
    | cons c rest =>
      rw [nil_append, takeWidth, if_neg (by rw [hrest c rfl]; exact Bool.false_ne_true)]
      rw [Nat.ofDigitChars_nil]
  | cons c digits ih =>
    obtain ⟨hc, hdigits⟩ := List.forall_mem_cons.mp hdigits
    rw [Nat.ofDigitChars_cons, Nat.mul_comm 10 start] at hmax ⊢
    -- the value only grows with further digits
    have hgrows := (ofDigitChars_bounds hdigits (start * 10 + (c.toNat - '0'.toNat))).1
    have hpos : 0 < 10 ^ digits.length := Nat.pow_pos (by decide)
    have hle := Nat.le_trans (Nat.le_mul_of_pos_right _ hpos) hgrows
    rw [List.cons_append, takeWidth, if_pos hc, if_neg (by omega), ih hdigits hmax]

theorem takeAlignment_sound {alignment : Option Runtime.StringStore.Alignment}
    (h : takeAlignment text = (alignment, rest)) : text = alignmentText alignment ++ rest := by
  unfold takeAlignment at h
  split at h <;> (cases h; rfl)

theorem takeAlignment_complete (alignment : Option Runtime.StringStore.Alignment)
    (hrest : ∀ c, rest.head? = some c → c ≠ '<' ∧ c ≠ '>' ∧ c ≠ '^') :
    takeAlignment (alignmentText alignment ++ rest) = (alignment, rest) := by
  cases alignment with
  | none =>
    show takeAlignment rest = (none, rest)
    unfold takeAlignment
    split
    · exact absurd rfl (hrest _ rfl).1
    · exact absurd rfl (hrest _ rfl).2.1
    · exact absurd rfl (hrest _ rfl).2.2
    · rfl
  | some alignment => cases alignment <;> rfl

theorem takeType_sound (h : takeType text = (type, rest)) :
    text = typeText type ++ rest := by
  unfold takeType at h
  split at h <;> (cases h; rfl)

theorem takeType_complete (type : Option FormatType) : takeType (typeText type) = (type, []) := by
  cases type with
  | none => rfl
  | some type => cases type <;> rfl

theorem typeText_head (h : (typeText type).head? = some c) :
    c.isDigit = false ∧ c ≠ '<' ∧ c ≠ '>' ∧ c ≠ '^' := by
  cases type with
  | none => cases h
  | some type =>
    cases type <;>
      (rw [← Option.some.inj h]
       decide)

theorem width_head (spec : SpecText) : ((spec.width ++ typeText spec.type).head? == some '0') =
    (spec.width.head? == some '0') := by
  cases hwidth : spec.width with
  | cons c width => rfl
  | nil =>
    rw [nil_append]
    cases hhead : (typeText spec.type).head? with
    | none => rfl
    | some c =>
      have hdigit := (typeText_head hhead).1
      show (some c == some '0') = false
      rw [beq_eq_false_iff_ne]
      intro heq
      rw [Option.some.inj heq] at hdigit
      cases hdigit

/-- Every well-formed specification is read as it is written. -/
theorem parseSpec_complete (location : SourceLocation) {spec : SpecText} (h : spec.WellFormed) :
    parseSpec location spec.text = .ok spec.spec := by
  have halignment : takeAlignment spec.text = (spec.alignment,
      spec.width ++ typeText spec.type) := by
    rw [SpecText.text, List.append_assoc]
    apply takeAlignment_complete
    intro c hc
    cases hwidth : spec.width with
    | nil =>
      rw [hwidth, nil_append] at hc
      exact (typeText_head hc).2
    | cons first width =>
      rw [hwidth, List.cons_append, head?_cons] at hc
      have hdigit := h.digits first (by rw [hwidth]; exact List.mem_cons_self)
      rw [Option.some.inj hc] at hdigit
      refine ⟨?_, ?_, ?_⟩ <;> (rintro rfl; cases hdigit)
  have hwidth : takeWidth location 0 (spec.width ++ typeText spec.type)
      = .ok (numeralValue spec.width, typeText spec.type) :=
    takeWidth_digits h.digits (fun c hc => (typeText_head hc).1) h.width
  have hvalid : ¬ ((spec.width.head? == some '0') = true ∧
      (spec.alignment.isSome = true ∨ spec.type = some .c)) := by
    rintro ⟨hzero, hboth⟩
    rw [beq_iff_eq] at hzero
    rcases hboth with halign | htype
    · rw [h.alignment hzero] at halign
      cases halign
    · exact h.type hzero htype
  unfold parseSpec
  rw [halignment]
  dsimp only
  rw [hwidth, ok_bind]
  dsimp only
  rw [takeType_complete, width_head, ensure_bind ⟨rfl, hvalid⟩]
  rfl

/-- A specification that is read is well formed. -/
theorem parseSpec_sound {location : SourceLocation} {text : Text} {result : FormatSpec}
    (h : parseSpec location text = .ok result) :
    ∃ spec : SpecText, spec.text = text ∧ spec.WellFormed ∧ spec.spec = result := by
  unfold parseSpec at h
  generalize halignment : takeAlignment text = taken at h
  obtain ⟨alignment, text₁⟩ := taken
  dsimp only at h
  obtain ⟨⟨width, text₂⟩, hwidth, h⟩ := bind_eq_ok.mp h
  dsimp only at h
  generalize htype : takeType text₂ = taken at h
  obtain ⟨type, text₃⟩ := taken
  dsimp only at h
  obtain ⟨_, hensured, hresult⟩ := bind_eq_ok.mp h
  obtain ⟨hend, hvalid⟩ := ensure_eq_ok.mp hensured
  obtain ⟨digits, rfl, hdigits, rfl, hmax⟩ := takeWidth_le hwidth (by decide)
  have htext := takeAlignment_sound halignment
  have hrest := takeType_sound htype
  rw [hend, List.append_nil] at hrest
  subst hrest
  have hhead := width_head ⟨alignment, digits, type⟩
  dsimp only at hhead
  rw [hhead, not_and, not_or] at hvalid
  refine ⟨⟨alignment, digits, type⟩, ?_, ⟨hdigits, hmax, ?_, ?_⟩, ?_⟩
  · rw [htext]
    exact List.append_assoc _ _ _
  · intro hzero
    have hnone := (hvalid (beq_iff_eq.mpr hzero)).1
    rwa [Option.isSome_iff_ne_none, not_not] at hnone
  · intro hzero
    exact (hvalid (beq_iff_eq.mpr hzero)).2
  · rw [← pure_eq_ok.mp hresult, hhead]
    rfl

theorem SpecText.WellFormed.parsed {spec : SpecText} (h : spec.WellFormed) :
    spec.spec.Parsed := by
  refine ⟨h.width, fun hzero => ?_, fun hzero => ?_⟩
  · exact h.alignment (beq_iff_eq.mp hzero)
  · exact h.type (beq_iff_eq.mp hzero)

/-! ## Fields -/

theorem isIdentifier_notMem (h : name = [] ∨ isIdentifier name = true)
    (hc : isIdentifierPart c = false) : c ∉ name := by
  have hpart : ∀ {d : Char}, isIdentifierPart d = true → d ≠ c := by
    rintro d hd rfl
    rw [hc] at hd
    cases hd
  rcases h with rfl | h
  · exact List.not_mem_nil
  · cases name with
    | nil => cases h
    | cons first rest =>
      obtain ⟨hfirst, hrest⟩ := Bool.and_eq_true_iff.mp h
      have hfirst : isIdentifierPart first = true := by rw [isIdentifierPart, hfirst, Bool.true_or]
      rw [List.mem_cons, not_or]
      exact ⟨(hpart hfirst).symm, fun hmem => hpart (List.all_eq_true.mp hrest c hmem) rfl⟩

theorem SpecText.notMem {spec : SpecText} (h : spec.WellFormed) : '}' ∉ spec.text := by
  have halignment : '}' ∉ alignmentText spec.alignment := by
    rcases spec.alignment with _ | alignment
    · decide
    · cases alignment <;> decide
  have htype : '}' ∉ typeText spec.type := by
    rcases spec.type with _ | type
    · decide
    · cases type <;> decide
  have hwidth : '}' ∉ spec.width := fun hmem => by cases h.digits '}' hmem
  rw [SpecText.text, mem_append, mem_append, not_or, not_or]
  exact ⟨⟨halignment, hwidth⟩, htype⟩

theorem fieldBody_notMem {name : Text} {spec : Option SpecText}
    (h : (Piece.field name spec).WellFormed) :
    '}' ∉ fieldBody name spec := by
  have hname := isIdentifier_notMem h.1 (show isIdentifierPart '}' = false by decide)
  cases spec with
  | none => exact hname
  | some spec =>
    rw [fieldBody, mem_append, List.mem_cons, not_or, not_or]
    exact ⟨hname, by decide, SpecText.notMem (h.2 spec rfl)⟩

theorem fieldBody_head {spec : Option SpecText} (h : (Piece.field name spec).WellFormed)
    (rest : Text) : (fieldBody name spec ++ '}' :: rest).head? ≠ some '{' := by
  have hname := isIdentifier_notMem h.1 (show isIdentifierPart '{' = false by decide)
  cases name with
  | cons first name =>
    have hfirst : first ≠ '{' := fun heq => hname (heq ▸ List.mem_cons_self)
    cases spec <;> exact fun heq => hfirst (Option.some.inj heq)
  | nil =>
    cases spec with
    | none | some spec => exact fun heq => absurd (Option.some.inj heq) (by decide)

/-- A field is split at its colon. -/
theorem parseField_complete (location : SourceLocation) {name : Text} {spec : Option SpecText}
    (h : (Piece.field name spec).WellFormed) :
    parseField location (fieldBody name spec) = .ok (name,
    (spec.map SpecText.spec).getD defaultSpec) := by
  have hname := isIdentifier_notMem h.1 (show isIdentifierPart ':' = false by decide)
  unfold parseField
  cases spec with
  | none =>
    rw [fieldBody, cutAt_of_notMem hname]
    dsimp only
    rw [ensure_bind h.1]
    rfl
  | some spec =>
    rw [fieldBody, cutAt_append _ hname]
    dsimp only
    rw [ensure_bind h.1, parseSpec_complete location (h.2 spec rfl)]
    rfl

theorem parseField_sound {location : SourceLocation} {body name : Text} {result : FormatSpec}
    (h : parseField location body = .ok (name, result)) :
    ∃ spec, fieldBody name spec = body ∧ (Piece.field name spec).WellFormed ∧
      (spec.map SpecText.spec).getD defaultSpec = result := by
  unfold parseField at h
  generalize hcut : cutAt ':' body = cut at h
  obtain ⟨before, colon⟩ := cut
  dsimp only at h
  obtain ⟨_, hensured, h⟩ := bind_eq_ok.mp h
  have hname := ensure_eq_ok.mp hensured
  cases colon with
  | none =>
    obtain ⟨rfl, hspec⟩ := Prod.mk.inj (pure_eq_ok.mp h)
    refine ⟨none, (cutAt_none hcut).1, ⟨hname, fun text htext => by cases htext⟩, hspec⟩
  | some text =>
    obtain ⟨spec', hparse, h⟩ := bind_eq_ok.mp h
    obtain ⟨rfl, rfl⟩ := Prod.mk.inj (pure_eq_ok.mp h)
    obtain ⟨spec, rfl, hspec, rfl⟩ := parseSpec_sound hparse
    refine ⟨some spec, (cutAt_some hcut).1.symm, ⟨hname, fun text htext => ?_⟩, rfl⟩
    rw [← Option.some.inj htext]
    exact hspec

/-! ## Scanning -/

theorem scanTemplate_nil (location : SourceLocation) (s : Scanned) :
    scanTemplate location s [] = .ok s := by
  rw [scanTemplate]

theorem scanTemplate_open (location : SourceLocation) (s : Scanned) (rest : Text) :
    scanTemplate location s ('{' :: '{' :: rest) = scanTemplate location
    (s.character '{') rest := by
  rw [scanTemplate, if_pos rfl, if_pos head?_cons, List.tail_cons]

theorem scanTemplate_close (location : SourceLocation) (s : Scanned) (rest : Text) :
    scanTemplate location s ('}' :: '}' :: rest) = scanTemplate location
    (s.character '}') rest := by
  rw [scanTemplate, if_neg (by decide), if_pos rfl, if_pos head?_cons, List.tail_cons]

theorem scanTemplate_character (location : SourceLocation) (s : Scanned) {c : Char}
    (hopen : c ≠ '{') (hclose : c ≠ '}') (rest : Text) :
    scanTemplate location s (c :: rest) = scanTemplate location (s.character c) rest := by
  rw [scanTemplate, if_neg hopen, if_neg hclose]

theorem scanTemplate_field (location : SourceLocation) (s : Scanned) {body rest after : Text}
    (hhead : rest.head? ≠ some '{') (hcut : cutAt '}' rest = (body, some after)) :
    scanTemplate location s ('{' :: rest) =
      (parseField location body >>= fun (name, spec) =>
      scanTemplate location (s.field name spec) after) := by
  rw [scanTemplate, if_pos rfl, if_neg hhead]
  split
  · next heq =>
    rw [hcut] at heq
    cases heq
  · next heq =>
    rw [hcut] at heq
    cases heq
    rfl

/-- A template is scanned piece by piece. -/
theorem scanTemplate_complete (location : SourceLocation) (s : Scanned) {pieces : List Piece}
    (h : ∀ piece ∈ pieces, piece.WellFormed) :
    scanTemplate location s (pieces.flatMap Piece.text) = .ok (pieces.foldl Scanned.piece s) := by
  induction pieces generalizing s with
  | nil => exact scanTemplate_nil location s
  | cons piece pieces ih =>
    obtain ⟨hpiece, hpieces⟩ := List.forall_mem_cons.mp h
    rw [List.flatMap_cons, List.foldl_cons, ← ih (s.piece piece) hpieces]
    cases piece with
    | literal c => exact scanTemplate_character location s hpiece.1 hpiece.2 _
    | openBrace => exact scanTemplate_open location s _
    | closeBrace => exact scanTemplate_close location s _
    | field name spec =>
      have htext : (Piece.field name spec).text ++ pieces.flatMap Piece.text
          = '{' :: (fieldBody name spec ++ '}' :: pieces.flatMap Piece.text) := by
        simp [Piece.text]
      rw [htext, scanTemplate_field location s (fieldBody_head hpiece _)
        (cutAt_append _ (fieldBody_notMem hpiece)), parseField_complete location hpiece]
      rfl

/-- What is scanned is made of pieces. -/
theorem scanTemplate_sound {location : SourceLocation} {s result : Scanned} {template : Text}
    (h : scanTemplate location s template = .ok result) :
    ∃ pieces, IsTemplate pieces template ∧ pieces.foldl Scanned.piece s = result := by
  induction hlength : template.length using Nat.strongRecOn generalizing s template with
  | _ length ih =>
    -- a piece in front of the pieces of what follows it
    have hcons : ∀ (piece : Piece) {rest : Text}, piece.WellFormed → rest.length < length →
        template = piece.text ++ rest → scanTemplate location (s.piece piece) rest = .ok result →
        ∃ pieces, IsTemplate pieces template ∧ pieces.foldl Scanned.piece s = result := by
      intro piece rest hpiece hshort htext hrest
      obtain ⟨pieces, ⟨hpieces, hall⟩, hfold⟩ := ih rest.length hshort hrest rfl
      refine ⟨piece :: pieces, ⟨?_, List.forall_mem_cons.mpr ⟨hpiece, hall⟩⟩, hfold⟩
      rw [List.flatMap_cons, hpieces, htext]
    cases template with
    | nil =>
      rw [scanTemplate_nil] at h
      exact ⟨[], ⟨rfl, List.forall_mem_nil _⟩, Except.ok.inj h⟩
    | cons c rest =>
      rw [length_cons] at hlength
      by_cases hopen : c = '{'
      · subst hopen
        cases rest with
        | nil =>
          rw [scanTemplate, if_pos rfl, if_neg (by decide)] at h
          cases h
        | cons second rest =>
          rw [length_cons] at hlength
          by_cases hsecond : second = '{'
          · subst hsecond
            rw [scanTemplate_open] at h
            exact hcons .openBrace trivial (by omega) rfl h
          · have hhead : (second :: rest).head? ≠ some '{' := fun heq =>
              hsecond (Option.some.inj heq)
            generalize hcut : cutAt '}' (second :: rest) = cut at h
            obtain ⟨body, closing⟩ := cut
            cases closing with
            | none =>
              rw [scanTemplate, if_pos rfl, if_neg hhead] at h
              split at h
              · cases h
              · next heq =>
                rw [hcut] at heq
                cases heq
            | some after =>
              rw [scanTemplate_field location s hhead hcut] at h
              obtain ⟨⟨name, found⟩, hfield, h⟩ := bind_eq_ok.mp h
              obtain ⟨spec, rfl, hwell, rfl⟩ := parseField_sound hfield
              have hshort := cutAt_length hcut
              rw [length_cons] at hshort
              refine hcons (.field name spec) hwell (by omega) ?_ h
              rw [(cutAt_some hcut).1]
              simp [Piece.text]
      · by_cases hclose : c = '}'
        · subst hclose
          cases rest with
          | nil =>
            rw [scanTemplate, if_neg hopen, if_pos rfl, if_neg (by decide)] at h
            cases h
          | cons second rest =>
            rw [length_cons] at hlength
            by_cases hsecond : second = '}'
            · subst hsecond
              rw [scanTemplate_close] at h
              exact hcons .closeBrace trivial (by omega) rfl h
            · have hhead : (second :: rest).head? ≠ some '}' := fun heq =>
                hsecond (Option.some.inj heq)
              rw [scanTemplate, if_neg hopen, if_pos rfl, if_neg hhead] at h
              cases h
        · rw [scanTemplate_character location s hopen hclose] at h
          exact hcons (.literal c) ⟨hopen, hclose⟩ (by omega) rfl h

theorem scanTemplate_iff (location : SourceLocation) (s result : Scanned) (template : Text) :
    scanTemplate location s template = .ok result ↔
      ∃ pieces, IsTemplate pieces template ∧ pieces.foldl Scanned.piece s = result := by
  constructor
  · exact scanTemplate_sound
  · rintro ⟨pieces, ⟨rfl, hpieces⟩, rfl⟩
    exact scanTemplate_complete location s hpieces

end Cwhip.Parser
