/-
  Cwhip.Lib.CText

  The text of a C program, as far as its braces go: lines that are joined, literals
  and comments.
-/

import Mathlib.Tactic.Common

namespace Cwhip.Lib.CText

/-- A backslash at the end of a line joins it with the next.  Lines end in a line
    feed; a carriage return is a character of the line. -/
def joinLines : List Char → List Char
  | '\\' :: '\n' :: rest => joinLines rest
  | value :: rest => value :: joinLines rest
  | [] => []

/-- The inside of a literal; its quote stands only behind a backslash. -/
inductive Inside (quote : Char) : List Char → Prop where
  | nil : Inside quote []
  | plain {value : Char} {rest : List Char} (hvalue : value ≠ quote ∧ value ≠ '\\')
      (h : Inside quote rest) :
      Inside quote (value :: rest)
  | escape (value : Char) {rest : List Char} (h : Inside quote rest) :
      Inside quote ('\\' :: value :: rest)

/-- A slash that is not the first character of a comment. -/
def Alone (value : Char) (rest : List Char) : Prop :=
  value = '/' → rest.head? ≠ some '/' ∧ rest.head? ≠ some '*'

/-- A text, and its characters outside literals and comments. -/
inductive Code : List Char → List Char → Prop where
  | nil : Code [] []
  | plain {value : Char} {rest code : List Char} (hquote : value ≠ '"' ∧ value ≠ '\'')
      (hslash : Alone value rest) (h : Code rest code) : Code (value :: rest) (value :: code)
  | literal {quote : Char} {inside rest code : List Char} (hquote : quote = '"' ∨ quote = '\'')
      (hinside : Inside quote inside) (h : Code rest code) :
        Code (quote :: (inside ++ quote :: rest)) code
  | lineComment {comment rest code : List Char} (hcomment : '\n' ∉ comment) (h : Code rest code) :
      Code ('/' :: '/' :: (comment ++ '\n' :: rest)) code
  | blockComment {comment rest code : List Char} (hcomment : ¬ ['*', '/'] <:+: comment)
      (h : Code rest code) :
      Code ('/' :: '*' :: (comment ++ '*' :: '/' :: rest)) code

/-- How many braces are open behind a text; none of them may close too early. -/
def braces : Nat → List Char → Option Nat
  | depth, [] => some depth
  | depth, value :: rest =>
    if value = '\x7b' then braces (depth + 1) rest
    else if value = '\x7d' then if depth = 0 then none else braces (depth - 1) rest
    else braces depth rest

/-- The braces outside literals and comments balance. -/
def Balanced (text : List Char) : Prop := ∃ code, Code text code ∧ braces 0 code = some 0

/-! ## One character -/

variable {code text : List Char} {quote value : Char} {P : List Char → Prop}

theorem code_nil_iff : Code [] code ↔ code = [] := by
  constructor
  · intro h
    cases h
    rfl
  · rintro rfl
    exact .nil

theorem code_quote_iff (hquote : quote = '"' ∨ quote = '\'') :
    Code (quote :: text) code ↔
      ∃ inside rest, text = inside ++ quote :: rest ∧ Inside quote inside ∧ Code rest code := by
  constructor
  · intro h
    cases h with
    | plain hplain _ _ => exact (hquote.elim hplain.1 hplain.2).elim
    | literal _ hinside h => exact ⟨_, _, rfl, hinside, h⟩
    | lineComment _ _ | blockComment _ _ => exact absurd hquote (by decide)
  · rintro ⟨inside, rest, rfl, hinside, h⟩
    exact .literal hquote hinside h

/-- A plain character is code. -/
theorem code_plain_iff {value : Char} {text code : List Char} (hquote : value ≠ '"' ∧ value ≠ '\'')
    (hslash : Alone value text) : Code (value :: text) code ↔ ∃ code', code = value :: code' ∧
    Code text code' := by
  constructor
  · intro h
    cases h with
    | plain _ _ h => exact ⟨_, rfl, h⟩
    | literal hliteral _ _ => exact (hliteral.elim hquote.1 hquote.2).elim
    | lineComment _ _ => exact absurd rfl (hslash rfl).1
    | blockComment _ _ => exact absurd rfl (hslash rfl).2
  · rintro ⟨code', rfl, h⟩
    exact .plain hquote hslash h

/-- A line comment ends before the code of the next line. -/
theorem code_lineComment_iff :
    Code ('/' :: '/' :: text) code ↔ ∃ comment rest, text = comment ++ '\n' :: rest ∧
    '\n' ∉ comment ∧ Code rest code := by
  constructor
  · intro h
    generalize hwhole : '/' :: '/' :: text = whole at h
    cases h with
    | nil => cases hwhole
    | plain _ hslash _ =>
      cases hwhole
      exact absurd rfl (hslash rfl).1
    | literal hquote _ _ =>
      rw [← (List.cons.inj hwhole).1] at hquote
      exact absurd hquote (by decide)
    | lineComment hcomment h =>
      cases hwhole
      exact ⟨_, _, rfl, hcomment, h⟩
    | blockComment _ _ => cases hwhole
  · rintro ⟨comment, rest, rfl, hcomment, h⟩
    exact .lineComment hcomment h

/-- A block comment ends at the first `*/`. -/
theorem code_blockComment_iff :
    Code ('/' :: '*' :: text) code ↔
      ∃ comment rest, text = comment ++ '*' :: '/' :: rest ∧ ¬ ['*', '/'] <:+: comment ∧
      Code rest code := by
  constructor
  · intro h
    generalize hwhole : '/' :: '*' :: text = whole at h
    cases h with
    | nil => cases hwhole
    | plain _ hslash _ =>
      cases hwhole
      exact absurd rfl (hslash rfl).2
    | literal hquote _ _ =>
      rw [← (List.cons.inj hwhole).1] at hquote
      exact absurd hquote (by decide)
    | lineComment _ _ => cases hwhole
    | blockComment hcomment h =>
      cases hwhole
      exact ⟨_, _, rfl, hcomment, h⟩
  · rintro ⟨comment, rest, rfl, hcomment, h⟩
    exact .blockComment hcomment h

/-! ## Parts of literals and comments -/

theorem inside_plain_iff (hvalue : value ≠ quote ∧ value ≠ '\\') {rest : List Char} :
    Inside quote (value :: rest) ↔ Inside quote rest := by
  constructor
  · intro h
    cases h with
    | plain _ h => exact h
    | escape _ _ => exact absurd rfl hvalue.2
  · exact .plain hvalue

/-- Inside a literal a plain character is passed over. -/
theorem literal_plain_iff (hvalue : value ≠ quote ∧ value ≠ '\\') :
    (∃ inside rest, value :: text = inside ++ quote :: rest ∧ Inside quote inside ∧ P rest) ↔
      ∃ inside rest, text = inside ++ quote :: rest ∧ Inside quote inside ∧ P rest := by
  constructor
  · rintro ⟨inside, rest, htext, hinside, h⟩
    cases inside with
    | nil => exact absurd (List.cons.inj htext).1 hvalue.1
    | cons first inside =>
      obtain ⟨rfl, rfl⟩ := List.cons.inj htext
      exact ⟨inside, rest, rfl, (inside_plain_iff hvalue).mp hinside, h⟩
  · rintro ⟨inside, rest, rfl, hinside, h⟩
    exact ⟨value :: inside, rest, rfl, .plain hvalue hinside, h⟩

theorem literal_escape_iff (hquote : quote ≠ '\\') :
    (∃ inside rest, '\\' :: text = inside ++ quote :: rest ∧ Inside quote inside ∧ P rest) ↔
      ∃ value inside rest, text = value :: (inside ++ quote :: rest) ∧ Inside quote inside ∧
      P rest := by
  constructor
  · rintro ⟨inside, rest, htext, hinside, h⟩
    cases hinside with
    | nil => exact absurd (List.cons.inj htext).1.symm hquote
    | plain hvalue _ => exact absurd (List.cons.inj htext).1.symm hvalue.2
    | escape value hinside => exact ⟨value, _, rest, (List.cons.inj htext).2, hinside, h⟩
  · rintro ⟨value, inside, rest, rfl, hinside, h⟩
    exact ⟨'\\' :: value :: inside, rest, rfl, .escape value hinside, h⟩

/-- A quote ends the literal. -/
theorem literal_close_iff (hquote : quote ≠ '\\') :
    (∃ inside rest, quote :: text = inside ++ quote :: rest ∧ Inside quote inside ∧ P rest) ↔
    P text := by
  constructor
  · rintro ⟨inside, rest, htext, hinside, h⟩
    cases hinside with
    | nil =>
      obtain rfl := (List.cons.inj htext).2
      exact h
    | plain hvalue _ => exact absurd (List.cons.inj htext).1.symm hvalue.1
    | escape _ _ => exact absurd (List.cons.inj htext).1 hquote
  · exact fun h => ⟨[], text, rfl, .nil, h⟩

theorem lineComment_cons_iff (hvalue : value ≠ '\n') :
    (∃ comment rest, value :: text = comment ++ '\n' :: rest ∧ '\n' ∉ comment ∧ P rest) ↔
      ∃ comment rest, text = comment ++ '\n' :: rest ∧ '\n' ∉ comment ∧ P rest := by
  constructor
  · rintro ⟨comment, rest, htext, hcomment, h⟩
    cases comment with
    | nil => exact absurd (List.cons.inj htext).1 hvalue
    | cons first comment =>
      obtain ⟨rfl, rfl⟩ := List.cons.inj htext
      exact ⟨comment, rest, rfl, fun hmem => hcomment (List.mem_cons_of_mem _ hmem), h⟩
  · rintro ⟨comment, rest, rfl, hcomment, h⟩
    refine ⟨value :: comment, rest, rfl, ?_, h⟩
    rw [List.mem_cons, not_or]
    exact ⟨hvalue.symm, hcomment⟩

theorem lineComment_close_iff :
    (∃ comment rest, '\n' :: text = comment ++ '\n' :: rest ∧ '\n' ∉ comment ∧ P rest) ↔
    P text := by
  constructor
  · rintro ⟨comment, rest, htext, hcomment, h⟩
    cases comment with
    | nil =>
      obtain rfl := (List.cons.inj htext).2
      exact h
    | cons first comment =>
      obtain ⟨rfl, _⟩ := List.cons.inj htext
      exact absurd List.mem_cons_self hcomment
  · exact fun h => ⟨[], text, rfl, List.not_mem_nil, h⟩

theorem infix_end_cons {comment : List Char} (h : ¬ (value = '*' ∧ comment.head? = some '/')) :
    ['*', '/'] <:+: value :: comment ↔ ['*', '/'] <:+: comment := by
  rw [List.infix_cons_iff]
  refine or_iff_right ?_
  rintro ⟨rest, hrest⟩
  obtain ⟨hvalue, hcomment⟩ := List.cons.inj hrest
  refine h ⟨hvalue.symm, ?_⟩
  rw [← hcomment]
  rfl

theorem blockComment_cons_iff (hvalue : ¬ (value = '*' ∧ text.head? = some '/')) :
    (∃ comment rest, value :: text = comment ++ '*' :: '/' :: rest ∧ ¬ ['*', '/'] <:+: comment ∧
      P rest) ↔
      ∃ comment rest, text = comment ++ '*' :: '/' :: rest ∧ ¬ ['*', '/'] <:+: comment ∧
      P rest := by
  have hhead (comment rest : List Char) (hcomment : comment.head? = some '/') :
      (comment ++ '*' :: '/' :: rest).head? = some '/' := by
    rw [List.head?_append, hcomment]
    rfl
  constructor
  · rintro ⟨comment, rest, htext, hcomment, h⟩
    cases comment with
    | nil =>
      obtain ⟨rfl, rfl⟩ := List.cons.inj htext
      exact absurd ⟨rfl, rfl⟩ hvalue
    | cons first comment =>
      obtain ⟨rfl, rfl⟩ := List.cons.inj htext
      exact ⟨comment, rest, rfl, fun hinfix => hcomment (List.infix_cons hinfix), h⟩
  · rintro ⟨comment, rest, rfl, hcomment, h⟩
    refine ⟨value :: comment, rest, rfl, ?_, h⟩
    rw [infix_end_cons fun hstar => hvalue ⟨hstar.1, hhead comment rest hstar.2⟩]
    exact hcomment

theorem blockComment_close_iff :
    (∃ comment rest, '*' :: '/' :: text = comment ++ '*' :: '/' :: rest ∧
      ¬ ['*', '/'] <:+: comment ∧ P rest) ↔
      P text := by
  constructor
  · rintro ⟨comment, rest, htext, hcomment, h⟩
    match comment with
    | [] =>
      obtain rfl := (List.cons.inj (List.cons.inj htext).2).2
      exact h
    | [first] => exact absurd (List.cons.inj (List.cons.inj htext).2).1 (by decide)
    | first :: second :: comment =>
      obtain ⟨rfl, hmore⟩ := List.cons.inj htext
      obtain ⟨rfl, _⟩ := List.cons.inj hmore
      exact absurd ⟨[], comment, rfl⟩ hcomment
  · intro h
    refine ⟨[], text, rfl, ?_, h⟩
    rw [List.infix_nil]
    exact List.cons_ne_nil _ _

end Cwhip.Lib.CText
