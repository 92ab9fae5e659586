/-
  Cwhip.Parser.InlineBodies

  Where the lexer ends an inline body.  It takes the text as it stands, whereas C
  joins the lines that end in a backslash first.
-/

import Cwhip.Lib.CText
import Cwhip.Parser.LexerRuns

namespace Cwhip.Parser

open Cwhip.Lib (bind_eq_ok)
open Cwhip.Lib.CText

namespace InlineMode

/-! ## One character -/

/-- What a mode relies on: what the lookahead has seen. -/
def Expects (mode : InlineMode) (text : Text) : Prop :=
  match mode with
  | code | lineComment | blockComment => True
  | quoted quote | escaped quote => quote = '"' ∨ quote = '\''
  | blockOpening => text.head? = some '*'
  | blockClosing => text.head? = some '/'

/-- The rest of a text, and its characters outside literals and comments. -/
def Rest (mode : InlineMode) (text code : Text) : Prop :=
  match mode with
  | .code => Code text code
  | quoted quote => ∃ inside rest, text = inside ++ quote :: rest ∧ Inside quote inside ∧
      Code rest code
  | escaped quote => ∃ value inside rest, text = value :: (inside ++ quote :: rest) ∧
      Inside quote inside ∧ Code rest code
  | lineComment => ∃ comment rest, text = comment ++ '\n' :: rest ∧ '\n' ∉ comment ∧ Code rest code
  | blockOpening => ∃ comment rest, text = '*' :: (comment ++ '*' :: '/' :: rest) ∧
      ¬ ['*', '/'] <:+: comment ∧ Code rest code
  | blockComment => ∃ comment rest, text = comment ++ '*' :: '/' :: rest ∧
      ¬ ['*', '/'] <:+: comment ∧ Code rest code
  | blockClosing => ∃ rest, text = '/' :: rest ∧ Code rest code

/-- The character, if it is outside literals and comments. -/
def kept (mode : InlineMode) (value : Char) (next : Option Char) : Text :=
  if mode = .code ∧ mode.after value next = .code then [value] else []

variable {mode : InlineMode} {value : Char} {text after code : Text}

theorem expects_after (h : mode.Expects (value :: text)) :
    (mode.after value text.head?).Expects text := by
  cases mode with
  | code =>
    rw [after]
    split
    · rename_i hquote
      exact hquote
    split
    · trivial
    split
    · rename_i hblock
      exact hblock.2
    · trivial
  | quoted quote =>
    rw [after]
    split
    · exact h
    split
    · trivial
    · exact h
  | escaped quote => exact h
  | lineComment =>
    rw [after]
    split
    · trivial
    · trivial
  | blockOpening => trivial
  | blockComment =>
    rw [after]
    split
    · rename_i hclosing
      exact hclosing.2
    · trivial
  | blockClosing => trivial

theorem next_eq_some {next : Char} (hnext : next ≠ '\x7d') :
    (text ++ '\x7d' :: after).head? = some next ↔ ∃ rest, text = next :: rest := by
  cases text with
  | nil =>
    refine iff_of_false (fun h => hnext (Option.some.inj h).symm) ?_
    rintro ⟨rest, hrest⟩
    cases hrest
  | cons first rest =>
    constructor
    · intro h
      exact ⟨rest, by rw [Option.some.inj h]⟩
    · rintro ⟨rest', hrest⟩
      rw [hrest]
      rfl

theorem of_kept_nil {P : Text → Prop} {front : Text} (h : front = []) :
    (∃ code', code = front ++ code' ∧ P code') ↔ P code := by
  subst h
  constructor
  · rintro ⟨code', rfl, hcode⟩
    exact hcode
  · exact fun hcode => ⟨code, rfl, hcode⟩

theorem kept_of_ne {next : Option Char}
    (h : mode ≠ .code ∨ mode.after value next ≠ .code) : mode.kept value next = [] :=
  if_neg fun hcode => h.elim (fun h => h hcode.1) fun h => h hcode.2

theorem rest_code_cons :
    Code (value :: text) code ↔
      ∃ code', code = kept .code value (text ++ '\x7d' :: after).head? ++ code' ∧
        (InlineMode.code.after value (text ++ '\x7d' :: after).head?).Rest text code' := by
  by_cases hquote : value = '"' ∨ value = '\''
  · have hmode : InlineMode.code.after value (text ++ '\x7d' :: after).head? = .quoted value :=
      if_pos hquote
    rw [of_kept_nil (kept_of_ne (.inr (by rw [hmode]; exact fun h => nomatch h))), hmode]
    exact code_quote_iff hquote
  by_cases hline : value = '/' ∧ (text ++ '\x7d' :: after).head? = some '/'
  · have hmode : InlineMode.code.after value (text ++ '\x7d' :: after).head? = .lineComment := by
      rw [InlineMode.after, if_neg hquote, if_pos hline]
    rw [of_kept_nil (kept_of_ne (.inr (by rw [hmode]; exact fun h => nomatch h))), hmode]
    obtain ⟨rfl, hnext⟩ := hline
    obtain ⟨rest, rfl⟩ := (next_eq_some (by decide)).mp hnext
    rw [code_lineComment_iff]
    exact (lineComment_cons_iff (by decide)).symm
  by_cases hblock : value = '/' ∧ (text ++ '\x7d' :: after).head? = some '*'
  · have hmode : InlineMode.code.after value (text ++ '\x7d' :: after).head? = .blockOpening := by
      rw [InlineMode.after, if_neg hquote, if_neg hline, if_pos hblock]
    rw [of_kept_nil (kept_of_ne (.inr (by rw [hmode]; exact fun h => nomatch h))), hmode]
    obtain ⟨rfl, hnext⟩ := hblock
    obtain ⟨rest, rfl⟩ := (next_eq_some (by decide)).mp hnext
    rw [code_blockComment_iff]
    simp only [Rest, List.cons.injEq, true_and]
  · have hmode : InlineMode.code.after value (text ++ '\x7d' :: after).head? = .code := by
      rw [InlineMode.after, if_neg hquote, if_neg hline, if_neg hblock]
    have hkept : kept .code value (text ++ '\x7d' :: after).head? = [value] := if_pos ⟨rfl, hmode⟩
    have halone : Alone value text := by
      intro hslash
      refine ⟨fun hhead => hline ⟨hslash, ?_⟩, fun hhead => hblock ⟨hslash, ?_⟩⟩
      · rw [List.head?_append, hhead]
        rfl
      · rw [List.head?_append, hhead]
        rfl
    rw [hkept, hmode]
    exact code_plain_iff (not_or.mp hquote) halone

theorem rest_cons (hmode : mode.Expects (value :: (text ++ '\x7d' :: after))) :
    mode.Rest (value :: text) code ↔
      ∃ code', code = mode.kept value (text ++ '\x7d' :: after).head? ++ code' ∧
        (mode.after value (text ++ '\x7d' :: after).head?).Rest text code' := by
  by_cases hcode : mode = .code
  · subst hcode
    exact rest_code_cons
  rw [of_kept_nil (kept_of_ne (.inl hcode))]
  cases mode with
  | code => exact absurd rfl hcode
  | quoted quote =>
    have hquote : quote ≠ '\\' := by
      rcases hmode with rfl | rfl
      all_goals decide
    rw [InlineMode.after]
    have hnext : (text ++ '\x7d' :: after).head?.isSome = true := by simp
    by_cases hescape : value = '\\'
    · rw [if_pos ⟨hescape, hnext⟩, hescape]
      exact literal_escape_iff hquote
    · rw [if_neg fun h => hescape h.1]
      by_cases hclose : value = quote
      · rw [if_pos hclose, hclose]
        exact literal_close_iff hquote
      · rw [if_neg hclose]
        exact literal_plain_iff ⟨hclose, hescape⟩
  | escaped quote =>
    simp only [Rest, InlineMode.after, List.cons.injEq]
    constructor
    · rintro ⟨_, inside, rest, ⟨_, rfl⟩, hrest⟩
      exact ⟨inside, rest, rfl, hrest⟩
    · rintro ⟨inside, rest, rfl, hrest⟩
      exact ⟨value, inside, rest, ⟨rfl, rfl⟩, hrest⟩
  | lineComment =>
    rw [InlineMode.after]
    by_cases hclose : value = '\n'
    · rw [if_pos hclose, hclose]
      exact lineComment_close_iff
    · rw [if_neg hclose]
      exact lineComment_cons_iff hclose
  | blockOpening =>
    obtain rfl : value = '*' := Option.some.inj hmode
    simp only [Rest, InlineMode.after, List.cons.injEq, true_and]
  | blockComment =>
    rw [InlineMode.after]
    by_cases hclose : value = '*' ∧ (text ++ '\x7d' :: after).head? = some '/'
    · rw [if_pos hclose]
      obtain ⟨rfl, hnext⟩ := hclose
      obtain ⟨rest, rfl⟩ := (next_eq_some (by decide)).mp hnext
      simp only [Rest, List.cons.injEq, true_and, exists_eq_left']
      exact blockComment_close_iff
    · rw [if_neg hclose]
      refine blockComment_cons_iff fun h => hclose ⟨h.1, ?_⟩
      rw [List.head?_append, h.2]
      rfl
  | blockClosing =>
    obtain rfl : value = '/' := Option.some.inj hmode
    simp only [Rest, InlineMode.after, List.cons.injEq, true_and, exists_eq_left']

theorem rest_nil_iff : mode.Rest [] code ↔ mode = .code ∧ code = [] := by
  cases mode <;> simp [Rest, code_nil_iff]

theorem braces_kept {next : Option Char} {depth depth' : Nat}
    (h : mode.depthAfter value (depth + 1) = depth' + 1) (code : Text) :
    braces depth (mode.kept value next ++ code) = braces depth' code := by
  rw [depthAfter] at h
  by_cases hcode : mode = .code
  · subst hcode
    -- a brace in code is kept
    have hbrace (hvalue : value = '\x7b' ∨ value = '\x7d') : kept .code value next = [value] := by
      refine if_pos ⟨rfl, ?_⟩
      rcases hvalue with rfl | rfl
      all_goals rfl
    by_cases hopen : value = '\x7b'
    · rw [if_pos ⟨rfl, hopen⟩] at h
      rw [hbrace (.inl hopen), List.singleton_append, braces, if_pos hopen]
      congr 1
      omega
    rw [if_neg fun h => hopen h.2] at h
    by_cases hclose : value = '\x7d'
    · rw [if_pos ⟨rfl, hclose⟩] at h
      rw [hbrace (.inr hclose), List.singleton_append, braces, if_neg hopen, if_pos hclose,
        if_neg (by omega)]
      congr 1
      omega
    · rw [if_neg fun h => hclose h.2] at h
      obtain rfl := Nat.succ_inj.mp h
      rw [kept]
      split
      · rw [List.singleton_append, braces, if_neg hopen, if_neg hclose]
      · rfl
  · rw [if_neg fun h => hcode h.1, if_neg fun h => hcode h.1] at h
    obtain rfl := Nat.succ_inj.mp h
    rw [kept_of_ne (.inl hcode), List.nil_append]

end InlineMode

/-! ## The body -/

variable {depth : Nat} {text body : Text} {location : SourceLocation}

theorem inlineBody_eq_ok_iff {mode : InlineMode} (hmode : mode.Expects text) :
    inlineBody mode (depth + 1) text = .ok body ↔
      ∃ after code, text = body ++ '\x7d' :: after ∧ mode.Rest body code ∧
      braces depth code = some 0 := by
  induction text generalizing mode depth body with
  | nil =>
    refine iff_of_false (fun h => nomatch h) ?_
    rintro ⟨after, code, htext, _⟩
    cases body <;> cases htext
  | cons value rest ih =>
    rw [inlineBody]
    by_cases hzero : mode.depthAfter value (depth + 1) = 0
    · -- the brace that closes the body
      obtain ⟨rfl, rfl, hdepth⟩ := depthAfter_eq_zero (Nat.succ_pos depth) hzero
      obtain rfl : depth = 0 := by omega
      rw [if_pos hzero]
      constructor
      · intro h
        cases h
        exact ⟨rest, [], rfl, .nil, rfl⟩
      · rintro ⟨after, code, htext, hcode, hbraces⟩
        cases body with
        | nil => rfl
        | cons first body =>
          obtain ⟨rfl, rfl⟩ := List.cons.inj htext
          obtain ⟨code', rfl, _⟩ := (InlineMode.rest_cons hmode).mp hcode
          cases hbraces
    · -- the body goes on, inside the braces still open
      obtain ⟨depth', hdepth'⟩ := Nat.exists_eq_succ_of_ne_zero hzero
      rw [if_neg hzero, hdepth', bind_eq_ok]
      constructor
      · rintro ⟨body', hbody', heq⟩
        cases heq
        obtain ⟨after, code', rfl, hcode', hbraces⟩ :=
          (ih (InlineMode.expects_after hmode)).mp hbody'
        refine ⟨after, _, rfl, (InlineMode.rest_cons hmode).mpr ⟨code', rfl, hcode'⟩, ?_⟩
        rw [InlineMode.braces_kept hdepth', hbraces]
      · rintro ⟨after, code, htext, hcode, hbraces⟩
        cases body with
        | nil =>
          obtain ⟨rfl, rfl⟩ := InlineMode.rest_nil_iff.mp hcode
          obtain ⟨rfl, rfl⟩ := List.cons.inj htext
          obtain rfl : depth = 0 := Option.some.inj hbraces
          exact absurd rfl hzero
        | cons first body =>
          obtain ⟨rfl, rfl⟩ := List.cons.inj htext
          obtain ⟨code', rfl, hcode'⟩ := (InlineMode.rest_cons hmode).mp hcode
          rw [InlineMode.braces_kept hdepth'] at hbraces
          exact ⟨body, (ih (InlineMode.expects_after hmode)).mpr ⟨after, code', rfl, hcode',
            hbraces⟩, rfl⟩

theorem inlineBody_code_iff :
    inlineBody .code 1 text = .ok body ↔ ∃ after, text = body ++ '\x7d' :: after ∧
    Balanced body := by
  have hmode : InlineMode.code.Expects text := trivial
  rw [inlineBody_eq_ok_iff hmode]
  constructor
  · rintro ⟨after, code, htext, hcode, hbraces⟩
    exact ⟨after, htext, code, hcode, hbraces⟩
  · rintro ⟨after, htext, code, hcode, hbraces⟩
    exact ⟨after, code, htext, hcode, hbraces⟩

theorem inlineBody_error {mode : InlineMode} {missing : String}
    (h : inlineBody mode depth text = .error missing) : ∃ mode' : InlineMode, missing =
    mode'.missing := by
  induction text generalizing mode depth with
  | nil =>
    cases h
    exact ⟨mode, rfl⟩
  | cons value rest ih =>
    rw [inlineBody] at h
    split at h
    · cases h
    · cases hrest : inlineBody (mode.after value rest.head?) (mode.depthAfter value depth) rest with
      | ok body =>
        rw [hrest] at h
        cases h
      | error message =>
        rw [hrest] at h
        cases h
        exact ih hrest

theorem scanToken_inline :
    scanToken depth ⟨'\x7b' :: text, location, true⟩ =
      (scanInlineBody ⟨'\x7b' :: text, location, true⟩ >>= fun result =>
      pure ([result.1], result.2)) := by
  unfold scanToken
  exact if_pos ⟨rfl, rfl⟩

def behindBody (text body : Text) (location : SourceLocation) : LexerState :=
  ⟨text.drop (body.length + 1), location.over ('\x7b' :: (body ++ ['\x7d'])), false⟩

theorem scanToken_body (h : inlineBody .code 1 text = .ok body) :
    scanToken depth ⟨'\x7b' :: text, location, true⟩ =
      .ok ([⟨.inlineBody, body, location, false⟩], behindBody text body location) := by
  obtain ⟨after, rfl, _⟩ := inlineBody_code_iff.mp h
  have htake : ('\x7b' :: (body ++ '\x7d' :: after)).take (body.length + 2) = '\x7b' ::
      (body ++ ['\x7d']) := by
    rw [List.append_cons, List.take_succ_cons]
    exact congrArg _ (List.take_left' (by simp))
  have hbody : inlineBody .code 1 (LexerState.advance ⟨'\x7b' :: (body ++ '\x7d' :: after),
      location, true⟩ 1).rest =
      .ok body := h
  rw [scanToken_inline, scanInlineBody, hbody]
  show Except.ok ([_], LexerState.mk _ (location.over (List.take _ _)) false) = _
  rw [htake]
  rfl

theorem scanToken_missing {missing : String} (h : inlineBody .code 1 text = .error missing) :
    scanToken depth ⟨'\x7b' :: text, location, true⟩ = lexError location missing := by
  have hbody : inlineBody .code 1 (LexerState.advance ⟨'\x7b' :: text, location, true⟩ 1).rest =
    .error missing := h
  rw [scanToken_inline, scanInlineBody, hbody]
  rfl

theorem balanced_of_scanToken {s : LexerState}
    (h : scanToken depth ⟨'\x7b' :: text, location, true⟩ =
    .ok ([⟨.inlineBody, body, location, false⟩], s)) :
    inlineBody .code 1 text = .ok body := by
  cases hbody : inlineBody .code 1 text with
  | ok body' =>
    rw [scanToken_body hbody] at h
    have htexts := congrArg (fun result => result.1.map Token.text) (Except.ok.inj h)
    exact congrArg Except.ok (List.cons.inj htexts).1
  | error missing =>
    rw [scanToken_missing hbody] at h
    cases h

/-! ## Bodies of C -/

/-- An inline body is delimited as C has it: it is captured if its braces balance,
    the tokens behind it are at their places, and without a brace that closes it the
    lexer reports so; in any case it ends. -/
structure Delimits (depth : Nat) (text : Text) (location : SourceLocation) : Prop where
  captured : ∀ body after, text = body ++ '\x7d' :: after → Balanced (joinLines body) →
    ∃ s', scanToken depth ⟨'\x7b' :: text, location, true⟩ =
      .ok ([⟨.inlineBody, body, location, false⟩], s') ∧
      s'.rest = after ∧ s'.location = location.over ('\x7b' :: (body ++ ['\x7d'])) ∧
      Lexes (fun tokens => ∀ token ∈ tokens, TokenAt after s'.location token)
        (tokenizeFrom (after.length + 1) depth s')
  missing : (∀ body after, text = body ++ '\x7d' :: after → ¬ Balanced (joinLines body)) →
    ∃ mode : InlineMode, scanToken depth ⟨'\x7b' :: text, location, true⟩ =
      lexError location mode.missing
  ends : Lexes (fun _ => True)
    (tokenizeFrom (text.length + 2) depth ⟨'\x7b' :: text, location, true⟩)

/-- Inline bodies are delimited as C has them exactly if their braces balance alike
    where lines are joined and where they are not. -/
theorem inline_bodies_delimited_iff (depth : Nat) (text : Text) (location : SourceLocation) :
    Delimits depth text location ↔
      ∀ body after, text = body ++ '\x7d' :: after →
      (Balanced (joinLines body) ↔ Balanced body) := by
  constructor
  · intro h body after htext
    constructor
    · intro hjoined
      obtain ⟨s', htoken, _⟩ := h.captured body after htext hjoined
      exact (inlineBody_code_iff.mp (balanced_of_scanToken htoken)).choose_spec.2
    · intro hbalanced
      have hbody := inlineBody_code_iff.mpr ⟨after, htext, hbalanced⟩
      -- another body of C would be captured too
      by_contra hjoined
      by_cases hother : ∃ body' after', text = body' ++ '\x7d' :: after' ∧
        Balanced (joinLines body')
      · obtain ⟨body', after', htext', hjoined'⟩ := hother
        obtain ⟨s', htoken, _⟩ := h.captured body' after' htext' hjoined'
        have hbody' := balanced_of_scanToken htoken
        rw [hbody] at hbody'
        obtain rfl := Except.ok.inj hbody'
        exact hjoined hjoined'
      · obtain ⟨mode, herror⟩ := h.missing fun body' after' htext' hjoined' =>
          hother ⟨body', after', htext', hjoined'⟩
        rw [scanToken_body hbody] at herror
        cases herror
  · intro h
    refine ⟨?_, ?_, (tokenizeFrom_lexes (Nat.lt_succ_self _)).mono fun _ _ => trivial⟩
    · intro body after htext hjoined
      have hbody := inlineBody_code_iff.mpr ⟨after, htext, (h body after htext).mp hjoined⟩
      have hrest : (behindBody text body location).rest = after := by
        show text.drop (body.length + 1) = after
        rw [htext, List.append_cons]
        exact List.drop_left' (by simp)
      refine ⟨_, scanToken_body hbody, hrest, rfl, ?_⟩
      have hless : (behindBody text body location).rest.length < after.length + 1 := by
        rw [hrest]
        exact Nat.lt_succ_self _
      have htokens (depth : Nat) : Lexes _ (tokenizeFrom _ depth _) := tokenizeFrom_lexes hless
      rw [hrest] at htokens
      exact htokens depth
    · intro hnone
      cases hbody : inlineBody .code 1 text with
      | ok body =>
        obtain ⟨after, htext, hbalanced⟩ := inlineBody_code_iff.mp hbody
        exact absurd ((h body after htext).mpr hbalanced) (hnone body after htext)
      | error missing =>
        obtain ⟨mode, rfl⟩ := inlineBody_error hbody
        exact ⟨mode, scanToken_missing hbody⟩

/-- A comment that goes on behind a backslash, with a brace in its second line. -/
theorem continued_comment_cut :
    ¬ Delimits 0 ['/', '/', '\\', '\n', '\x7d', '\n', '\x7d', '\n'] ⟨[], 1, 8⟩ := by
  intro h
  have hjoined : Balanced (joinLines ['/', '/', '\\', '\n', '\x7d', '\n']) := by
    have hcomment : '\n' ∉ ['\x7d'] := by decide
    exact ⟨[], .lineComment hcomment .nil, rfl⟩
  obtain ⟨s', htoken, _⟩ := h.captured ['/', '/', '\\', '\n', '\x7d', '\n'] ['\n'] rfl hjoined
  have hbody : inlineBody .code 1 ['/', '/', '\\', '\n', '\x7d', '\n', '\x7d', '\n'] = .ok ['/',
    '/', '\\', '\n'] := rfl
  have hbody' := balanced_of_scanToken htoken
  rw [hbody] at hbody'
  exact absurd hbody' (by decide)

end Cwhip.Parser
