/-
  Cwhip.Parser.LexerRuns

  The lexer ends on every source, with tokens or a diagnostic, and each token
  carries the place of its first character.
-/

import Cwhip.Lib.Except
import Cwhip.Parser.Lexer

namespace Cwhip.Parser

open Cwhip.Lib (Stop bind_eq_ok)
open Cwhip.CodeGen (isIdentifier isIdentifierStart isIdentifierPart isIdentifierStart_not_digit)

/-! ## Bytes -/

theorem toNat_ofNat_byte (byte : UInt8) : (Char.ofNat byte.toNat).toNat = byte.toNat := by
  have hvalid : byte.toNat.isValidChar := by
    have hbyte := byte.toNat_lt
    exact .inl (by omega)
  rw [Char.ofNat, dif_pos hvalid]
  rfl

/-! ## Places -/

theorem SourceLocation.over_append (location : SourceLocation) (text text' : Text) :
    location.over (text ++ text') = (location.over text).over text' := List.foldl_append

namespace LexerState

@[simp] theorem advance_rest (s : LexerState) (count : Nat) : (s.advance count).rest =
    s.rest.drop count := rfl

/-- The text is between two states. -/
def Behind (s s' : LexerState) (taken : Text) : Prop :=
  s.rest = taken ++ s'.rest ∧ s'.location = s.location.over taken

theorem behind_refl (s : LexerState) : s.Behind s [] := ⟨rfl, rfl⟩

/-- Scanning goes on where it stopped. -/
theorem Behind.trans {s s' s'' : LexerState} {taken taken' : Text} (h : s.Behind s' taken)
    (h' : s'.Behind s'' taken') : s.Behind s'' (taken ++ taken') := by
  refine ⟨?_, ?_⟩
  · rw [h.1, h'.1, List.append_assoc]
  · rw [h'.2, h.2, SourceLocation.over_append]

theorem behind_advance (s : LexerState) (count : Nat) : s.Behind (s.advance count)
    (s.rest.take count) :=
  ⟨(List.take_append_drop count s.rest).symm, rfl⟩

end LexerState

/-- The source goes on with a token of this kind. -/
def Begins (token : Token) (after : Text) : Prop :=
  match token.type with
  | .endOfFile => after = []
  | .newline => after.head? = some '\n'
  | .string => after.head? = some '"' ∨ after.head? = some '\''
  | .inlineBody => ∃ rest, after = '\x7b' :: (token.text ++ '\x7d' :: rest)
  | .identifier =>
    token.text <+: after ∧ isIdentifier token.text = true ∧ wordType token.text = .identifier
  | _ => token.text <+: after

/-- The token begins somewhere in a source, and its location says where. -/
def TokenAt (source : Text) (start : SourceLocation) (token : Token) : Prop :=
  ∃ before after, source = before ++ after ∧ token.location = start.over before ∧ Begins token after

variable {token : Token} {s s' : LexerState} {α : Type} {depth : Nat} {text : Text} {value : Char}

variable {source taken : Text} {start : SourceLocation} {post : α → Prop} {run : Lexed α}
  {fuel length : Nat} {type : TokenType} {mode : InlineMode} {quote : Char}

theorem TokenAt.here (hlocation : token.location = start)
    (h : Begins token source) : TokenAt source start token :=
  ⟨[], source, rfl, hlocation, h⟩

/-- A token found further on lies in the text still there before. -/
theorem TokenAt.behind (h : TokenAt s'.rest s'.location token)
    (hbehind : s.Behind s' taken) : TokenAt s.rest s.location token := by
  obtain ⟨before, after, hsource, hlocation, hbegins⟩ := h
  refine ⟨taken ++ before, after, ?_, ?_, hbegins⟩
  · rw [hbehind.1, hsource, List.append_assoc]
  · rw [hlocation, hbehind.2, SourceLocation.over_append]

/-! ## Outcomes -/

/-- A result as it should be, or a diagnostic. -/
def Lexes {α : Type} (post : α → Prop) : Lexed α → Prop
  | .ok a => post a
  | .error (.diagnostic _) => True
  | .error _ => False

theorem Lexes.mono {post' : α → Prop} (h : Lexes post run)
    (hpost : ∀ a, post a → post' a) : Lexes post' run := by
  cases run with
  | ok a => exact hpost a h
  | error stop =>
    cases stop with
    | diagnostic error => trivial
    | pastEnd | endless => exact h.elim

/-- Outcomes compose: an error of the first step is the error of both. -/
theorem Lexes.bind {β : Type} {post' : β → Prop} {f : α → Lexed β} (h : Lexes post run)
    (hf : ∀ a, post a → Lexes post' (f a)) : Lexes post' (run >>= f) := by
  cases run with
  | ok a => exact hf a h
  | error stop =>
    cases stop with
    | diagnostic error => trivial
    | pastEnd | endless => exact h.elim

theorem lexes_lexError (location : SourceLocation) (message : String) :
    Lexes post (lexError location message : Lexed α) := trivial

/-! ## Trivia -/

/-- What skipping trivia does: newlines of comments become tokens. -/
def SkipsTrivia (s : LexerState) (result : List Token × LexerState) : Prop :=
  (∃ taken, s.Behind result.2 taken) ∧ result.2.inlineHeader = s.inlineHeader ∧
    ∀ token ∈ result.1, token.type = .newline ∧ TokenAt s.rest s.location token

theorem SkipsTrivia.behind {result : List Token × LexerState} (h : SkipsTrivia s' result)
    (hbehind : s.Behind s' taken) (hheader : s'.inlineHeader = s.inlineHeader) :
    SkipsTrivia s result := by
  obtain ⟨⟨taken', hrest⟩, hheader', htokens⟩ := h
  refine ⟨⟨taken ++ taken', hbehind.trans hrest⟩, hheader'.trans hheader, fun token hmem => ?_⟩
  exact ⟨(htokens token hmem).1, (htokens token hmem).2.behind hbehind⟩

/-- A block comment gives back the newlines inside it. -/
theorem blockComment_behind {location : SourceLocation} {newlines : List Token} {rest : Text}
    {location' : SourceLocation} (header : Bool)
    (h : blockComment depth text location = some (newlines, rest, location')) :
    SkipsTrivia ⟨text, location, header⟩ (newlines, ⟨rest, location', header⟩) ∧
    rest.length < text.length := by
  induction text generalizing location newlines with
  | nil => cases h
  | cons value more ih =>
    rw [blockComment] at h
    split at h
    · rename_i hclose
      obtain ⟨rfl, hslash⟩ := hclose
      cases more with
      | nil => cases hslash
      | cons next more =>
        obtain rfl := Option.some.inj hslash
        cases h
        refine ⟨⟨⟨['*', '/'], rfl, rfl⟩, rfl, fun _ hmem => absurd hmem List.not_mem_nil⟩, ?_⟩
        simp only [List.tail_cons, List.length_cons]
        omega
    · obtain ⟨⟨newlines', rest', location''⟩, hmore, heq⟩ := Option.map_eq_some_iff.mp h
      cases heq
      obtain ⟨hskips, hlength⟩ := ih hmore
      have hstep : LexerState.Behind ⟨value :: more, location, header⟩
          ⟨more, location.after value, header⟩ [value] := ⟨rfl, rfl⟩
      obtain ⟨htaken, hheader, htokens⟩ := hskips.behind hstep rfl
      refine ⟨⟨htaken, hheader, ?_⟩, Nat.lt_succ_of_lt hlength⟩
      intro token hmem
      rcases List.mem_append.mp hmem with hhere | hlater
      · split at hhere
        · rename_i hnewline
          obtain rfl := List.mem_singleton.mp hhere
          refine ⟨rfl, .here rfl ?_⟩
          show (value :: more).head? = some '\n'
          rw [hnewline.1]
          rfl
        · exact absurd hhere List.not_mem_nil
      · exact htokens token hlater

theorem skipWhile_behind (s : LexerState) (kind : Char → Bool) :
    s.Behind (s.skipWhile kind) (s.scanned kind) ∧ (s.skipWhile kind).rest.length ≤
    s.rest.length := by
  have hbehind := s.behind_advance (s.scanned kind).length
  have hfront : s.rest.take (s.scanned kind).length = s.scanned kind :=
    (List.prefix_iff_eq_take.mp (List.takeWhile_prefix kind)).symm
  rw [hfront] at hbehind
  refine ⟨hbehind, ?_⟩
  show (s.rest.drop (s.scanned kind).length).length ≤ s.rest.length
  rw [List.length_drop]
  omega

theorem skipWhile_lt (kind : Char → Bool) (h : s.peek 0 = value) (hrest : s.rest ≠ [])
    (hkind : kind value = true) : (s.skipWhile kind).rest.length < s.rest.length := by
  obtain ⟨rest, location, header⟩ := s
  cases rest with
  | nil => exact absurd rfl hrest
  | cons first rest =>
    obtain rfl : first = value := h
    show ((first :: rest).drop ((first :: rest).takeWhile kind).length).length < _
    rw [List.takeWhile_cons, if_pos hkind, List.length_cons, List.drop_succ_cons, List.length_drop,
      List.length_cons]
    omega

theorem rest_ne_nil_of_peek (h : s.peek 0 ≠ '\x00') : s.rest ≠ [] := by
  intro hnil
  rw [LexerState.peek, hnil] at h
  exact h rfl

/-- Skipping trivia only moves ahead, and fuel for each character is enough. -/
theorem skipTriviaFrom_lexes (hfuel : s.rest.length < fuel) :
    Lexes (SkipsTrivia s) (skipTriviaFrom depth fuel s) := by
  induction fuel generalizing s with
  | zero => exact absurd hfuel (Nat.not_lt_zero _)
  | succ fuel ih =>
    rw [skipTriviaFrom]
    obtain ⟨hspaces, hle⟩ := skipWhile_behind s fun value => value ≠ '\n' ∧ isSpace value = true
    have hheader : (s.skipWhile fun value => value ≠ '\n' ∧ isSpace value = true).inlineHeader =
      s.inlineHeader := rfl
    generalize s.skipWhile (fun value => value ≠ '\n' ∧ isSpace value = true) = s'
      at hspaces hle hheader
    show Lexes _ (if s'.peek 0 = ';' ∨ s'.peek 0 = '#' ∨ (s'.peek 0 = '/' ∧ s'.peek 1 = '/') then _
      else _)
    split
    · rename_i hcomment
      have hchar : s'.peek 0 ≠ '\x00' ∧ s'.peek 0 ≠ '\n' := by
        rcases hcomment with h | h | h
        · exact h ▸ by decide
        · exact h ▸ by decide
        · exact h.1 ▸ by decide
      have hless := skipWhile_lt (fun value => value ≠ '\n') rfl (rest_ne_nil_of_peek hchar.1)
        (decide_eq_true hchar.2)
      obtain ⟨hline, _⟩ := skipWhile_behind s' fun value => value ≠ '\n'
      refine (ih (by omega)).mono fun result hresult => ?_
      exact (hresult.behind hline rfl).behind hspaces hheader
    · split
      · rename_i hopen
        have hopening : s'.Behind (s'.advance 2) (s'.rest.take 2) := s'.behind_advance 2
        have hlength : (s'.advance 2).rest.length ≤ s'.rest.length := by
          rw [LexerState.advance_rest, List.length_drop]
          omega
        dsimp only
        split
        · exact lexes_lexError _ _
        · rename_i newlines rest location hclosed
          obtain ⟨hcomment, hless⟩ := blockComment_behind s'.inlineHeader hclosed
          refine (ih (by show rest.length < fuel; omega)).bind fun result hresult => ?_
          obtain ⟨⟨taken, hbehind⟩, hkept, htokens⟩ := hcomment
          have hrest := hresult.behind hbehind rfl
          refine SkipsTrivia.behind (SkipsTrivia.behind ⟨hrest.1, hrest.2.1, ?_⟩ hopening rfl)
            hspaces hheader
          intro token hmem
          exact (List.mem_append.mp hmem).elim (htokens token) (hrest.2.2 token)
      · exact SkipsTrivia.behind
          ⟨⟨[], s'.behind_refl⟩, rfl, fun _ hmem => absurd hmem List.not_mem_nil⟩ hspaces hheader

theorem skipTrivia_lexes (depth : Nat) (s : LexerState) : Lexes (SkipsTrivia s)
    (skipTrivia depth s) :=
  skipTriviaFrom_lexes (Nat.lt_succ_self _)

theorem peek_of_head (h : s.rest.head? = some value) : s.peek 0 = value := by
  rw [LexerState.peek, List.getD_eq_getElem?_getD, ← List.head?_eq_getElem?, h]
  rfl

theorem skipTrivia_none (h : s.rest.head? = some value) (hspace : isSpace value = false)
    (hcomment : value ≠ ';' ∧ value ≠ '#' ∧ value ≠ '/') :
    skipTrivia depth s = .ok ([], s) := by
  have hnone : s.scanned (fun value => value ≠ '\n' ∧ isSpace value = true) = [] := by
    obtain ⟨rest, location, header⟩ := s
    cases rest with
    | nil => cases h
    | cons first rest =>
      obtain rfl := Option.some.inj h
      have hkind : decide (first ≠ '\n' ∧ isSpace first = true) = false := by simp [hspace]
      show (first :: rest).takeWhile _ = []
      rw [List.takeWhile_cons, hkind]
      rfl
  have hskip : s.skipWhile (fun value => value ≠ '\n' ∧ isSpace value = true) = s := by
    rw [LexerState.skipWhile, hnone]
    rfl
  obtain ⟨hsemicolon, hhash, hslash⟩ := hcomment
  rw [skipTrivia, skipTriviaFrom, hskip]
  dsimp only
  rw [peek_of_head h, if_neg (by simp [hsemicolon, hhash, hslash]), if_neg (by simp [hslash])]

/-! ## Tokens -/

/-- A token was read: it is where the state was, and some characters were taken. -/
def ReadsToken (s : LexerState) (result : Token × LexerState) : Prop :=
  (∃ taken, taken ≠ [] ∧ s.Behind result.2 taken) ∧ result.1.location = s.location ∧
    Begins result.1 s.rest

theorem readsToken_advance (hrest : s.rest ≠ []) (hlength : 0 < length)
    (hs' : s.Behind s' (s.rest.take length)) (hlocation : token.location = s.location)
    (hbegins : Begins token s.rest) : ReadsToken s (token, s') := by
  refine ⟨⟨s.rest.take length, ?_, hs'⟩, hlocation, hbegins⟩
  rw [ne_eq, List.take_eq_nil_iff]
  rintro (hzero | hnil)
  · omega
  · exact hrest hnil

/-- Types of tokens that are written as their text. -/
def TokenType.Literal (type : TokenType) : Prop :=
  type ≠ .endOfFile ∧ type ≠ .newline ∧ type ≠ .string ∧ type ≠ .inlineBody ∧ type ≠ .identifier

instance (type : TokenType) : Decidable type.Literal := inferInstanceAs (Decidable (_ ∧ _))

theorem begins_of_text {after : Text} (h : token.text <+: after) (htype : token.type.Literal) :
    Begins token after := by
  obtain ⟨hend, hnewline, hstring, hbody, hidentifier⟩ := htype
  unfold Begins
  split
  · exact absurd ‹_› hend
  · exact absurd ‹_› hnewline
  · exact absurd ‹_› hstring
  · exact absurd ‹_› hbody
  · exact absurd ‹_› hidentifier
  · exact h

theorem keywords_literal : ∀ entry ∈ keywords, entry.2.Literal := by decide

theorem wordType_literal (text : Text) : wordType text = .identifier ∨ (wordType text).Literal := by
  rw [wordType]
  split
  · exact .inl rfl
  · cases hlookup : keywords.lookup (text.map lowerAscii) with
    | none => exact .inl rfl
    | some type =>
      obtain ⟨before, after, hentry, _⟩ := List.lookup_eq_some_iff.mp hlookup
      have hmem : (text.map lowerAscii, type) ∈ keywords := by
        rw [hentry]
        exact List.mem_append_right _ List.mem_cons_self
      exact .inr (keywords_literal _ hmem)

theorem isIdentifier_takeWhile {first : Char} (rest : Text)
    (hstart : isIdentifierStart first = true) :
    (first :: rest).takeWhile isIdentifierPart = first :: rest.takeWhile isIdentifierPart ∧
      isIdentifier ((first :: rest).takeWhile isIdentifierPart) = true := by
  have hpart : isIdentifierPart first = true := by
    rw [isIdentifierPart, hstart]
    rfl
  have hword : (first :: rest).takeWhile isIdentifierPart = first ::
      rest.takeWhile isIdentifierPart := by
    rw [List.takeWhile_cons, if_pos hpart]
  refine ⟨hword, ?_⟩
  rw [hword, isIdentifier, hstart, Bool.true_and]
  exact List.all_takeWhile

/-- A word is read to its end, as a keyword where the table has it. -/
theorem scanWord_reads (hvalue : s.rest.head? = some value)
    (hstart : isIdentifierStart value = true) : ReadsToken s (scanWord s) := by
  obtain ⟨rest, location, header⟩ := s
  cases rest with
  | nil => cases hvalue
  | cons first rest =>
    obtain rfl := Option.some.inj hvalue
    obtain ⟨hword, hidentifier⟩ := isIdentifier_takeWhile rest hstart
    have hfront : (first :: rest).takeWhile isIdentifierPart <+: first :: rest :=
      List.takeWhile_prefix _
    refine @readsToken_advance _ _ _ ((first :: rest).takeWhile isIdentifierPart).length
      (List.cons_ne_nil _ _) ?_ ⟨?_, rfl⟩ rfl ?_
    · rw [hword]
      exact Nat.succ_pos _
    · exact (List.take_append_drop _ _).symm
    · rcases wordType_literal ((first :: rest).takeWhile isIdentifierPart) with htype | htype
      · show Begins ⟨wordType ((first :: rest).takeWhile isIdentifierPart), _, _, _⟩ _
        rw [htype]
        exact ⟨hfront, hidentifier, htype⟩
      · exact begins_of_text hfront htype

theorem readsToken_take (hrest : s.rest ≠ []) (hlength : 0 < length) (htype : type.Literal) :
    ReadsToken s (⟨type, s.rest.take length, s.location, false⟩, s.advance length) :=
  readsToken_advance hrest hlength (s.behind_advance _) rfl
    (begins_of_text (List.take_prefix _ _) htype)

theorem scanHexadecimal_reads (hrest : s.rest ≠ []) : Lexes (ReadsToken s) (scanHexadecimal s) := by
  rw [scanHexadecimal]
  dsimp only
  split
  · exact lexes_lexError _ _
  · split
    -- with the suffix and without it
    · split
      · exact lexes_lexError _ _
      · exact readsToken_take hrest (Nat.succ_pos _) (by decide)
    · split
      · exact lexes_lexError _ _
      · exact readsToken_take hrest (by omega) (by decide)

theorem scanMantissa_pos
    (h : s.peek 0 = '.' ∨ isDigit (s.peek 0) = true) : 0 < (scanMantissa s).1 := by
  rw [scanMantissa]
  split
  · exact Nat.lt_add_right _ Nat.one_pos
  · rename_i hdot
    have hdigit := h.resolve_left hdot
    show 0 < (if _ then _ else _ : Nat × Bool).1
    split
    · exact Nat.lt_of_lt_of_le (Nat.succ_pos _) (Nat.le_add_right _ _)
    · obtain ⟨rest, location, header⟩ := s
      cases rest with
      | nil => exact absurd (show isDigit '\x00' = true from hdigit) (by decide)
      | cons first rest =>
        have hfirst : isDigit first = true := hdigit
        show 0 < ((first :: rest).takeWhile isDigit).length
        rw [List.takeWhile_cons, if_pos hfirst]
        exact Nat.succ_pos _

theorem scanExponent_lexes (location : SourceLocation) (s : LexerState) :
    Lexes (fun _ => True) (scanExponent location s) := by
  rw [scanExponent]
  dsimp only
  split
  · generalize (if s.peek 1 = '+' ∨ s.peek 1 = '-' then 2 else 1) = sign
    split
    · exact lexes_lexError _ _
    · trivial
  · trivial

/-- A decimal literal takes at least one character. -/
theorem scanDecimal_reads (hrest : s.rest ≠ [])
    (h : s.peek 0 = '.' ∨ isDigit (s.peek 0) = true) : Lexes (ReadsToken s) (scanDecimal s) := by
  have hpos := scanMantissa_pos h
  refine (scanExponent_lexes _ _).bind fun exponent _ => ?_
  show Lexes _ (if _ then _ else _)
  split
  · exact readsToken_take hrest (Nat.succ_pos _) (by decide)
  · refine readsToken_take hrest (Nat.lt_add_right _ hpos) ?_
    split
    · decide
    · decide

/-- Either kind of word starts where the scanner stands. -/
theorem scanIdentifierOrInteger_reads (hvalue : s.rest.head? = some value)
    (h : isIdentifierStart value = true ∨ isDigit value = true ∨ value = '.') :
    Lexes (ReadsToken s) (scanIdentifierOrInteger s) := by
  have hrest : s.rest ≠ [] := by
    intro hnil
    rw [hnil] at hvalue
    cases hvalue
  have hpeek := peek_of_head hvalue
  rw [scanIdentifierOrInteger]
  split
  · rename_i hnumber
    split
    · exact scanHexadecimal_reads hrest
    · exact scanDecimal_reads hrest hnumber
  · rename_i hword
    rw [hpeek, not_or] at hword
    have hstart : isIdentifierStart value = true :=
      (h.resolve_right fun h => h.elim hword.2 hword.1)
    exact scanWord_reads hvalue hstart

theorem isIdentifierStart_ne {other : Char} (h : isIdentifierStart value = true)
    (hother : isIdentifierStart other = false) : value ≠ other := by
  rintro rfl
  rw [hother] at h
  cases h

theorem scanToken_word (hvalue : s.rest.head? = some value)
    (hstart : isIdentifierStart value = true) :
    scanToken depth s = .ok ([(scanWord s).1], (scanWord s).2) := by
  have hpeek := peek_of_head hvalue
  have hdigit : isDigit value = false := isIdentifierStart_not_digit hstart
  have hword : scanIdentifierOrInteger s = .ok (scanWord s) := by
    rw [scanIdentifierOrInteger, hpeek, if_neg]
    rw [hdigit]
    exact not_or.mpr ⟨isIdentifierStart_ne hstart (by decide), Bool.false_ne_true⟩
  unfold scanToken
  dsimp only
  rw [hpeek, if_neg (fun h => isIdentifierStart_ne hstart (by decide) h.2),
    if_neg (isIdentifierStart_ne hstart (by decide)), if_pos (.inl hstart), hword]
  rfl

theorem skipTrivia_word (hvalue : s.rest.head? = some value)
    (hstart : isIdentifierStart value = true) : skipTrivia depth s = .ok ([], s) := by
  refine skipTrivia_none hvalue ?_ ⟨?_, ?_, ?_⟩
  · rw [isSpace, decide_eq_false_iff_not]
    rintro (h | h | h | h | h | h)
    all_goals exact isIdentifierStart_ne hstart (by decide) h
  all_goals exact isIdentifierStart_ne hstart (by decide)

/-! ## Inline bodies and strings -/

theorem depthAfter_eq_zero (hdepth : 0 < depth)
    (h : mode.depthAfter value depth = 0) : mode = .code ∧ value = '\x7d' ∧ depth = 1 := by
  rw [InlineMode.depthAfter] at h
  split at h
  · exact absurd h (Nat.succ_ne_zero _)
  · split at h
    · rename_i hclose
      exact ⟨hclose.1, hclose.2, by omega⟩
    · omega

/-- An inline body ends at the brace that closes it. -/
theorem inlineBody_split {body : Text} (hdepth : 0 < depth)
    (h : inlineBody mode depth text = .ok body) : ∃ rest, text = body ++ '\x7d' :: rest := by
  induction text generalizing mode depth body with
  | nil => cases h
  | cons value rest ih =>
    rw [inlineBody] at h
    split at h
    · rename_i hzero
      cases h
      obtain ⟨_, rfl, _⟩ := depthAfter_eq_zero hdepth hzero
      exact ⟨rest, rfl⟩
    · rename_i hpos
      obtain ⟨more, hmore, heq⟩ := bind_eq_ok.mp h
      cases heq
      obtain ⟨rest', rfl⟩ := ih (Nat.pos_of_ne_zero hpos) hmore
      exact ⟨rest', rfl⟩

theorem scanInlineBody_reads (hbrace : s.rest.head? = some '\x7b') :
    Lexes (ReadsToken s) (scanInlineBody s) := by
  obtain ⟨source, location, header⟩ := s
  cases source with
  | nil => cases hbrace
  | cons first source =>
    obtain rfl := Option.some.inj hbrace
    rw [scanInlineBody]
    split
    · rename_i body hbody
      obtain ⟨rest, hrest⟩ := inlineBody_split Nat.one_pos hbody
      have hsource : source = body ++ '\x7d' :: rest := hrest
      refine readsToken_advance (List.cons_ne_nil _ _) (Nat.succ_pos (body.length + 1)) ⟨?_,
        rfl⟩ rfl ⟨rest, ?_⟩
      · exact (List.take_append_drop _ _).symm
      · rw [hsource]
    · exact lexes_lexError _ _

theorem escapedCharacter_lexes (escaped : Char) (location : SourceLocation) :
    Lexes (fun _ => True) (escapedCharacter escaped location) := by
  rw [escapedCharacter]
  split
  · trivial
  · exact lexes_lexError _ _

/-- A string literal ends inside the text. -/
theorem stringValue_lexes (text : Text) (location : SourceLocation) :
    Lexes (fun result => result.2 < text.length) (stringValue quote start text location) := by
  match text with
  | [] => exact lexes_lexError _ _
  | value :: rest =>
    rw [stringValue.eq_def]
    dsimp only
    split
    · exact Nat.succ_pos _
    split
    · exact lexes_lexError _ _
    split
    · match rest with
      | [] => exact lexes_lexError _ _
      | escaped :: rest =>
        refine (escapedCharacter_lexes _ _).bind fun meant _ => ?_
        refine (stringValue_lexes rest _).bind fun result hresult => ?_
        exact Nat.add_lt_add_right hresult 2
    · refine (stringValue_lexes rest _).bind fun result hresult => ?_
      exact Nat.succ_lt_succ hresult

theorem scanString_reads (hquote : s.rest.head? = some quote)
    (h : quote = '"' ∨ quote = '\'') : Lexes (ReadsToken s) (scanString quote s) := by
  have hrest : s.rest ≠ [] := by
    intro hnil
    rw [hnil] at hquote
    cases hquote
  refine (stringValue_lexes _ _).bind fun result _ => ?_
  dsimp only
  split
  · exact lexes_lexError _ _
  · refine readsToken_advance hrest (Nat.succ_pos _) (s.behind_advance _) rfl ?_
    show s.rest.head? = some '"' ∨ s.rest.head? = some '\''
    rw [hquote]
    exact h.imp (congrArg some) (congrArg some)

/-! ## Punctuation -/

theorem punctuation_text {next : Char} (h : punctuation value next = some (type, text)) :
    type.Literal ∧ (text = [value] ∨ (text = [value, next] ∧ next ≠ '\x00')) := by
  have hequal : ∀ double single : TokenType, double.Literal → single.Literal →
      (if next = '=' then some (double, [value, '=']) else some (single, [value])) =
        some (type, text) →
      type.Literal ∧ (text = [value] ∨ (text = [value, next] ∧ next ≠ '\x00')) := by
    intro double single hdouble hsingle heq
    split at heq
    · rename_i hnext
      cases heq
      exact ⟨hdouble, .inr ⟨hnext ▸ rfl, hnext ▸ by decide⟩⟩
    · cases heq
      exact ⟨hsingle, .inl rfl⟩
  have htwice : ∀ double : TokenType, double.Literal → value ≠ '\x00' →
      (if next = value then some (double, [value, value]) else none) = some (type, text) →
      type.Literal ∧ (text = [value] ∨ (text = [value, next] ∧ next ≠ '\x00')) := by
    intro double hdouble hvalue heq
    split at heq
    · rename_i hnext
      cases heq
      exact ⟨hdouble, .inr ⟨hnext ▸ rfl, hnext ▸ hvalue⟩⟩
    · cases heq
  unfold punctuation at h
  dsimp only at h
  split at h
  case h_10 | h_11 | h_12 | h_13 | h_14 | h_17 | h_18 | h_19 | h_20 =>
    exact hequal _ _ (by decide) (by decide) h
  case h_15 | h_16 => exact htwice _ (by decide) (by decide) h
  case h_21 => cases h
  all_goals
    cases h
    exact ⟨by decide, .inl rfl⟩

/-- Punctuation is one character or two. -/
theorem scanPunctuation_reads (hrest : s.rest ≠ []) : Lexes (ReadsToken s) (scanPunctuation s) := by
  obtain ⟨source, location, header⟩ := s
  cases source with
  | nil => exact absurd rfl hrest
  | cons value rest =>
    rw [scanPunctuation]
    split
    · rename_i type text hpunctuation
      obtain ⟨htype, htext⟩ := punctuation_text hpunctuation
      have hfront : text <+: value :: rest ∧ 0 < text.length := by
        rcases htext with rfl | ⟨rfl, hnul⟩
        · exact ⟨⟨rest, rfl⟩, Nat.one_pos⟩
        · cases rest with
          | nil => exact absurd rfl hnul
          | cons next rest => exact ⟨⟨rest, rfl⟩, Nat.two_pos⟩
      exact readsToken_advance hrest hfront.2 (LexerState.behind_advance _ _) rfl
        (begins_of_text hfront.1 htype)
    · exact lexes_lexError _ _

/-! ## Runs -/

theorem tokenize_single {fileName : Text} (hsource : source ≠ [])
    (htrivia : skipTrivia 0 ⟨source, ⟨fileName, 1, 1⟩, false⟩ = .ok ([],
    ⟨source, ⟨fileName, 1, 1⟩, false⟩))
    (htoken : scanToken 0 ⟨source, ⟨fileName, 1, 1⟩, false⟩ = .ok ([token], s))
    (hrest : s.rest = []) :
    tokenize source fileName = .ok [token, endToken s.location] := by
  have hend (depth : Nat) : tokenizeFrom source.length depth s = .ok [endToken s.location] := by
    obtain ⟨n, hn⟩ := Nat.exists_eq_succ_of_ne_zero (mt List.length_eq_zero_iff.mp hsource)
    rw [hn, tokenizeFrom, if_pos hrest]
  rw [tokenize, tokenizeFrom, if_neg hsource, htrivia]
  show (if source = [] then _ else _) = _
  rw [if_neg hsource, htoken]
  show (tokenizeFrom _ _ s >>= fun more => pure ([] ++ [token] ++ more)) = _
  rw [hend]
  rfl

/-- Tokens were read, and some characters were taken. -/
def ReadsTokens (s : LexerState) (result : List Token × LexerState) : Prop :=
  (∃ taken, taken ≠ [] ∧ s.Behind result.2 taken) ∧ ∀ token ∈ result.1,
    TokenAt s.rest s.location token

theorem ReadsToken.tokens {result : Token × LexerState} (h : ReadsToken s result) :
    ReadsTokens s ([result.1], result.2) := by
  refine ⟨h.1, fun token hmem => ?_⟩
  obtain rfl := List.mem_singleton.mp hmem
  exact .here h.2.1 h.2.2

/-- Every token moves the scanner ahead. -/
theorem scanToken_lexes (hrest : s.rest ≠ []) :
    Lexes (ReadsTokens s) (scanToken depth s) := by
  obtain ⟨value, hvalue⟩ : ∃ value, s.rest.head? = some value :=
    Option.isSome_iff_exists.mp (List.isSome_head?.mpr hrest)
  have hpeek := peek_of_head hvalue
  have hone {run : Lexed (Token × LexerState)} (h : Lexes (ReadsToken s) run) :
      Lexes (ReadsTokens s) (run >>= fun result => pure ([result.1], result.2)) :=
    h.bind fun result hresult => hresult.tokens
  unfold scanToken
  rw [hpeek]
  dsimp only
  split
  · rename_i hinline
    exact hone (scanInlineBody_reads (hinline.2 ▸ hvalue))
  split
  · rename_i hnewline
    refine ⟨⟨s.rest.take 1, ?_, s.behind_advance 1⟩, fun token hmem => ?_⟩
    · simpa using hrest
    · split at hmem
      · obtain rfl := List.mem_singleton.mp hmem
        exact .here rfl (show s.rest.head? = some '\n' from hnewline ▸ hvalue)
      · exact absurd hmem List.not_mem_nil
  split
  · rename_i hword
    refine hone (scanIdentifierOrInteger_reads hvalue ?_)
    exact hword.imp_right (Or.imp_right And.left)
  split
  · rename_i hquote
    exact hone (scanString_reads hvalue hquote)
  · exact hone (scanPunctuation_reads hrest)

/-- The tokens of a run all lie in the text, where their locations say. -/
theorem tokenizeFrom_lexes (hfuel : s.rest.length < fuel) :
    Lexes (fun tokens => ∀ token ∈ tokens, TokenAt s.rest s.location token)
    (tokenizeFrom fuel depth s) := by
  induction fuel generalizing depth s with
  | zero => exact absurd hfuel (Nat.not_lt_zero _)
  | succ fuel ih =>
    have hend (s' : LexerState) (h : s'.rest = []) : TokenAt s'.rest s'.location
      (endToken s'.location) := .here rfl h
    rw [tokenizeFrom]
    split
    · rename_i hempty
      intro token hmem
      obtain rfl := List.mem_singleton.mp hmem
      exact hend s hempty
    · refine (skipTrivia_lexes depth s).bind ?_
      rintro ⟨newlines, s'⟩ ⟨⟨trivia, htrivia⟩, _, hnewlines⟩
      dsimp only at htrivia hnewlines ⊢
      split
      · rename_i hempty
        intro token hmem
        rcases List.mem_append.mp hmem with hnewline | hlast
        · exact (hnewlines token hnewline).2
        · obtain rfl := List.mem_singleton.mp hlast
          exact (hend s' hempty).behind htrivia
      · rename_i hrest
        refine (scanToken_lexes hrest).bind ?_
        rintro ⟨tokens, s''⟩ ⟨⟨taken, htaken, hbehind⟩, htokens⟩
        dsimp only at hbehind htokens ⊢
        have hless : s''.rest.length < fuel := by
          have hlength := congrArg List.length htrivia.1
          have hlength' := congrArg List.length hbehind.1
          have hpos := List.length_pos_iff.mpr htaken
          rw [List.length_append] at hlength hlength'
          omega
        refine (ih hless).bind fun more hmore => ?_
        intro token hmem
        rcases List.mem_append.mp hmem with hfirst | hlater
        · rcases List.mem_append.mp hfirst with hnewline | htoken
          · exact (hnewlines token hnewline).2
          · exact (htokens token htoken).behind htrivia
        · exact ((hmore token hlater).behind hbehind).behind htrivia

theorem tokenize_lexes (source fileName : Text) :
    Lexes (fun tokens => ∀ token ∈ tokens, TokenAt source ⟨fileName, 1, 1⟩ token)
    (tokenize source fileName) :=
  tokenizeFrom_lexes (Nat.lt_succ_self _)

end Cwhip.Parser
