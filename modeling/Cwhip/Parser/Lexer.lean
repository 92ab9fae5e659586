/-
  Cwhip.Parser.Lexer

  The lexer (`Lexer.cpp`).  A character of the source is a byte.

  A loop that consumes characters of one kind is a `takeWhile`.  The scanner of
  inline bodies goes one character at a time, and its nested loops are modes.
-/

import Cwhip.Lib.Except
import Cwhip.Parser.Token
import Cwhip.Runtime.StringBytes

namespace Cwhip.Parser

open Cwhip.Lib (Stop)
open Cwhip.CodeGen (isIdentifierStart isIdentifierPart)
open Cwhip.Runtime (continuation)

/-! ## Characters -/

def bytesOf (text : Text) : Bytes := text.map Char.toUInt8

def textOf (bytes : Bytes) : Text := bytes.map fun byte => Char.ofNat byte.toNat

def lowerAscii (value : Char) : Char :=
  if 'A' ≤ value ∧ value ≤ 'Z' then Char.ofNat (value.toNat - 'A'.toNat + 'a'.toNat) else value

def isDigit (value : Char) : Bool := '0' ≤ value && value ≤ '9'

def isHexDigit (value : Char) : Bool :=
  isDigit value || ('a' ≤ value && value ≤ 'f') || ('A' ≤ value && value ≤ 'F')

/-- `std::isspace`, in the C locale. -/
def isSpace (value : Char) : Bool :=
  value = ' ' ∨ value = '\t' ∨ value = '\n' ∨ value = '\x0b' ∨ value = '\x0c' ∨ value = '\r'

/-! ## UTF-8 -/

/-- The length a lead byte stands for, and the bounds of the second byte. -/
def sequenceOf (lead : UInt8) : Option (Nat × UInt8 × UInt8) :=
  if 0xc2 ≤ lead ∧ lead ≤ 0xdf then some (2, 0x80, 0xbf)
  else if 0xe0 ≤ lead ∧ lead ≤ 0xef then
    some (3, if lead = 0xe0 then 0xa0 else 0x80, if lead = 0xed then 0x9f else 0xbf)
  else if 0xf0 ≤ lead ∧ lead ≤ 0xf4 then
    some (4, if lead = 0xf0 then 0x90 else 0x80, if lead = 0xf4 then 0x8f else 0xbf)
  else none

/-- The loop of `isValidUtf8`, which takes a byte at least in each turn. -/
def isValidUtf8From : Nat → Bytes → Bool
  | _, [] => true
  | 0, _ => false
  | fuel + 1, lead :: rest =>
    if lead ≤ 0x7f then isValidUtf8From fuel rest
    else
      match sequenceOf lead, rest with
      | some (length, secondMinimum, secondMaximum), second :: more =>
        if rest.length + 1 < length then false
        else if second < secondMinimum ∨ secondMaximum < second then false
        else if (more.take (length - 2)).all (continuation 0x80 0xbf) = false then false
        else isValidUtf8From fuel (rest.drop (length - 1))
      | _, _ => false

def isValidUtf8 (bytes : Bytes) : Bool := isValidUtf8From bytes.length bytes

/-! ## The state of the lexer -/

structure LexerState where
  rest : Text
  location : SourceLocation
  inlineHeader : Bool

def SourceLocation.after (location : SourceLocation) (value : Char) : SourceLocation :=
  if value = '\n' then { location with line := location.line + 1, column := 1 }
  else { location with column := location.column + 1 }

def SourceLocation.over (location : SourceLocation) (text : Text) : SourceLocation :=
  text.foldl SourceLocation.after location

namespace LexerState

/-- `peek`: a NUL stands behind the end. -/
def peek (s : LexerState) (offset : Nat) : Char := s.rest.getD offset '\x00'

/-- So many calls of `advance`. -/
def advance (s : LexerState) (count : Nat) : LexerState :=
  { s with rest := s.rest.drop count, location := s.location.over (s.rest.take count) }

def scanned (s : LexerState) (kind : Char → Bool) : Text := s.rest.takeWhile kind

def skipWhile (s : LexerState) (kind : Char → Bool) : LexerState :=
    s.advance (s.scanned kind).length

end LexerState

abbrev Lexed := Except (Stop DiagnosticError)

def lexError {α : Type} (location : SourceLocation) (message : String) : Lexed α :=
  .error (.diagnostic ⟨location, message.toList⟩)

def newlineToken (location : SourceLocation) : Token := ⟨.newline, ['\n'], location, false⟩

/-! ## Trivia -/

/-- A block comment behind its opening: the tokens for its newlines, what is behind
    it, and where. -/
def blockComment (parenthesisDepth : Nat) : Text → SourceLocation →
    Option (List Token × Text × SourceLocation)
  | [], _ => none
  | value :: rest, location =>
    if value = '*' ∧ rest.head? = some '/' then some ([], rest.tail,
      (location.after value).after '/')
    else
      (blockComment parenthesisDepth rest (location.after value)).map fun result =>
        ((if value = '\n' ∧ parenthesisDepth = 0 then [newlineToken location] else []) ++ result.1,
          result.2)

/-- The rounds of `skipTrivia`. -/
def skipTriviaFrom (parenthesisDepth : Nat) : Nat → LexerState → Lexed (List Token × LexerState)
  | 0, _ => .error .endless
  | fuel + 1, s =>
    let s := s.skipWhile fun value => value ≠ '\n' ∧ isSpace value = true
    if s.peek 0 = ';' ∨ s.peek 0 = '#' ∨ (s.peek 0 = '/' ∧ s.peek 1 = '/') then
      skipTriviaFrom parenthesisDepth fuel (s.skipWhile fun value => value ≠ '\n')
    else if s.peek 0 = '/' ∧ s.peek 1 = '*' then
      let opened := s.advance 2
      match blockComment parenthesisDepth opened.rest opened.location with
      | none => lexError s.location "unterminated block comment"
      | some (newlines, rest, location) => do
        let (more, s) ← skipTriviaFrom parenthesisDepth fuel
          { s with rest := rest, location := location }
        return (newlines ++ more, s)
    else .ok ([], s)

def skipTrivia (parenthesisDepth : Nat) (s : LexerState) : Lexed (List Token × LexerState) :=
  skipTriviaFrom parenthesisDepth (s.rest.length + 1) s

/-! ## Words and numbers -/

def keywords : List (Text × TokenType) :=
  [("start", .startKeyword), ("int", .int), ("bool", .bool), ("float", .floatType),
    ("unsigned", .unsigned),
    ("strg", .strgType), ("list", .listType), ("dict", .dictType), ("buffer", .bufferType),
    ("handle", .handleType), ("any", .anyType), ("type", .typeType), ("callback", .callbackType),
    ("if", .ifKeyword), ("else", .elseKeyword), ("while", .whileKeyword), ("do", .doKeyword),
    ("for", .forKeyword), ("in", .inKeyword), ("is", .isKeyword), ("break", .breakKeyword),
    ("continue", .continueKeyword), ("and", .andKeyword), ("or", .orKeyword), ("not", .bang),
    ("print", .printKeyword), ("raise", .raiseKeyword), ("try", .tryKeyword),
      ("except", .exceptKeyword),
    ("finally", .finallyKeyword), ("class", .classKeyword), ("namespace", .namespaceKeyword),
    ("include", .includeKeyword), ("inline", .inlineKeyword), ("import", .importKeyword),
      ("as", .asKeyword),
    ("from", .fromKeyword), ("public", .publicKeyword), ("protected", .protectedKeyword),
    ("private", .privateKeyword), ("virtual", .virtualKeyword), ("super", .superKeyword),
    ("null", .nullLiteral), ("true", .trueLiteral), ("false", .falseLiteral),
      ("return", .returnKeyword),
    ("void", .voidKeyword)].map fun entry => (entry.1.toList, entry.2)

/-- The type of a word; the built-in class `String` is not a keyword. -/
def wordType (text : Text) : TokenType :=
  if text = "String".toList then .identifier
  else (keywords.lookup (text.map lowerAscii)).getD .identifier

def scanWord (s : LexerState) : Token × LexerState :=
  let text := s.scanned isIdentifierPart
  let type := wordType text
  (⟨type, text, s.location, false⟩,
    { s.advance text.length with inlineHeader := s.inlineHeader || type = .inlineKeyword })

/-- Digits behind `0x`, a suffix, and nothing that goes on with it. -/
def scanHexadecimal (s : LexerState) : Lexed (Token × LexerState) :=
  let digits := (s.advance 2).scanned isHexDigit
  if digits = [] then lexError s.location "malformed hexadecimal integer literal"
  else
    let behind := s.advance (2 + digits.length)
    let isUnsigned := behind.peek 0 = 'u' ∨ behind.peek 0 = 'U'
    let length := 2 + digits.length + if isUnsigned then 1 else 0
    if isIdentifierPart ((s.advance length).peek 0) = true then
      lexError s.location "malformed hexadecimal integer literal"
    else
      .ok (⟨if isUnsigned then .unsignedInteger else .integer, s.rest.take length,
        s.location, false⟩,
        s.advance length)

/-- The digits of a decimal number, and a dot with digits: how long they are, and
    whether there is a dot. -/
def scanMantissa (s : LexerState) : Nat × Bool :=
  if s.peek 0 = '.' then (1 + ((s.advance 1).scanned isDigit).length, true)
  else
    let whole := (s.scanned isDigit).length
    if (s.advance whole).peek 0 = '.' then
      (whole + 1 + ((s.advance (whole + 1)).scanned isDigit).length, true)
    else (whole, false)

/-- The length of an exponent, if there is one; it must have digits. -/
def scanExponent (location : SourceLocation) (s : LexerState) : Lexed (Option Nat) :=
  if s.peek 0 = 'e' ∨ s.peek 0 = 'E' then
    let sign := if s.peek 1 = '+' ∨ s.peek 1 = '-' then 2 else 1
    let digits := ((s.advance sign).scanned isDigit).length
    if digits = 0 then lexError location "malformed floating-point literal"
    else .ok (some (sign + digits))
  else .ok none

def scanDecimal (s : LexerState) : Lexed (Token × LexerState) := do
  let mantissa := scanMantissa s
  let exponent ← scanExponent s.location (s.advance mantissa.1)
  let length := mantissa.1 + exponent.getD 0
  let floating := mantissa.2 || exponent.isSome
  let behind := s.advance length
  if floating = false ∧ (behind.peek 0 = 'u' ∨ behind.peek 0 = 'U') then
    return (⟨.unsignedInteger, s.rest.take (length + 1), s.location, false⟩, s.advance (length + 1))
  else
    return (⟨if floating = true then .float else .integer, s.rest.take length, s.location, false⟩,
      behind)

def scanIdentifierOrInteger (s : LexerState) : Lexed (Token × LexerState) :=
  if s.peek 0 = '.' ∨ isDigit (s.peek 0) = true then
    if s.peek 0 = '0' ∧ (s.peek 1 = 'x' ∨ s.peek 1 = 'X') then scanHexadecimal s
    else scanDecimal s
  else .ok (scanWord s)

/-! ## Inline bodies -/

/-- Where the scanner of an inline body is: in code, in a literal or behind a
    backslash in it, in a line comment, at the second character of the opening of
    a block comment, in it, or at the second character of its closing. -/
inductive InlineMode where
  | code
  | quoted (quote : Char)
  | escaped (quote : Char)
  | lineComment
  | blockOpening
  | blockComment
  | blockClosing
  deriving DecidableEq

/-- The mode behind a character that does not close the body, given the next one. -/
def InlineMode.after (mode : InlineMode) (value : Char) (next : Option Char) : InlineMode :=
  match mode with
  | code =>
    if value = '"' ∨ value = '\'' then .quoted value
    else if value = '/' ∧ next = some '/' then .lineComment
    else if value = '/' ∧ next = some '*' then .blockOpening
    else .code
  | quoted quote =>
    if value = '\\' ∧ next.isSome = true then .escaped quote
    else if value = quote then .code
    else .quoted quote
  | escaped quote => .quoted quote
  | lineComment => if value = '\n' then .code else .lineComment
  | blockOpening => .blockComment
  | blockComment => if value = '*' ∧ next = some '/' then .blockClosing else .blockComment
  | blockClosing => .code

def InlineMode.depthAfter (mode : InlineMode) (value : Char) (braceDepth : Nat) : Nat :=
  if mode = .code ∧ value = '\x7b' then braceDepth + 1
  else if mode = .code ∧ value = '\x7d' then braceDepth - 1
  else braceDepth

/-- What is missing when the source ends. -/
def InlineMode.missing : InlineMode → String
  | code | lineComment => "unterminated inline C block"
  | quoted _ | escaped _ => "unterminated string in inline C block"
  | blockOpening | blockComment | blockClosing => "unterminated comment in inline C block"

/-- The body up to the brace that closes it. -/
def inlineBody : InlineMode → Nat → Text → Except String Text
  | mode, _, [] => .error mode.missing
  | mode, braceDepth, value :: rest =>
    if mode.depthAfter value braceDepth = 0 then .ok []
    else do
      let body ← inlineBody (mode.after value rest.head?) (mode.depthAfter value braceDepth) rest
      return value :: body

/-- `scanInlineBody`; the opening brace has been checked. -/
def scanInlineBody (s : LexerState) : Lexed (Token × LexerState) :=
  match inlineBody .code 1 (s.advance 1).rest with
  | .ok body =>
    .ok (⟨.inlineBody, body, s.location, false⟩,
      { s.advance (body.length + 2) with inlineHeader := false })
  | .error missing => lexError s.location missing

/-! ## Strings -/

/-- The character that an escape stands for. -/
def unescape : Char → Option Char
  | 'e' => some '\x1b'
  | 'n' => some '\n'
  | 'r' => some '\r'
  | 't' => some '\t'
  | '\\' => some '\\'
  | '"' => some '"'
  | _ => none

/-- Only strings in double quotes have escapes. -/
def startsEscape (quote value : Char) : Bool := quote = '"' && value = '\\'

def escapedCharacter (escaped : Char) (location : SourceLocation) : Lexed Char :=
  match unescape escaped with
  | some meant => .ok meant
  | none => lexError location "unsupported string escape"

/-- The value of a string up to its quote, and how long it is written; `start` is
    where the string begins. -/
def stringValue (quote : Char) (start : SourceLocation) :
    Text → SourceLocation → Lexed (Text × Nat)
  | [], _ => lexError start "unterminated string literal"
  | value :: rest, location =>
    if value = quote then .ok ([], 0)
    else if value = '\n' ∨ value = '\r' then lexError location "newline in string literal"
    else if startsEscape quote value = true then
      match rest with
      | [] => lexError start "unterminated escape sequence"
      | escaped :: rest => do
        let meant ← escapedCharacter escaped ((location.after value).after escaped)
        let behind ← stringValue quote start rest ((location.after value).after escaped)
        return (meant :: behind.1, behind.2 + 2)
    else do
      let behind ← stringValue quote start rest (location.after value)
      return (value :: behind.1, behind.2 + 1)

/-- `scanString`; the quote has been checked. -/
def scanString (quote : Char) (s : LexerState) : Lexed (Token × LexerState) := do
  let (text, length) ← stringValue quote s.location (s.advance 1).rest (s.advance 1).location
  if isValidUtf8 (bytesOf text) = false then lexError s.location "string literal is not valid UTF-8"
  else return (⟨.string, text, s.location, quote = '"'⟩, s.advance (length + 2))

/-! ## Tokens -/

def punctuation (value next : Char) : Option (TokenType × Text) :=
  let withEqual (double single : TokenType) : Option (TokenType × Text) :=
    if next = '=' then some (double, [value, '=']) else some (single, [value])
  let twice (type : TokenType) : Option (TokenType × Text) :=
    if next = value then some (type, [value, value]) else none
  match value with
  | '\x7b' => some (.leftBrace, [value])
  | '\x7d' => some (.rightBrace, [value])
  | '(' => some (.leftParen, [value])
  | ')' => some (.rightParen, [value])
  | '[' => some (.leftBracket, [value])
  | ']' => some (.rightBracket, [value])
  | ',' => some (.comma, [value])
  | '.' => some (.dot, [value])
  | ':' => some (.colon, [value])
  | '+' => withEqual .plusEqual .plus
  | '-' => withEqual .minusEqual .minus
  | '*' => withEqual .starEqual .star
  | '/' => withEqual .slashEqual .slash
  | '%' => withEqual .percentEqual .percent
  | '&' => twice .andAnd
  | '|' => twice .orOr
  | '!' => withEqual .bangEqual .bang
  | '=' => withEqual .equalEqual .equal
  | '<' => withEqual .lessEqual .less
  | '>' => withEqual .greaterEqual .greater
  | _ => none

def parenthesisDepthAfter (type : TokenType) (parenthesisDepth : Nat) : Nat :=
  match type with
  | .leftParen | .leftBracket => parenthesisDepth + 1
  | .rightParen | .rightBracket => parenthesisDepth - 1
  | _ => parenthesisDepth

def scanPunctuation (s : LexerState) : Lexed (Token × LexerState) :=
  match punctuation (s.peek 0) (s.peek 1) with
  | some (type, text) => .ok (⟨type, text, s.location, false⟩, s.advance text.length)
  | none => lexError s.location "unexpected character"

/-- One token; a newline between parentheses is none. -/
def scanToken (parenthesisDepth : Nat) (s : LexerState) : Lexed (List Token × LexerState) := do
  let value := s.peek 0
  if s.inlineHeader = true ∧ value = '\x7b' then
    let (token, s) ← scanInlineBody s
    return ([token], s)
  else if value = '\n' then
    return (if parenthesisDepth = 0 then [newlineToken s.location] else [], s.advance 1)
  else if isIdentifierStart value = true ∨ isDigit value = true ∨
      (value = '.' ∧ isDigit (s.peek 1) = true) then
    let (token, s) ← scanIdentifierOrInteger s
    return ([token], s)
  else if value = '"' ∨ value = '\'' then
    let (token, s) ← scanString value s
    return ([token], s)
  else
    let (token, s) ← scanPunctuation s
    return ([token], s)

def endToken (location : SourceLocation) : Token := ⟨.endOfFile, [], location, false⟩

/-- The rounds of `tokenize`. -/
def tokenizeFrom : Nat → Nat → LexerState → Lexed (List Token)
  | 0, _, _ => .error .endless
  | fuel + 1, parenthesisDepth, s =>
    if s.rest = [] then .ok [endToken s.location]
    else do
      let (newlines, s) ← skipTrivia parenthesisDepth s
      if s.rest = [] then return newlines ++ [endToken s.location]
      else
        let (tokens, s) ← scanToken parenthesisDepth s
        let depth := tokens.foldl (fun depth token => parenthesisDepthAfter token.type depth)
          parenthesisDepth
        let more ← tokenizeFrom fuel depth s
        return newlines ++ tokens ++ more

/-- `Lexer::tokenize` -/
def tokenize (source fileName : Text) : Lexed (List Token) :=
  tokenizeFrom (source.length + 1) 0 ⟨source, ⟨fileName, 1, 1⟩, false⟩

end Cwhip.Parser
