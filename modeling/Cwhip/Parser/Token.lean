/-
  Cwhip.Parser.Token

  Tokens with their places in the source, and diagnostics (`Token.hpp`,
  `SourceLocation.hpp`, `Diagnostic.hpp`).
-/

import Cwhip.CodeGen.Mangling

namespace Cwhip.Parser


structure SourceLocation where
  file : Text
  line : Nat
  column : Nat
  deriving DecidableEq, Repr

structure DiagnosticError where
  location : SourceLocation
  message : Text
  deriving DecidableEq, Repr

inductive TokenType where
  | endOfFile | identifier | integer | unsignedInteger | float | string | startKeyword | int
  | bool | floatType | unsigned | strgType | listType | dictType | bufferType | handleType
  | anyType | typeType | callbackType | classKeyword | namespaceKeyword | includeKeyword
      | inlineKeyword | inlineBody
  | importKeyword | asKeyword | publicKeyword | protectedKeyword | privateKeyword | virtualKeyword
      | superKeyword | nullLiteral
  | trueLiteral | falseLiteral | returnKeyword | voidKeyword | ifKeyword | elseKeyword
      | whileKeyword | doKeyword
  | forKeyword | inKeyword | isKeyword | breakKeyword | continueKeyword | andKeyword | orKeyword
      | printKeyword
  | raiseKeyword | tryKeyword | exceptKeyword | finallyKeyword | fromKeyword | leftBrace
      | rightBrace | leftParen
  | rightParen | leftBracket | rightBracket | comma | dot | colon | newline | plus
  | minus | star | slash | percent | plusEqual | minusEqual | starEqual | slashEqual
  | percentEqual | bang | andAnd | orOr | equal | equalEqual | bangEqual | less
  | lessEqual | greater | greaterEqual
  deriving DecidableEq

structure Token where
  type : TokenType
  text : Text
  location : SourceLocation
  /-- A string in double quotes. -/
  formattedString : Bool
  deriving DecidableEq

end Cwhip.Parser
