/-
  Cwhip.Parser.SourceLoader

  The expansion of `include` directives (`SourceLoader.cpp`) and its use on the
  source inputs (`main.cpp`).

  The files are those of an arbitrary file system and the lexer is an arbitrary
  one.  Since a file is entered below the limit on the depth only, what is left
  of the limit is what the recursion is on.
-/

import Cwhip.Lib.Except
import Cwhip.Parser.Token

namespace Cwhip.Parser

open Cwhip.Lib
open Cwhip.CodeGen (decimal)

/-! ## Paths -/

/-- `std::filesystem::path::is_absolute` -/
def isAbsolute (path : Text) : Bool := path.head? == some '/'

/-- `std::filesystem::path::parent_path` -/
def parentPath (path : Text) : Text :=
  let directory := path.reverse.dropWhile (· != '/')
  let trimmed := directory.dropWhile (· == '/')
  if trimmed = [] ∧ directory ≠ [] then ['/'] else trimmed.reverse

/-- `operator/` on paths. -/
def joinPath (directory path : Text) : Text :=
  if isAbsolute path then path
  else if directory = [] ∨ directory.getLast? = some '/' then directory ++ path
  else directory ++ '/' :: path

structure FileSystem where
  /-- `std::filesystem::canonical`, which fails where there is no file. -/
  canonical : Text → Option Text
  /-- What a `std::ifstream` reads, if it opens. -/
  contents : Text → Option Text

/-- The file that an `include` of a path in a source means. -/
def resolveInclude (files : FileSystem) (includeSearchPaths : List Text)
    (sourcePath requested : Text) : Option Text :=
  let candidates :=
    if isAbsolute requested then [requested]
    else joinPath (parentPath sourcePath) requested ::
      includeSearchPaths.map fun directory => joinPath directory requested
  (candidates.findSome? files.canonical).filter (· ≠ [])

/-! ## Expansion -/

/-- An `include` token, its path and what follows. -/
structure Directive where
  token : Token
  pathToken : Token
  next : Token
  deriving DecidableEq

/-- The included text ends a line. -/
def closeLine (token : Token) (expanded : List Token) : List Token :=
  if expanded.getLast?.any fun last => last.type = .newline then expanded
  else expanded ++ [⟨.newline, ['\n'], token.location, false⟩]

def braceDepthAfter (token : Token) (braceDepth : Nat) : Nat :=
  if token.type = .leftBrace then braceDepth + 1
  else if token.type = .rightBrace then braceDepth - 1
  else braceDepth

/-- Whether the top-level `start` has been seen behind a token. -/
def sawStartAfter (token : Token) (braceDepth : Nat) (sawStart : Bool) : Bool :=
  sawStart || (token.type = .startKeyword && braceDepth = 0)

/-- Tokens, and the files included so far, the latest first. -/
abbrev Loaded := List Token × List Text

section

variable (files : FileSystem) (lexer : Text → Text → Except DiagnosticError (List Token))
  (maximumIncludeDepth : Nat) (includeSearchPaths : List Text)

/-- The loop over the tokens of a source; `enter` loads a file that has not been
    included yet. -/
def expandTokens (enter : Directive → Text → List Text → Except DiagnosticError Loaded)
    (root : Bool)
    (sourcePath : Text) : List Token → Nat → Bool → List Text → List Token →
    Except DiagnosticError Loaded
  | token :: pathToken :: rest, braceDepth, sawStart, includedFiles, expanded =>
    if root = false ∧ token.type = .startKeyword then
      .error ⟨token.location, "included source cannot declare 'start'".toList⟩
    else if token.type = .includeKeyword ∧ braceDepth = 0 then
      if sawStart then .error ⟨token.location,
        "'include' must appear before top-level 'start'".toList⟩
      else
        match rest with
        | [] => .error ⟨token.location, "expected a double-quoted path after 'include'".toList⟩
        | next :: rest =>
          if pathToken.type ≠ .string ∨ pathToken.formattedString = false then
            .error ⟨token.location, "expected a double-quoted path after 'include'".toList⟩
          else if next.type ≠ .newline ∧ next.type ≠ .endOfFile then
            .error ⟨next.location, "expected newline after include path".toList⟩
          else
            match resolveInclude files includeSearchPaths sourcePath pathToken.text with
            | none =>
              .error ⟨pathToken.location,
                "cannot resolve included source '".toList ++ pathToken.text ++ "'".toList⟩
            | some canonicalName =>
              if canonicalName ∈ includedFiles then
                expandTokens enter root sourcePath rest braceDepth sawStart includedFiles
                  (closeLine token expanded)
              else do
                let (included, includedFiles) ←
                  enter ⟨token, pathToken, next⟩ canonicalName (canonicalName :: includedFiles)
                expandTokens enter root sourcePath rest braceDepth sawStart includedFiles
                  (closeLine token (expanded ++ included))
    else
      expandTokens enter root sourcePath (pathToken :: rest) (braceDepthAfter token braceDepth)
        (sawStartAfter token braceDepth sawStart) includedFiles (expanded ++ [token])
  -- the last token is the end of the source
  | _, _, _, includedFiles, expanded => .ok (expanded, includedFiles)

/-- The chain of files in a diagnostic. -/
def chainText : List Text → Text
  | [] => []
  | [path] => path
  | path :: rest => path ++ " -> ".toList ++ chainText rest

/-- An included file, with so many levels left. -/
def enterFile : Nat → List Text → Directive → Text → List Text → Except DiagnosticError Loaded
  | 0, includeChain, directive, canonicalPath, _ =>
    .error ⟨directive.token.location, "maximum include depth of ".toList ++
      decimal maximumIncludeDepth ++
      " exceeded (include chain: ".toList ++ chainText (includeChain ++ [canonicalPath]) ++
        ")".toList⟩
  | left + 1, includeChain, directive, canonicalPath, includedFiles =>
    match files.contents canonicalPath with
    | none =>
      .error ⟨directive.pathToken.location,
        "cannot open included source '".toList ++ canonicalPath ++ "'".toList⟩
    | some includedSource => do
      let tokens ← lexer includedSource canonicalPath
      expandTokens files includeSearchPaths (enterFile left (includeChain ++ [canonicalPath])) false
        canonicalPath tokens 0 false includedFiles []

def tokenizeWithIncludes (source sourcePath : Text) (includedFiles : List Text) (depth : Nat)
    (root : Bool) (includeChain : List Text) : Except DiagnosticError Loaded := do
  let includeChain := if includeChain = [] then [sourcePath] else includeChain
  let tokens ← lexer source sourcePath
  expandTokens files includeSearchPaths
    (enterFile files lexer maximumIncludeDepth includeSearchPaths (maximumIncludeDepth - depth)
      includeChain)
    root sourcePath tokens 0 false includedFiles []

end

end Cwhip.Parser
