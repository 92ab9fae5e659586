/-
  Cwhip.Driver.ShellCommand

  The command line that the driver runs the compiler with (`main.cpp`), and the
  quoting of `cwhip-pkg`.
-/

import Mathlib.Data.List.TakeWhile
import Cwhip.Lib.Texts
import Cwhip.Lib.ShellWords

namespace Cwhip.Driver

open Cwhip.Lib.Shell
open List (append_assoc append_nil mem_append mem_cons not_mem_nil)

/-- `shellQuote` -/
def shellQuote (value : Text) : Text :=
  value.foldl (fun quoted c => if c = '\'' then quoted ++ "'\\''".toList else quoted ++ [c])
    ['\''] ++ ['\'']

/-- `str.replace` for a text of one character. -/
def replaceCharacter (value : Text) (old : Char) (new : Text) : Text :=
  value.flatMap fun c => if c = old then new else [c]

/-- `shell_quote` of `cwhip-pkg`. -/
def shellQuotePkg (value : Text) : Text :=
  '\'' :: (replaceCharacter value '\'' "'\\''".toList ++ ['\''])

/-- What `Instrumentation.cmake` sets; neither is set unless it is asked for. -/
structure BuildOptions where
  coverage : Bool
  sanitizerList : Text

/-- The command of `runCompiler`. -/
def compilerCommand (options : BuildOptions) (compiler : Text) (arguments : List Text) : Text :=
  let command := shellQuote compiler
  let command :=
    if options.coverage = true ∧ ['-', 'r'] ∉ arguments then
      command ++ " -fprofile-instr-generate -fcoverage-mapping".toList
    else command
  let command :=
    if options.sanitizerList.length ≠ 0 ∧ ['-', 'r'] ∉ arguments then
      command ++ ' ' :: shellQuote ("-fsanitize=".toList ++ options.sanitizerList) ++
        " -fno-omit-frame-pointer -g".toList
    else command
  arguments.foldl (fun command argument => command ++ ' ' :: shellQuote argument) command

/-- What `std::system` is given of it: `c_str` ends at the first NUL. -/
def systemLine (command : Text) : Text := command.takeWhile (· != Char.ofNat 0)

/-- The words that instrumentation adds. -/
def instrumentation (options : BuildOptions) (arguments : List Text) : List Text :=
  (if options.coverage = true ∧ ['-', 'r'] ∉ arguments then
    ["-fprofile-instr-generate".toList, "-fcoverage-mapping".toList] else []) ++
  if options.sanitizerList.length ≠ 0 ∧ ['-', 'r'] ∉ arguments then
    ["-fsanitize=".toList ++ options.sanitizerList, "-fno-omit-frame-pointer".toList, "-g".toList]
  else []

def NulFree (value : Text) : Prop := Char.ofNat 0 ∉ value

/-! ## Quoting -/

theorem shellQuote_eq (value : Text) : shellQuote value = shellQuotePkg value := by
  have hfold : ∀ start : Text,
      value.foldl (fun quoted c => if c = '\'' then quoted ++ "'\\''".toList
        else quoted ++ [c]) start = start ++ replaceCharacter value '\'' "'\\''".toList := by
    induction value with
    | nil => exact fun start => (append_nil start).symm
    | cons c value ih =>
      intro start
      rw [List.foldl_cons, ih, replaceCharacter, replaceCharacter, List.flatMap_cons,
        ← append_assoc]
      congr 1
      split <;> rfl
  rw [shellQuote, hfold, shellQuotePkg, append_assoc]
  rfl

theorem standsFor_shellQuote (value : Text) : StandsFor (shellQuote value) value := by
  rw [shellQuote_eq]
  exact standsFor_quoted value

/-! ## The command line -/

/-- The words of a command, each with the text it is written as. -/
def rendered (options : BuildOptions) (arguments : List Text) : List (Text × Text) :=
  (if options.coverage = true ∧ ['-', 'r'] ∉ arguments then
    [("-fprofile-instr-generate".toList, "-fprofile-instr-generate".toList),
      ("-fcoverage-mapping".toList, "-fcoverage-mapping".toList)] else []) ++
  (if options.sanitizerList.length ≠ 0 ∧ ['-', 'r'] ∉ arguments then
    [(shellQuote ("-fsanitize=".toList ++ options.sanitizerList),
        "-fsanitize=".toList ++ options.sanitizerList),
      ("-fno-omit-frame-pointer".toList, "-fno-omit-frame-pointer".toList),
        ("-g".toList, "-g".toList)]
  else []) ++ arguments.map fun argument => (shellQuote argument, argument)

theorem compilerCommand_eq (options : BuildOptions) (compiler : Text) (arguments : List Text) :
    compilerCommand options compiler arguments
      = shellQuote compiler ++ (rendered options arguments).flatMap fun e => ' ' :: e.1 := by
  have harguments : ∀ command : Text,
      arguments.foldl (fun command argument => command ++ ' ' :: shellQuote argument) command
        = command ++ (arguments.map fun argument => (shellQuote argument, argument)).flatMap
            fun e => ' ' :: e.1 := by
    induction arguments with
    | nil => exact fun command => (append_nil command).symm
    | cons argument arguments ih =>
      intro command
      rw [List.foldl_cons, ih, List.map_cons, List.flatMap_cons, append_assoc]
  rw [compilerCommand, harguments, rendered, List.flatMap_append, List.flatMap_append,
    ← append_assoc, ← append_assoc]
  congr 1
  split <;> split <;> simp

theorem rendered_words (options : BuildOptions) (arguments : List Text) :
    (rendered options arguments).map Prod.snd = instrumentation options arguments ++ arguments := by
  rw [rendered, instrumentation, List.map_append, List.map_append, List.map_map]
  congr 1
  · congr 1
    · split <;> rfl
    · split <;> rfl
  · exact List.map_id'' (fun _ => rfl) arguments

theorem rendered_standsFor (options : BuildOptions) (arguments : List Text) :
    ∀ e ∈ rendered options arguments, StandsFor e.1 e.2 := by
  intro e he
  simp only [rendered, mem_append, List.mem_map] at he
  rcases he with (he | he) | ⟨argument, _, rfl⟩
  · split at he
    · simp only [mem_cons, not_mem_nil, or_false] at he
      rcases he with rfl | rfl
      · exact standsFor_plain (by decide +kernel)
      · exact standsFor_plain (by decide +kernel)
    · cases he
  · split at he
    · simp only [mem_cons, not_mem_nil, or_false] at he
      rcases he with rfl | rfl | rfl
      · exact standsFor_shellQuote _
      · exact standsFor_plain (by decide +kernel)
      · exact standsFor_plain (by decide +kernel)
    · cases he
  · exact standsFor_shellQuote argument

/-! ## NUL -/

theorem nulFree_shellQuote {value : Text} (h : NulFree value) : NulFree (shellQuote value) := by
  rw [shellQuote_eq]
  intro hmem
  simp only [shellQuotePkg, replaceCharacter, mem_cons, mem_append, List.mem_flatMap,
    not_mem_nil, or_false] at hmem
  rcases hmem with hquote | ⟨c, hc, hmem⟩ | hquote
  · exact absurd hquote (by decide)
  · split at hmem
    · exact absurd hmem (by decide)
    · rw [← List.mem_singleton.mp hmem] at hc
      exact h hc
  · exact absurd hquote (by decide)

theorem nulFree_rendered {options : BuildOptions} {arguments : List Text}
    (hsanitizers : NulFree options.sanitizerList)
    (harguments : ∀ argument ∈ arguments, NulFree argument) :
    ∀ e ∈ rendered options arguments, NulFree e.1 := by
  intro e he
  simp only [rendered, mem_append, List.mem_map] at he
  rcases he with (he | he) | ⟨argument, hargument, rfl⟩
  · split at he
    · simp only [mem_cons, not_mem_nil, or_false] at he
      rcases he with rfl | rfl
      · exact (by decide +kernel : Char.ofNat 0 ∉ "-fprofile-instr-generate".toList)
      · exact (by decide +kernel : Char.ofNat 0 ∉ "-fcoverage-mapping".toList)
    · cases he
  · split at he
    · simp only [mem_cons, not_mem_nil, or_false] at he
      rcases he with rfl | rfl | rfl
      · refine nulFree_shellQuote fun hmem => ?_
        rcases List.mem_append.mp hmem with hmem | hmem
        · exact (by decide +kernel : Char.ofNat 0 ∉ "-fsanitize=".toList) hmem
        · exact hsanitizers hmem
      · exact (by decide +kernel : Char.ofNat 0 ∉ "-fno-omit-frame-pointer".toList)
      · exact (by decide +kernel : Char.ofNat 0 ∉ "-g".toList)
    · cases he
  · exact nulFree_shellQuote (harguments argument hargument)

theorem systemLine_eq {command : Text} (h : NulFree command) : systemLine command = command := by
  have hall : ∀ c ∈ command, (c != Char.ofNat 0) = true := by
    intro c hc
    rw [bne_iff_ne]
    rintro rfl
    exact h hc
  exact List.takeWhile_eq_self_iff.mpr hall

/-- The shell takes the command apart into the compiler, the words that
    instrumentation adds (none, unless the driver was built with it), and the
    arguments in order; and what `cwhip-pkg` quotes is one word again. -/
theorem shell_quoting_exact {options : BuildOptions} {compiler : Text} {arguments : List Text}
    (hcompiler : NulFree compiler) (hsanitizers : NulFree options.sanitizerList)
    (harguments : ∀ argument ∈ arguments, NulFree argument) :
    splitWords (systemLine (compilerCommand options compiler arguments))
        = some (compiler :: (instrumentation options arguments ++ arguments)) ∧
      (options = ⟨false, []⟩ → instrumentation options arguments = []) ∧
      ∀ value, NulFree value → splitWords (systemLine (shellQuotePkg value)) = some [value] := by
  have hword : ∀ value rest, splitWords (shellQuote value ++ rest) = words .unquoted
      (some value) rest :=
    fun value rest => standsFor_shellQuote value rest
  refine ⟨?_, ?_, fun value hvalue => ?_⟩
  · have hfree : NulFree (compilerCommand options compiler arguments) := by
      rw [compilerCommand_eq]
      intro hmem
      rcases List.mem_append.mp hmem with hmem | hmem
      · exact nulFree_shellQuote hcompiler hmem
      · obtain ⟨e, he, hmem⟩ := List.mem_flatMap.mp hmem
        rcases List.mem_cons.mp hmem with hblank | hmem
        · exact absurd hblank (by decide)
        · exact nulFree_rendered hsanitizers harguments e he hmem
    rw [systemLine_eq hfree, compilerCommand_eq, hword,
      words_line (rendered_standsFor options arguments),
      rendered_words]
  · rintro rfl
    simp [instrumentation]
  · have hfree := nulFree_shellQuote hvalue
    rw [← shellQuote_eq, systemLine_eq hfree, ← append_nil (shellQuote value), hword]
    rfl

/-- `clang`, and a file `it's` in the default build. -/
theorem shell_quoting_apostrophe :
    splitWords (systemLine (compilerCommand ⟨false, []⟩ "clang".toList ["it's".toList]))
      = some ["clang".toList, "it's".toList] := by
  have hsanitizers : NulFree (BuildOptions.mk false []).sanitizerList := not_mem_nil
  have harguments : ∀ argument ∈ ["it's".toList], NulFree argument := by
    intro argument hmem
    rw [List.mem_singleton.mp hmem]
    exact (by decide +kernel : Char.ofNat 0 ∉ "it's".toList)
  exact (shell_quoting_exact (by decide +kernel : Char.ofNat 0 ∉ "clang".toList) hsanitizers
    harguments).1

end Cwhip.Driver
