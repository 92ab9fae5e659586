/-
  Cwhip.Lib.ShellWords

  Words and quotes of the POSIX shell, as far as a command line is taken apart
  by them alone.  A character that would mean more than itself (an operator, an
  expansion, a pattern, a comment) and is not quoted has no words here.
-/

import Mathlib.Data.List.Basic

namespace Cwhip.Lib.Shell

/-- Characters that are nothing but themselves only when they are quoted. -/
def isSpecial (c : Char) : Bool :=
  "\n|&;<>()$*?[]#~=%!{}^".toList.contains c || c == Char.ofNat 96

/-- What a backslash escapes within double quotes. -/
def isEscapable (c : Char) : Bool := "$\"\\\n".toList.contains c || c == Char.ofNat 96

/-- Where a character stands. -/
inductive Quoting where
  | unquoted
  | single
  | double
  deriving DecidableEq

/-- The words of a line, of which the first is begun already if it is there. -/
def words : Quoting → Option (List Char) → List Char → Option (List (List Char))
  | .unquoted, word, [] => some word.toList
  | .unquoted, word, '\\' :: c :: rest =>
    if c = '\n' then words .unquoted word rest
    else words .unquoted (some (word.getD [] ++ [c])) rest
  | .unquoted, word, c :: rest =>
    if c = ' ' ∨ c = '\t' then (words .unquoted none rest).map (word.toList ++ ·)
    else if c = '\'' then words .single (some (word.getD [])) rest
    else if c = '"' then words .double (some (word.getD [])) rest
    else if c = '\\' ∨ isSpecial c = true then none
    else words .unquoted (some (word.getD [] ++ [c])) rest
  | .single, word, c :: rest =>
    if c = '\'' then words .unquoted word rest
    else words .single (some (word.getD [] ++ [c])) rest
  | .double, word, '\\' :: c :: rest =>
    if c = '\n' then words .double word rest
    else if isEscapable c = true then words .double (some (word.getD [] ++ [c])) rest
    else words .double (some (word.getD [] ++ ['\\', c])) rest
  | .double, word, c :: rest =>
    if c = '"' then words .unquoted word rest
    else if c = '$' ∨ c = Char.ofNat 96 then none
    else words .double (some (word.getD [] ++ [c])) rest
  | _, _, [] => none

def splitWords (line : List Char) : Option (List (List Char)) := words .unquoted none line

theorem words_single {c : Char} (h : c ≠ '\'') (word rest : List Char) :
    words .single (some word) (c :: rest) = words .single (some (word ++ [c])) rest := by
  rw [words, if_neg h]
  rfl

theorem words_close (word rest : List Char) :
    words .single (some word) ('\'' :: rest) = words .unquoted (some word) rest := by
  rw [words, if_pos rfl]

theorem words_spliced (word rest : List Char) :
    words .single (some word) ('\'' :: '\\' :: '\'' :: '\'' :: rest)
      = words .single (some (word ++ ['\''])) rest := by
  rw [words_close, words, if_neg (by decide), words, if_neg (by decide), if_pos rfl]
  · rfl
  · intro _ _ hc
    exact absurd hc (by decide)

/-- A quoted text is one word, whatever it contains. -/
theorem words_quoted (text : List Char) (word : Option (List Char)) (rest : List Char) :
    words .unquoted word ('\'' :: (text.flatMap (fun c => if c = '\'' then "'\\''".toList
        else [c]) ++ '\'' :: rest)) = words .unquoted (some (word.getD [] ++ text)) rest := by
  have hinner : ∀ start, words .single (some start)
      (text.flatMap (fun c => if c = '\'' then "'\\''".toList else [c]) ++ '\'' :: rest)
        = words .unquoted (some (start ++ text)) rest := by
    induction text with
    | nil =>
      intro start
      rw [List.append_nil]
      exact words_close start rest
    | cons c text ih =>
      intro start
      rw [List.flatMap_cons, List.append_assoc, List.append_cons start c text]
      by_cases hc : c = '\''
      · rw [if_pos hc, hc]
        exact (words_spliced start _).trans (ih _)
      · rw [if_neg hc]
        exact (words_single hc start _).trans (ih _)
  rw [words, if_neg (by decide), if_pos rfl, hinner]
  intro _ _ hc
  exact absurd hc (by decide)

theorem words_blank (word : Option (List Char)) (rest : List Char) :
    words .unquoted word (' ' :: rest) = (splitWords rest).map (word.toList ++ ·) := by
  rw [words, if_pos (.inl rfl)]
  · rfl
  · intro _ _ hc
    exact absurd hc (by decide)

/-! ## Lines of words -/

/-- Read at the start of a word, the text is this word so far. -/
def StandsFor (text word : List Char) : Prop :=
  ∀ rest, words .unquoted none (text ++ rest) = words .unquoted (some word) rest

/-- Characters that need no quotes. -/
def isPlain (c : Char) : Bool :=
  !(c == ' ' || c == '\t' || c == '\'' || c == '"' || c == '\\' || isSpecial c)

/-- A plain character joins the word. -/
theorem words_plain_step {c : Char} (h : isPlain c = true) (word : Option (List Char))
    (rest : List Char) :
    words .unquoted word (c :: rest) = words .unquoted (some (word.getD [] ++ [c])) rest := by
  simp only [isPlain, Bool.not_eq_true', Bool.or_eq_false_iff, beq_eq_false_iff_ne, ne_eq] at h
  obtain ⟨⟨⟨⟨⟨hblank, htab⟩, hsingle⟩, hdouble⟩, hbackslash⟩, hspecial⟩ := h
  rw [words, if_neg (by simp [hblank, htab]), if_neg hsingle, if_neg hdouble,
    if_neg (by simp [hbackslash, hspecial])]
  intro _ _ hescape
  exact absurd hescape hbackslash

theorem words_plain {text : List Char} (h : text.all isPlain = true) (word rest : List Char) :
    words .unquoted (some word) (text ++ rest) = words .unquoted (some (word ++ text)) rest := by
  induction text generalizing word with
  | nil => rw [List.nil_append, List.append_nil]
  | cons c text ih =>
    rw [List.all_cons, Bool.and_eq_true] at h
    rw [List.cons_append, words_plain_step h.1, Option.getD_some, ih h.2, List.append_assoc,
      List.singleton_append]

theorem standsFor_plain {c : Char} {text : List Char} (h : (c :: text).all isPlain = true) :
    StandsFor (c :: text) (c :: text) := by
  intro rest
  rw [List.all_cons, Bool.and_eq_true] at h
  rw [List.cons_append, words_plain_step h.1, words_plain h.2]
  rfl

theorem standsFor_quoted (text : List Char) :
    StandsFor ('\'' :: (text.flatMap (fun c => if c = '\'' then "'\\''".toList else [c]) ++ ['\'']))
    text := by
  intro rest
  rw [List.cons_append, List.append_assoc]
  exact words_quoted text none rest

/-- A line is split into the words it was rendered from. -/
theorem words_line {rendered : List (List Char × List Char)} (h : ∀ e ∈ rendered, StandsFor e.1 e.2)
    (word : List Char) : words .unquoted (some word) (rendered.flatMap fun e => ' ' :: e.1)
      = some (word :: rendered.map Prod.snd) := by
  induction rendered generalizing word with
  | nil => rfl
  | cons e rendered ih =>
    obtain ⟨he, hlater⟩ := List.forall_mem_cons.mp h
    rw [List.flatMap_cons, List.cons_append, words_blank, splitWords, he, ih hlater]
    rfl

end Cwhip.Lib.Shell
