/-
  Cwhip.Parser.Inclusion

  What the expansion of `include` directives amounts to: a tree in which every
  token of a file has its place, every directive either the tree of its file or
  nothing, and no file a second tree.

  A source is expanded exactly if there is such a tree that is not too high, and
  the tokens of the tree, read in order, are the result.
-/

import Cwhip.Parser.SourceLoader

namespace Cwhip.Parser

open Cwhip.Lib
open Cwhip.CodeGen (decimal)

/-! ## Inclusion trees -/

/-- The tokens of a file, each kept or part of a directive; a directive stands
    for a file that has been included or for the content of one. -/
inductive Inclusion where
  /-- At most the token that ends the source. -/
  | done (last : List Token)
  | keep (token : Token) (rest : Inclusion)
  | again (directive : Directive) (file : Text) (rest : Inclusion)
  | enter (directive : Directive) (file : Text) (content rest : Inclusion)

def Directive.tokens (directive : Directive) : List Token := [directive.token, directive.pathToken,
    directive.next]

namespace Inclusion

/-- The tokens of the file. -/
def tokens : Inclusion → List Token
  | done last => last
  | keep token rest => token :: rest.tokens
  | again directive _ rest => directive.tokens ++ rest.tokens
  | enter directive _ _ rest => directive.tokens ++ rest.tokens

/-- The tokens that are no part of a directive, those of an included file in the
    place of the first directive that includes it. -/
def contributed : Inclusion → List Token
  | done _ => []
  | keep token rest => token :: rest.contributed
  | again _ _ rest => rest.contributed
  | enter _ _ content rest => content.contributed ++ rest.contributed

/-- The files included, in the order of their first directives. -/
def included : Inclusion → List Text
  | done _ => []
  | keep _ rest => rest.included
  | again _ _ rest => rest.included
  | enter _ file content rest => file :: content.included ++ rest.included

/-- How deep files are included. -/
def height : Inclusion → Nat
  | done _ => 0
  | keep _ rest => rest.height
  | again _ _ rest => rest.height
  | enter _ _ content rest => max (content.height + 1) rest.height

/-- The tokens in order, those of an included file in the place of its directive,
    which ends a line. -/
def expansion : Inclusion → List Token → List Token
  | done _, before => before
  | keep token rest, before => rest.expansion (before ++ [token])
  | again directive _ rest, before => rest.expansion (closeLine directive.token before)
  | enter directive _ content rest, before =>
    rest.expansion (closeLine directive.token (before ++ content.expansion []))

end Inclusion

/-- A directive as it should be written. -/
structure Directive.WellFormed (directive : Directive) : Prop where
  token : directive.token.type = .includeKeyword
  path : directive.pathToken.type = .string ∧ directive.pathToken.formattedString = true
  next : directive.next.type = .newline ∨ directive.next.type = .endOfFile

section

variable (files : FileSystem) (lexer : Text → Text → Except DiagnosticError (List Token))
  (includeSearchPaths : List Text)

/-- The tree is the one of a source: directives stand at the top level before
    `start`, mean the files they stand for, and only those that have not been
    included yet have a content, which is read from the file. -/
def Inclusion.Expands (root : Bool) (sourcePath : Text) :
    Inclusion → Nat → Bool → List Text → Prop
  | .done last, _, _, _ => last.length ≤ 1
  | .keep token rest, braceDepth, sawStart, includedFiles =>
    (root = false → token.type ≠ .startKeyword) ∧ ¬ (token.type = .includeKeyword ∧
      braceDepth = 0) ∧
      rest.tokens ≠ [] ∧
        rest.Expands root sourcePath (braceDepthAfter token braceDepth)
          (sawStartAfter token braceDepth sawStart)
          includedFiles
  | .again directive file rest, braceDepth, sawStart, includedFiles =>
    directive.WellFormed ∧ braceDepth = 0 ∧ sawStart = false ∧
      resolveInclude files includeSearchPaths sourcePath directive.pathToken.text = some file ∧
        file ∈ includedFiles ∧ rest.Expands root sourcePath 0 false includedFiles
  | .enter directive file content rest, braceDepth, sawStart, includedFiles =>
    directive.WellFormed ∧ braceDepth = 0 ∧ sawStart = false ∧
      resolveInclude files includeSearchPaths sourcePath directive.pathToken.text = some file ∧
        file ∉ includedFiles ∧
          (∃ source, files.contents file = some source ∧ lexer source file = .ok content.tokens) ∧
            content.Expands false file 0 false (file :: includedFiles) ∧
              rest.Expands root sourcePath 0 false (content.included.reverse ++ file ::
                includedFiles)

end

/-! ## Expansion -/

variable {files : FileSystem} {lexer : Text → Text → Except DiagnosticError (List Token)}
  {maximumIncludeDepth : Nat} {includeSearchPaths : List Text}

/-- A file is entered exactly if it has a tree of less than this height. -/
def EntersBelow (files : FileSystem) (lexer : Text → Text → Except DiagnosticError (List Token))
    (includeSearchPaths : List Text) (left : Nat)
    (enter : Directive → Text → List Text → Except DiagnosticError Loaded) : Prop :=
  ∀ directive file includedFiles loaded, enter directive file includedFiles = .ok loaded ↔
    ∃ content : Inclusion, (∃ source, files.contents file = some source ∧
      lexer source file = .ok content.tokens) ∧
      content.Expands files lexer includeSearchPaths false file 0 false includedFiles ∧
        content.height < left ∧
        loaded = (content.expansion [], content.included.reverse ++ includedFiles)

section

variable {left : Nat} {enter : Directive → Text → List Text → Except DiagnosticError Loaded}
  {root : Bool} {sourcePath : Text}

theorem directive_wellFormed {token pathToken next : Token} (htoken : token.type = .includeKeyword)
    (hpath : ¬ (pathToken.type ≠ .string ∨ pathToken.formattedString = false))
    (hnext : ¬ (next.type ≠ .newline ∧ next.type ≠ .endOfFile)) : Directive.WellFormed ⟨token,
    pathToken, next⟩ := by
  refine ⟨htoken, by simpa using hpath, ?_⟩
  by_contra hneither
  exact hnext (not_or.mp hneither)

theorem expandTokens_keep {token pathToken : Token} {rest : List Token} {braceDepth : Nat}
    {sawStart : Bool} {includedFiles : List Text} {expanded : List Token}
    (hstart : ¬ (root = false ∧ token.type = .startKeyword))
    (hinclude : ¬ (token.type = .includeKeyword ∧ braceDepth = 0)) :
    expandTokens files includeSearchPaths enter root sourcePath (token :: pathToken :: rest)
        braceDepth sawStart includedFiles expanded =
      expandTokens files includeSearchPaths enter root sourcePath (pathToken :: rest)
        (braceDepthAfter token braceDepth)
        (sawStartAfter token braceDepth sawStart) includedFiles (expanded ++ [token]) := by
  cases rest with
  | nil | cons next rest => rw [expandTokens, if_neg hstart, if_neg hinclude]

theorem expandTokens_directive {directive : Directive} (h : directive.WellFormed)
    {rest : List Token} {includedFiles : List Text} {expanded : List Token} :
    expandTokens files includeSearchPaths enter root sourcePath (directive.tokens ++ rest) 0 false
        includedFiles expanded =
      match resolveInclude files includeSearchPaths sourcePath directive.pathToken.text with
      | none =>
        .error ⟨directive.pathToken.location,
          "cannot resolve included source '".toList ++ directive.pathToken.text ++ "'".toList⟩
      | some canonicalName =>
        if canonicalName ∈ includedFiles then
          expandTokens files includeSearchPaths enter root sourcePath rest 0 false includedFiles
            (closeLine directive.token expanded)
        else (do
          let (included, includedFiles) ← enter directive canonicalName
            (canonicalName :: includedFiles)
          expandTokens files includeSearchPaths enter root sourcePath rest 0 false includedFiles
            (closeLine directive.token (expanded ++ included))) := by
  obtain ⟨token, pathToken, next⟩ := directive
  obtain ⟨htoken, ⟨hstring, hformatted⟩, hnext⟩ := h
  have hnotStart : ¬ (root = false ∧ token.type = .startKeyword) := by
    rintro ⟨_, hstart⟩
    cases htoken.symm.trans hstart
  have hpath : ¬ (pathToken.type ≠ .string ∨ pathToken.formattedString = false) := by
    simp only [not_or, not_not, Bool.not_eq_false]
    exact ⟨hstring, hformatted⟩
  have hends : ¬ (next.type ≠ .newline ∧ next.type ≠ .endOfFile) := fun hboth =>
    hnext.elim hboth.1 hboth.2
  show expandTokens files includeSearchPaths enter root sourcePath (token :: pathToken :: next ::
    rest) 0 false includedFiles expanded = _
  rw [expandTokens, if_neg hnotStart, if_pos ⟨htoken, rfl⟩, if_neg Bool.false_ne_true]
  exact (if_neg hpath).trans (if_neg hends)

theorem expandTokens_tree (henter : EntersBelow files lexer includeSearchPaths left enter)
    {tokens : List Token}
    {braceDepth : Nat} {sawStart : Bool} {includedFiles : List Text} {expanded : List Token}
    {loaded : Loaded}
    (h : expandTokens files includeSearchPaths enter root sourcePath tokens braceDepth sawStart
      includedFiles expanded =
      .ok loaded) :
    ∃ tree : Inclusion, tree.tokens = tokens ∧
      tree.Expands files lexer includeSearchPaths root sourcePath braceDepth sawStart includedFiles
        ∧
        tree.height ≤ left ∧ loaded = (tree.expansion expanded, tree.included.reverse ++
        includedFiles) := by
  fun_induction expandTokens files includeSearchPaths enter root sourcePath tokens braceDepth
    sawStart includedFiles expanded with
  | case1 => cases h
  | case2 => cases h
  | case3 => cases h
  | case4 => cases h
  | case5 => cases h
  | case6 => cases h
  | case7 token pathToken braceDepth sawStart includedFiles expanded _ hinclude hstart next rest
      hpath hnext file hresolve hmem ih =>
      -- the file has been included
      obtain ⟨tree, rfl, hexpands, hheight, hloaded⟩ := ih h
      have hdirective := directive_wellFormed hinclude.1 hpath hnext
      have hsaw : sawStart = false := Bool.eq_false_iff.mpr hstart
      rw [hinclude.2, hsaw] at hexpands
      exact ⟨.again ⟨token, pathToken, next⟩ file tree, rfl,
        ⟨hdirective, hinclude.2, hsaw, hresolve, hmem, hexpands⟩, hheight, hloaded⟩
  | case8 token pathToken braceDepth sawStart includedFiles expanded _ hinclude hstart next rest
      hpath hnext file hresolve hmem ih =>
      -- the file is entered
      obtain ⟨entered, hentered, h⟩ := bind_eq_ok.mp h
      obtain ⟨content, hsource, hcontent, hbelow, rfl⟩ := (henter _ _ _ _).mp hentered
      obtain ⟨tree, rfl, hexpands, hheight, hloaded⟩ := ih _ _ h
      have hdirective := directive_wellFormed hinclude.1 hpath hnext
      have hsaw : sawStart = false := Bool.eq_false_iff.mpr hstart
      rw [hinclude.2, hsaw] at hexpands
      refine ⟨.enter ⟨token, pathToken, next⟩ file content tree, rfl,
        ⟨hdirective, hinclude.2, hsaw, hresolve, hmem, hsource, hcontent, hexpands⟩,
          Nat.max_le.mpr ⟨hbelow, hheight⟩, ?_⟩
      rw [hloaded, Inclusion.expansion, Inclusion.included]
      simp
  | case9 token pathToken rest braceDepth sawStart includedFiles expanded hstart hinclude ih =>
    obtain ⟨tree, htokens, hexpands, hheight, hloaded⟩ := ih h
    refine ⟨.keep token tree, ?_, ⟨fun hroot htype => hstart ⟨hroot, htype⟩, hinclude, ?_,
      hexpands⟩, hheight, hloaded⟩
    · rw [Inclusion.tokens, htokens]
    · rw [htokens]
      exact List.cons_ne_nil _ _
  | case10 last braceDepth sawStart includedFiles expanded hlast =>
    refine ⟨.done last, rfl, ?_, Nat.zero_le _, (Except.ok.inj h).symm⟩
    rw [Inclusion.Expands]
    match last with
    | [] => exact Nat.zero_le _
    | [_] => exact Nat.le_refl _
    | token :: pathToken :: rest => exact (hlast token pathToken rest rfl).elim

theorem expandTokens_of_tree (henter : EntersBelow files lexer includeSearchPaths left enter)
    {tree : Inclusion}
    {braceDepth : Nat} {sawStart : Bool} {includedFiles : List Text} (expanded : List Token)
    (h : tree.Expands files lexer includeSearchPaths root sourcePath braceDepth sawStart
    includedFiles)
    (hheight : tree.height ≤ left) :
    expandTokens files includeSearchPaths enter root sourcePath tree.tokens braceDepth sawStart
      includedFiles expanded =
      .ok (tree.expansion expanded, tree.included.reverse ++ includedFiles) := by
  induction tree generalizing braceDepth sawStart includedFiles expanded with
  | done last =>
    rw [Inclusion.Expands] at h
    match last with
    | [] => rfl
    | [_] => rfl
    | _ :: _ :: _ => simp at h
  | keep token rest ih =>
    obtain ⟨hstart, hinclude, hmore, hrest⟩ := h
    obtain ⟨pathToken, more, htokens⟩ := List.exists_cons_of_ne_nil hmore
    have hexpanded := ih (expanded ++ [token]) hrest hheight
    have hkept : ¬ (root = false ∧ token.type = .startKeyword) := fun hboth =>
      hstart hboth.1 hboth.2
    rw [htokens] at hexpanded
    rw [Inclusion.tokens, htokens, expandTokens_keep hkept hinclude]
    exact hexpanded
  | again directive file rest ih =>
    obtain ⟨hdirective, rfl, rfl, hresolve, hmem, hrest⟩ := h
    have hexpanded := ih (closeLine directive.token expanded) hrest hheight
    rw [Inclusion.tokens, expandTokens_directive hdirective, hresolve]
    exact (if_pos hmem).trans hexpanded
  | enter directive file content rest _ ih =>
    obtain ⟨hdirective, rfl, rfl, hresolve, hmem, hsource, hcontent, hrest⟩ := h
    obtain ⟨hbelow, hrestHeight⟩ := Nat.max_le.mp hheight
    have hentered := (henter directive file (file :: includedFiles) _).mpr ⟨content, hsource,
      hcontent, hbelow, rfl⟩
    have hexpanded := ih (closeLine directive.token (expanded ++ content.expansion []))
      hrest hrestHeight
    rw [Inclusion.tokens, expandTokens_directive hdirective, hresolve]
    refine (if_neg hmem).trans ?_
    rw [hentered, ok_bind]
    dsimp only
    rw [hexpanded, Inclusion.included, Inclusion.expansion]
    simp

end

theorem enterFile_entersBelow (left : Nat) (includeChain : List Text) :
    EntersBelow files lexer includeSearchPaths left
      (enterFile files lexer maximumIncludeDepth includeSearchPaths left includeChain) := by
  induction left generalizing includeChain with
  | zero =>
    intro directive file includedFiles loaded
    constructor
    · intro h
      cases h
    · rintro ⟨content, _, _, hbelow, _⟩
      exact absurd hbelow (Nat.not_lt_zero _)
  | succ left ih =>
    intro directive file includedFiles loaded
    constructor
    · intro h
      rw [enterFile] at h
      cases hcontents : files.contents file with
      | none =>
        rw [hcontents] at h
        cases h
      | some source =>
        rw [hcontents] at h
        obtain ⟨tokens, htokens, h⟩ := bind_eq_ok.mp h
        obtain ⟨content, rfl, hexpands, hheight, hloaded⟩ := expandTokens_tree (ih _) h
        exact ⟨content, ⟨source, rfl, htokens⟩, hexpands, Nat.lt_succ_of_le hheight, hloaded⟩
    · rintro ⟨content, ⟨source, hsource, htokens⟩, hexpands, hbelow, rfl⟩
      rw [enterFile, hsource]
      dsimp only
      rw [htokens, ok_bind]
      exact expandTokens_of_tree (ih _) [] hexpands (Nat.le_of_lt_succ hbelow)

/-! ## Trees -/

namespace Inclusion

variable {root : Bool} {sourcePath : Text} {tree : Inclusion} {braceDepth : Nat} {sawStart : Bool}
  {includedFiles : List Text}

theorem Expands.included_nodup
    (h : tree.Expands files lexer includeSearchPaths root sourcePath braceDepth sawStart
    includedFiles) :
    tree.included.Nodup ∧ ∀ file ∈ tree.included, file ∉ includedFiles := by
  induction tree generalizing root sourcePath braceDepth sawStart includedFiles with
  | done last => exact ⟨List.nodup_nil, List.forall_mem_nil _⟩
  | keep token rest ih => exact ih h.2.2.2
  | again directive file rest ih => exact ih h.2.2.2.2.2
  | enter directive file content rest ihContent ihRest =>
    obtain ⟨_, _, _, _, hnew, _, hcontent, hrest⟩ := h
    obtain ⟨hcontentNodup, hcontentNew⟩ := ihContent hcontent
    obtain ⟨hrestNodup, hrestNew⟩ := ihRest hrest
    have hfile : file ∉ content.included ++ rest.included := by
      intro hmem
      rcases List.mem_append.mp hmem with hmem | hmem
      · exact hcontentNew file hmem List.mem_cons_self
      · exact hrestNew file hmem (List.mem_append_right _ List.mem_cons_self)
    have hdisjoint : ∀ first ∈ content.included, ∀ second ∈ rest.included, first ≠ second := by
      rintro first hmem second hmem' rfl
      exact hrestNew first hmem' (List.mem_append_left _ (List.mem_reverse.mpr hmem))
    refine ⟨List.nodup_cons.mpr ⟨hfile, List.nodup_append.mpr ⟨hcontentNodup, hrestNodup,
      hdisjoint⟩⟩, ?_⟩
    intro other hother hincluded
    rcases List.mem_cons.mp hother with rfl | hother
    · exact hnew hincluded
    rcases List.mem_append.mp hother with hmem | hmem
    · exact hcontentNew other hmem (List.mem_cons_of_mem _ hincluded)
    · exact hrestNew other hmem (List.mem_append_right _ (List.mem_cons_of_mem _ hincluded))

theorem tokens_keep_ne {token : Token} {rest other : Inclusion} {directive : Directive}
    (hinclude : ¬ (token.type = .includeKeyword ∧ braceDepth = 0))
    (hdirective : directive.WellFormed)
    (hdepth : braceDepth = 0) : (keep token rest).tokens ≠ directive.tokens ++ other.tokens := by
  intro htokens
  have htoken : token = directive.token := (List.cons.inj htokens).1
  exact hinclude ⟨htoken ▸ hdirective.token, hdepth⟩

theorem directive_inj {directive directive' : Directive} {rest rest' : List Token}
    (h : directive.tokens ++ rest = directive'.tokens ++ rest') : directive = directive' ∧
    rest = rest' := by
  obtain ⟨token, pathToken, next⟩ := directive
  obtain ⟨token', pathToken', next'⟩ := directive'
  simp only [Directive.tokens, List.cons_append, List.nil_append, List.cons.injEq] at h
  obtain ⟨rfl, rfl, rfl, hrest⟩ := h
  exact ⟨rfl, hrest⟩

theorem done_length {last : List Token}
    (h : (done last).Expands files lexer includeSearchPaths root sourcePath braceDepth sawStart
    includedFiles)
    {directive : Directive} {rest : List Token} : last ≠ directive.tokens ++ rest := by
  rintro rfl
  exact absurd h (by simp [Expands, Directive.tokens])

theorem Expands.unique
    (h : tree.Expands files lexer includeSearchPaths root sourcePath braceDepth sawStart
    includedFiles)
    {tree' : Inclusion}
    (h' : tree'.Expands files lexer includeSearchPaths root sourcePath braceDepth sawStart
    includedFiles)
    (htokens : tree.tokens = tree'.tokens) : tree = tree' := by
  -- the first token tells which step was taken, and the files read so far whether it entered
  induction tree generalizing tree' root sourcePath braceDepth sawStart includedFiles with
  | done last =>
    cases tree' with
    | done last' => exact congrArg done htokens
    | keep token' rest' =>
      obtain ⟨next, more, hmore⟩ := List.exists_cons_of_ne_nil h'.2.2.1
      rw [tokens, tokens, hmore] at htokens
      subst htokens
      exact absurd h (by simp [Expands])
    | again directive' file' rest' | enter directive' file' content' rest' =>
      exact absurd htokens (done_length h)
  | keep token rest ih =>
    obtain ⟨_, hinclude, hmore, hrest⟩ := h
    cases tree' with
    | done last' =>
      obtain ⟨next, more, hmore⟩ := List.exists_cons_of_ne_nil hmore
      rw [tokens, tokens, hmore] at htokens
      subst htokens
      exact absurd h' (by simp [Expands])
    | keep token' rest' =>
      obtain ⟨rfl, hsame⟩ := List.cons.inj htokens
      rw [ih hrest h'.2.2.2 hsame]
    | again directive' file' rest' | enter directive' file' content' rest' =>
      exact absurd htokens (tokens_keep_ne hinclude h'.1 h'.2.1)
  | again directive file rest ih =>
    obtain ⟨hdirective, hdepth, _, hresolve, hmem, hrest⟩ := h
    cases tree' with
    | done last' => exact absurd htokens.symm (done_length h')
    | keep token' rest' => exact absurd htokens.symm (tokens_keep_ne h'.2.1 hdirective hdepth)
    | again directive' file' rest' =>
      obtain ⟨_, _, _, hresolve', _, hrest'⟩ := h'
      obtain ⟨rfl, hsame⟩ := directive_inj htokens
      obtain rfl := Option.some.inj (hresolve.symm.trans hresolve')
      rw [ih hrest hrest' hsame]
    | enter directive' file' content' rest' =>
      obtain ⟨_, _, _, hresolve', hnew, _⟩ := h'
      obtain ⟨rfl, _⟩ := directive_inj htokens
      obtain rfl := Option.some.inj (hresolve.symm.trans hresolve')
      exact absurd hmem hnew
  | enter directive file content rest ihContent ihRest =>
    obtain ⟨hdirective, hdepth, _, hresolve, hnew, ⟨source, hsource, hlexed⟩, hcontent, hrest⟩ := h
    cases tree' with
    | done last' => exact absurd htokens.symm (done_length h')
    | keep token' rest' => exact absurd htokens.symm (tokens_keep_ne h'.2.1 hdirective hdepth)
    | again directive' file' rest' =>
      obtain ⟨_, _, _, hresolve', hmem, _⟩ := h'
      obtain ⟨rfl, _⟩ := directive_inj htokens
      obtain rfl := Option.some.inj (hresolve.symm.trans hresolve')
      exact absurd hmem hnew
    | enter directive' file' content' rest' =>
      obtain ⟨_, _, _, hresolve', _, ⟨source', hsource', hlexed'⟩, hcontent', hrest'⟩ := h'
      obtain ⟨rfl, hsame⟩ := directive_inj htokens
      obtain rfl := Option.some.inj (hresolve.symm.trans hresolve')
      obtain rfl := Option.some.inj (hsource.symm.trans hsource')
      obtain rfl := ihContent hcontent hcontent' (Except.ok.inj (hlexed.symm.trans hlexed'))
      rw [ihRest hrest hrest' hsame]

theorem closeLine_sublist (token : Token) (expanded : List Token) :
    expanded.Sublist (closeLine token expanded) := by
  unfold closeLine
  split
  · exact List.Sublist.refl _
  · exact List.sublist_append_left _ _

theorem contributed_sublist (tree : Inclusion) (before : List Token) :
    (before ++ tree.contributed).Sublist (tree.expansion before) := by
  induction tree generalizing before with
  | done last => simp [contributed, expansion]
  | keep token rest ih =>
    have hrest := ih (before ++ [token])
    rw [List.append_assoc] at hrest
    exact hrest
  | again directive file rest ih =>
    exact ((closeLine_sublist _ before).append_right _).trans (ih _)
  | enter directive file content rest ihContent ihRest =>
    have hcontent : content.contributed.Sublist (content.expansion []) := ihContent []
    have hrest := ihRest (closeLine directive.token (before ++ content.expansion []))
    have hbefore := (hcontent.append_left before).trans (closeLine_sublist directive.token _)
    rw [contributed, ← List.append_assoc]
    exact (hbefore.append_right _).trans hrest

theorem expansion_filter (tree : Inclusion) (before : List Token) :
    (tree.expansion before).filter (fun token => token.type ≠ .newline) =
      (before ++ tree.contributed).filter fun token => token.type ≠ .newline := by
  have hclose (token : Token) (expanded : List Token) :
      (closeLine token expanded).filter (fun token => token.type ≠ .newline) =
        expanded.filter fun token => token.type ≠ .newline := by
    unfold closeLine
    split
    · rfl
    · simp
  induction tree generalizing before with
  | done last => simp [contributed, expansion]
  | keep token rest ih =>
    rw [expansion, ih, contributed, List.append_assoc]
    rfl
  | again directive file rest ih =>
    rw [expansion, ih, List.filter_append, hclose, ← List.filter_append, contributed]
  | enter directive file content rest ihContent ihRest =>
    rw [expansion, ihRest, List.filter_append, hclose, List.filter_append, ihContent,
      List.nil_append, contributed,
      List.filter_append, List.filter_append, List.append_assoc]

end Inclusion

/-! ## The law -/

/-- The tree of a source. -/
structure Inclusion.IsOf (files : FileSystem)
    (lexer : Text → Text → Except DiagnosticError (List Token))
    (includeSearchPaths : List Text) (root : Bool) (source sourcePath : Text)
    (includedFiles : List Text)
    (tree : Inclusion) : Prop where
  lexed : lexer source sourcePath = .ok tree.tokens
  expands : tree.Expands files lexer includeSearchPaths root sourcePath 0 false includedFiles

theorem tokenizeWithIncludes_eq_ok {source sourcePath : Text} {includedFiles : List Text}
    {depth : Nat} {root : Bool} {includeChain : List Text} {loaded : Loaded} :
    tokenizeWithIncludes files lexer maximumIncludeDepth includeSearchPaths source sourcePath
        includedFiles depth root includeChain = .ok loaded ↔
      ∃ tree : Inclusion, tree.IsOf files lexer includeSearchPaths root source sourcePath
        includedFiles ∧
        tree.height ≤ maximumIncludeDepth - depth ∧
          loaded = (tree.expansion [], tree.included.reverse ++ includedFiles) := by
  unfold tokenizeWithIncludes
  constructor
  · intro h
    obtain ⟨tokens, hlexed, h⟩ := bind_eq_ok.mp h
    obtain ⟨tree, rfl, hexpands, hheight, hloaded⟩ :=
      expandTokens_tree (enterFile_entersBelow _ _) h
    exact ⟨tree, ⟨hlexed, hexpands⟩, hheight, hloaded⟩
  · rintro ⟨tree, ⟨hlexed, hexpands⟩, hheight, rfl⟩
    refine bind_eq_ok.mpr ⟨tree.tokens, hlexed, ?_⟩
    exact expandTokens_of_tree (enterFile_entersBelow _ _) [] hexpands hheight

def tokenAt (type : TokenType) (text : String) (line column : Nat) : Token :=
  ⟨type, text.toList, ⟨"m.cw".toList, line, column⟩, type = .string⟩

/-- `class C {`, then `include "x.cw"` and the closing brace on lines of their own. -/
def includeInClass : List Token :=
  [tokenAt .classKeyword "class" 1 1, tokenAt .identifier "C" 1 7, tokenAt .leftBrace "\x7b" 1 9,
    tokenAt .newline "\n" 1 10, tokenAt .includeKeyword "include" 2 1, tokenAt .string "x.cw" 2 9,
    tokenAt .newline "\n" 2 15, tokenAt .rightBrace "\x7d" 3 1, tokenAt .endOfFile "" 3 2]

/-- `include "x.cw"` -/
def includeOnly : List Token :=
  [tokenAt .includeKeyword "include" 1 1, tokenAt .string "x.cw" 1 9, tokenAt .endOfFile "" 1 15]

/-- `start {}` -/
def startOnly : List Token :=
  [tokenAt .startKeyword "start" 1 1, tokenAt .leftBrace "\x7b" 1 7, tokenAt .rightBrace "\x7d" 1 8,
    tokenAt .endOfFile "" 1 9]

end Cwhip.Parser
