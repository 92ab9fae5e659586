/-
  Cwhip.Semantic.DefiniteInit

  What the analyzer's initialization flags are worth.

  The flags follow the rules of definite assignment (`Lang.Assignment`) except
  at `finally`: the block is analyzed from the state after the body and the
  handlers have completed (`SemanticStatements.cpp`, case Try), but it is also
  entered where they have not.  Where it would be accepted from the state
  before the `try` as well, no variable is read without a value.
-/

import Cwhip.Semantic.Growth

namespace Cwhip.Semantic

open Cwhip.Lang Cwhip.Lib

variable {φ : Type} {st st' : State}

/-! ## The condition -/

mutual

/-- Every `finally` block is also accepted from the state before its `try`. -/
def finallyAcceptedEarly (pos : Position φ) (st : State) : Source → Bool
  | .next first rest =>
    finallyAcceptedEarly pos st first &&
      match analyze pos st first with
      | .ok r => finallyAcceptedEarly pos r.2 rest
      | .error _ => true
  | .block body => finallyAcceptedEarly pos st.push body
  | .ifElse _ body hasAlternate alternate =>
    finallyAcceptedEarly pos st.push body &&
      match analyze pos st.push body with
      | .ok r =>
        !hasAlternate || finallyAcceptedEarly pos (r.2.pop.restore st.flags).push alternate
      | .error _ => true
  | .whileLoop _ body | .doWhile body _ =>
    finallyAcceptedEarly { pos with loopDepth := pos.loopDepth + 1 } st.push body
  | .forEach _ key value body =>
    finallyAcceptedEarly { pos with loopDepth := pos.loopDepth + 1 }
      ((st.push.bind false key).2.declare ⟨value, true, false⟩) body
  | .tryCatch _ body handlers hasCleanup cleanup =>
    finallyAcceptedEarly pos st.push body &&
      match analyze pos st.push body with
      | .ok b =>
        handlersAcceptedEarly pos st.flags b.2.pop handlers &&
          match analyzeHandlers pos st.flags b.2.pop b.2.flags handlers with
          | .ok h =>
            !hasCleanup ||
              (let inFinally := { pos with finallyDepth := pos.finallyDepth + 1 }
              let merged := (h.2.1.restore h.2.2).push
              let early := (h.2.1.restore st.flags).push
              finallyAcceptedEarly inFinally merged cleanup &&
                (finallyAcceptedEarly inFinally early cleanup &&
                  (analyze inFinally early cleanup).isOk))
          | .error _ => true
      | .error _ => true
  | _ => true

def handlersAcceptedEarly (pos : Position φ) (before : List Bool) (st : State) :
    Handlers String String → Bool
  | .none => true
  | .except _ binding body rest =>
    let inHandler := { pos with exceptionHandlerDepth := pos.exceptionHandlerDepth + 1 }
    let bound := ((st.restore before).push.bind true binding).2
    finallyAcceptedEarly inHandler bound body &&
      match analyze inHandler bound body with
      | .ok r => handlersAcceptedEarly pos before r.2.pop rest
      | .error _ => true

end

/-! ## Expressions and simple statements -/

variable {members : Members φ} {index : Nat}

variable {name : String} {reference : Reference φ}

theorem resolve_symbol {scopes : List Scope} (h : resolve members scopes name = .ok reference)
    (hindex : reference.symbol = some index) : Visible scopes index := by
  rw [resolve] at h
  cases hfind : findSymbolIndex scopes name with
  | some i =>
    rw [hfind] at h
    obtain rfl := Except.ok.inj h
    obtain rfl := Option.some.inj hindex
    exact visible_of_findSymbolIndex hfind
  | none =>
    rw [hfind] at h
    dsimp only at h
    split at h
    · obtain rfl := Except.ok.inj h
      cases hindex
    · split at h
      · obtain rfl := Except.ok.inj h
        cases hindex
      · cases h

theorem valued_of_initialized (h : resolve members st.scopes name = .ok reference)
    (hinit : Initialized st.symbols reference.resolution)
    (hindex : reference.symbol = some index) : index ∈ st.valued := by
  refine ⟨resolve_symbol h hindex, ?_⟩
  rw [Reference.symbol] at hindex
  split at hindex
  · rename_i i heq
    obtain rfl := Option.some.inj hindex
    rw [heq] at hinit
    obtain ⟨symbol, hsymbol, hflag⟩ := hinit
    rw [State.flags, initializationState, List.getElem?_map, hsymbol, Option.map_some, hflag]
  · cases hindex

theorem analyzeExpression_valued {e : Expression String} {e' : Expression (Reference φ)}
    (h : analyzeExpression members st e = .ok e') :
    Covered (δ := Local) Reference.symbol Local.index st.valued (readSteps e'.reads) := by
  rw [covered_readSteps]
  induction e generalizing e' with
  | literal =>
    cases h
    exact fun _ hname => (nomatch hname)
  | identifier name =>
    simp only [analyzeExpression, bind_eq_ok, pure_eq_ok, ensure_eq_ok] at h
    obtain ⟨reference, hresolve, _, hinit, rfl⟩ := h
    rw [Expression.reads, List.forall_mem_singleton]
    exact fun index hindex => valued_of_initialized hresolve hinit hindex
  | operation left right ihl ihr =>
    simp only [analyzeExpression, bind_eq_ok, pure_eq_ok] at h
    obtain ⟨left', hleft, right', hright, rfl⟩ := h
    rw [Expression.reads, List.forall_mem_append]
    exact ⟨ihl hleft, ihr hright⟩

theorem analyzeOptional_valued {e : Option (Expression String)}
    {e' : Option (Expression (Reference φ))} (h : analyzeOptional members st e = .ok e') :
    Covered (δ := Local) Reference.symbol Local.index st.valued
      (readSteps (optionalReads e')) := by
  cases e with
  | none =>
    cases h
    exact trivial
  | some e =>
    simp only [analyzeOptional, bind_eq_ok, pure_eq_ok] at h
    obtain ⟨e', he, rfl⟩ := h
    exact analyzeExpression_valued he

theorem valued_assign (reference : Reference φ) :
    (st.assign reference).valued
      ⊆ (Event.assign (δ := Local) reference).effect Reference.symbol Local.index st.valued := by
  rw [State.assign, Event.effect, Reference.symbol]
  cases reference.resolution with
  | symbol index =>
    rintro other ⟨hvisible, hflag⟩
    exact (markInitialized_flag hflag).imp id fun hflag => ⟨hvisible, hflag⟩
  | field f | constant => exact fun _ h => h

theorem valued_declare (hwf : st.WellFormed) {symbol : SymbolInfo} :
    index ∈ (st.declare symbol).valued
      ↔ (index = st.symbols.length ∧ symbol.initialized = true) ∨ index ∈ st.valued := by
  have hflags : (st.declare symbol).flags = st.flags ++ [symbol.initialized] := by
    simp [State.declare, State.flags, initializationState]
  show Visible _ index ∧ _ ↔ _ ∨ (Visible st.scopes index ∧ _)
  rw [visible_declare hwf, hflags]
  constructor
  · rintro ⟨hindex, hflag⟩
    rcases hindex with rfl | hvisible
    · rw [List.getElem?_append_right (by rw [flags_length]), flags_length, Nat.sub_self] at hflag
      exact .inl ⟨rfl, Option.some.inj hflag⟩
    · rw [List.getElem?_append_left (by
        rw [flags_length]
        exact hwf.bounded index hvisible)] at hflag
      exact .inr ⟨hvisible, hflag⟩
  · rintro (⟨rfl, hinit⟩ | ⟨hvisible, hflag⟩)
    · refine ⟨.inl rfl, ?_⟩
      rw [List.getElem?_append_right (by rw [flags_length]), flags_length, Nat.sub_self, hinit]
      rfl
    · refine ⟨.inr hvisible, ?_⟩
      rw [List.getElem?_append_left (by
        rw [flags_length]
        exact hwf.bounded index hvisible)]
      exact hflag

theorem analyzeCaptures_valued {captures : List String} {r : List (Reference φ) × State}
    (h : analyzeCaptures members captures st = .ok r) {V : Set Nat} (hV : st.valued ⊆ V) :
    Covered (δ := Local) Reference.symbol Local.index V (r.1.map .assign) ∧
      r.2.valued ⊆ valuedAfter (δ := Local) Reference.symbol Local.index V (r.1.map .assign) := by
  induction captures generalizing st r V with
  | nil =>
    cases h
    exact ⟨trivial, hV⟩
  | cons name names ih =>
    simp only [analyzeCaptures, bind_eq_ok, pure_eq_ok] at h
    obtain ⟨reference, _, _, _, rest, hrest, rfl⟩ := h
    obtain ⟨hcovered, hvalued⟩ := ih hrest
      ((valued_assign reference).trans (Event.effect_mono hV (.assign reference)))
    exact ⟨⟨by rintro _ _ ⟨⟩, hcovered⟩, hvalued⟩

theorem valued_declare_without (hwf : st.WellFormed) (name : String) :
    (st.declare ⟨name, false, false⟩).valued ⊆ st.valued \ {st.symbols.length} := by
  intro index hindex
  rw [valued_declare hwf] at hindex
  rcases hindex with ⟨-, h⟩ | hindex
  · cases h
  · refine ⟨hindex, ?_⟩
    rintro rfl
    exact Nat.lt_irrefl _ (hwf.bounded _ hindex.1)

theorem valued_markInitialized (index : Nat) :
    (st.markInitialized index).valued ⊆ insert index st.valued :=
  fun _ hother => (markInitialized_flag hother.2).imp id fun hflag => ⟨hother.1, hflag⟩

theorem analyzeSimple_assigns {s : Simple String String} {r : Simple (Reference φ) Local × State}
    (hwf : st.WellFormed) (h : analyzeSimple members st s = .ok r) :
    Assigns Reference.symbol Local.index st.valued (.simple r.1) r.2.valued := by
  match s with
  | .declaration name initializer =>
    simp only [analyzeSimple, bind_eq_ok, pure_eq_ok, ensure_eq_ok] at h
    obtain ⟨_, _, initializer', hinit, rfl⟩ := h
    have hdeclared := valued_declare_without hwf name
    cases initializer' with
    | none => exact .simple ⟨by rintro _ _ ⟨⟩, trivial⟩ hdeclared
    | some e =>
      have hreads := (analyzeOptional_valued hinit).mono hdeclared
      refine .simple ⟨by rintro _ _ ⟨⟩, ?_⟩ ?_
      · rw [covered_append]
        exact ⟨hreads, by rintro _ _ ⟨⟩, trivial⟩
      · show _ ⊆ valuedAfter _ _ (_ \ _) (readSteps e.reads ++ [Event.define _])
        rw [valuedAfter_append, valuedAfter_readSteps]
        exact (valued_markInitialized _).trans (Set.insert_subset_insert hdeclared)
  | .assignment (.variable name) compound value =>
    simp only [analyzeSimple, bind_eq_ok, pure_eq_ok, ensure_eq_ok] at h
    obtain ⟨reference, hresolve, _, _, _, hread, _, _, value', hvalue, rfl⟩ := h
    have hvalued := analyzeExpression_valued hvalue
    have htarget : Covered (δ := Local) Reference.symbol Local.index st.valued
        (readSteps (if compound then [reference] else [])) := by
      cases compound with
      | false => exact trivial
      | true =>
        rw [covered_readSteps, if_pos rfl, List.forall_mem_singleton]
        exact fun index hindex => valued_of_initialized hresolve (hread rfl) hindex
    have hsteps : (Simple.assignment (δ := Local) (.variable reference) compound value').steps
        = readSteps (if compound then [reference] else []) ++
          (readSteps value'.reads ++ [.assign reference]) := by
      cases compound <;> simp [Simple.steps, readSteps]
    refine .simple ?_ ?_
    · rw [hsteps, covered_append, covered_append, valuedAfter_readSteps, valuedAfter_readSteps]
      exact ⟨htarget, hvalued, by rintro _ _ ⟨⟩, trivial⟩
    · rw [hsteps, valuedAfter_append, valuedAfter_append, valuedAfter_readSteps,
        valuedAfter_readSteps]
      exact valued_assign reference
  | .assignment (.place evaluated) compound value =>
    simp only [analyzeSimple, bind_eq_ok, pure_eq_ok] at h
    obtain ⟨evaluated', hevaluated, value', hvalue, rfl⟩ := h
    refine .simple ?_ ?_
    · rw [Simple.steps, covered_append, valuedAfter_readSteps]
      exact ⟨analyzeExpression_valued hevaluated, analyzeExpression_valued hvalue⟩
    · rw [Simple.steps, valuedAfter_append, valuedAfter_readSteps, valuedAfter_readSteps]
  | .evaluate expression =>
    simp only [analyzeSimple, bind_eq_ok, pure_eq_ok] at h
    obtain ⟨expression', hexpression, rfl⟩ := h
    refine .simple (analyzeExpression_valued hexpression) ?_
    rw [Simple.steps, valuedAfter_readSteps]
  | .inlineC captures =>
    simp only [analyzeSimple, bind_eq_ok, pure_eq_ok, ensure_eq_ok] at h
    obtain ⟨_, _, captures', hcaptures, rfl⟩ := h
    obtain ⟨hcovered, hvalued⟩ := analyzeCaptures_valued hcaptures (Set.Subset.refl _)
    exact .simple hcovered hvalued

/-! ## Statements -/

theorem valued_pop_subset : st.pop.valued ⊆ st.valued := by
  rintro index ⟨⟨scope, hscope, hname⟩, hflag⟩
  exact ⟨⟨scope, List.mem_of_mem_tail hscope, hname⟩, hflag⟩

theorem valued_restore (hwf : st.WellFormed) (hscopes : st'.scopes = st.scopes)
    (hsymbols : st.symbols.length ≤ st'.symbols.length) :
    (st'.restore st.flags).valued = st.valued := by
  ext index
  show Visible st'.scopes index ∧ _ ↔ Visible st.scopes index ∧ _
  rw [hscopes]
  refine and_congr_right fun hvisible => ?_
  rw [restore_flag (by rwa [flags_length]) (by
    rw [flags_length]
    exact hwf.bounded index hvisible)]

theorem mem_of_restored {flags : List Bool} (h : index ∈ (st.restore flags).valued)
    (hflags : flags.length ≤ st.symbols.length)
    (hindex : index < flags.length) : flags[index]? = some true := by
  have hflag := h.2
  rwa [restore_flag hflags hindex] at hflag

theorem valued_bind (hwf : st.WellFormed) (readOnly : Bool) (name : Option String) :
    (st.bind readOnly name).2.valued
      = valuedAfter (ρ := Reference φ) Reference.symbol Local.index st.valued
          (bindSteps (st.bind readOnly name).1.toList) := by
  cases name with
  | none => rfl
  | some name =>
    ext index
    show index ∈ (st.declare ⟨name, true, readOnly⟩).valued ↔ index ∈ insert _ st.valued
    rw [valued_declare hwf, Set.mem_insert_iff]
    simp

theorem mem_valued_of_push (hgrows : Grows st.push st') (hvisible : Visible st.scopes index)
    (hflag : st'.flags[index]? = some true) :
    index ∈ st'.valued := by
  refine valued_pop_subset ⟨?_, hflag⟩
  rwa [hgrows.pop_scopes]

mutual

/-- The analyzer's flags are definite assignment, where it would accept the
    `finally` blocks early. -/
theorem analyze_assigns {s : Source} {pos : Position φ} {st : State} {r : Analyzed φ × State}
    (hwf : st.WellFormed) (h : analyze pos st s = .ok r)
    (hearly : finallyAcceptedEarly pos st s = true) :
    Assigns Reference.symbol Local.index st.valued r.1 r.2.valued := by
  match s with
  | .skip =>
    cases h
    exact .skip
  | .next first rest =>
    simp only [analyze, bind_eq_ok, pure_eq_ok] at h
    obtain ⟨r₁, h₁, r₂, h₂, rfl⟩ := h
    rw [finallyAcceptedEarly, h₁, Bool.and_eq_true] at hearly
    have hgrows := analyze_grows hwf h₁
    exact .next (analyze_assigns hwf h₁ hearly.1)
      (analyze_assigns hgrows.wellFormed h₂ hearly.2)
  | .simple s =>
    simp only [analyze, bind_eq_ok, pure_eq_ok] at h
    obtain ⟨r₁, h₁, rfl⟩ := h
    exact analyzeSimple_assigns hwf h₁
  | .block body =>
    simp only [analyze, bind_eq_ok, pure_eq_ok] at h
    obtain ⟨r₁, h₁, rfl⟩ := h
    rw [finallyAcceptedEarly] at hearly
    have hbody := analyze_assigns hwf.push h₁ hearly
    rw [valued_push] at hbody
    exact .block hbody valued_pop_subset
  | .ifElse condition body false alternate =>
    simp only [analyze, bind_eq_ok, pure_eq_ok] at h
    obtain ⟨_, hcondition, r₁, h₁, rfl⟩ := h
    rw [finallyAcceptedEarly, h₁, Bool.and_eq_true] at hearly
    have hgrows := analyze_grows hwf.push h₁
    have hbody := analyze_assigns hwf.push h₁ hearly.1
    rw [valued_push] at hbody
    rw [valued_restore hwf hgrows.pop_scopes hgrows.symbols]
    have hdeclared := analyze_declared hwf.push h₁
    exact .ifThen (analyzeExpression_valued hcondition) hbody (hwf.fresh hdeclared)
  | .ifElse condition body true alternate =>
    simp only [analyze, bind_eq_ok, pure_eq_ok] at h
    obtain ⟨_, hcondition, r₁, h₁, r₂, h₂, rfl⟩ := h
    rw [finallyAcceptedEarly, h₁, Bool.and_eq_true] at hearly
    have hgrows := analyze_grows hwf.push h₁
    have hwf₁ := (hgrows.pop hwf).wellFormed.restore st.flags
    have hgrows' := analyze_grows hwf₁.push h₂
    have hbody := analyze_assigns hwf.push h₁ hearly.1
    have halternate := analyze_assigns hwf₁.push h₂ hearly.2
    rw [valued_push] at hbody
    rw [valued_push, valued_restore hwf hgrows.pop_scopes hgrows.symbols] at halternate
    -- A symbol in scope after the `if` is flagged where both branches flagged it.
    have hboth : ∀ index ∈ (r₂.2.pop.restore
        ((r₁.2.flags.zipWith (· && ·) r₂.2.flags).take st.flags.length)).valued,
        index ∈ r₁.2.valued ∧ index ∈ r₂.2.valued := by
      intro index hindex
      have hscopes : r₂.2.pop.scopes = st.scopes := hgrows'.pop_scopes.trans hgrows.pop_scopes
      have hvisible : Visible st.scopes index := hscopes ▸ hindex.1
      have hsymbols : st.symbols.length ≤ r₁.2.symbols.length := hgrows.symbols
      have hsymbols' : r₁.2.symbols.length ≤ r₂.2.symbols.length := by
        have := hgrows'.symbols
        simpa using this
      have hlength : ((r₁.2.flags.zipWith (· && ·) r₂.2.flags).take st.flags.length).length
          = st.symbols.length := by
        rw [List.length_take, List.length_zipWith, flags_length, flags_length, flags_length]
        omega
      have hbound := hwf.bounded index hvisible
      have hflag := mem_of_restored hindex (by rw [hlength]; exact hsymbols.trans hsymbols')
        (by rwa [hlength])
      rw [List.getElem?_take_of_lt (by rwa [flags_length])] at hflag
      obtain ⟨hthen, helse⟩ := zipWith_and_eq_true hflag
      refine ⟨mem_valued_of_push hgrows hvisible hthen, ?_⟩
      refine mem_valued_of_push hgrows' ?_ helse
      rwa [restore_scopes, hgrows.pop_scopes]
    exact .ifElse (analyzeExpression_valued hcondition) hbody halternate
      (fun index hindex => (hboth index hindex).1) (fun index hindex => (hboth index hindex).2)
  | .whileLoop condition body =>
    simp only [analyze, bind_eq_ok, pure_eq_ok] at h
    obtain ⟨_, hcondition, r₁, h₁, rfl⟩ := h
    rw [finallyAcceptedEarly] at hearly
    have hgrows := analyze_grows hwf.push h₁
    have hbody := analyze_assigns hwf.push h₁ hearly
    rw [valued_push] at hbody
    rw [valued_restore hwf hgrows.pop_scopes hgrows.symbols]
    have hdeclared := analyze_declared hwf.push h₁
    exact .whileLoop (analyzeExpression_valued hcondition) hbody (hwf.fresh hdeclared)
  | .doWhile body condition =>
    simp only [analyze, bind_eq_ok, pure_eq_ok] at h
    obtain ⟨_, hcondition, r₁, h₁, rfl⟩ := h
    rw [finallyAcceptedEarly] at hearly
    have hgrows := analyze_grows hwf.push h₁
    have hbody := analyze_assigns hwf.push h₁ hearly
    rw [valued_push] at hbody
    rw [valued_restore hwf hgrows.pop_scopes hgrows.symbols]
    have hdeclared := analyze_declared hwf.push h₁
    exact .doWhile (analyzeExpression_valued hcondition) hbody (hwf.fresh hdeclared)
  | .forEach collection key value body =>
    simp only [analyze, bind_eq_ok, pure_eq_ok, ensure_eq_ok] at h
    obtain ⟨_, hcollection, _, _, r₁, h₁, rfl⟩ := h
    rw [finallyAcceptedEarly] at hearly
    have hkey := grows_bind hwf.push false key
    have hvalue := hkey.trans (grows_declare hkey.wellFormed ⟨value, true, false⟩)
    have hgrows := hvalue.trans (analyze_grows hvalue.wellFormed h₁)
    have hbody := analyze_assigns hvalue.wellFormed h₁ hearly
    have hbound := valued_bind (φ := φ) hkey.wellFormed false (some value)
    have hbound' := valued_bind (φ := φ) hwf.push false key
    rw [valued_push] at hbound'
    rw [hbound'] at hbound
    rw [show ((st.push.bind false key).2.declare ⟨value, true, false⟩).valued = _ from hbound]
      at hbody
    rw [valued_restore hwf hgrows.pop_scopes hgrows.symbols]
    rw [← valuedAfter_append, bindSteps, bindSteps, ← List.map_append] at hbody
    exact .forEach (analyzeExpression_valued hcollection) hbody
      (hwf.fresh fun name hname => Nat.le_trans hvalue.symbols
        (analyze_declared hvalue.wellFormed h₁ name hname))
  | .breakLoop =>
    simp only [analyze, bind_eq_ok, pure_eq_ok, ensure_eq_ok] at h
    obtain ⟨_, _, rfl⟩ := h
    exact .breakLoop
  | .continueLoop =>
    simp only [analyze, bind_eq_ok, pure_eq_ok, ensure_eq_ok] at h
    obtain ⟨_, _, rfl⟩ := h
    exact .continueLoop
  | .returnValue value =>
    simp only [analyze, bind_eq_ok, pure_eq_ok, ensure_eq_ok, require_eq_ok] at h
    obtain ⟨_, _, _, _, _, _, _, hvalue, rfl⟩ := h
    exact .returnValue (analyzeOptional_valued hvalue)
  | .raise exception =>
    simp only [analyze, bind_eq_ok, pure_eq_ok, ensure_eq_ok] at h
    obtain ⟨_, _, _, hexception, rfl⟩ := h
    exact .raise (analyzeOptional_valued hexception)
  | .tryCatch location body handlers hasCleanup cleanup =>
    simp only [analyze, bind_eq_ok] at h
    obtain ⟨_, _, r₁, h₁, r₂, h₂, h₃⟩ := h
    rw [finallyAcceptedEarly, h₁, Bool.and_eq_true] at hearly
    obtain ⟨hearly₁, hearly⟩ := hearly
    dsimp only at hearly
    rw [h₂, Bool.and_eq_true] at hearly
    obtain ⟨hearly₂, hearly₃⟩ := hearly
    have hgrows := analyze_grows hwf.push h₁
    have hwf₁ := (hgrows.pop hwf).wellFormed
    have hgrows₂ := analyzeHandlers_grows hwf₁ h₂
    have hsymbols : st.symbols.length ≤ r₂.2.1.symbols.length :=
      Nat.le_trans hgrows.symbols hgrows₂.symbols
    have hbody := analyze_assigns hwf.push h₁ hearly₁
    rw [valued_push] at hbody
    obtain ⟨hscopes, hlength, hmerged, hhandlers⟩ :=
      analyzeHandlers_assigns hwf hwf₁ hgrows.pop_scopes hgrows.symbols
        (Nat.le_of_eq flags_length) h₂ hearly₂
    -- The merged state, and what it says about the symbols in scope.
    have hsubset : ∀ index ∈ (r₂.2.1.restore r₂.2.2).valued,
        Visible st.scopes index ∧ r₂.2.2[index]? = some true := by
      intro index hindex
      have hvisible : Visible st.scopes index := hscopes ▸ hindex.1
      refine ⟨hvisible, mem_of_restored hindex ?_ ?_⟩
      · rw [hlength, flags_length]
        exact hgrows₂.symbols
      · rw [hlength, flags_length]
        exact Nat.lt_of_lt_of_le (hwf.bounded index hvisible) hgrows.symbols
    have hfirst : (r₂.2.1.restore r₂.2.2).valued ⊆ r₁.2.valued := by
      intro index hindex
      obtain ⟨hvisible, hflag⟩ := hsubset index hindex
      exact mem_valued_of_push hgrows hvisible (hmerged index hflag)
    have hwf₂ := hgrows₂.wellFormed.restore r₂.2.2
    choose! after hafter hall using hhandlers
    have hdeclared := analyze_declared hwf.push h₁
    have hrule : ∀ {V₃ V' V'' : Set Nat} {hasCleanup : Bool} {closing : Analyzed φ},
        Assigns Reference.symbol Local.index (r₂.2.1.restore r₂.2.2).valued
          (whenPresent hasCleanup closing) V₃ → V' ⊆ V₃ →
        Assigns Reference.symbol Local.index st.valued (whenPresent hasCleanup closing) V'' →
        Assigns Reference.symbol Local.index st.valued
          (.tryCatch location r₁.1 r₂.1 hasCleanup closing) V' :=
      .tryCatch hbody (hwf.fresh hdeclared) hafter
        (hwf.fresh fun name hname => Nat.le_trans hgrows.symbols
          (analyzeHandlers_declared hwf₁ h₂ name hname)) hfirst
        (fun c hc index hindex =>
          hall c hc index (hsubset index hindex).1 (hsubset index hindex).2)
    cases hasCleanup with
    | false =>
      cases h₃
      exact hrule .skip (Set.Subset.refl _) .skip
    | true =>
      simp only [bind_eq_ok, pure_eq_ok] at h₃
      obtain ⟨r₃, h₃, rfl⟩ := h₃
      dsimp only at hearly₃
      rw [Bool.not_true, Bool.false_or, Bool.and_eq_true, Bool.and_eq_true] at hearly₃
      obtain ⟨hclosing, hclosing', haccepted⟩ := hearly₃
      have hnormal := analyze_assigns hwf₂.push h₃ hclosing
      rw [valued_push] at hnormal
      -- Accepted early, the `finally` block has the same tree.
      obtain ⟨r₄, h₄⟩ := exists_ok_of_isOk haccepted
      have hwf₄ := hgrows₂.wellFormed.restore st.flags
      have hpartial := analyze_assigns hwf₄.push h₄ hclosing'
      rw [valued_push, valued_restore hwf hscopes hsymbols,
        (analyze_tree ((Same.refl r₂.2.1).restore _ _).push h₄ h₃).1] at hpartial
      exact hrule hnormal valued_pop_subset hpartial

theorem analyzeHandlers_assigns {handlers : Handlers String String} {pos : Position φ}
    {st st₁ : State} {merged : List Bool} {r : Handlers (Reference φ) Local × State × List Bool}
    (hwf : st.WellFormed) (hwf₁ : st₁.WellFormed) (hscopes : st₁.scopes = st.scopes)
    (hsymbols : st.symbols.length ≤ st₁.symbols.length)
    (hlength : merged.length ≤ st₁.symbols.length)
    (h : analyzeHandlers pos st.flags st₁ merged handlers = .ok r)
    (hearly : handlersAcceptedEarly pos st.flags st₁ handlers = true) :
    r.2.1.scopes = st.scopes ∧ r.2.2.length = merged.length ∧
      (∀ index : Nat, r.2.2[index]? = some true → merged[index]? = some true) ∧
      ∀ c ∈ r.1.clauses, ∃ W,
        Assigns Reference.symbol Local.index (valuedAfter (ρ := Reference φ) Reference.symbol
          Local.index st.valued (bindSteps c.1.toList)) c.2 W ∧
        ∀ index, Visible st.scopes index → r.2.2[index]? = some true → index ∈ W := by
  match handlers with
  | .none =>
    cases h
    exact ⟨hscopes, rfl, fun _ h => h, fun _ hc => (nomatch hc)⟩
  | .except exceptionType binding body rest =>
    simp only [analyzeHandlers, bind_eq_ok, pure_eq_ok] at h
    obtain ⟨r₁, h₁, r₂, h₂, rfl⟩ := h
    rw [handlersAcceptedEarly, Bool.and_eq_true] at hearly
    obtain ⟨hearly₁, hearly₂⟩ := hearly
    rw [h₁] at hearly₂
    have hwf₂ := hwf₁.restore st.flags
    have hbound := grows_bind hwf₂.push true binding
    have hgrows := hbound.trans (analyze_grows hbound.wellFormed h₁)
    have hpop := hgrows.pop_scopes.trans hscopes
    have hsymbols' : st₁.symbols.length ≤ r₁.2.symbols.length := by
      have hle := hgrows.symbols
      rwa [push_symbols, restore_symbols_length] at hle
    have hzip : (merged.zipWith (· && ·) r₁.2.flags).length = merged.length := by
      rw [List.length_zipWith, flags_length]
      exact Nat.min_eq_left (hlength.trans hsymbols')
    obtain ⟨hscopes', hlength', hmerged, hrest⟩ :=
      analyzeHandlers_assigns hwf (hgrows.pop hwf₂).wellFormed hpop (hsymbols.trans hsymbols')
        (by rw [hzip]; exact hlength.trans hsymbols') h₂ hearly₂
    have hbody := analyze_assigns hbound.wellFormed h₁ hearly₁
    rw [valued_bind (φ := φ) hwf₂.push, valued_push, valued_restore hwf hscopes hsymbols]
      at hbody
    refine ⟨hscopes', hlength'.trans hzip,
      fun index hflag => (zipWith_and_eq_true (hmerged index hflag)).1, ?_⟩
    rw [Handlers.clauses, List.forall_mem_cons]
    refine ⟨⟨_, hbody, fun index hvisible hflag => ?_⟩, hrest⟩
    exact mem_valued_of_push hgrows (by rwa [restore_scopes, hscopes])
      (zipWith_and_eq_true (hmerged index hflag)).2

end

/-! ## Bodies -/

theorem declareParameters_wellFormed {names : List String} (hwf : st.WellFormed)
    (h : declareParameters names st = .ok st') : st'.WellFormed := by
  induction names generalizing st with
  | nil =>
    cases h
    exact hwf
  | cons name names ih =>
    simp only [declareParameters, bind_eq_ok] at h
    obtain ⟨_, _, h⟩ := h
    exact ih (grows_declare hwf _).wellFormed h

theorem Body.entry_wellFormed {b : Body} {symbols : List SymbolInfo}
    (h : b.entry symbols = .ok st) : st.WellFormed :=
  declareParameters_wellFormed ⟨List.cons_ne_nil _ _, fun _ hvisible => by
    obtain ⟨scope, hscope, name, hname⟩ := hvisible
    rw [List.mem_singleton] at hscope
    subst hscope
    cases hname⟩ h

/-- The parameters: what is in scope where a body starts. -/
def State.parameters (entry : State) : Set Nat := {index | Visible entry.scopes index}

/-- No run reads a local before an initializer or assignment gave it a value on
    that run. -/
def ReadsInitialized (parameters : Set Nat) (s : Analyzed φ) : Prop :=
  ∀ t o, Runs s t o → ∀ before name after index, t = before ++ .read name :: after →
    name.symbol = some index →
    index ∈ valuedAfter Reference.symbol Local.index parameters before

/-- In a body whose `finally` blocks are also accepted from the state before
    their `try`, no local is read before it has a value. -/
theorem accepted_reads_initialized {b : Body} {members : Members φ}
    {isSubclassOf : String → String → Bool} {symbols : List SymbolInfo} {entry : State}
    {r : Analyzed φ × State} (hentry : b.entry symbols = .ok entry)
    (h : b.analyze members isSubclassOf symbols = .ok r)
    (hearly : finallyAcceptedEarly (.start members isSubclassOf b.currentMethod) entry
      b.statements = true) :
    ReadsInitialized entry.parameters r.1 := by
  intro t o hrun before name after index ht hindex
  have hanalyze : analyze (.start members isSubclassOf b.currentMethod) entry b.statements
      = .ok r := by
    simp only [Body.analyze, bind_eq_ok] at h
    obtain ⟨entry', hentry', h⟩ := h
    rw [hentry] at hentry'
    rwa [Except.ok.inj hentry']
  have hassigns := analyze_assigns (Body.entry_wellFormed hentry) hanalyze hearly
  have hcovered := (hrun.covered hassigns (I := entry.parameters) fun _ h => h.1).1
  rw [ht] at hcovered
  exact hcovered.read hindex

/-! ## A `finally` block that is entered early -/

/-- A class without members. -/
def noMembers : Members Unit := ⟨fun _ => none, fun _ => false⟩

/-- `int x = 1; try { f() } finally { print(x) }` -/
def initializedBefore : Body where
  parameters := []
  currentMethod := none
  statements :=
    .next (.simple (.declaration "x" (some .literal)))
      (.next (.tryCatch 1 (.next (.simple (.evaluate .literal)) .skip) .none true
        (.next (.simple (.evaluate (.identifier "x"))) .skip)) .skip)

/-- `int x; try { f(); x = 1 } finally { print(x) }` -/
def initializedInside : Body where
  parameters := []
  currentMethod := none
  statements :=
    .next (.simple (.declaration "x" none))
      (.next (.tryCatch 1
        (.next (.simple (.evaluate .literal))
          (.next (.simple (.assignment (.variable "x") false .literal)) .skip)) .none true
        (.next (.simple (.evaluate (.identifier "x"))) .skip)) .skip)

/-- The tree of `initializedBefore`. -/
def initializedBeforeTree : Analyzed Unit :=
  .next (.simple (.declaration ⟨"x", 0⟩ (some .literal)))
    (.next (.tryCatch 1 (.next (.simple (.evaluate .literal)) .skip) .none true
      (.next (.simple (.evaluate (.identifier ⟨"x", .symbol 0⟩))) .skip)) .skip)

/-- The tree of `initializedInside`. -/
def initializedInsideTree : Analyzed Unit :=
  .next (.simple (.declaration ⟨"x", 0⟩ none))
    (.next (.tryCatch 1
      (.next (.simple (.evaluate .literal))
        (.next (.simple (.assignment (.variable ⟨"x", .symbol 0⟩) false .literal)) .skip))
      .none true (.next (.simple (.evaluate (.identifier ⟨"x", .symbol 0⟩))) .skip)) .skip)

theorem accepted_reads_initialized_before :
    ReadsInitialized (State.parameters ⟨[[]], []⟩) initializedBeforeTree :=
  @accepted_reads_initialized Unit initializedBefore noMembers (fun _ _ => false) [] _
    (initializedBeforeTree, _) rfl rfl (by decide)

/-- `f()` throws: `print(x)` reads a local that no assignment reached. -/
theorem finally_reads_uninitialized : ¬ ∀ (b : Body) (members : Members Unit)
    (isSubclassOf : String → String → Bool) (symbols : List SymbolInfo) (entry : State)
    (r : Analyzed Unit × State), b.entry symbols = .ok entry →
    b.analyze members isSubclassOf symbols = .ok r → ReadsInitialized entry.parameters r.1 := by
  intro h
  have hdeclare : Runs (.simple (.declaration (ρ := Reference Unit) (⟨"x", 0⟩ : Local) none))
      [.declare ⟨"x", 0⟩] .normal := .simple (.step .done)
  have hprint : Runs (δ := Local)
      (.simple (.evaluate (.identifier (⟨"x", .symbol 0⟩ : Reference Unit))))
      [.read ⟨"x", .symbol 0⟩] .normal := .simple (.step .done)
  have hthrows : Runs (.simple (.evaluate (δ := Local) (.literal (ρ := Reference Unit))))
      [] .thrown := .simple .throws
  have hclosing : Runs (whenPresent true (.next (.simple (.evaluate (.identifier
      (⟨"x", .symbol 0⟩ : Reference Unit)))) .skip)) [.read ⟨"x", .symbol 0⟩] .normal :=
    .next hprint .skip
  have hrun : Runs initializedInsideTree
      [.declare ⟨"x", 0⟩, .cleanup 1, .read ⟨"x", .symbol 0⟩] .thrown :=
    .next hdeclare (.nextLeaves
      (.tryUnmatched (.nextLeaves hthrows Outcome.noConfusion) rfl hclosing)
      Outcome.noConfusion)
  have hvalued := h initializedInside noMembers (fun _ _ => false) [] ⟨[[]], []⟩
    (initializedInsideTree, _) rfl rfl _ _ hrun [.declare ⟨"x", 0⟩, .cleanup 1] _ [] 0 rfl rfl
  exact hvalued.2 rfl

end Cwhip.Semantic
