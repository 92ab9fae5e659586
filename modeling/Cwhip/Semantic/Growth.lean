/-
  Cwhip.Semantic.Growth

  What analyzing a statement does to the state: it adds symbols and names in
  the innermost scope, numbers its declarations from the new symbols, and
  builds a tree that does not depend on the initialization flags.
-/

import Cwhip.Lang.Assignment
import Cwhip.Semantic.Analyzer

namespace Cwhip.Semantic

open Cwhip.Lang Cwhip.Lib

variable {φ : Type} {pos : Position φ} {st st' : State}

/-- The symbol a name stands for. -/
def Reference.symbol (reference : Reference φ) : Option Nat :=
  match reference.resolution with
  | .symbol index => some index
  | _ => none

/-- A declaration of the symbol is in scope. -/
def Visible (scopes : List Scope) (index : Nat) : Prop :=
  ∃ scope ∈ scopes, ∃ name, (name, index) ∈ scope

/-- The symbols in scope that are flagged as initialized. -/
def State.valued (st : State) : Set Nat :=
  {index | Visible st.scopes index ∧ st.flags[index]? = some true}

/-- The names in scope stand for symbols. -/
structure State.WellFormed (st : State) : Prop where
  nonempty : st.scopes ≠ []
  bounded : ∀ index, Visible st.scopes index → index < st.symbols.length

/-! ## Flags -/

variable {flags : List Bool} {index : Nat} {members : Members φ}

@[simp] theorem push_symbols : st.push.symbols = st.symbols := rfl
@[simp] theorem pop_symbols : st.pop.symbols = st.symbols := rfl
@[simp] theorem push_flags : st.push.flags = st.flags := rfl
@[simp] theorem pop_flags : st.pop.flags = st.flags := rfl
@[simp] theorem restore_scopes : (st.restore flags).scopes = st.scopes := rfl
@[simp] theorem markInitialized_scopes :
    (st.markInitialized index).scopes = st.scopes := rfl

theorem flags_length : st.flags.length = st.symbols.length := List.length_map _

theorem restoreInitializationState_length (flags : List Bool) (symbols : List SymbolInfo) :
    (restoreInitializationState flags symbols).length = symbols.length := by
  induction symbols generalizing flags with
  | nil => cases flags <;> rfl
  | cons symbol symbols ih =>
    cases flags with
    | nil => rfl
    | cons flag flags => exact congrArg (· + 1) (ih flags)

@[simp] theorem restore_symbols_length :
    (st.restore flags).symbols.length = st.symbols.length :=
  restoreInitializationState_length flags st.symbols

theorem restore_flags (h : flags.length ≤ st.symbols.length) :
    (st.restore flags).flags = flags ++ st.flags.drop flags.length := by
  obtain ⟨scopes, symbols⟩ := st
  show initializationState (restoreInitializationState flags symbols)
    = flags ++ (initializationState symbols).drop flags.length
  induction symbols generalizing flags with
  | nil =>
    obtain rfl := List.length_eq_zero_iff.mp (Nat.le_zero.mp h)
    rfl
  | cons symbol symbols ih =>
    cases flags with
    | nil => rfl
    | cons flag flags => exact congrArg (flag :: ·) (ih (Nat.le_of_succ_le_succ h))

/-- Restoring gives a symbol known at the time the flag it had. -/
theorem restore_flag (h : flags.length ≤ st.symbols.length)
    (hindex : index < flags.length) : (st.restore flags).flags[index]? = flags[index]? := by
  rw [restore_flags h, List.getElem?_append_left hindex]

theorem setInitialized_length (index : Nat) (symbols : List SymbolInfo) :
    (setInitialized index symbols).length = symbols.length := by
  induction symbols generalizing index with
  | nil => cases index <;> rfl
  | cons symbol symbols ih =>
    cases index with
    | zero => rfl
    | succ index => exact congrArg (· + 1) (ih index)

@[simp] theorem markInitialized_symbols_length :
    (st.markInitialized index).symbols.length = st.symbols.length :=
  setInitialized_length index st.symbols

/-- Only the assigned symbol can become initialized. -/
theorem markInitialized_flag {other : Nat}
    (h : (st.markInitialized index).flags[other]? = some true) :
    other = index ∨ st.flags[other]? = some true := by
  obtain ⟨scopes, symbols⟩ := st
  change (initializationState (setInitialized index symbols))[other]? = some true at h
  show other = index ∨ (initializationState symbols)[other]? = some true
  induction symbols generalizing index other with
  | nil =>
    cases index <;> simp [setInitialized, initializationState] at h
  | cons symbol symbols ih =>
    cases index with
    | zero =>
      cases other with
      | zero => exact .inl rfl
      | succ other => exact .inr h
    | succ index =>
      cases other with
      | zero => exact .inr h
      | succ other => exact (ih h).imp (congrArg (· + 1)) id

theorem zipWith_and_eq_true {a b : List Bool} (h : (a.zipWith (· && ·) b)[index]? = some true) :
    a[index]? = some true ∧ b[index]? = some true := by
  rw [List.getElem?_zipWith] at h
  cases ha : a[index]? with
  | none => simp [ha] at h
  | some x =>
    cases hb : b[index]? with
    | none => simp [ha, hb] at h
    | some y => simpa [ha, hb] using h

/-! ## Scopes -/

variable {scopes : List Scope} {st₃ : State} {s : Simple String String}
  {r : Simple (Reference φ) Local × State}

theorem visible_cons {scope : Scope} :
    Visible (scope :: scopes) index ↔ (∃ name, (name, index) ∈ scope) ∨ Visible scopes index := by
  simp [Visible]

theorem visible_push : Visible st.push.scopes index ↔ Visible st.scopes index := by
  rw [State.push, visible_cons]
  simp

theorem valued_push : st.push.valued = st.valued := by
  ext index
  exact and_congr_left' visible_push

theorem visible_of_findSymbolIndex {name : String}
    (h : findSymbolIndex scopes name = some index) : Visible scopes index := by
  induction scopes with
  | nil => cases h
  | cons scope scopes ih =>
    rw [findSymbolIndex] at h
    rw [visible_cons]
    cases hlookup : scope.lookup name with
    | none =>
      rw [hlookup] at h
      exact .inr (ih h)
    | some i =>
      rw [hlookup] at h
      obtain rfl := Option.some.inj h
      refine .inl ⟨name, ?_⟩
      rw [List.lookup_eq_some_iff] at hlookup
      obtain ⟨before, after, rfl, _⟩ := hlookup
      exact List.mem_append_right _ List.mem_cons_self

/-- A declaration adds its own symbol to what is visible and hides none. -/
theorem visible_declare (hwf : st.WellFormed) {symbol : SymbolInfo} :
    Visible (st.declare symbol).scopes index
      ↔ index = st.symbols.length ∨ Visible st.scopes index := by
  rw [State.declare]
  match hscopes : st.scopes with
  | [] => exact absurd hscopes hwf.nonempty
  | scope :: scopes =>
    rw [visible_cons, visible_cons]
    simp only [List.mem_cons, Prod.mk.injEq]
    constructor
    · rintro (⟨name, ⟨-, h⟩ | h⟩ | h)
      · exact .inl h
      · exact .inr (.inl ⟨name, h⟩)
      · exact .inr (.inr h)
    · rintro (h | ⟨name, h⟩ | h)
      · exact .inl ⟨symbol.name, .inl ⟨rfl, h⟩⟩
      · exact .inl ⟨name, .inr h⟩
      · exact .inr h

/-! ## What a statement does to the state -/

/-- New symbols and new names in the innermost scope, nothing else. -/
structure Grows (st st' : State) : Prop where
  wellFormed : st'.WellFormed
  tail : st'.scopes.tail = st.scopes.tail
  symbols : st.symbols.length ≤ st'.symbols.length

theorem Grows.refl (h : st.WellFormed) : Grows st st := ⟨h, rfl, Nat.le_refl _⟩

/-- Growth composes along a sequence of statements. -/
theorem Grows.trans {st₁ st₂ : State} (h : Grows st₁ st₂) (h' : Grows st₂ st₃) :
    Grows st₁ st₃ :=
  ⟨h'.wellFormed, h'.tail.trans h.tail, Nat.le_trans h.symbols h'.symbols⟩

theorem State.WellFormed.push (h : st.WellFormed) : st.push.WellFormed :=
  ⟨List.cons_ne_nil _ _, fun index hindex => h.bounded index (visible_push.mp hindex)⟩

theorem Grows.pop_scopes (h : Grows st.push st') : st'.pop.scopes = st.scopes := h.tail

/-- What a block declares is gone at its end. -/
theorem Grows.pop (hwf : st.WellFormed) (h : Grows st.push st') : Grows st st'.pop := by
  refine ⟨⟨?_, fun index hindex => ?_⟩, ?_, h.symbols⟩
  · rw [h.pop_scopes]
    exact hwf.nonempty
  · rw [h.pop_scopes] at hindex
    exact Nat.lt_of_lt_of_le (hwf.bounded index hindex) h.symbols
  · rw [h.pop_scopes]

theorem State.WellFormed.restore (h : st.WellFormed) (flags : List Bool) :
    (st.restore flags).WellFormed := by
  refine ⟨h.nonempty, fun index hindex => ?_⟩
  rw [restore_symbols_length]
  exact h.bounded index hindex

theorem Grows.restore (h : Grows st st') (flags : List Bool) : Grows st (st'.restore flags) := by
  refine ⟨h.wellFormed.restore flags, h.tail, ?_⟩
  rw [restore_symbols_length]
  exact h.symbols

theorem grows_declare (h : st.WellFormed) (symbol : SymbolInfo) : Grows st (st.declare symbol) := by
  have hlength : (st.declare symbol).symbols.length = st.symbols.length + 1 := by
    simp [State.declare]
  refine ⟨⟨?_, fun index hindex => ?_⟩, ?_, by omega⟩
  · rw [State.declare]
    cases st.scopes <;> exact List.cons_ne_nil _ _
  · rw [visible_declare h] at hindex
    rcases hindex with rfl | hindex
    · omega
    · exact Nat.lt_of_lt_of_le (h.bounded index hindex) (by omega)
  · obtain ⟨scopes, symbols⟩ := st
    cases scopes with
    | nil => exact absurd rfl h.nonempty
    | cons scope scopes => rfl

theorem grows_markInitialized (h : st.WellFormed) (index : Nat) :
    Grows st (st.markInitialized index) := by
  refine ⟨⟨h.nonempty, fun other hother => ?_⟩, rfl, ?_⟩
  · rw [markInitialized_symbols_length]
    exact h.bounded other hother
  · rw [markInitialized_symbols_length]

theorem grows_assign (h : st.WellFormed) (reference : Reference φ) :
    Grows st (st.assign reference) := by
  rw [State.assign]
  cases reference.resolution with
  | symbol index => exact grows_markInitialized h index
  | field f | constant => exact .refl h

theorem grows_bind (h : st.WellFormed) (readOnly : Bool) (name : Option String) :
    Grows st (st.bind readOnly name).2 := by
  cases name with
  | none => exact .refl h
  | some name => exact grows_declare h _

theorem analyzeCaptures_grows {captures : List String} {r : List (Reference φ) × State}
    (hwf : st.WellFormed) (h : analyzeCaptures members captures st = .ok r) : Grows st r.2 := by
  induction captures generalizing st r with
  | nil =>
    cases h
    exact .refl hwf
  | cons name names ih =>
    simp only [analyzeCaptures, bind_eq_ok, pure_eq_ok, ensure_eq_ok] at h
    obtain ⟨reference, _, _, _, rest, hrest, rfl⟩ := h
    have hassign := grows_assign hwf reference
    have hnames := ih hassign.wellFormed hrest
    exact hassign.trans hnames

/-- A simple statement declares and initializes, and changes no scope around it. -/
theorem analyzeSimple_grows (hwf : st.WellFormed)
    (h : analyzeSimple members st s = .ok r) : Grows st r.2 := by
  match s with
  | .declaration name initializer =>
    simp only [analyzeSimple, bind_eq_ok, pure_eq_ok, ensure_eq_ok] at h
    obtain ⟨_, _, initializer', _, rfl⟩ := h
    have hdeclare := grows_declare hwf ⟨name, false, false⟩
    cases initializer' with
    | none => exact hdeclare
    | some e => exact hdeclare.trans (grows_markInitialized hdeclare.wellFormed _)
  | .assignment (.variable name) compound value =>
    simp only [analyzeSimple, bind_eq_ok, pure_eq_ok, ensure_eq_ok] at h
    obtain ⟨reference, _, _, _, _, _, _, _, value', _, rfl⟩ := h
    exact grows_assign hwf reference
  | .assignment (.place evaluated) compound value =>
    simp only [analyzeSimple, bind_eq_ok, pure_eq_ok] at h
    obtain ⟨_, _, _, _, rfl⟩ := h
    exact .refl hwf
  | .evaluate expression =>
    simp only [analyzeSimple, bind_eq_ok, pure_eq_ok] at h
    obtain ⟨_, _, rfl⟩ := h
    exact .refl hwf
  | .inlineC captures =>
    simp only [analyzeSimple, bind_eq_ok, pure_eq_ok, ensure_eq_ok] at h
    obtain ⟨_, _, captures', hcaptures, rfl⟩ := h
    exact analyzeCaptures_grows hwf hcaptures

mutual

/-- Analyzing keeps the state well formed and all symbols there were. -/
theorem analyze_grows {s : Source} {pos : Position φ} {st : State} {r : Analyzed φ × State}
    (hwf : st.WellFormed) (h : analyze pos st s = .ok r) : Grows st r.2 := by
  match s with
  | .skip =>
    cases h
    exact .refl hwf
  | .next first rest =>
    simp only [analyze, bind_eq_ok, pure_eq_ok] at h
    obtain ⟨r₁, h₁, r₂, h₂, rfl⟩ := h
    have hfirst := analyze_grows hwf h₁
    have hrest := analyze_grows hfirst.wellFormed h₂
    exact hfirst.trans hrest
  | .simple s =>
    simp only [analyze, bind_eq_ok, pure_eq_ok] at h
    obtain ⟨r₁, h₁, rfl⟩ := h
    exact analyzeSimple_grows hwf h₁
  | .block body =>
    simp only [analyze, bind_eq_ok, pure_eq_ok] at h
    obtain ⟨r₁, h₁, rfl⟩ := h
    exact (analyze_grows hwf.push h₁).pop hwf
  | .ifElse condition body false alternate =>
    simp only [analyze, bind_eq_ok, pure_eq_ok] at h
    obtain ⟨_, _, r₁, h₁, rfl⟩ := h
    exact ((analyze_grows hwf.push h₁).pop hwf).restore _
  | .ifElse condition body true alternate =>
    simp only [analyze, bind_eq_ok, pure_eq_ok] at h
    obtain ⟨_, _, r₁, h₁, r₂, h₂, rfl⟩ := h
    have hbody := ((analyze_grows hwf.push h₁).pop hwf).restore st.flags
    have halternate := (analyze_grows hbody.wellFormed.push h₂).pop hbody.wellFormed
    exact (hbody.trans halternate).restore _
  | .whileLoop condition body | .doWhile body condition =>
    simp only [analyze, bind_eq_ok, pure_eq_ok] at h
    obtain ⟨_, _, r₁, h₁, rfl⟩ := h
    exact ((analyze_grows hwf.push h₁).pop hwf).restore _
  | .forEach collection key value body =>
    simp only [analyze, bind_eq_ok, pure_eq_ok, ensure_eq_ok] at h
    obtain ⟨_, _, _, _, r₁, h₁, rfl⟩ := h
    have hkey := grows_bind hwf.push false key
    have hvalue := hkey.trans (grows_declare hkey.wellFormed ⟨value, true, false⟩)
    exact ((hvalue.trans (analyze_grows hvalue.wellFormed h₁)).pop hwf).restore _
  | .breakLoop | .continueLoop =>
    simp only [analyze, bind_eq_ok, pure_eq_ok, ensure_eq_ok] at h
    obtain ⟨_, _, rfl⟩ := h
    exact .refl hwf
  | .returnValue value =>
    simp only [analyze, bind_eq_ok, pure_eq_ok, ensure_eq_ok, require_eq_ok] at h
    obtain ⟨_, _, _, _, _, _, _, _, rfl⟩ := h
    exact .refl hwf
  | .raise exception =>
    simp only [analyze, bind_eq_ok, pure_eq_ok, ensure_eq_ok] at h
    obtain ⟨_, _, _, _, rfl⟩ := h
    exact .refl hwf
  | .tryCatch location body handlers hasCleanup cleanup =>
    simp only [analyze, bind_eq_ok] at h
    obtain ⟨_, _, r₁, h₁, r₂, h₂, h₃⟩ := h
    have hbody := (analyze_grows hwf.push h₁).pop hwf
    have hhandlers := (hbody.trans (analyzeHandlers_grows hbody.wellFormed h₂)).restore r₂.2.2
    cases hasCleanup with
    | false =>
      cases h₃
      exact hhandlers
    | true =>
      simp only [bind_eq_ok, pure_eq_ok] at h₃
      obtain ⟨r₃, h₃, rfl⟩ := h₃
      exact hhandlers.trans
        ((analyze_grows hhandlers.wellFormed.push h₃).pop hhandlers.wellFormed)

theorem analyzeHandlers_grows {handlers : Handlers String String} {pos : Position φ} {st : State}
    {before merged : List Bool} {r : Handlers (Reference φ) Local × State × List Bool}
    (hwf : st.WellFormed) (h : analyzeHandlers pos before st merged handlers = .ok r) :
    Grows st r.2.1 := by
  match handlers with
  | .none =>
    cases h
    exact .refl hwf
  | .except exceptionType binding body rest =>
    simp only [analyzeHandlers, bind_eq_ok, pure_eq_ok] at h
    obtain ⟨r₁, h₁, r₂, h₂, rfl⟩ := h
    have hrestored := (Grows.refl hwf).restore before
    have hbound := grows_bind hrestored.wellFormed.push true binding
    have hbody := (hbound.trans (analyze_grows hbound.wellFormed h₁)).pop hrestored.wellFormed
    have hrest := analyzeHandlers_grows hbody.wellFormed h₂
    exact (hrestored.trans hbody).trans hrest

end

/-! ## What a statement declares -/

theorem analyzeSimple_declared (h : analyzeSimple members st s = .ok r) :
    ∀ name ∈ (Statement.simple r.1).declared, st.symbols.length ≤ name.index := by
  match s with
  | .declaration name initializer =>
    simp only [analyzeSimple, bind_eq_ok, pure_eq_ok, ensure_eq_ok] at h
    obtain ⟨_, _, initializer', _, rfl⟩ := h
    simp [Statement.declared]
  | .assignment (.variable name) compound value =>
    simp only [analyzeSimple, bind_eq_ok, pure_eq_ok, ensure_eq_ok] at h
    obtain ⟨reference, _, _, _, _, _, _, _, value', _, rfl⟩ := h
    simp [Statement.declared]
  | .assignment (.place evaluated) compound value =>
    simp only [analyzeSimple, bind_eq_ok, pure_eq_ok] at h
    obtain ⟨_, _, _, _, rfl⟩ := h
    simp [Statement.declared]
  | .evaluate expression =>
    simp only [analyzeSimple, bind_eq_ok, pure_eq_ok] at h
    obtain ⟨_, _, rfl⟩ := h
    simp [Statement.declared]
  | .inlineC captures =>
    simp only [analyzeSimple, bind_eq_ok, pure_eq_ok, ensure_eq_ok] at h
    obtain ⟨_, _, captures', _, rfl⟩ := h
    simp [Statement.declared]

mutual

/-- What a statement declares gets indexes no earlier symbol has. -/
theorem analyze_declared {s : Source} {pos : Position φ} {st : State} {r : Analyzed φ × State}
    (hwf : st.WellFormed) (h : analyze pos st s = .ok r) :
    ∀ name ∈ r.1.declared, st.symbols.length ≤ name.index := by
  match s with
  | .skip =>
    cases h
    simp [Statement.declared]
  | .next first rest =>
    simp only [analyze, bind_eq_ok, pure_eq_ok] at h
    obtain ⟨r₁, h₁, r₂, h₂, rfl⟩ := h
    have hgrows := analyze_grows hwf h₁
    have hfirst := analyze_declared hwf h₁
    have hrest := analyze_declared hgrows.wellFormed h₂
    rw [Statement.declared, List.forall_mem_append]
    exact ⟨hfirst, fun name hname => Nat.le_trans hgrows.symbols (hrest name hname)⟩
  | .simple s =>
    simp only [analyze, bind_eq_ok, pure_eq_ok] at h
    obtain ⟨r₁, h₁, rfl⟩ := h
    exact analyzeSimple_declared h₁
  | .block body =>
    simp only [analyze, bind_eq_ok, pure_eq_ok] at h
    obtain ⟨r₁, h₁, rfl⟩ := h
    have hbody := analyze_declared hwf.push h₁
    exact hbody
  | .ifElse condition body false alternate =>
    simp only [analyze, bind_eq_ok, pure_eq_ok] at h
    obtain ⟨_, _, r₁, h₁, rfl⟩ := h
    rw [Statement.declared, if_neg Bool.false_ne_true, List.append_nil]
    have hbody := analyze_declared hwf.push h₁
    exact hbody
  | .ifElse condition body true alternate =>
    simp only [analyze, bind_eq_ok, pure_eq_ok] at h
    obtain ⟨_, _, r₁, h₁, r₂, h₂, rfl⟩ := h
    have hgrows := ((analyze_grows hwf.push h₁).pop hwf).restore st.flags
    have hbody := analyze_declared hwf.push h₁
    have halternate := analyze_declared hgrows.wellFormed.push h₂
    rw [Statement.declared, if_pos rfl, List.forall_mem_append]
    exact ⟨hbody, fun name hname => Nat.le_trans hgrows.symbols (halternate name hname)⟩
  | .whileLoop condition body | .doWhile body condition =>
    simp only [analyze, bind_eq_ok, pure_eq_ok] at h
    obtain ⟨_, _, r₁, h₁, rfl⟩ := h
    have hbody := analyze_declared hwf.push h₁
    exact hbody
  | .forEach collection key value body =>
    simp only [analyze, bind_eq_ok, pure_eq_ok, ensure_eq_ok] at h
    obtain ⟨_, _, _, _, r₁, h₁, rfl⟩ := h
    have hkey := grows_bind hwf.push false key
    have hvalue := hkey.trans (grows_declare hkey.wellFormed ⟨value, true, false⟩)
    have hbody := analyze_declared hvalue.wellFormed h₁
    exact fun name hname => Nat.le_trans hvalue.symbols (hbody name hname)
  | .breakLoop | .continueLoop =>
    simp only [analyze, bind_eq_ok, pure_eq_ok, ensure_eq_ok] at h
    obtain ⟨_, _, rfl⟩ := h
    simp [Statement.declared]
  | .returnValue value =>
    simp only [analyze, bind_eq_ok, pure_eq_ok, ensure_eq_ok, require_eq_ok] at h
    obtain ⟨_, _, _, _, _, _, _, _, rfl⟩ := h
    simp [Statement.declared]
  | .raise exception =>
    simp only [analyze, bind_eq_ok, pure_eq_ok, ensure_eq_ok] at h
    obtain ⟨_, _, _, _, rfl⟩ := h
    simp [Statement.declared]
  | .tryCatch location body handlers hasCleanup cleanup =>
    simp only [analyze, bind_eq_ok] at h
    obtain ⟨_, _, r₁, h₁, r₂, h₂, h₃⟩ := h
    have hgrows := (analyze_grows hwf.push h₁).pop hwf
    have hbody := analyze_declared hwf.push h₁
    have hhandlers : ∀ name ∈ r₂.1.declared, st.symbols.length ≤ name.index :=
      fun name hname => Nat.le_trans hgrows.symbols
        (analyzeHandlers_declared hgrows.wellFormed h₂ name hname)
    cases hasCleanup with
    | false =>
      cases h₃
      rw [Statement.declared, if_neg Bool.false_ne_true, List.append_nil,
        List.forall_mem_append]
      exact ⟨hbody, hhandlers⟩
    | true =>
      simp only [bind_eq_ok, pure_eq_ok] at h₃
      obtain ⟨r₃, h₃, rfl⟩ := h₃
      have hmerged :=
        (hgrows.trans (analyzeHandlers_grows hgrows.wellFormed h₂)).restore r₂.2.2
      have hcleanup := analyze_declared hmerged.wellFormed.push h₃
      rw [Statement.declared, if_pos rfl, List.forall_mem_append, List.forall_mem_append]
      exact ⟨⟨hbody, hhandlers⟩,
        fun name hname => Nat.le_trans hmerged.symbols (hcleanup name hname)⟩

theorem analyzeHandlers_declared {handlers : Handlers String String} {pos : Position φ}
    {st : State} {before merged : List Bool}
    {r : Handlers (Reference φ) Local × State × List Bool}
    (hwf : st.WellFormed) (h : analyzeHandlers pos before st merged handlers = .ok r) :
    ∀ name ∈ r.1.declared, st.symbols.length ≤ name.index := by
  match handlers with
  | .none =>
    cases h
    simp [Handlers.declared]
  | .except exceptionType binding body rest =>
    simp only [analyzeHandlers, bind_eq_ok, pure_eq_ok] at h
    obtain ⟨r₁, h₁, r₂, h₂, rfl⟩ := h
    have hrestored := (Grows.refl hwf).restore before
    have hbound := grows_bind hrestored.wellFormed.push true binding
    have hgrows := hrestored.trans
      ((hbound.trans (analyze_grows hbound.wellFormed h₁)).pop hrestored.wellFormed)
    have hbody := analyze_declared hbound.wellFormed h₁
    have hrest := analyzeHandlers_declared hgrows.wellFormed h₂
    rw [Handlers.declared, List.forall_mem_append]
    constructor
    · exact fun name hname =>
        Nat.le_trans (Nat.le_trans hrestored.symbols hbound.symbols) (hbody name hname)
    · exact fun name hname => Nat.le_trans hgrows.symbols (hrest name hname)

end

/-- Fresh indexes belong to no variable that has a value. -/
theorem State.WellFormed.fresh (hwf : st.WellFormed) {names : List Local}
    (h : ∀ name ∈ names, st.symbols.length ≤ name.index) :
    Fresh Local.index st.valued names :=
  fun name hname hvalued => Nat.not_lt.mpr (h name hname) (hwf.bounded _ hvalued.1)

/-! ## The tree does not depend on the flags -/

/-- A symbol without its flag. -/
def SymbolInfo.erase (symbol : SymbolInfo) : String × Bool := (symbol.name, symbol.readOnly)

/-- Two states that differ in the flags only. -/
structure Same (st₁ st₂ : State) : Prop where
  scopes : st₁.scopes = st₂.scopes
  symbols : st₁.symbols.map SymbolInfo.erase = st₂.symbols.map SymbolInfo.erase

theorem Same.refl (st : State) : Same st st := ⟨rfl, rfl⟩

theorem Same.symm {st₁ st₂ : State} (h : Same st₁ st₂) : Same st₂ st₁ :=
  ⟨h.scopes.symm, h.symbols.symm⟩

theorem Same.trans {st₁ st₂ : State} (h : Same st₁ st₂) (h' : Same st₂ st₃) : Same st₁ st₃ :=
  ⟨h.scopes.trans h'.scopes, h.symbols.trans h'.symbols⟩

theorem same_restore (st : State) (flags : List Bool) : Same (st.restore flags) st := by
  refine ⟨rfl, ?_⟩
  obtain ⟨scopes, symbols⟩ := st
  show (restoreInitializationState flags symbols).map SymbolInfo.erase
    = symbols.map SymbolInfo.erase
  induction symbols generalizing flags with
  | nil => cases flags <;> rfl
  | cons symbol symbols ih =>
    cases flags with
    | nil => rfl
    | cons flag flags => exact congrArg (symbol.erase :: ·) (ih flags)

theorem same_markInitialized (st : State) (index : Nat) : Same (st.markInitialized index) st := by
  refine ⟨rfl, ?_⟩
  obtain ⟨scopes, symbols⟩ := st
  show (setInitialized index symbols).map SymbolInfo.erase = symbols.map SymbolInfo.erase
  induction symbols generalizing index with
  | nil => cases index <;> rfl
  | cons symbol symbols ih =>
    cases index with
    | zero => rfl
    | succ index => exact congrArg (symbol.erase :: ·) (ih index)

theorem same_assign (st : State) (reference : Reference φ) : Same (st.assign reference) st := by
  rw [State.assign]
  cases reference.resolution with
  | symbol index => exact same_markInitialized st index
  | field f | constant => exact .refl st

section

variable {st₁ st₂ : State}

theorem Same.length (h : Same st₁ st₂) : st₁.symbols.length = st₂.symbols.length := by
  rw [← List.length_map SymbolInfo.erase, h.symbols, List.length_map]

theorem Same.push (h : Same st₁ st₂) : Same st₁.push st₂.push :=
  ⟨congrArg ([] :: ·) h.scopes, h.symbols⟩

theorem Same.pop (h : Same st₁ st₂) : Same st₁.pop st₂.pop :=
  ⟨congrArg List.tail h.scopes, h.symbols⟩

theorem Same.restore (h : Same st₁ st₂) (flags₁ flags₂ : List Bool) :
    Same (st₁.restore flags₁) (st₂.restore flags₂) :=
  (same_restore st₁ flags₁).trans (h.trans (same_restore st₂ flags₂).symm)

theorem Same.declare (h : Same st₁ st₂) (symbol : SymbolInfo) :
    Same (st₁.declare symbol) (st₂.declare symbol) := by
  constructor
  · rw [State.declare, State.declare, h.scopes, h.length]
  · show (st₁.symbols ++ [symbol]).map _ = (st₂.symbols ++ [symbol]).map _
    rw [List.map_append, List.map_append, h.symbols]

theorem Same.bind (h : Same st₁ st₂) (readOnly : Bool) (name : Option String) :
    (st₁.bind readOnly name).1 = (st₂.bind readOnly name).1 ∧
      Same (st₁.bind readOnly name).2 (st₂.bind readOnly name).2 := by
  cases name with
  | none => exact ⟨rfl, h⟩
  | some name =>
    refine ⟨?_, h.declare _⟩
    rw [State.bind, State.bind, h.length]

variable {members : Members φ}

/-- The flags decide whether an expression is accepted, never its tree. -/
theorem analyzeExpression_tree {e : Expression String} {e₁ e₂ : Expression (Reference φ)}
    (hsame : st₁.scopes = st₂.scopes) (h₁ : analyzeExpression members st₁ e = .ok e₁)
    (h₂ : analyzeExpression members st₂ e = .ok e₂) : e₁ = e₂ := by
  induction e generalizing e₁ e₂ with
  | literal =>
    cases h₁
    cases h₂
    rfl
  | identifier name =>
    simp only [analyzeExpression, bind_eq_ok, pure_eq_ok] at h₁ h₂
    obtain ⟨reference₁, hr₁, _, _, rfl⟩ := h₁
    obtain ⟨reference₂, hr₂, _, _, rfl⟩ := h₂
    rw [hsame, hr₂] at hr₁
    rw [Except.ok.inj hr₁]
  | operation left right ihl ihr =>
    simp only [analyzeExpression, bind_eq_ok, pure_eq_ok] at h₁ h₂
    obtain ⟨left₁, hl₁, right₁, hr₁, rfl⟩ := h₁
    obtain ⟨left₂, hl₂, right₂, hr₂, rfl⟩ := h₂
    rw [ihl hl₁ hl₂, ihr hr₁ hr₂]

theorem analyzeOptional_tree {e : Option (Expression String)}
    {e₁ e₂ : Option (Expression (Reference φ))} (hsame : st₁.scopes = st₂.scopes)
    (h₁ : analyzeOptional members st₁ e = .ok e₁)
    (h₂ : analyzeOptional members st₂ e = .ok e₂) : e₁ = e₂ := by
  cases e with
  | none =>
    cases h₁
    cases h₂
    rfl
  | some e =>
    simp only [analyzeOptional, bind_eq_ok, pure_eq_ok] at h₁ h₂
    obtain ⟨_, h₁, rfl⟩ := h₁
    obtain ⟨_, h₂, rfl⟩ := h₂
    rw [analyzeExpression_tree hsame h₁ h₂]

theorem analyzeCaptures_tree {captures : List String} {r₁ r₂ : List (Reference φ) × State}
    (hsame : Same st₁ st₂) (h₁ : analyzeCaptures members captures st₁ = .ok r₁)
    (h₂ : analyzeCaptures members captures st₂ = .ok r₂) : r₁.1 = r₂.1 ∧ Same r₁.2 r₂.2 := by
  induction captures generalizing st₁ st₂ r₁ r₂ with
  | nil =>
    cases h₁
    cases h₂
    exact ⟨rfl, hsame⟩
  | cons name names ih =>
    simp only [analyzeCaptures, bind_eq_ok, pure_eq_ok] at h₁ h₂
    obtain ⟨reference, hr₁, _, _, rest₁, hn₁, rfl⟩ := h₁
    obtain ⟨reference', hr₂, _, _, rest₂, hn₂, rfl⟩ := h₂
    rw [hsame.scopes, hr₂] at hr₁
    obtain rfl := Except.ok.inj hr₁
    obtain ⟨htree, hstate⟩ := ih ((same_assign st₁ reference').trans
      (hsame.trans (same_assign st₂ reference').symm)) hn₁ hn₂
    exact ⟨congrArg (reference' :: ·) htree, hstate⟩

theorem analyzeSimple_tree {s : Simple String String} {r₁ r₂ : Simple (Reference φ) Local × State}
    (hsame : Same st₁ st₂) (h₁ : analyzeSimple members st₁ s = .ok r₁)
    (h₂ : analyzeSimple members st₂ s = .ok r₂) :
    r₁.1 = r₂.1 ∧ Same r₁.2 r₂.2 := by
  match s with
  | .declaration name initializer =>
    simp only [analyzeSimple, bind_eq_ok, pure_eq_ok] at h₁ h₂
    obtain ⟨_, _, initializer₁, hi₁, rfl⟩ := h₁
    obtain ⟨_, _, initializer₂, hi₂, rfl⟩ := h₂
    have hdeclared := hsame.declare ⟨name, false, false⟩
    obtain rfl := analyzeOptional_tree hdeclared.scopes hi₁ hi₂
    refine ⟨by rw [hsame.length], ?_⟩
    cases initializer₁ with
    | none => exact hdeclared
    | some e =>
      exact (same_markInitialized _ _).trans
        (hdeclared.trans (same_markInitialized _ _).symm)
  | .assignment (.variable name) compound value =>
    simp only [analyzeSimple, bind_eq_ok, pure_eq_ok] at h₁ h₂
    obtain ⟨reference₁, hr₁, _, _, _, _, _, _, value₁, hv₁, rfl⟩ := h₁
    obtain ⟨reference₂, hr₂, _, _, _, _, _, _, value₂, hv₂, rfl⟩ := h₂
    rw [hsame.scopes, hr₂] at hr₁
    obtain rfl := Except.ok.inj hr₁
    obtain rfl := analyzeExpression_tree hsame.scopes hv₁ hv₂
    exact ⟨rfl, (same_assign st₁ _).trans (hsame.trans (same_assign st₂ _).symm)⟩
  | .assignment (.place evaluated) compound value =>
    simp only [analyzeSimple, bind_eq_ok, pure_eq_ok] at h₁ h₂
    obtain ⟨evaluated₁, he₁, value₁, hv₁, rfl⟩ := h₁
    obtain ⟨evaluated₂, he₂, value₂, hv₂, rfl⟩ := h₂
    obtain rfl := analyzeExpression_tree hsame.scopes he₁ he₂
    obtain rfl := analyzeExpression_tree hsame.scopes hv₁ hv₂
    exact ⟨rfl, hsame⟩
  | .evaluate expression =>
    simp only [analyzeSimple, bind_eq_ok, pure_eq_ok] at h₁ h₂
    obtain ⟨e₁, he₁, rfl⟩ := h₁
    obtain ⟨e₂, he₂, rfl⟩ := h₂
    obtain rfl := analyzeExpression_tree hsame.scopes he₁ he₂
    exact ⟨rfl, hsame⟩
  | .inlineC captures =>
    simp only [analyzeSimple, bind_eq_ok, pure_eq_ok] at h₁ h₂
    obtain ⟨_, _, captures₁, hc₁, rfl⟩ := h₁
    obtain ⟨_, _, captures₂, hc₂, rfl⟩ := h₂
    obtain ⟨htree, hstate⟩ := analyzeCaptures_tree hsame hc₁ hc₂
    exact ⟨congrArg Simple.inlineC htree, hstate⟩

end

mutual

/-- Two states with the same scopes resolve a statement to the same tree. -/
theorem analyze_tree {s : Source} {pos : Position φ} {st₁ st₂ : State}
    {r₁ r₂ : Analyzed φ × State} (hsame : Same st₁ st₂) (h₁ : analyze pos st₁ s = .ok r₁)
    (h₂ : analyze pos st₂ s = .ok r₂) : r₁.1 = r₂.1 ∧ Same r₁.2 r₂.2 := by
  -- both runs walk one tree in one order; a scope that is pushed is popped again
  match s with
  | .skip =>
    cases h₁
    cases h₂
    exact ⟨rfl, hsame⟩
  | .next first rest =>
    simp only [analyze, bind_eq_ok, pure_eq_ok] at h₁ h₂
    obtain ⟨a₁, ha₁, b₁, hb₁, rfl⟩ := h₁
    obtain ⟨a₂, ha₂, b₂, hb₂, rfl⟩ := h₂
    obtain ⟨hfirst, hsame⟩ := analyze_tree hsame ha₁ ha₂
    obtain ⟨hrest, hsame⟩ := analyze_tree hsame hb₁ hb₂
    exact ⟨congrArg₂ Statement.next hfirst hrest, hsame⟩
  | .simple s =>
    simp only [analyze, bind_eq_ok, pure_eq_ok] at h₁ h₂
    obtain ⟨a₁, ha₁, rfl⟩ := h₁
    obtain ⟨a₂, ha₂, rfl⟩ := h₂
    obtain ⟨htree, hsame⟩ := analyzeSimple_tree hsame ha₁ ha₂
    exact ⟨congrArg Statement.simple htree, hsame⟩
  | .block body =>
    simp only [analyze, bind_eq_ok, pure_eq_ok] at h₁ h₂
    obtain ⟨a₁, ha₁, rfl⟩ := h₁
    obtain ⟨a₂, ha₂, rfl⟩ := h₂
    obtain ⟨htree, hsame⟩ := analyze_tree hsame.push ha₁ ha₂
    exact ⟨congrArg Statement.block htree, hsame.pop⟩
  | .ifElse condition body false alternate =>
    simp only [analyze, bind_eq_ok, pure_eq_ok] at h₁ h₂
    obtain ⟨c₁, hc₁, a₁, ha₁, rfl⟩ := h₁
    obtain ⟨c₂, hc₂, a₂, ha₂, rfl⟩ := h₂
    obtain rfl := analyzeExpression_tree hsame.scopes hc₁ hc₂
    obtain ⟨htree, hbody⟩ := analyze_tree hsame.push ha₁ ha₂
    exact ⟨by rw [htree], hbody.pop.restore _ _⟩
  | .ifElse condition body true alternate =>
    simp only [analyze, bind_eq_ok, pure_eq_ok] at h₁ h₂
    obtain ⟨c₁, hc₁, a₁, ha₁, b₁, hb₁, rfl⟩ := h₁
    obtain ⟨c₂, hc₂, a₂, ha₂, b₂, hb₂, rfl⟩ := h₂
    obtain rfl := analyzeExpression_tree hsame.scopes hc₁ hc₂
    obtain ⟨htree, hbody⟩ := analyze_tree hsame.push ha₁ ha₂
    obtain ⟨htree', halternate⟩ := analyze_tree (hbody.pop.restore _ _).push hb₁ hb₂
    exact ⟨by rw [htree, htree'], halternate.pop.restore _ _⟩
  | .whileLoop condition body | .doWhile body condition =>
    simp only [analyze, bind_eq_ok, pure_eq_ok] at h₁ h₂
    obtain ⟨c₁, hc₁, a₁, ha₁, rfl⟩ := h₁
    obtain ⟨c₂, hc₂, a₂, ha₂, rfl⟩ := h₂
    obtain rfl := analyzeExpression_tree hsame.scopes hc₁ hc₂
    obtain ⟨htree, hbody⟩ := analyze_tree hsame.push ha₁ ha₂
    exact ⟨by rw [htree], hbody.pop.restore _ _⟩
  | .forEach collection key value body =>
    simp only [analyze, bind_eq_ok, pure_eq_ok] at h₁ h₂
    obtain ⟨c₁, hc₁, _, _, a₁, ha₁, rfl⟩ := h₁
    obtain ⟨c₂, hc₂, _, _, a₂, ha₂, rfl⟩ := h₂
    obtain rfl := analyzeExpression_tree hsame.scopes hc₁ hc₂
    obtain ⟨hkey, hbound⟩ := hsame.push.bind false key
    obtain ⟨htree, hbody⟩ := analyze_tree (hbound.declare _) ha₁ ha₂
    exact ⟨by rw [htree, hkey, hbound.length], hbody.pop.restore _ _⟩
  | .breakLoop | .continueLoop =>
    simp only [analyze, bind_eq_ok, pure_eq_ok] at h₁ h₂
    obtain ⟨_, _, rfl⟩ := h₁
    obtain ⟨_, _, rfl⟩ := h₂
    exact ⟨rfl, hsame⟩
  | .returnValue value =>
    simp only [analyze, bind_eq_ok, pure_eq_ok, ensure_eq_ok, require_eq_ok] at h₁ h₂
    obtain ⟨_, _, _, _, _, _, v₁, hv₁, rfl⟩ := h₁
    obtain ⟨_, _, _, _, _, _, v₂, hv₂, rfl⟩ := h₂
    obtain rfl := analyzeOptional_tree hsame.scopes hv₁ hv₂
    exact ⟨rfl, hsame⟩
  | .raise exception =>
    simp only [analyze, bind_eq_ok, pure_eq_ok] at h₁ h₂
    obtain ⟨_, _, e₁, he₁, rfl⟩ := h₁
    obtain ⟨_, _, e₂, he₂, rfl⟩ := h₂
    obtain rfl := analyzeOptional_tree hsame.scopes he₁ he₂
    exact ⟨rfl, hsame⟩
  | .tryCatch location body handlers hasCleanup cleanup =>
    simp only [analyze, bind_eq_ok] at h₁ h₂
    obtain ⟨_, _, a₁, ha₁, b₁, hb₁, h₁⟩ := h₁
    obtain ⟨_, _, a₂, ha₂, b₂, hb₂, h₂⟩ := h₂
    obtain ⟨htree, hbody⟩ := analyze_tree hsame.push ha₁ ha₂
    obtain ⟨htree', hhandlers⟩ := analyzeHandlers_tree hbody.pop hb₁ hb₂
    cases hasCleanup with
    | false =>
      cases h₁
      cases h₂
      exact ⟨by rw [htree, htree'], hhandlers.restore _ _⟩
    | true =>
      simp only [bind_eq_ok, pure_eq_ok] at h₁ h₂
      obtain ⟨f₁, hf₁, rfl⟩ := h₁
      obtain ⟨f₂, hf₂, rfl⟩ := h₂
      obtain ⟨htree'', hcleanup⟩ := analyze_tree (hhandlers.restore _ _).push hf₁ hf₂
      exact ⟨by rw [htree, htree', htree''], hcleanup.pop⟩

theorem analyzeHandlers_tree {handlers : Handlers String String} {pos : Position φ}
    {st₁ st₂ : State} {before₁ before₂ merged₁ merged₂ : List Bool}
    {r₁ r₂ : Handlers (Reference φ) Local × State × List Bool} (hsame : Same st₁ st₂)
    (h₁ : analyzeHandlers pos before₁ st₁ merged₁ handlers = .ok r₁)
    (h₂ : analyzeHandlers pos before₂ st₂ merged₂ handlers = .ok r₂) :
    r₁.1 = r₂.1 ∧ Same r₁.2.1 r₂.2.1 := by
  match handlers with
  | .none =>
    cases h₁
    cases h₂
    exact ⟨rfl, hsame⟩
  | .except exceptionType binding body rest =>
    simp only [analyzeHandlers, bind_eq_ok, pure_eq_ok] at h₁ h₂
    obtain ⟨a₁, ha₁, b₁, hb₁, rfl⟩ := h₁
    obtain ⟨a₂, ha₂, b₂, hb₂, rfl⟩ := h₂
    obtain ⟨hbinding, hbound⟩ := (hsame.restore before₁ before₂).push.bind true binding
    obtain ⟨htree, hbody⟩ := analyze_tree hbound ha₁ ha₂
    obtain ⟨htree', hrest⟩ := analyzeHandlers_tree hbody.pop hb₁ hb₂
    exact ⟨by rw [hbinding, htree, htree'], hrest⟩

end

end Cwhip.Semantic
