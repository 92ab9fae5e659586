/-
  Cwhip.Lang.Assignment

  Definite assignment: a judgement over the variables that have a value before
  and after a statement, and its soundness for every run.

  Nothing here looks into names: `use` gives the variable a name stands for, if
  it stands for one, and `bound` the variable a declaration brings into being.
-/

import Cwhip.Lang.Execution
import Mathlib.Data.Set.Insert

namespace Cwhip.Lang

open List (mem_append mem_append_left mem_append_right)

section

variable {ρ δ ι : Type} (use : ρ → Option ι) (bound : δ → ι)

/-! ## Traces -/

/-- The variables with a value after an event. -/
def Event.effect (I : Set ι) : Event ρ δ → Set ι
  | .read _ => I
  | .declare name => I \ {bound name}
  | .define name => insert (bound name) I
  | .assign name =>
    match use name with
    | some i => insert i I
    | none => I
  | .cleanup _ => I

def valuedAfter (I : Set ι) (t : Trace ρ δ) : Set ι := t.foldl (Event.effect use bound) I

/-- Every variable a trace reads has a value when it does. -/
def Covered : Set ι → Trace ρ δ → Prop
  | _, [] => True
  | I, e :: t => (∀ name i, e = .read name → use name = some i → i ∈ I) ∧
      Covered (e.effect use bound I) t

variable {use bound} {I J : Set ι} {t t' : Trace ρ δ}

theorem valuedAfter_append :
    valuedAfter use bound I (t ++ t') = valuedAfter use bound (valuedAfter use bound I t) t' :=
  List.foldl_append

/-- A trace is covered in its parts, the second with what the first assigned. -/
theorem covered_append :
    Covered use bound I (t ++ t')
      ↔ Covered use bound I t ∧ Covered use bound (valuedAfter use bound I t) t' := by
  induction t generalizing I with
  | nil => exact ⟨fun h => ⟨trivial, h⟩, fun h => h.2⟩
  | cons e t ih =>
    rw [List.cons_append, Covered, Covered, ih, and_assoc]
    rfl

theorem covered_cleanupEvent (I : Set ι) (hasCleanup : Bool) (location : Nat) :
    Covered use bound I (cleanupEvent (ρ := ρ) (δ := δ) hasCleanup location) ∧
      valuedAfter use bound I (cleanupEvent (ρ := ρ) (δ := δ) hasCleanup location) = I := by
  cases hasCleanup with
  | false => exact ⟨trivial, rfl⟩
  | true => exact ⟨⟨fun _ _ h => (nomatch h), trivial⟩, rfl⟩

/-- A covered read is of a variable with a value. -/
theorem Covered.read {name : ρ} {i : ι} (h : Covered use bound I (t ++ .read name :: t'))
    (hi : use name = some i) : i ∈ valuedAfter use bound I t :=
  (covered_append.mp h).2.1 name i rfl hi

theorem Event.effect_mono (h : I ⊆ J) (e : Event ρ δ) :
    e.effect use bound I ⊆ e.effect use bound J := by
  cases e with
  | read | cleanup => exact h
  | declare name => exact fun i hi => ⟨h hi.1, hi.2⟩
  | define name => exact Set.insert_subset_insert h
  | assign name =>
    rw [Event.effect, Event.effect]
    cases use name with
    | none => exact h
    | some i => exact Set.insert_subset_insert h

theorem valuedAfter_mono (h : I ⊆ J) : valuedAfter use bound I t ⊆ valuedAfter use bound J t := by
  induction t generalizing I J with
  | nil => exact h
  | cons e t ih => exact ih (Event.effect_mono h e)

/-- More variables with values cover no less. -/
theorem Covered.mono (h : Covered use bound I t) (hIJ : I ⊆ J) : Covered use bound J t := by
  induction t generalizing I J with
  | nil => trivial
  | cons e t ih =>
    exact ⟨fun name i he hi => hIJ (h.1 name i he hi), ih h.2 (Event.effect_mono hIJ e)⟩

variable {o : Outcome} {names : List ρ} {name : δ} {s : Statement ρ δ} {V : Set ι}

variable {steps : Trace ρ δ} {hasCleanup : Bool} {location : Nat} {o' : Outcome} {V' : Set ι}

/-- A performed prefix of covered steps is covered. -/
theorem Performs.covered (h : Performs steps t o) (hsteps : Covered use bound I steps) :
    Covered use bound I t ∧
      (o = .normal → valuedAfter use bound I t = valuedAfter use bound I steps) := by
  induction h generalizing I with
  | done => exact ⟨trivial, fun _ => rfl⟩
  | step _ ih =>
    obtain ⟨hcovered, hvalued⟩ := ih hsteps.2
    exact ⟨⟨hsteps.1, hcovered⟩, hvalued⟩
  | @skip e steps t o he _ ih =>
    have hkeep : e.effect use bound I = I := by
      cases e with
      | read => rfl
      | _ => exact absurd he Bool.false_ne_true
    have hrest := hsteps.2
    rw [hkeep] at hrest
    obtain ⟨hcovered, hvalued⟩ := ih hrest
    refine ⟨hcovered, fun ho => ?_⟩
    rw [hvalued ho]
    show _ = valuedAfter use bound (e.effect use bound I) steps
    rw [hkeep]
  | throws | stops => exact ⟨trivial, fun h => (nomatch h)⟩

/-- Reads give no variable a value. -/
theorem valuedAfter_readSteps :
    valuedAfter (δ := δ) use bound I (readSteps names) = I := by
  induction names with
  | nil => rfl
  | cons name names ih => exact ih

theorem covered_readSteps :
    Covered (δ := δ) use bound I (readSteps names)
      ↔ ∀ name ∈ names, ∀ i, use name = some i → i ∈ I := by
  induction names with
  | nil => exact ⟨fun _ _ h => (nomatch h), fun _ => trivial⟩
  | cons name names ih =>
    rw [List.forall_mem_cons, ← ih]
    constructor
    · exact fun h => ⟨fun i => h.1 name i rfl, h.2⟩
    · rintro ⟨hhead, htail⟩
      refine ⟨fun name' i hname hi => ?_, htail⟩
      cases hname
      exact hhead i hi

theorem covered_bindSteps {bindings : List δ} :
    Covered (ρ := ρ) use bound I (bindSteps bindings) := by
  induction bindings generalizing I with
  | nil => trivial
  | cons name names ih => exact ⟨fun _ _ h => (nomatch h), ih⟩

/-! ## What a statement declares -/

mutual

/-- The variables a statement declares without giving them a value. -/
def Statement.declared : Statement ρ δ → List δ
  | .next first rest => first.declared ++ rest.declared
  | .simple (.declaration name _) => [name]
  | .block body | .whileLoop _ body | .doWhile body _ | .forEach _ _ _ body => body.declared
  | .ifElse _ body hasAlternate alternate =>
    body.declared ++ if hasAlternate then alternate.declared else []
  | .tryCatch _ body handlers hasCleanup cleanup =>
    body.declared ++ handlers.declared ++ if hasCleanup then cleanup.declared else []
  | _ => []

def Handlers.declared : Handlers ρ δ → List δ
  | .none => []
  | .except _ _ body rest => body.declared ++ rest.declared

end

theorem declared_whenPresent (present : Bool) (s : Statement ρ δ) :
    (whenPresent present s).declared = if present then s.declared else [] := by
  cases present <;> rfl

theorem Handlers.declared_of_mem {handlers : Handlers ρ δ} {binding : Option δ}
    {body : Statement ρ δ} (hmem : (binding, body) ∈ handlers.clauses)
    (h : name ∈ body.declared) : name ∈ handlers.declared := by
  match handlers with
  | .none => cases hmem
  | .except exceptionType binding' body' rest =>
    rw [Handlers.clauses, List.mem_cons] at hmem
    rw [Handlers.declared, mem_append]
    cases hmem with
    | inl heq =>
      rw [(Prod.mk.inj heq).2] at h
      exact .inl h
    | inr hrest => exact .inr (rest.declared_of_mem hrest h)

@[simp] theorem declare_not_mem_readSteps :
    Event.declare name ∉ readSteps (δ := δ) names := by
  simp [readSteps]

@[simp] theorem declare_not_mem_bindSteps {names : List δ} :
    Event.declare name ∉ bindSteps (ρ := ρ) names := by
  simp [bindSteps]

@[simp] theorem declare_not_mem_cleanupEvent :
    Event.declare name ∉ cleanupEvent (ρ := ρ) hasCleanup location := by
  cases hasCleanup <;> simp [cleanupEvent]

theorem Performs.mem {e : Event ρ δ} (h : Performs steps t o) (he : e ∈ t) : e ∈ steps := by
  induction h with
  | done | throws | stops => cases he
  | step _ ih =>
    rw [List.mem_cons] at he ⊢
    exact he.imp id ih
  | skip _ _ ih => exact List.mem_cons_of_mem _ (ih he)

theorem Performs.declare_not_mem_reads (h : Performs (readSteps names) t o)
    (name : δ) : Event.declare name ∉ t :=
  fun hmem => declare_not_mem_readSteps (h.mem hmem)

theorem Performs.declare_not_mem_binds {names : List δ} (h : Performs (bindSteps names) t o)
    (name : δ) : Event.declare name ∉ t :=
  fun hmem => declare_not_mem_bindSteps (h.mem hmem)

theorem Simple.declared_of_mem {s : Simple ρ δ} (h : Event.declare name ∈ s.steps) :
    name ∈ (Statement.simple s).declared := by
  cases s with
  | declaration name' initializer =>
    cases initializer <;> simpa [Simple.steps, Statement.declared] using h
  | assignment target compound value =>
    cases target <;> cases compound <;> simp [Simple.steps] at h
  | evaluate expression | inlineC captures => simp [Simple.steps] at h

/-- A run declares only what the statement declares. -/
theorem Runs.declared (h : Runs s t o) (hmem : Event.declare name ∈ t) : name ∈ s.declared := by
  -- reads and bindings declare nothing: a declaration comes from a statement inside
  induction h with
  | stops | skip | breakLoop | continueLoop => cases hmem
  | simple hp => exact Simple.declared_of_mem (hp.mem hmem)
  | whileEnds hp | ifFails hp | eachEnds hp | returnValue hp | raise hp =>
    exact absurd hmem (hp.declare_not_mem_reads name)
  | eachFails hp hb =>
    rw [mem_append] at hmem
    exact absurd hmem (not_or.mpr ⟨hp.declare_not_mem_reads name, hb.declare_not_mem_binds name⟩)
  | next _ _ ih₁ ih₂ =>
    rw [mem_append] at hmem
    exact List.mem_append.mpr (hmem.imp ih₁ ih₂)
  | nextLeaves _ _ ih => exact mem_append_left _ (ih hmem)
  | block _ ih => exact ih hmem
  | ifThen hp _ ih =>
    rw [mem_append] at hmem
    exact mem_append_left _ (ih (hmem.resolve_left (hp.declare_not_mem_reads name)))
  | ifElse hp _ ih =>
    rw [mem_append] at hmem
    have hrest := ih (hmem.resolve_left (hp.declare_not_mem_reads name))
    rw [declared_whenPresent] at hrest
    exact mem_append_right _ hrest
  | whileLeaves hp _ _ ih =>
    rw [mem_append] at hmem
    exact ih (hmem.resolve_left (hp.declare_not_mem_reads name))
  | whileNext hp _ _ _ ih₁ ih₂ =>
    rw [mem_append, mem_append] at hmem
    exact (hmem.resolve_left (hp.declare_not_mem_reads name)).elim ih₁ ih₂
  | doLeaves _ _ ih => exact ih hmem
  | doEnds _ _ hp ih =>
    rw [mem_append] at hmem
    exact ih (hmem.resolve_right (hp.declare_not_mem_reads name))
  | doNext _ _ hp _ ih₁ ih₂ =>
    rw [mem_append, mem_append] at hmem
    exact hmem.elim ih₁ fun h => ih₂ (h.resolve_left (hp.declare_not_mem_reads name))
  | eachLeaves hp hb _ _ ih =>
    rw [mem_append, mem_append] at hmem
    exact ih ((hmem.resolve_left (hp.declare_not_mem_reads name)).resolve_left
      (hb.declare_not_mem_binds name))
  | eachNext hp hb _ _ _ ih₁ ih₂ =>
    rw [mem_append, mem_append, mem_append] at hmem
    exact ((hmem.resolve_left (hp.declare_not_mem_reads name)).resolve_left
      (hb.declare_not_mem_binds name)).elim ih₁ ih₂
  | tryStops _ ih => exact mem_append_left _ (mem_append_left _ (ih hmem))
  | tryBody _ _ _ _ ih₁ ih₂ | tryUnmatched _ _ _ ih₁ ih₂ =>
    simp only [mem_append, declare_not_mem_cleanupEvent, false_or] at hmem
    rw [declared_whenPresent] at ih₂
    cases hmem with
    | inl h => exact mem_append_left _ (mem_append_left _ (ih₁ h))
    | inr h => exact mem_append_right _ (ih₂ h)
  | tryUnbound _ _ hb _ ih₁ ih₂ =>
    simp only [mem_append, declare_not_mem_cleanupEvent, hb.declare_not_mem_binds name,
      false_or] at hmem
    rw [declared_whenPresent] at ih₂
    cases hmem with
    | inl h => exact mem_append_left _ (mem_append_left _ (ih₁ h))
    | inr h => exact mem_append_right _ (ih₂ h)
  | tryUnboundStops _ _ hb ih =>
    simp only [mem_append, hb.declare_not_mem_binds name, or_false] at hmem
    exact mem_append_left _ (mem_append_left _ (ih hmem))
  | tryHandlerStops _ hmem' hb _ ih₁ ih₂ =>
    simp only [mem_append, hb.declare_not_mem_binds name, false_or] at hmem
    cases hmem with
    | inl h => exact mem_append_left _ (mem_append_left _ (ih₁ h))
    | inr h =>
      exact mem_append_left _
        (mem_append_right _ (Handlers.declared_of_mem hmem' (ih₂ h)))
  | tryHandled _ hmem' hb _ _ _ ih₁ ih₂ ih₃ =>
    simp only [mem_append, declare_not_mem_cleanupEvent, hb.declare_not_mem_binds name,
      false_or] at hmem
    rw [declared_whenPresent] at ih₃
    obtain h | h | h := hmem
    · exact mem_append_left _ (mem_append_left _ (ih₁ h))
    · exact mem_append_left _
        (mem_append_right _ (Handlers.declared_of_mem hmem' (ih₂ h)))
    · exact mem_append_right _ (ih₃ h)

/-- None of the variables is declared by these declarations. -/
def Fresh (bound : δ → ι) (V : Set ι) (names : List δ) : Prop := ∀ name ∈ names, bound name ∉ V

/-- What is not declared again keeps its value. -/
theorem subset_valuedAfter (hfresh : ∀ name, Event.declare name ∈ t → bound name ∉ V)
    (hV : V ⊆ I) : V ⊆ valuedAfter use bound I t := by
  induction t generalizing I with
  | nil => exact hV
  | cons e t ih =>
    refine ih (fun name h => hfresh name (List.mem_cons_of_mem _ h)) ?_
    cases e with
    | read | cleanup => exact hV
    | declare name =>
      refine fun i hi => ⟨hV hi, ?_⟩
      rintro rfl
      exact hfresh name List.mem_cons_self hi
    | define name => exact hV.trans (Set.subset_insert _ _)
    | assign name =>
      rw [Event.effect]
      cases use name with
      | none => exact hV
      | some i => exact hV.trans (Set.subset_insert _ _)

variable (use) in

/-- A run keeps the values of all variables declared outside it. -/
theorem Runs.keeps (h : Runs s t o) (hfresh : Fresh bound V s.declared)
    (hV : V ⊆ I) : V ⊆ valuedAfter use bound I t :=
  subset_valuedAfter (fun name hname => hfresh name (h.declared hname)) hV

theorem Fresh.sub {names names' : List δ} (h : Fresh bound V names)
    (hsub : names' ⊆ names) : Fresh bound V names' :=
  fun name hname => h name (hsub hname)

/-! ## The judgement -/

/-- `Assigns V s V'`: if the variables `V` have values before `s`, then every
    variable `s` reads has one when it does, and `V'` have values wherever `s`
    completes normally. -/
inductive Assigns (use : ρ → Option ι) (bound : δ → ι) :
    Set ι → Statement ρ δ → Set ι → Prop
  | skip {V : Set ι} : Assigns use bound V .skip V
  | next {V V₁ V₂ : Set ι} {first rest : Statement ρ δ} :
      Assigns use bound V first V₁ → Assigns use bound V₁ rest V₂ →
      Assigns use bound V (.next first rest) V₂
  | simple {V V' : Set ι} {s : Simple ρ δ} :
      Covered use bound V s.steps → V' ⊆ valuedAfter use bound V s.steps →
      Assigns use bound V (.simple s) V'
  | block {V V₁ V' : Set ι} {body : Statement ρ δ} :
      Assigns use bound V body V₁ → V' ⊆ V₁ → Assigns use bound V (.block body) V'
  | ifThen {V V₁ : Set ι} {condition : Expression ρ} {body alternate : Statement ρ δ} :
      Covered (δ := δ) use bound V (readSteps condition.reads) → Assigns use bound V body V₁ →
      Fresh bound V body.declared →
      Assigns use bound V (.ifElse condition body false alternate) V
  | ifElse {V V₁ V₂ V' : Set ι} {condition : Expression ρ} {body alternate : Statement ρ δ} :
      Covered (δ := δ) use bound V (readSteps condition.reads) → Assigns use bound V body V₁ →
      Assigns use bound V alternate V₂ → V' ⊆ V₁ → V' ⊆ V₂ →
      Assigns use bound V (.ifElse condition body true alternate) V'
  | whileLoop {V V₁ : Set ι} {condition : Expression ρ} {body : Statement ρ δ} :
      Covered (δ := δ) use bound V (readSteps condition.reads) → Assigns use bound V body V₁ →
      Fresh bound V body.declared → Assigns use bound V (.whileLoop condition body) V
  | doWhile {V V₁ : Set ι} {condition : Expression ρ} {body : Statement ρ δ} :
      Covered (δ := δ) use bound V (readSteps condition.reads) → Assigns use bound V body V₁ →
      Fresh bound V body.declared → Assigns use bound V (.doWhile body condition) V
  | forEach {V V₁ : Set ι} {collection : Expression ρ} {key : Option δ} {value : δ}
      {body : Statement ρ δ} :
      Covered (δ := δ) use bound V (readSteps collection.reads) →
      Assigns use bound (valuedAfter use bound V (bindSteps (key.toList ++ [value]))) body V₁ →
      Fresh bound V body.declared → Assigns use bound V (.forEach collection key value body) V
  | breakLoop {V V' : Set ι} : Assigns use bound V .breakLoop V'
  | continueLoop {V V' : Set ι} : Assigns use bound V .continueLoop V'
  | returnValue {V V' : Set ι} {value : Option (Expression ρ)} :
      Covered (δ := δ) use bound V (readSteps (optionalReads value)) →
      Assigns use bound V (.returnValue value) V'
  | raise {V V' : Set ι} {exception : Option (Expression ρ)} :
      Covered (δ := δ) use bound V (readSteps (optionalReads exception)) →
      Assigns use bound V (.raise exception) V'
  /-- The `finally` block is entered with what the body and every handler give
      where they complete, and with no more than `V` where they do not. -/
  | tryCatch {V V₁ M V₃ V' V'' : Set ι} {after : Option δ × Statement ρ δ → Set ι} {location : Nat}
      {body cleanup : Statement ρ δ} {handlers : Handlers ρ δ} {hasCleanup : Bool} :
      Assigns use bound V body V₁ → Fresh bound V body.declared →
      (∀ c ∈ handlers.clauses,
        Assigns use bound (valuedAfter use bound V (bindSteps c.1.toList)) c.2 (after c)) →
      Fresh bound V handlers.declared → M ⊆ V₁ → (∀ c ∈ handlers.clauses, M ⊆ after c) →
      Assigns use bound M (whenPresent hasCleanup cleanup) V₃ → V' ⊆ V₃ →
      Assigns use bound V (whenPresent hasCleanup cleanup) V'' →
      Assigns use bound V (.tryCatch location body handlers hasCleanup cleanup) V'

/-- Reading assigns nothing. -/
theorem Performs.reads_covered (h : Performs (readSteps names) t o)
    (hV : Covered (δ := δ) use bound V (readSteps names)) (hI : V ⊆ I) :
    Covered use bound I t ∧ V ⊆ valuedAfter use bound I t :=
  ⟨(h.covered (hV.mono hI)).1,
    subset_valuedAfter (fun name hname => absurd hname (h.declare_not_mem_reads name)) hI⟩

variable (use bound) in
theorem Performs.binds_covered {names : List δ} (h : Performs (bindSteps names) t o) (hI : V ⊆ I) :
    Covered use bound I t ∧ V ⊆ valuedAfter use bound I t ∧
      (o = .normal → valuedAfter use bound V (bindSteps names) ⊆ valuedAfter use bound I t) := by
  obtain ⟨hcovered, hvalued⟩ := h.covered covered_bindSteps
  refine ⟨hcovered, ?_, fun ho => ?_⟩
  · exact subset_valuedAfter (fun name hname => absurd hname (h.declare_not_mem_binds name)) hI
  · rw [hvalued ho]
    exact valuedAfter_mono hI

theorem Outcome.normal_of_orElse (h : o.orElse o' = .normal) :
    o = .normal ∧ o' = .normal := by
  cases o with
  | normal => exact ⟨rfl, h⟩
  | broke | continued | returned | thrown | stopped => cases h

/-- A part that always runs is covered after every outcome of the others. -/
theorem covered_closing {M V₃ V'' : Set ι}
    (hrun : ∀ {J W W' : Set ι}, Assigns use bound W s W' → W ⊆ J →
      Covered use bound J t ∧ (o' = .normal → W' ⊆ valuedAfter use bound J t))
    (hnormal : Assigns use bound M s V₃) (hsub : V' ⊆ V₃) (hearly : Assigns use bound V s V'')
    (hV : V ⊆ I) (hM : o = .normal → M ⊆ I) :
    Covered use bound I (cleanupEvent hasCleanup location ++ t) ∧
      (o'.orElse o = .normal →
        V' ⊆ valuedAfter use bound I (cleanupEvent hasCleanup location ++ t)) := by
  obtain ⟨hevent, hkeep⟩ := @covered_cleanupEvent ρ δ ι use bound I hasCleanup location
  rw [covered_append, valuedAfter_append, hkeep]
  refine ⟨⟨hevent, (hrun hearly hV).1⟩, fun h => ?_⟩
  obtain ⟨ho', ho⟩ := Outcome.normal_of_orElse h
  exact hsub.trans ((hrun hnormal (hM ho)).2 ho')

/-- A run of a well-assigned statement reads only variables that have a value. -/
theorem Runs.covered (h : Runs s t o) (hs : Assigns use bound V s V') (hI : V ⊆ I) :
    Covered use bound I t ∧ (o = .normal → V' ⊆ valuedAfter use bound I t) := by
  induction h generalizing V V' I with
  | stops => exact ⟨trivial, fun h => (nomatch h)⟩
  | skip =>
    cases hs
    exact ⟨trivial, fun _ => hI⟩
  | next _ _ ih₁ ih₂ =>
    cases hs with
    | next hfirst hrest =>
      obtain ⟨hc₁, hv₁⟩ := ih₁ hfirst hI
      obtain ⟨hc₂, hv₂⟩ := ih₂ hrest (hv₁ rfl)
      rw [covered_append, valuedAfter_append]
      exact ⟨⟨hc₁, hc₂⟩, hv₂⟩
  | nextLeaves _ ho ih =>
    cases hs with
    | next hfirst _ => exact ⟨(ih hfirst hI).1, fun h => absurd h ho⟩
  | simple hp =>
    cases hs with
    | simple hcovered hvalued =>
      obtain ⟨hc, hv⟩ := hp.covered (hcovered.mono hI)
      refine ⟨hc, fun ho => ?_⟩
      rw [hv ho]
      exact hvalued.trans (valuedAfter_mono hI)
  | block _ ih =>
    cases hs with
    | block hbody hsub =>
      obtain ⟨hc, hv⟩ := ih hbody hI
      exact ⟨hc, fun ho => hsub.trans (hv ho)⟩
  | ifFails hp ho =>
    cases hs with
    | ifThen hcond _ _ | ifElse hcond _ _ _ _ =>
      exact ⟨(hp.reads_covered hcond hI).1, fun h => absurd h ho⟩
  | ifThen hp hrun ih =>
    rw [covered_append, valuedAfter_append]
    cases hs with
    | ifThen hcond hbody hfresh =>
      obtain ⟨hc, hV⟩ := hp.reads_covered hcond hI
      exact ⟨⟨hc, (ih hbody hV).1⟩, fun _ => hrun.keeps use hfresh hV⟩
    | ifElse hcond hbody _ hsub _ =>
      obtain ⟨hc, hV⟩ := hp.reads_covered hcond hI
      obtain ⟨hc', hv⟩ := ih hbody hV
      exact ⟨⟨hc, hc'⟩, fun ho => hsub.trans (hv ho)⟩
  | ifElse hp hrun ih =>
    rw [covered_append, valuedAfter_append]
    cases hs with
    | ifThen hcond _ _ =>
      obtain ⟨hc, hV⟩ := hp.reads_covered hcond hI
      obtain ⟨hc', hv⟩ := ih .skip hV
      exact ⟨⟨hc, hc'⟩, hv⟩
    | ifElse hcond _ halt _ hsub =>
      obtain ⟨hc, hV⟩ := hp.reads_covered hcond hI
      obtain ⟨hc', hv⟩ := ih halt hV
      exact ⟨⟨hc, hc'⟩, fun ho => hsub.trans (hv ho)⟩
  | whileEnds hp =>
    cases hs with
    | whileLoop hcond _ _ =>
      obtain ⟨hc, hV⟩ := hp.reads_covered hcond hI
      exact ⟨hc, fun _ => hV⟩
  | whileLeaves hp hrun _ ih =>
    cases hs with
    | whileLoop hcond hbody hfresh =>
      rw [covered_append, valuedAfter_append]
      obtain ⟨hc, hV⟩ := hp.reads_covered hcond hI
      exact ⟨⟨hc, (ih hbody hV).1⟩, fun _ => hrun.keeps use hfresh hV⟩
  | whileNext hp hrun _ _ ih₁ ih₂ =>
    cases hs with
    | whileLoop hcond hbody hfresh =>
      rw [covered_append, covered_append, valuedAfter_append, valuedAfter_append]
      obtain ⟨hc, hV⟩ := hp.reads_covered hcond hI
      -- The next round starts from what the first one started from.
      obtain ⟨hc₂, hv₂⟩ := ih₂ (.whileLoop hcond hbody hfresh) (hrun.keeps use hfresh hV)
      exact ⟨⟨hc, (ih₁ hbody hV).1, hc₂⟩, hv₂⟩
  | doLeaves hrun _ ih =>
    cases hs with
    | doWhile _ hbody hfresh => exact ⟨(ih hbody hI).1, fun _ => hrun.keeps use hfresh hI⟩
  | doEnds hrun _ hp ih =>
    cases hs with
    | doWhile hcond hbody hfresh =>
      rw [covered_append, valuedAfter_append]
      obtain ⟨hc, hV⟩ := hp.reads_covered hcond (hrun.keeps use hfresh hI)
      exact ⟨⟨(ih hbody hI).1, hc⟩, fun _ => hV⟩
  | doNext hrun _ hp _ ih₁ ih₂ =>
    cases hs with
    | doWhile hcond hbody hfresh =>
      rw [covered_append, covered_append, valuedAfter_append, valuedAfter_append]
      obtain ⟨hc, hV⟩ := hp.reads_covered hcond (hrun.keeps use hfresh hI)
      obtain ⟨hc₂, hv₂⟩ := ih₂ (.doWhile hcond hbody hfresh) hV
      exact ⟨⟨(ih₁ hbody hI).1, hc, hc₂⟩, hv₂⟩
  | eachEnds hp =>
    cases hs with
    | forEach hcond _ _ =>
      obtain ⟨hc, hV⟩ := hp.reads_covered hcond hI
      exact ⟨hc, fun _ => hV⟩
  | eachFails hp hb ho =>
    cases hs with
    | forEach hcond _ _ =>
      rw [covered_append]
      obtain ⟨hc, hV⟩ := hp.reads_covered hcond hI
      exact ⟨⟨hc, (hb.binds_covered use bound hV).1⟩, fun h => absurd h ho⟩
  | eachLeaves hp hb hrun _ ih =>
    cases hs with
    | forEach hcond hbody hfresh =>
      rw [covered_append, covered_append, valuedAfter_append, valuedAfter_append]
      obtain ⟨hc, hV⟩ := hp.reads_covered hcond hI
      obtain ⟨hcb, hVb, hbound⟩ := hb.binds_covered use bound hV
      exact ⟨⟨hc, hcb, (ih hbody (hbound rfl)).1⟩, fun _ => hrun.keeps use hfresh hVb⟩
  | eachNext hp hb hrun _ _ ih₁ ih₂ =>
    cases hs with
    | forEach hcond hbody hfresh =>
      rw [covered_append, covered_append, covered_append, valuedAfter_append,
        valuedAfter_append, valuedAfter_append]
      obtain ⟨hc, hV⟩ := hp.reads_covered hcond hI
      obtain ⟨hcb, hVb, hbound⟩ := hb.binds_covered use bound hV
      obtain ⟨hc₂, hv₂⟩ := ih₂ (.forEach trivial hbody hfresh) (hrun.keeps use hfresh hVb)
      exact ⟨⟨hc, hcb, (ih₁ hbody (hbound rfl)).1, hc₂⟩, hv₂⟩
  | breakLoop | continueLoop => exact ⟨trivial, fun h => (nomatch h)⟩
  | returnValue hp =>
    cases hs with
    | returnValue hcond =>
      exact ⟨(hp.reads_covered hcond hI).1,
        fun h => absurd h (Outcome.orElse_ne_normal (.inr Outcome.noConfusion))⟩
  | raise hp =>
    cases hs with
    | raise hcond =>
      exact ⟨(hp.reads_covered hcond hI).1,
        fun h => absurd h (Outcome.orElse_ne_normal (.inr Outcome.noConfusion))⟩
  | tryStops _ ih =>
    cases hs with
    | tryCatch hbody _ _ _ _ _ _ _ _ => exact ⟨(ih hbody hI).1, fun h => (nomatch h)⟩
  | tryBody hrun _ _ _ ih₁ ih₂ =>
    cases hs with
    | tryCatch hbody hfresh _ _ hM _ hnormal hsub hearly =>
      rw [covered_append, valuedAfter_append]
      obtain ⟨hc, hv⟩ := ih₁ hbody hI
      obtain ⟨hc₂, hv₂⟩ := covered_closing ih₂ hnormal hsub hearly (hrun.keeps use hfresh hI)
        fun ho => hM.trans (hv ho)
      exact ⟨⟨hc, hc₂⟩, hv₂⟩
  | tryUnmatched hrun _ _ ih₁ ih₂ =>
    cases hs with
    | tryCatch hbody hfresh _ _ _ _ hnormal hsub hearly =>
      rw [covered_append, valuedAfter_append]
      obtain ⟨hc₂, hv₂⟩ := covered_closing (o := .thrown) ih₂ hnormal hsub hearly
        (hrun.keeps use hfresh hI) fun ho => (nomatch ho)
      exact ⟨⟨(ih₁ hbody hI).1, hc₂⟩, hv₂⟩
  | tryUnbound hrun _ hb _ ih₁ ih₂ =>
    cases hs with
    | tryCatch hbody hfresh _ _ _ _ hnormal hsub hearly =>
      rw [covered_append, covered_append, valuedAfter_append, valuedAfter_append]
      obtain ⟨hcb, hVb, _⟩ := hb.binds_covered use bound (hrun.keeps use hfresh hI)
      obtain ⟨hc₂, hv₂⟩ := covered_closing (o := .thrown) ih₂ hnormal hsub hearly hVb
        fun ho => (nomatch ho)
      exact ⟨⟨(ih₁ hbody hI).1, hcb, hc₂⟩, hv₂⟩
  | tryUnboundStops hrun _ hb ih =>
    cases hs with
    | tryCatch hbody hfresh _ _ _ _ _ _ _ =>
      rw [covered_append]
      exact ⟨⟨(ih hbody hI).1, (hb.binds_covered use bound (hrun.keeps use hfresh hI)).1⟩,
        fun h => (nomatch h)⟩
  | tryHandlerStops hrun hmem hb _ ih₁ ih₂ =>
    cases hs with
    | tryCatch hbody hfresh hhandlers _ _ _ _ _ _ =>
      rw [covered_append, covered_append]
      obtain ⟨hcb, _, hbound⟩ := hb.binds_covered use bound (hrun.keeps use hfresh hI)
      exact ⟨⟨(ih₁ hbody hI).1, hcb, (ih₂ (hhandlers _ hmem) (hbound rfl)).1⟩,
        fun h => (nomatch h)⟩
  | tryHandled hrun hmem hb hhandler _ _ ih₁ ih₂ ih₃ =>
    cases hs with
    | tryCatch hbody hfresh hhandlers hfresh' _ hafter hnormal hsub hearly =>
      rw [covered_append, covered_append, covered_append, valuedAfter_append,
        valuedAfter_append, valuedAfter_append]
      obtain ⟨hcb, hVb, hbound⟩ := hb.binds_covered use bound (hrun.keeps use hfresh hI)
      obtain ⟨hch, hvh⟩ := ih₂ (hhandlers _ hmem) (hbound rfl)
      have hV := hhandler.keeps use (hfresh'.sub fun _ h => Handlers.declared_of_mem hmem h) hVb
      obtain ⟨hc₂, hv₂⟩ := covered_closing ih₃ hnormal hsub hearly hV
        fun ho => (hafter _ hmem).trans (hvh ho)
      exact ⟨⟨(ih₁ hbody hI).1, hcb, hch, hc₂⟩, hv₂⟩

end

end Cwhip.Lang
