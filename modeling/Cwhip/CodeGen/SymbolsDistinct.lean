/-
  Cwhip.CodeGen.SymbolsDistinct

  When the globals of a module have distinct names.

  Qualified class names are cut at dots, and a class is never a namespace, so a
  name can be read back up to two places: the bases of a view are joined by
  underscores, which base names may contain too, and `finalize` may be a class
  or a namespace.
-/

import Mathlib.Data.List.Sigma
import Cwhip.CodeGen.Symbols

namespace Cwhip.CodeGen

open Cwhip.Lib
open Cwhip.Inheritance (AccessLevel BaseInfo)
open List (append_assoc append_cancel_left append_nil mem_append mem_append_right mem_cons_of_mem
  mem_cons_self nodup_singleton prefix_append)

@[irreducible] def finalizeName : Text := "finalize".toList

/-- No two globals have one name. -/
structure CollisionFree (p : Program) (generatingModule : Text) : Prop where
  defined : (definedSymbols p generatingModule).Nodup
  methods : ∀ c ∈ p.classes, ∀ method ∈ c.label.methods,
    methodSymbol c.label.name method ∉ generatedSymbols p generatingModule

def HasFinalizer (p : Program) (generatingModule : Text) (c : ClassDeclaration) : Prop :=
  c.label.moduleName ≠ generatingModule ∨ destructorChain p c ≠ []

/-- Joined base names tell views apart, and no method without parameters has the
    name of a finalizer. -/
structure Separated (p : Program) (generatingModule : Text) : Prop where
  tags : ∀ c ∈ p.classes, ((subobjects c).map fun view => subobjectTag view.1).Nodup
  finalizers : ∀ c ∈ p.classes, ∀ method ∈ c.label.methods, method.parameters = [] →
    ∀ d ∈ p.classes, HasFinalizer p generatingModule d →
      c.label.name ++ '.' :: method.name ≠ finalizeName ++ '.' :: d.label.name

/-! ## Cutting names -/

variable {a b x y name : Text}

theorem dot_cancel_right (hx : '.' ∉ x) (hy : '.' ∉ y)
    (h : a ++ '.' :: x = b ++ '.' :: y) : a = b ∧ x = y := by
  rcases List.append_eq_append_iff.mp h with ⟨t, hb, hx'⟩ | ⟨t, ha, hy'⟩
  · cases t with
    | nil =>
      rw [append_nil] at hb
      exact ⟨hb.symm, (List.cons.inj hx').2⟩
    | cons c t =>
      obtain ⟨_, heq⟩ := List.cons.inj hx'
      exact absurd (heq ▸ mem_append_right _ mem_cons_self) hx
  · cases t with
    | nil =>
      rw [append_nil] at ha
      exact ⟨ha, (List.cons.inj hy').2.symm⟩
    | cons c t =>
      obtain ⟨_, heq⟩ := List.cons.inj hy'
      exact absurd (heq ▸ mem_append_right _ mem_cons_self) hy

theorem rest_cancel {separator : Char} (ha : separator ∉ a) (hb : separator ∉ b)
    (hx : x = [] ∨ ∃ t, x = separator :: t) (hy : y = [] ∨ ∃ t, y = separator :: t)
    (h : a ++ x = b ++ y) : a = b ∧ x = y := by
  have hcut : ∀ {a x : Text}, separator ∉ a → (x = [] ∨ ∃ t, x = separator :: t) →
      (a ++ x).takeWhile (· != separator) = a := by
    intro a x ha hx
    rw [List.takeWhile_append_of_pos]
    · rcases hx with rfl | ⟨t, rfl⟩
      · rw [List.takeWhile_nil, append_nil]
      · rw [List.takeWhile_cons_of_neg (by simp), append_nil]
    · intro c hc
      exact bne_iff_ne.mpr fun heq => ha (heq ▸ hc)
  have hsame : a = b := by rw [← hcut ha hx, h, hcut hb hy]
  refine ⟨hsame, ?_⟩
  rw [hsame] at h
  exact append_cancel_left h

theorem dot_cancel_left (ha : '.' ∉ a) (hb : '.' ∉ b)
    (h : a ++ '.' :: x = b ++ '.' :: y) : a = b ∧ x = y := by
  obtain ⟨hsame, hrest⟩ := rest_cancel ha hb (.inr ⟨x, rfl⟩) (.inr ⟨y, rfl⟩) h
  exact ⟨hsame, (List.cons.inj hrest).2⟩

theorem isQualified_append (a b : Text) :
    isQualified (a ++ '.' :: b) = (isQualified a && isQualified b) := by
  rw [isQualified, List.splitOn_append_cons_self, List.all_append, isQualified, isQualified]

theorem isIdentifierPart_of_special {c : Char} (h : isIdentifierPart c = true) : c ≠ '.' ∧
    c ≠ '$' := by
  constructor
  · rintro rfl
    exact absurd h (by decide)
  · rintro rfl
    exact absurd h (by decide)

theorem isQualified_dollar (h : isQualified name = true) : '$' ∉ name := by
  intro hmem
  rcases isQualified_mem h hmem with heq | hpart
  · exact absurd heq (by decide)
  · exact (isIdentifierPart_of_special hpart).2 rfl

theorem isIdentifier_dot (h : isIdentifier name = true) : '.' ∉ name := fun hmem =>
  (isIdentifierPart_of_special (isIdentifierPart_of_mem h hmem)).1 rfl

theorem isQualified_identifier (h : isIdentifier name = true) :
    isQualified name = true := by
  rw [isQualified, List.splitOn_eq_singleton (isIdentifier_dot h), List.all_cons, h]
  rfl

theorem decimal_special (n : Nat) : '.' ∉ decimal n ∧ '$' ∉ decimal n := by
  constructor
  · intro hmem
    exact absurd (isDigit_of_mem_decimal hmem) (by decide)
  · intro hmem
    exact absurd (isDigit_of_mem_decimal hmem) (by decide)

theorem isQualified_decimal (n : Nat) : isQualified (decimal n) = false := by
  rw [isQualified, List.splitOn_eq_singleton (decimal_special n).1, List.all_cons]
  obtain ⟨first, rest, hcons⟩ := List.exists_cons_of_ne_nil (decimal_ne_nil n)
  have hdigit : first.isDigit = true := isDigit_of_mem_decimal (hcons ▸ mem_cons_self)
  have hstart : isIdentifierStart first = false := by
    refine Bool.eq_false_iff.mpr fun h => ?_
    rw [isIdentifierStart_not_digit h] at hdigit
    cases hdigit
  rw [hcons, isIdentifier, hstart]
  rfl

/-! ## Stems -/

def Stem.all : List Stem :=
  [.thunk, .finalizer, .destroyCopy, .methodTable, .classMetadata, .viewMetadata, .referenceOffsets,
    .dynamicReferenceOffsets, .baseNames, .exceptionMetadata, .stringMetadata]

theorem Stem.mem_all (stem : Stem) : stem ∈ Stem.all := by
  cases stem <;> decide

theorem Stem.cancel {stem stem' : Stem} (h : stem.text ++ x = stem'.text ++ y) :
    stem = stem' ∧ x = y := by
  have hall : (Stem.all.all fun first => Stem.all.all fun second =>
      !first.text.isPrefixOf second.text || first == second) = true := by decide +kernel
  have hcontinues : ∀ {first second : Stem}, first.text <+: second.text → first = second := by
    intro first second hle
    have htest := List.all_eq_true.mp (List.all_eq_true.mp hall first first.mem_all) second
      second.mem_all
    rw [List.isPrefixOf_iff_prefix.mpr hle] at htest
    simpa using htest
  have hsame : stem = stem' := by
    rcases List.prefix_or_prefix_of_prefix (prefix_append stem.text x)
      (h ▸ prefix_append stem'.text y) with hle | hle
    · exact hcontinues hle
    · exact (hcontinues hle).symm
  refine ⟨hsame, ?_⟩
  rw [hsame] at h
  exact append_cancel_left h

theorem methodStem_cancel {stem : Stem} (h : methodStem ++ x = stem.text ++ y) :
    ∃ tail, (stem, tail) ∈ [(Stem.thunk, "thunk.".toList), (.finalizer, finalizeName ++ ['.']),
      (.destroyCopy, "destroy.".toList)] ∧ x = tail ++ y := by
  have hshared : ∀ entry ∈ [(Stem.thunk, "thunk.".toList), (.finalizer, finalizeName ++ ['.']),
      (.destroyCopy, "destroy.".toList)], entry.1.text = methodStem ++ entry.2 := by decide +kernel
  have hothers : (Stem.all.all fun stem => stem == .thunk || stem == .finalizer ||
      stem == .destroyCopy || !(methodStem.isPrefixOf stem.text || stem.text.isPrefixOf methodStem))
          = true := by
    decide +kernel
  have htest := List.all_eq_true.mp hothers stem stem.mem_all
  have hle : (methodStem.isPrefixOf stem.text || stem.text.isPrefixOf methodStem) = true := by
    rw [Bool.or_eq_true, List.isPrefixOf_iff_prefix, List.isPrefixOf_iff_prefix]
    exact List.prefix_or_prefix_of_prefix (prefix_append methodStem x)
      (h ▸ prefix_append stem.text y)
  rw [hle, Bool.not_true, Bool.or_false, Bool.or_eq_true, Bool.or_eq_true, beq_iff_eq, beq_iff_eq,
    beq_iff_eq] at htest
  have hcut : ∀ {tail : Text}, stem.text = methodStem ++ tail → x = tail ++ y := by
    intro tail heq
    rw [heq, append_assoc] at h
    exact append_cancel_left h
  rcases htest with (rfl | rfl) | rfl
  · exact ⟨_, mem_cons_self, hcut (hshared _ mem_cons_self)⟩
  · exact ⟨_, mem_cons_of_mem _ mem_cons_self,
      hcut (hshared _ (mem_cons_of_mem _ mem_cons_self))⟩
  · exact ⟨_, mem_cons_of_mem _ (mem_cons_of_mem _ mem_cons_self),
      hcut (hshared _ (mem_cons_of_mem _ (mem_cons_of_mem _ mem_cons_self)))⟩

/-! ## Owners -/

section

variable {p : Program} {c d : ClassDeclaration}

theorem Program.class_unique (p : Program) (hc : c ∈ p.classes) (hd : d ∈ p.classes)
    (h : c.label.name = d.label.name) : c = d :=
  List.inj_on_of_nodup_map p.distinct hc hd h

/-- Nothing, or a further part of the name. -/
def IsPart (rest : Text) : Prop := rest = [] ∨ ∃ t, rest = '.' :: t

variable {x text : Text} {stem : Stem} {path path' : List Text}
  {view : List Text × ClassDeclaration} {method : MethodDeclaration}

theorem owner_cancel (hc : c ∈ p.classes) (hd : d ∈ p.classes) {y : Text} (hx : IsPart x)
    (hy : IsPart y) (h : c.label.name ++ x = d.label.name ++ y) : c = d ∧ x = y := by
  have hfirst : ∀ {c d : ClassDeclaration} {x t : Text}, c ∈ p.classes → d ∈ p.classes → IsPart x →
      d.label.name = c.label.name ++ t → x = t ++ y ∨ (∃ y', x = t ++ y') → t = [] := by
    intro c d x t hc hd hx hname hrest
    cases t with
    | nil => rfl
    | cons first t =>
      have hdot : first = '.' := by
        rcases hx with rfl | ⟨tail, rfl⟩
        · rcases hrest with hnil | ⟨y', hnil⟩ <;> cases hnil
        · rcases hrest with heq | ⟨y', heq⟩ <;> exact (List.cons.inj heq).1.symm
      refine absurd ?_ (p.separate c hc d hd)
      exact ⟨t, by rw [hname, hdot]; simp⟩
  rcases List.append_eq_append_iff.mp h with ⟨t, hname, hrest⟩ | ⟨t, hname, hrest⟩
  · have hnil := hfirst hc hd hx hname (.inl hrest)
    rw [hnil, append_nil] at hname
    rw [hnil] at hrest
    exact ⟨p.class_unique hc hd hname.symm, hrest⟩
  · have hnil := hfirst hd hc hy hname (.inr ⟨x, hrest⟩)
    rw [hnil, append_nil] at hname
    rw [hnil] at hrest
    exact ⟨p.class_unique hc hd hname, hrest.symm⟩

/-- A generated global of the class. -/
inductive Belongs (c : ClassDeclaration) : Stem → Text → Prop where
  | named {stem : Stem} {rest : Text} (h : stem ≠ .stringMetadata) (part : IsPart rest) :
      Belongs c stem (stem.text ++ (c.label.name ++ rest))
  | string (h : c.label.name = stringClass) : Belongs c .stringMetadata Stem.stringMetadata.text

variable {stem' : Stem} {condition : Bool} {stems stems' : List Stem} {l l' : List Text}
  {owner info : ClassInfo} {index index' : Nat}

theorem Belongs.stem_unique (h : Belongs c stem text)
    (h' : Belongs d stem' text) : stem = stem' := by
  have hstem : ∀ {c : ClassDeclaration} {stem : Stem}, Belongs c stem text →
      ∃ x, text = stem.text ++ x := by
    intro c stem h
    cases h with
    | named => exact ⟨_, rfl⟩
    | string => exact ⟨[], (append_nil _).symm⟩
  obtain ⟨x, hx⟩ := hstem h
  obtain ⟨y, hy⟩ := hstem h'
  exact (Stem.cancel (hx.symm.trans hy)).1

theorem Belongs.unique (hc : c ∈ p.classes) (hd : d ∈ p.classes) (h : Belongs c stem text)
    (h' : Belongs d stem' text) : c = d := by
  have hstem := h.stem_unique h'
  subst hstem
  cases h with
  | named hne hpart =>
    generalize heq : stem.text ++ (c.label.name ++ _) = text at h'
    cases h' with
    | named _ hpart' => exact (owner_cancel hc hd hpart hpart' (append_cancel_left heq)).1
    | string => exact absurd rfl hne
  | string hname =>
    generalize heq : Stem.text _ = text at h'
    generalize hstem : Stem.stringMetadata = stem at h'
    cases h' with
    | named hne => exact absurd hstem.symm hne
    | string hname' => exact p.class_unique hc hd (hname.trans hname'.symm)

theorem nodup_flatMap_classes {classes : List ClassDeclaration} (hsub : classes.Sublist p.classes)
    {f : ClassDeclaration → List Text} (hnodup : ∀ c ∈ classes, (f c).Nodup)
    (hbelongs : ∀ c ∈ classes, ∀ text ∈ f c, ∃ stem, Belongs c stem text) :
    (classes.flatMap f).Nodup := by
  refine List.nodup_flatMap.mpr ⟨hnodup, ?_⟩
  have hdistinct : classes.Nodup := (List.Nodup.of_map _ p.distinct).sublist hsub
  refine hdistinct.imp_of_mem ?_
  intro c d hc hd hne text htext htext'
  obtain ⟨stem, h⟩ := hbelongs c hc text htext
  obtain ⟨stem', h'⟩ := hbelongs d hd text htext'
  exact hne (h.unique (hsub.subset hc) (hsub.subset hd) h')

/-! ## Views -/

theorem tagStep_head (path : List Text) (tag : Text) :
    ∃ rest, path.foldl (fun tag name => (if 1 < tag.length then tag ++ ['_'] else tag) ++ name)
      ('p' :: tag) = 'p' :: rest := by
  induction path generalizing tag with
  | nil => exact ⟨tag, rfl⟩
  | cons name path ih =>
    rw [List.foldl_cons]
    split
    · exact ih (tag ++ ['_'] ++ name)
    · exact ih (tag ++ name)

theorem subobjectTag_root : subobjectTag path = rootTag ↔ path = [] := by
  constructor
  · intro h
    by_contra hne
    rw [subobjectTag, if_neg hne] at h
    obtain ⟨rest, hrest⟩ := tagStep_head path []
    rw [hrest] at h
    have hroot : rootTag.head? = some 'r' := by decide +kernel
    rw [← h] at hroot
    cases hroot
  · intro h
    rw [subobjectTag, if_pos h]

/-- The part of a name that tells the view. -/
def viewPart (path : List Text) : Text := if path = [] then [] else '.' :: subobjectTag path

theorem isPart_viewPart (path : List Text) : IsPart (viewPart path) := by
  rw [viewPart]
  split
  · exact .inl rfl
  · exact .inr ⟨_, rfl⟩

theorem viewPart_tag (h : viewPart path = viewPart path') :
    subobjectTag path = subobjectTag path' := by
  rw [viewPart, viewPart] at h
  split at h
  · split at h
    · next hnil hnil' => rw [hnil, hnil']
    · cases h
  · split at h
    · cases h
    · exact (List.cons.inj h).2

theorem methodTableName_eq (owner : ClassInfo) (path : List Text) :
    methodTableName owner path = Stem.methodTable.text ++ (owner.name ++ viewPart path) := by
  rw [methodTableName, viewPart]
  split
  · rw [append_nil]
  · rfl

theorem viewMetadataName_root (hbuiltin : c.label.builtin = false) :
    ∃ stem ∈ [Stem.stringMetadata, .classMetadata],
    Belongs c stem (viewMetadataName c.label []) := by
  rw [viewMetadataName, if_neg (by simp [hbuiltin])]
  split
  · next h => exact ⟨_, by decide, .string h.1⟩
  · rw [if_pos rfl, ← append_nil c.label.name]
    exact ⟨_, by decide, .named (by decide) (.inl rfl)⟩

theorem viewMetadataName_view (owner : ClassInfo) (h : path ≠ []) :
    viewMetadataName owner path = Stem.viewMetadata.text ++
    (owner.name ++ '.' :: subobjectTag path) := by
  rw [viewMetadataName, if_neg (fun hroot => h hroot.2), if_neg (fun hroot => h hroot.2), if_neg h]

theorem viewMetadataName_belongs (hbuiltin : c.label.builtin = false) (path : List Text) :
    ∃ stem ∈ [Stem.stringMetadata, .classMetadata, .viewMetadata],
      Belongs c stem (viewMetadataName c.label path) := by
  by_cases hnil : path = []
  · rw [hnil]
    obtain ⟨stem, hstem, hbelongs⟩ := viewMetadataName_root hbuiltin
    exact ⟨stem, List.mem_append_left [Stem.viewMetadata] hstem, hbelongs⟩
  · rw [viewMetadataName_view _ hnil]
    exact ⟨_, by decide, .named (by decide) (.inr ⟨_, rfl⟩)⟩

theorem viewMetadataName_tag (hbuiltin : c.label.builtin = false)
    (h : viewMetadataName c.label path = viewMetadataName c.label path') :
    subobjectTag path = subobjectTag path' := by
  have hroot : ∀ {path' : List Text}, path' ≠ [] →
      viewMetadataName c.label [] ≠ viewMetadataName c.label path' := by
    intro path' hne heq
    obtain ⟨stem, hstem, hbelongs⟩ := viewMetadataName_root hbuiltin
    rw [heq, viewMetadataName_view _ hne] at hbelongs
    have hsame := hbelongs.stem_unique (d := c) (.named (by decide) (.inr ⟨_, rfl⟩))
    rw [hsame] at hstem
    exact absurd hstem (by decide)
  by_cases hnil : path = []
  · by_cases hnil' : path' = []
    · rw [hnil, hnil']
    · rw [hnil] at h
      exact absurd h (hroot hnil')
  · by_cases hnil' : path' = []
    · rw [hnil'] at h
      exact absurd h.symm (hroot hnil)
    · rw [viewMetadataName_view _ hnil, viewMetadataName_view _ hnil'] at h
      exact (List.cons.inj (append_cancel_left (Stem.cancel h).2)).2

theorem nodup_flatMap_views (htags : ((subobjects c).map fun view => subobjectTag view.1).Nodup)
    {f : List Text × ClassDeclaration → List Text} (hnodup : ∀ view ∈ subobjects c, (f view).Nodup)
    (hcut : ∀ view view' text, text ∈ f view → text ∈ f view' →
      subobjectTag view.1 = subobjectTag view'.1) : ((subobjects c).flatMap f).Nodup := by
  refine List.nodup_flatMap.mpr ⟨hnodup, ?_⟩
  refine (List.pairwise_map.mp htags).imp ?_
  intro view view' hne text htext htext'
  exact hne (hcut view view' text htext htext')

/-! ## Metadata -/

theorem viewSymbols_belongs (hbuiltin : c.label.builtin = false) (h : text ∈ viewSymbols c view) :
    ∃ stem ∈ [Stem.methodTable, .stringMetadata, .classMetadata, .viewMetadata],
    Belongs c stem text := by
  rw [viewSymbols, mem_append, List.mem_singleton] at h
  rcases h with h | rfl
  · split at h
    · cases h
    · rw [List.mem_singleton.mp h, methodTableName_eq]
      exact ⟨_, by decide, .named (by decide) (isPart_viewPart _)⟩
  · obtain ⟨stem, hstem, hbelongs⟩ := viewMetadataName_belongs hbuiltin view.1
    exact ⟨stem, mem_cons_of_mem _ hstem, hbelongs⟩

theorem methodTable_ne_viewMetadata (hbuiltin : c.label.builtin = false) (path path' : List Text) :
    methodTableName c.label path ≠ viewMetadataName c.label path' := by
  intro heq
  obtain ⟨stem, hstem, hbelongs⟩ := viewMetadataName_belongs hbuiltin path'
  rw [← heq, methodTableName_eq] at hbelongs
  have hsame := hbelongs.stem_unique (d := c) (.named (by decide) (isPart_viewPart _))
  rw [hsame] at hstem
  exact absurd hstem (by decide)

theorem viewSymbols_nodup (hbuiltin : c.label.builtin = false)
    (view : List Text × ClassDeclaration) :
    (viewSymbols c view).Nodup := by
  rw [viewSymbols]
  split
  · exact nodup_singleton _
  · refine List.Nodup.append (nodup_singleton _) (nodup_singleton _) ?_
    intro text htable hmetadata
    exact methodTable_ne_viewMetadata hbuiltin view.1 view.1
      ((List.mem_singleton.mp htable).symm.trans (List.mem_singleton.mp hmetadata))

theorem viewSymbols_tag (hbuiltin : c.label.builtin = false) {view' : List Text × ClassDeclaration}
    (h : text ∈ viewSymbols c view) (h' : text ∈ viewSymbols c view') :
    subobjectTag view.1 = subobjectTag view'.1 := by
  have hcases : ∀ {view : List Text × ClassDeclaration}, text ∈ viewSymbols c view →
      text = methodTableName c.label view.1 ∨ text = viewMetadataName c.label view.1 := by
    intro view h
    rw [viewSymbols, mem_append, List.mem_singleton] at h
    refine h.imp_left fun h => ?_
    split at h
    · cases h
    · exact List.mem_singleton.mp h
  rcases hcases h with rfl | rfl
  · rcases hcases h' with heq | heq
    · rw [methodTableName_eq, methodTableName_eq] at heq
      exact viewPart_tag (append_cancel_left (Stem.cancel heq).2)
    · exact absurd heq (methodTable_ne_viewMetadata hbuiltin _ _)
  · rcases hcases h' with heq | heq
    · exact absurd heq.symm (methodTable_ne_viewMetadata hbuiltin _ _)
    · exact viewMetadataName_tag hbuiltin heq

def metadataStems : List Stem :=
  [.referenceOffsets, .dynamicReferenceOffsets, .baseNames, .methodTable, .stringMetadata,
    .classMetadata, .viewMetadata]

theorem ownerGlobal_belongs (c : ClassDeclaration) (h : stem ≠ .stringMetadata) :
    Belongs c stem (stem.text ++ c.label.name) := by
  have hnamed : Belongs c stem (stem.text ++ (c.label.name ++ [])) := .named h (.inl rfl)
  rwa [append_nil] at hnamed

theorem mem_optional (h : text ∈ if condition then [x] else []) :
    text = x := by
  split at h
  · exact List.mem_singleton.mp h
  · cases h

theorem optional_nodup (condition : Bool) (x : Text) : (if condition then [x] else []).Nodup := by
  split
  · exact nodup_singleton _
  · exact List.nodup_nil

theorem classMetadataSymbols_belongs (hbuiltin : c.label.builtin = false)
    (h : text ∈ classMetadataSymbols p c) : ∃ stem ∈ metadataStems, Belongs c stem text := by
  simp only [classMetadataSymbols, mem_append, List.mem_flatMap] at h
  rcases h with ((h | h) | h) | ⟨view, _, h⟩
  · exact ⟨_, by decide, mem_optional h ▸ ownerGlobal_belongs c (by decide)⟩
  · exact ⟨_, by decide, mem_optional h ▸ ownerGlobal_belongs c (by decide)⟩
  · exact ⟨_, by decide, mem_optional h ▸ ownerGlobal_belongs c (by decide)⟩
  · obtain ⟨stem, hstem, hbelongs⟩ := viewSymbols_belongs hbuiltin h
    exact ⟨stem, mem_append_right [Stem.referenceOffsets, .dynamicReferenceOffsets,
      .baseNames] hstem,
      hbelongs⟩

/-- All globals of a list have one of some stems. -/
def Stemmed (stems : List Stem) (list : List Text) : Prop :=
  ∀ text ∈ list, ∃ stem ∈ stems, ∃ c : ClassDeclaration, Belongs c stem text

theorem Stemmed.append (h : Stemmed stems l)
    (h' : Stemmed stems' l') : Stemmed (stems ++ stems') (l ++ l') := by
  intro text htext
  rcases List.mem_append.mp htext with htext | htext
  · obtain ⟨stem, hstem, hbelongs⟩ := h text htext
    exact ⟨stem, List.mem_append_left _ hstem, hbelongs⟩
  · obtain ⟨stem, hstem, hbelongs⟩ := h' text htext
    exact ⟨stem, mem_append_right _ hstem, hbelongs⟩

/-- Symbols of different stems are different. -/
theorem Stemmed.nodup_append (h : Stemmed stems l) (h' : Stemmed stems' l')
    (hstems : ∀ stem ∈ stems, stem ∉ stems') (hl : l.Nodup) (hl' : l'.Nodup) : (l ++ l').Nodup := by
  refine hl.append hl' ?_
  intro text htext htext'
  obtain ⟨stem, hstem, c, hbelongs⟩ := h text htext
  obtain ⟨stem', hstem', d, hbelongs'⟩ := h' text htext'
  rw [hbelongs.stem_unique hbelongs'] at hstem
  exact hstems _ hstem hstem'

theorem stemmed_optional (h : stem ≠ .stringMetadata) :
    Stemmed [stem] (if condition then [stem.text ++ c.label.name] else []) := by
  intro text htext
  exact ⟨stem, List.mem_singleton.mpr rfl, c, mem_optional htext ▸ ownerGlobal_belongs c h⟩

theorem stemmed_views (hbuiltin : c.label.builtin = false) :
    Stemmed [.methodTable, .stringMetadata, .classMetadata, .viewMetadata]
      ((subobjects c).flatMap (viewSymbols c)) := by
  intro text htext
  obtain ⟨view, _, hview⟩ := List.mem_flatMap.mp htext
  obtain ⟨stem, hstem, hbelongs⟩ := viewSymbols_belongs hbuiltin hview
  exact ⟨stem, hstem, c, hbelongs⟩

theorem classMetadataSymbols_nodup (hbuiltin : c.label.builtin = false)
    (htags : ((subobjects c).map fun view => subobjectTag view.1).Nodup) :
    (classMetadataSymbols p c).Nodup := by
  have hviews : ((subobjects c).flatMap (viewSymbols c)).Nodup :=
    nodup_flatMap_views htags (fun view _ => viewSymbols_nodup hbuiltin view)
      fun _ _ _ h h' => viewSymbols_tag hbuiltin h h'
  have hstems := stemmed_views hbuiltin
  rw [classMetadataSymbols, append_assoc, append_assoc]
  have hbases := (stemmed_optional (by decide)).nodup_append hstems (by decide)
    (optional_nodup ((subobjects c).any fun subobject => subobject.1 != [])
      (Stem.baseNames.text ++ c.label.name)) hviews
  have hdynamic := (stemmed_optional (by decide)).nodup_append
    ((stemmed_optional (by decide)).append hstems) (by decide)
    (optional_nodup ((objectFields c).any isDynamicValueType)
      (Stem.dynamicReferenceOffsets.text ++ c.label.name)) hbases
  exact (stemmed_optional (by decide)).nodup_append
    ((stemmed_optional (by decide)).append ((stemmed_optional (by decide)).append hstems))
      (by decide)
    (optional_nodup _ _) hdynamic

theorem metadataSymbols_stemmed (p : Program) : Stemmed metadataStems (metadataSymbols p) := by
  intro text htext
  obtain ⟨c, hc, hmem⟩ := List.mem_flatMap.mp htext
  have hbuiltin : c.label.builtin = false := by simpa using (List.mem_filter.mp hc).2
  obtain ⟨stem, hstem, hbelongs⟩ := classMetadataSymbols_belongs hbuiltin hmem
  exact ⟨stem, hstem, c, hbelongs⟩

/-- Views of different tags have different metadata. -/
theorem metadataSymbols_nodup (htags : ∀ c ∈ p.classes,
    ((subobjects c).map fun view => subobjectTag view.1).Nodup) : (metadataSymbols p).Nodup := by
  refine nodup_flatMap_classes List.filter_sublist ?_ ?_
  · intro c hc
    obtain ⟨hmem, hbuiltin⟩ := List.mem_filter.mp hc
    exact classMetadataSymbols_nodup (by simpa using hbuiltin) (htags c hmem)
  · intro c hc text htext
    have hbuiltin : c.label.builtin = false := by simpa using (List.mem_filter.mp hc).2
    obtain ⟨stem, _, hbelongs⟩ := classMetadataSymbols_belongs hbuiltin htext
    exact ⟨stem, hbelongs⟩

/-! ## Thunks -/

theorem thunkName_belongs (c : ClassDeclaration) (path : List Text) (index : Nat) :
    Belongs c .thunk (thunkName c.label path index) := .named (by decide) (.inr ⟨_, rfl⟩)

theorem thunkName_cut (h : thunkName owner path index = thunkName owner path' index') :
    subobjectTag path = subobjectTag path' ∧ index = index' := by
  have hrest := (List.cons.inj (append_cancel_left (Stem.cancel h).2)).2
  obtain ⟨htag, hindex⟩ := dot_cancel_right (decimal_special index).1
    (decimal_special index').1 hrest
  exact ⟨htag, decimal_injective hindex⟩

theorem mem_viewThunks
    (h : text ∈ viewThunks p c view) : ∃ index, text = thunkName c.label view.1 index := by
  obtain ⟨slot, _, rfl⟩ := List.mem_map.mp h
  exact ⟨slot.2, rfl⟩

theorem viewThunks_nodup (view : List Text × ClassDeclaration) : (viewThunks p c view).Nodup := by
  have hindices : (((methodSlots view.2).zipIdx.filter fun slot =>
      (implementation p c view slot.1).isSome).map Prod.snd).Nodup :=
    (List.nodup_zipIdx_map_snd _).sublist (List.filter_sublist.map _)
  refine (List.Nodup.of_map _ hindices).map_on ?_
  intro slot hslot slot' hslot' h
  exact List.inj_on_of_nodup_map hindices hslot hslot' (thunkName_cut h).2

theorem thunkSymbols_stemmed (p : Program) : Stemmed [.thunk] (thunkSymbols p) := by
  intro text htext
  obtain ⟨c, _, hmem⟩ := List.mem_flatMap.mp htext
  obtain ⟨view, _, hview⟩ := List.mem_flatMap.mp hmem
  obtain ⟨index, rfl⟩ := mem_viewThunks hview
  exact ⟨_, mem_cons_self, c, thunkName_belongs c _ _⟩

/-- So have thunks, by tag and slot. -/
theorem thunkSymbols_nodup (htags : ∀ c ∈ p.classes,
    ((subobjects c).map fun view => subobjectTag view.1).Nodup) : (thunkSymbols p).Nodup := by
  refine nodup_flatMap_classes (List.Sublist.refl _) ?_ ?_
  · intro c hc
    refine nodup_flatMap_views (htags c hc) (fun view _ => viewThunks_nodup view) ?_
    intro view view' text h h'
    obtain ⟨index, rfl⟩ := mem_viewThunks h
    obtain ⟨index', heq⟩ := mem_viewThunks h'
    exact (thunkName_cut heq).1
  · intro c _ text htext
    obtain ⟨view, _, hview⟩ := List.mem_flatMap.mp htext
    obtain ⟨index, rfl⟩ := mem_viewThunks hview
    exact ⟨_, thunkName_belongs c _ _⟩

/-! ## Finalizers -/

theorem finalizerName_belongs (c : ClassDeclaration) :
    Belongs c .finalizer (finalizerName c.label) :=
  ownerGlobal_belongs c (by decide)

theorem destroyCopyName_belongs (c : ClassDeclaration) (index : Nat) (destroyed : ClassInfo) :
    Belongs c .destroyCopy (destroyCopyName c.label index destroyed) :=
  .named (by decide) (.inr ⟨_, rfl⟩)

theorem mem_classFinalizers (h : text ∈ classFinalizers p c) :
    destructorChain p c ≠ [] ∧ (text = finalizerName c.label ∨
      ∃ call ∈ (destructorChain p c).zipIdx, text = destroyCopyName c.label call.2 call.1) := by
  rw [classFinalizers] at h
  split at h
  · cases h
  · next hchain =>
    refine ⟨hchain, ?_⟩
    rw [mem_append, List.mem_singleton] at h
    rcases h with h | h
    · obtain ⟨call, hcall, rfl⟩ := List.mem_map.mp h
      exact .inr ⟨call, hcall, rfl⟩
    · exact .inl h

theorem classFinalizers_belongs (h : text ∈ classFinalizers p c) :
    ∃ stem ∈ [Stem.finalizer, .destroyCopy], Belongs c stem text := by
  rcases (mem_classFinalizers h).2 with rfl | ⟨call, _, rfl⟩
  · exact ⟨_, by decide, finalizerName_belongs c⟩
  · exact ⟨_, by decide, destroyCopyName_belongs c _ _⟩

theorem destroyCopyName_index {destroyed destroyed' : ClassInfo}
    (h : destroyCopyName owner index destroyed = destroyCopyName owner index' destroyed') :
    index = index' := by
  have hrest := (List.cons.inj (append_cancel_left (Stem.cancel h).2)).2
  exact decimal_injective (dot_cancel_left (decimal_special index).1
    (decimal_special index').1 hrest).1

theorem classFinalizers_nodup (p : Program) (c : ClassDeclaration) :
    (classFinalizers p c).Nodup := by
  rw [classFinalizers]
  split
  · exact List.nodup_nil
  · have hindices := List.nodup_zipIdx_map_snd (destructorChain p c)
    have hcopies : ((destructorChain p c).zipIdx.map fun call =>
        destroyCopyName c.label call.2 call.1).Nodup := by
      refine (List.Nodup.of_map _ hindices).map_on ?_
      intro call hcall call' hcall' h
      exact List.inj_on_of_nodup_map hindices hcall hcall' (destroyCopyName_index h)
    have hcopyStems : Stemmed [.destroyCopy] ((destructorChain p c).zipIdx.map fun call =>
        destroyCopyName c.label call.2 call.1) := by
      intro text htext
      obtain ⟨call, _, rfl⟩ := List.mem_map.mp htext
      exact ⟨_, mem_cons_self, c, destroyCopyName_belongs c _ _⟩
    have hfinalizerStem : Stemmed [.finalizer] [finalizerName c.label] := by
      intro text htext
      rw [List.mem_singleton.mp htext]
      exact ⟨_, mem_cons_self, c, finalizerName_belongs c⟩
    exact hcopyStems.nodup_append hfinalizerStem (by decide) hcopies (nodup_singleton _)

theorem finalizerSymbols_stemmed (p : Program) (generatingModule : Text) :
    Stemmed [.finalizer, .destroyCopy] (finalizerSymbols p generatingModule) := by
  intro text htext
  obtain ⟨c, _, hmem⟩ := List.mem_flatMap.mp htext
  obtain ⟨stem, hstem, hbelongs⟩ := classFinalizers_belongs hmem
  exact ⟨stem, hstem, c, hbelongs⟩

theorem finalizerSymbols_nodup (p : Program) (generatingModule : Text) :
    (finalizerSymbols p generatingModule).Nodup := by
  refine nodup_flatMap_classes List.filter_sublist (fun c _ => classFinalizers_nodup p c) ?_
  intro c _ text htext
  obtain ⟨stem, _, hbelongs⟩ := classFinalizers_belongs htext
  exact ⟨stem, hbelongs⟩

/-! ## Methods -/

theorem mangleParameters_rest (parameters : List Text) :
    mangleParameters parameters = [] ∨ ∃ t, mangleParameters parameters = '$' :: t := by
  rw [mangleParameters]
  split
  · exact .inl rfl
  · exact .inr ⟨_, rfl⟩

theorem methodSymbol_eq (hc : c ∈ p.classes)
    (h : method ∈ c.label.methods) : methodSymbol c.label.name method
      = methodStem ++ ((c.label.name ++ '.' :: method.name) ++
      mangleParameters method.parameters) := by
  rw [methodSymbol]
  split
  · next hdestructor =>
    rw [p.plainDestructors c hc method h hdestructor, mangleParameters, if_pos rfl, append_nil]
  · simp only [append_assoc, List.cons_append]

theorem method_qualified (hc : c ∈ p.classes)
    (h : method ∈ c.label.methods) : isQualified (c.label.name ++ '.' :: method.name) = true := by
  rw [isQualified_append, p.qualified c hc, isQualified_identifier (p.methodNames c hc method h)]
  rfl

/-- A method symbol gives back the class, the name and the types. -/
theorem methodSymbol_injective (hc : c ∈ p.classes) (hd : d ∈ p.classes) {other : MethodDeclaration}
    (hmethod : method ∈ c.label.methods) (hother : other ∈ d.label.methods)
    (h : methodSymbol c.label.name method = methodSymbol d.label.name other) :
    c = d ∧ method = other := by
  rw [methodSymbol_eq hc hmethod, methodSymbol_eq hd hother] at h
  obtain ⟨hname, hparameters⟩ := rest_cancel (isQualified_dollar (method_qualified hc hmethod))
    (isQualified_dollar (method_qualified hd hother)) (mangleParameters_rest _)
    (mangleParameters_rest _) (append_cancel_left h)
  obtain ⟨hclass, hmethodName⟩ :=
    dot_cancel_right (isIdentifier_dot (p.methodNames c hc method hmethod))
    (isIdentifier_dot (p.methodNames d hd other hother)) hname
  have hsame := p.class_unique hc hd hclass
  subst hsame
  have htypes := mangleParameters_injective (fun _ ht => p.readable hc hmethod ht)
    (fun _ ht => p.readable hc hother ht) hparameters
  exact ⟨rfl, p.method_unique hc hmethod hother ⟨hmethodName, htypes⟩⟩

theorem methodSymbols_nodup (p : Program) (generatingModule : Text) :
    (methodSymbols p generatingModule).Nodup := by
  have hclasses : (moduleClasses p generatingModule).Nodup :=
    (List.Nodup.of_map _ p.distinct).sublist List.filter_sublist
  refine List.nodup_flatMap.mpr ⟨?_, ?_⟩
  · intro c hc
    have hmem := (List.mem_filter.mp hc).1
    refine (List.Nodup.of_map _ (p.methods c hmem)).map_on ?_
    intro method hmethod other hother h
    exact (methodSymbol_injective hmem hmem hmethod hother h).2
  · refine hclasses.imp_of_mem ?_
    intro c d hc hd hne text htext htext'
    obtain ⟨method, hmethod, rfl⟩ := List.mem_map.mp htext
    obtain ⟨other, hother, heq⟩ := List.mem_map.mp htext'
    exact hne (methodSymbol_injective (List.mem_filter.mp hc).1 (List.mem_filter.mp hd).1 hmethod
      hother heq.symm).1

/-! ## Methods and generated globals -/

theorem Belongs.stem_append (h : Belongs c stem text) :
    ∃ x, text = stem.text ++ x := by
  cases h with
  | named => exact ⟨_, rfl⟩
  | string => exact ⟨[], (append_nil _).symm⟩

theorem methodSymbol_cancel (hc : c ∈ p.classes) (h : method ∈ c.label.methods) (hdollar : '$' ∉ x)
    (heq : methodSymbol c.label.name method = stem.text ++ x) :
    ∃ tail, (stem, tail) ∈ [(Stem.thunk, "thunk.".toList), (.finalizer, finalizeName ++ ['.']),
        (.destroyCopy, "destroy.".toList)] ∧ method.parameters = [] ∧
      c.label.name ++ '.' :: method.name = tail ++ x := by
  rw [methodSymbol_eq hc h] at heq
  obtain ⟨tail, htail, hrest⟩ := methodStem_cancel heq
  have hplain : (Stem.all.all fun _ => [(Stem.thunk, "thunk.".toList),
      (.finalizer, finalizeName ++ ['.']), (.destroyCopy, "destroy.".toList)].all fun entry =>
        !entry.2.contains '$') = true := by decide +kernel
  have htailDollar : '$' ∉ tail := by
    have htest := List.all_eq_true.mp (List.all_eq_true.mp hplain stem stem.mem_all) _ htail
    simpa using htest
  obtain ⟨hname, hparameters⟩ := rest_cancel (y := []) (isQualified_dollar (method_qualified hc h))
    (fun hmem => (List.mem_append.mp hmem).elim htailDollar hdollar) (mangleParameters_rest _)
    (.inl rfl) (by rw [append_nil]; exact hrest)
  refine ⟨tail, htail, ?_, hname⟩
  rw [mangleParameters] at hparameters
  split at hparameters
  · assumption
  · cases hparameters

theorem walk_names {c : ClassDeclaration} {spot : Spot} {reached : ClassDeclaration × Spot}
    (h : walk c spot path = some reached) {name : Text}
    (hname : name ∈ path) : ∃ u ∈ c.subtrees, u.label.name = name := by
  induction path generalizing c spot with
  | nil => cases hname
  | cons first path ih =>
    obtain ⟨base, hbase, hrest⟩ := walk_cons.mp h
    obtain ⟨hmem, rfl⟩ := find_edge hbase
    have hedge := Tree.mem_subtrees_edge hmem
    rcases List.mem_cons.mp hname with rfl | hname
    · exact ⟨base.2, hedge, rfl⟩
    · obtain ⟨u, hu, heq⟩ := ih hrest hname
      exact ⟨u, Tree.mem_subtrees_trans _ hedge hu, heq⟩

theorem mem_tagSteps {tag : Text} {x : Char}
    (h : x ∈ path.foldl (fun tag name => (if 1 < tag.length then tag ++ ['_'] else tag) ++ name)
    tag) :
    x ∈ tag ∨ x = '_' ∨ ∃ name ∈ path, x ∈ name := by
  induction path generalizing tag with
  | nil => exact .inl h
  | cons name path ih =>
    rcases ih h with h | h | ⟨later, hlater, h⟩
    · rcases List.mem_append.mp h with h | h
      · split at h
        · rcases List.mem_append.mp h with h | h
          · exact .inl h
          · exact .inr (.inl (List.mem_singleton.mp h))
        · exact .inl h
      · exact .inr (.inr ⟨name, mem_cons_self, h⟩)
    · exact .inr (.inl h)
    · exact .inr (.inr ⟨later, mem_cons_of_mem _ hlater, h⟩)

theorem subobjectTag_dollar (hd : d ∈ p.classes)
    (hview : view ∈ subobjects d) : '$' ∉ subobjectTag view.1 := by
  intro hmem
  rw [subobjectTag] at hmem
  split at hmem
  · exact absurd hmem (by decide +kernel)
  · rcases mem_tagSteps hmem with h | h | ⟨name, hname, h⟩
    · exact absurd h (by decide)
    · exact absurd h (by decide)
    · obtain ⟨_, hwalk⟩ := subobjects_walk (p.distinctBases hd) hview whole
      obtain ⟨u, hu, rfl⟩ := walk_names hwalk hname
      exact isQualified_dollar (p.qualified u (p.mem_subtree hd hu)) h

theorem methodSymbol_ne_thunk (hc : c ∈ p.classes) (h : method ∈ c.label.methods)
    (hd : d ∈ p.classes) (hview : view ∈ subobjects d) (index : Nat) :
    methodSymbol c.label.name method ≠ thunkName d.label view.1 index := by
  intro heq
  have hdollar : '$' ∉ d.label.name ++ '.' :: (subobjectTag view.1 ++ '.' :: decimal index) := by
    simp only [mem_append, List.mem_cons, not_or]
    exact ⟨isQualified_dollar
      (p.qualified d hd), by decide, subobjectTag_dollar hd hview, by decide,
      (decimal_special index).2⟩
  obtain ⟨tail, _, _, hname⟩ := methodSymbol_cancel hc h hdollar heq
  have hqualified := method_qualified hc h
  rw [hname, ← List.cons_append, ← append_assoc, ← append_assoc, isQualified_append,
    isQualified_decimal, Bool.and_false] at hqualified
  cases hqualified

mutual

theorem mem_collectNonVirtual {c : ClassDeclaration} {info : ClassInfo}
    (h : info ∈ collectNonVirtual c) : ∃ u ∈ c.subtrees, u.label = info := by
  match c with
  | .node own bases =>
    rw [collectNonVirtual, mem_append] at h
    rcases h with h | h
    · obtain ⟨_, _, rfl⟩ := List.mem_map.mp h
      exact ⟨_, Tree.mem_subtrees_self _, rfl⟩
    · obtain ⟨base, hbase, u, hu, hlabel⟩ := mem_collectBases h
      exact ⟨u, Tree.mem_subtrees.mpr (.inr ⟨base, hbase, hu⟩), hlabel⟩

theorem mem_collectBases {bases : Edges ClassInfo BaseInfo} {info : ClassInfo}
    (h : info ∈ collectBases bases) :
    ∃ base ∈ bases.toList, ∃ u ∈ base.2.subtrees, u.label = info := by
  match bases with
  | .nil => cases h
  | .cons edge base rest =>
    rw [collectBases, mem_append] at h
    rcases h with h | h
    · obtain ⟨base', hbase', hu⟩ := mem_collectBases h
      exact ⟨base', mem_cons_of_mem _ hbase', hu⟩
    · split at h
      · cases h
      · exact ⟨(edge, base), mem_cons_self, mem_collectNonVirtual h⟩

end

theorem mem_destructorChain (hd : d ∈ p.classes)
    (h : info ∈ destructorChain p d) : ∃ u ∈ p.classes, u.label = info := by
  rw [destructorChain, mem_append] at h
  rcases h with h | h
  · obtain ⟨u, hu, hlabel⟩ := mem_collectNonVirtual h
    exact ⟨u, p.mem_subtree hd hu, hlabel⟩
  · obtain ⟨name, _, hmem⟩ := List.mem_flatMap.mp h
    split at hmem
    · next base hbase =>
      obtain ⟨u, hu, hlabel⟩ := mem_collectNonVirtual hmem
      exact ⟨u, p.mem_subtree (List.mem_of_find?_eq_some hbase) hu, hlabel⟩
    · cases hmem

theorem methodSymbol_ne_destroyCopy (hc : c ∈ p.classes) (h : method ∈ c.label.methods)
    (hd : d ∈ p.classes) (hinfo : info ∈ destructorChain p d) (index : Nat) :
    methodSymbol c.label.name method ≠ destroyCopyName d.label index info := by
  intro heq
  obtain ⟨u, hu, rfl⟩ := mem_destructorChain hd hinfo
  have hdollar : '$' ∉ d.label.name ++ '.' :: (decimal index ++ '.' :: u.label.name) := by
    simp only [mem_append, List.mem_cons, not_or]
    exact ⟨isQualified_dollar (p.qualified d hd), by decide, (decimal_special index).2, by decide,
      isQualified_dollar (p.qualified u hu)⟩
  obtain ⟨tail, _, _, hname⟩ := methodSymbol_cancel hc h hdollar heq
  have hqualified := method_qualified hc h
  rw [hname, ← append_assoc, isQualified_append, isQualified_append, isQualified_decimal,
    Bool.false_and, Bool.and_false] at hqualified
  cases hqualified

theorem methodSymbol_eq_finalizer (hc : c ∈ p.classes) (h : method ∈ c.label.methods)
    (hd : d ∈ p.classes) :
    methodSymbol c.label.name method = finalizerName d.label ↔ method.parameters = [] ∧
      c.label.name ++ '.' :: method.name = finalizeName ++ '.' :: d.label.name := by
  have hstem : Stem.finalizer.text = methodStem ++ (finalizeName ++ ['.']) := by decide +kernel
  constructor
  · intro heq
    obtain ⟨tail, htail, hparameters, hname⟩ :=
      methodSymbol_cancel hc h (isQualified_dollar (p.qualified d hd)) heq
    obtain rfl : tail = finalizeName ++ ['.'] := by simpa using htail
    refine ⟨hparameters, ?_⟩
    rw [hname, append_assoc]
    rfl
  · rintro ⟨hparameters, hname⟩
    rw [methodSymbol_eq hc h, hparameters, mangleParameters, if_pos rfl, append_nil, hname,
      finalizerName, hstem]
    simp only [append_assoc, List.cons_append, List.nil_append]

variable {generatingModule : Text}

/-- No method has the symbol of a generated global. -/
theorem methodSymbol_generated (h : Separated p generatingModule) (hc : c ∈ p.classes)
    (hmethod : method ∈ c.label.methods) :
    methodSymbol c.label.name method ∉ generatedSymbols p generatingModule := by
  have hfinalizer : ∀ d ∈ p.classes, HasFinalizer p generatingModule d →
      methodSymbol c.label.name method ≠ finalizerName d.label := by
    intro d hd hhas heq
    obtain ⟨hparameters, hname⟩ := (methodSymbol_eq_finalizer hc hmethod hd).mp heq
    exact h.finalizers c hc method hmethod hparameters d hd hhas hname
  intro hmem
  simp only [generatedSymbols, mem_append] at hmem
  rcases hmem with hmetadata | hthunk | hfinal | hdeclared
  · obtain ⟨stem, hstem, d, hbelongs⟩ := metadataSymbols_stemmed p _ hmetadata
    obtain ⟨x, hx⟩ := hbelongs.stem_append
    rw [methodSymbol_eq hc hmethod] at hx
    obtain ⟨tail, htail, _⟩ := methodStem_cancel hx
    have hshared : stem ∈ [Stem.thunk, .finalizer, .destroyCopy] :=
      List.mem_map_of_mem (f := Prod.fst) htail
    have hdisjoint : ∀ stem ∈ [Stem.thunk, .finalizer, .destroyCopy],
      stem ∉ metadataStems := by decide
    exact hdisjoint stem hshared hstem
  · obtain ⟨d, hd, hviews⟩ := List.mem_flatMap.mp hthunk
    obtain ⟨view, hview, hslot⟩ := List.mem_flatMap.mp hviews
    obtain ⟨index, heq⟩ := mem_viewThunks hslot
    exact methodSymbol_ne_thunk hc hmethod hd hview index heq
  · obtain ⟨d, hd, hclass⟩ := List.mem_flatMap.mp hfinal
    have hdmem := (List.mem_filter.mp hd).1
    obtain ⟨hchain, heq | ⟨call, hcall, heq⟩⟩ := mem_classFinalizers hclass
    · exact hfinalizer d hdmem (.inr hchain) heq
    · exact methodSymbol_ne_destroyCopy hc hmethod hdmem (List.fst_mem_of_mem_zipIdx hcall) _ heq
  · obtain ⟨d, hd, heq⟩ := List.mem_map.mp hdeclared
    obtain ⟨hdmem, hmodule⟩ := List.mem_filter.mp hd
    exact hfinalizer d hdmem (.inl (by simpa using hmodule)) heq.symm

/-- Separated names suffice. -/
theorem Separated.collisionFree (h : Separated p generatingModule) :
    CollisionFree p generatingModule := by
  refine ⟨?_, fun c hc method hmethod => methodSymbol_generated h hc hmethod⟩
  have hgenerated : ((thunkSymbols p ++ finalizerSymbols p generatingModule)).Nodup :=
    (thunkSymbols_stemmed p).nodup_append (finalizerSymbols_stemmed p generatingModule) (by decide)
      (thunkSymbols_nodup h.tags) (finalizerSymbols_nodup p generatingModule)
  have hmethods : ∀ text ∈ methodSymbols p generatingModule,
      text ∉ generatedSymbols p generatingModule := by
    intro text htext
    obtain ⟨c, hc, hmem⟩ := List.mem_flatMap.mp htext
    obtain ⟨method, hmethod, rfl⟩ := List.mem_map.mp hmem
    exact methodSymbol_generated h (List.mem_filter.mp hc).1 hmethod
  refine (metadataSymbols_nodup h.tags).append
    ((methodSymbols_nodup p generatingModule).append hgenerated ?_) ?_
  · intro text hmethod hmem
    refine hmethods text hmethod ?_
    simp only [generatedSymbols, mem_append] at hmem ⊢
    tauto
  · intro text hmetadata hmem
    rcases List.mem_append.mp hmem with hmethod | hmem
    · exact hmethods text hmethod (List.mem_append_left _ hmetadata)
    · obtain ⟨stem, hstem, c, hbelongs⟩ := metadataSymbols_stemmed p _ hmetadata
      obtain ⟨stem', hstem', d, hbelongs'⟩ := ((thunkSymbols_stemmed p).append
        (finalizerSymbols_stemmed p generatingModule)) _ hmem
      have hdisjoint : ∀ stem ∈ [Stem.thunk] ++ [.finalizer, .destroyCopy],
          stem ∉ metadataStems := by
        decide
      rw [hbelongs.stem_unique hbelongs'] at hstem
      exact hdisjoint _ hstem' hstem

theorem CollisionFree.tags (h : CollisionFree p generatingModule) (hc : c ∈ p.classes) :
    ((subobjects c).map fun view => subobjectTag view.1).Nodup := by
  cases hbuiltin : c.label.builtin with
  | true =>
    -- the built-in class has no bases
    have hbases := p.builtinBases c hc hbuiltin
    cases c with
    | node info bases =>
      cases bases with
      | nil => exact nodup_singleton _
      | cons edge base rest => cases hbases
  | false =>
    have hviews : ((subobjects c).map fun view => viewMetadataName c.label view.1).Sublist
        ((subobjects c).flatMap (viewSymbols c)) := by
      induction subobjects c with
      | nil => exact List.Sublist.refl _
      | cons view views ih =>
        rw [List.map_cons, List.flatMap_cons, viewSymbols, append_assoc]
        exact (List.Sublist.cons_cons _ ih).trans (List.sublist_append_right _ _)
    have hdefined := (List.nodup_append'.mp h.defined).1
    have hclass : (classMetadataSymbols p c).Nodup :=
      (List.nodup_flatMap.mp hdefined).1 c (List.mem_filter.mpr ⟨hc, by simp [hbuiltin]⟩)
    have hnames : ((subobjects c).map fun view => viewMetadataName c.label view.1).Nodup := by
      rw [classMetadataSymbols] at hclass
      exact (List.nodup_append'.mp hclass).2.1.sublist hviews
    have hname : ∀ view view' : List Text × ClassDeclaration,
        subobjectTag view.1 = subobjectTag view'.1 →
          viewMetadataName c.label view.1 = viewMetadataName c.label view'.1 := by
      intro view view' htag
      by_cases hnil : view.1 = []
      · have hnil' := subobjectTag_root.mp (htag.symm.trans (subobjectTag_root.mpr hnil))
        rw [hnil, hnil']
      · have hnil' : view'.1 ≠ [] := fun hnil' =>
          hnil (subobjectTag_root.mp (htag.trans (subobjectTag_root.mpr hnil')))
        rw [viewMetadataName_view _ hnil, viewMetadataName_view _ hnil', htag]
    exact List.pairwise_map.mpr ((List.pairwise_map.mp hnames).imp fun hne htag =>
      hne (hname _ _ htag))

/-- They are necessary too. -/
theorem CollisionFree.separated (h : CollisionFree p generatingModule) :
    Separated p generatingModule := by
  refine ⟨fun c hc => h.tags hc, ?_⟩
  intro c hc method hmethod hparameters d hd hhas hname
  refine h.methods c hc method hmethod ?_
  rw [(methodSymbol_eq_finalizer hc hmethod hd).mpr ⟨hparameters, hname⟩]
  simp only [generatedSymbols, mem_append]
  refine .inr (.inr ?_)
  by_cases hmodule : d.label.moduleName = generatingModule
  · have hchain := hhas.resolve_left (fun hne => hne hmodule)
    refine .inl (List.mem_flatMap.mpr ⟨d, List.mem_filter.mpr ⟨hd, by simp [hmodule]⟩, ?_⟩)
    rw [classFinalizers, if_neg hchain]
    exact mem_append_right _ mem_cons_self
  · exact .inr (List.mem_map.mpr ⟨d, List.mem_filter.mpr ⟨hd, by simpa using hmodule⟩, rfl⟩)

end

/-- For every accepted program and each of its modules: the names of the globals
    are distinct exactly if tags and finalizers are separated. -/
theorem collisionFree_iff (p : Program) (generatingModule : Text) :
    CollisionFree p generatingModule ↔ Separated p generatingModule :=
  ⟨CollisionFree.separated, Separated.collisionFree⟩

/-! ## Underscores in class names -/

def leafC : ClassDeclaration := .node (plainClass "C" []) .nil

/-- `class B : C` -/
def middleB : ClassDeclaration := .node (plainClass "B" [])
    (.cons ⟨.publicAccess, false⟩ leafC .nil)

/-- `class B_C` -/
def joinedBC : ClassDeclaration := .node (plainClass "B_C" []) .nil

/-- `class D : B, B_C` -/
def underscoreD : ClassDeclaration :=
  .node (plainClass "D" [])
    (.cons ⟨.publicAccess, false⟩ middleB (.cons ⟨.publicAccess, false⟩ joinedBC .nil))

def underscoreClasses : List ClassDeclaration := [leafC, middleB, joinedBC, underscoreD]

theorem underscoreClasses_plain :
    ∀ c ∈ underscoreClasses, ∀ method ∈ c.label.methods, method.parameters = [] := by decide +kernel

def underscoreProgram : Program where
  classes := underscoreClasses
  resolved := by decide +kernel
  distinct := by decide +kernel
  qualified := by decide +kernel
  separate := by decide +kernel
  builtinBases := by decide +kernel
  directBases := by decide +kernel
  methodNames := by decide +kernel
  destructors := by decide +kernel
  plainDestructors := fun c hc method h _ => underscoreClasses_plain c hc method h
  methods := by decide +kernel
  types := normalized_of_plain underscoreClasses_plain
  overrides := by decide +kernel

/-- The views `B`, `C` and `B_C` of `D` have one name. -/
theorem underscore_collides : ¬ ∀ p : Program, ∀ generatingModule,
    CollisionFree p generatingModule := by
  intro h
  have htags := (h underscoreProgram []).separated.tags underscoreD (by decide +kernel)
  exact absurd htags (by decide +kernel)

end Cwhip.CodeGen
