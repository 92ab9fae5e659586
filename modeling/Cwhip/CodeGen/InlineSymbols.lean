/-
  Cwhip.CodeGen.InlineSymbols

  The names of inline C shims (`inlineSymbol` and `emitInlineC` in
  `CodeGeneratorStatements.cpp`).

  A round of the hash is undone except in its low bits: the prime is a power of two
  and a little more, so words that agree above their low 24 bits are driven apart.
-/

import Mathlib.Algebra.Group.Nat.Defs
import Mathlib.Data.Char
import Mathlib.Data.List.Induction
import Cwhip.CodeGen.Mangling
import Cwhip.Lib.OrderedMap
import Cwhip.Parser.Token

namespace Cwhip.CodeGen

open Cwhip.Lib
open Cwhip.Parser (SourceLocation)

/-! ## The names -/

def hashRound (hash value : UInt64) : UInt64 := (hash ^^^ value) * 1099511628211

def fileHash (file : Text) : UInt64 :=
  file.foldl (fun hash value => hashRound hash (.ofNat value.toNat)) 14695981039346656037

/-- The prefix of a shim's name. -/
def inlineStem : Text := "cwhip_inline_".toList

/-- `inlineSymbol` -/
def inlineSymbol (location : SourceLocation) : Text :=
  let hash := [location.line, location.column].foldl (fun hash value =>
    hashRound hash (.ofNat value))
    (fileHash location.file)
  inlineStem ++ Nat.toDigits 16 hash.toNat

/-! ## The shims -/

structure InlineCapture where
  name : Text
  type : Text

structure InlineStatement where
  location : SourceLocation
  inlineSource : Text
  inlineCaptures : List InlineCapture

def captureParameter (capture : InlineCapture) : Text :=
  (if capture.type = "int".toList then "int64_t *".toList
  else if capture.type = "bool".toList then "_Bool *".toList
  else if capture.type = "float".toList then "double *".toList
  else if capture.type = "unsigned".toList then "uint64_t *".toList
  else if capture.type = "buffer".toList then "CwhipBuffer **".toList
  else "void **".toList) ++ capture.name

def shimDefinition (statement : InlineStatement) : Text :=
  let cParameters := List.intercalate ", ".toList (statement.inlineCaptures.map captureParameter)
  let definition := "void ".toList ++ inlineSymbol statement.location ++ ['('] ++
    (if cParameters = [] then "void".toList else cParameters) ++
    ") \x7b\n    cwhip_inline_cstr_begin();\n".toList ++ statement.inlineSource
  definition ++ (if definition.getLast? = some '\n' then [] else ['\n']) ++
    "    cwhip_inline_cstr_end();\n\x7d\n".toList

/-- What a module emits shims for: an inline statement, or the bridge of a callback
    type with the source that `emitCallbackBridge` writes for it. -/
inductive Shim where
  | inlineC (statement : InlineStatement)
  | callbackBridge (type source : Text)

def Shim.symbol : Shim → Text
  | inlineC statement => inlineSymbol statement.location
  | callbackBridge type _ => callbackSymbol type ++ "_create".toList

def Shim.definition : Shim → Text
  | inlineC statement => shimDefinition statement
  | callbackBridge _ source => source

/-- `declaredInlineSymbols_` and `inlineShims_` -/
structure InlineShims where
  declared : List Text
  shims : OrderedMap Text Text

/-- The shim is added the first time that its symbol is met. -/
def InlineShims.emit (state : InlineShims) (shim : Shim) : InlineShims :=
  if shim.symbol ∈ state.declared then state
  else ⟨shim.symbol :: state.declared, state.shims.emplace shim.symbol shim.definition⟩

def emitShims (emitted : List Shim) : InlineShims := emitted.foldl InlineShims.emit ⟨[], .empty⟩

/-- The shims of the program, gathered over the modules generated for it (`main.cpp`). -/
def programShims (modules : List (List Shim)) : OrderedMap Text Text :=
  modules.foldl (fun inlineShims emitted => (emitShims emitted).shims.entries.foldl
    (fun inlineShims shim => inlineShims.emplace shim.1 shim.2) inlineShims) .empty

/-! ## Injectivity -/

theorem hashRound_div {hash value : UInt64} (h : value.toNat < 2 ^ 24) :
    (hash ^^^ value).toNat / 2 ^ 24 = hash.toNat / 2 ^ 24 := by
  rw [UInt64.toNat_xor, Nat.xor_div_two_pow, Nat.div_eq_of_lt h, Nat.xor_zero]

theorem hashRound_toNat (hash value : UInt64) :
    2 ^ 64 * ((hash ^^^ value).toNat * 1099511628211 / 2 ^ 64) + (hashRound hash value).toNat =
      (hash ^^^ value).toNat * 1099511628211 := by
  have hprime : (1099511628211 : UInt64).toNat = 1099511628211 := by decide
  rw [hashRound, UInt64.toNat_mul, hprime, Nat.div_add_mod]

theorem hashRound_inj {hash hash' value value' : UInt64}
    (h : hashRound hash value = hashRound hash' value') :
    hash ^^^ value = hash' ^^^ value' := by
  have hinverse : (1099511628211 : UInt64) * 14886173955864302971 = 1 := by decide
  have hcancel := congrArg (· * (14886173955864302971 : UInt64)) h
  simpa only [hashRound, UInt64.mul_assoc, hinverse, UInt64.mul_one] using hcancel

theorem eq_of_mul_prime {x y a b c d : Nat} (hx : 2 ^ 64 * a + c = x * 1099511628211)
    (hy : 2 ^ 64 * b + d = y * 1099511628211) (hhigh : x / 2 ^ 24 = y / 2 ^ 24)
    (hmul : c / 2 ^ 24 = d / 2 ^ 24) :
    x = y := by
  -- the prime is 2 ^ 40 + 435, and 435 times the difference stays below 2 ^ 40
  obtain ⟨m, hm⟩ : ∃ m : Int, m = ((x : Int) - y) - ((a : Int) - b) * 2 ^ 24 := ⟨_, rfl⟩
  have hscaled : 2 ^ 40 * m = ((c : Int) - d) - 435 * ((x : Int) - y) := by omega
  have hzero : m = 0 := by omega
  omega

theorem toDigits_hex_injective {m n : Nat} (h : Nat.toDigits 16 m = Nat.toDigits 16 n) : m = n := by
  have hdigit : ∀ i < 16, ∀ j < 16, Nat.digitChar i = Nat.digitChar j → i = j := by decide
  have hlast (k : Nat) : Nat.toDigits 16 k =
      (if k < 16 then [] else Nat.toDigits 16 (k / 16)) ++ [Nat.digitChar (k % 16)] := by
    rw [Nat.toDigits_eq_if (by omega)]
    split
    · next hk => rw [Nat.mod_eq_of_lt hk, List.nil_append]
    · rfl
  induction m using Nat.strongRecOn generalizing n with
  | ind m ih =>
    rw [hlast m, hlast n] at h
    obtain ⟨hfront, hend⟩ := List.append_inj' h rfl
    have hmod := hdigit _ (Nat.mod_lt m (by omega)) _ (Nat.mod_lt n (by omega))
      (List.singleton_inj.mp hend)
    split at hfront
    · split at hfront
      · omega
      · exact absurd hfront.symm Nat.toDigits_ne_nil
    · split at hfront
      · exact absurd hfront Nat.toDigits_ne_nil
      · have hdiv := ih (m / 16) (by omega) hfront
        omega

theorem inlineSymbol_inj {file : Text} {line column line' column' : Nat} (hline : line < 2 ^ 24)
    (hcolumn : column < 2 ^ 24) (hline' : line' < 2 ^ 24) (hcolumn' : column' < 2 ^ 24)
    (h : inlineSymbol ⟨file, line, column⟩ = inlineSymbol ⟨file, line', column'⟩) :
    line = line' ∧ column = column' := by
  have hsmall {n : Nat} (hn : n < 2 ^ 24) : (UInt64.ofNat n).toNat = n := by
    rw [UInt64.toNat_ofNat']
    omega
  have hhash := UInt64.toNat_inj.mp (toDigits_hex_injective (List.append_cancel_left h))
  have hlast := hashRound_inj hhash
  -- the words of the lines agree above their low bits, before the multiplication and after it
  have hwords : fileHash file ^^^ .ofNat line = fileHash file ^^^ .ofNat line' := by
    have hhigh := congrArg (fun word => UInt64.toNat word / 2 ^ 24) hlast
    dsimp only [List.foldl_cons, List.foldl_nil] at hhigh
    rw [hashRound_div (by rwa [hsmall hcolumn]), hashRound_div (by rwa [hsmall hcolumn'])] at hhigh
    have hwords : (fileHash file ^^^ .ofNat line).toNat =
        (fileHash file ^^^ .ofNat line').toNat := by
      apply eq_of_mul_prime (hashRound_toNat _ _) (hashRound_toNat _ _) _ hhigh
      rw [hashRound_div (by rwa [hsmall hline]), hashRound_div (by rwa [hsmall hline'])]
    exact UInt64.toNat_inj.mp hwords
  have hlines := congrArg UInt64.toNat ((UInt64.xor_right_inj _).mp hwords)
  rw [hsmall hline, hsmall hline'] at hlines
  subst hlines
  have hcolumns := congrArg UInt64.toNat ((UInt64.xor_right_inj _).mp hlast)
  rw [hsmall hcolumn, hsmall hcolumn'] at hcolumns
  exact ⟨rfl, hcolumns⟩

theorem inlineSymbol_ne_callback (location : SourceLocation) (type source : Text) :
    (Shim.callbackBridge type source).symbol ≠ inlineSymbol location := by
  intro h
  have hcallback : callbackStem = "cwhip_".toList ++ 'c' :: "allback_".toList := by decide +kernel
  have hinline : inlineStem = "cwhip_".toList ++ 'i' :: "nline_".toList := by decide +kernel
  rw [Shim.symbol, callbackSymbol, inlineSymbol, hcallback, hinline] at h
  simp only [List.append_assoc, List.cons_append] at h
  exact absurd (List.cons.inj (List.append_cancel_left h)).1 (by decide)

/-! ## Runs of the generator -/

/-- The map has a definition for each symbol emitted, and no definition of anything else. -/
structure Carries (shims : OrderedMap Text Text) (emitted : List Shim) : Prop where
  found : ∀ {symbol definition}, shims.find? symbol = some definition →
    ∃ shim ∈ emitted, shim.symbol = symbol ∧ shim.definition = definition
  covered : ∀ shim ∈ emitted, (shims.find? shim.symbol).isSome

variable {shims shims' : OrderedMap Text Text} {emitted emitted' : List Shim}

theorem carries_empty : Carries .empty [] := ⟨fun h => (nomatch h), fun _ h => nomatch h⟩

theorem Carries.append {merged : OrderedMap Text Text} (h : Carries shims emitted)
    (h' : Carries shims' emitted')
    (hmerged : ∀ symbol, merged.find? symbol = (shims.find? symbol).or (shims'.find? symbol)) :
    Carries merged (emitted ++ emitted') := by
  constructor
  · intro symbol definition hfind
    rw [hmerged, Option.or_eq_some_iff] at hfind
    rcases hfind with hfind | ⟨_, hfind⟩
    · obtain ⟨shim, hmem, hshim⟩ := h.found hfind
      exact ⟨shim, List.mem_append_left _ hmem, hshim⟩
    · obtain ⟨shim, hmem, hshim⟩ := h'.found hfind
      exact ⟨shim, List.mem_append_right _ hmem, hshim⟩
  · intro shim hmem
    rw [hmerged, Option.isSome_or, Bool.or_eq_true]
    exact (List.mem_append.mp hmem).imp (h.covered shim) (h'.covered shim)

def Shim.alone (shim : Shim) : OrderedMap Text Text :=
    OrderedMap.empty.insert shim.symbol shim.definition

theorem Shim.carries_alone (shim : Shim) : Carries shim.alone [shim] := by
  constructor
  · intro symbol definition hfind
    rw [alone, OrderedMap.find?_insert] at hfind
    split at hfind
    · next hsymbol => exact ⟨shim, List.mem_cons_self, hsymbol.symm, Option.some.inj hfind⟩
    · cases hfind
  · intro other hother
    rw [List.mem_singleton.mp hother, alone, OrderedMap.find?_insert_self, Option.isSome_some]

theorem InlineShims.find?_emit {state : InlineShims}
    (hdeclared : ∀ symbol ∈ state.declared, (state.shims.find? symbol).isSome) (shim : Shim)
    (symbol : Text) :
    (state.emit shim).shims.find? symbol = (state.shims.find? symbol).or
    (shim.alone.find? symbol) := by
  rw [Shim.alone, OrderedMap.find?_insert, emit]
  split
  · next hmem =>
    split
    · next hsymbol =>
      obtain ⟨definition, hfind⟩ := Option.isSome_iff_exists.mp (hdeclared _ hmem)
      rw [hsymbol, hfind, Option.some_or]
    · exact Option.or_none.symm
  · exact OrderedMap.find?_emplace state.shims shim.symbol symbol shim.definition

theorem emitShims_carries (emitted : List Shim) :
    Carries (emitShims emitted).shims emitted ∧
      ∀ symbol ∈ (emitShims emitted).declared, ((emitShims emitted).shims.find? symbol).isSome := by
  induction emitted using List.reverseRecOn with
  | nil => exact ⟨carries_empty, fun _ h => nomatch h⟩
  | append_singleton emitted shim ih =>
    obtain ⟨hcarries, hdeclared⟩ := ih
    have hfind := InlineShims.find?_emit hdeclared shim
    have hstep : emitShims (emitted ++ [shim]) = (emitShims emitted).emit shim := by
      rw [emitShims, List.foldl_concat, ← emitShims]
    rw [hstep]
    refine ⟨hcarries.append shim.carries_alone hfind, ?_⟩
    intro symbol hmem
    rw [hfind, Option.isSome_or, Bool.or_eq_true]
    unfold InlineShims.emit at hmem
    split at hmem
    · exact .inl (hdeclared symbol hmem)
    · rcases List.mem_cons.mp hmem with rfl | hmem
      · exact .inr (shim.carries_alone.covered shim List.mem_cons_self)
      · exact .inl (hdeclared symbol hmem)

theorem programShims_carries (modules : List (List Shim)) :
    Carries (programShims modules) modules.flatten := by
  induction modules using List.reverseRecOn with
  | nil => exact carries_empty
  | append_singleton modules emitted ih =>
    rw [List.flatten_concat]
    apply ih.append (emitShims_carries emitted).1
    intro symbol
    rw [programShims, List.foldl_concat, ← programShims, OrderedMap.find?_foldl_emplace]
    rfl

/-- The names of a file do not collide, and a call reaches the shim of its own position. -/
theorem inlineSymbol_separates :
    (∀ (file : Text) (line column line' column' : Nat), line < 2 ^ 24 → column < 2 ^ 24 →
        line' < 2 ^ 24 →
        column' < 2 ^ 24 → (line, column) ≠ (line', column') →
          inlineSymbol ⟨file, line, column⟩ ≠ inlineSymbol ⟨file, line', column'⟩) ∧
      ∀ modules : List (List Shim),
        (∀ statement, .inlineC statement ∈ modules.flatten →
          statement.location.line < 2 ^ 24 ∧ statement.location.column < 2 ^ 24) →
        ∀ statement, .inlineC statement ∈ modules.flatten →
          ∃ target, .inlineC target ∈ modules.flatten ∧
            (programShims modules).find? (inlineSymbol statement.location) =
            some (shimDefinition target) ∧
            (target.location.file = statement.location.file →
            target.location = statement.location) := by
  constructor
  · intro file line column line' column' hline hcolumn hline' hcolumn' hne heq
    obtain ⟨rfl, rfl⟩ := inlineSymbol_inj hline hcolumn hline' hcolumn' heq
    exact hne rfl
  · intro modules hbound statement hstatement
    have hcarries := programShims_carries modules
    obtain ⟨definition, hfind⟩ := Option.isSome_iff_exists.mp (hcarries.covered _ hstatement)
    obtain ⟨shim, hmem, hsymbol, rfl⟩ := hcarries.found hfind
    cases shim with
    | callbackBridge type source => exact absurd hsymbol (inlineSymbol_ne_callback _ type source)
    | inlineC target =>
      refine ⟨target, hmem, hfind, ?_⟩
      intro hfile
      obtain ⟨⟨file, line, column⟩, body, captures⟩ := target
      obtain rfl := hfile
      obtain ⟨hline, hcolumn⟩ := hbound _ hmem
      obtain ⟨hline', hcolumn'⟩ := hbound _ hstatement
      obtain ⟨rfl, rfl⟩ := inlineSymbol_inj hline hcolumn hline' hcolumn' hsymbol
      rfl

def sampleInline : InlineStatement := ⟨⟨"a".toList, 3, 5⟩, "x = 1;".toList, []⟩

theorem inlineSymbol_separates_sample :
    inlineSymbol ⟨"a".toList, 3, 5⟩ ≠ inlineSymbol ⟨"a".toList, 5, 3⟩ ∧
      ∃ target, .inlineC target ∈ [[Shim.inlineC sampleInline]].flatten ∧
        (programShims [[.inlineC sampleInline]]).find? (inlineSymbol sampleInline.location) =
          some (shimDefinition target) ∧ target.location = sampleInline.location := by
  constructor
  · exact inlineSymbol_separates.1 _ 3 5 5 3 (by decide) (by decide) (by decide)
      (by decide) (by decide)
  · have hsample {statement : InlineStatement}
        (h : .inlineC statement ∈ [[Shim.inlineC sampleInline]].flatten) :
        statement = sampleInline := by
      simpa using h
    have hbound (statement : InlineStatement)
        (h : .inlineC statement ∈ [[Shim.inlineC sampleInline]].flatten) :
        statement.location.line < 2 ^ 24 ∧ statement.location.column < 2 ^ 24 := by
      rw [hsample h]
      decide
    obtain ⟨target, htarget, hfind, hfile⟩ := inlineSymbol_separates.2 _ hbound _ List.mem_cons_self
    exact ⟨target, htarget, hfind, hfile (by rw [hsample htarget])⟩

end Cwhip.CodeGen
