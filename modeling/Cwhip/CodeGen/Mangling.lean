/-
  Cwhip.CodeGen.Mangling

  Names, types and the encoding of parameter types in symbols
  (`Mangling.hpp`, `CallbackType.hpp`).

  Codes are concatenated without separators.  A list of types that the analyzer
  has normalized can still be read back from its codes.
-/

import Cwhip.Lib.Texts

namespace Cwhip.CodeGen

open List (append_assoc flatMap_cons mem_append mem_cons mem_cons_self)

/-- `std::to_string`. -/
def decimal (n : Nat) : Text := Nat.toDigits 10 n

/-! ## Names -/

def isIdentifierStart (value : Char) : Bool :=
  ('a' ≤ value && value ≤ 'z') || ('A' ≤ value && value ≤ 'Z') || value == '_'

def isIdentifierPart (value : Char) : Bool :=
  isIdentifierStart value || ('0' ≤ value && value ≤ '9')

/-- An identifier of the lexer. -/
def isIdentifier : Text → Bool
  | [] => false
  | first :: rest => isIdentifierStart first && rest.all isIdentifierPart

/-- `SemanticAnalyzer::qualify`: the names of a path, joined by dots. -/
def qualify (path : List Text) : Text := ['.'].intercalate path

/-- The name of a class behind the namespaces it is declared in. -/
def isQualified (name : Text) : Bool := (name.splitOn '.').all isIdentifier

/-! ## Types -/

@[irreducible] def callbackOpen : Text := "callback<".toList

def isCallbackType (type : Text) : Bool := callbackOpen.isPrefixOf type

def callbackType (result : Text) (parameters : List Text) : Text :=
  callbackOpen ++ (result ++ '(' :: ([','].intercalate parameters ++ [')', '>']))

/-- The types that `normalizeType` keeps. -/
def builtinTypes : List Text :=
  ["int", "bool", "float", "unsigned", "list", "dict", "buffer", "handle", "any", "type",
    "void"].map String.toList

/-- A type as `normalizeType` leaves it. -/
inductive Normalized (known : Text → Prop) : Text → Prop where
  | builtin {type : Text} (h : type ∈ builtinTypes) : Normalized known type
  | named {type : Text} (h : known type) : Normalized known type
  | callback {result : Text} {parameters : List Text} (hresult : Normalized known result)
      (hparameters : ∀ type ∈ parameters, Normalized known type) :
      Normalized known (callbackType result parameters)

/-! ## Codes -/

def hexByte (byte : Char) : Text := [(byte.toNat / 16).digitChar, (byte.toNat % 16).digitChar]

@[irreducible] def callbackStem : Text := "cwhip_callback_".toList

def callbackSymbol (type : Text) : Text := callbackStem ++ type.flatMap hexByte

/-- The types that have a letter of their own. -/
def typeLetters : List (Text × Char) :=
  [("int", 'i'), ("unsigned", 'u'), ("float", 'f'), ("bool", 'b'), ("any", 'y'), ("void", 'v'),
    ("list", 'a'), ("dict", 'm'), ("buffer", 'B'), ("handle", 'h')].map
      fun entry => (entry.1.toList, entry.2)

def mangleTypeCode (type : Text) : Text :=
  if isCallbackType type then callbackSymbol type
  else
    match typeLetters.lookup type with
    | some letter => [letter]
    | none => 'C' :: (decimal type.length ++ type)

def mangleParameters (parameters : List Text) : Text :=
  if parameters = [] then [] else '$' :: parameters.flatMap mangleTypeCode

/-! ### The texts, by the kernel -/

theorem callbackOpen_eq : callbackOpen = ['c', 'a', 'l', 'l', 'b', 'a', 'c', 'k',
    '<'] := by decide +kernel

theorem callbackStem_eq : callbackStem = 'c' :: 'w' :: "hip_callback_".toList := by decide +kernel

theorem builtinTypes_all : (builtinTypes.all fun type => (type.all fun c => c.toNat < 128) &&
    (!isCallbackType type && type.head?.any fun first => !first.isDigit)) =
    true := by decide +kernel

theorem typeLetters_all : (∀ e ∈ typeLetters, ∀ e' ∈ typeLetters, e.2 = e'.2 → e.1 = e'.1) ∧
    ∀ e ∈ typeLetters, e.2 ≠ 'C' ∧ e.2 ≠ 'c' ∧ e.2 ≠ 'e' := by decide +kernel

/-! ## Numbers -/

variable {n : Nat} {c : Char} {rest name type type' : Text} {types types' : List Text}

theorem decimal_injective {m : Nat} (h : decimal n = decimal m) : n = m := by
  have hread := congrArg (fun digits => Nat.ofDigitChars 10 digits 0) h
  simpa [decimal] using hread

theorem isDigit_of_mem_decimal (h : c ∈ decimal n) : c.isDigit = true :=
  Nat.isDigit_of_mem_toDigits (by omega) (by omega) h

theorem decimal_ne_nil (n : Nat) : decimal n ≠ [] := Nat.toDigits_ne_nil

/-- A number is read to its last digit. -/
theorem decimal_append_inj {m : Nat} {rest' : Text} (h : decimal n ++ rest = decimal m ++ rest')
    (hrest : ∀ c ∈ rest.head?, c.isDigit = false) (hrest' : ∀ c ∈ rest'.head?, c.isDigit = false) :
    n = m ∧ rest = rest' := by
  have hcut : ∀ {k : Nat} {tail : Text}, (∀ c ∈ tail.head?, c.isDigit = false) →
      (decimal k ++ tail).takeWhile Char.isDigit = decimal k := by
    intro k tail htail
    rw [List.takeWhile_append_of_pos (fun c hc => isDigit_of_mem_decimal hc)]
    cases tail with
    | nil => simp
    | cons c tail => simp [htail c rfl]
  have hsame : decimal n = decimal m := by
    rw [← hcut hrest, h, hcut hrest']
  refine ⟨decimal_injective hsame, ?_⟩
  rw [hsame] at h
  exact List.append_cancel_left h

/-! ## Reading types back -/

/-- What reading a type back from its code relies on. -/
inductive Readable (type : Text) : Prop where
  | callback (is : isCallbackType type = true) (ascii : ∀ c ∈ type, c.toNat < 128)
      (closed : ∃ body, type = body ++ ['>'])
  | plain (is : isCallbackType type = false) (first : Char) (rest : Text)
      (eq : type = first :: rest) (letter : first.isDigit = false)

theorem isIdentifierPart_bounds (h : isIdentifierPart c = true) :
    48 ≤ c.toNat ∧ c.toNat ≤ 122 ∧ c ≠ '<' := by
  simp only [isIdentifierPart, isIdentifierStart, Bool.or_eq_true, Bool.and_eq_true,
    decide_eq_true_eq, beq_iff_eq] at h
  rcases h with ((⟨hge, hle⟩ | ⟨hge, hle⟩) | rfl) | ⟨hge, hle⟩
  · have hlow : 97 ≤ c.toNat := hge
    have hhigh : c.toNat ≤ 122 := hle
    refine ⟨by omega, hhigh, ?_⟩
    rintro rfl
    exact absurd hlow (by decide)
  · have hlow : 65 ≤ c.toNat := hge
    have hhigh : c.toNat ≤ 90 := hle
    refine ⟨by omega, by omega, ?_⟩
    rintro rfl
    exact absurd hlow (by decide)
  · decide
  · have hlow : 48 ≤ c.toNat := hge
    have hhigh : c.toNat ≤ 57 := hle
    refine ⟨hlow, by omega, ?_⟩
    rintro rfl
    exact absurd hhigh (by decide)

theorem isIdentifierStart_not_digit (h : isIdentifierStart c = true) :
    c.isDigit = false := by
  simp only [isIdentifierStart, Bool.or_eq_true, Bool.and_eq_true, decide_eq_true_eq,
    beq_iff_eq] at h
  have hnot : ¬ (48 ≤ c.toNat ∧ c.toNat ≤ 57) := by
    rcases h with (⟨hge, _⟩ | ⟨hge, _⟩) | rfl
    · have hlow : 97 ≤ c.toNat := hge
      omega
    · have hlow : 65 ≤ c.toNat := hge
      omega
    · decide
  rw [← Bool.not_eq_true]
  intro hdigit
  simp only [Char.isDigit, Bool.and_eq_true, decide_eq_true_eq] at hdigit
  exact hnot hdigit

theorem isIdentifier_cons (h : isIdentifier name = true) :
    ∃ first rest, name = first :: rest ∧ isIdentifierStart first = true := by
  cases name with
  | nil => exact absurd h Bool.false_ne_true
  | cons first rest => exact ⟨first, rest, rfl, (Bool.and_eq_true_iff.mp h).1⟩

theorem isIdentifierPart_of_mem (h : isIdentifier name = true)
    (hc : c ∈ name) : isIdentifierPart c = true := by
  cases name with
  | nil => cases hc
  | cons first rest =>
    obtain ⟨hfirst, hrest⟩ := Bool.and_eq_true_iff.mp h
    rcases List.mem_cons.mp hc with rfl | hc
    · rw [isIdentifierPart, hfirst]
      rfl
    · exact List.all_eq_true.mp hrest c hc

theorem mem_intercalate {separator : Char} {parts : List Text}
    (h : c ∈ [separator].intercalate parts) : c = separator ∨ ∃ part ∈ parts, c ∈ part := by
  induction parts with
  | nil => cases h
  | cons part rest ih =>
    cases rest with
    | nil =>
      rw [List.intercalate_singleton] at h
      exact .inr ⟨part, mem_cons_self, h⟩
    | cons next rest =>
      rw [List.intercalate_cons_cons, mem_append, mem_append, List.mem_singleton] at h
      rcases h with (hpart | hseparator) | hrest
      · exact .inr ⟨part, mem_cons_self, hpart⟩
      · exact .inl hseparator
      · exact (ih hrest).imp_right fun ⟨later, hlater, hc⟩ =>
          ⟨later, List.mem_cons_of_mem _ hlater, hc⟩

theorem intercalate_splitOn_dot (name : Text) : qualify (name.splitOn '.') = name :=
  List.intercalate_splitOn _

theorem isQualified_mem (h : isQualified name = true) (hc : c ∈ name) :
    c = '.' ∨ isIdentifierPart c = true := by
  rw [← intercalate_splitOn_dot name] at hc
  refine (mem_intercalate hc).imp_right ?_
  rintro ⟨part, hpart, hmem⟩
  exact isIdentifierPart_of_mem (List.all_eq_true.mp h part hpart) hmem

theorem isQualified_first (h : isQualified name = true) :
    ∃ first rest, name = first :: rest ∧ isIdentifierStart first = true := by
  have hparts : ∀ part ∈ name.splitOn '.', isIdentifier part = true := List.all_eq_true.mp h
  rw [← intercalate_splitOn_dot name]
  cases hsplit : name.splitOn '.' with
  | nil => exact absurd hsplit (List.splitOn_ne_nil _ _)
  | cons part rest =>
    obtain ⟨first, tail, rfl, hfirst⟩ :=
      isIdentifier_cons (hparts part (hsplit ▸ mem_cons_self))
    cases rest with
    | nil => exact ⟨first, tail, List.intercalate_singleton, hfirst⟩
    | cons next rest =>
      refine ⟨first, tail ++ ['.'] ++ qualify (next :: rest), ?_, hfirst⟩
      exact List.intercalate_cons_cons

/-- No class is named like a callback type. -/
theorem isQualified_not_callback (h : isQualified name = true) :
    isCallbackType name = false := by
  rw [← Bool.not_eq_true]
  intro hcallback
  obtain ⟨rest, hrest⟩ := List.isPrefixOf_iff_prefix.mp hcallback
  have hmem : '<' ∈ name := by
    rw [← hrest]
    rw [callbackOpen_eq]
    exact List.mem_append_left _ (by decide)
  rcases isQualified_mem h hmem with hdot | hpart
  · exact absurd hdot (by decide)
  · exact (isIdentifierPart_bounds hpart).2.2 rfl

theorem isQualified_ascii (h : isQualified name = true) (hc : c ∈ name) :
    c.toNat < 128 := by
  rcases isQualified_mem h hc with rfl | hpart
  · decide
  · have hbounds := isIdentifierPart_bounds hpart
    omega

theorem Normalized.ascii {known : Text → Prop}
    (hknown : ∀ name, known name → isQualified name = true)
    (h : Normalized known type) : ∀ c ∈ type, c.toNat < 128 := by
  induction h with
  | builtin h =>
    have htype := List.all_eq_true.mp builtinTypes_all _ h
    rw [Bool.and_eq_true] at htype
    exact fun c hc => of_decide_eq_true (List.all_eq_true.mp htype.1 c hc)
  | named h => exact fun c hc => isQualified_ascii (hknown _ h) hc
  | @callback result parameters hresult hparameters ihresult ihparameters =>
    intro c hc
    have hopen : (callbackOpen.all fun c => c.toNat < 128) = true := by
      rw [callbackOpen_eq]
      decide
    have hclose : ([')', '>'].all fun c => c.toNat < 128) = true := by decide
    rw [callbackType, mem_append, mem_append, mem_cons, mem_append] at hc
    rcases hc with hc | hc | rfl | hc | hc
    · exact of_decide_eq_true (List.all_eq_true.mp hopen c hc)
    · exact ihresult c hc
    · decide
    · rcases mem_intercalate hc with rfl | ⟨parameter, hmem, hc⟩
      · decide
      · exact ihparameters parameter hmem c hc
    · exact of_decide_eq_true (List.all_eq_true.mp hclose c hc)

theorem Normalized.readable {known : Text → Prop}
    (hknown : ∀ name, known name → isQualified name = true)
    (h : Normalized known type) : Readable type := by
  cases h with
  | builtin h =>
    have htype := List.all_eq_true.mp builtinTypes_all _ h
    rw [Bool.and_eq_true, Bool.and_eq_true, Bool.not_eq_true', Option.any_eq_true] at htype
    obtain ⟨_, hcallback, first, hfirst, hletter⟩ := htype
    obtain ⟨rest, rfl⟩ := List.head?_eq_some_iff.mp hfirst
    exact .plain hcallback first rest rfl (by simpa using hletter)
  | named h =>
    obtain ⟨first, rest, rfl, hfirst⟩ := isQualified_first (hknown _ h)
    exact .plain (isQualified_not_callback (hknown _ h)) first rest rfl
      (isIdentifierStart_not_digit hfirst)
  | @callback result parameters hresult hparameters =>
    refine .callback ?_ ((Normalized.callback hresult hparameters).ascii hknown) ?_
    · rw [isCallbackType, callbackType, List.isPrefixOf_iff_prefix]
      exact List.prefix_append _ _
    · refine ⟨callbackOpen ++ (result ++ '(' :: ([','].intercalate parameters ++ [')'])), ?_⟩
      simp only [callbackType, append_assoc, List.cons_append, List.nil_append]

/-! ### Codes -/

theorem typeLetters_injective {letter : Char} (h : typeLetters.lookup type = some letter)
    (h' : typeLetters.lookup type' = some letter) :
    type = type' := by
  have hmem : ∀ {t : Text}, typeLetters.lookup t = some letter → (t, letter) ∈ typeLetters := by
    intro t ht
    obtain ⟨before, after, heq, _⟩ := List.lookup_eq_some_iff.mp ht
    rw [heq]
    exact List.mem_append_right _ mem_cons_self
  exact typeLetters_all.1 _ (hmem h) _ (hmem h') rfl

/-- The characters of a callback's code. -/
def isHexDigit (c : Char) : Bool := ('0' ≤ c && c ≤ '9') || ('a' ≤ c && c ≤ 'f')

/-- Two digits are the byte. -/
theorem hexByte_injective {d : Char} (hc : c.toNat < 128) (hd : d.toNat < 128)
    (h : hexByte c = hexByte d) : c = d := by
  have hdigit : ∀ n < 16, ∀ m < 16, n.digitChar = m.digitChar → n = m := by decide
  simp only [hexByte, List.cons.injEq, and_true] at h
  have hhigh := hdigit _ (by omega) _ (by omega) h.1
  have hlow := hdigit _ (by omega) _ (by omega) h.2
  exact Char.toNat_inj.mp (by omega)

theorem isHexDigit_of_mem (hascii : ∀ c ∈ type, c.toNat < 128)
    (hc : c ∈ type.flatMap hexByte) : isHexDigit c = true := by
  have hdigit : ∀ n < 16, isHexDigit n.digitChar = true := by decide
  obtain ⟨byte, hbyte, hmem⟩ := List.mem_flatMap.mp hc
  have hless := hascii byte hbyte
  simp only [hexByte, mem_cons, List.not_mem_nil, or_false] at hmem
  rcases hmem with rfl | rfl
  · exact hdigit _ (by omega)
  · exact hdigit _ (by omega)

/-- A type is coded by a letter, by its length and name or in hexadecimal. -/
theorem mangleTypeCode_cases (h : Readable type) :
    (∃ letter, typeLetters.lookup type = some letter ∧ mangleTypeCode type = [letter]) ∨
      (mangleTypeCode type = 'C' :: (decimal type.length ++ type) ∧
        ∃ first rest, type = first :: rest ∧ first.isDigit = false) ∨
      (mangleTypeCode type = callbackStem ++ type.flatMap hexByte ∧
        (∀ c ∈ type, c.toNat < 128) ∧ ∃ body, type = body ++ ['>']) := by
  cases h with
  | callback is ascii closed =>
    refine .inr (.inr ⟨?_, ascii, closed⟩)
    rw [mangleTypeCode, if_pos is]
    rfl
  | plain is first rest eq letter =>
    rw [mangleTypeCode, if_neg (by simpa using is)]
    cases hlookup : typeLetters.lookup type with
    | some letter => exact .inl ⟨letter, rfl, rfl⟩
    | none =>
      exact .inr (.inl ⟨rfl, first, rest, eq, letter⟩)

/-- The hexadecimal digits before a list of codes hold no `e`. -/
theorem e_notMem_codes (hread : ∀ type ∈ types, Readable type) {front : Text}
    (h : types.flatMap mangleTypeCode = front ++ rest)
    (hfront : ∀ c ∈ front, isHexDigit c = true) : 'e' ∉ front := by
  induction types generalizing front with
  | nil =>
    rw [List.flatMap_nil] at h
    rw [(List.append_eq_nil_iff.mp h.symm).1]
    exact List.not_mem_nil
  | cons type later ih =>
    obtain ⟨htype, hlater⟩ := List.forall_mem_cons.mp hread
    rw [flatMap_cons] at h
    cases front with
    | nil => exact List.not_mem_nil
    | cons c front =>
      obtain ⟨hc, hdigits⟩ := List.forall_mem_cons.mp hfront
      clear hfront
      rcases mangleTypeCode_cases htype with
        ⟨letter, hletter, hcode⟩ | ⟨hcode, _⟩ | ⟨hcode, _⟩
      · -- a single letter, which is no `e`
        rw [hcode] at h
        obtain ⟨rfl, htail⟩ := List.cons.inj h
        rw [mem_cons, not_or]
        refine ⟨?_, ih hlater htail hdigits⟩
        obtain ⟨before, after, heq, _⟩ := List.lookup_eq_some_iff.mp hletter
        have hmem : (type, letter) ∈ typeLetters := heq ▸ List.mem_append_right _ mem_cons_self
        exact Ne.symm (typeLetters_all.2 _ hmem).2.2
      · rw [hcode] at h
        obtain ⟨rfl, _⟩ := List.cons.inj h
        exact absurd hc (by decide)
      · -- the second character of a callback's code is no digit
        rw [hcode, callbackStem_eq] at h
        obtain ⟨rfl, htail⟩ := List.cons.inj h
        cases front with
        | nil => decide
        | cons d front =>
          obtain ⟨rfl, _⟩ := List.cons.inj htail
          exact absurd (hdigits 'w' mem_cons_self) (by decide)

theorem hex_injective (hascii : ∀ c ∈ type, c.toNat < 128) (hascii' : ∀ c ∈ type', c.toNat < 128)
    (h : type.flatMap hexByte = type'.flatMap hexByte) :
    type = type' := by
  induction type generalizing type' with
  | nil =>
    cases type' with
    | nil => rfl
    | cons c rest => cases h
  | cons c rest ih =>
    cases type' with
    | nil => cases h
    | cons d rest' =>
      obtain ⟨hc, hrest⟩ := List.forall_mem_cons.mp hascii
      obtain ⟨hd, hrest'⟩ := List.forall_mem_cons.mp hascii'
      rw [flatMap_cons, flatMap_cons] at h
      obtain ⟨hbyte, htail⟩ := List.append_inj h rfl
      rw [hexByte_injective hc hd hbyte, ih hrest hrest' htail]

theorem hex_closed (body : Text) :
    (body ++ ['>']).flatMap hexByte = body.flatMap hexByte ++ ['3', 'e'] := List.flatMap_append

/-- The text of a callback ends where its brackets close. -/
theorem callback_code_le {tail : Text} (hread : ∀ type ∈ types, Readable type)
    (hascii : ∀ c ∈ type, c.toNat < 128) (hascii' : ∀ c ∈ type', c.toNat < 128)
    (hclosed' : ∃ body, type' = body ++ ['>'])
    (h : type'.flatMap hexByte = type.flatMap hexByte ++ tail)
    (hcodes : types.flatMap mangleTypeCode = tail ++ rest) : type = type' := by
  by_cases hempty : tail = []
  · rw [hempty, List.append_nil] at h
    exact hex_injective hascii hascii' h.symm
  · -- what is missing would end with the `e` of the closing bracket
    have hdigits : ∀ c ∈ tail, isHexDigit c = true := fun c hc =>
      isHexDigit_of_mem hascii' (h ▸ List.mem_append_right _ hc)
    refine absurd ?_ (e_notMem_codes hread hcodes hdigits)
    obtain ⟨body, rfl⟩ := hclosed'
    rw [hex_closed] at h
    have hlast := congrArg List.getLast? h
    rw [List.getLast?_append_of_ne_nil _ hempty, List.getLast?_append_of_ne_nil _ (by simp)]
      at hlast
    exact List.mem_of_getLast? hlast.symm

/-- Lists with the same codes begin with the same type. -/
theorem mangleTypeCode_cancel (hread : ∀ type ∈ types, Readable type)
    (hread' : ∀ type ∈ types', Readable type) (htype : Readable type) (htype' : Readable type')
    (h : mangleTypeCode type ++ types.flatMap mangleTypeCode
      = mangleTypeCode type' ++ types'.flatMap mangleTypeCode) : type = type' := by
  have hletter : ∀ {t : Text} {letter : Char}, typeLetters.lookup t = some letter →
      letter ≠ 'C' ∧ letter ≠ 'c' := by
    intro t letter ht
    obtain ⟨before, after, heq, _⟩ := List.lookup_eq_some_iff.mp ht
    have hmem : (t, letter) ∈ typeLetters := heq ▸ List.mem_append_right _ mem_cons_self
    exact ⟨(typeLetters_all.2 _ hmem).1, (typeLetters_all.2 _ hmem).2.1⟩
  rcases mangleTypeCode_cases htype with
    ⟨letter, hlookup, hcode⟩ | ⟨hcode, hfirst⟩ | ⟨hcode, hascii, hclosed⟩ <;>
  rcases mangleTypeCode_cases htype' with
    ⟨letter', hlookup', hcode'⟩ | ⟨hcode', hfirst'⟩ | ⟨hcode', hascii', hclosed'⟩ <;>
  rw [hcode, hcode'] at h
  · obtain ⟨rfl, _⟩ := List.cons.inj h
    exact typeLetters_injective hlookup hlookup'
  · exact absurd (List.cons.inj h).1 (hletter hlookup).1
  · rw [callbackStem_eq] at h
    exact absurd (List.cons.inj h).1 (hletter hlookup).2
  · exact absurd (List.cons.inj h).1.symm (hletter hlookup').1
  · -- the length is read first, and then so many characters
    obtain ⟨first, rest, heq, hdigit⟩ := hfirst
    obtain ⟨first', rest', heq', hdigit'⟩ := hfirst'
    have htail := (List.cons.inj h).2
    simp only [List.append_eq, append_assoc] at htail
    have hhead : ∀ c ∈ (type ++ types.flatMap mangleTypeCode).head?, c.isDigit = false := by
      rw [heq]
      rintro c hc
      rw [← Option.some.inj hc]
      exact hdigit
    have hhead' : ∀ c ∈ (type' ++ types'.flatMap mangleTypeCode).head?, c.isDigit = false := by
      rw [heq']
      rintro c hc
      rw [← Option.some.inj hc]
      exact hdigit'
    obtain ⟨hlength, hnames⟩ := decimal_append_inj htail hhead hhead'
    exact (List.append_inj hnames hlength).1
  · rw [callbackStem_eq] at h
    exact absurd (List.cons.inj h).1 (by decide)
  · rw [callbackStem_eq] at h
    exact absurd (List.cons.inj h).1.symm (hletter hlookup').2
  · rw [callbackStem_eq] at h
    exact absurd (List.cons.inj h).1 (by decide)
  · rw [append_assoc, append_assoc] at h
    rcases List.append_eq_append_iff.mp (List.append_cancel_left h) with
      ⟨tail, hlonger, hcodes⟩ | ⟨tail, hlonger, hcodes⟩
    · exact callback_code_le hread hascii hascii' hclosed' hlonger hcodes
    · exact (callback_code_le hread' hascii' hascii hclosed hlonger hcodes).symm

theorem mangleTypeCode_ne_nil (h : Readable type) : mangleTypeCode type ≠ [] := by
  rcases mangleTypeCode_cases h with ⟨_, _, hcode⟩ | ⟨hcode, _⟩ | ⟨hcode, _⟩
  · simp [hcode]
  · simp [hcode]
  · simp [hcode, callbackStem_eq]

/-- By induction the codes of two lists agree in all types. -/
theorem codes_injective (hread : ∀ type ∈ types, Readable type)
    (hread' : ∀ type ∈ types', Readable type)
    (h : types.flatMap mangleTypeCode = types'.flatMap mangleTypeCode) : types = types' := by
  induction types generalizing types' with
  | nil =>
    cases types' with
    | nil => rfl
    | cons type rest =>
      rw [flatMap_cons] at h
      exact absurd (List.append_eq_nil_iff.mp h.symm).1
        (mangleTypeCode_ne_nil (hread' type mem_cons_self))
  | cons type rest ih =>
    cases types' with
    | nil =>
      rw [flatMap_cons] at h
      exact absurd (List.append_eq_nil_iff.mp h).1
        (mangleTypeCode_ne_nil (hread type mem_cons_self))
    | cons type' rest' =>
      obtain ⟨htype, hrest⟩ := List.forall_mem_cons.mp hread
      obtain ⟨htype', hrest'⟩ := List.forall_mem_cons.mp hread'
      rw [flatMap_cons, flatMap_cons] at h
      have hsame := mangleTypeCode_cancel hrest hrest' htype htype' h
      rw [hsame] at h ⊢
      rw [ih hrest hrest' (List.append_cancel_left h)]

theorem mangleParameters_injective (hread : ∀ type ∈ types, Readable type)
    (hread' : ∀ type ∈ types', Readable type)
    (h : mangleParameters types = mangleParameters types') : types = types' := by
  unfold mangleParameters at h
  split at h <;> split at h
  · next heq heq' => rw [heq, heq']
  · cases h
  · cases h
  · exact codes_injective hread hread' (List.cons.inj h).2

end Cwhip.CodeGen
