/-
  Cwhip.Gtk.ConfigMerge

  Merging configurations and removing keys from them (`gtk_config.c`).

  The documents are what the accessors of the TOML parser show, and the parser is a
  parameter: `TomlParser` says what texts it reads.  A key is quoted with small
  hexadecimal digits, which it does not read, and a key of the root that holds a
  table is not removed.
-/

import Mathlib.Data.List.Nodup
import Mathlib.Logic.Function.Basic
import Cwhip.Lib.Texts

namespace Cwhip.Gtk.Config

/-! ## Documents -/

/-- A value of a document: the raw text of a scalar, the items of an array, or the
    keys of a table in the order of `toml_key_in`. -/
inductive Node where
  | scalar (raw : Text)
  | array (length : Nat) (item : Nat → Node)
  | table (keys : List Text) (value : Text → Node)

def Node.isTable : Node → Bool
  | .table _ _ => true
  | _ => false

def Node.keys : Node → List Text
  | .table keys _ => keys
  | _ => []

def Node.value : Node → Text → Node
  | .table _ value => value
  | node => fun _ => node

/-- The document with these properties of its keys and its raw scalars. -/
def Node.Fits (Key Raw : Text → Prop) : Node → Prop
  | .scalar raw => Raw raw
  | .array length item => ∀ i < length, (item i).Fits Key Raw
  | .table keys value => keys.Nodup ∧ ∀ key ∈ keys, Key key ∧ (value key).Fits Key Raw

/-- `toml_key_exists`, with the value; a table that is not there has no keys. -/
def valueIn : Option Node → Text → Option Node
  | some node, key => if key ∈ node.keys then some (node.value key) else none
  | none, _ => none

def tableIn (table : Option Node) (key : Text) : Option Node :=
    (valueIn table key).filter Node.isTable

/-! ## Rendering -/

def quoteChar (c : Char) : Text :=
  if c.toNat < 32 ∨ c.toNat = 127 then "\\u00".toList ++ [Nat.digitChar (c.toNat / 16),
    Nat.digitChar (c.toNat % 16)]
  else if c = '\\' ∨ c = '"' then ['\\', c] else [c]

def configQuote (text : Text) : Text := '"' :: text.flatMap quoteChar ++ ['"']

def commas (parts : List Text) : Text := List.intercalate ", ".toList parts

def keyAndValue (key value : Text) : Text := key ++ " = ".toList ++ value

/-- `config_value` of a key that one document has: `config_array` and `config_table`. -/
def configOne : Node → Text
  | .scalar raw => raw
  | .array length item =>
    '[' :: commas ((List.range length).map fun i => configOne (item i)) ++ [']']
  | .table keys value =>
    '{' :: commas (keys.map fun key => keyAndValue (configQuote key) (configOne (value key))) ++
    ['}']

/-- `config_value` of a key that both documents have, the updates first: if both hold
    tables, `config_table` goes through the keys of the base and then the others. -/
def configBoth : Node → Node → Text
  | .table keys value, .table baseKeys baseValue =>
    '{' :: commas ((baseKeys.map fun key => keyAndValue (configQuote key)
        (if key ∈ keys then configBoth (value key) (baseValue key) else configOne (baseValue key)))
      ++ (keys.filter (· ∉ baseKeys)).map fun key => keyAndValue (configQuote key)
        (configOne (value key))) ++ ['}']
  | node, _ => configOne node

def configValue : Option Node → Option Node → Text
  | some base, some updates => configBoth updates base
  | some base, none => configOne base
  | none, some updates => configOne updates
  | none, none => []

/-- The keys that two passes meet. -/
def passes (base updates : Option Node) : List Text :=
  let baseKeys := (base.map Node.keys).getD []
  baseKeys ++ ((updates.map Node.keys).getD []).filter (· ∉ baseKeys)

def configLine (base updates : Option Node) (key : Text) : Text :=
  keyAndValue (configQuote key) (configValue (valueIn base key) (valueIn updates key)) ++ ['\n']

/-- `config_render`; `skip` is the section and the key to skip. -/
def configRender (base updates : Option Node) (skip : Option (Text × Text)) : Text :=
  [false, true].flatMap fun tables => (passes base updates).flatMap fun key =>
    let source := (valueIn updates key).or (valueIn base key)
    if source.any Node.isTable ≠ tables then []
    else if tables then
      let b := tableIn base key
      let u := tableIn updates key
      "\n[".toList ++ configQuote key ++ "]\n".toList ++
        (passes b u).flatMap fun k => if skip = some (key, k) then [] else configLine b u k
    else if skip = some ([], key) then [] else configLine base updates key

/-- `cwhip_gtk_config_merge`, of documents that were parsed. -/
def configMerge (base updates : Node) : Text := configRender (some base) (some updates) none

/-- `cwhip_gtk_config_remove` -/
def configRemove (base : Node) (section_ key : Text) : Text :=
  configRender (some base) (some (.table [] fun _ => base)) (some (section_, key))

/-! ## What documents mean -/

/-- A document without the order of its keys. -/
inductive Tree where
  | absent
  | scalar (raw : Text)
  | array (item : Nat → Tree)
  | table (entry : Text → Tree)

def Node.tree : Node → Tree
  | .scalar raw => .scalar raw
  | .array length item => .array fun i => if i < length then (item i).tree else .absent
  | .table keys value => .table fun key => if key ∈ keys then (value key).tree else .absent

/-- The deep merge; tables are merged key by key, and an update replaces anything else. -/
def Tree.merge : Tree → Tree → Tree
  | .table base, .table updates => .table fun key => (base key).merge (updates key)
  | base, .absent => base
  | _, updates => updates

/-- The document without a key of a section, or of the root if the section is empty. -/
def Tree.remove (section_ key : Text) : Tree → Tree
  | .table entry =>
    if section_ = [] then .table (Function.update entry key .absent)
    else
      match entry section_ with
      | .table inner =>
        .table (Function.update entry section_ (.table (Function.update inner key .absent)))
      | _ => .table entry
  | tree => tree

/-- The keys of the document, at every depth. -/
def Tree.Each (Key : Text → Prop) : Tree → Prop
  | .absent | .scalar _ => True
  | .array item => ∀ i, (item i).Each Key
  | .table entry => ∀ key, entry key ≠ .absent → Key key ∧ (entry key).Each Key

/-- The document that rendering keeps: without the key of a section, or with the empty
    section the key of the root, unless it holds a table. -/
def Tree.kept (skip : Option (Text × Text)) : Tree → Tree
  | .table entry => .table fun key =>
    match entry key with
    | .table inner => .table fun k => if skip = some (key, k) then .absent else inner k
    | other => if skip = some ([], key) then .absent else other
  | tree => tree

/-! ## The parser -/

/-- `scan_string` behind the opening quote, with its `escape` and `hexreq`: what follows
    the token, unless the string is refused. -/
def scanString : Bool → Nat → Text → Option Text
  | _, _, [] => none
  | true, hexreq, c :: rest =>
    if c ∈ "btnfr\"\\".toList then scanString false hexreq rest
    else if c = 'u' then scanString false 4 rest
    else if c = 'U' then scanString false 8 rest
    else none
  | false, hexreq + 1, c :: rest =>
    if c ∈ "0123456789ABCDEF".toList then scanString false hexreq rest else none
  | false, 0, c :: rest =>
    if c = '\\' then scanString true 0 rest
    else if c = '\'' then if "''".toList <+: rest then none else scanString false 0 rest
    else if c = '\n' then none
    else if c = '"' then some rest
    else scanString false 0 rest

/-- A quoted text that is one token, whatever follows it. -/
def Taken (text : Text) : Prop :=
  ∃ body, text = '"' :: body ∧ ∀ rest, scanString false 0 (body ++ rest) = some rest

/-- A quoted text that is refused, whatever follows it. -/
def Refused (text : Text) : Prop :=
  ∃ body, text = '"' :: body ∧ ∀ rest, scanString false 0 (body ++ rest) = none

def upperHex (digit : Nat) : Char := (Nat.digitChar digit).toUpper

/-- What stands between the quotes, and the key that it is (`norm_basic_str`). -/
inductive KeyBody : Text → Text → Prop where
  | nil : KeyBody [] []
  | plain {c : Char} {body key : Text} (h : 32 ≤ c.toNat ∧ c.toNat ≠ 127 ∧ c ≠ '\\' ∧ c ≠ '"')
      (hrest : KeyBody body key) : KeyBody (c :: body) (c :: key)
  | escaped {c : Char} {body key : Text} (h : c = '\\' ∨ c = '"') (hrest : KeyBody body key) :
      KeyBody ('\\' :: c :: body) (c :: key)
  | unicode {c : Char} {body key : Text} (h : 0 < c.toNat ∧ c.toNat < 128 ∧ c ≠ '\n')
      (hrest : KeyBody body key) :
      KeyBody ("\\u00".toList ++ [upperHex (c.toNat / 16), upperHex (c.toNat % 16)] ++ body)
        (c :: key)

/-- A quoted key that is read. -/
def KeyText (text key : Text) : Prop := ∃ body, text = '"' :: body ++ ['"'] ∧ KeyBody body key ∧
    Taken text

/-- The keys that `config_quote` writes as the parser reads them: small hexadecimal digits
    are refused, and three apostrophes. -/
def Quotable (key : Text) : Prop :=
  (∀ c ∈ key, c.toNat < 32 ∨ c.toNat = 127 → c.toNat % 16 < 10) ∧ ¬ "'''".toList <:+: key

instance (key : Text) : Decidable (Quotable key) :=
  @instDecidableAnd _ _ (List.decidableBAll _ key)
    (@instDecidableNot _ (List.instDecidableIsInfixOfDecidableEq _ key))

section Parser

-- the scalars, and the spellings of keys
variable (Raw : Text → Prop) (Written : Text → Text → Prop)

/-- The texts of values. -/
inductive ValueText : Text → Node → Prop where
  | scalar {raw : Text} (h : Raw raw) : ValueText raw (.scalar raw)
  | array {length : Nat} {item : Nat → Node} (text : Nat → Text)
      (h : ∀ i < length, ValueText (text i) (item i)) :
      ValueText ('[' :: commas ((List.range length).map text) ++ [']']) (.array length item)
  | table {keys : List Text} {value : Text → Node} (written text : Text → Text) (hkeys : keys.Nodup)
      (hwritten : ∀ key ∈ keys, Written (written key) key)
      (h : ∀ key ∈ keys, ValueText (text key) (value key)) :
      ValueText ('{' :: commas (keys.map fun key => keyAndValue (written key) (text key)) ++ ['}'])
        (.table keys value)

/-- The lines of a table. -/
def LinesText (text : Text) (keys : List Text) (value : Text → Node) : Prop :=
  ∃ written valueText : Text → Text, keys.Nodup ∧
    (∀ key ∈ keys, Written (written key) key ∧ ValueText Raw Written (valueText key) (value key)) ∧
    text = keys.flatMap fun key => keyAndValue (written key) (valueText key) ++ ['\n']

/-- A document: the lines of the root, and then its tables. -/
def DocumentText (text : Text) (root : Node) : Prop :=
  ∃ (values tables : List Text) (value : Text → Node) (lines : Text) (written inner : Text → Text),
    root = .table (values ++ tables) value ∧ (values ++ tables).Nodup ∧
    LinesText Raw Written lines values value ∧
    (∀ key ∈ tables, Written (written key) key ∧ (value key).isTable ∧
      LinesText Raw Written (inner key) (value key).keys (value key).value) ∧
    text = lines ++ tables.flatMap fun key => "\n[".toList ++ written key ++ "]\n".toList ++
      inner key

/-- What `toml.c` shows of a text, as far as rendering depends on it. -/
structure TomlParser (Parses : Text → Node → Prop) : Prop where
  /-- Keys are C strings. -/
  shows : ∀ text root, Parses text root → root.isTable ∧ root.Fits (fun key => '\x00' ∉ key) Raw
  reads : ∀ text root, DocumentText Raw KeyText text root → ∃ shown, Parses text shown ∧
    shown.tree = root.tree
  /-- No document has a key on which the scanner fails. -/
  refuses : ∀ spell : Text → Text, (∀ key, Taken (spell key) ∨ Refused (spell key)) →
    ∀ text root shown,
    DocumentText Raw (fun written key => written = spell key) text root → Parses text shown →
      root.Fits (fun key => Taken (spell key)) fun _ => True

end Parser

/-! ## Keys -/

variable {Raw Key Key' : Text → Prop} {node base updates : Node} {skip : Option (Text × Text)}

theorem not_taken_of_refused {text : Text} (h : Refused text) : ¬ Taken text := by
  rintro ⟨body, rfl, htaken⟩
  obtain ⟨same, heq, hrefused⟩ := h
  cases heq
  cases (hrefused []).symm.trans (htaken [])

theorem quotable_cons {c : Char} {key : Text} :
    Quotable (c :: key) ↔ (c.toNat < 32 ∨ c.toNat = 127 → c.toNat % 16 < 10) ∧
      ¬ (c = '\'' ∧ "''".toList <+: key) ∧ Quotable key := by
  have hinfix : "'''".toList <:+: c :: key ↔ (c = '\'' ∧ "''".toList <+: key) ∨
      "'''".toList <:+: key := by
    rw [List.infix_cons_iff, show "'''".toList = '\'' :: "''".toList from rfl,
      List.cons_prefix_cons,
      eq_comm (a := '\'')]
  rw [Quotable, Quotable, List.forall_mem_cons, hinfix, not_or]
  tauto

theorem apostrophes_quoted (key rest : Text) :
    "''".toList <+: key.flatMap quoteChar ++ '"' :: rest ↔ "''".toList <+: key := by
  have hhead (c : Char) (more : Text) (hc : c ≠ '\'') (wanted : Text) :
      ¬ '\'' :: wanted <+: quoteChar c ++ more := by
    unfold quoteChar
    split_ifs <;> simp [List.cons_prefix_cons, Ne.symm hc]
  cases key with
  | nil => simp [List.cons_prefix_cons]
  | cons c key =>
    by_cases hc : c = '\''
    · subst hc
      cases key with
      | nil => simp [quoteChar, List.cons_prefix_cons]
      | cons d key =>
        by_cases hd : d = '\''
        · subst hd
          simp [quoteChar, List.cons_prefix_cons]
        · have hnot := hhead d (key.flatMap quoteChar ++ '"' :: rest) hd []
          simpa [quoteChar, List.cons_prefix_cons, Ne.symm hd, List.append_assoc] using hnot
    · refine iff_of_false ?_ (by simp [List.cons_prefix_cons, Ne.symm hc])
      rw [List.flatMap_cons, List.append_assoc]
      exact hhead c _ hc _

/-- The scanner takes the text that is written for a key exactly if it is quotable. -/
theorem scanString_quoted (key rest : Text) :
    (Quotable key → scanString false 0 (key.flatMap quoteChar ++ '"' :: rest) = some rest) ∧
    (¬ Quotable key → scanString false 0 (key.flatMap quoteChar ++ '"' :: rest) = none) := by
  induction key with
  | nil => exact ⟨fun _ => rfl, fun h => absurd ⟨by simp, by decide⟩ h⟩
  | cons c key ih =>
    rw [quotable_cons, List.flatMap_cons, List.append_assoc]
    by_cases hcontrol : c.toNat < 32 ∨ c.toNat = 127
    · have hhigh : Nat.digitChar (c.toNat / 16) ∈ "0123456789ABCDEF".toList :=
        (by decide : ∀ d < 8, Nat.digitChar d ∈ "0123456789ABCDEF".toList) _ (by omega)
      have hlow : Nat.digitChar (c.toNat % 16) ∈ "0123456789ABCDEF".toList ↔ c.toNat % 16 < 10 :=
        (by decide : ∀ d < 16, (Nat.digitChar d ∈ "0123456789ABCDEF".toList ↔ d < 10)) _ (by omega)
      have hc : c ≠ '\'' := by
        rintro rfl
        exact absurd hcontrol (by decide)
      have hscan : scanString false 0 (quoteChar c ++ (key.flatMap quoteChar ++ '"' :: rest)) =
          if c.toNat % 16 < 10 then scanString false 0 (key.flatMap quoteChar ++ '"' :: rest)
              else none := by
        rw [quoteChar, if_pos hcontrol]
        show scanString false 0 ('\\' :: 'u' :: '0' :: '0' :: _ :: _ :: _) = _
        rw [scanString, if_pos rfl, scanString, if_neg (by decide), if_pos rfl, scanString,
          if_pos (by decide), scanString, if_pos (by decide), scanString, if_pos hhigh, scanString]
        exact if_congr hlow rfl rfl
      rw [hscan]
      split
      · next hdigit => simpa [hdigit, hc] using ih
      · next hdigit => simp [hdigit, hcontrol]
    · by_cases hescape : c = '\\' ∨ c = '"'
      · have hscan : scanString false 0 (quoteChar c ++ (key.flatMap quoteChar ++ '"' :: rest)) =
            scanString false 0 (key.flatMap quoteChar ++ '"' :: rest) := by
          rw [quoteChar, if_neg hcontrol, if_pos hescape]
          rcases hescape with rfl | rfl <;> rfl
        have hc : c ≠ '\'' := by
          rintro rfl
          exact absurd hescape (by decide)
        rw [hscan]
        simpa [hcontrol, hc] using ih
      · rw [quoteChar, if_neg hcontrol, if_neg hescape]
        rw [not_or] at hescape
        have hline : c ≠ '\n' := by
          rintro rfl
          exact hcontrol (by decide)
        rw [List.singleton_append, scanString, if_neg hescape.1, if_neg hline, if_neg hescape.2]
        by_cases hc : c = '\''
        · rw [if_pos hc]
          split
          · next hmore =>
            rw [apostrophes_quoted] at hmore
            exact ⟨fun h => absurd ⟨hc, hmore⟩ h.2.1, fun _ => rfl⟩
          · next hmore =>
            rw [apostrophes_quoted] at hmore
            rwa [and_iff_right fun h => absurd h hcontrol, and_iff_right fun h => hmore h.2]
        · rw [if_neg hc]
          simpa [hcontrol, hc] using ih

theorem taken_quoted {key : Text} (h : Quotable key) : Taken (configQuote key) :=
  ⟨key.flatMap quoteChar ++ ['"'], rfl, fun rest => by
    rw [List.append_assoc]
    exact (scanString_quoted key rest).1 h⟩

theorem refused_quoted {key : Text} (h : ¬ Quotable key) : Refused (configQuote key) :=
  ⟨key.flatMap quoteChar ++ ['"'], rfl, fun rest => by
    rw [List.append_assoc]
    exact (scanString_quoted key rest).2 h⟩

theorem keyBody_quoted {key : Text} (h : ∀ c ∈ key, c.toNat < 32 ∨ c.toNat = 127 →
    c.toNat % 16 < 10) (hnul : '\x00' ∉ key) : KeyBody (key.flatMap quoteChar) key := by
  have hupper : ∀ d < 10, upperHex d = Nat.digitChar d := by decide
  induction key with
  | nil => exact .nil
  | cons c rest ih =>
    obtain ⟨hc, hrest⟩ := List.forall_mem_cons.mp h
    rw [List.mem_cons, not_or] at hnul
    rw [List.flatMap_cons, quoteChar]
    split
    · next hcontrol =>
      have hlow := hc hcontrol
      rw [← hupper _ hlow, ← hupper (c.toNat / 16) (by omega)]
      refine .unicode ⟨?_, by omega, ?_⟩ (ih hrest hnul.2)
      · exact Nat.pos_of_ne_zero fun hzero => hnul.1 (Char.toNat_inj.mp hzero.symm)
      · rintro rfl
        exact absurd hlow (by decide)
    · next hcontrol =>
      split
      · next hescape => exact .escaped hescape (ih hrest hnul.2)
      · next hescape => exact .plain ⟨by omega, by omega, not_or.mp hescape⟩ (ih hrest hnul.2)

theorem Quotable.keyText {key : Text} (h : Quotable key) (hnul : '\x00' ∉ key) :
    KeyText (configQuote key) key :=
  ⟨key.flatMap quoteChar, rfl, keyBody_quoted h.1 hnul, taken_quoted h⟩

theorem Node.Fits.mono (h : node.Fits Key Raw) (hkey : ∀ key, Key key → Key' key) :
    node.Fits Key' fun _ => True := by
  induction node with
  | scalar raw => trivial
  | array length item ih => exact fun i hi => ih i (h i hi)
  | table keys value ih =>
    exact ⟨h.1, fun key hmem => ⟨hkey key (h.2 key hmem).1, ih key (h.2 key hmem).2⟩⟩

theorem each_tree (h : node.Fits Key' Raw) :
    node.tree.Each Key ↔ node.Fits Key fun _ => True := by
  induction node with
  | scalar raw => exact Iff.rfl
  | array length item ih =>
    rw [Node.tree, Tree.Each, Node.Fits]
    constructor
    · intro heach i hi
      have hitem := heach i
      rw [if_pos hi] at hitem
      exact (ih i (h i hi)).mp hitem
    · intro hfits i
      split
      · next hi => exact (ih i (h i hi)).mpr (hfits i hi)
      · trivial
  | table keys value ih =>
    rw [Node.tree, Tree.Each, Node.Fits]
    constructor
    · intro heach
      refine ⟨h.1, fun key hkey => ?_⟩
      have hentry := heach key
      rw [if_pos hkey] at hentry
      have hsome : (value key).tree ≠ .absent := by
        cases value key <;> exact Tree.noConfusion
      exact (hentry hsome).imp_right (ih key (h.2 key hkey).2).mp
    · intro hfits key hsome
      by_cases hkey : key ∈ keys
      · rw [if_pos hkey]
        exact (hfits.2 key hkey).imp_right (ih key (h.2 key hkey).2).mpr
      · rw [if_neg hkey] at hsome
        exact absurd rfl hsome

/-! ## One document -/

theorem Node.Fits.and (hkeys : node.Fits Key fun _ => True) (h : node.Fits Key' Raw) :
    node.Fits (fun key => Key key ∧ Key' key) Raw := by
  induction node with
  | scalar raw => exact h
  | array length item ih => exact fun i hi => ih i (hkeys i hi) (h i hi)
  | table keys value ih =>
    refine ⟨h.1, fun key hkey => ?_⟩
    exact ⟨⟨(hkeys.2 key hkey).1, (h.2 key hkey).1⟩, ih key (hkeys.2 key hkey).2 (h.2 key hkey).2⟩

/-- What rendering a document writes: the root's values before its tables, without
    what it skips. -/
def pruned (skip : Option (Text × Text)) (node : Node) : Node :=
  .table ((node.keys.filter fun key => ¬ (node.value key).isTable ∧ skip ≠ some ([], key))
      ++ node.keys.filter fun key => (node.value key).isTable)
    fun key => if (node.value key).isTable then
      .table ((node.value key).keys.filter fun k => skip ≠ some (key, k)) (node.value key).value
        else node.value key

theorem flatMap_not {α : Type} (l : List α) (p : α → Bool) (f : α → Text) :
    (l.flatMap fun a => if p a then f a else []) = (l.filter p).flatMap f := by
  induction l with
  | nil => rfl
  | cons a rest ih =>
    rw [List.flatMap_cons, ih, List.filter_cons]
    split
    · rfl
    · rfl

theorem passes_one (node : Node) : passes (some node) none = node.keys := List.append_nil _

theorem eq_table (h : node.isTable) : node = .table node.keys node.value := by
  cases node with
  | table keys value => rfl
  | scalar raw => cases h
  | array length item => cases h

theorem fits_pruned (htable : node.isTable) (h : node.Fits Key Raw) :
    (pruned skip node).Fits Key Raw := by
  rw [eq_table htable] at h
  refine ⟨(h.1.filter _).append (h.1.filter _) fun key hvalue hkey => ?_, fun key hkey => ?_⟩
  · simp only [List.mem_filter, decide_eq_true_eq] at hvalue hkey
    exact hvalue.2.1 hkey.2
  · have hmem : key ∈ node.keys := by
      rcases List.mem_append.mp hkey with hvalue | htables
      · exact (List.mem_filter.mp hvalue).1
      · exact (List.mem_filter.mp htables).1
    obtain ⟨hgood, hfits⟩ := h.2 key hmem
    refine ⟨hgood, ?_⟩
    dsimp only
    split
    · next hinner =>
      rw [eq_table hinner] at hfits
      exact ⟨hfits.1.filter _, fun k hk => hfits.2 k (List.mem_filter.mp hk).1⟩
    · exact hfits

section Written

variable {Written : Text → Text → Prop} (hwritten : ∀ key, Key key → Written (configQuote key) key)

include hwritten

theorem valueText_configOne (h : node.Fits Key Raw) :
    ValueText Raw Written (configOne node) node := by
  induction node with
  | scalar raw => exact .scalar h
  | array length item ih => exact .array _ fun i hi => ih i (h i hi)
  | table keys value ih =>
    exact .table configQuote _ h.1 (fun key hkey => hwritten key (h.2 key hkey).1) fun key hkey =>
      ih key (h.2 key hkey).2

theorem linesText_one (keys : List Text) (value : Text → Node) {kept : List Text}
    {value' : Text → Node}
    (hsame : ∀ key ∈ kept, key ∈ keys ∧ value' key = value key)
    (h : (Node.table kept value').Fits Key Raw) :
    LinesText Raw Written (kept.flatMap (configLine (some (.table keys value)) none))
    kept value' := by
  refine ⟨configQuote, fun key => configOne (value key), h.1, fun key hkey => ?_, ?_⟩
  · obtain ⟨hgood, hfits⟩ := h.2 key hkey
    rw [(hsame key hkey).2] at hfits ⊢
    exact ⟨hwritten key hgood, valueText_configOne hwritten hfits⟩
  · refine List.flatMap_congr fun key hkey => ?_
    have hmem : key ∈ (Node.table keys value).keys := (hsame key hkey).1
    rw [configLine, valueIn, if_pos hmem]
    rfl

/-- What is rendered is a document of what was kept. -/
theorem documentText_one (htable : node.isTable) (h : (pruned skip node).Fits Key Raw) :
    DocumentText Raw Written (configRender (some node) none skip) (pruned skip node) := by
  have hsource (key : Text) (hkey : key ∈ node.keys) :
      ((valueIn none key).or (valueIn (some node) key)).any Node.isTable =
          (node.value key).isTable := by
    rw [valueIn, valueIn, if_pos hkey]
    rfl
  refine ⟨_, _, _, (node.keys.filter fun key => ¬ (node.value key).isTable ∧
    skip ≠ some ([], key)).flatMap
    (configLine (some node) none), configQuote, fun key => ((node.value key).keys.filter fun k =>
      skip ≠ some (key, k)).flatMap
    (configLine (some (node.value key)) none), rfl, h.1, ?_, fun key hkey => ?_, ?_⟩
  · have hvalues := h.1.of_append_left
    have hlines := linesText_one hwritten node.keys node.value
      (fun key hkey => ?_) ⟨hvalues, fun key hkey => h.2 key (List.mem_append_left _ hkey)⟩
    · rwa [← eq_table htable] at hlines
    · obtain ⟨hmem, hkeep⟩ := List.mem_filter.mp hkey
      exact ⟨hmem, if_neg (of_decide_eq_true hkeep).1⟩
  · obtain ⟨hgood, hfits⟩ := h.2 key (List.mem_append_right _ hkey)
    have hinner := (List.mem_filter.mp hkey).2
    dsimp only at hfits ⊢
    rw [if_pos hinner] at hfits ⊢
    refine ⟨hwritten key hgood, rfl, ?_⟩
    have hlines := linesText_one hwritten (node.value key).keys (node.value key).value
      (fun k hk => ⟨(List.mem_filter.mp hk).1, rfl⟩) hfits
    rwa [← eq_table hinner] at hlines
  · -- the first round writes the values, the second the tables
    rw [configRender, passes_one, List.flatMap_cons, List.flatMap_cons, List.flatMap_nil,
      List.append_nil]
    congr 1
    · rw [← flatMap_not]
      refine List.flatMap_congr fun key hkey => ?_
      dsimp only
      rw [hsource key hkey]
      cases (node.value key).isTable <;> simp
    · rw [← flatMap_not]
      refine List.flatMap_congr fun key hkey => ?_
      dsimp only
      rw [hsource key hkey]
      cases hinner : (node.value key).isTable with
      | false => simp
      | true =>
        have htableIn : tableIn (some node) key = some (node.value key) := by
          rw [tableIn, valueIn, if_pos hkey, Option.filter_some_pos hinner]
        rw [htableIn, show tableIn none key = none from rfl, passes_one, ← flatMap_not]
        simp [ite_not]

end Written

/-! ## Two documents -/

/-- The document that both are merged to, the updates first. -/
def merged : Node → Node → Node
  | .table keys value, .table baseKeys baseValue =>
    .table (baseKeys ++ keys.filter (· ∉ baseKeys)) fun key =>
      if key ∈ keys then if key ∈ baseKeys then merged (value key) (baseValue key) else value key
        else baseValue key
  | node, _ => node

theorem configBoth_eq (updates base : Node) : configBoth updates base = configOne
    (merged updates base) := by
  induction updates generalizing base with
  | scalar raw | array length item ih => cases base <;> rfl
  | table keys value ih =>
    cases base with
    | scalar raw => rfl
    | array length item => rfl
    | table baseKeys baseValue =>
      rw [configBoth, merged, configOne, List.map_append]
      congr 4
      · refine List.map_congr_left fun key hkey => ?_
        rw [if_pos hkey]
        split
        · rw [ih]
        · rfl
      · refine List.map_congr_left fun key hkey => ?_
        have hmem := List.mem_filter.mp hkey
        rw [if_pos hmem.1, if_neg (of_decide_eq_true hmem.2)]

theorem merge_absent (tree : Tree) : tree.merge .absent = tree ∧ Tree.absent.merge tree = tree := by
  cases tree <;> exact ⟨rfl, rfl⟩

theorem tree_merged (updates base : Node) : (merged updates base).tree =
    base.tree.merge updates.tree := by
  induction updates generalizing base with
  | scalar raw | array length item ih => cases base <;> rfl
  | table keys value ih =>
    cases base with
    | scalar raw => rfl
    | array length item => rfl
    | table baseKeys baseValue =>
      refine congrArg Tree.table (funext fun key => ?_)
      by_cases hkey : key ∈ keys <;> by_cases hbase : key ∈ baseKeys <;> simp [hkey, hbase, ih,
        merge_absent]

theorem fits_merged (hbase : base.Fits Key Raw) (hupdates : updates.Fits Key Raw) :
    (merged updates base).Fits Key Raw := by
  induction updates generalizing base with
  | scalar raw | array length item ih => cases base <;> exact hupdates
  | table keys value ih =>
    cases base with
    | scalar raw | array length item => exact hupdates
    | table baseKeys baseValue =>
      refine ⟨hbase.1.append (hupdates.1.filter _) fun key hkey hmem => ?_, fun key hkey => ?_⟩
      · exact of_decide_eq_true (List.mem_filter.mp hmem).2 hkey
      · dsimp only
        split
        · next hin =>
          obtain ⟨hquoted, hfits⟩ := hupdates.2 key hin
          split
          · next hboth => exact ⟨hquoted, ih key (hbase.2 key hboth).2 hfits⟩
          · exact ⟨hquoted, hfits⟩
        · next hout =>
          have hin := (List.mem_append.mp hkey).resolve_right fun hmem =>
            hout (List.mem_filter.mp hmem).1
          exact hbase.2 key hin

/-- What two documents have at a key, merged. -/
def mergedIn : Option Node → Option Node → Option Node
  | some base, some updates => some (merged updates base)
  | some base, none => some base
  | none, updates => updates

theorem isTable_merged (updates base : Node) : (merged updates base).isTable = updates.isTable := by
  cases updates <;> cases base <;> rfl

section Both

variable {b u : Option Node} (hb : b.all Node.isTable) (hu : u.all Node.isTable)

include hb hu

theorem valueIn_mergedIn (key : Text) : valueIn (mergedIn b u) key = mergedIn (valueIn b key)
    (valueIn u key) := by
  obtain - | b := b
  · rfl
  obtain - | u := u
  · simp only [mergedIn, valueIn]
    split <;> rfl
  obtain ⟨baseKeys, baseValue, rfl⟩ : ∃ keys value, b = .table keys value := ⟨_, _, eq_table hb⟩
  obtain ⟨keys, value, rfl⟩ : ∃ keys value, u = .table keys value := ⟨_, _, eq_table hu⟩
  by_cases hkey : key ∈ keys <;> by_cases hbase : key ∈ baseKeys
  all_goals simp [valueIn, merged, Node.keys, Node.value, mergedIn, hkey, hbase]

theorem passes_mergedIn : passes b u = passes (mergedIn b u) none := by
  obtain - | b := b
  · obtain - | u := u
    · rfl
    · exact (List.filter_eq_self.mpr fun _ _ => rfl).trans (passes_one u).symm
  obtain - | u := u
  · rfl
  obtain ⟨baseKeys, baseValue, rfl⟩ : ∃ keys value, b = .table keys value := ⟨_, _, eq_table hb⟩
  obtain ⟨keys, value, rfl⟩ : ∃ keys value, u = .table keys value := ⟨_, _, eq_table hu⟩
  exact (passes_one (merged (.table keys value) (.table baseKeys baseValue))).symm

theorem configLine_mergedIn (key : Text) : configLine b u key = configLine
    (mergedIn b u) none key := by
  rw [configLine, configLine, valueIn_mergedIn hb hu]
  congr 2
  obtain - | base := valueIn b key <;> obtain - | updates := valueIn u key
  · rfl
  · rfl
  · rfl
  · exact configBoth_eq updates base

end Both

theorem any_or_mergedIn (b u : Option Node) : (u.or b).any Node.isTable =
    (mergedIn b u).any Node.isTable := by
  obtain - | base := b <;> obtain - | updates := u
  · rfl
  · rfl
  · rfl
  · exact (isTable_merged updates base).symm

theorem mergedIn_filter {b u : Option Node} (h : (mergedIn b u).any Node.isTable) :
    mergedIn (b.filter Node.isTable) (u.filter Node.isTable) = mergedIn b u := by
  obtain - | base := b <;> obtain - | updates := u
  · rfl
  · exact Option.filter_some_pos h
  · exact congrArg (mergedIn · none) (Option.filter_some_pos h)
  · have htable : updates.isTable := (isTable_merged updates base).symm.trans h
    rw [Option.filter_some_pos htable, Option.filter_some]
    split
    · rfl
    · next hbase =>
      cases updates <;> cases base <;> first | rfl | exact absurd rfl hbase

theorem configRender_eq (hbase : base.isTable) (hupdates : updates.isTable) :
    configRender (some base) (some updates) skip = configRender (some (merged updates base))
    none skip := by
  have hb : (some base).all Node.isTable := hbase
  have hu : (some updates).all Node.isTable := hupdates
  have hfilter (value : Option Node) : (value.filter Node.isTable).all Node.isTable := by
    cases value with
    | none => rfl
    | some node => cases hnode : node.isTable <;> simp [Option.filter, hnode]
  rw [configRender, configRender, passes_mergedIn hb hu]
  refine List.flatMap_congr fun tables _ => List.flatMap_congr fun key _ => ?_
  have hsource : ((valueIn none key).or (valueIn (mergedIn (some base) (some updates)) key))
      = mergedIn (valueIn (some base) key) (valueIn (some updates) key) :=
        valueIn_mergedIn hb hu key
  have hline := configLine_mergedIn hb hu key
  dsimp only
  rw [any_or_mergedIn, ← hsource, hline]
  show _ = (if Option.any Node.isTable
    ((valueIn none key).or (valueIn (mergedIn (some base) (some updates)) key)) ≠ tables
    then [] else _)
  split
  · rfl
  · next htables =>
    cases tables with
    | false => rfl
    | true =>
      -- a section: its two tables are merged like the documents
      rw [ne_eq, not_not, hsource] at htables
      have hinner : mergedIn (tableIn (some base) key) (tableIn (some updates) key)
          = tableIn (some (merged updates base)) key := by
        have hvalue : valueIn (some (merged updates base)) key = _ := valueIn_mergedIn hb hu key
        rw [tableIn, tableIn, mergedIn_filter htables, tableIn, hvalue]
        obtain ⟨node, hnode, htable⟩ := (Option.any_eq_true _ _).mp htables
        rw [hnode, Option.filter_some_pos htable]
      have hlines := configLine_mergedIn (hfilter (valueIn (some base) key))
        (hfilter (valueIn (some updates) key))
      rw [if_pos rfl, if_pos rfl, ← hinner]
      simp only [tableIn] at hlines ⊢
      rw [passes_mergedIn (hfilter _) (hfilter _)]
      simp only [hlines]
      rfl

/-! ## The results -/

theorem tree_pruned (h : node.isTable) : (pruned skip node).tree = node.tree.kept skip := by
  obtain ⟨keys, value, rfl⟩ : ∃ keys value, node = .table keys value := ⟨_, _, eq_table h⟩
  refine congrArg Tree.table (funext fun key => ?_)
  by_cases hkey : key ∈ keys
  · cases hvalue : value key with
    | scalar raw => by_cases hskip : skip = some ([], key) <;> simp [Node.keys, Node.value,
        Node.isTable, Node.tree, *]
    | array length item =>
      by_cases hskip : skip = some ([], key) <;> simp [Node.keys, Node.value, Node.isTable,
        Node.tree, *]
    | table innerKeys inner =>
      simp only [Node.keys, Node.value, Node.isTable, Node.tree, List.mem_append, List.mem_filter,
        hkey, hvalue]
      simp only [true_and, or_true, if_true]
      refine congrArg Tree.table (funext fun k => ?_)
      by_cases hskip : skip = some (key, k) <;> simp [hskip]
  · simp [Node.keys, hkey]

theorem kept_none (tree : Tree) : tree.kept none = tree := by
  cases tree with
  | table entry =>
    refine congrArg Tree.table (funext fun key => ?_)
    cases entry key <;> rfl
  | _ => rfl

/-- The key is removed, and no other: in the root it holds no table, and the table
    with the empty name does not have it. -/
def Tree.Removable (section_ key : Text) : Tree → Prop
  | .table entry => section_ ≠ [] ∨
    ((∀ inner, entry key ≠ .table inner) ∧ ∀ inner, entry [] = .table inner → inner key = .absent)
  | _ => True

theorem kept_eq_remove_iff (section_ key : Text) (tree : Tree) :
    tree.kept (some (section_, key)) = tree.remove section_ key ↔ tree.Removable section_ key := by
  cases tree with
  | table entry =>
    by_cases hsection : section_ = []
    · subst hsection
      simp only [Tree.kept, Tree.remove, Tree.Removable, if_true, ne_eq, not_true, false_or,
        Tree.table.injEq]
      constructor
      · intro heq
        have hat := congrFun heq
        constructor
        · intro inner hinner
          have hkey := hat key
          rw [hinner, Function.update_self] at hkey
          cases hkey
        · intro inner hinner
          -- the table with the empty name, which the skip also meets
          have hempty := hat []
          rw [hinner] at hempty
          by_cases hkey : key = []
          · subst hkey
            rw [Function.update_self] at hempty
            cases hempty
          · rw [Function.update_of_ne (Ne.symm hkey), hinner] at hempty
            have hinside := congrFun (Tree.table.inj hempty) key
            rw [if_pos rfl] at hinside
            exact hinside.symm
      · rintro ⟨hnot, hempty⟩
        funext other
        by_cases hother : other = key
        · subst hother
          rw [Function.update_self]
          cases hentry : entry other with
          | table inner => exact absurd hentry (hnot inner)
          | _ => simp
        · rw [Function.update_of_ne hother]
          cases hentry : entry other with
          | table inner =>
            refine congrArg Tree.table (funext fun k => ?_)
            split
            · next heq =>
              simp only [Option.some.injEq, Prod.mk.injEq] at heq
              obtain ⟨rfl, rfl⟩ := heq
              exact (hempty inner hentry).symm
            · rfl
          | _ => simp [Ne.symm hother]
    · refine iff_of_true ?_ (.inl hsection)
      rw [Tree.kept, Tree.remove, if_neg hsection]
      have hother (other : Text) (hne : section_ ≠ other) : (match entry other with
          | .table inner => Tree.table fun k =>
            if some (section_, key) = some (other, k) then .absent else inner k
          | rest => if some (section_, key) = some ([], other) then .absent else rest) =
              entry other := by
        cases entry other <;> simp [hsection, hne]
      split
      · next inner hinner =>
        refine congrArg Tree.table (funext fun other => ?_)
        by_cases hne : section_ = other
        · subst hne
          rw [Function.update_self, hinner]
          refine congrArg Tree.table (funext fun k => ?_)
          simp [Function.update_apply, eq_comm]
        · rw [Function.update_of_ne (Ne.symm hne)]
          exact hother other hne
      · next hnot =>
        refine congrArg Tree.table (funext fun other => ?_)
        by_cases hne : section_ = other
        · subst hne
          cases hentry : entry section_ with
          | table inner => exact absurd hentry (hnot inner)
          | _ => simp [hsection]
        · exact hother other hne
  | _ => exact ⟨fun _ => trivial, fun _ => rfl⟩

section Parser

variable {Parses : Text → Node → Prop} (hparser : TomlParser Raw Parses) (hbase : base.isTable)
  (hupdates : updates.isTable) (hbaseFits : base.Fits (fun key => '\x00' ∉ key) Raw)
  (hupdatesFits : updates.Fits (fun key => '\x00' ∉ key) Raw)

include hparser hbase hupdates hbaseFits hupdatesFits

/-- Documents whose keys can be quoted are read as what was kept of their merge. -/
theorem TomlParser.reads_render (hkeys : ((base.tree.merge updates.tree).kept skip).Each Quotable) :
    ∃ shown, Parses (configRender (some base) (some updates) skip) shown ∧
      shown.tree = (base.tree.merge updates.tree).kept skip := by
  have hmerged : (merged updates base).isTable := (isTable_merged updates base).trans hupdates
  have hfits : (pruned skip (merged updates base)).Fits (fun key => '\x00' ∉ key) Raw :=
    fits_pruned hmerged (fits_merged hbaseFits hupdatesFits)
  rw [← tree_merged, ← tree_pruned hmerged, each_tree hfits] at hkeys
  rw [configRender_eq hbase hupdates, ← tree_merged, ← tree_pruned hmerged]
  exact hparser.reads _ _ (documentText_one (fun key h => h.1.keyText h.2) hmerged
    (hkeys.and hfits))

/-- A document with a key that cannot be quoted is not read. -/
theorem TomlParser.keys_of_parses {shown : Node}
    (h : Parses (configRender (some base) (some updates) skip) shown) :
    ((base.tree.merge updates.tree).kept skip).Each Quotable := by
  have hmerged : (merged updates base).isTable := (isTable_merged updates base).trans hupdates
  have hfits : (pruned skip (merged updates base)).Fits (fun key => '\x00' ∉ key) Raw :=
    fits_pruned hmerged (fits_merged hbaseFits hupdatesFits)
  have hspelled (key : Text) : Taken (configQuote key) ∨ Refused (configQuote key) :=
    (Classical.em (Quotable key)).imp taken_quoted refused_quoted
  rw [configRender_eq hbase hupdates] at h
  have htaken := hparser.refuses configQuote hspelled _ _ _
    (documentText_one (fun _ _ => rfl) hmerged hfits) h
  rw [← tree_merged, ← tree_pruned hmerged, each_tree hfits]
  exact htaken.mono fun key hkey => of_not_not fun hnot =>
    not_taken_of_refused (refused_quoted hnot) hkey

end Parser

theorem merge_empty (h : base.isTable) : base.tree.merge (.table fun _ => .absent) = base.tree := by
  rw [eq_table h]
  exact congrArg Tree.table (funext fun key => (merge_absent _).1)

/-- The quoted strings of the text are tokens. -/
inductive Scanned : Text → Prop
  | nil : Scanned []
  | other {c : Char} {rest : Text} (h : c ≠ '"') (hrest : Scanned rest) : Scanned (c :: rest)
  | string {rest after : Text} (h : scanString false 0 rest = some after) (hrest : Scanned after) :
      Scanned ('"' :: rest)

/-- The strings of the text are tokens exactly if `P` holds. -/
def ScansIf (P : Prop) (text : Text) : Prop := ∀ rest, Scanned (text ++ rest) ↔ P ∧ Scanned rest

variable {P Q : Prop} {text other : Text}

theorem ScansIf.append (h : ScansIf P text) (h' : ScansIf Q other) : ScansIf (P ∧ Q)
    (text ++ other) := by
  intro rest
  rw [List.append_assoc, h, h', and_assoc]

theorem ScansIf.congr (h : ScansIf P text) (hiff : P ↔ Q) : ScansIf Q text :=
    fun rest => by rw [h, hiff]

theorem scansIf_nil : ScansIf True [] := fun _ => by rw [true_and, List.nil_append]

theorem scansIf_free (h : '"' ∉ text) : ScansIf True text := by
  induction text with
  | nil => exact scansIf_nil
  | cons c text ih =>
    rw [List.mem_cons, not_or] at h
    intro rest
    rw [← ih h.2 rest]
    constructor
    · intro hscanned
      cases hscanned with
      | other _ hrest => exact hrest
      | string => exact absurd rfl h.1
    · exact .other (Ne.symm h.1)

theorem scansIf_taken (h : Taken text) : ScansIf True text := by
  obtain ⟨body, rfl, htaken⟩ := h
  intro rest
  rw [true_and]
  constructor
  · intro hscanned
    cases hscanned with
    | other hnot => exact absurd rfl hnot
    | string hafter hrest => rwa [Option.some.inj ((htaken rest).symm.trans hafter)]
  · exact .string (htaken rest)

theorem scansIf_refused (h : Refused text) : ScansIf False text := by
  obtain ⟨body, rfl, hrefused⟩ := h
  refine fun rest => iff_of_false (fun hscanned => ?_) (fun hnot => hnot.1)
  cases hscanned with
  | other hnot => exact hnot rfl
  | string hafter => cases (hrefused rest).symm.trans hafter

theorem scansIf_flatMap {α : Type} {P : α → Prop} {f : α → Text} {l : List α}
    (h : ∀ a ∈ l, ScansIf (P a) (f a)) : ScansIf (∀ a ∈ l, P a) (l.flatMap f) := by
  induction l with
  | nil => exact scansIf_nil.congr (by simp)
  | cons a rest ih =>
    have hrest := ih fun b hb => h b (List.mem_cons_of_mem _ hb)
    exact ((h a List.mem_cons_self).append hrest).congr List.forall_mem_cons.symm

theorem scansIf_commas {α : Type} {P : α → Prop} {f : α → Text} {l : List α}
    (h : ∀ a ∈ l, ScansIf (P a) (f a)) : ScansIf (∀ a ∈ l, P a) (commas (l.map f)) := by
  induction l with
  | nil => exact scansIf_nil.congr (by simp)
  | cons a rest ih =>
    have hfirst := h a List.mem_cons_self
    cases rest with
    | nil => exact (hfirst.append scansIf_nil).congr (by simp)
    | cons b rest =>
      have hcomma : ScansIf True ", ".toList := scansIf_free (by decide)
      have hrest := hcomma.append (ih fun b hb => h b (List.mem_cons_of_mem _ hb))
      exact (hfirst.append hrest).congr (by rw [true_and, List.forall_mem_cons (a := a)])

section Grammar

variable {Written : Text → Text → Prop} {Good : Text → Prop} (hraw : ∀ raw, Raw raw → '"' ∉ raw)
  (hwritten : ∀ written key, Written written key → ScansIf (Good key) written)

include hraw hwritten

theorem scansIf_value (h : ValueText Raw Written text node) : ScansIf (node.Fits Good fun _ =>
    True) text := by
  induction h with
  | scalar h => exact scansIf_free (hraw _ h)
  | array text _ ih =>
    have hitems := scansIf_commas fun i hi => ih i (List.mem_range.mp hi)
    have hopen : ScansIf True ['['] := scansIf_free (by decide)
    have hclose : ScansIf True [']'] := scansIf_free (by decide)
    exact ((hopen.append hitems).append hclose).congr (by simp [Node.Fits, List.mem_range])
  | @table keys value written text hkeys hkey _ ih =>
    have hequals : ScansIf True " = ".toList := scansIf_free (by decide)
    have hentries := scansIf_commas fun key hmem =>
      ((hwritten _ key (hkey key hmem)).append hequals).append (ih key hmem)
    have hopen : ScansIf True ['{'] := scansIf_free (by decide)
    have hclose : ScansIf True ['}'] := scansIf_free (by decide)
    exact ((hopen.append hentries).append hclose).congr (by simp [Node.Fits, hkeys])

theorem scansIf_lines {keys : List Text} {value : Text → Node}
    (h : LinesText Raw Written text keys value) :
    ScansIf ((Node.table keys value).Fits Good fun _ => True) text := by
  obtain ⟨written, valueText, hkeys, hentries, rfl⟩ := h
  have hequals : ScansIf True " = ".toList := scansIf_free (by decide)
  have hend : ScansIf True ['\n'] := scansIf_free (by decide)
  have hlines := scansIf_flatMap fun key hmem =>
    (((hwritten _ key (hentries key hmem).1).append hequals).append
      (scansIf_value hraw hwritten (hentries key hmem).2)).append hend
  exact hlines.congr (by simp [Node.Fits, hkeys])

theorem scanned_document {root : Node} (h : DocumentText Raw Written text root) :
    Scanned text ↔ root.Fits Good fun _ => True := by
  obtain ⟨values, tables, value, lines, written, inner, rfl, hkeys, hlines, htables, rfl⟩ := h
  have hopen : ScansIf True "\n[".toList := scansIf_free (by decide)
  have hclose : ScansIf True "]\n".toList := scansIf_free (by decide)
  have hsections := scansIf_flatMap fun key hmem =>
    ((hopen.append (hwritten _ key (htables key hmem).1)).append hclose).append
      (scansIf_lines hraw hwritten (htables key hmem).2.2)
  have hall := ((scansIf_lines hraw hwritten hlines).append hsections) []
  rw [List.append_nil, and_iff_left Scanned.nil] at hall
  rw [hall, Node.Fits, Node.Fits, List.forall_mem_append]
  have hinner : ∀ key ∈ tables, Node.Fits Good (fun _ => True)
      (.table (value key).keys (value key).value) ↔ (value key).Fits Good fun _ => True :=
    fun key hmem => by rw [← eq_table (htables key hmem).2.1]
  constructor
  · rintro ⟨⟨-, hvalues⟩, hrest⟩
    refine ⟨hkeys, hvalues, fun key hmem => ?_⟩
    obtain ⟨⟨⟨-, hgood⟩, -⟩, hfits⟩ := hrest key hmem
    exact ⟨hgood, (hinner key hmem).mp hfits⟩
  · rintro ⟨-, hvalues, hrest⟩
    refine ⟨⟨hkeys.of_append_left, hvalues⟩, fun key hmem => ?_⟩
    exact ⟨⟨⟨trivial, (hrest key hmem).1⟩, trivial⟩, (hinner key hmem).mpr (hrest key hmem).2⟩

end Grammar

theorem KeyText.nul {key : Text} (h : KeyText text key) : '\x00' ∉ key := by
  obtain ⟨body, -, hbody, -⟩ := h
  induction hbody with
  | nil => exact List.not_mem_nil
  | plain h _ ih | escaped h _ ih | unicode h _ ih =>
    rw [List.mem_cons, not_or]
    refine ⟨?_, ih⟩
    rintro rfl
    revert h
    decide

theorem ValueText.fits (h : ValueText Raw KeyText text node) :
    node.Fits (fun key => '\x00' ∉ key) Raw := by
  induction h with
  | scalar h => exact h
  | array _ _ ih => exact ih
  | table _ _ hkeys hwritten _ ih =>
    exact ⟨hkeys, fun key hkey => ⟨(hwritten key hkey).nul, ih key hkey⟩⟩

theorem DocumentText.fits {root : Node} (h : DocumentText Raw KeyText text root) :
    root.Fits (fun key => '\x00' ∉ key) Raw := by
  obtain ⟨values, tables, value, _, _, _, rfl, hkeys, ⟨_, _, _, hlines, _⟩, htables, _⟩ := h
  refine ⟨hkeys, fun key hkey => ?_⟩
  rcases List.mem_append.mp hkey with hmem | hmem
  · exact ⟨(hlines key hmem).1.nul, (hlines key hmem).2.fits⟩
  · obtain ⟨hkey, htable, _, _, hinner, hentries, _⟩ := htables key hmem
    rw [eq_table htable]
    exact ⟨hkey.nul, hinner, fun k hk => ⟨(hentries k hk).1.nul, (hentries k hk).2.fits⟩⟩

/-- The grammar itself is such a parser, of texts whose strings are tokens. -/
theorem tomlParser_grammar (hraw : ∀ raw, Raw raw → '"' ∉ raw) :
    TomlParser Raw fun text root => DocumentText Raw KeyText text root ∧ Scanned text where
  shows := by
    rintro text root ⟨h, -⟩
    refine ⟨?_, h.fits⟩
    obtain ⟨_, _, _, _, _, _, rfl, _⟩ := h
    rfl
  reads := by
    intro text root h
    have hscans : Scanned text ↔ root.Fits (fun _ => True) fun _ => True :=
      scanned_document hraw (fun _ _ ⟨_, _, _, htaken⟩ => scansIf_taken htaken) h
    exact ⟨root, ⟨h, hscans.mpr (h.fits.mono fun _ _ => trivial)⟩, rfl⟩
  refuses := by
    rintro spell hspell text root shown hdocument ⟨-, hscanned⟩
    refine (scanned_document hraw ?_ hdocument).mp hscanned
    rintro _ key rfl
    rcases hspell key with htaken | hrefused
    · exact (scansIf_taken htaken).congr (iff_of_true trivial htaken)
    · exact (scansIf_refused hrefused).congr (iff_of_false id (not_taken_of_refused hrefused))

/-- `"a" = 1`, and a table `"t"` with the key `first`. -/
def sample (name first : Text) : Node :=
  .table [name, ['t']] fun key =>
    if key = ['t'] then .table [first] fun _ => .scalar ['1'] else .scalar ['1']

theorem sample_fits {name first : Text} (hname : Quotable name ∧ '\x00' ∉ name) (hne : name ≠ ['t'])
    (hfirst : Quotable first ∧ '\x00' ∉ first) :
    (pruned none (sample name first)).Fits (fun key => Quotable key ∧ '\x00' ∉ key)
    (· = ['1']) := by
  refine fits_pruned rfl ⟨by simp [hne], fun key hkey => ?_⟩
  simp only [List.mem_cons, List.not_mem_nil, or_false] at hkey
  rcases hkey with rfl | rfl
  · dsimp only
    rw [if_neg hne]
    exact ⟨hname, rfl⟩
  · dsimp only
    rw [if_pos rfl]
    refine ⟨by decide, List.nodup_singleton _, fun k hk => ?_⟩
    rw [List.mem_singleton.mp hk]
    exact ⟨hfirst, rfl⟩

theorem sample_parses {name first : Text} (hname : Quotable name ∧ '\x00' ∉ name)
    (hne : name ≠ ['t']) (hfirst : Quotable first ∧ '\x00' ∉ first) :
    DocumentText (· = ['1']) KeyText (configRender (some (sample name first)) none none)
      (pruned none (sample name first)) ∧
      Scanned (configRender (some (sample name first)) none none) := by
  have hdocument := documentText_one (fun key h => h.1.keyText h.2) rfl
    (sample_fits hname hne hfirst)
  have hscans : Scanned (configRender (some (sample name first)) none none) ↔
      (pruned none (sample name first)).Fits (fun _ => True) fun _ => True :=
    scanned_document (by rintro _ rfl; decide)
      (fun _ _ ⟨_, _, _, htaken⟩ => scansIf_taken htaken) hdocument
  exact ⟨hdocument, hscans.mpr (hdocument.fits.mono fun _ _ => trivial)⟩

theorem tomlParser_sample : TomlParser (· = ['1']) fun text root =>
    DocumentText (· = ['1']) KeyText text root ∧ Scanned text :=
  tomlParser_grammar (by rintro _ rfl; decide)

end Cwhip.Gtk.Config
