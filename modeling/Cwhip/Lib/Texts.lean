/-
  Cwhip.Lib.Texts

  Texts, and strings of bytes.  Both are compared by their elements, as instances
  by name, so that a definition that looks for one in a list need not prove it.
-/

import Mathlib.Data.List.Basic

namespace Cwhip

/-- Text, as the sequence of its characters. -/
abbrev Text := List Char

/-- The bytes of a string, of a file, or of a name in the file system. -/
abbrev Bytes := List UInt8

namespace Lib

instance lawfulBEqText : LawfulBEq Text := inferInstance

instance lawfulBEqBytes : LawfulBEq Bytes := inferInstance

end Lib

end Cwhip
