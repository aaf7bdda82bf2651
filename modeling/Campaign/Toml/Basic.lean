/-!
# TOML values

* `Toml`: a value;
* `Toml.isPlainChar`: the characters that stand for themselves in a quoted text.

A table is a list of keys and values; no key occurs twice in what is read or written.
-/

namespace Campaign

/-- A TOML value. -/
inductive Toml where
  | string (s : String)
  | integer (n : Int)
  | float (x : Float)
  | bool (b : Bool)
  /-- A date, a time of day, or both, as written. -/
  | time (literal : List Char)
  | array (items : List Toml)
  | table (entries : List (String × Toml))

namespace Toml

/-- The value of a key in a table. -/
abbrev Table := List (String × Toml)

/-- Whether a character stands for itself in a quoted text: no control character but the tab. -/
def isPlainChar (c : Char) : Bool := c = '\t' || (0x20 ≤ c.toNat && c.toNat ≠ 0x7f)

end Toml

end Campaign
