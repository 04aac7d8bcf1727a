import Taxonomy.Text.Unprintable

/-!
# Quoted text

Quoted text stands in double quotes and shows every character: quotes and backslashes are escaped
by a backslash, the common controls by a letter, everything else without a glyph by its code point.
-/

namespace Taxonomy.Text

/-- A character as it stands inside double quotes. -/
def escape (c : Char) : String :=
  match c with
  | '"' => "\\\""
  | '\\' => "\\\\"
  | '\t' => "\\t"
  | '\r' => "\\r"
  | '\n' => "\\n"
  | '\x00' => "\\0"
  | c =>
    if isUnprintable c then
      "\\u\x7b" ++ String.ofList (Nat.toDigits 16 c.toNat) ++ "\x7d"
    else c.toString

/-- Text in double quotes, with every character visible. -/
def quoted (text : String) : String :=
  "\"" ++ String.join (text.toList.map escape) ++ "\""

end Taxonomy.Text
