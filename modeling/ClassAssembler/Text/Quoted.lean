import ClassAssembler.Text.Hidden

/-!
# Quoted text

A string between double quotes, in which quotes and backslashes are escaped, the usual control
characters have short names, and every other hidden character is written by its code point.
-/

namespace ClassAssembler
namespace Text

def byCodePoint (c : Char) : String :=
  "\\u\x7b" ++ String.ofList (Nat.toDigits 16 c.toNat) ++ "\x7d"

def escape (c : Char) : String :=
  if c = '"' then "\\\""
  else if c = '\\' then "\\\\"
  else if c = '\n' then "\\n"
  else if c = '\r' then "\\r"
  else if c = '\t' then "\\t"
  else if c.toNat = 0 then "\\0"
  else if isHidden c then byCodePoint c
  else c.toString

def quoted (text : String) : String :=
  text.foldl (fun done c => done ++ escape c) "\"" ++ "\""

end Text
end ClassAssembler
