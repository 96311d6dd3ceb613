import Partitura.Document.Value

/-!
# Writing a document

The text form of raw values, against which the reader is stated: texts in double quotes, lists in
brackets, mappings in braces, fields in their order. How a scalar is written is for the caller to say.
-/

namespace Partitura.Document

variable {α : Type}

/-- A character inside quotes. Control characters are written by their numbers. -/
def escape (c : Char) : List Char :=
  if c = '"' ∨ c = '\\' then ['\\', c]
  else if c.toNat < 32 then '\\' :: 'u' :: Text.hex 4 c.toNat
  else [c]

def quote (s : String) : String :=
  String.ofList ('"' :: (s.toList.flatMap escape ++ ['"']))

mutual

def write (scalar : α → String) : Value α → String
  | .null => "null"
  | .bool b => if b then "true" else "false"
  | .int n => toString n
  | .real x => scalar x
  | .text s => quote s
  | .list items => "[" ++ ",".intercalate (writeItems scalar items) ++ "]"
  | .mapping fields => "\x7b" ++ ",".intercalate (writeFields scalar fields) ++ "\x7d"

def writeItems (scalar : α → String) : List (Value α) → List String
  | [] => []
  | v :: rest => write scalar v :: writeItems scalar rest

def writeFields (scalar : α → String) : List (String × Value α) → List String
  | [] => []
  | (k, v) :: rest => (quote k ++ ":" ++ write scalar v) :: writeFields scalar rest

end

end Partitura.Document
