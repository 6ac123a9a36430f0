import LdapFilter.Json.Token

/-!
# Writing documents

The compact text of a document is its tokens without space between them. The laid-out text gives
each item and member a line of its own, indented by two spaces for each level.
-/

namespace LdapFilter.Json

/-! ### Compact text -/

mutual
def tokens : Json → List Token
  | .null => [.null]
  | .bool b => [.bool b]
  | .number n => [.number n]
  | .string s => [.string s]
  | .array items => .openArray :: [Token.comma].intercalate (itemTokens items) ++ [.closeArray]
  | .object members =>
    .openObject :: [Token.comma].intercalate (memberTokens members) ++ [.closeObject]

def itemTokens : List Json → List (List Token)
  | [] => []
  | item :: items => item.tokens :: itemTokens items

def memberTokens : List (String × Json) → List (List Token)
  | [] => []
  | (key, value) :: members =>
    (.string key :: .colon :: value.tokens) :: memberTokens members
end

/-- The text of a document without any space outside its strings. -/
def compact (j : Json) : String :=
  String.ofList (j.tokens.flatMap Token.spell)

/-! ### Laid-out text -/

/-- The start of a line at a level. -/
def newline (level : Nat) : List Char :=
  '\n' :: List.replicate (2 * level) ' '

/-- Lines between brackets, one level further in than the brackets; no lines stand on none. -/
def block (level : Nat) (opening closing : Char) (lines : List (List Char)) : List Char :=
  match lines with
  | [] => [opening, closing]
  | lines =>
    opening :: newline (level + 1) ++ (',' :: newline (level + 1)).intercalate lines
      ++ newline level ++ [closing]

mutual
/-- The text of a document laid out in lines, where the document starts at a level. -/
def layout (level : Nat) : Json → List Char
  | .array items => block level '[' ']' (itemLines (level + 1) items)
  | .object members => block level '{' '}' (memberLines (level + 1) members)
  | .null => Token.null.spell
  | .bool b => (Token.bool b).spell
  | .number n => (Token.number n).spell
  | .string s => (Token.string s).spell

def itemLines (level : Nat) : List Json → List (List Char)
  | [] => []
  | item :: items => item.layout level :: itemLines level items

def memberLines (level : Nat) : List (String × Json) → List (List Char)
  | [] => []
  | (key, value) :: members =>
    ((Token.string key).spell ++ Token.colon.spell ++ ' ' :: value.layout level)
      :: memberLines level members
end

/-- The text of a document laid out in lines. -/
def pretty (j : Json) : String :=
  String.ofList (j.layout 0)

end LdapFilter.Json
