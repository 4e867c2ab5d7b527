/- Bracketed text, on one line or indented. -/
namespace MemIndex.Text

inductive Shape where
  | atom (text : String)
  | pair (key value : Shape)
  | tuple (items : List Shape)
  | braces (items : List Shape)

namespace Shape

mutual

def inline : Shape → String
  | atom text => text
  | pair key value => inline key ++ ": " ++ inline value
  | tuple items => "(" ++ inlineItems items ++ ")"
  | braces items => "\x7b" ++ inlineItems items ++ "\x7d"

def inlineItems : List Shape → String
  | [] => ""
  | [item] => inline item
  | item :: items => inline item ++ ", " ++ inlineItems items

end

def indent (text : String) : String :=
  "\n".intercalate ((text.splitOn "\n").map ("    " ++ ·))

def block (left right : String) (items : List String) : String :=
  if items.isEmpty then left ++ right
  else left ++ "\n" ++ String.join (items.map (indent · ++ ",\n")) ++ right

mutual

def indented : Shape → String
  | atom text => text
  | pair key value => indented key ++ ": " ++ indented value
  | tuple items => block "(" ")" (indentedItems items)
  | braces items => block "\x7b" "\x7d" (indentedItems items)

def indentedItems : List Shape → List String
  | [] => []
  | item :: items => indented item :: indentedItems items

end

end Shape

end MemIndex.Text
