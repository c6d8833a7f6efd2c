/-!
# Texts put together
-/

namespace ScriptTypes.Text

/-- The texts one after the other, with a separator between neighbours. -/
def join (separator : String) : List String → String
  | [] => ""
  | [text] => text
  | text :: next :: rest => text ++ separator ++ join separator (next :: rest)

end ScriptTypes.Text
