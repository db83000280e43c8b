import ScalarScript.Text.Visible

/-!
# Quoted names

In messages and events a name stands between double quotes. Quotes, backslashes and the usual
control characters are written with a backslash; any other character that is not visible is
written as its code point, so the quoted form of every name is one line of visible text.
-/

namespace ScalarScript
namespace Text

def escape (c : Char) : List Char :=
  match c with
  | '\x00' => ['\\', '0']
  | '\t' => ['\\', 't']
  | '\n' => ['\\', 'n']
  | '\r' => ['\\', 'r']
  | '"' => ['\\', '"']
  | '\\' => ['\\', '\\']
  | c =>
    if isVisible c then [c]
    else '\\' :: 'u' :: '\x7b' :: Nat.toDigits 16 c.toNat ++ ['\x7d']

def quoted (s : String) : String :=
  String.ofList ('"' :: s.toList.flatMap escape ++ ['"'])

example : quoted "a\"b\n" = "\"a\\\"b\\n\"" := by decide +kernel

example : quoted "é\u0301" = "\"é\\u\x7b301\x7d\"" := by decide +kernel

end Text
end ScalarScript
