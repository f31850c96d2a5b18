import ResourceArchive.Text.Hidden

/-! Text between quotes, in which every character can be seen: a character that would end the quotes
    or does not show itself is written as an escape, which begins with a backslash. -/

namespace ResourceArchive.Quoted

/-- The escape of a character by its number, in hexadecimal digits. -/
def byNumber (c : Char) : List Char := "\\u\x7b".toList ++ Nat.toDigits 16 c.toNat ++ "\x7d".toList

/-- How a character is written between quotes. -/
def escape (c : Char) : List Char :=
  match c with
  | '\x00' => ['\\', '0']
  | '\t' => ['\\', 't']
  | '\n' => ['\\', 'n']
  | '\r' => ['\\', 'r']
  | '"' => ['\\', '"']
  | '\\' => ['\\', '\\']
  | c => if isHidden c then byNumber c else [c]

end ResourceArchive.Quoted

namespace ResourceArchive

/-- A text between quotes. -/
def quoted (s : String) : String := "\"" ++ String.ofList (s.toList.flatMap Quoted.escape) ++ "\""

end ResourceArchive
