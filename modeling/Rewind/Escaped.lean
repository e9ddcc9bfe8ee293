import Rewind.Position

/-!
# Bytes made visible

Messages show token text, which may hold any bytes.  Printable ASCII stands for itself, apart from
the quotes and the backslash; tab, line feed and carriage return have a letter; every other byte is
written as two hexadecimal digits.
-/

namespace Rewind

/-- The lower-case hexadecimal digit of a number below sixteen. -/
def hexDigit (n : Nat) : Char :=
  Char.ofNat (if n < 10 then n + 48 else n + 87)

/-- A byte as visible ASCII. -/
def escapeByte (b : UInt8) : List Char :=
  match b.toNat with
  | 9 => ['\\', 't']
  | 10 => ['\\', 'n']
  | 13 => ['\\', 'r']
  | 34 => ['\\', '"']
  | 39 => ['\\', '\'']
  | 92 => ['\\', '\\']
  | n =>
    if 32 ≤ n ∧ n < 127 then [Char.ofNat n]
    else ['\\', 'x', hexDigit (n / 16), hexDigit (n % 16)]

/-- Text as visible ASCII. -/
def escape (text : Bytes) : String :=
  String.ofList (text.flatMap escapeByte)

/-- Words set off from the prose around them. -/
def quote (words : String) : String :=
  "`" ++ words ++ "`"

end Rewind
