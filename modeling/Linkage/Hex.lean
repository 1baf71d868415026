/-!
# Hexadecimal text

Numbers as messages show them: `0x` and lower-case digits.
-/

namespace Linkage

/-- The hexadecimal digits of a number, at least one. -/
def hexDigits (n : Nat) : List Char := Nat.toDigits 16 n

/-- A number in hexadecimal without leading zeros. -/
def hex (n : Nat) : String := String.ofList ('0' :: 'x' :: hexDigits n)

/-- A number in hexadecimal, filled up with zeros to at least `width` digits. -/
def hexPadded (width n : Nat) : String :=
  let digits := hexDigits n
  String.ofList ('0' :: 'x' :: (List.replicate (width - digits.length) '0' ++ digits))

/-- The value of a hexadecimal digit. -/
def hexDigit? (c : Char) : Option Nat :=
  if c.isDigit then some (c.toNat - '0'.toNat)
  else if 'a' ≤ c && c ≤ 'f' then some (c.toNat - 'a'.toNat + 10)
  else none

/-- The number that hexadecimal digits stand for. -/
def parseHexDigits? (cs : List Char) : Option Nat :=
  cs.foldlM (fun n c => (hexDigit? c).map fun d => 16 * n + d) 0

/-- The number that a text in hexadecimal stands for. -/
def parseHex? (s : String) : Option Nat :=
  match s.toList with
  | '0' :: 'x' :: cs => parseHexDigits? cs
  | _ => none

end Linkage
