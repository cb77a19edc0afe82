import Statechart.Json.Text

/-!
# Quoted text

The description of values shows a string in double quotes.  Quotes, backslashes and
the common controls are escaped by a letter, every other invisible or combining
character by its number.
-/

namespace Statechart

namespace Quoted

/-- The characters beyond ASCII that have no visible form of their own: controls,
format characters, blanks and private characters. -/
def invisibleRanges : List (Nat × Nat) :=
  [(127, 160), (173, 173), (1536, 1541), (1564, 1564), (1757, 1757), (1807, 1807),
   (2192, 2193), (2274, 2274), (5760, 5760), (6158, 6158), (8192, 8207), (8232, 8239),
   (8287, 8303), (12288, 12288), (57344, 63743), (65279, 65279), (65529, 65531),
   (69821, 69821), (69837, 69837), (78896, 78904), (113824, 113827), (119155, 119162),
   (917505, 917505), (917536, 917631), (983040, 1114111)]

/-- The blocks of characters that combine with the one before them. -/
def combiningRanges : List (Nat × Nat) :=
  [(768, 879), (1155, 1161), (1425, 1469), (1552, 1562), (1611, 1631), (1750, 1756),
   (1759, 1764), (6832, 6862), (7616, 7679), (8400, 8432), (12330, 12335),
   (12441, 12442), (65024, 65039), (65056, 65071), (917760, 917999)]

/-- Whether a number lies in one of the ranges. -/
def inRanges (ranges : List (Nat × Nat)) (n : Nat) : Bool :=
  ranges.any fun r => r.1 ≤ n && n ≤ r.2

/-- Whether a character is escaped by its number. -/
def isHidden (c : Char) : Bool :=
  c.toNat < 32 || inRanges invisibleRanges c.toNat || inRanges combiningRanges c.toNat

/-- The hexadecimal digits of a number, in lower case. -/
def hex (n : Nat) : List Char := Nat.toDigits 16 n

/-- A character inside quotes. -/
def encodeChar (c : Char) : List Char :=
  if c = '"' then ['\\', '"']
  else if c = '\\' then ['\\', '\\']
  else if c = '\n' then ['\\', 'n']
  else if c = '\r' then ['\\', 'r']
  else if c = '\t' then ['\\', 't']
  else if c.toNat = 0 then ['\\', '0']
  else if isHidden c then ['\\', 'u', '\x7b'] ++ hex c.toNat ++ ['\x7d']
  else [c]

/-- A string in quotes. -/
def encode (s : String) : String :=
  "\"" ++ String.ofList (s.toList.flatMap encodeChar) ++ "\""

end Quoted

end Statechart
