/-!
# Globally unique identifiers

A 128-bit number, written as 32 hexadecimal digits in groups of 8, 4, 4, 4 and 12. It is read in
that form, without the hyphens, between braces, or after `urn:uuid:`.
-/

namespace QueryCompiler

/-- A 128-bit identifier. -/
structure Guid where
  bits : BitVec 128
  deriving DecidableEq, Repr

namespace Guid

/-- The value of a hexadecimal digit, of either case. -/
def hexValue? (c : Char) : Option Nat :=
  if '0' ≤ c && c ≤ '9' then some (c.toNat - '0'.toNat)
  else if 'a' ≤ c && c ≤ 'f' then some (c.toNat - 'a'.toNat + 10)
  else if 'A' ≤ c && c ≤ 'F' then some (c.toNat - 'A'.toNat + 10)
  else none

/-- The digit of a value below sixteen, in lower case. -/
def hexDigit (n : Nat) : Char :=
  if n < 10 then Char.ofNat ('0'.toNat + n) else Char.ofNat ('a'.toNat + (n - 10))

def digits (g : Guid) : List Char :=
  (List.range 32).map fun i => hexDigit (g.bits.toNat / Nat.pow 16 (31 - i) % 16)

/-- Lower-case digits in five groups. -/
def text (g : Guid) : String :=
  let ds := g.digits
  String.ofList (ds.take 8 ++ '-' :: (ds.drop 8).take 4 ++ '-' :: (ds.drop 12).take 4 ++
    '-' :: (ds.drop 16).take 4 ++ '-' :: ds.drop 20)

def ofDigits? (cs : List Char) : Option Guid :=
  if cs.length == 32 then
    (cs.foldlM (fun n c => (hexValue? c).map (n * 16 + ·)) 0).map fun n => ⟨BitVec.ofNat 128 n⟩
  else none

/-- Reads five groups with hyphens between them. -/
def ofGroups? (cs : List Char) : Option Guid :=
  if cs.length == 36 && [8, 13, 18, 23].all (fun i => cs[i]? == some '-') then
    ofDigits? (cs.take 8 ++ (cs.drop 9).take 4 ++ (cs.drop 14).take 4 ++ (cs.drop 19).take 4 ++
      cs.drop 24)
  else none

/-- Reads any of the four forms. -/
def ofText? (s : String) : Option Guid :=
  let cs := s.toList
  if cs.length == 32 then ofDigits? cs
  else if cs.length == 38 && cs.head? == some '\x7b' && cs.getLast? == some '\x7d' then
    ofGroups? (cs.drop 1).dropLast
  else if cs.take 9 == "urn:uuid:".toList then ofGroups? (cs.drop 9)
  else ofGroups? cs

end Guid

end QueryCompiler
