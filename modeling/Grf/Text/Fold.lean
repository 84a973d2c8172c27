/-! # Comparing words without case

Two words are the same without case if their letters are. Outside of the Latin letters only two
characters fold to one: the long s to `s` and the sign of the kelvin to `k`. The words of this program
are all Latin, so no other characters have to be folded.
-/

namespace Grf.Text

def foldCase (c : Char) : Char :=
  if c.toNat = 0x17F then 's' else if c.toNat = 0x212A then 'k' else c.toLower

def equalFold (a b : String) : Bool := a.toList.map foldCase == b.toList.map foldCase

end Grf.Text
