/-!
# Sets of characters given by ranges of code points

A property of the Unicode character database is a set of code points, and the database lists it
as closed ranges. `Ranges` is that list, and `Ranges.has` is membership.
-/

namespace LexGen.Text

/-- Closed ranges of code points, each given by its first and its last member. -/
abbrev Ranges := List (Nat × Nat)

/-- Some range holds the code point of `c`. -/
def Ranges.has (ranges : Ranges) (c : Char) : Bool :=
  ranges.any fun range => decide (range.1 ≤ c.toNat) && decide (c.toNat ≤ range.2)

end LexGen.Text
