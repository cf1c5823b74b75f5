/-!
# Ranges of code points

A property of characters is given by the closed intervals of code points that have it. The tables of
this folder are lists of such intervals, and one membership test serves them all.

Ranges are compared with the number of a character, so membership in one of them is two comparisons
of natural numbers. Tables are searched from the front, and no test is made often enough to need
anything cleverer. `CodeRange` does not demand that a range be nonempty or that the ranges of a
table be disjoint and in order: a table is the union of its ranges, whatever they are.
-/

namespace Interleave.Text

/-- The code points from `first` to `last`, both included. -/
structure CodeRange where
  /-- The least code point of the range. -/
  first : Nat
  /-- The greatest code point of the range. -/
  last : Nat

def CodeRange.contains (r : CodeRange) (c : Char) : Bool :=
  decide (r.first ≤ c.toNat) && decide (c.toNat ≤ r.last)

theorem CodeRange.contains_iff {r : CodeRange} {c : Char} :
    r.contains c = true ↔ r.first ≤ c.toNat ∧ c.toNat ≤ r.last := by
  simp [contains]

/-- Whether a character lies in one of the ranges of a table. -/
def inRanges (table : List CodeRange) (c : Char) : Bool :=
  table.any (·.contains c)

theorem inRanges_iff {table : List CodeRange} {c : Char} :
    inRanges table c = true ↔ ∃ r ∈ table, r.first ≤ c.toNat ∧ c.toNat ≤ r.last := by
  simp [inRanges, CodeRange.contains_iff]

end Interleave.Text
