/-
  Sizes in bytes as a person reads them: `512B`, `4.0K`, `1.5M`, `2.0G`.

  A size is first rounded to the 53 significant bits of a double.  The unit is
  the largest of `K`, `M` and `G` that the size reaches, and the size is written
  in it with one decimal, a tie going to the even digit.  Below `1024` it is
  written as it is.
-/
import SlabHeap.Text.Rounding

namespace SlabHeap

/-- `tenthsText n d` is the quotient `n / d` with one decimal. -/
def tenthsText (n d : Nat) : String :=
  let tenths := roundedQuotient (10 * n) d
  toString (tenths / 10) ++ "." ++ toString (tenths % 10)

/-- The text of a size in bytes. -/
def sizeText (size : Nat) : String :=
  let rounded := roundedToBits 53 size
  if rounded < 1024 then toString size ++ "B"
  else if rounded < 1 <<< 20 then tenthsText rounded 1024 ++ "K"
  else if rounded < 1 <<< 30 then tenthsText rounded (1 <<< 20) ++ "M"
  else tenthsText rounded (1 <<< 30) ++ "G"

end SlabHeap
