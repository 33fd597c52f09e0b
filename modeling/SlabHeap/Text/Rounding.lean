/-
  Rounding to the nearest neighbour, a tie going to the even one.

  * `roundedQuotient n d` is the integer nearest to `n / d`;
  * `roundedToBits p n` is the number of at most `p` significant bits nearest to
    `n`.
-/

namespace SlabHeap

/-- The integer nearest to `n / d`; a tie goes to the even neighbour. -/
def roundedQuotient (n d : Nat) : Nat :=
  let below := n / d
  let twice := 2 * (n % d)
  if twice < d then below
  else if d < twice then below + 1
  else if below % 2 = 0 then below else below + 1

/-- The number of at most `p` significant bits nearest to `n`; a tie goes to
    the one whose last bit is clear. -/
def roundedToBits (p n : Nat) : Nat :=
  let unit := 1 <<< (n.log2 + 1 - p)
  roundedQuotient n unit * unit

end SlabHeap
