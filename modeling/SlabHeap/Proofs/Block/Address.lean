/-
  Addresses and the blocks they lie in.

  Rounding down by a mask is rounding down by division (`Word.toNat_alignDown`), so an
  address splits into the start of its block and an offset below `blockBytes`
  (`toNat_baseOf`, `offsetOf_eq`).  The addresses of one block are the sums of
  its start and an offset, and no sum of these wraps around (`toNat_plus`).
-/
import SlabHeap.Proofs.Word.Alignment
import SlabHeap.Block.Basic

namespace SlabHeap

namespace Block

/-- A block starts at an address. -/
def StartsAt (base : Word) : Prop := base.toNat % blockBytes = 0

theorem toNat_baseOf (a : Word) : (baseOf a).toNat = a.toNat - a.toNat % blockBytes := by
  rw [baseOf, Word.toNat_alignDown a ⟨12, rfl⟩, Nat.div_mul_self_eq_mod_sub_self]
  rfl

theorem offsetOf_eq (a : Word) : offsetOf a = a.toNat % blockBytes := by
  have h : baseOf a ≤ a := by rw [UInt64.le_iff_toNat_le, toNat_baseOf]; omega
  rw [offsetOf, UInt64.toNat_sub_of_le _ _ h, toNat_baseOf]
  simp only [blockBytes]; omega

variable {base : Word} {n : Nat}

theorem toNat_plus (hb : StartsAt base) (hn : n < blockBytes) :
    (Word.plus base n).toNat = base.toNat + n := by
  have := base.toNat_lt
  simp only [StartsAt, blockBytes] at hb hn
  rw [Word.plus, UInt64.toNat_add, UInt64.toNat_ofNat', Nat.mod_eq_of_lt (a := n) (by omega),
    Nat.mod_eq_of_lt (by omega)]

theorem baseOf_plus (hb : StartsAt base) (hn : n < blockBytes) :
    baseOf (Word.plus base n) = base := by
  rw [← UInt64.toNat_inj, toNat_baseOf, toNat_plus hb hn]
  simp only [StartsAt, blockBytes] at hb hn ⊢; omega

theorem offsetOf_plus (hb : StartsAt base) (hn : n < blockBytes) :
    offsetOf (Word.plus base n) = n := by
  rw [offsetOf_eq, toNat_plus hb hn]
  simp only [StartsAt, blockBytes] at hb hn ⊢; omega

theorem plus_plus (a : Word) (m n : Nat) : Word.plus (Word.plus a m) n = Word.plus a (m + n) := by
  rw [Word.plus, Word.plus, Word.plus, UInt64.ofNat_add, UInt64.add_assoc]

end Block

end SlabHeap
