/-!
# Random numbers

Random numbers are drawn from sequences, of which every seed has one of its own. So the same seed
starts the same sequence again. Which numbers a sequence has is up to the host.
-/

set_option autoImplicit false

namespace LineBasic

structure Dice where
  seed : UInt64 := 0
  /-- Numbers drawn since the seed was set. -/
  count : Nat := 0
  /-- The number drawn last. -/
  last : Float := 0

namespace Dice

def draw (d : Dice) (random : UInt64 → Nat → Float) : Dice :=
  { d with count := d.count + 1, last := random d.seed d.count }

def seeded (d : Dice) (seed : UInt64) : Dice := { d with seed, count := 0 }

end Dice

end LineBasic
