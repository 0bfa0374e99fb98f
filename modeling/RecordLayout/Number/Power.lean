/-!
# Powers

A power of a number is the one that the core library computes.  Mathlib adds the powers of a monoid,
which are equal but another term; with the higher priorities here a definition means the same
whatever a module imports beside it.
-/

namespace RecordLayout

@[default_instance 10100]
instance (priority := 1100) corePow {α : Type} [NatPow α] : Pow α Nat := instPowNat

end RecordLayout
