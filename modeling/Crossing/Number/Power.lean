/-
Powers of whole numbers. Formats, displacements and address ranges are all
bounded by powers of two, and a bound is to mean one thing whatever algebra
is in scope: `b ^ n` on `Nat` is repeated multiplication, as the core
library defines it.
-/
attribute [instance (high), default_instance (high)] instPowNat
