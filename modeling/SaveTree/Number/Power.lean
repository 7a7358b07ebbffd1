/-
  Powers.

  A power of a number is that of the core library, also where another structure on the numbers
  brings powers of its own.
-/

attribute [instance (1100), default_instance (20000)] instPowNat
