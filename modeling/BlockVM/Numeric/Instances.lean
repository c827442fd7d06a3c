/-!
# Instances for numbers

Powers and zeros of numbers are those of the core library wherever they are written: a bound such as
`2 ^ 63` is the same expression beside the executable definitions, which know no other instance, and
in the theory, where algebraic structures offer their own.
-/

attribute [instance (2000), default_instance (20000)] instPowNat

attribute [instance (2000)] Zero.ofOfNat0
