/-!
# Powers with a natural exponent

Wherever the operator `^` stands between numbers, it is the power of the core library. Without this it
would depend on the imports of a module.
-/

namespace Reckoner

attribute [scoped instance (high)] instPowNat

attribute [default_instance high] instPowNat

end Reckoner
