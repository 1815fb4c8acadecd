/-!
# Powers

Powers of numbers are the built-in ones, whatever other structures on the numbers are known.
-/

namespace WatchExpr

instance (priority := 1100) natPow : Pow Nat Nat := instPowNat

instance (priority := 1100) intPow : Pow Int Nat := instPowNat

end WatchExpr
