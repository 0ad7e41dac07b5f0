import WebKit.Platform.Decimal

/-!
# 128-bit products

The product is exact, and the division by a 32-bit number rounds down.
-/

namespace WebKit.Platform

open UInt128 Nat

def UInt128.toNat (x : UInt128) : ℕ := x.low.toNat + x.high.toNat * 2 ^ 64

end WebKit.Platform
