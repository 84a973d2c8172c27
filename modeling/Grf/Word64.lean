/-! # Numbers of 64 bits

Constants of declarations are signed numbers of 64 bits. Sums and negations of them wrap around.
-/

namespace Grf

def wrap64 (v : Int) : Int := v.bmod 0x10000000000000000

end Grf
