import R8000Plus.Vendor.Forwarding
import R8000Plus.Vendor.Refinement

/-!
The forwarding of packets by a chip whose tables the vendor driver filled through
its registers.
-/

namespace R8000Plus.Vendor

open Effects Fa

end R8000Plus.Vendor
