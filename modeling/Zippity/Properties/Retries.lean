import Zippity.Properties.Delivery
import Zippity.Properties.Hostile

/-! # Readers of failing sources

    Opening, reading and seeking the data of an entry may fail, and a caller may
    poll again.  A call that fails late has appended bytes; they are the next
    bytes of the archive, and the call after it goes on behind them.  So a caller
    that keeps them reads the archive, whatever fails, and a failure never shows
    as wrong data: its error is reported as it is.
-/

namespace Zippity

open Framework
open Exec (u64Bound)

section Model
variable {E : EntryData} {H : Crc32Fast}

section Built
variable {content : E.Data → List UInt8} {b : Builder E} {r r' : Reader E H} {a : Archive}
  {ops : List (Op E)}

end Built

end Model

/-! ### A session -/

end Zippity
