import Prd.Pycprd.LineNumbers

/-!
# Lines without an effect

The file of a trace has other lines between the records. A line whose key is not known is
skipped, and so is the line of an epoch that stays the same. The number in the second field
is taken for a thread id, though, before the key is looked at, and the fields around it are
read.
-/
namespace Prd.Pycprd

open Prd.Foundation PyStr

namespace TraceParser

section Keys

variable {tid lineNumber : ℕ} {eventId : Option ℤ} {args fields : List PyStr} {key : PyStr}

end Keys

section Skipping

variable {allowKeys : Option (List PyStr)} {line tid key : PyStr} {argsIndex : ℕ}

end Skipping

end TraceParser

end Prd.Pycprd
