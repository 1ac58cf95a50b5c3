import Prd.Pycprd.ForeignLines
import Prd.Runtime.ThreadLines

/-!
# Lines that are no records

The file of a trace also receives what the traced program writes. A record is a line in a
format of the runtime with values that the runtime can have. The other lines leave no trace in
the parser exactly when they are harmless, and the check of the parser is not the format of the
runtime: it refuses some of these lines and takes others for events.
-/
namespace Prd.Runtime

open Prd.Pycprd PyStr

section Skipping

end Skipping

section Digits

end Digits

end Prd.Runtime
