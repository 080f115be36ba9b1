import LeafageEvm.BlockIndexSave
import LeafageEvm.SstSink
import Mathlib.Data.List.Destutter

/-! The copy of the block infos into CF 7, which has one record a number. Headers that the index may hold are
copied and counted against its blocks. The copy is complete if no header of a fork is among them. -/

namespace LeafageEvm

open List (Perm destutter)
open OrderedMap (get_eq_some)
open IndexSystem (fifthHash)

variable {sort : List InfoRow → List InfoRow} {full : List InfoRow → Bool} {rows : List InfoRow}

namespace BlockIndex

variable (index : BlockIndex)

/-- Whether block `number` may be `hash`. -/
def contains (hash : H256) (number : U64) : Bool :=
  (index.candidates hash).any fun numbers => numbers.any fun n => n.toU64 = number

def len : Nat := ((List.finRange 256).map fun s => (index.shards s).numbers.length).sum + index.recent.new.entries.length

end BlockIndex

namespace BlockIndex

end BlockIndex
end LeafageEvm
