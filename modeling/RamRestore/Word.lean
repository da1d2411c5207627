/-! # Words

How many values the words of a machine can take.
-/

namespace RamRestore

abbrev word32Count : Nat := 0x100000000

abbrev word64Count : Nat := 0x10000000000000000

end RamRestore
