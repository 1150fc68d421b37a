import StyleLift.Disk.Access

/-!
# Snapshots

A disk can be filled entry by entry, and what a run did to it is read off by comparing it with
the disk before.  This is all that is needed to work on files that live elsewhere: load them, run,
and carry the changes out.
-/

namespace StyleLift.Disk

/-- The place that a path names when it is read from `base`, with `.` and `..` taken out by name
alone. -/
def resolve (base : Location) (p : Path) : Location :=
  (Text.pieces '/' p.text).foldl (fun place part =>
    if part.isEmpty || part = ['.'] then place
    else if part = ['.', '.'] then place.dropLast
    else place ++ [part]) (if p.isAbsolute then [] else base)

/-- Makes the directories above a place as far as nothing is there. -/
def makeAbove (disk : Disk) (place : Location) : Disk :=
  (List.range place.length).foldl (fun disk n =>
    if (disk.node? (place.take n)).isSome then disk else disk.put (place.take n) .directory) disk

/-- Takes away what is at a place and below it. -/
def remove (disk : Disk) (place : Location) : Disk :=
  { disk with nodes := disk.nodes.filter fun (p, _) => !place.isPrefixOf p }

/-- Puts a file or directory at a place with the directories above it.  A directory leaves what
is there alone; a file takes its place, also that of a directory with all that is in it. -/
def plant (disk : Disk) (place : Location) (node : Node) : Disk :=
  let disk := disk.makeAbove place
  match node with
  | .directory => if (disk.node? place).isSome then disk else disk.put place .directory
  | .file content => (disk.remove place).put place (.file content)

/-- The entries of a disk that were not there before, or not with that content. -/
def changes (before after : Disk) : List (Location × Node) :=
  after.nodes.filter fun (place, node) => decide (before.node? place ≠ some node)

end StyleLift.Disk
