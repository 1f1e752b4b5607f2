/-!
# Arguments of unchecked kind

Some entry points take an argument whose kind they check themselves: an integer, a text, or a
value of another kind, which is known only by the name of its kind and by how it is shown. The
checks and their messages belong to the entry point; `Arg` only carries what they need.
-/

namespace FiniteRings

/-- An argument before its kind is checked. -/
inductive Arg where
  | int (n : Int)
  | text (s : String)
  | other (kind : String) (shown : String)
  deriving Repr, DecidableEq, Inhabited

namespace Arg

/-- The name of the argument's kind. -/
def kindName : Arg → String
  | int _ => "int"
  | text _ => "str"
  | other k _ => k

/-- How the argument is shown in a message. -/
def shown : Arg → String
  | int n => toString n
  | text s => s
  | other _ s => s

end Arg

end FiniteRings
