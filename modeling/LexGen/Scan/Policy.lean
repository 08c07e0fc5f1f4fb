/-!
# What follows the longest match

A fragment may go on after its longest match. The policy says what becomes of the characters that
are left over.
-/

namespace LexGen

inductive TrailingPolicy where
  /-- Keep the match and leave out the rest of the fragment. -/
  | drop
  /-- Go on matching where the match has ended. -/
  | rescan
  /-- Refuse the whole fragment. -/
  | reject
  deriving DecidableEq, Repr

namespace TrailingPolicy

/-- The policy of a name, in capital or small letters. Other characters than the ASCII letters
have no part in a name, so only these are compared without regard to case. -/
def ofName? (name : String) : Option TrailingPolicy :=
  match name.toLower with
  | "drop" => some drop
  | "rescan" => some rescan
  | "reject" => some reject
  | _ => none

/-- What is said about a name that no policy has. -/
def unknownMessage (name : String) : String :=
  "Unknown trailing input policy: " ++ name ++ ". Supported: drop, rescan, reject"

/-- The name under which the policy is stored. -/
def name : TrailingPolicy → String
  | drop => "Drop"
  | rescan => "Rescan"
  | reject => "Reject"

end TrailingPolicy

end LexGen
