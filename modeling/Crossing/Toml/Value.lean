/-
The values of a TOML document. Tables remember how they came about, because
that decides who may still add to them.
-/
namespace Crossing

/-- How a table came about. -/
inductive TableOrigin where
  /-- By a header of its own. -/
  | explicit
  /-- On the way to a deeper header. -/
  | implicit
  /-- By a dotted key. -/
  | dotted
deriving DecidableEq, Repr

inductive Toml where
  | text (s : String)
  | integer (n : Int)
  | float (literal : String)
  | boolean (b : Bool)
  /-- A date, a time, or both. -/
  | moment (literal : String)
  | array (items : List Toml)
  /-- A table in braces, which nothing can be added to. -/
  | braced (entries : List (String × Toml))
  | table (origin : TableOrigin) (entries : List (String × Toml))
  /-- The tables under a doubled header, in order. -/
  | tables (items : List (List (String × Toml)))
deriving Inhabited

namespace Toml

/-- The keys of a table and what is under them. -/
abbrev Entries := List (String × Toml)

/-- The entries of anything that is a table. -/
def entries? : Toml → Option Entries
  | braced entries | table _ entries => some entries
  | _ => none

/-- Whether a value holds nothing. -/
def isEmptyGroup : Toml → Bool
  | braced entries | table _ entries => entries.isEmpty
  | array items => items.isEmpty
  | tables items => items.isEmpty
  | _ => false

end Toml

end Crossing
