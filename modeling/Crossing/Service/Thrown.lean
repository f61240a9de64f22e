/-
Exceptions that the services of the runtime raise instead of answering.
-/
namespace Crossing

/-- An exception raised by a service. -/
inductive Thrown where
  | nullPointer (faultAddress : Nat)
  | stackOverflow
  | arithmetic
  | classCast
  /-- The exception that compiled code delivers; zero is none. -/
  | pending (exception : Nat)
deriving DecidableEq, Repr

namespace Thrown

def name : Thrown → String
  | nullPointer _ => "NullPointer"
  | stackOverflow => "StackOverflow"
  | arithmetic => "Arithmetic"
  | classCast => "ClassCast"
  | pending _ => "Pending"

end Thrown

end Crossing
