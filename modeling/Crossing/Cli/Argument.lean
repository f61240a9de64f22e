/-
Command-line arguments. A command has options, each with a value or
without, and a fixed number of operands. Options are given at most once and
in any order; `--` ends them; a lone dash is an operand like any other.
-/
namespace Crossing.Cli

/-- An option by its long name, and by a letter if it has one. -/
structure OptionSpec where
  name : String
  letter : Option Char := none
  takesValue : Bool := false
deriving DecidableEq, Repr

/-- Arguments sorted out: options with their values (a switch has the empty
value) and operands in order. -/
structure Arguments where
  options : List (String × String) := []
  operands : List String := []
deriving DecidableEq, Repr

namespace Arguments

def has (a : Arguments) (name : String) : Bool := a.options.any (·.1 = name)

def value? (a : Arguments) (name : String) : Option String := a.options.lookup name

/-- Takes in an option that was not given yet. -/
def addOption (a : Arguments) (name value : String) : Option Arguments :=
  if a.has name then none else some { a with options := a.options ++ [(name, value)] }

def addOperand (a : Arguments) (s : String) : Arguments := { a with operands := a.operands ++ [s] }

end Arguments

/-- What an argument looks like. -/
inductive Shape where
  | terminator
  | long (name : String) (value : Option String)
  | letters (cs : List Char)
  | operand
deriving DecidableEq, Repr

def shape (arg : String) : Shape :=
  match arg.toList with
  | ['-', '-'] => .terminator
  | '-' :: '-' :: rest =>
      let name := rest.takeWhile (· ≠ '=')
      let value := match rest.dropWhile (· ≠ '=') with
        | _ :: v => some (String.ofList v)
        | [] => none
      .long (String.ofList name) value
  | '-' :: c :: rest => .letters (c :: rest)
  | _ => .operand

/-- Switches given by their letters. -/
def addLetters (specs : List OptionSpec) (a : Arguments) : List Char → Option Arguments
  | [] => some a
  | c :: cs => do
      let spec ← specs.find? (·.letter = some c)
      if spec.takesValue then none
      addLetters specs (← a.addOption spec.name "") cs

/-- Sorts arguments out, or refuses them. With `stop`, the first operand ends
the reading and is left over with all that follows. -/
def sortArguments (specs : List OptionSpec) (stop : Bool) (a : Arguments) :
    List String → Option (Arguments × List String)
  | [] => some (a, [])
  | arg :: rest =>
      match shape arg with
      | .terminator => if stop then none else some (rest.foldl Arguments.addOperand a, [])
      | .operand =>
          if stop then some (a, arg :: rest) else sortArguments specs stop (a.addOperand arg) rest
      | .letters cs => do sortArguments specs stop (← addLetters specs a cs) rest
      | .long name attached => do
          let spec ← specs.find? (·.name = name)
          if spec.takesValue then
            match attached with
            | some v => sortArguments specs stop (← a.addOption name v) rest
            | none =>
                match rest with
                | [] => none
                | v :: rest => do
                    if shape v ≠ .operand then none
                    sortArguments specs stop (← a.addOption name v) rest
          else
            match attached with
            | some _ => none
            | none => sortArguments specs stop (← a.addOption name "") rest

end Crossing.Cli
