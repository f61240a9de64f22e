/-
Method signatures in their short form: one character for the result,
followed by one for each parameter.
-/
namespace Crossing

/-- The type of a value, as far as calling conventions care. -/
inductive ValueType where
  | boolean
  | byte
  | char
  | short
  | int
  | long
  | float
  | double
  | reference
deriving DecidableEq, Repr

namespace ValueType

def letter : ValueType → Char
  | boolean => 'Z'
  | byte => 'B'
  | char => 'C'
  | short => 'S'
  | int => 'I'
  | long => 'J'
  | float => 'F'
  | double => 'D'
  | reference => 'L'

def ofLetter? : Char → Option ValueType
  | 'Z' => some boolean
  | 'B' => some byte
  | 'C' => some char
  | 'S' => some short
  | 'I' => some int
  | 'J' => some long
  | 'F' => some float
  | 'D' => some double
  | 'L' => some reference
  | _ => none

def isFloating : ValueType → Bool
  | float | double => true
  | _ => false

/-- Bytes of a value in managed code, where references are 32 bits wide. -/
def managedSize : ValueType → Nat
  | long | double => 8
  | _ => 4

/-- Bytes of a value in native code, where references are pointers. -/
def nativeSize : ValueType → Nat
  | long | double | reference => 8
  | _ => 4

end ValueType

/-- A signature: the result, if there is one, and the parameters. -/
structure Shorty where
  result : Option ValueType
  params : List ValueType
deriving DecidableEq, Repr

/-- Why a text is no signature. -/
inductive ShortyError where
  | empty
  | invalidChar (c : Char)
  | voidParameter
deriving DecidableEq, Repr

def ShortyError.message : ShortyError → String
  | empty => "empty shorty"
  | invalidChar c => s!"invalid type character '{c}' in shorty"
  | voidParameter => "void is only valid as a return type"

namespace Shorty

def param (c : Char) : Except ShortyError ValueType :=
  if c = 'V' then .error .voidParameter
  else match ValueType.ofLetter? c with
    | some t => .ok t
    | none => .error (.invalidChar c)

def resultType (c : Char) : Except ShortyError (Option ValueType) :=
  if c = 'V' then .ok none
  else match ValueType.ofLetter? c with
    | some t => .ok (some t)
    | none => .error (.invalidChar c)

def ofChars : List Char → Except ShortyError Shorty
  | [] => .error .empty
  | c :: cs => do
      let result ← resultType c
      let params ← cs.mapM param
      return ⟨result, params⟩

/-- Reads a signature. Only the result may be void. -/
def parse (s : String) : Except ShortyError Shorty := ofChars s.toList

/-- Whether a reference is passed in either direction. -/
def hasReferences (s : Shorty) : Bool :=
  s.result == some .reference || s.params.contains .reference

/-- Bytes of the result in native code. -/
def nativeResultSize (s : Shorty) : Nat :=
  match s.result with
  | some t => t.nativeSize
  | none => 0

/-- Bytes of the result in managed code. -/
def managedResultSize (s : Shorty) : Nat :=
  match s.result with
  | some t => t.managedSize
  | none => 0

/-- Types of the arguments, the receiver of an instance method first. -/
def arguments (s : Shorty) (isStatic : Bool) : List ValueType :=
  if isStatic then s.params else .reference :: s.params

end Shorty

end Crossing
