import Crossing.Text.Digits
import Crossing.Violation

/-
Reports: what tools are shown about the values of this library, as records,
lists and plain values. `Reportable` is the one way a value becomes a
report; `Report.pretty` writes a report down as JSON, two spaces a level.
-/
namespace Crossing

inductive Report where
  | null
  | flag (b : Bool)
  | number (n : Int)
  | text (s : String)
  | list (items : List Report)
  | record (fields : List (String × Report))

/-- Values that can be reported. -/
class Reportable (α : Type) where
  report : α → Report

export Reportable (report)

-- ============================================================= values

namespace Report

/-- An address or a machine word. -/
def word (n : Nat) : Report := .text (Text.hexWord n)

def bytes (l : List UInt8) : Report := .text (Text.hexBytes l)

/-- Something that went wrong. -/
def error (kind message : String) : Report :=
  .record [("error", .text kind), ("message", .text message)]

/-- The report with a further field, if it is a record. -/
def with_ (r : Report) (key : String) (value : Report) : Report :=
  match r with
  | .record fields => .record (fields ++ [(key, value)])
  | r => r

end Report

instance : Reportable Report := ⟨id⟩
instance : Reportable Unit := ⟨fun _ => .null⟩
instance : Reportable Bool := ⟨.flag⟩
instance : Reportable Nat := ⟨fun n => .number n⟩
instance : Reportable Int := ⟨.number⟩
instance : Reportable UInt32 := ⟨fun n => .number n.toNat⟩
instance : Reportable String := ⟨.text⟩
instance : Reportable Isa := ⟨fun isa => .text isa.name⟩
instance : Reportable Register := ⟨fun r => .number r.id⟩
instance {b : OffsetBase} : Reportable (Offset b) := ⟨fun o => .number o.value⟩

/-- A refusal is reported in place of the value that was asked for. -/
instance : Reportable Violation := ⟨fun v => .error "panic" v.message⟩

instance {α : Type} [Reportable α] : Reportable (List α) := ⟨fun l => .list (l.map report)⟩

instance {α : Type} [Reportable α] : Reportable (Option α) :=
  ⟨fun
    | some a => report a
    | none => .null⟩

instance {ε α : Type} [Reportable ε] [Reportable α] : Reportable (Except ε α) :=
  ⟨fun
    | .ok a => report a
    | .error e => report e⟩

-- ============================================================ writing

namespace Report

/-- A character inside a quoted text. -/
def escaped (c : Char) : String :=
  if c = '"' then "\\\""
  else if c = '\\' then "\\\\"
  else if c = '\n' then "\\n"
  else if c = '\r' then "\\r"
  else if c = '\t' then "\\t"
  else if c.toNat = 8 then "\\b"
  else if c.toNat = 12 then "\\f"
  else if c.toNat < 32 then "\\u" ++ Text.hexDigits 4 c.toNat
  else String.singleton c

def quoted (s : String) : String := "\"" ++ String.join (s.toList.map escaped) ++ "\""

/-- The start of a line at a level. -/
def margin (level : Nat) : String := "\n" ++ String.ofList (List.replicate (2 * level) ' ')

mutual

/-- A report as JSON, its inner lines at a level. -/
def prettyAt (level : Nat) : Report → String
  | .null => "null"
  | .flag b => if b then "true" else "false"
  | .number n => toString n
  | .text s => quoted s
  | .list [] => "[]"
  | .list items => "[" ++ prettyItems level items ++ margin level ++ "]"
  | .record [] => "\x7b\x7d"
  | .record fields => "\x7b" ++ prettyFields level fields ++ margin level ++ "\x7d"

def prettyItems (level : Nat) : List Report → String
  | [] => ""
  | [item] => margin (level + 1) ++ prettyAt (level + 1) item
  | item :: items => margin (level + 1) ++ prettyAt (level + 1) item ++ "," ++ prettyItems level items

def prettyFields (level : Nat) : List (String × Report) → String
  | [] => ""
  | [(key, value)] => margin (level + 1) ++ quoted key ++ ": " ++ prettyAt (level + 1) value
  | (key, value) :: fields =>
      margin (level + 1) ++ quoted key ++ ": " ++ prettyAt (level + 1) value ++ ","
        ++ prettyFields level fields

end

/-- A report as JSON. -/
def pretty (r : Report) : String := r.prettyAt 0

end Report

end Crossing
