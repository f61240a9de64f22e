import Crossing.Number.Power
import Crossing.Toml.Value

/-
Scalars of TOML: strings in their four forms, integers in four bases,
floats, dates and times. Readers take the text that is left and give the
value and the text behind it.
-/
namespace Crossing.Toml

-- ======================================================== characters

def isBlank (c : Char) : Bool := c = ' ' || c = '\t'

/-- Characters of a comment or a one-line string: no control characters but
the tabulator. -/
def isPlain (c : Char) : Bool := c = '\t' || (32 ≤ c.toNat && c.toNat ≠ 127)

def isBareKey (c : Char) : Bool := c.isAlphanum || c = '_' || c = '-'

def skipBlanks (cs : List Char) : List Char := cs.dropWhile isBlank

/-- The text behind a line break. -/
def newline? : List Char → Option (List Char)
  | '\n' :: rest => some rest
  | '\r' :: '\n' :: rest => some rest
  | _ => none

/-- Skips a comment up to the end of its line. -/
def skipComment : List Char → List Char
  | '#' :: rest => rest.dropWhile isPlain
  | cs => cs

/-- The text behind the end of a line: blanks, a comment, and a line break
unless the text ends. -/
def lineEnd? (cs : List Char) : Option (List Char) :=
  match skipComment (skipBlanks cs) with
  | [] => some []
  | rest => newline? rest

def hexDigit? (c : Char) : Option Nat :=
  if c.isDigit then some (c.toNat - 48)
  else if 'a' ≤ c ∧ c ≤ 'f' then some (c.toNat - 87)
  else if 'A' ≤ c ∧ c ≤ 'F' then some (c.toNat - 55)
  else none

-- ============================================================ strings

/-- The character with a code given in base sixteen. -/
def scalar? (digits : List Char) : Option Char := do
  let n ← digits.foldlM (fun n c => (hexDigit? c).map (16 * n + ·)) 0
  if h : n.isValidChar then some (Char.ofNatAux n h) else none

/-- The character a backslash and a letter stand for. -/
def escape? : Char → Option Char
  | 'b' => some '\x08'
  | 't' => some '\t'
  | 'n' => some '\n'
  | 'f' => some '\x0c'
  | 'r' => some '\r'
  | '"' => some '"'
  | '\\' => some '\\'
  | _ => none

/-- One escape sequence after its backslash. -/
def escapeSequence? : List Char → Option (Char × List Char)
  | 'u' :: rest =>
      if 4 ≤ rest.length then (scalar? (rest.take 4)).map (·, rest.drop 4) else none
  | 'U' :: rest =>
      if 8 ≤ rest.length then (scalar? (rest.take 8)).map (·, rest.drop 8) else none
  | c :: rest => (escape? c).map (·, rest)
  | [] => none

/-- The rest of a string in double quotes; `limit` bounds its length. -/
def basic? : Nat → List Char → Option (List Char × List Char)
  | 0, _ => none
  | limit + 1, cs =>
      match cs with
      | '"' :: rest => some ([], rest)
      | '\\' :: rest => do
          let (c, rest) ← escapeSequence? rest
          let (s, rest) ← basic? limit rest
          return (c :: s, rest)
      | c :: rest => do
          if !isPlain c then none
          let (s, rest) ← basic? limit rest
          return (c :: s, rest)
      | [] => none

/-- The rest of a string in single quotes, in which nothing is escaped. -/
def literal? : List Char → Option (List Char × List Char)
  | '\'' :: rest => some ([], rest)
  | c :: rest => do
      if !isPlain c then none
      let (s, rest) ← literal? rest
      return (c :: s, rest)
  | [] => none

/-- Blanks and line breaks. -/
def skipSpace : List Char → List Char
  | '\r' :: '\n' :: rest => skipSpace rest
  | c :: rest => if isBlank c || c = '\n' then skipSpace rest else c :: rest
  | [] => []

/-- The rest of a string over several lines, in double quotes if `escapes`,
else in single ones. Up to two quotes may stand before the closing three;
`limit` bounds its length. -/
def multiline? (quote : Char) (escapes : Bool) : Nat → List Char → Option (List Char × List Char)
  | 0, _ => none
  | limit + 1, cs =>
      let quotes := (cs.takeWhile (· = quote)).length
      if 3 ≤ quotes then
        if quotes ≤ 5 then some (List.replicate (quotes - 3) quote, cs.drop quotes) else none
      else
        match cs with
        | [] => none
        | '\\' :: rest =>
            if !escapes then (multiline? quote escapes limit rest).map fun (s, r) => ('\\' :: s, r)
            else
              match newline? (skipBlanks rest) with
              | some rest => multiline? quote escapes limit (skipSpace rest)
              | none => do
                  let (c, rest) ← escapeSequence? rest
                  let (s, rest) ← multiline? quote escapes limit rest
                  return (c :: s, rest)
        | c :: rest =>
            match newline? cs with
            | some rest => (multiline? quote escapes limit rest).map fun (s, r) => ('\n' :: s, r)
            | none => do
                if !isPlain c then none
                let (s, rest) ← multiline? quote escapes limit rest
                return (c :: s, rest)

/-- A string of any form. A line break right after three opening quotes does
not count. -/
def string? (cs : List Char) : Option (String × List Char) :=
  let long (quote : Char) (escapes : Bool) (rest : List Char) :=
    multiline? quote escapes (cs.length + 1) ((newline? rest).getD rest)
  let result := match cs with
    | '"' :: '"' :: '"' :: rest => long '"' true rest
    | '\'' :: '\'' :: '\'' :: rest => long '\'' false rest
    | '"' :: rest => basic? (cs.length + 1) rest
    | '\'' :: rest => literal? rest
    | _ => none
  result.map fun (s, rest) => (String.ofList s, rest)

-- ============================================================ numbers

/-- The value of digits in a base, single underscores between them allowed. -/
def digits? (base : Nat) (cs : List Char) : Option Nat :=
  let rec go (n : Nat) (afterDigit : Bool) : List Char → Option Nat
    | [] => if afterDigit then some n else none
    | '_' :: rest => if afterDigit then go n false rest else none
    | c :: rest => do
        let d ← hexDigit? c
        if d < base then go (base * n + d) true rest else none
  go 0 false cs

/-- A decimal number without leading zeros. -/
def decimal? : List Char → Option Nat
  | ['0'] => some 0
  | '0' :: _ => none
  | cs => digits? 10 cs

/-- Splits off a sign; true is minus. -/
def signed : List Char → Bool × List Char
  | '+' :: rest => (false, rest)
  | '-' :: rest => (true, rest)
  | cs => (false, cs)

/-- An integer of 64 bits. -/
def integer? (cs : List Char) : Option Int := do
  let n : Int ← match cs with
    | '0' :: 'x' :: rest => (digits? 16 rest).map Int.ofNat
    | '0' :: 'o' :: rest => (digits? 8 rest).map Int.ofNat
    | '0' :: 'b' :: rest => (digits? 2 rest).map Int.ofNat
    | cs =>
        let (minus, rest) := signed cs
        (decimal? rest).map fun n => if minus then -(n : Int) else n
  if -2 ^ 63 ≤ n ∧ n < 2 ^ 63 then some n else none

/-- Whether `m` times a power of ten rounds to a number beyond all doubles. -/
def isHuge (m : Nat) (e : Int) : Bool :=
  let limit := 2 ^ 1024 - 2 ^ 970
  if m = 0 then false
  else if 400 < e then true
  else if e < -(400 + 4 * (m.log2 : Int)) then false
  else if 0 ≤ e then limit ≤ m * 10 ^ e.toNat
  else limit * 10 ^ (-e).toNat ≤ m

/-- Whether a text is a float: with a fraction, an exponent or both, or one
of the special values. A positive one must not be too large for a double. -/
def isFloat (cs : List Char) : Bool :=
  let (minus, body) := signed cs
  if body = ['i', 'n', 'f'] || body = ['n', 'a', 'n'] then true
  else
    let isE (c : Char) : Bool := c = 'e' || c = 'E'
    let mantissa := body.takeWhile (!isE ·)
    let power := (body.dropWhile (!isE ·)).drop 1
    let whole := mantissa.takeWhile (· ≠ '.')
    let fraction := (mantissa.dropWhile (· ≠ '.')).drop 1
    let hasPoint := mantissa.contains '.'
    let hasE := body.any isE
    let (down, magnitude) := signed power
    match decimal? whole, digits? 10 fraction, digits? 10 magnitude with
    | some w, f, p =>
        (hasPoint || hasE) && (f.isSome || !hasPoint) && (p.isSome || !hasE)
          && (minus || !isHuge (w * 10 ^ (fraction.filter Char.isDigit).length + f.getD 0)
            ((if down then -(p.getD 0 : Int) else p.getD 0)
              - (fraction.filter Char.isDigit).length))
    | _, _, _ => false

-- ====================================================== dates and times

/-- The value of exactly so many digits. -/
def fixed? (count : Nat) (cs : List Char) : Option (Nat × List Char) :=
  let ds := cs.take count
  if ds.length = count && ds.all Char.isDigit then (digits? 10 ds).map (·, cs.drop count) else none

def daysIn (year month : Nat) : Nat :=
  if month = 2 then
    if year % 4 = 0 && (year % 100 ≠ 0 || year % 400 = 0) then 29 else 28
  else if month = 4 || month = 6 || month = 9 || month = 11 then 30
  else 31

/-- Year, month and day. -/
def date? (cs : List Char) : Option (List Char) := do
  let (year, cs) ← fixed? 4 cs
  let '-' :: cs := cs | none
  let (month, cs) ← fixed? 2 cs
  let '-' :: cs := cs | none
  let (day, cs) ← fixed? 2 cs
  if 1 ≤ month ∧ month ≤ 12 ∧ 1 ≤ day ∧ day ≤ daysIn year month then some cs else none

/-- Hour, minute and second, with or without a fraction. -/
def time? (cs : List Char) : Option (List Char) := do
  let (hour, cs) ← fixed? 2 cs
  let ':' :: cs := cs | none
  let (minute, cs) ← fixed? 2 cs
  let ':' :: cs := cs | none
  let (second, cs) ← fixed? 2 cs
  if hour ≤ 23 ∧ minute ≤ 59 ∧ second ≤ 60 then
    match cs with
    | '.' :: d :: rest => if d.isDigit then some (rest.dropWhile Char.isDigit) else none
    | cs => some cs
  else none

/-- Whether a text is an offset from universal time, or nothing. -/
def isZone : List Char → Bool
  | [] | ['Z'] | ['z'] => true
  | c :: cs =>
      (c = '+' || c = '-') && (do
        let (hour, cs) ← fixed? 2 cs
        let ':' :: cs := cs | none
        let (minute, cs) ← fixed? 2 cs
        some (hour ≤ 23 && minute ≤ 59 && cs.isEmpty)).getD false

def isTimeWithZone (cs : List Char) : Bool := (time? cs).any isZone

/-- Whether a text is a date, a time, or both joined by a letter. -/
def isMoment (cs : List Char) : Bool :=
  (time? cs).any List.isEmpty
    || (date? cs).any fun
      | [] => true
      | c :: rest => (c = 'T' || c = 't') && isTimeWithZone rest

/-- Characters that scalars other than strings are made of. -/
def isWordChar (c : Char) : Bool := isBareKey c || c = '+' || c = '.' || c = ':'

/-- A scalar other than a string. A date may be joined to a time by one
blank. -/
def word? (cs : List Char) : Option (Toml × List Char) :=
  let w := cs.takeWhile isWordChar
  let rest := cs.dropWhile isWordChar
  if w = "true".toList then some (.boolean true, rest)
  else if w = "false".toList then some (.boolean false, rest)
  else if isMoment w then
    match rest with
    | ' ' :: more =>
        let t := more.takeWhile isWordChar
        if (date? w).any List.isEmpty && isTimeWithZone t then
          some (.moment (String.ofList (w ++ ' ' :: t)), more.dropWhile isWordChar)
        else some (.moment (String.ofList w), rest)
    | _ => some (.moment (String.ofList w), rest)
  else
    match integer? w with
    | some n => some (.integer n, rest)
    | none => if isFloat w then some (.float (String.ofList w), rest) else none

end Crossing.Toml
