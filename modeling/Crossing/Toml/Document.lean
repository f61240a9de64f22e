import Crossing.Toml.Scalar

/-
TOML documents: keys, values, headers, and how the parts of a document come
together in one table. A key is set once; a header opens a table once; a
table in braces is closed for good.
-/
namespace Crossing.Toml

-- =============================================================== keys

/-- One part of a key. -/
def simpleKey? (cs : List Char) : Option (String × List Char) :=
  match cs with
  | '"' :: rest => (basic? (cs.length + 1) rest).map fun (s, r) => (String.ofList s, r)
  | '\'' :: rest => (literal? rest).map fun (s, r) => (String.ofList s, r)
  | cs =>
      let w := cs.takeWhile isBareKey
      if w.isEmpty then none else some (String.ofList w, cs.dropWhile isBareKey)

/-- The parts of a key, joined by points, blanks around them skipped;
`limit` bounds their number. -/
def keyParts? : Nat → List Char → Option (List String × List Char)
  | 0, _ => none
  | limit + 1, cs => do
      let (k, rest) ← simpleKey? (skipBlanks cs)
      match skipBlanks rest with
      | '.' :: rest => do
          let (ks, rest) ← keyParts? limit rest
          return (k :: ks, rest)
      | rest => return ([k], rest)

/-- The depth at which nesting is refused: values lie in fewer brackets and
braces, and keys have fewer parts. -/
def depthLimit : Nat := 80

/-- A key. -/
def key? (cs : List Char) : Option (List String × List Char) := keyParts? (depthLimit - 1) cs

-- ============================================================= tables

/-- Sets a key that is not set yet. -/
def put (entries : Entries) (key : String) (v : Toml) : Option Entries :=
  if entries.any (·.1 = key) then none else some (entries ++ [(key, v)])

/-- Puts something else under a key that is there. -/
def replace (entries : Entries) (key : String) (v : Toml) : Entries :=
  entries.map fun p => if p.1 = key then (key, v) else p

/-- Sets a dotted key. The tables on the way are made as needed; the last one
must have come about by dotted keys too, and the others must not have a
header of their own. -/
def putPath (entries : Entries) (v : Toml) : List String → Option Entries
  | [] => none
  | [key] => put entries key v
  | k :: key :: ks =>
      match entries.lookup k with
      | none => do
          let sub ← putPath [] v (key :: ks)
          return entries ++ [(k, .table .dotted sub)]
      | some (.table origin sub) => do
          if origin = .explicit || (ks.isEmpty && origin ≠ .dotted) then none
          let sub ← putPath sub v (key :: ks)
          return replace entries k (.table origin sub)
      | some (.tables items) => do
          if ks.isEmpty then none
          let sub ← putPath (← items.getLast?) v (key :: ks)
          return replace entries k (.tables (items.dropLast ++ [sub]))
      | some _ => none

/-- Changes the table that a header's path leads to. Tables on the way are
made as needed; the last table of a series stands for the series. -/
def atPath {α : Type} (f : Entries → Option (α × Entries)) (entries : Entries) :
    List String → Option (α × Entries)
  | [] => f entries
  | k :: ks =>
      match entries.lookup k with
      | none => do
          let (a, sub) ← atPath f [] ks
          return (a, entries ++ [(k, .table .implicit sub)])
      | some (.table origin sub) => do
          let (a, sub) ← atPath f sub ks
          return (a, replace entries k (.table origin sub))
      | some (.tables items) => do
          let (a, sub) ← atPath f (← items.getLast?) ks
          return (a, replace entries k (.tables (items.dropLast ++ [sub])))
      | some _ => none

-- ============================================================= values

/-- Blanks, line breaks and comments, as they may stand between the items of
an array. -/
def skipFiller : Nat → List Char → List Char
  | 0, cs => cs
  | limit + 1, cs =>
      match skipBlanks cs with
      | '#' :: rest =>
          match newline? (rest.dropWhile isPlain) with
          | some rest => skipFiller limit rest
          | none => '#' :: rest
      | cs =>
          match newline? cs with
          | some rest => skipFiller limit rest
          | none => cs

mutual

/-- A value that may open `depth` brackets and braces inside each other;
`limit` bounds the reading. -/
def value? (depth : Nat) : Nat → List Char → Option (Toml × List Char)
  | 0, _ => none
  | limit + 1, cs =>
      match cs with
      | '"' :: _ | '\'' :: _ => (string? cs).map fun (s, rest) => (.text s, rest)
      | '[' :: rest => do
          if depth = 0 then none
          (items? (depth - 1) limit rest).map fun (items, rest) => (.array items, rest)
      | '\x7b' :: rest => do
          if depth = 0 then none
          match skipBlanks rest with
          | '\x7d' :: rest => some (.braced [], rest)
          | rest =>
              (pairs? (depth - 1) limit [] rest).map fun (entries, rest) => (.braced entries, rest)
      | cs => word? cs

/-- The items of an array up to its closing bracket. -/
def items? (depth : Nat) : Nat → List Char → Option (List Toml × List Char)
  | 0, _ => none
  | limit + 1, cs =>
      match skipFiller cs.length cs with
      | ']' :: rest => some ([], rest)
      | cs => do
          let (v, rest) ← value? depth limit cs
          match skipFiller rest.length rest with
          | ',' :: rest => do
              let (vs, rest) ← items? depth limit rest
              return (v :: vs, rest)
          | ']' :: rest => return ([v], rest)
          | _ => none

/-- The entries of a table in braces up to the closing one. -/
def pairs? (depth : Nat) : Nat → Entries → List Char → Option (Entries × List Char)
  | 0, _, _ => none
  | limit + 1, entries, cs => do
      let (key, rest) ← key? cs
      let '=' :: rest := rest | none
      let (v, rest) ← value? depth limit (skipBlanks rest)
      let entries ← putPath entries v key
      match skipBlanks rest with
      | ',' :: rest => pairs? depth limit entries rest
      | '\x7d' :: rest => return (entries, rest)
      | _ => none

end

-- ========================================================== documents

/-- One line of a document that says something. -/
inductive Line where
  | entry (key : List String) (v : Toml)
  | header (key : List String)
  /-- A header in doubled brackets. -/
  | seriesHeader (key : List String)

/-- One line and what follows it; nothing for an empty line or a comment. -/
def line? (cs : List Char) : Option (Option Line × List Char) := do
  match cs with
  | '[' :: '[' :: rest => do
      let (key, rest) ← key? rest
      let ']' :: ']' :: rest := rest | none
      return (some (.seriesHeader key), ← lineEnd? rest)
  | '[' :: rest => do
      let (key, rest) ← key? rest
      let ']' :: rest := rest | none
      return (some (.header key), ← lineEnd? rest)
  | '#' :: _ | '\n' :: _ | '\r' :: _ => return (none, ← lineEnd? cs)
  | _ => do
      let (key, rest) ← key? cs
      let '=' :: rest := rest | none
      let (v, rest) ← value? (depthLimit - 1) (cs.length + 1) (skipBlanks rest)
      return (some (.entry key v), ← lineEnd? rest)

/-- All lines of a document. -/
def lines? : Nat → List Char → Option (List Line)
  | 0, _ => none
  | limit + 1, cs =>
      match skipBlanks cs with
      | [] => some []
      | cs => do
          let (line, rest) ← line? cs
          let lines ← lines? limit rest
          return line.toList ++ lines

/-- The table a header opens: a new one, or one that so far was only passed
through. It is taken out of the document until it is complete. -/
def openTable (key : String) (entries : Entries) : Option (Entries × Entries) :=
  match entries.lookup key with
  | none => some ([], entries)
  | some (.table .implicit sub) => some (sub, entries.filter (·.1 ≠ key))
  | some _ => none

/-- Puts a complete table at the end of a series. -/
def extendSeries (key : String) (table entries : Entries) : Option (Unit × Entries) :=
  match entries.lookup key with
  | none => some ((), entries ++ [(key, .tables [table])])
  | some (.tables items) => some ((), replace entries key (.tables (items ++ [table])))
  | some _ => none

/-- What is being read: the document so far, the header whose table is open,
and that table. -/
structure Draft where
  root : Entries := []
  header : Option Line := none
  current : Entries := []

namespace Draft

/-- Puts the open table where it belongs. -/
def close (d : Draft) : Option Entries :=
  match d.header with
  | none => some d.current
  | some (.seriesHeader key) => do
      let last ← key.getLast?
      (atPath (extendSeries last d.current) d.root key.dropLast).map (·.2)
  | some (.header key) => do
      let last ← key.getLast?
      let place (entries : Entries) := (put entries last (.table .explicit d.current)).map ((), ·)
      (atPath place d.root key.dropLast).map (·.2)
  | some (.entry ..) => none

/-- Takes in one line. -/
def add (d : Draft) (line : Line) : Option Draft :=
  match line with
  | .entry key v => (putPath d.current v key).map fun current => { d with current }
  | .header key => do
      let last ← key.getLast?
      let (current, root) ← atPath (openTable last) (← d.close) key.dropLast
      return { root, header := some line, current }
  | .seriesHeader key => do
      let root ← d.close
      let last ← key.getLast?
      let check (entries : Entries) : Option (Unit × Entries) :=
        match entries.lookup last with
        | none => some ((), entries)
        | some (.tables _) => some ((), entries)
        | some _ => none
      let (_, root) ← atPath check root key.dropLast
      return { root, header := some line, current := [] }

end Draft

/-- Reads a document. -/
def parse (s : String) : Option Entries := do
  let cs := match s.toList with
    | '\ufeff' :: rest => rest
    | cs => cs
  let lines ← lines? (cs.length + 1) cs
  (← lines.foldlM Draft.add {}).close

end Crossing.Toml
