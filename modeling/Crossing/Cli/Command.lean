import Crossing.Cli.Argument
import Crossing.Config.File
import Crossing.Text.HexInput
import Crossing.Text.Terminal
import Crossing.X86.Length

/-
The command line: four commands that show what the library would do. A
command is a function from its arguments, and the content of files, to what
is printed; only the outermost layer touches the world.
-/
namespace Crossing.Cli

/-- How a command ended. -/
inductive Outcome where
  | printed (text : String)
  /-- Something went wrong that the user is told. -/
  | failed (message : String)
  /-- The arguments make no sense. -/
  | misused
  /-- A demand of the library was not met. -/
  | refused (message : String)
deriving DecidableEq, Repr

namespace Outcome

/-- The exit status. -/
def status : Outcome → Nat
  | printed _ => 0
  | failed _ => 1
  | misused => 2
  | refused _ => 101

def output : Outcome → String
  | printed text => text
  | _ => ""

/-- What the user is told. -/
def reported : Outcome → Option String
  | failed message => some (Text.shownOnTerminal message)
  | _ => none

end Outcome

-- ============================================================= options

def verbose : OptionSpec := { name := "verbose", letter := some 'v' }

/-- A configuration file, and what to override in it. -/
def configOptions : List OptionSpec :=
  [{ name := "config", takesValue := true }, { name := "isa", takesValue := true },
    { name := "features", takesValue := true }, { name := "gc-mode", takesValue := true },
    { name := "debuggable" }, { name := "jit-threshold", takesValue := true },
    { name := "trace-jit" }]

/-- Which configuration is asked for. -/
structure ConfigRequest where
  file : Option String
  isa : Option Isa
  features : Option String
  gcMode : Option GcMode
  debuggable : Bool
  jitThreshold : Option UInt32
  traceJit : Bool
deriving DecidableEq, Repr

/-- The value of an option, if it is given; none at all if it is given and
cannot be read. -/
def optional {α : Type} (a : Arguments) (name : String) (read : String → Option α) :
    Option (Option α) :=
  match a.value? name with
  | none => some none
  | some s => (read s).map some

/-- A number of 32 bits, with or without a sign. -/
def number32? (s : String) : Option UInt32 :=
  let (minus, ds) := match s.toList with
    | '+' :: ds => (false, ds)
    | '-' :: ds => (true, ds)
    | ds => (false, ds)
  if ds.isEmpty || !ds.all Char.isDigit then none
  else
    let n := ds.foldl (fun n c => 10 * n + (c.toNat - 48)) 0
    if n < 2 ^ 32 ∧ (minus → n = 0) then some (UInt32.ofNat n) else none

def gcMode? (s : String) : Option GcMode :=
  if s = "stw" then some .stopTheWorld
  else if s = "concurrent-copying" then some .concurrentCopying
  else none

def ConfigRequest.ofArguments (a : Arguments) : Option ConfigRequest := do
  return {
    file := ← optional a "config" fun s => if s.isEmpty then none else some s
    isa := ← optional a "isa" Isa.ofName?
    features := ← optional a "features" some
    gcMode := ← optional a "gc-mode" gcMode?
    debuggable := a.has "debuggable"
    jitThreshold := ← optional a "jit-threshold" number32?
    traceJit := a.has "trace-jit" }

/-- The content of the file at a path, if it is there. -/
abbrev Files := String → Option ByteArray

/-- The configuration that is asked for. Features are those of the resulting
instruction set. -/
def ConfigRequest.resolve (r : ConfigRequest) (files : Files) : Except String RuntimeConfig := do
  let c ← match r.file with
    | none => .ok {}
    | some path => (RuntimeConfig.load path (files path)).mapError ConfigError.message
  let c := { c with isa := r.isa.or c.isa }
  let features ← match r.features with
    | none => .ok c.features
    | some s => (Features.parse c.resolvedIsa s).mapError Features.Unknown.message
  return { c with
    features
    gcMode := r.gcMode.getD c.gcMode
    jitThreshold := r.jitThreshold.getD c.jitThreshold
    debuggable := c.debuggable || r.debuggable
    traceJit := c.traceJit || r.traceJit }

-- ============================================================ commands

/-- A command with its arguments. -/
inductive Command where
  | stub (shorty : String) (kind : NativeKind) (isStatic json : Bool) (config : ConfigRequest)
  | entrypoints (readBarrier : Bool) (config : ConfigRequest)
  | decode (hex : String) (is32Bit : Bool)
  | config (config : ConfigRequest)
deriving DecidableEq, Repr

/-- The kind with a name. -/
def kind? (s : String) : Option NativeKind :=
  [NativeKind.normal, .fast, .critical].find? (·.name = s)

/-- Reads the arguments of a named command. -/
def Command.ofArguments (name : String) (args : List String) : Option Command := do
  let read (specs : List OptionSpec) := (sortArguments (verbose :: specs) false {} args).map (·.1)
  match name with
  | "stub" =>
      let a ← read ([{ name := "kind", takesValue := true }, { name := "static" },
        { name := "json" }] ++ configOptions)
      let [shorty] := a.operands | none
      let kind ← optional a "kind" kind?
      return .stub shorty (kind.getD .normal) (a.has "static") (a.has "json") (← ConfigRequest.ofArguments a)
  | "entrypoints" =>
      let a ← read ({ name := "read-barrier" } :: configOptions)
      let [] := a.operands | none
      return .entrypoints (a.has "read-barrier") (← ConfigRequest.ofArguments a)
  | "decode" =>
      let a ← read [{ name := "32bit" }]
      let [hex] := a.operands | none
      return .decode hex (a.has "32bit")
  | "config" =>
      let a ← read configOptions
      let [] := a.operands | none
      return .config (← ConfigRequest.ofArguments a)
  | _ => none

/-- Reads a command line: perhaps a switch, a command and its arguments. -/
def Command.ofLine (args : List String) : Option Command := do
  let (_, rest) ← sortArguments [verbose] true {} args
  let name :: args := rest | none
  Command.ofArguments name args

-- ============================================================= results

/-- Code as lines of sixteen bytes. -/
def dumpLines (offset : Nat) (code : List UInt8) : List String :=
  match code with
  | [] => []
  | b :: rest =>
      let line := (b :: rest.take 15).map fun b => Text.hexDigits 2 b.toNat
      (Text.hexDigits 4 offset ++ ": " ++ " ".intercalate line) :: dumpLines (offset + 16) (rest.drop 15)
termination_by code.length
decreasing_by simp only [List.length_drop, List.length_cons]; omega

def titleOf (k : NativeKind) : String := k.name.capitalize

/-- A stub as text: what it is, then its code. -/
def stubText (s : Stub) : String :=
  let attributes := titleOf s.kind ++ if s.isStatic then ", static" else ""
  let head := s!"{s.isa.name} {s.shorty} ({attributes}): frame {s.frameSize} bytes, "
    ++ s!"out args {s.outArgsSize} bytes, code {s.code.size} bytes"
  String.join ((head :: dumpLines 0 s.code.toList).map (· ++ "\n"))

/-- The mark slots of a fresh table. -/
def markSlotsReport (isa : Isa) (active : Bool) : Report :=
  let table := (EntrypointTable.ofIsa isa).flipMarks isa active
  let slot (i : Nat) := Report.record
    [("entrypoint", .text (table.marks i).shown),
      ("offset", report ((Entrypoint.count + i) * isa.wordBytes)),
      ("register", report (isa.markSlotRegister i)), ("slot", report i),
      ("usable", report (isa.usesMarkSlot i))]
  .record [("isa", report isa), ("read_barrier", report active),
    ("slots", .list ((List.range Entrypoint.markCount).map slot))]

/-- The access flags of a native method. -/
def nativeFlags (kind : NativeKind) (isStatic : Bool) : UInt32 :=
  AccessFlag.native.mask ||| (if isStatic then AccessFlag.static.mask else 0)
    ||| match kind with
      | .normal => 0
      | .fast => AccessFlag.fastNative.mask
      | .critical => AccessFlag.criticalNative.mask

/-- Runs a command. -/
def Command.run (files : Files) : Command → Outcome
  | .stub shorty kind isStatic json request =>
      match request.resolve files with
      | .error e => .failed e
      | .ok c =>
          match (StubCompiler.ofConfig c).build (nativeFlags kind isStatic) shorty false with
          | .error (.stub (.refused v)) => .refused v.message
          | .error e => .failed e.message
          | .ok s => .printed (if json then (report s).pretty ++ "\n" else stubText s)
  | .entrypoints readBarrier request =>
      match request.resolve files with
      | .error e => .failed e
      | .ok c =>
          let active := readBarrier || c.gcMode.usesReadBarriers
          .printed ((markSlotsReport c.resolvedIsa active).pretty ++ "\n")
  | .decode hex is32Bit =>
      match Text.readHex hex with
      | .error .splitCharacter => .refused Text.HexError.splitCharacter.message
      | .error e => .failed e.message
      | .ok code =>
          match X86.instructionLength code (!is32Bit) with
          | 0 => .failed s!"unrecognized or truncated instruction '{hex}'"
          | n => .printed (toString n ++ "\n")
  | .config request =>
      match request.resolve files with
      | .error e => .failed e
      | .ok c => .printed c.toText

/-- The configuration file a command asks for. -/
def Command.file? : Command → Option String
  | .stub _ _ _ _ request | .entrypoints _ request | .config request => request.file
  | .decode .. => none

/-- Runs a command line. -/
def run (files : Files) (args : List String) : Outcome :=
  match Command.ofLine args with
  | some c => c.run files
  | none => .misused

end Crossing.Cli
