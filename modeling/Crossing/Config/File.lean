import Crossing.Config.Basic
import Crossing.Report.Code
import Crossing.Toml.Document

/-
Configuration files. A file is a TOML document whose keys are the settings;
a key that is no setting is refused, except under the features, where it may
belong to another version. `toText` writes every setting that has a value.
-/
namespace Crossing

/-- Why there is no configuration. -/
inductive ConfigError where
  | unreadable (path : String)
  | malformed
deriving DecidableEq, Repr

namespace ConfigError

def message : ConfigError → String
  | unreadable path => s!"failed to read {path}"
  | malformed => "failed to parse configuration"

end ConfigError

instance : Reportable ConfigError :=
  ⟨fun e => .record [("error", .text (match e with
    | .unreadable _ => "Io"
    | .malformed => "Parse"))]⟩

namespace RuntimeConfig

-- ============================================================= reading

def boolean? : Toml → Option Bool
  | .boolean b => some b
  | _ => none

def word32? : Toml → Option UInt32
  | .integer n => if 0 ≤ n ∧ n < 2 ^ 32 then some (UInt32.ofNat n.toNat) else none
  | _ => none

/-- One of several named values: its name as a text, or as the only key of
a table with nothing under it. -/
def choice? {α : Type} (all : List α) (name : α → String) (v : Toml) : Option α :=
  let find (s : String) := all.find? (name · = s)
  match v with
  | .text s => find s
  | v =>
      match v.entries? with
      | some [(key, v)] => if v.isEmptyGroup then find key else none
      | _ => none

/-- Takes in one entry of the features. -/
def addFeature (f : Features) : String × Toml → Option Features
  | ("has_lse_atomics", v) => (boolean? v).map fun b => { f with lseAtomics := b }
  | ("has_avx2", v) => (boolean? v).map fun b => { f with avx2 := b }
  | ("has_zbb", v) => (boolean? v).map fun b => { f with zbb := b }
  | _ => some f

/-- The features: a table, or their values in order. A date or a time is
taken for a table that says nothing about them. -/
def features? : Toml → Option Features
  | .array items =>
      (["has_lse_atomics", "has_avx2", "has_zbb"].zip items).foldlM addFeature {}
  | .moment _ => some {}
  | v => v.entries?.bind (·.foldlM addFeature {})

/-- Takes in one setting. -/
def addSetting (c : RuntimeConfig) : String × Toml → Option RuntimeConfig
  | ("instruction_set", v) => (choice? Isa.all Isa.name v).map fun isa => { c with isa := some isa }
  | ("gc_mode", v) => (choice? GcMode.all GcMode.name v).map fun m => { c with gcMode := m }
  | ("debuggable", v) => (boolean? v).map fun b => { c with debuggable := b }
  | ("implicit_null_checks", v) =>
      (boolean? v).map fun b => { c with implicitChecks.null := b }
  | ("implicit_suspend_checks", v) =>
      (boolean? v).map fun b => { c with implicitChecks.suspend := b }
  | ("implicit_stack_overflow_checks", v) =>
      (boolean? v).map fun b => { c with implicitChecks.stackOverflow := b }
  | ("jit_threshold", v) => (word32? v).map fun n => { c with jitThreshold := n }
  | ("trace_jit", v) => (boolean? v).map fun b => { c with traceJit := b }
  | ("features", v) => (features? v).map fun f => { c with features := f }
  | _ => none

/-- The configuration with these settings, the others at their defaults. -/
def ofEntries (entries : Toml.Entries) : Option RuntimeConfig := entries.foldlM addSetting {}

/-- Reads the text of a configuration file. -/
def parse (s : String) : Except ConfigError RuntimeConfig :=
  match (Toml.parse s).bind ofEntries with
  | some c => .ok c
  | none => .error .malformed

/-- Reads a configuration file, given its content if it is there. Content
that is no text cannot be read. -/
def load (path : String) (content : Option ByteArray) : Except ConfigError RuntimeConfig :=
  match content.bind String.fromUTF8? with
  | some s => parse s
  | none => .error (.unreadable path)

-- ============================================================= writing

/-- The settings as text, the features last in a table of their own. -/
def toText (c : RuntimeConfig) : String :=
  let line (key value : String) := key ++ " = " ++ value ++ "\n"
  let flag (key : String) (b : Bool) := line key (if b then "true" else "false")
  let name (key s : String) := line key ("\"" ++ s ++ "\"")
  String.join
    [(c.isa.map fun isa => name "instruction_set" isa.name).getD "",
      name "gc_mode" c.gcMode.name,
      flag "debuggable" c.debuggable,
      flag "implicit_null_checks" c.implicitChecks.null,
      flag "implicit_suspend_checks" c.implicitChecks.suspend,
      flag "implicit_stack_overflow_checks" c.implicitChecks.stackOverflow,
      line "jit_threshold" (toString c.jitThreshold.toNat),
      flag "trace_jit" c.traceJit,
      "\n[features]\n",
      flag "has_lse_atomics" c.features.lseAtomics,
      flag "has_avx2" c.features.avx2,
      flag "has_zbb" c.features.zbb]

end RuntimeConfig

-- ============================================================= reports

instance : Reportable ImplicitChecks :=
  ⟨fun c => .record [("null", report c.null), ("suspend", report c.suspend),
    ("stack_overflow", report c.stackOverflow)]⟩

instance : Reportable StubCompiler :=
  ⟨fun c => .record [("isa", report c.isa), ("debuggable", report c.debuggable),
    ("features", report c.features),
    ("hot", report ([0, 999, 1000, 4294967295].map c.isHot))]⟩

instance : Reportable RuntimeConfig :=
  ⟨fun c => .record ((c.isa.map fun isa => ("instruction_set", report isa)).toList
    ++ [("gc_mode", report c.gcMode.name), ("debuggable", report c.debuggable),
      ("implicit_null_checks", report c.implicitChecks.null),
      ("implicit_suspend_checks", report c.implicitChecks.suspend),
      ("implicit_stack_overflow_checks", report c.implicitChecks.stackOverflow),
      ("jit_threshold", report c.jitThreshold), ("trace_jit", report c.traceJit),
      ("features", report c.features)])⟩

/-- A configuration, its text, and what follows from it. -/
def RuntimeConfig.summary (c : RuntimeConfig) : Report :=
  .record [("config", report c), ("toml", .text c.toText),
    ("round_trip", report (match RuntimeConfig.parse c.toText with
      | .ok d => decide (d = c)
      | .error _ => false)),
    ("isa", report c.resolvedIsa), ("read_barriers", report c.gcMode.usesReadBarriers),
    ("checks", report c.reliedChecks), ("compiler", report (StubCompiler.ofConfig c))]

end Crossing
