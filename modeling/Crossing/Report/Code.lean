import Crossing.Argument.Move
import Crossing.Cache.Host
import Crossing.Code.Buffer
import Crossing.Report.Basic

/-
Reports on registers, arguments, signatures and stubs, and on what can go
wrong on the way from one to the other.
-/
namespace Crossing

-- ============================================================== errors

instance : Reportable ShortyError :=
  ⟨fun e => .error
    (match e with
      | .empty => "Empty"
      | .invalidChar _ => "InvalidChar"
      | .voidParameter => "VoidParameter") e.message⟩

instance : Reportable Glue.Unsupported := ⟨fun u => .error "UnsupportedInstructionSet" u.message⟩

instance : Reportable Features.Unknown := ⟨fun u => .error "bad_features" u.message⟩

instance : Reportable Glue.SetupError :=
  ⟨fun
    | .unsupported u => report u
    | .features u => .error "InvalidFeatures" (Glue.SetupError.features u).message⟩

instance : Reportable StubError :=
  ⟨fun
    | .shorty e => report e
    | .unsupported u => report u
    | .refused v => report v
    | .criticalNotStatic => .error "CriticalNotStatic" StubError.criticalNotStatic.message
    | .criticalWithReferences =>
        .error "CriticalWithReferences" StubError.criticalWithReferences.message⟩

instance : Reportable Code.FixupError :=
  ⟨fun e => .error
    (match e with
      | .unbound _ => "UnboundLabel"
      | .outOfRange _ => "OutOfRange") e.message⟩

instance : Reportable MemoryError :=
  ⟨fun e => .error
    (match e with
      | .zeroSize => "ZeroSize"
      | .allocationFailed _ => "AllocationFailed"
      | .protectionFailed _ => "ProtectionFailed"
      | .outOfBounds .. => "OutOfBounds"
      | .alreadyExecutable => "AlreadyExecutable"
      | .refused _ => "panic") e.message⟩

instance : Reportable CacheError :=
  ⟨fun
    | .memory e => report e
    | .isaMismatch x y => .error "IsaMismatch" (CacheError.isaMismatch x y).message⟩

instance : Reportable CompileError :=
  ⟨fun e =>
    match e with
    | .verification .. => .error "Verification" e.message
    | .synchronized => .error "Synchronized" e.message
    | .notNative _ => .error "NotNative" e.message
    | .stub e => report e
    | .install e => report e⟩

-- ============================================================== offsets

namespace Offset

/-- What is known about an offset, and what it becomes read relative to
something else or moved by `plus` bytes. -/
def summary {b : OffsetBase} (o : Offset b) (plus : Nat) : Report :=
  let asOffset := ("as_offset", report (o.recast .plain).shown)
  .record ([("display", report o.shown), ("value", .word o.value),
    ("int32", report (o.displacement.map (·.toInt)))] ++
    match b with
    | .plain => []
    | .member | .thread => [asOffset]
    | .frame => [("valid_reference", report (isReference o)),
        ("plus", report ((Offset.plus o plus).map (·.shown))),
        ("as_member", report (o.recast .member).shown)])

end Offset

-- =============================================== registers and arguments

instance : Reportable Features :=
  ⟨fun f => .record [("has_lse_atomics", report f.lseAtomics), ("has_avx2", report f.avx2),
    ("has_zbb", report f.zbb)]⟩

/-- What is known about an instruction set. -/
def Isa.summary (isa : Isa) : Report :=
  .record [("name", report isa), ("display", report isa), ("serde", report isa),
    ("pointer_size", report isa.wordBytes), ("is_64bit", report isa.is64Bit),
    ("core_register_count", report isa.coreRegisterCount),
    ("stack_overflow_reserved_bytes", report isa.stackOverflowReservedBytes),
    ("stack_alignment", report isa.stackAlignment)]

instance : Reportable Location :=
  ⟨fun
    | .register r size => .record [("reg", report r), ("size", report size)]
    | .stack o size => .record [("stack", report o), ("size", report size)]⟩

/-- What is known about a location. -/
def Location.summary (l : Location) : Report :=
  .record [("is_register", report l.isRegister), ("size", report l.size), ("reg", report l.reg),
    ("frame_offset", report l.frameOffset)]

instance : Reportable ArgMove :=
  ⟨fun
    | .spillReference r o => .list [.text "SpillReference", report r, report o]
    | .storeToStack d s n => .list [.text "StoreToStack", report d, report s, report n]
    | .handleToStack d s n => .list [.text "JObjectToStack", report d, report s, report n]
    | .copyToStack d s n => .list [.text "CopyToStack", report d, report s, report n]
    | .moveToRegister d s n => .list [.text "MoveToRegister", report d, report s, report n]
    | .handleToRegister d s h n =>
        .list [.text "JObjectToRegister", report d, report s, report (h.getD .none), report n]
    | .loadToRegister d s n => .list [.text "LoadToRegister", report d, report s, report n]⟩

namespace Register

/-- A register as an x86-64 register, beside another one. -/
def x86Report (r other : Register) : Report :=
  report (r.x86View.map fun v => Report.record
    [("no_register", report r.isNone), ("cpu", report (v matches .cpu _)),
      ("xmm", report (v matches .xmm _)), ("as_cpu", report (r.cpu.map (·.index.val))),
      ("as_xmm", report (r.xmm.map (·.number.toNat))),
      ("mask_bit", report (r.x86Place.map (2 ^ ·))),
      ("overlaps", report (other.x86View.map fun _ => r.x86Overlaps other))])

/-- A register as an ARM64 register, beside another one. -/
def a64Report (r other : Register) : Report :=
  report (r.a64View.map fun v => Report.record
    [("no_register", report r.isNone), ("x", report (v matches .x _)),
      ("w", report (v matches .w _)), ("d", report (v matches .d _)),
      ("s", report (v matches .s _)), ("core", report (v matches .x _ | .w _)),
      ("fp", report (v matches .d _ | .s _)), ("as_core", report (r.core.map (·.index.val))),
      ("as_x", report (r.asX.map (·.index.val))), ("as_w", report (r.asW.map (·.index.val))),
      ("as_vreg", report (r.fp.map (·.number.toNat))),
      ("overlapping_x", report r.overlappingX), ("overlapping_w", report r.overlappingW),
      ("overlaps", report (r.a64Overlaps other))])

/-- A register handle, and how an instruction set reads it. -/
def summary (r other : Register) (isa : Option Isa) : Report :=
  .record [("id", report r), ("is_register", report r.isSome), ("is_no_register", report r.isNone),
    ("debug", report r.shown),
    ("view", match isa with
      | .none => .null
      | some .x86_64 => r.x86Report other
      | some _ => r.a64Report other)]

end Register

-- =============================================================== code

/-- Code, of which only the ends are shown when it is long. -/
def Report.code (code : Array UInt8) : Report :=
  if code.size > 8192 then
    .record [("head", .bytes (code.extract 0 64).toList),
      ("tail", .bytes (code.extract (code.size - 64) code.size).toList)]
  else .bytes code.toList

namespace CodeBuffer

/-- What a buffer holds. -/
def summary (b : CodeBuffer) : List (String × Report) :=
  [("labels", report b.labels.toList), ("len", report b.size), ("offset", report b.size),
    ("empty", report (b.size == 0)), ("code", .code b.code)]

/-- What a buffer has more than it had before. -/
def growth (b before : CodeBuffer) : Report :=
  if b.size - before.size > 8192 then .record [("len", report b.size)]
  else .bytes (b.code.extract before.size b.size).toList

end CodeBuffer

instance : Reportable CodeMemory :=
  ⟨fun m => .record [("size", report m.size), ("executable", report m.executable)]⟩

-- ===================================================== signatures, stubs

def ValueType.shown (t : ValueType) : String := String.singleton t.letter

namespace Convention

/-- The registers and the frame of a convention, for a signature. -/
def summary (c : Convention) (s : Shorty) : Report :=
  .record [("isa", report c.isa), ("frame_size", report c.frameSize),
    ("method_register", report c.method), ("callee_saves", report c.calleeSaves),
    ("scratch", report [c.scratch.1, c.scratch.2.1, c.scratch.2.2]),
    ("hidden_arg", report c.hidden), ("first_native_arg", report c.firstNative),
    ("return_register", report (c.resultRegister s.result))]

/-- Where managed code passes its arguments. -/
def managedSummary (args : List ManagedArg) : Report :=
  .record [("len", report args.length), ("empty", report args.isEmpty),
    ("types", .text (String.join (args.map fun a => a.type.shown))),
    ("locations", report (args.map (·.location))), ("slots", report (args.map (·.home))),
    ("refs", report (args.map (·.reference))),
    ("in_registers", .list ((inRegisters args).map fun (r, o, n) =>
      .list [report r, report o, report n]))]

instance : Reportable NativeArgs :=
  ⟨fun n => .record [("env", report n.env), ("class", report n.class_), ("args", report n.args),
    ("hidden", report n.hidden), ("out_args_size", report n.outArgsSize)]⟩

end Convention

namespace Shorty

/-- A signature and how an instruction set passes its arguments; the caller
area starts behind the frame unless told otherwise. -/
def summary (s : Shorty) (isa : Isa) (isStatic : Bool) (kind : NativeKind)
    (callerArea : Option Nat) : Except Violation Report := do
  let base := [("return", Report.text ((s.result.map ValueType.shown).getD "V")),
    ("return_sizes", report [s.managedResultSize, s.nativeResultSize]),
    ("params", .list (s.params.map fun t =>
      .list [.text t.shown, report t.managedSize, report t.nativeSize])),
    ("has_references", report s.hasReferences)]
  match Convention.ofIsa? isa with
  | none => return .record (base ++ [("abi", .null)])
  | some c =>
      let args ← c.managedArguments s isStatic (callerArea.getD c.frameSize)
      let native ← c.nativeArguments s isStatic kind
      return .record (base ++ [("abi", c.summary s), ("managed", Convention.managedSummary args),
        ("native", report native)])

end Shorty

instance : Reportable Stub :=
  ⟨fun s => .record [("isa", report s.isa), ("shorty", report s.shorty),
    ("kind", report s.kind.name), ("is_static", report s.isStatic),
    ("frame_size", report s.frameSize), ("out_args_size", report s.outArgsSize),
    ("code", .bytes s.code.toList)]⟩

instance : Reportable InstalledStub :=
  ⟨fun s => .record [("shorty", report s.shorty), ("kind", report s.kind.name),
    ("size", report s.codeSize), ("code", .bytes s.code),
    ("contains", report [s.contains s.entry, s.contains (s.entry + s.codeSize - 1),
      s.contains (s.entry + s.codeSize)])]⟩

instance : Reportable Method :=
  ⟨fun m => .record [("static", report (m.has .static)), ("native", report m.isNative),
    ("flags", report m.flags), ("index", report m.index),
    ("can_compile", report (StubCompiler.canCompile m))]⟩

namespace CodeHost

/-- How an installation went. -/
def landed : Except CompileError (Option Nat) → Report
  | .error e => report e
  | .ok none => .flag false
  | .ok (some n) => .record [("entry", report n)]

/-- What compiled and native code of a method there is; compiled code whose
memory is gone has no number. -/
def entrySummary (h : CodeHost) (m : Method) : Report :=
  let quick := m.quickEntry
  .record [("quick", if quick = 0 then .null
      else if h.cache.holds quick then report (h.number? quick)
      else .text "unknown"),
    ("jni", .word m.jniEntry)]

/-- A result, with the size of the cache. -/
def summary (h : CodeHost) (result : Report) : Report :=
  let n := h.cache.stubs.length
  .record [("r", result), ("len", report n), ("empty", report (n == 0)),
    ("retired", report h.cache.retired.length)]

end CodeHost

end Crossing
