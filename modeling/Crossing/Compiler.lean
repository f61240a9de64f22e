import Crossing.Cache.Store
import Crossing.Config.Basic

/-
The compiler of native-method stubs. It decides from a method's flags what
stub to build, and installs what it builds. Methods that are not native are
somebody else's business.
-/
namespace Crossing

/-- Why a method could not be compiled or installed. -/
inductive CompileError where
  | verification (method : UInt32) (diagnostic : String)
  | synchronized
  | notNative (method : UInt32)
  | stub (e : StubError)
  | install (e : CacheError)
deriving DecidableEq, Repr

namespace CompileError

def message : CompileError → String
  | verification method diagnostic =>
      s!"method {method.toNat} failed verification: {diagnostic}"
  | synchronized => "synchronized native methods are not supported"
  | notNative method => s!"method {method.toNat} is not native"
  | stub e => e.message
  | install e => e.message

end CompileError

/-- What the verifier found. -/
inductive Verdict where
  | passed
  | failed (diagnostic : Option String)
deriving DecidableEq, Repr

structure StubCompiler where
  isa : Isa
  features : Features := {}
  jitThreshold : UInt32 := ({} : RuntimeConfig).jitThreshold
  debuggable : Bool := ({} : RuntimeConfig).debuggable
deriving DecidableEq, Repr

namespace StubCompiler

def ofConfig (c : RuntimeConfig) : StubCompiler :=
  { isa := c.resolvedIsa, features := c.features, jitThreshold := c.jitThreshold,
    debuggable := c.debuggable }

/-- Whether a method has been invoked often enough to be worth a stub. -/
def isHot (c : StubCompiler) (invocations : UInt32) : Bool := c.jitThreshold ≤ invocations

/-- Whether this compiler produces code for a method at all. -/
def canCompile (m : Method) : Bool := m.isNative && !m.has .synchronized

/-- The stub for a native method with these flags. Only a debuggable
runtime tells frames of code compiled at run time apart. -/
def build (c : StubCompiler) (flags : UInt32) (shorty : String) (jit : Bool) :
    Except CompileError Stub :=
  if AccessFlag.synchronized.isIn flags then .error .synchronized
  else
    (Stub.compile c.isa c.features shorty
      { kind := .ofFlags flags, isStatic := AccessFlag.static.isIn flags,
        tagSp := c.debuggable && jit }).mapError .stub

/-- Compilation ahead of time; no stub for a method that is not native. -/
def compile (c : StubCompiler) (m : Method) (shorty : String) : Verdict →
    Except CompileError (Option Stub)
  | .failed diagnostic => .error (.verification m.index (diagnostic.getD "no diagnostic"))
  | .passed => if m.isNative then (c.build m.flags shorty false).map some else .ok none

/-- Compiles and installs a method; `false` when it is none of this
compiler's. -/
def jitCompile (c : StubCompiler) (cache : CodeCache) (os : MemorySystem) (m : Method)
    (shorty : String) : Except CompileError Bool × CodeCache × Method :=
  if canCompile m then
    match c.build m.flags shorty true with
    | .error e => (.error e, cache, m)
    | .ok stub =>
        match cache.install os m stub with
        | (.error e, cache, m) => (.error (.install e), cache, m)
        | (.ok _, cache, m) => (.ok true, cache, m)
  else (.ok false, cache, m)

/-- Compiles and installs a native method and gives its entry point. -/
def compileNative (c : StubCompiler) (cache : CodeCache) (os : MemorySystem) (m : Method)
    (shorty : String) : Except CompileError Nat × CodeCache × Method :=
  if m.isNative then
    match c.jitCompile cache os m shorty with
    | (.error e, cache, m) => (.error e, cache, m)
    | (.ok false, cache, m) => (.error .synchronized, cache, m)
    | (.ok true, cache, m) => (.ok m.quickEntry, cache, m)
  else (.error (.notNative m.index), cache, m)

end StubCompiler

end Crossing
