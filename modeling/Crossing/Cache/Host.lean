import Crossing.Compiler

/-
A runtime's methods with the compiler and the cache that serve them. Every
installation gets the next number, and keeps it when its stub is replaced.
-/
namespace Crossing

structure CodeHost where
  compiler : StubCompiler
  cache : CodeCache
  methods : Array Method := #[]
  space : AddressSpace := {}
  /-- Entry point of every installation so far. -/
  entries : Array Nat := #[]

namespace CodeHost

/-- Addresses kept for an installed stub: enough for the longest. -/
def stubRoom : Nat := 0x1000000

/-- A new method, and its number. -/
def addMethod (h : CodeHost) (flags index : UInt32) : Method × CodeHost :=
  let m : Method := { address := 0x100 * (h.methods.size + 1), flags, index }
  (m, { h with methods := h.methods.push m })

/-- Replaces a method. -/
def setMethod (h : CodeHost) (i : Nat) (m : Method) : CodeHost :=
  { h with methods := h.methods.setIfInBounds i m }

/-- The number of the installation with an entry point. -/
def number? (h : CodeHost) (entry : Nat) : Option Nat := h.entries.toList.idxOf? entry

/-- Takes over what an installation left behind. It gives the number of a
stub that was put in place, and none if the method was left alone. -/
def land (h : CodeHost) (i : Nat) :
    Except CompileError Bool × CodeCache × Method → Except CompileError (Option Nat) × CodeHost
  | (result, cache, m) =>
      let h := { h with cache }.setMethod i m
      match result with
      | .error e => (.error e, h)
      | .ok false => (.ok none, h)
      | .ok true =>
          (.ok (some h.entries.size),
            { h with entries := h.entries.push m.quickEntry, space := h.space.take stubRoom })

/-- Compiles and installs a method, unless it is none of the compiler's. -/
def jitCompile (h : CodeHost) (i : Nat) (m : Method) (shorty : String) :
    Except CompileError (Option Nat) × CodeHost :=
  h.land i (h.compiler.jitCompile h.cache h.space.room? m shorty)

/-- Compiles and installs a native method. -/
def compileNative (h : CodeHost) (i : Nat) (m : Method) (shorty : String) :
    Except CompileError (Option Nat) × CodeHost :=
  let (result, rest) := h.compiler.compileNative h.cache h.space.room? m shorty
  h.land i (result.map fun _ => true, rest)

/-- Installs a stub for a method. -/
def install (h : CodeHost) (i : Nat) (m : Method) (stub : Stub) :
    Except CompileError (Option Nat) × CodeHost :=
  let (result, rest) := h.cache.install h.space.room? m stub
  h.land i ((result.map fun _ => true).mapError .install, rest)

/-- Lets a fault manager know of the code. -/
def attachManager (h : CodeHost) : CodeHost :=
  { h with cache := h.cache.attach (.ofChecks h.cache.isa {}) }

end CodeHost

end Crossing
