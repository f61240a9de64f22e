import Mathlib
import Crossing.Compiler
import Crossing.Proofs.Cache.Ownership

/-
Compiling a method puts its stub in place or leaves no trace. Six things can
go wrong between the flags of a method and the memory for its code, and all
of them before anything is changed: `jitCompile_cases` and
`compileNative_cases` say that there are only these two ways to end.

What success changes is one entry of the cache and one record. The stub
that stood under the index is retired, whoever it belonged to; it is another
method's when two share an index (`not_others_kept`).
-/
namespace Crossing

theorem CodeCache.install_entry {c c' : CodeCache} {os : MemorySystem} {m m' : Method}
    {stub : Stub} {entry : Nat} (h : c.install os m stub = (.ok entry, c', m')) :
    m'.quickEntry = entry := by
  unfold install at h
  split at h
  · cases h
  · split at h
    · cases h
    · cases h
      rfl

namespace StubCompiler

variable {c : StubCompiler} {cache cache' : CodeCache} {os : MemorySystem} {m m' : Method}
  {shorty : String}

/-- Nothing has changed, or the stub that was built is installed. -/
theorem jitCompile_cases {result : Except CompileError Bool}
    (h : c.jitCompile cache os m shorty = (result, cache', m')) :
    (result ≠ .ok true ∧ cache' = cache ∧ m' = m)
      ∨ ∃ stub entry, result = .ok true ∧ c.build m.flags shorty true = .ok stub
        ∧ cache.install os m stub = (.ok entry, cache', m') := by
  unfold jitCompile at h
  split at h
  · split at h
    · cases h
      exact .inl ⟨nofun, rfl, rfl⟩
    · next stub hbuild =>
        split at h
        · next hinstall =>
            cases h
            exact .inl ⟨nofun, CodeCache.install_error hinstall⟩
        · next hinstall =>
            cases h
            exact .inr ⟨stub, _, rfl, hbuild, hinstall⟩
  · cases h
    exact .inl ⟨nofun, rfl, rfl⟩

/-- A native method is compiled and gives its entry point, or nothing has
changed. -/
theorem compileNative_cases {result : Except CompileError Nat}
    (h : c.compileNative cache os m shorty = (result, cache', m')) :
    (∃ e, result = .error e ∧ cache' = cache ∧ m' = m)
      ∨ ∃ stub entry, result = .ok entry ∧ c.build m.flags shorty true = .ok stub
        ∧ cache.install os m stub = (.ok entry, cache', m') := by
  unfold compileNative at h
  split at h
  · split at h
    · next hjit =>
        cases h
        obtain ⟨-, hsame⟩ | ⟨_, _, hok, -⟩ := jitCompile_cases hjit
        · exact .inl ⟨_, rfl, hsame⟩
        · cases hok
    · next hjit =>
        cases h
        obtain ⟨-, hsame⟩ | ⟨_, _, hok, -⟩ := jitCompile_cases hjit
        · exact .inl ⟨_, rfl, hsame⟩
        · cases hok
    · next hjit =>
        cases h
        obtain ⟨hne, -⟩ | ⟨stub, entry, -, hbuild, hinstall⟩ := jitCompile_cases hjit
        · exact absurd rfl hne
        · refine .inr ⟨stub, entry, ?_, hbuild, hinstall⟩
          rw [CodeCache.install_entry hinstall]
  · cases h
    exact .inl ⟨_, rfl, rfl, rfl⟩

/-- What a compilation has done that gave `entry`: the method and the cache
name this address, the stub that was built for it is there, and of all that
was in the cache only what stood under the method's index has gone, to the
retired stubs. -/
structure Compiled (c : StubCompiler) (shorty : String) (m : Method) (cache : CodeCache)
    (entry : Nat) (cache' : CodeCache) (m' : Method) : Prop where
  method : m' = { m with quickEntry := entry }
  point : cache'.entryPoint? m.index = some entry
  code : ∃ stub, c.build m.flags shorty true = .ok stub
    ∧ ∀ i, i < stub.code.size → cache'.byteAt? (entry + i) = stub.code[i]?
  others : ∀ index, index ≠ m.index → cache'.stub? index = cache.stub? index
  retired : cache'.retired = cache.retired ++ (cache.stub? m.index).toList

theorem compiled_of_install {stub : Stub} {entry : Nat} (hlaid : cache.Laid)
    (hvacant : cache.Vacant os) (hbuild : c.build m.flags shorty true = .ok stub)
    (hinstall : cache.install os m stub = (.ok entry, cache', m')) :
    c.Compiled shorty m cache entry cache' m' := by
  have hentry := CodeCache.install_entry hinstall
  obtain ⟨s, rfl, rfl, -, hsized, hcode, hroom⟩ := CodeCache.install_ok hinstall
  have hlaid' := hlaid.put m.index hsized fun t ht => hvacant _ _ hroom t ht
  have hstub := CodeCache.put_stub? hlaid.keyed m.index s
  have hnew : (cache.put m.index s).stub? m.index = some s := by rw [hstub, if_pos rfl]
  subst hentry
  constructor
  case method => rfl
  case point => rw [CodeCache.entryPoint?, hnew, Option.map_some]
  case code =>
    refine ⟨stub, hbuild, fun i hi => ?_⟩
    have hsize : s.codeSize = stub.code.size := by
      have hlength := congrArg List.length hcode
      simpa [InstalledStub.code, CodeMemory.read] using hlength
    show (cache.put m.index s).byteAt? (s.entry + i) = _
    rw [hlaid'.byteAt?_eq hnew (by omega), hcode, Array.getElem?_toList]
  case others => exact fun index hne => by rw [hstub, if_neg hne]
  case retired => exact cache.put_retired m.index s

/-- Compiling is all or nothing, after any history. A compilation at run
time that does not end with a stub in place, and one of a native method that
fails, leave cache, manager and method as they were. One that succeeds has
made the entry point it gives, and no other record and no stub under another
index is touched. -/
theorem compileNative_atomic {events : List CodeEvent} {methods : List Method} {i : Nat}
    (h : CodeHistory events cache methods) (hvacant : cache.Vacant os)
    (hm : methods[i]? = some m) (c : StubCompiler) (shorty : String) :
    (∀ result cache' m', c.jitCompile cache os m shorty = (result, cache', m') →
        result ≠ .ok true → cache' = cache ∧ m' = m)
      ∧ (∀ e cache' m', c.compileNative cache os m shorty = (.error e, cache', m') →
        cache' = cache ∧ m' = m)
      ∧ ∀ entry cache' m', c.compileNative cache os m shorty = (.ok entry, cache', m') →
        c.Compiled shorty m cache entry cache' m'
          ∧ CodeHistory (.installed i m.index :: events) cache' (methods.set i m')
          ∧ ∀ j, j ≠ i → (methods.set i m')[j]? = methods[j]? := by
  refine ⟨fun result cache' m' hjit hne => ?_, fun e cache' m' hnative => ?_,
    fun entry cache' m' hnative => ?_⟩
  · obtain ⟨-, hsame⟩ | ⟨_, _, hok, -⟩ := jitCompile_cases hjit
    · exact hsame
    · exact absurd hok hne
  · obtain ⟨_, -, hsame⟩ | ⟨_, _, hok, -⟩ := compileNative_cases hnative
    · exact hsame
    · cases hok
  · obtain ⟨_, herror, -⟩ | ⟨stub, _, hok, hbuild, hinstall⟩ := compileNative_cases hnative
    · cases herror
    · cases hok
      refine ⟨compiled_of_install h.owned.laid hvacant hbuild hinstall,
        .installed h hvacant hm hinstall, fun j hj => ?_⟩
      exact List.getElem?_set_ne (Ne.symm hj)

-- ------------------------------------------- two methods of one index

/-- A system that has room at `base`, for a block of any size. -/
def roomAt (base : Nat) : MemorySystem where
  room? _ := some base

/-- The compiler of a runtime with nothing special about it. -/
def plain : StubCompiler := { isa := .x86_64 }

/-- Two static native methods that share an index: one has a stub in place,
and the other, a critical one, is compiled. -/
theorem shared_index : ∃ cache first second cache' second',
    CodeHistory [.installed 0 7] cache [first, second] ∧ first.index = 7 ∧ second.index = 7
      ∧ cache.Serves first ∧ cache.Vacant (roomAt 0x20000)
      ∧ plain.compileNative cache (roomAt 0x20000) second "V"
        = (.ok 0x20000, cache', second') := by
  have h₀ : CodeHistory [] { isa := .x86_64 }
      [{ address := 0x100, flags := 0x108, index := 7 },
        { address := 0x200, flags := 0x200108, index := 7 }] :=
    .fresh .x86_64 none (by decide)
  have h₁ := CodeHistory.installed (i := 0) h₀ (vacant_pageAt 0x10000 (by decide)) rfl
    (show CodeCache.install _ _ _ (idleStub 0) = _ from rfl)
  refine ⟨_, _, _, _, _, h₁, rfl, rfl, ⟨7, _, rfl, rfl, rfl⟩, ?_, Prod.ext ?_ rfl⟩
  · intro size base hroom s hs
    cases hroom
    cases List.mem_singleton.mp hs
    exact .inr (by decide)
  · cbv

/-- The method whose stub is in place loses it to the one that is compiled. -/
theorem compileNative_atomic_shared : ∃ cache first second cache' second',
    CodeHistory [.installed 0 7] cache [first, second]
      ∧ plain.compileNative cache (roomAt 0x20000) second "V"
        = (.ok 0x20000, cache', second')
      ∧ cache'.entryPoint? 7 = some 0x20000 ∧ second'.quickEntry = 0x20000
      ∧ cache'.retired = cache.retired ++ (cache.stub? 7).toList
      ∧ CodeHistory [.installed 1 7, .installed 0 7] cache' [first, second'] := by
  obtain ⟨cache, first, second, cache', second', h, -, hindex, -, hvacant, hnative⟩ := shared_index
  obtain ⟨-, -, hok⟩ := compileNative_atomic (i := 1) h hvacant rfl plain "V"
  obtain ⟨hcompiled, hhistory, -⟩ := hok _ _ _ hnative
  rw [hindex] at hhistory
  refine ⟨cache, first, second, cache', second', h, hnative, ?_, ?_, ?_, hhistory⟩
  · rw [← hindex]
    exact hcompiled.point
  · rw [hcompiled.method]
  · rw [← hindex]
    exact hcompiled.retired

/-- It is not so that compiling a method leaves every other method its live
stub: one that shares the index loses it. -/
theorem not_others_kept : ¬ ∀ (c : StubCompiler) (events : List CodeEvent) (cache : CodeCache)
    (methods : List Method) (os : MemorySystem) (i : Nat) (m : Method) (shorty : String),
    CodeHistory events cache methods → cache.Vacant os → methods[i]? = some m →
      ∀ entry cache' m', c.compileNative cache os m shorty = (.ok entry, cache', m') →
        ∀ j m₂, j ≠ i → methods[j]? = some m₂ → cache.Serves m₂ → cache'.Serves m₂ := by
  intro hall
  obtain ⟨cache, first, second, cache', second', h, hfirst, hsecond, hserves, hvacant, hnative⟩ :=
    shared_index
  have hkept := hall plain _ cache _ _ 1 second "V" h hvacant rfl _ _ _ hnative 0 first (by decide)
    rfl hserves
  obtain ⟨_, herror, -⟩ | ⟨stub, _, hok, -, hinstall⟩ := compileNative_cases hnative
  · cases herror
  · cases hok
    have hhistory := CodeHistory.installed (i := 1) h hvacant rfl hinstall
    have howner := hhistory.owned.owner_of_serves (i := 0) rfl hkept
    rw [hfirst, hsecond] at howner
    cases howner

end StubCompiler

end Crossing
