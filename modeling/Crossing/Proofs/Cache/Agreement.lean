import Crossing.Cache.Store
import Crossing.Proofs.Cache.Block
import Mathlib.Data.List.Nodup
import Mathlib.Data.List.Pairwise

/-
Three registries that have to agree: the cache's stubs, the ranges of the
fault manager, and the entry points in the methods. Installing changes all
three one after the other, a range is taken out by its start address alone,
and the memory of a released stub may be given out again.

What keeps them together is that the blocks of all stubs that are still
mapped, live and retired, lie apart (`Laid`). Every operation keeps that, as
long as new blocks come from where nothing is mapped; `Consistent` is what
follows for the registries, and `registries_agree` what can be read off them.
-/
namespace Crossing

-- ============================================================== blocks

namespace CodeMemory

/-- The blocks have no address in common. -/
def Apart (m n : CodeMemory) : Prop := m.base + m.size ≤ n.base ∨ n.base + n.size ≤ m.base

theorem Apart.symm {m n : CodeMemory} (h : m.Apart n) : n.Apart m := Or.symm h

/-- Whether an address lies in the block. -/
def covers (m : CodeMemory) (addr : Nat) : Bool := m.base ≤ addr && addr < m.base + m.size

theorem covers_iff {m : CodeMemory} {addr : Nat} :
    m.covers addr = true ↔ m.base ≤ addr ∧ addr < m.base + m.size := by
  simp [covers]

/-- An address lies in one block only. -/
theorem Apart.not_covers {m n : CodeMemory} (h : m.Apart n) {addr : Nat} (hm : m.covers addr)
    (hn : n.covers addr) : False := by
  rw [covers_iff] at hm hn
  rcases h with h | h
  · omega
  · omega

/-- A block made for some code is big enough and begins with it. -/
theorem ofCode_spec {code : List UInt8} {os : MemorySystem} {block : CodeMemory}
    (h : ofCode code os = .ok block) :
    os.room? block.size = some block.base ∧ 0 < code.length ∧ code.length ≤ block.size
      ∧ ∀ i, i < code.length → code[i]? = some (block.bytes i) := by
  cases hmap : map code.length os with
  | error e => rw [ofCode, hmap] at h; cases h
  | ok m =>
      rw [ofCode_of_map hmap] at h
      split at h
      case h_2 => cases h
      cases h
      obtain ⟨hpos, hpages, hroom, -⟩ := map_eq_ok_iff.mp hmap
      obtain ⟨hbase, hsize⟩ := run_place m [.write 0 code, .protect none]
      have hle := (wholePages_isLeast hpages).1.2
      refine ⟨by rw [hbase, hsize]; exact hroom, hpos, by rw [hsize]; exact hle, fun i hi => ?_⟩
      rw [← contents_getElem? (by rw [hsize]; exact Nat.lt_of_lt_of_le hi hle),
        (holds_of_map hmap _).contents, written_code hle, List.getElem?_append_left hi]

end CodeMemory

-- =============================================================== stubs

namespace InstalledStub

variable {s t : InstalledStub} {pc : Nat}

/-- The stubs' blocks lie apart. -/
def Apart (s t : InstalledStub) : Prop := s.memory.Apart t.memory

instance : Std.Symm Apart := ⟨fun _ _ h => h.symm⟩

/-- There is code, and it is in the stub's own block. -/
structure Sized (s : InstalledStub) : Prop where
  pos : 0 < s.codeSize
  fits : s.codeSize ≤ s.memory.size

theorem contains_iff : s.contains pc = true ↔ s.entry ≤ pc ∧ pc < s.entry + s.codeSize := by
  simp [contains]

theorem Sized.covers (h : s.Sized) (hpc : s.contains pc) : s.memory.covers pc = true := by
  obtain ⟨hle, hlt⟩ := contains_iff.mp hpc
  have hfits := h.fits
  rw [CodeMemory.covers_iff]
  unfold entry at hle hlt
  omega

theorem Sized.covers_entry (h : s.Sized) {i : Nat} (hi : i < s.codeSize) :
    s.memory.covers (s.entry + i) = true :=
  h.covers (contains_iff.mpr ⟨Nat.le_add_right _ _, Nat.add_lt_add_left hi _⟩)

/-- Code that lies apart starts at different addresses. -/
theorem Apart.entry_ne (h : s.Apart t) (hs : s.Sized) (ht : t.Sized) : s.entry ≠ t.entry := by
  intro heq
  apply CodeMemory.Apart.not_covers h (hs.covers_entry hs.pos)
  rw [heq]
  exact ht.covers_entry ht.pos

end InstalledStub

namespace CodeCache

variable {c : CodeCache} {index : UInt32} {s t old : InstalledStub} {pc : Nat}

/-- All stubs whose memory is still mapped. -/
def mapped (c : CodeCache) : List InstalledStub := c.stubs.map (·.2) ++ c.retired

/-- The byte at an address that belongs to the cache. -/
def byteAt? (c : CodeCache) (addr : Nat) : Option UInt8 :=
  (c.mapped.find? (·.memory.covers addr)).map fun s => s.memory.bytes (addr - s.entry)

/-- The address lies in the code of the live stub under an index. -/
def Live (c : CodeCache) (index : UInt32) (pc : Nat) : Prop :=
  ∃ s, c.stub? index = some s ∧ s.entry ≤ pc ∧ pc < s.entry + s.codeSize

/-- No two stubs stand under one index. -/
def Keyed (c : CodeCache) : Prop := (c.stubs.map (·.1)).Nodup

theorem Keyed.stub?_eq_some_iff (h : c.Keyed) : c.stub? index = some s ↔ (index, s) ∈ c.stubs := by
  unfold stub?
  constructor
  · intro hlookup
    obtain ⟨before, after, heq, -⟩ := List.lookup_eq_some_iff.mp hlookup
    rw [heq]
    exact List.mem_append_right _ List.mem_cons_self
  · intro hmem
    cases hlookup : c.stubs.lookup index with
    | none =>
        have hne := List.lookup_eq_none_iff.mp hlookup _ hmem
        simp at hne
    | some t =>
        obtain ⟨before, after, heq, -⟩ := List.lookup_eq_some_iff.mp hlookup
        have hmem' : (index, t) ∈ c.stubs := by
          rw [heq]
          exact List.mem_append_right _ List.mem_cons_self
        have hsame := List.inj_on_of_nodup_map h hmem' hmem rfl
        rw [(Prod.mk.inj hsame).2]

/-- The order of the table means nothing. -/
theorem Keyed.stub?_perm (h : c.Keyed) {stubs : List (UInt32 × InstalledStub)}
    (hperm : stubs.Perm c.stubs) (index : UInt32) :
    ({ c with stubs } : CodeCache).stub? index = c.stub? index := by
  have hkeyed : ({ c with stubs } : CodeCache).Keyed := (hperm.map Prod.fst).nodup_iff.mpr h
  apply Option.ext
  intro s
  rw [hkeyed.stub?_eq_some_iff, h.stub?_eq_some_iff]
  exact hperm.mem_iff

theorem mem_mapped_of_stub? (h : c.Keyed) (hstub : c.stub? index = some s) : s ∈ c.mapped :=
  List.mem_append_left _ (List.mem_map.mpr ⟨_, h.stub?_eq_some_iff.mp hstub, rfl⟩)

-- =============================================================== put

/-- What is in place when an index is free, and when it is taken: then the
new stub goes where the old one was. -/
theorem put_of_none (hstub : c.stub? index = none) :
    c.put index s = { c with
      stubs := c.stubs ++ [(index, s)], manager := c.manager.map (·.register s.range) } := by
  unfold put
  rw [hstub]

theorem put_of_some (h : c.Keyed) (hstub : c.stub? index = some old) : ∃ before after,
    c.stubs = before ++ (index, old) :: after
      ∧ (∀ p ∈ before ++ after, p.1 ≠ index)
      ∧ c.put index s = { c with
        stubs := before ++ (index, s) :: after
        retired := c.retired ++ [old]
        manager := (c.manager.map (·.register s.range)).map (·.unregister old.entry) } := by
  obtain ⟨before, after, heq, -⟩ := List.lookup_eq_some_iff.mp hstub
  have hothers : ∀ p ∈ before ++ after, p.1 ≠ index := by
    intro p hp hindex
    unfold Keyed at h
    rw [heq, List.map_append, List.map_cons, List.nodup_middle, List.nodup_cons,
      ← List.map_append] at h
    exact h.1 (List.mem_map.mpr ⟨p, hp, hindex⟩)
  refine ⟨before, after, heq, hothers, ?_⟩
  have hkeep : ∀ ps : List (UInt32 × InstalledStub), (∀ p ∈ ps, p.1 ≠ index) →
      (ps.map fun p => if p.1 = index then (index, s) else p) = ps := by
    intro ps hps
    rw [List.map_congr_left fun p hp => if_neg (hps p hp), List.map_id']
  have hstubs : (c.stubs.map fun p => if p.1 = index then (index, s) else p)
      = before ++ (index, s) :: after := by
    rw [heq, List.map_append, List.map_cons, if_pos rfl,
      hkeep before fun p hp => hothers p (List.mem_append_left _ hp),
      hkeep after fun p hp => hothers p (List.mem_append_right _ hp)]
  unfold put
  rw [hstub, ← hstubs]

/-- One more block is mapped, and none is given up. -/
theorem put_mapped (h : c.Keyed) (index : UInt32) (s : InstalledStub) :
    (c.put index s).mapped.Perm (s :: c.mapped) := by
  cases hstub : c.stub? index with
  | none =>
      rw [put_of_none hstub]
      simp only [mapped, List.map_append, List.map_cons, List.map_nil, List.append_assoc]
      exact List.perm_middle
  | some old =>
      obtain ⟨before, after, heq, -, hput⟩ := put_of_some (s := s) h hstub
      rw [hput]
      simp only [mapped, heq, List.map_append, List.map_cons, List.append_assoc, List.cons_append]
      refine List.perm_middle.trans (List.Perm.cons s ?_)
      refine List.Perm.append_left _ ?_
      rw [← List.append_assoc]
      exact List.perm_append_singleton _ _

/-- What stood under the index is retired, and nothing else. -/
theorem put_retired (c : CodeCache) (index : UInt32) (s : InstalledStub) :
    (c.put index s).retired = c.retired ++ (c.stub? index).toList := by
  unfold put
  cases c.stub? index with
  | none => exact (List.append_nil _).symm
  | some old => rfl

theorem mem_put (h : c.Keyed) {p : UInt32 × InstalledStub} :
    p ∈ (c.put index s).stubs ↔ p = (index, s) ∨ p ∈ c.stubs ∧ p.1 ≠ index := by
  cases hstub : c.stub? index with
  | none =>
      have hfree : p ∈ c.stubs → p.1 ≠ index := by
        intro hp
        have hne := List.lookup_eq_none_iff.mp hstub p hp
        simpa [ne_comm] using hne
      rw [put_of_none hstub]
      simp only [List.mem_append, List.mem_singleton]
      tauto
  | some old =>
      obtain ⟨before, after, heq, hothers, hput⟩ := put_of_some (s := s) h hstub
      have hother : p ∈ before ++ after → p.1 ≠ index := hothers p
      have hold : p = (index, old) → p.1 = index := by
        rintro rfl
        rfl
      rw [hput, heq]
      simp only [List.mem_append, List.mem_cons] at hother ⊢
      tauto

theorem Keyed.put (h : c.Keyed) (index : UInt32) (s : InstalledStub) : (c.put index s).Keyed := by
  unfold Keyed at h ⊢
  cases hstub : c.stub? index with
  | none =>
      rw [put_of_none hstub, List.map_append, List.nodup_append]
      refine ⟨h, List.nodup_singleton _, fun i hi j hj => ?_⟩
      obtain ⟨p, hp, rfl⟩ := List.mem_map.mp hi
      rw [List.mem_singleton.mp hj]
      have hne := List.lookup_eq_none_iff.mp hstub p hp
      simpa [ne_comm] using hne
  | some old =>
      obtain ⟨before, after, heq, -, hput⟩ := put_of_some (s := s) h hstub
      rw [hput]
      rw [heq] at h
      simpa using h

theorem put_stub? (h : c.Keyed) (index : UInt32) (s : InstalledStub) (i : UInt32) :
    (c.put index s).stub? i = if i = index then some s else c.stub? i := by
  apply Option.ext
  intro t
  rw [(h.put index s).stub?_eq_some_iff, mem_put h]
  split
  · next hi => simp [hi, eq_comm]
  · next hi => simp [hi, h.stub?_eq_some_iff]

-- ============================================================ install

/-- An installation that succeeds: the stub is in a block of its own that
begins with its code, and the method points there. -/
theorem install_ok {os : MemorySystem} {m m' : Method} {stub : Stub} {entry : Nat}
    {c' : CodeCache} (h : c.install os m stub = (.ok entry, c', m')) :
    ∃ s : InstalledStub, c' = c.put m.index s ∧ m' = { m with quickEntry := s.entry }
      ∧ s.method = m.address ∧ s.Sized ∧ s.code = stub.code.toList
      ∧ os.room? s.memory.size = some s.memory.base := by
  unfold install at h
  split at h
  · cases h
  · split at h
    · cases h
    · next block hblock =>
        obtain ⟨hroom, hpos, hle, hbytes⟩ := CodeMemory.ofCode_spec hblock
        rw [Array.length_toList] at hpos hle hbytes
        cases h
        refine ⟨_, rfl, rfl, rfl, ⟨hpos, hle⟩, ?_, hroom⟩
        apply List.ext_getElem?
        intro i
        show ((List.range stub.code.size).map fun i => block.bytes (0 + i))[i]? = _
        by_cases hi : i < stub.code.size
        · rw [hbytes i hi]
          simp [hi]
        · simp [hi]

/-- An installation that fails changes nothing. -/
theorem install_error {os : MemorySystem} {m m' : Method} {stub : Stub} {e : CacheError}
    {c' : CodeCache} (h : c.install os m stub = (.error e, c', m')) : c' = c ∧ m' = m := by
  unfold install at h
  split at h
  · cases h
    exact ⟨rfl, rfl⟩
  · split at h
    · cases h
      exact ⟨rfl, rfl⟩
    · cases h

/-- Where the system finds room, nothing of the cache's is mapped. -/
def Vacant (c : CodeCache) (os : MemorySystem) : Prop :=
  ∀ size base, os.room? size = some base → ∀ s ∈ c.mapped,
    base + size ≤ s.memory.base ∨ s.memory.base + s.memory.size ≤ base

-- ============================================================= layout

/-- Stubs are told apart by their indices, and mapped blocks by their
addresses. -/
structure Laid (c : CodeCache) : Prop where
  keyed : c.Keyed
  sized : ∀ s ∈ c.mapped, s.Sized
  apart : c.mapped.Pairwise InstalledStub.Apart

/-- A search finds what is the only thing to find. -/
theorem find?_eq_of_unique {α : Type} {xs : List α} {found : α → Bool} {x : α} (hx : x ∈ xs)
    (hfound : found x = true) (hunique : ∀ y ∈ xs, found y = true → y = x) :
    xs.find? found = some x := by
  have hsome : (xs.find? found).isSome := List.find?_isSome.mpr ⟨x, hx, hfound⟩
  obtain ⟨y, hy⟩ := Option.isSome_iff_exists.mp hsome
  rw [hy, hunique y (List.mem_of_find?_eq_some hy) (List.find?_some hy)]

namespace Laid

theorem fresh (isa : Isa) (manager : Option FaultManager) : ({ isa, manager } : CodeCache).Laid where
  keyed := List.nodup_nil
  sized := nofun
  apart := .nil

theorem put (h : c.Laid) (index : UInt32) (hsized : s.Sized) (hapart : ∀ t ∈ c.mapped, s.Apart t) :
    (c.put index s).Laid := by
  have hmapped := put_mapped h.keyed index s
  refine ⟨h.keyed.put index s, fun t ht => ?_, ?_⟩
  · rcases List.mem_cons.mp (hmapped.mem_iff.mp ht) with rfl | hold
    · exact hsized
    · exact h.sized t hold
  · rw [hmapped.pairwise_iff fun hst => hst.symm]
    exact .cons hapart h.apart

theorem release (h : c.Laid) : c.releaseRetired.Laid where
  keyed := h.keyed
  sized t ht := by
    rw [mapped, releaseRetired, List.append_nil] at ht
    exact h.sized t (List.mem_append_left _ ht)
  apart := by
    rw [mapped, releaseRetired, List.append_nil]
    exact (List.pairwise_append.mp h.apart).1

/-- An address lies in one mapped block only. -/
theorem mapped_unique (h : c.Laid) {addr : Nat} (hs : s ∈ c.mapped) (ht : t ∈ c.mapped)
    (hscovers : s.memory.covers addr) (htcovers : t.memory.covers addr) : s = t := by
  by_contra hne
  exact CodeMemory.Apart.not_covers (h.apart.forall hs ht hne) hscovers htcovers

/-- A byte of a live stub's code is found at its address. -/
theorem byteAt?_eq (h : c.Laid) (hstub : c.stub? index = some s) {i : Nat} (hi : i < s.codeSize) :
    c.byteAt? (s.entry + i) = s.code[i]? := by
  have hmem := mem_mapped_of_stub? h.keyed hstub
  have hcovers := (h.sized s hmem).covers_entry hi
  have hfind : c.mapped.find? (·.memory.covers (s.entry + i)) = some s :=
    find?_eq_of_unique hmem hcovers fun t ht htcovers => h.mapped_unique ht hmem htcovers hcovers
  rw [byteAt?, hfind, Option.map_some, Nat.add_sub_cancel_left]
  show some (s.memory.bytes i) = ((List.range s.codeSize).map fun i => s.memory.bytes (0 + i))[i]?
  simp [hi]

end Laid

end CodeCache

-- =============================================================== runs

/-- What has happened to a cache. -/
inductive CacheEvent where
  | installed (index : UInt32) (stub : Stub)
  | released

/-- The last stub installed under an index; the latest event is first. -/
def lastStub? : List CacheEvent → UInt32 → Option Stub
  | [], _ => none
  | .installed i stub :: earlier, index => if i = index then some stub else lastStub? earlier index
  | .released :: earlier, index => lastStub? earlier index

/-- How many installations since the last release replaced a stub. -/
def replacements : List CacheEvent → Nat
  | [] => 0
  | .installed index _ :: earlier =>
      replacements earlier + if (lastStub? earlier index).isSome then 1 else 0
  | .released :: _ => 0

/-- Runs of a cache that serves some methods. Stubs are kept in a table
whose order means nothing and may change at any time; a manager that is
attached knows of no code yet. -/
inductive CodeRun : List CacheEvent → CodeCache → List Method → Prop where
  | fresh (isa : Isa) {methods : List Method} : (methods.map (·.index)).Nodup →
      CodeRun [] { isa } methods
  | installed {events : List CacheEvent} {c c' : CodeCache} {methods : List Method}
      {os : MemorySystem} {i entry : Nat} {m m' : Method} {stub : Stub} :
      CodeRun events c methods → c.Vacant os → methods[i]? = some m →
      c.install os m stub = (.ok entry, c', m') →
      CodeRun (.installed m.index stub :: events) c' (methods.set i m')
  | failed {events : List CacheEvent} {c c' : CodeCache} {methods : List Method}
      {os : MemorySystem} {i : Nat} {m m' : Method} {stub : Stub} {e : CacheError} :
      CodeRun events c methods → methods[i]? = some m →
      c.install os m stub = (.error e, c', m') → CodeRun events c' (methods.set i m')
  | released {events : List CacheEvent} {c : CodeCache} {methods : List Method} :
      CodeRun events c methods → CodeRun (.released :: events) c.releaseRetired methods
  | attached {events : List CacheEvent} {c : CodeCache} {methods : List Method}
      {manager : FaultManager} : CodeRun events c methods → manager.ranges = [] →
      CodeRun events (c.attach manager) methods
  | reordered {events : List CacheEvent} {c : CodeCache} {methods : List Method}
      {stubs : List (UInt32 × InstalledStub)} : CodeRun events c methods → stubs.Perm c.stubs →
      CodeRun events { c with stubs } methods

namespace CodeCache

/-- The registries agree with each other and with what has happened. -/
structure Consistent (c : CodeCache) (methods : List Method) (events : List CacheEvent) : Prop where
  keyed : c.Keyed
  sized : ∀ s ∈ c.mapped, s.Sized
  apart : c.mapped.Pairwise InstalledStub.Apart
  ranges : ∀ {manager}, c.manager = some manager →
    ∀ r, r ∈ manager.ranges ↔ ∃ p ∈ c.stubs, p.2.range = r
  indices : (methods.map (·.index)).Nodup
  owned : ∀ p ∈ c.stubs, ∃ m ∈ methods,
    m.index = p.1 ∧ m.address = p.2.method ∧ m.quickEntry = p.2.entry
  last : ∀ index, (c.stub? index).map (·.code) = (lastStub? events index).map (·.code.toList)
  count : c.retired.length = replacements events

namespace Consistent

variable {c c' : CodeCache} {methods : List Method} {events : List CacheEvent} {pc : Nat}

theorem live_sized (h : c.Consistent methods events) {p : UInt32 × InstalledStub}
    (hp : p ∈ c.stubs) : p.2.Sized :=
  h.sized _ (List.mem_append_left _ (List.mem_map.mpr ⟨p, hp, rfl⟩))

theorem live_apart (h : c.Consistent methods events) :
    c.stubs.Pairwise fun p q => p.2.Apart q.2 :=
  List.pairwise_map.mp (List.pairwise_append.mp h.apart).1

/-- An address lies in the code of one live stub only. -/
theorem live_unique (h : c.Consistent methods events) {p q : UInt32 × InstalledStub}
    (hp : p ∈ c.stubs) (hq : q ∈ c.stubs) (hpcontains : p.2.contains pc)
    (hqcontains : q.2.contains pc) : p = q := by
  by_contra hne
  have : Std.Symm fun p q : UInt32 × InstalledStub => p.2.Apart q.2 := ⟨fun _ _ h => h.symm⟩
  have hapart := h.live_apart.forall hp hq hne
  exact CodeMemory.Apart.not_covers hapart ((h.live_sized hp).covers hpcontains)
    ((h.live_sized hq).covers hqcontains)

theorem laid (h : c.Consistent methods events) : c.Laid := ⟨h.keyed, h.sized, h.apart⟩

-- One lemma for each way a run goes on.

theorem fresh (isa : Isa) (hindices : (methods.map (·.index)).Nodup) :
    ({ isa } : CodeCache).Consistent methods [] where
  keyed := List.nodup_nil
  sized := nofun
  apart := .nil
  ranges := nofun
  indices := hindices
  owned := nofun
  last _ := rfl
  count := rfl

theorem release (h : c.Consistent methods events) :
    c.releaseRetired.Consistent methods (.released :: events) where
  keyed := h.laid.release.keyed
  sized := h.laid.release.sized
  apart := h.laid.release.apart
  ranges := h.ranges
  indices := h.indices
  owned := h.owned
  last := h.last
  count := rfl

theorem reorder (h : c.Consistent methods events) {stubs : List (UInt32 × InstalledStub)}
    (hperm : stubs.Perm c.stubs) : ({ c with stubs } : CodeCache).Consistent methods events := by
  have hkeyed : ({ c with stubs } : CodeCache).Keyed :=
    (hperm.map Prod.fst).nodup_iff.mpr h.keyed
  have hmapped : ({ c with stubs } : CodeCache).mapped.Perm c.mapped :=
    (hperm.map Prod.snd).append_right _
  refine ⟨hkeyed, ?_, ?_, ?_, h.indices, ?_, ?_, h.count⟩
  · exact fun s hs => h.sized s (hmapped.mem_iff.mp hs)
  · exact (hmapped.pairwise_iff fun hst => hst.symm).mpr h.apart
  · intro manager hmanager r
    rw [h.ranges hmanager]
    exact exists_congr fun p => and_congr_left fun _ => hperm.mem_iff.symm
  · exact fun p hp => h.owned p (hperm.mem_iff.mp hp)
  · intro index
    rw [h.keyed.stub?_perm hperm]
    exact h.last index

theorem foldl_register (manager : FaultManager) (stubs : List (UInt32 × InstalledStub)) :
    (stubs.foldl (fun m s => m.register s.2.range) manager).ranges
      = manager.ranges ++ stubs.map (·.2.range) := by
  induction stubs generalizing manager with
  | nil => rw [List.map_nil, List.append_nil]; rfl
  | cons p stubs ih =>
      rw [List.foldl_cons, ih]
      simp [FaultManager.register]

theorem attach (h : c.Consistent methods events) {manager : FaultManager}
    (hempty : manager.ranges = []) : (c.attach manager).Consistent methods events := by
  refine ⟨h.keyed, h.sized, h.apart, ?_, h.indices, h.owned, h.last, h.count⟩
  intro manager' hmanager' r
  cases hmanager'
  rw [foldl_register, hempty, List.nil_append, List.mem_map]
  rfl

/-- The manager is told of the new stub and then forgets the old one, which
starts elsewhere. -/
theorem put_ranges (h : c.Consistent methods events) {index : UInt32} {s : InstalledStub}
    (hsized : s.Sized) (hapart : ∀ t ∈ c.mapped, s.Apart t) {manager : FaultManager}
    (hmanager : (c.put index s).manager = some manager) (r : CodeRange) :
    r ∈ manager.ranges ↔ ∃ p ∈ (c.put index s).stubs, p.2.range = r := by
  have hmem : (∃ p ∈ (c.put index s).stubs, p.2.range = r)
      ↔ r = s.range ∨ ∃ p ∈ c.stubs, p.1 ≠ index ∧ p.2.range = r := by
    constructor
    · rintro ⟨p, hp, rfl⟩
      rcases (mem_put h.keyed).mp hp with rfl | ⟨hold, hne⟩
      · exact .inl rfl
      · exact .inr ⟨p, hold, hne, rfl⟩
    · rintro (rfl | ⟨p, hp, hne, rfl⟩)
      · exact ⟨(index, s), (mem_put h.keyed).mpr (.inl rfl), rfl⟩
      · exact ⟨p, (mem_put h.keyed).mpr (.inr ⟨hp, hne⟩), rfl⟩
  rw [hmem]
  cases hstub : c.stub? index with
  | none =>
      rw [put_of_none hstub] at hmanager
      obtain ⟨before, hbefore, rfl⟩ := Option.map_eq_some_iff.mp hmanager
      have hfree : ∀ p ∈ c.stubs, p.1 ≠ index := by
        rintro p hp rfl
        have hsome := h.keyed.stub?_eq_some_iff.mpr hp
        rw [hstub] at hsome
        cases hsome
      show r ∈ before.ranges ++ [s.range] ↔ _
      rw [List.mem_append, List.mem_singleton, h.ranges hbefore, or_comm]
      refine or_congr_right (exists_congr fun p => and_congr_right fun hp => ?_)
      exact ⟨fun hr => ⟨hfree p hp, hr⟩, fun hr => hr.2⟩
  | some old =>
      obtain ⟨_, _, -, -, hput⟩ := put_of_some (s := s) h.keyed hstub
      rw [hput] at hmanager
      obtain ⟨told, htold, rfl⟩ := Option.map_eq_some_iff.mp hmanager
      obtain ⟨before, hbefore, rfl⟩ := Option.map_eq_some_iff.mp htold
      have holdmem := mem_mapped_of_stub? h.keyed hstub
      have hlive := h.keyed.stub?_eq_some_iff.mp hstub
      have hnew : s.range.start ≠ old.entry :=
        (hapart old holdmem).entry_ne hsized (h.sized old holdmem)
      -- live stubs start at different addresses, so only the old one goes
      have hothers : ∀ p ∈ c.stubs, (p.2.range.start ≠ old.entry ↔ p.1 ≠ index) := by
        intro p hp
        constructor
        · rintro hstart rfl
          have hsame := List.inj_on_of_nodup_map h.keyed hp hlive rfl
          rw [hsame] at hstart
          exact hstart rfl
        · intro hindex hstart
          have hcontains : p.2.contains old.entry := by
            rw [InstalledStub.contains_iff, ← hstart]
            exact ⟨Nat.le_refl _, Nat.lt_add_of_pos_right (h.live_sized hp).pos⟩
          have holdcontains : old.contains old.entry := by
            rw [InstalledStub.contains_iff]
            exact ⟨Nat.le_refl _, Nat.lt_add_of_pos_right (h.sized old holdmem).pos⟩
          exact hindex (congrArg Prod.fst (h.live_unique hp hlive hcontains holdcontains))
      show r ∈ (before.ranges ++ [s.range]).filter _ ↔ _
      rw [List.mem_filter, decide_eq_true_iff, List.mem_append, List.mem_singleton,
        h.ranges hbefore]
      constructor
      · rintro ⟨⟨p, hp, rfl⟩ | rfl, hstart⟩
        · exact .inr ⟨p, hp, (hothers p hp).mp hstart, rfl⟩
        · exact .inl rfl
      · rintro (rfl | ⟨p, hp, hindex, rfl⟩)
        · exact ⟨.inr rfl, hnew⟩
        · exact ⟨.inl ⟨p, hp, rfl⟩, (hothers p hp).mpr hindex⟩

/-- Replacing a method by one with the same index changes no index, and
leaves methods with other indices where they are. -/
theorem map_index_set {i : Nat} {m m' : Method} (hm : methods[i]? = some m)
    (hindex : m'.index = m.index) :
    (methods.set i m').map (·.index) = methods.map (·.index) := by
  rw [List.map_set, hindex]
  apply List.ext_getElem?
  intro j
  rw [List.getElem?_set]
  split
  · next hij =>
      subst hij
      split
      · rw [List.getElem?_map, hm]
        rfl
      · next hlen => rw [List.getElem?_eq_none (Nat.le_of_not_lt hlen)]
  · rfl

theorem mem_set_of_index {i : Nat} {m m' m₂ : Method} (hm : methods[i]? = some m)
    (hm₂ : m₂ ∈ methods) (hindex : m₂.index ≠ m.index) : m₂ ∈ methods.set i m' := by
  obtain ⟨j, hj⟩ := List.mem_iff_getElem?.mp hm₂
  refine List.mem_iff_getElem?.mpr ⟨j, ?_⟩
  rw [List.getElem?_set_ne]
  · exact hj
  · rintro rfl
    rw [hm] at hj
    cases hj
    exact hindex rfl

theorem install (h : c.Consistent methods events) {os : MemorySystem} {i entry : Nat}
    {m m' : Method} {stub : Stub} (hvacant : c.Vacant os) (hm : methods[i]? = some m)
    (hinstall : c.install os m stub = (.ok entry, c', m')) :
    c'.Consistent (methods.set i m') (.installed m.index stub :: events) := by
  obtain ⟨s, rfl, rfl, hmethod, hsized, hcode, hroom⟩ := install_ok hinstall
  have hapart : ∀ t ∈ c.mapped, s.Apart t := fun t ht => hvacant _ _ hroom t ht
  have hlaid : (c.put m.index s).Laid := h.laid.put m.index hsized hapart
  constructor
  case keyed => exact hlaid.keyed
  case sized => exact hlaid.sized
  case apart => exact hlaid.apart
  case ranges => exact h.put_ranges hsized hapart
  case indices =>
    have hsame : (methods.set i { m with quickEntry := s.entry }).map (·.index)
        = methods.map (·.index) := map_index_set hm rfl
    rw [hsame]
    exact h.indices
  case owned =>
    intro p hp
    rcases (mem_put h.keyed).mp hp with rfl | ⟨hold, hne⟩
    · have hlen : i < methods.length := by
        obtain ⟨hlen, -⟩ := List.getElem?_eq_some_iff.mp hm
        exact hlen
      exact ⟨_, List.mem_set hlen _, rfl, hmethod.symm, rfl⟩
    · obtain ⟨m₂, hm₂, hindex, hrest⟩ := h.owned p hold
      exact ⟨m₂, mem_set_of_index hm hm₂ (by rw [hindex]; exact hne), hindex, hrest⟩
  case last =>
    intro index
    rw [put_stub? h.keyed, lastStub?]
    by_cases heq : index = m.index
    · rw [if_pos heq, if_pos heq.symm, Option.map_some, Option.map_some, hcode]
    · rw [if_neg heq, if_neg (Ne.symm heq)]
      exact h.last index
  case count =>
    have hlast := congrArg Option.isSome (h.last m.index)
    rw [Option.isSome_map, Option.isSome_map] at hlast
    rw [put_retired, List.length_append, Option.length_toList, h.count, replacements, hlast]

-- What can be read off consistent registries.

/-- The range that the manager finds is that of the live stub. -/
theorem range?_eq_some_iff (h : c.Consistent methods events) {manager : FaultManager}
    (hmanager : c.manager = some manager) {r : CodeRange} :
    manager.range? pc = some r ↔ ∃ p ∈ c.stubs, p.2.contains pc ∧ p.2.range = r := by
  constructor
  · intro hr
    have hcontains := List.find?_some hr
    obtain ⟨p, hp, rfl⟩ := (h.ranges hmanager r).mp (List.mem_of_find?_eq_some hr)
    exact ⟨p, hp, hcontains, rfl⟩
  · rintro ⟨p, hp, hcontains, rfl⟩
    apply find?_eq_of_unique ((h.ranges hmanager _).mpr ⟨p, hp, rfl⟩) hcontains
    intro r hr hrcontains
    obtain ⟨q, hq, rfl⟩ := (h.ranges hmanager r).mp hr
    rw [h.live_unique hq hp hrcontains hcontains]

theorem lookup?_eq_some_iff (h : c.Consistent methods events) {index : UInt32} :
    c.lookup? pc = some index ↔ c.Live index pc := by
  unfold lookup? Live
  constructor
  · intro hlookup
    obtain ⟨p, hfind, rfl⟩ := Option.map_eq_some_iff.mp hlookup
    have hstub := h.keyed.stub?_eq_some_iff.mpr (List.mem_of_find?_eq_some hfind)
    have hcontains := List.find?_some hfind
    exact ⟨p.2, hstub, InstalledStub.contains_iff.mp hcontains⟩
  · rintro ⟨s, hstub, hrange⟩
    have hlive := h.keyed.stub?_eq_some_iff.mp hstub
    have hcontains : s.contains pc = true := InstalledStub.contains_iff.mpr hrange
    have hfind : (c.stubs.find? fun p => p.2.contains pc) = some (index, s) :=
      find?_eq_of_unique hlive hcontains fun q hq hqcontains =>
        h.live_unique hq hlive hqcontains hcontains
    rw [hfind]
    rfl

/-- An installed method points at its last stub. -/
theorem installed (h : c.Consistent methods events) {m : Method} (hm : m ∈ methods) {stub : Stub}
    (hlast : lastStub? events m.index = some stub) :
    ∃ s, c.stub? m.index = some s ∧ s.entry = m.quickEntry ∧ s.code = stub.code.toList := by
  have hcode := h.last m.index
  rw [hlast] at hcode
  obtain ⟨s, hstub, hcode⟩ := Option.map_eq_some_iff.mp hcode
  obtain ⟨m₂, hm₂, hindex, -, hentry⟩ := h.owned _ (h.keyed.stub?_eq_some_iff.mp hstub)
  have hsame := List.inj_on_of_nodup_map h.indices hm₂ hm hindex
  rw [hsame] at hentry
  exact ⟨s, hstub, hentry.symm, hcode⟩

end Consistent

end CodeCache

/-- The registries agree after every run. -/
theorem CodeRun.consistent {events : List CacheEvent} {c : CodeCache} {methods : List Method}
    (h : CodeRun events c methods) : c.Consistent methods events := by
  induction h with
  | fresh isa hindices => exact .fresh isa hindices
  | installed _ hvacant hm hinstall ih => exact ih.install hvacant hm hinstall
  | failed _ hm hinstall ih =>
      obtain ⟨rfl, rfl⟩ := CodeCache.install_error hinstall
      obtain ⟨hlen, rfl⟩ := List.getElem?_eq_some_iff.mp hm
      rw [List.set_getElem_self]
      exact ih
  | released _ ih => exact ih.release
  | attached _ hempty ih => exact ih.attach hempty
  | reordered _ hperm ih => exact ih.reorder hperm

/-- Once a manager is attached, after any run and whatever order the table
is in: the manager counts exactly the code of live stubs as generated code
and knows whose it is, looking an address up finds the stub it is in, every
method with a stub points at the code that was installed for it last, and
what was replaced since the last release is still there. -/
theorem CodeRun.registries_agree {events : List CacheEvent} {c : CodeCache} {methods : List Method}
    {manager : FaultManager} (h : CodeRun events c methods) (hmanager : c.manager = some manager) :
    (∀ pc, manager.inGeneratedCode pc = true ↔ ∃ index, c.Live index pc)
      ∧ (∀ pc index, c.Live index pc → ∃ m ∈ methods, m.index = index
          ∧ ∃ r, manager.range? pc = some r ∧ r.method = m.address)
      ∧ (∀ stubs, stubs.Perm c.stubs → ∀ pc index,
          ({ c with stubs } : CodeCache).lookup? pc = some index ↔ c.Live index pc)
      ∧ (∀ m ∈ methods, ∀ stub, lastStub? events m.index = some stub →
          c.entryPoint? m.index = some m.quickEntry
            ∧ ∀ i, i < stub.code.size → c.byteAt? (m.quickEntry + i) = stub.code[i]?)
      ∧ c.retired.length = replacements events := by
  have hconsistent := h.consistent
  have hkeyed := hconsistent.keyed
  refine ⟨fun pc => ?_, fun pc index hlive => ?_, fun stubs hperm pc index => ?_,
    fun m hm stub hlast => ?_, hconsistent.count⟩
  · rw [FaultManager.inGeneratedCode, Option.isSome_iff_exists]
    constructor
    · rintro ⟨r, hr⟩
      obtain ⟨p, hp, hcontains, -⟩ := (hconsistent.range?_eq_some_iff hmanager).mp hr
      exact ⟨p.1, p.2, hkeyed.stub?_eq_some_iff.mpr hp, InstalledStub.contains_iff.mp hcontains⟩
    · rintro ⟨index, s, hstub, hrange⟩
      exact ⟨s.range, (hconsistent.range?_eq_some_iff hmanager).mpr
        ⟨_, hkeyed.stub?_eq_some_iff.mp hstub, InstalledStub.contains_iff.mpr hrange, rfl⟩⟩
  · obtain ⟨s, hstub, hrange⟩ := hlive
    have hmem := hkeyed.stub?_eq_some_iff.mp hstub
    obtain ⟨m, hm, hindex, haddress, -⟩ := hconsistent.owned _ hmem
    refine ⟨m, hm, hindex, s.range, ?_, haddress.symm⟩
    exact (hconsistent.range?_eq_some_iff hmanager).mpr
      ⟨_, hmem, InstalledStub.contains_iff.mpr hrange, rfl⟩
  · rw [(hconsistent.reorder hperm).lookup?_eq_some_iff]
    unfold CodeCache.Live
    rw [hkeyed.stub?_perm hperm]
  · obtain ⟨s, hstub, hentry, hcode⟩ := hconsistent.installed hm hlast
    constructor
    · rw [CodeCache.entryPoint?, hstub, Option.map_some, hentry]
    · intro i hi
      have hsize : s.codeSize = stub.code.size := by
        have hlength := congrArg List.length hcode
        simpa [InstalledStub.code, CodeMemory.read] using hlength
      rw [← hentry, hconsistent.laid.byteAt?_eq hstub (by omega), hcode, Array.getElem?_toList]

-- --------------------------------------------- a run that reuses memory

/-- A system with one page of 4 KiB left, at `base`. -/
def pageAt (base : Nat) : MemorySystem where
  room? size := if size = 0x1000 then some base else none

theorem vacant_pageAt {c : CodeCache} (base : Nat) (h : ∀ s ∈ c.mapped,
    base + 0x1000 ≤ s.memory.base ∨ s.memory.base + s.memory.size ≤ base) :
    c.Vacant (pageAt base) := by
  intro size base' hroom
  simp only [pageAt] at hroom
  split at hroom
  · next hsize =>
      cases hroom
      rw [hsize]
      exact h
  · cases hroom

/-- A stub that does nothing and returns. -/
def idleStub (steps : Nat) : Stub where
  isa := .x86_64
  shorty := "V"
  kind := .normal
  isStatic := true
  frameSize := 0
  outArgsSize := 0
  code := Array.replicate steps 0x90 ++ #[0xc3]

/-- A method's stub is replaced and its memory released; the next method
gets that memory. -/
theorem registries_agree_reused : ∃ events c methods manager, CodeRun events c methods
    ∧ c.manager = some manager ∧ lastStub? events 9 = some (idleStub 1)
    ∧ c.Live 9 0x10001 ∧ manager.inGeneratedCode 0x10001 = true ∧ c.lookup? 0x10001 = some 9
    ∧ c.byteAt? 0x10001 = some 0xc3 ∧ c.retired.length = 0 := by
  have h₀ : CodeRun [] { isa := .x86_64 }
      [{ address := 0x100, flags := 0, index := 7 }, { address := 0x200, flags := 0, index := 9 }] :=
    .fresh .x86_64 (by decide)
  have h₁ := CodeRun.installed (i := 0) h₀ (vacant_pageAt 0x10000 (by decide)) rfl
    (show CodeCache.install _ _ _ (idleStub 0) = _ from rfl)
  have h₂ := CodeRun.attached h₁ (show (FaultManager.ofChecks .x86_64 {}).ranges = [] from rfl)
  have h₃ := CodeRun.installed (i := 0) h₂ (vacant_pageAt 0x20000 (by decide)) rfl
    (show CodeCache.install _ _ _ (idleStub 2) = _ from rfl)
  have h₄ := CodeRun.installed (i := 1) h₃.released (vacant_pageAt 0x10000 (by decide)) rfl
    (show CodeCache.install _ _ _ (idleStub 1) = _ from rfl)
  obtain ⟨hknown, -, hlookup, hmethods, hretired⟩ := h₄.registries_agree rfl
  have hlive := (hlookup _ (.refl _) 0x10001 9).mp rfl
  refine ⟨_, _, _, _, h₄, rfl, rfl, hlive, (hknown _).mpr ⟨9, hlive⟩, rfl, ?_, hretired⟩
  exact (hmethods _ (List.mem_cons_of_mem _ List.mem_cons_self) (idleStub 1) rfl).2 1 (by decide)

end Crossing
