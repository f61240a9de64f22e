import Crossing.Proofs.Cache.Agreement

/-
Whose code a method points at. The cache keeps stubs by method index, while
entry points stand in the method records, and nothing keeps two records from
having the same index. Installing for one of them then retires the stub of
the other, whose entry point stays where it was.

`CodeHistory` is what can happen to a cache and to the records it serves.
Under every index stands the stub of the record that was last installed
under it (`Owned`), so a record's own stub is live just as long as no other
record with its index is installed: `serves_iff`.
-/
namespace Crossing

/-- What has happened to a cache and to the numbered records it serves. -/
inductive CodeEvent where
  | installed (record : Nat) (index : UInt32)
  /-- Somebody else has set the entry point of a record. -/
  | redirected (record : Nat)
  | released
deriving DecidableEq

/-- Whether the entry point of a record was last set by an installation; the
latest event is first. -/
def isPointed : List CodeEvent → Nat → Bool
  | [], _ => false
  | .installed j _ :: earlier, i => j = i || isPointed earlier i
  | .redirected j :: earlier, i => j ≠ i && isPointed earlier i
  | .released :: earlier, i => isPointed earlier i

/-- The record that was last installed under an index. -/
def lastOwner? : List CodeEvent → UInt32 → Option Nat
  | [], _ => none
  | .installed i k :: earlier, index => if k = index then some i else lastOwner? earlier index
  | .redirected _ :: earlier, index | .released :: earlier, index => lastOwner? earlier index

/-- Histories of a cache and of the records it serves. The records lie at
different addresses; their indices are whatever they are. -/
inductive CodeHistory : List CodeEvent → CodeCache → List Method → Prop where
  | fresh (isa : Isa) (manager : Option FaultManager) {methods : List Method} :
      (methods.map (·.address)).Nodup → CodeHistory [] { isa, manager } methods
  | installed {events : List CodeEvent} {c c' : CodeCache} {methods : List Method}
      {os : MemorySystem} {i entry : Nat} {m m' : Method} {stub : Stub} :
      CodeHistory events c methods → c.Vacant os → methods[i]? = some m →
      c.install os m stub = (.ok entry, c', m') →
      CodeHistory (.installed i m.index :: events) c' (methods.set i m')
  | failed {events : List CodeEvent} {c c' : CodeCache} {methods : List Method}
      {os : MemorySystem} {i : Nat} {m m' : Method} {stub : Stub} {e : CacheError} :
      CodeHistory events c methods → methods[i]? = some m →
      c.install os m stub = (.error e, c', m') → CodeHistory events c' (methods.set i m')
  | released {events : List CodeEvent} {c : CodeCache} {methods : List Method} :
      CodeHistory events c methods → CodeHistory (.released :: events) c.releaseRetired methods
  | attached {events : List CodeEvent} {c : CodeCache} {methods : List Method}
      (manager : FaultManager) : CodeHistory events c methods →
      CodeHistory events (c.attach manager) methods
  | redirected {events : List CodeEvent} {c : CodeCache} {methods : List Method} {i : Nat}
      {m : Method} (quickEntry : Nat) : CodeHistory events c methods → methods[i]? = some m →
      CodeHistory (.redirected i :: events) c (methods.set i { m with quickEntry })
  | registered {events : List CodeEvent} {c : CodeCache} {methods : List Method} {i : Nat}
      {m : Method} (jniEntry : Nat) : CodeHistory events c methods → methods[i]? = some m →
      CodeHistory events c (methods.set i { m with jniEntry })

-- ============================================================ records

section Records

variable {methods : List Method} {i j : Nat} {m m' : Method}

theorem map_address_set (hm : methods[i]? = some m) (haddress : m'.address = m.address) :
    (methods.set i m').map (·.address) = methods.map (·.address) := by
  have hsame : (methods.map (·.address))[i]? = some m.address := by rw [List.getElem?_map, hm]; rfl
  obtain ⟨hlen, heq⟩ := List.getElem?_eq_some_iff.mp hsame
  rw [List.map_set, haddress, ← heq, List.set_getElem_self]

/-- Records lie at different addresses. -/
theorem eq_of_address (h : (methods.map (·.address)).Nodup) (hi : methods[i]? = some m)
    (hj : methods[j]? = some m') (haddress : m.address = m'.address) : i = j := by
  have hsame : (methods.map (·.address))[i]? = (methods.map (·.address))[j]? := by
    rw [List.getElem?_map, List.getElem?_map, hi, hj, Option.map_some, Option.map_some, haddress]
  have hlen : i < (methods.map (·.address)).length := by
    rw [List.length_map]
    exact (List.getElem?_eq_some_iff.mp hi).1
  exact (List.getElem?_inj hlen h).mp hsame

theorem getElem?_set_record (hm : methods[i]? = some m) (j : Nat) :
    (methods.set i m')[j]? = if j = i then some m' else methods[j]? := by
  obtain ⟨hlen, -⟩ := List.getElem?_eq_some_iff.mp hm
  rw [List.getElem?_set]
  by_cases hij : i = j
  · rw [if_pos hij, if_pos hij.symm, if_pos hlen]
  · rw [if_neg hij, if_neg (Ne.symm hij)]

end Records

namespace CodeCache

-- ============================================================== owners

/-- A record's entry point lies in a live stub that is the record's own. -/
def Serves (c : CodeCache) (m : Method) : Prop :=
  ∃ index s, c.stub? index = some s ∧ s.method = m.address ∧ s.contains m.quickEntry = true

/-- Under every index stands the stub of the record that was installed there
last, and the record points at it unless somebody else has redirected it. -/
structure Owned (c : CodeCache) (methods : List Method) (events : List CodeEvent) : Prop where
  laid : c.Laid
  addresses : (methods.map (·.address)).Nodup
  owner : ∀ {index s}, c.stub? index = some s → ∃ i m, lastOwner? events index = some i
    ∧ methods[i]? = some m ∧ m.index = index ∧ m.address = s.method
    ∧ (isPointed events i = true → m.quickEntry = s.entry)
  stub : ∀ {index i}, lastOwner? events index = some i → (c.stub? index).isSome

namespace Owned

variable {c c' : CodeCache} {methods : List Method} {events : List CodeEvent} {i : Nat}
  {m : Method}

theorem fresh (isa : Isa) (manager : Option FaultManager)
    (haddresses : (methods.map (·.address)).Nodup) :
    ({ isa, manager } : CodeCache).Owned methods [] where
  laid := .fresh isa manager
  addresses := haddresses
  owner := nofun
  stub := nofun

theorem release (h : c.Owned methods events) :
    c.releaseRetired.Owned methods (.released :: events) where
  laid := h.laid.release
  addresses := h.addresses
  owner := h.owner
  stub := h.stub

theorem attach (h : c.Owned methods events) (manager : FaultManager) :
    (c.attach manager).Owned methods events where
  laid := ⟨h.laid.keyed, h.laid.sized, h.laid.apart⟩
  addresses := h.addresses
  owner := h.owner
  stub := h.stub

/-- A record is changed by others; if its entry point is, it does not count
as pointed any more. -/
theorem edit (h : c.Owned methods events) (hm : methods[i]? = some m) (m' : Method)
    (haddress : m'.address = m.address) (hindex : m'.index = m.index) {events' : List CodeEvent}
    (howner : ∀ index, lastOwner? events' index = lastOwner? events index)
    (hpointed : ∀ j, isPointed events' j = true →
      isPointed events j = true ∧ (j = i → m'.quickEntry = m.quickEntry)) :
    c.Owned (methods.set i m') events' where
  laid := h.laid
  addresses := by
    rw [map_address_set hm haddress]
    exact h.addresses
  owner {index s} hstub := by
    obtain ⟨j, m₂, hlast, hm₂, hindex₂, haddress₂, hentry⟩ := h.owner hstub
    by_cases hij : j = i
    · subst hij
      rw [hm] at hm₂
      cases hm₂
      refine ⟨j, m', (howner index).trans hlast, ?_, hindex.trans hindex₂, haddress.trans haddress₂,
        fun hj => ?_⟩
      · rw [getElem?_set_record hm, if_pos rfl]
      · obtain ⟨hbefore, hsame⟩ := hpointed j hj
        exact (hsame rfl).trans (hentry hbefore)
    · refine ⟨j, m₂, (howner index).trans hlast, ?_, hindex₂, haddress₂, fun hj => ?_⟩
      · rw [getElem?_set_record hm, if_neg hij]
        exact hm₂
      · exact hentry (hpointed j hj).1
  stub hlast := h.stub ((howner _).symm.trans hlast)

theorem install (h : c.Owned methods events) {os : MemorySystem} {entry : Nat}
    {stub : Stub} {m' : Method} (hvacant : c.Vacant os) (hm : methods[i]? = some m)
    (hinstall : c.install os m stub = (.ok entry, c', m')) :
    c'.Owned (methods.set i m') (.installed i m.index :: events) := by
  obtain ⟨s, rfl, rfl, hmethod, hsized, -, hroom⟩ := install_ok hinstall
  constructor
  case laid => exact h.laid.put m.index hsized fun t ht => hvacant _ _ hroom t ht
  case addresses =>
    have hsame : (methods.set i { m with quickEntry := s.entry }).map (·.address)
        = methods.map (·.address) := map_address_set hm rfl
    rw [hsame]
    exact h.addresses
  case owner =>
    intro index t hstub
    rw [put_stub? h.laid.keyed] at hstub
    split at hstub
    · next hindex =>
        cases hstub
        refine ⟨i, { m with quickEntry := s.entry }, if_pos hindex.symm, ?_, hindex.symm,
          hmethod.symm, fun _ => rfl⟩
        rw [getElem?_set_record hm, if_pos rfl]
    · next hindex =>
        -- the stub of another index is another record's
        obtain ⟨j, m₂, hlast, hm₂, hindex₂, haddress₂, hentry⟩ := h.owner hstub
        have hij : j ≠ i := by
          rintro rfl
          rw [hm] at hm₂
          cases hm₂
          exact hindex hindex₂.symm
        refine ⟨j, m₂, ?_, ?_, hindex₂, haddress₂, fun hj => hentry ?_⟩
        · rw [lastOwner?, if_neg (Ne.symm hindex), hlast]
        · rw [getElem?_set_record hm, if_neg hij]
          exact hm₂
        · simpa [isPointed, Ne.symm hij] using hj
  case stub =>
    intro index j hlast
    rw [put_stub? h.laid.keyed]
    split
    · rfl
    · next hindex =>
        rw [lastOwner?, if_neg (Ne.symm hindex)] at hlast
        exact h.stub hlast

/-- A live stub belongs to the record that was last installed under its
index. -/
theorem owner_of_serves (h : c.Owned methods events) (hm : methods[i]? = some m)
    (hserves : c.Serves m) : lastOwner? events m.index = some i := by
  obtain ⟨index, s, hstub, hmethod, -⟩ := hserves
  obtain ⟨j, m₂, hlast, hm₂, hindex, haddress, -⟩ := h.owner hstub
  have hij : j = i := eq_of_address h.addresses hm₂ hm (haddress.trans hmethod)
  subst hij
  rw [hm] at hm₂
  cases hm₂
  rw [hindex]
  exact hlast

theorem serves_of_owner (h : c.Owned methods events) (hm : methods[i]? = some m)
    (hpointed : isPointed events i = true) (hlast : lastOwner? events m.index = some i) :
    c.Serves m := by
  obtain ⟨s, hstub⟩ := Option.isSome_iff_exists.mp (h.stub hlast)
  obtain ⟨j, m₂, hlast₂, hm₂, -, haddress, hentry⟩ := h.owner hstub
  rw [hlast] at hlast₂
  cases hlast₂
  rw [hm] at hm₂
  cases hm₂
  have hsized := h.laid.sized s (mem_mapped_of_stub? h.laid.keyed hstub)
  refine ⟨m.index, s, hstub, haddress.symm, InstalledStub.contains_iff.mpr ?_⟩
  rw [hentry hpointed]
  exact ⟨Nat.le_refl _, Nat.lt_add_of_pos_right hsized.pos⟩

end Owned

end CodeCache

theorem CodeHistory.owned {events : List CodeEvent} {c : CodeCache} {methods : List Method}
    (h : CodeHistory events c methods) : c.Owned methods events := by
  induction h with
  | fresh isa manager haddresses => exact .fresh isa manager haddresses
  | installed _ hvacant hm hinstall ih => exact ih.install hvacant hm hinstall
  | failed _ hm hinstall ih =>
      obtain ⟨rfl, rfl⟩ := CodeCache.install_error hinstall
      obtain ⟨hlen, rfl⟩ := List.getElem?_eq_some_iff.mp hm
      rw [List.set_getElem_self]
      exact ih
  | released _ ih => exact ih.release
  | attached manager _ ih => exact ih.attach manager
  | @redirected events c methods i m quickEntry _ hm ih =>
      refine ih.edit hm { m with quickEntry } rfl rfl (fun _ => rfl) fun j hj => ?_
      obtain ⟨hne, hbefore⟩ := Bool.and_eq_true_iff.mp hj
      exact ⟨hbefore, fun heq => absurd heq.symm (of_decide_eq_true hne)⟩
  | @registered events c methods i m jniEntry _ hm ih =>
      exact ih.edit hm { m with jniEntry } rfl rfl (fun _ => rfl) fun j hj => ⟨hj, fun _ => rfl⟩

/-- A record that was pointed at its code by an installation points into a
live stub of its own if, and only if, no other record has been installed
under the same index since. -/
theorem CodeHistory.serves_iff {events : List CodeEvent} {c : CodeCache} {methods : List Method}
    {i : Nat} {m : Method} (h : CodeHistory events c methods) (hm : methods[i]? = some m)
    (hpointed : isPointed events i = true) :
    c.Serves m ↔ lastOwner? events m.index = some i :=
  ⟨h.owned.owner_of_serves hm, h.owned.serves_of_owner hm hpointed⟩

-- ------------------------------------------- two records of one index

/-- Two records that share an index are installed one after the other, and
what was replaced is released. -/
theorem shared_history : ∃ c first second,
    CodeHistory [.released, .installed 1 7, .installed 0 7] c [first, second]
      ∧ first.index = 7 ∧ first.quickEntry = 0x10000 ∧ second.index = 7
      ∧ c.stubs.map (fun p => (p.1, p.2.entry)) = [(7, 0x20000)] := by
  have h₀ : CodeHistory [] { isa := .x86_64 }
      [{ address := 0x100, flags := 0, index := 7 }, { address := 0x200, flags := 0, index := 7 }] :=
    .fresh .x86_64 none (by decide)
  have h₁ := CodeHistory.installed (i := 0) h₀ (vacant_pageAt 0x10000 (by decide)) rfl
    (show CodeCache.install _ _ _ (idleStub 0) = _ from rfl)
  have h₂ := CodeHistory.installed (i := 1) h₁ (vacant_pageAt 0x20000 (by decide)) rfl
    (show CodeCache.install _ _ _ (idleStub 0) = _ from rfl)
  exact ⟨_, _, _, h₂.released, rfl, rfl, rfl, rfl⟩

/-- Of two records that share an index the second is served. -/
theorem CodeHistory.serves_iff_shared : ∃ c first second,
    CodeHistory [.released, .installed 1 7, .installed 0 7] c [first, second]
      ∧ first.index = second.index ∧ c.Serves second ∧ ¬ c.Serves first := by
  obtain ⟨c, first, second, h, hfirst, -, hsecond, -⟩ := shared_history
  refine ⟨c, first, second, h, hfirst.trans hsecond.symm, ?_, ?_⟩
  · rw [h.serves_iff (i := 1) rfl rfl, hsecond]
    rfl
  · rw [h.serves_iff (i := 0) rfl rfl, hfirst]
    decide

/-- It is not so that every record whose entry point was last set by an
installation points into a live stub: the code of the first of two records
with one index is gone after a release. -/
theorem CodeHistory.not_always_served : ¬ ∀ events c methods, CodeHistory events c methods →
    ∀ i m, methods[i]? = some m → isPointed events i = true → ∃ index, c.Live index m.quickEntry := by
  intro hall
  obtain ⟨c, first, second, h, -, hentry, -, hstubs⟩ := shared_history
  obtain ⟨index, s, hstub, hle, -⟩ := hall _ c _ h 0 first rfl rfl
  have hmem : (index, s.entry) ∈ c.stubs.map fun p => (p.1, p.2.entry) :=
    List.mem_map.mpr ⟨_, h.owned.laid.keyed.stub?_eq_some_iff.mp hstub, rfl⟩
  rw [hstubs, List.mem_singleton] at hmem
  have hnew : s.entry = 0x20000 := (Prod.mk.inj hmem).2
  omega

end Crossing
