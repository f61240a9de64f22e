import Crossing.Proofs.Argument.Machine

/-
Transfers, and what the first phase of planning does for them. A transfer
is one entry of the three lists that planning gets. Transfers that keep
apart (no two use one register, and none writes frame bytes that another
one needs) can be carried out independently of each other: after the first
phase every stack target has its value, every reference is in its slot, and
what a register target still waits for is in the transfer's own source.
-/
namespace Crossing

/-- One entry of the lists that planning gets. -/
structure Transfer where
  dest : Location
  source : Location
  /-- The slot of a reference. -/
  slot : FrameOffset

-- ============================================================ transfers

/-- A location that is the physical register `q`. -/
def Machine.At (M : Machine) (l : Location) (q : Nat) : Prop :=
  ∃ reg size, l = .register reg size ∧ M.model.place reg = .ok q

@[simp] theorem Machine.at_stack (M : Machine) (offset : FrameOffset) (size q : Nat) :
    ¬M.At (.stack offset size) q := by
  rintro ⟨_, _, ⟨⟩, _⟩

/-- A location is one physical register at most. -/
theorem Machine.At.unique {M : Machine} {l : Location} {q r : Nat} (hq : M.At l q)
    (hr : M.At l r) : q = r := by
  obtain ⟨reg, size, rfl, hq⟩ := hq
  obtain ⟨reg', size', hreg, hr⟩ := hr
  injection hreg with hreg
  rw [← hreg, hq] at hr
  injection hr

/-- Among registers with one handle each, handle and register have the same
number. -/
theorem Machine.at_flat {M : Machine} {pointerSize : Nat} (hM : M.model = .flat pointerSize)
    {n : Int} (hn : 0 ≤ n ∧ n < 64) {size q : Nat} :
    M.At (.register ⟨n⟩ size) q ↔ q = n.toNat := by
  have hplace : M.model.place ⟨n⟩ = .ok n.toNat := by
    rw [hM]
    exact if_pos hn
  have hat : M.At (.register ⟨n⟩ size) n.toNat := ⟨_, _, rfl, hplace⟩
  exact ⟨fun h => h.unique hat, fun h => h ▸ hat⟩

/-- A location keeps what it holds when its register and the frame stay. -/
theorem Machine.Holds.frame {M : Machine} {c c' : Contents} {l : Location} {v : Nat}
    (h : M.Holds c l v) (hbytes : c'.byte = c.byte) (hregs : ∀ q, M.At l q → c'.reg q = c.reg q) :
    M.Holds c' l v := by
  cases l with
  | register reg size =>
      obtain ⟨q, hq, hvalue⟩ := h
      exact ⟨q, hq, by rw [hregs q ⟨reg, size, rfl, hq⟩, hvalue]⟩
  | stack offset size => exact (Contents.load_of_byte hbytes _ _).trans h

/-- A location that lies in the frame, over byte `o`. -/
def Location.Covers (l : Location) (o : Nat) : Prop :=
  ∃ offset size, l = .stack offset size ∧ offset.value ≤ o ∧ o < offset.value + size

@[simp] theorem Location.covers_stack (offset : FrameOffset) (size o : Nat) :
    (Location.stack offset size).Covers o ↔ offset.value ≤ o ∧ o < offset.value + size := by
  constructor
  · rintro ⟨_, _, ⟨⟩, hin⟩
    exact hin
  · exact fun hin => ⟨offset, size, rfl, hin⟩

@[simp] theorem Location.covers_register (reg : Register) (size o : Nat) :
    ¬(Location.register reg size).Covers o := by
  rintro ⟨_, _, ⟨⟩, _⟩

/-- What a location holds. -/
def Machine.content (M : Machine) (c : Contents) : Location → Nat
  | .register reg _ =>
      match M.model.place reg with
      | .ok q => c.reg q
      | .error _ => 0
  | .stack offset size => c.load offset.value size

theorem Machine.content_at {M : Machine} {c : Contents} {l : Location} {q : Nat} (h : M.At l q) :
    M.content c l = c.reg q := by
  obtain ⟨reg, size, rfl, hq⟩ := h
  simp only [content, hq]

namespace Transfer

def isReference (a : Transfer) : Bool := a.slot.isReference

/-- A reference's slot lies over byte `o`. -/
def SlotCovers (a : Transfer) (o : Nat) : Prop :=
  a.isReference = true ∧ a.slot.value ≤ o ∧ o < a.slot.value + 4

/-- Frame bytes that a transfer writes: those of a stack target, and the
slot of a reference that comes in a register. -/
def Writes (a : Transfer) (o : Nat) : Prop :=
  a.dest.Covers o ∨ a.source.isRegister = true ∧ a.SlotCovers o

/-- Frame bytes that a transfer cares about. -/
def Needs (a : Transfer) (o : Nat) : Prop := a.dest.Covers o ∨ a.source.Covers o ∨ a.SlotCovers o

/-- The registers of a transfer exist, and a reference's register can be
named in the width of a pointer. -/
structure Named (M : Machine) (a : Transfer) : Prop where
  dest : ∀ reg size, a.dest = .register reg size → ∃ q, M.model.place reg = .ok q
  source : ∀ reg size, a.source = .register reg size → ∃ q, M.model.place reg = .ok q
  pointer : a.isReference = true → ∀ reg size, a.source = .register reg size →
    ∃ wide, M.model.pointer reg = .ok wide ∧ M.model.place wide = M.model.place reg

/-- Two transfers with targets in different registers, and sources too. -/
structure Unshared (M : Machine) (a b : Transfer) : Prop where
  dests : ∀ q, M.At a.dest q → ¬M.At b.dest q
  sources : ∀ q, M.At a.source q → ¬M.At b.source q

theorem unshared_iff {M : Machine} {a b : Transfer} :
    a.Unshared M b ↔
      (∀ q, M.At a.dest q → ¬M.At b.dest q) ∧ ∀ q, M.At a.source q → ¬M.At b.source q :=
  ⟨fun h => ⟨h.dests, h.sources⟩, fun h => ⟨h.1, h.2⟩⟩

/-- A transfer that makes sense on its own: its registers exist and none is
the spare one, its parts of the frame do not overlap, a reference on the
stack is in its slot and is handed over as a pointer, and any other value
is at least as wide as its target. -/
structure Sane (M : Machine) (a : Transfer) : Prop where
  dest : ∀ reg size, a.dest = .register reg size → ∃ q, M.model.place reg = .ok q
  source : ∀ reg size, a.source = .register reg size → ∃ q, M.model.place reg = .ok q
  dest_spare : ∀ q, M.At a.dest q → M.spare ≠ some q
  source_spare : ∀ q, M.At a.source q → M.spare ≠ some q
  pointer : a.isReference = true → ∀ reg size, a.source = .register reg size →
    ∃ wide, M.model.pointer reg = .ok wide ∧ M.model.place wide = M.model.place reg
  homed : a.isReference = true → ∀ offset size, a.source = .stack offset size →
    offset = a.slot ∧ 4 ≤ size
  wide : a.isReference = true → a.dest.size = M.model.pointerSize
  fits : a.isReference = false → a.dest.size ≤ a.source.size
  apart : ∀ o, a.dest.Covers o → ¬a.source.Covers o ∧ ¬a.SlotCovers o

theorem Sane.named {M : Machine} {a : Transfer} (h : a.Sane M) : a.Named M :=
  ⟨h.dest, h.source, h.pointer⟩

/-- Transfers that do not get into each other's way. -/
structure Apart (M : Machine) (a b : Transfer) : Prop where
  dests : ∀ q, M.At a.dest q → ¬M.At b.dest q
  sources : ∀ q, M.At a.source q → ¬M.At b.source q
  left : ∀ o, a.Writes o → ¬b.Needs o
  right : ∀ o, b.Writes o → ¬a.Needs o

theorem Apart.unshared {M : Machine} {a b : Transfer} (h : a.Apart M b) : a.Unshared M b :=
  ⟨h.dests, h.sources⟩

theorem Apart.symm {M : Machine} {a b : Transfer} (h : a.Apart M b) : b.Apart M a :=
  ⟨fun q hb ha => h.dests q ha hb, fun q hb ha => h.sources q ha hb, h.right, h.left⟩

/-- What native code is to get from the transfer with number `i`. -/
def value (M : Machine) (i : Nat) (a : Transfer) (c : Contents) : Nat :=
  if a.isReference then M.handle a.slot (i ≠ 0) (M.content c a.source) else M.content c a.source

-- ------------------------------------------------------------- frames

/-- A register that the transfer makes a handle in. -/
def Converts (M : Machine) (a : Transfer) (q : Nat) : Prop :=
  a.isReference = true ∧ M.At a.source q

/-- What the first phase leaves alone. -/
structure Leaves (M : Machine) (as : List Transfer) (c c' : Contents) : Prop where
  regs : ∀ q, M.spare ≠ some q → (∀ a ∈ as, ¬a.Converts M q) → c'.reg q = c.reg q
  bytes : ∀ o, (∀ a ∈ as, ¬a.Writes o) → c'.byte o = c.byte o

theorem Leaves.trans {M : Machine} {a : Transfer} {as : List Transfer} {c c₁ c' : Contents}
    (h : Leaves M [a] c c₁) (h' : Leaves M as c₁ c') : Leaves M (a :: as) c c' where
  regs q hq hfree := by
    rw [h'.regs q hq fun b hb => hfree b (List.mem_cons_of_mem a hb),
      h.regs q hq fun b hb => hfree b (by rw [List.mem_singleton.mp hb]; exact List.mem_cons_self ..)]
  bytes o hfree := by
    rw [h'.bytes o fun b hb => hfree b (List.mem_cons_of_mem a hb),
      h.bytes o fun b hb => hfree b (by rw [List.mem_singleton.mp hb]; exact List.mem_cons_self ..)]

/-- What a transfer has to find where it expects it, once its first phase
is over. -/
structure Settled (M : Machine) (i : Nat) (a : Transfer) (c c' : Contents) : Prop where
  slot : a.isReference = true → c'.load a.slot.value 4 = M.content c a.source % 256 ^ 4
  stack : ∀ offset size, a.dest = .stack offset size →
    c'.load offset.value size = a.value M i c % 256 ^ size
  held : ∀ q, M.At a.source q →
    c'.reg q % 256 ^ a.dest.size = a.value M i c % 256 ^ a.dest.size
  kept : a.isReference = false → ∀ offset size, a.source = .stack offset size →
    c'.load offset.value a.dest.size = M.content c a.source % 256 ^ a.dest.size

/-- A source that the first phase of other transfers leaves alone has its
content. -/
theorem Leaves.content {M : Machine} {a : Transfer} {bs : List Transfer} {c c' : Contents}
    (h : Leaves M bs c c') (ha : a.Sane M) (hbs : ∀ b ∈ bs, a.Apart M b) :
    M.content c' a.source = M.content c a.source := by
  cases hsrc : a.source with
  | register reg size =>
      obtain ⟨q, hq⟩ := ha.source reg size hsrc
      have hat : M.At a.source q := ⟨reg, size, hsrc, hq⟩
      rw [← hsrc, Machine.content_at hat, Machine.content_at hat]
      exact h.regs q (ha.source_spare q hat) fun b hb hconv => (hbs b hb).sources q hat hconv.2
  | stack offset size =>
      refine Contents.load_congr size fun o hlo hhi => h.bytes o fun b hb hw => ?_
      exact (hbs b hb).right o hw (.inr (.inl ⟨offset, size, hsrc, hlo, hhi⟩))

/-- A settled transfer stays settled when others are dealt with. -/
theorem Settled.frame {M : Machine} {i : Nat} {a : Transfer} {bs : List Transfer}
    {c c₁ c' : Contents} (h : a.Settled M i c c₁) (ha : a.Sane M) (hl : Leaves M bs c₁ c')
    (hbs : ∀ b ∈ bs, a.Apart M b) : a.Settled M i c c' where
  slot href := by
    rw [← h.slot href]
    refine Contents.load_congr 4 fun o hlo hhi => hl.bytes o fun b hb hw => ?_
    exact (hbs b hb).right o hw (.inr (.inr ⟨href, hlo, hhi⟩))
  stack offset size hdest := by
    rw [← h.stack offset size hdest]
    refine Contents.load_congr size fun o hlo hhi => hl.bytes o fun b hb hw => ?_
    exact (hbs b hb).right o hw (.inl ⟨offset, size, hdest, hlo, hhi⟩)
  held q hq := by
    rw [← h.held q hq, hl.regs q (ha.source_spare q hq) fun b hb hconv =>
      (hbs b hb).sources q hq hconv.2]
  kept href offset size hsrc := by
    rw [← h.kept href offset size hsrc]
    have hfits : a.dest.size ≤ size := by
      have := ha.fits href
      rwa [hsrc] at this
    refine Contents.load_congr _ fun o hlo hhi => hl.bytes o fun b hb hw => ?_
    exact (hbs b hb).right o hw (.inr (.inl ⟨offset, size, hsrc, hlo, by omega⟩))

/-- Contents before and after can be replaced by ones in which the source
holds the same. -/
theorem Settled.congr {M : Machine} {i : Nat} {a : Transfer} {c c₁ c' : Contents}
    (h : a.Settled M i c₁ c') (hc : M.content c₁ a.source = M.content c a.source) :
    a.Settled M i c c' := by
  have hv : a.value M i c₁ = a.value M i c := by rw [value, value, hc]
  refine ⟨fun href => hc ▸ h.slot href, fun offset size hdest => hv ▸ h.stack offset size hdest,
    fun q hq => hv ▸ h.held q hq, fun href offset size hsrc => hc ▸ h.kept href offset size hsrc⟩

-- ========================================================= first phase

/-- What the first phase has done for a transfer before it looks at the
target: a reference in a register is in its slot, and its register holds
the handle. -/
structure Prepared (M : Machine) (i : Nat) (a : Transfer) (c c' : Contents) : Prop where
  regs : ∀ q, M.spare ≠ some q → ¬a.Converts M q → c'.reg q = c.reg q
  bytes : ∀ o, ¬(a.source.isRegister = true ∧ a.SlotCovers o) → c'.byte o = c.byte o
  slot : a.isReference = true → c'.load a.slot.value 4 = M.content c a.source % 256 ^ 4
  held : ∀ q, M.At a.source q →
    c'.reg q % 256 ^ a.dest.size = a.value M i c % 256 ^ a.dest.size

/-- A transfer that is no reference in a register needs no preparation. -/
theorem prepared_refl {M : Machine} {a : Transfer} (ha : a.Sane M) (i : Nat) (c : Contents)
    (hplain : a.isReference = true → a.source.isRegister = false) : a.Prepared M i c c where
  regs _ _ _ := rfl
  bytes _ _ := rfl
  slot href := by
    cases hsrc : a.source with
    | register reg size =>
        have := hplain href
        rw [hsrc] at this
        cases this
    | stack offset size =>
        obtain ⟨rfl, hsize⟩ := ha.homed href offset size hsrc
        exact (c.load_mod 4 hsize).symm
  held q hq := by
    have href : a.isReference = false := by
      cases href : a.isReference with
      | false => rfl
      | true =>
          have := hplain href
          obtain ⟨reg, size, hsrc, -⟩ := hq
          rw [hsrc] at this
          cases this
    rw [value, if_neg (by rw [href]; decide), Machine.content_at hq]

/-- Spilling a reference and making the handle in its register prepares the
transfer. -/
theorem prepared_spill {M : Machine} {a : Transfer} (ha : a.Sane M) {i : Nat} {c c' : Contents}
    {reg wide : Register} {size : Nat} (href : a.isReference = true)
    (hsrc : a.source = .register reg size) (hwide : M.model.place wide = M.model.place reg)
    (h : M.Runs [.spillReference reg a.slot,
      .handleToRegister wide a.slot (some reg) (i ≠ 0)] c c') : a.Prepared M i c c' := by
  obtain ⟨c₁, ⟨q, hq, hspill⟩, hrun⟩ := h
  obtain ⟨d, reference, hd, ⟨r, hr, href'⟩, hset⟩ := Machine.runs_one.mp hrun
  have hat : M.At a.source q := ⟨reg, size, hsrc, hq⟩
  obtain rfl : q = r := by rw [hq] at hr; injection hr
  obtain rfl : q = d := by rw [hwide, hq] at hd; injection hd
  have hkeep : c₁.reg q = c.reg q := hspill.regs q (ha.source_spare q hat)
  have hcontent : M.content c a.source = c.reg q := Machine.content_at hat
  refine ⟨fun p hp hfree => ?_, fun o ho => ?_, fun _ => ?_, fun p hp => ?_⟩
  · have hne : p ≠ q := fun heq => hfree ⟨href, heq ▸ hat⟩
    rw [hset.others p hne hp, hspill.regs p hp]
  · rw [hset.bytes]
    refine hspill.outside o ?_
    have hslot : ¬(a.slot.value ≤ o ∧ o < a.slot.value + 4) := fun hin =>
      ho ⟨by rw [hsrc]; rfl, href, hin⟩
    omega
  · rw [hcontent, ← hspill.value]
    exact Contents.load_of_byte hset.bytes _ _
  · obtain rfl : q = p := by
      obtain ⟨reg', size', hsrc', hp⟩ := hp
      rw [hsrc] at hsrc'
      injection hsrc' with hreg
      rw [← hreg, hq] at hp
      injection hp
    rw [ha.wide href, hset.value, value, if_pos href, hcontent, href', hkeep]

/-- Once prepared, a transfer with a register target is settled: what it
waits for is in its source. -/
theorem Prepared.settled_register {M : Machine} {a : Transfer} (ha : a.Sane M) {i : Nat}
    {c c' : Contents} (h : a.Prepared M i c c') {dest : Register} {size : Nat}
    (hdest : a.dest = .register dest size) : a.Settled M i c c' ∧ Leaves M [a] c c' := by
  refine ⟨⟨h.slot, fun offset size' hstack => ?_, h.held, fun href offset size' hsrc => ?_⟩,
    fun q hq hfree => h.regs q hq (hfree a (List.mem_cons_self ..)),
    fun o hfree => h.bytes o fun hw => hfree a (List.mem_cons_self ..) (.inr hw)⟩
  · rw [hdest] at hstack
    cases hstack
  · have hfits : a.dest.size ≤ size' := by
      have := ha.fits href
      rwa [hsrc] at this
    rw [hsrc, Machine.content, c.load_mod _ hfits]
    refine Contents.load_congr _ fun o _ _ => h.bytes o fun hw => ?_
    rw [hsrc] at hw
    cases hw.1

/-- The move to a stack target settles a prepared transfer. -/
theorem Prepared.settled_stack {M : Machine} {a : Transfer} (ha : a.Sane M) {i : Nat}
    {c c₁ c' : Contents} (h : a.Prepared M i c c₁) {dest : FrameOffset} {size : Nat}
    (hdest : a.dest = .stack dest size) {v : Nat} (hstore : M.Stores c₁ c' dest.value size v)
    (hv : v % 256 ^ size = a.value M i c % 256 ^ size) :
    a.Settled M i c c' ∧ Leaves M [a] c c' := by
  have houtside : ∀ o, ¬a.dest.Covers o → c'.byte o = c₁.byte o := by
    intro o ho
    refine hstore.outside o ?_
    have : ¬(dest.value ≤ o ∧ o < dest.value + size) := fun hin => ho ⟨dest, size, hdest, hin⟩
    omega
  refine ⟨⟨fun href => ?_, fun offset size' hstack => ?_, fun q hq => ?_,
    fun href offset size' hsrc => ?_⟩, fun q hq hfree => ?_, fun o hfree => ?_⟩
  · rw [← h.slot href]
    refine Contents.load_congr 4 fun o hlo hhi => houtside o fun hcov => ?_
    exact (ha.apart o hcov).2 ⟨href, hlo, hhi⟩
  · rw [hdest] at hstack
    injection hstack with hoffset hsize
    rw [← hoffset, ← hsize, hstore.value, hv]
  · rw [hstore.regs q (ha.source_spare q hq), h.held q hq]
  · have hfits : a.dest.size ≤ size' := by
      have := ha.fits href
      rwa [hsrc] at this
    rw [hsrc, Machine.content, c.load_mod _ hfits]
    refine Contents.load_congr _ fun o hlo hhi => ?_
    rw [houtside o fun hcov => (ha.apart o hcov).1 ⟨offset, size', hsrc, hlo, by omega⟩]
    refine h.bytes o fun hw => ?_
    rw [hsrc] at hw
    cases hw.1
  · rw [hstore.regs q hq, h.regs q hq (hfree a (List.mem_cons_self ..))]
  · have hw := hfree a (List.mem_cons_self ..)
    rw [houtside o fun hcov => hw (.inl hcov), h.bytes o fun hin => hw (.inr hin)]

/-- What planning remembers of a transfer with a register target. -/
structure Queued (M : Machine) (i : Nat) (a : Transfer) (t : ArgMove.Pending) : Prop where
  dest : a.dest = .register t.dest t.size
  place : M.model.place t.dest = .ok t.place
  slot : t.slot = a.slot
  null : t.nullAllowed = decide (i ≠ 0)
  source : (∃ reg size q, t.source = .register reg size ∧ M.model.place reg = .ok q
      ∧ t.sourcePlace = some q ∧ M.At a.source q)
    ∨ (∃ offset size, t.source = .stack offset size ∧ t.sourcePlace = none ∧ a.source = t.source)

end Transfer

/-- Puts a register target on the list of those to be filled. One that is
in its place already takes no part in the rounds. -/
def ArgMove.Progress.enqueue (p : ArgMove.Progress) (t : ArgMove.Pending) : ArgMove.Progress :=
  if t.sourcePlace = some t.place then { p with pending := p.pending.push t }
  else
    { p with
      pending := p.pending.push t
      reads := match t.sourcePlace with
        | some q => ArgMove.addPlace q p.reads
        | none => p.reads
      writes := ArgMove.addPlace t.place p.writes }

namespace Transfer

open ArgMove (Progress first firstAll queue toStack)

/-- The source that a transfer has once it is prepared: a register with the
same number, or the slot it was in. -/
def Remains (M : Machine) (a : Transfer) (source : Location) : Prop :=
  (∃ reg n q, source = .register reg n ∧ M.model.place reg = .ok q ∧ M.At a.source q)
    ∨ ∃ offset n, source = .stack offset n ∧ a.source = source

/-- The second half of `first`: what is done once a reference in a register
has been turned into a handle. -/
theorem queue_spec {M : Machine} {a : Transfer} (ha : a.Named M) {dest : Register} {size : Nat}
    (hdest : a.dest = .register dest size) {i : Nat} (p : Progress) {source : Location}
    (hsource : a.Remains M source) :
    ∃ t, a.Queued M i t
      ∧ queue M.model p dest size source a.slot (i ≠ 0) = .ok (p.enqueue t) := by
  obtain ⟨d, hd⟩ := ha.dest dest size hdest
  rcases hsource with ⟨reg, n, q, rfl, hq, hat⟩ | ⟨offset, n, rfl, hsrc⟩
  · refine ⟨⟨dest, size, d, .register reg n, some q, a.slot, decide (i ≠ 0)⟩,
      ⟨hdest, hd, rfl, rfl, .inl ⟨reg, n, q, rfl, hq, rfl, hat⟩⟩, ?_⟩
    simp only [queue, hq, hd, Progress.enqueue, Option.some.injEq]
    by_cases heq : q = d
    · rw [if_pos heq]
      exact if_pos heq
    · rw [if_neg heq]
      exact if_neg heq
  · refine ⟨⟨dest, size, d, .stack offset n, none, a.slot, decide (i ≠ 0)⟩,
      ⟨hdest, hd, rfl, rfl, .inr ⟨offset, n, rfl, rfl, hsrc⟩⟩, ?_⟩
    simp only [queue, hd, Progress.enqueue, reduceCtorEq, if_false]
    rfl

/-- The moves that prepare the transfer with number `i`. -/
def Early (M : Machine) (i : Nat) (a : Transfer) (ms : List ArgMove) : Prop :=
  (a.isReference = true → a.source.isRegister = false) ∧ ms = []
    ∨ ∃ reg n q wide, a.isReference = true ∧ a.source = .register reg n
      ∧ M.model.place reg = .ok q ∧ M.model.place wide = .ok q
      ∧ ms = [.spillReference reg a.slot, .handleToRegister wide a.slot (some reg) (i ≠ 0)]

/-- The first half of `first`: moves that prepare the transfer, and the
source they leave it with. -/
theorem prepare_shape {M : Machine} {a : Transfer} (ha : a.Named M) (i : Nat) (p : Progress) :
    ∃ ms source, a.Early M i ms ∧ a.Remains M source
      ∧ first M.model p i a.dest a.source a.slot
        = match a.dest with
          | .register reg size =>
              queue M.model { p with moves := p.moves ++ ms } reg size source a.slot (i ≠ 0)
          | .stack offset size =>
              .ok { p with
                moves := (p.moves ++ ms).push (toStack offset size source a.slot (i ≠ 0)) } := by
  by_cases hconv : a.isReference = true ∧ a.source.isRegister = true
  · obtain ⟨href, hreg⟩ := hconv
    cases hsrc : a.source with
    | stack offset n =>
        rw [hsrc] at hreg
        cases hreg
    | register reg n =>
        obtain ⟨q, hq⟩ := ha.source reg n hsrc
        obtain ⟨wide, hpointer, hwide⟩ := ha.pointer href reg n hsrc
        have hq' : M.model.place wide = .ok q := hwide.trans hq
        refine ⟨_, .register wide M.model.pointerSize, .inr ⟨reg, n, q, wide, href, hsrc, hq, hq', rfl⟩,
          .inl ⟨wide, _, q, rfl, hq', reg, n, hsrc, hq⟩, ?_⟩
        have href' : a.slot.isReference = true := href
        have hpush : ∀ x y : ArgMove, (p.moves.push x).push y = p.moves ++ [x, y] := by
          intro x y
          simp
        simp only [first, href', if_true, hpointer, hpush]
        cases a.dest with
        | register reg size => rfl
        | stack offset size => rfl
  · have hplain : a.isReference = true → a.source.isRegister = false := by
      intro href
      cases hreg : a.source.isRegister with
      | false => rfl
      | true => exact absurd ⟨href, hreg⟩ hconv
    refine ⟨[], a.source, .inl ⟨hplain, rfl⟩, ?_, ?_⟩
    · cases hsrc : a.source with
      | register reg n =>
          obtain ⟨q, hq⟩ := ha.source reg n hsrc
          exact .inl ⟨reg, n, q, rfl, hq, reg, n, hsrc, hq⟩
      | stack offset n => exact .inr ⟨offset, n, rfl, hsrc⟩
    · rw [Array.appendList_nil]
      cases hsrc : a.source with
      | register reg n =>
          have href : ¬a.slot.isReference = true := fun href => by
            have := hplain href
            rw [hsrc] at this
            cases this
          simp only [first, if_neg href]
          cases a.dest with
          | register reg size => rfl
          | stack offset size => rfl
      | stack offset n =>
          simp only [first]
          cases a.dest with
          | register reg size => rfl
          | stack offset size => rfl

/-- The first phase for one transfer: moves that prepare it, and then the
move to a stack target, or a register target put on the list. -/
theorem first_shape {M : Machine} {a : Transfer} (ha : a.Named M) (i : Nat) (p : Progress) :
    ∃ early source last ts, a.Early M i early ∧ a.Remains M source
      ∧ first M.model p i a.dest a.source a.slot
        = .ok (ts.foldl Progress.enqueue { p with moves := p.moves ++ (early ++ last) })
      ∧ ((∃ dest size t, a.dest = .register dest size ∧ last = [] ∧ ts = [t] ∧ a.Queued M i t)
        ∨ ∃ dest size, a.dest = .stack dest size
          ∧ last = [toStack dest size source a.slot (i ≠ 0)] ∧ ts = []) := by
  obtain ⟨ms, source, hearly, hsource, hfirst⟩ := prepare_shape ha i p
  cases hdest : a.dest with
  | register reg size =>
      simp only [hdest] at hfirst
      obtain ⟨t, ht, hqueue⟩ := queue_spec ha hdest (i := i) { p with moves := p.moves ++ ms } hsource
      refine ⟨ms, source, [], [t], hearly, hsource, ?_, .inl ⟨reg, size, t, rfl, rfl, rfl, ht⟩⟩
      rw [List.append_nil]
      exact hfirst.trans hqueue
  | stack offset size =>
      simp only [hdest] at hfirst
      refine ⟨ms, source, _, [], hearly, hsource, ?_, .inr ⟨offset, size, rfl, rfl, rfl⟩⟩
      have hpush : ∀ m : ArgMove, (p.moves ++ ms).push m = p.moves ++ (ms ++ [m]) := by
        intro m
        exact Array.toList_inj.mp (by simp)
      rw [hfirst, hpush]
      rfl

/-- Preparing moves can be made, and prepare the transfer. -/
theorem Early.spec {M : Machine} {a : Transfer} (ha : a.Sane M) {i : Nat} {ms : List ArgMove}
    (h : a.Early M i ms) :
    (∀ m ∈ ms, M.Placed m) ∧ ∀ c c', M.Runs ms c c' → a.Prepared M i c c' := by
  rcases h with ⟨hplain, rfl⟩ | ⟨reg, n, q, wide, href, hsrc, hq, hwide, rfl⟩
  · refine ⟨fun m hm => absurd hm (by simp), fun c c' h => ?_⟩
    subst h
    exact prepared_refl ha i c' hplain
  · refine ⟨fun m hm => ?_, fun c c' => prepared_spill ha href hsrc (hwide.trans hq.symm)⟩
    rcases List.mem_cons.mp hm with rfl | hm
    · exact ⟨q, hq⟩
    · obtain rfl := List.mem_singleton.mp hm
      exact ⟨⟨q, hwide⟩, fun reg' hreg' => by injection hreg' with hreg'; exact hreg' ▸ ⟨q, hq⟩⟩

/-- The move of a prepared transfer to its stack target. -/
theorem toStack_spec {M : Machine} {a : Transfer} (ha : a.Sane M) {i : Nat} {source : Location}
    (hsource : a.Remains M source) {dest : FrameOffset} {size : Nat}
    (hdest : a.dest = .stack dest size) :
    M.Placed (toStack dest size source a.slot (i ≠ 0))
      ∧ ∀ c c₁ c', a.Prepared M i c c₁ → M.Does (toStack dest size source a.slot (i ≠ 0)) c₁ c' →
        a.Settled M i c c' ∧ Leaves M [a] c c' := by
  have hsize : a.dest.size = size := by rw [hdest]; rfl
  rcases hsource with ⟨reg, n, q, rfl, hq, hat⟩ | ⟨offset, n, rfl, hsrc⟩
  · refine ⟨⟨q, hq⟩, fun c c₁ c' hprep hdoes => ?_⟩
    obtain ⟨r, hr, hstore⟩ := hdoes
    obtain rfl : q = r := by rw [hq] at hr; injection hr
    exact hprep.settled_stack ha hdest hstore (hsize ▸ hprep.held q hat)
  · by_cases href : a.slot.isReference = true
    · rw [toStack, if_pos href]
      refine ⟨trivial, fun c c₁ c' hprep hdoes => ?_⟩
      have hpointer : M.model.pointerSize = size := (ha.wide href).symm.trans hsize
      have hstore : M.Stores c₁ c' dest.value M.model.pointerSize _ := hdoes
      rw [hpointer] at hstore
      refine hprep.settled_stack ha hdest hstore ?_
      rw [hprep.slot href, M.handle_mod, value, if_pos (show a.isReference = true from href)]
    · rw [toStack, if_neg href]
      refine ⟨trivial, fun c c₁ c' hprep hdoes => hprep.settled_stack ha hdest hdoes ?_⟩
      have hplain : ¬a.isReference = true := href
      have hfits : size ≤ n := by
        have := ha.fits (Bool.eq_false_iff.mpr hplain)
        rwa [hsrc, hsize] at this
      have hkeep : c₁.load offset.value size = c.load offset.value size := by
        refine Contents.load_congr size fun o _ _ => hprep.bytes o fun hw => ?_
        rw [hsrc] at hw
        cases hw.1
      rw [hkeep, value, if_neg hplain, hsrc, Machine.content, c.load_mod size hfits,
        Nat.mod_eq_of_lt (c.load_lt _ _)]

/-- The first phase for one transfer: it makes moves that settle the
transfer and leave everything else alone, and remembers a register target. -/
theorem first_spec {M : Machine} {a : Transfer} (ha : a.Sane M) (i : Nat) (p : Progress) :
    ∃ (ms : List ArgMove) (ts : List ArgMove.Pending), (∀ m ∈ ms, M.Placed m)
      ∧ (∀ c c', M.Runs ms c c' → a.Settled M i c c' ∧ Leaves M [a] c c')
      ∧ first M.model p i a.dest a.source a.slot
        = .ok (ts.foldl Progress.enqueue { p with moves := p.moves ++ ms })
      ∧ (∀ t ∈ ts, a.Queued M i t) ∧ (∀ t ∈ ts, ∀ t' ∈ ts, t = t')
      ∧ (a.dest.isRegister = true → ∃ t, t ∈ ts) := by
  obtain ⟨early, source, last, ts, hearly, hsource, hfirst, hcases⟩ := first_shape ha.named i p
  obtain ⟨hplaced, hprep⟩ := hearly.spec ha
  rcases hcases with ⟨dest, size, t, hdest, rfl, rfl, ht⟩ | ⟨dest, size, hdest, rfl, rfl⟩
  · rw [List.append_nil] at hfirst
    refine ⟨early, [t], hplaced, fun c c' h => (hprep c c' h).settled_register ha hdest, hfirst,
      fun t' ht' => ?_, fun t₁ ht₁ t₂ ht₂ => ?_, fun _ => ⟨t, by simp⟩⟩
    · exact List.mem_singleton.mp ht' ▸ ht
    · exact (List.mem_singleton.mp ht₁).trans (List.mem_singleton.mp ht₂).symm
  · obtain ⟨hplaced', hstack⟩ := toStack_spec ha (i := i) hsource hdest
    refine ⟨_, [], fun m hm => ?_, fun c c' h => ?_, hfirst, fun t ht => absurd ht (by simp),
      fun t ht => absurd ht (by simp), fun hreg => ?_⟩
    · rcases List.mem_append.mp hm with hm | hm
      · exact hplaced m hm
      · exact List.mem_singleton.mp hm ▸ hplaced'
    · obtain ⟨c₁, hms, hlast⟩ := (Machine.runs_append _ _).mp h
      exact hstack c c₁ c' (hprep c c₁ hms) (Machine.runs_one.mp hlast)
    · rw [hdest] at hreg
      cases hreg

/-- Queueing register targets does not look at the moves. -/
theorem foldl_enqueue_moves (ts : List ArgMove.Pending) :
    ∀ (p : Progress) (moves : Array ArgMove),
      { ts.foldl Progress.enqueue p with moves := moves }
        = ts.foldl Progress.enqueue { p with moves := moves } := by
  induction ts with
  | nil => exact fun p moves => rfl
  | cons t ts ih =>
      intro p moves
      have hstep : { p.enqueue t with moves := moves }
          = Progress.enqueue { p with moves := moves } t := by
        unfold Progress.enqueue
        split
        · rfl
        · rfl
      rw [List.foldl_cons, List.foldl_cons, ih, hstep]

theorem moves_foldl_enqueue (ts : List ArgMove.Pending) (p : Progress) :
    (ts.foldl Progress.enqueue p).moves = p.moves := by
  have h := foldl_enqueue_moves ts p p.moves
  rw [← h]

/-- The registers of a transfer are those that planning remembers. -/
theorem Queued.place_iff {M : Machine} {a : Transfer} {i : Nat} {t : ArgMove.Pending}
    (h : a.Queued M i t) (q : Nat) : t.place = q ↔ M.At a.dest q :=
  have hat : M.At a.dest t.place := ⟨_, _, h.dest, h.place⟩
  ⟨fun heq => heq ▸ hat, hat.unique⟩

theorem Queued.sourcePlace_iff {M : Machine} {a : Transfer} {i : Nat} {t : ArgMove.Pending}
    (h : a.Queued M i t) (q : Nat) : t.sourcePlace = some q ↔ M.At a.source q := by
  rcases h.source with ⟨reg, n, r, -, -, hsome, hat⟩ | ⟨offset, n, hstack, hnone, hsame⟩
  · rw [hsome, Option.some.injEq]
    exact ⟨fun heq => heq ▸ hat, hat.unique⟩
  · rw [hnone]
    refine ⟨fun heq => (nomatch heq), fun ⟨reg, n', hreg, _⟩ => ?_⟩
    rw [hsame, hstack] at hreg
    cases hreg

/-- Register targets of two transfers that share no register. -/
theorem Queued.distinct {M : Machine} {a b : Transfer} {i j : Nat} {t t' : ArgMove.Pending}
    (ht : a.Queued M i t) (ht' : b.Queued M j t') (h : a.Unshared M b) :
    t.place ≠ t'.place ∧ ∀ q, t.sourcePlace = some q → t'.sourcePlace ≠ some q := by
  refine ⟨fun heq => ?_, fun q hq hq' => ?_⟩
  · exact h.dests t'.place ((ht.place_iff _).mp heq) ((ht'.place_iff _).mp rfl)
  · exact h.sources q ((ht.sourcePlace_iff q).mp hq) ((ht'.sourcePlace_iff q).mp hq')

/-- The register targets of transfers numbered from `i` on: each comes from
a transfer, none is missing, and no two of them share a register. -/
structure Queue (M : Machine) (i : Nat) (as : List Transfer) (ts : List ArgMove.Pending) : Prop where
  origin : ∀ t ∈ ts, ∃ (k : Nat) (a : Transfer), as[k]? = some a ∧ a.Queued M (i + k) t
  covers : ∀ (k : Nat) (a : Transfer), as[k]? = some a → a.dest.isRegister = true →
    ∃ t ∈ ts, a.Queued M (i + k) t
  distinct : ∀ t ∈ ts, ∀ t' ∈ ts,
    (t.place = t'.place ∨ ∃ q, t.sourcePlace = some q ∧ t'.sourcePlace = some q) → t = t'

theorem Queue.cons {M : Machine} {i : Nat} {a : Transfer} {as : List Transfer}
    {ts ts' : List ArgMove.Pending} (hapart : ∀ b ∈ as, a.Unshared M b)
    (hqueued : ∀ t ∈ ts, a.Queued M i t) (hone : ∀ t ∈ ts, ∀ t' ∈ ts, t = t')
    (hsome : a.dest.isRegister = true → ∃ t, t ∈ ts) (h : Queue M (i + 1) as ts') :
    Queue M i (a :: as) (ts ++ ts') := by
  have hindex : ∀ k, i + 1 + k = i + (k + 1) := fun k => by omega
  -- one target of each kind: then they are of transfers that keep apart
  have hmixed : ∀ t ∈ ts, ∀ t' ∈ ts',
      ¬(t.place = t'.place ∨ ∃ q, t.sourcePlace = some q ∧ t'.sourcePlace = some q) := by
    intro t ht t' ht' hshare
    obtain ⟨k, b, hk, hb⟩ := h.origin t' ht'
    have hne := (hqueued t ht).distinct hb (hapart b (List.mem_of_getElem? hk))
    rcases hshare with hplace | ⟨q, hq, hq'⟩
    · exact hne.1 hplace
    · exact hne.2 q hq hq'
  refine ⟨fun t ht => ?_, fun k b hk hreg => ?_, fun t ht t' ht' hshare => ?_⟩
  · rcases List.mem_append.mp ht with ht | ht
    · exact ⟨0, a, rfl, hqueued t ht⟩
    · obtain ⟨k, b, hk, hb⟩ := h.origin t ht
      exact ⟨k + 1, b, hk, hindex k ▸ hb⟩
  · cases k with
    | zero =>
        obtain rfl : a = b := by simpa using hk
        obtain ⟨t, ht⟩ := hsome hreg
        exact ⟨t, List.mem_append_left _ ht, hqueued t ht⟩
    | succ k =>
        obtain ⟨t, ht, hb⟩ := h.covers k b hk hreg
        exact ⟨t, List.mem_append_right _ ht, hindex k ▸ hb⟩
  · rcases List.mem_append.mp ht with ht | ht
    · rcases List.mem_append.mp ht' with ht' | ht'
      · exact hone t ht t' ht'
      · exact absurd hshare (hmixed t ht t' ht')
    · rcases List.mem_append.mp ht' with ht' | ht'
      · refine absurd ?_ (hmixed t' ht' t ht)
        exact hshare.imp Eq.symm fun ⟨q, hq, hq'⟩ => ⟨q, hq', hq⟩
      · exact h.distinct t ht t' ht' hshare

/-- The first phase for all transfers: moves that settle each of them, and
the register targets in a queue. -/
theorem firstAll_spec {M : Machine} (as : List Transfer) :
    ∀ (i : Nat) (p : Progress), (∀ a ∈ as, a.Sane M) → as.Pairwise (Apart M) →
      ∃ (ms : List ArgMove) (ts : List ArgMove.Pending), (∀ m ∈ ms, M.Placed m)
        ∧ (∀ c c', M.Runs ms c c' →
          (∀ (k : Nat) (a : Transfer), as[k]? = some a → a.Settled M (i + k) c c') ∧ Leaves M as c c')
        ∧ firstAll M.model p i (as.map (·.dest)) (as.map (·.source)) (as.map (·.slot))
          = .ok (ts.foldl Progress.enqueue { p with moves := p.moves ++ ms })
        ∧ Queue M i as ts := by
  induction as with
  | nil =>
      intro i p _ _
      refine ⟨[], [], fun m hm => absurd hm (by simp), fun c c' h => ?_, ?_,
        fun t ht => absurd ht (by simp), fun k a hk => absurd hk (by simp),
        fun t ht => absurd ht (by simp)⟩
      · subst h
        exact ⟨fun k a hk => absurd hk (by simp), fun _ _ _ => rfl, fun _ _ => rfl⟩
      · rw [Array.appendList_nil]
        rfl
  | cons a as ih =>
      intro i p hsane hpairs
      obtain ⟨hapart, hpairs⟩ := List.pairwise_cons.mp hpairs
      have ha := hsane a (List.mem_cons_self ..)
      have has : ∀ b ∈ as, b.Sane M := fun b hb => hsane b (List.mem_cons_of_mem a hb)
      obtain ⟨ms₁, ts₁, hplaced₁, hruns₁, hfirst, hqueued, hone, hsome⟩ := first_spec ha i p
      obtain ⟨ms₂, ts₂, hplaced₂, hruns₂, hall, hqueue⟩ :=
        ih (i + 1) (ts₁.foldl Progress.enqueue { p with moves := p.moves ++ ms₁ }) has hpairs
      refine ⟨ms₁ ++ ms₂, ts₁ ++ ts₂, fun m hm => ?_, fun c c' h => ?_, ?_,
        hqueue.cons (fun b hb => (hapart b hb).unshared) hqueued hone hsome⟩
      · exact (List.mem_append.mp hm).elim (hplaced₁ m) (hplaced₂ m)
      · obtain ⟨c₁, h₁, h₂⟩ := (Machine.runs_append _ _).mp h
        obtain ⟨hsettled, hleaves₁⟩ := hruns₁ c c₁ h₁
        obtain ⟨hrest, hleaves₂⟩ := hruns₂ c₁ c' h₂
        refine ⟨fun k b hk => ?_, hleaves₁.trans hleaves₂⟩
        cases k with
        | zero =>
            obtain rfl : a = b := by simpa using hk
            exact hsettled.frame ha hleaves₂ hapart
        | succ k =>
            have hmem : b ∈ as := List.mem_of_getElem? (by simpa using hk)
            have hb := hrest k b (by simpa using hk)
            rw [show i + 1 + k = i + (k + 1) by omega] at hb
            refine hb.congr (hleaves₁.content (has b hmem) fun a' ha' => ?_)
            rw [List.mem_singleton.mp ha']
            exact (hapart b hmem).symm
      · have hmoves : p.moves ++ ms₁ ++ ms₂ = p.moves ++ (ms₁ ++ ms₂) :=
          Array.toList_inj.mp (by simp)
        rw [List.map_cons, List.map_cons, List.map_cons, firstAll, hfirst]
        refine hall.trans ?_
        rw [foldl_enqueue_moves, moves_foldl_enqueue, List.foldl_append, hmoves]

end Transfer

end Crossing
