import Crossing.Cache.Memory
import Mathlib.Data.List.Basic
import Mathlib.Order.Bounds.Defs

/-
What a block of memory holds after any requests. A block is asked to take
bytes at some offset, or to become executable, which the operating system
may refuse; a request that is refused leaves it as it is.

The second side is a plain list of bytes: zeros, with the writes that count
laid over them in order (`written`). Those are the writes made before the
block becomes executable and that fit into it (`counted`), so the latest of
them decides each byte, and nothing does once the block can be executed.
-/
namespace Crossing.CodeMemory

/-- What can be asked of a block. With a request to become executable goes
what the system has against it. -/
inductive Request where
  | write (offset : Nat) (data : List UInt8)
  | protect (refusal? : Option String)
deriving DecidableEq

/-- The block after a request, unless it is refused. -/
def answer (m : CodeMemory) : Request → Except MemoryError CodeMemory
  | .write offset data => m.write offset data
  | .protect refusal? => m.protect refusal?

/-- The block after a request, refused or not. -/
def after (m : CodeMemory) (r : Request) : CodeMemory :=
  match m.answer r with
  | .ok m' => m'
  | .error _ => m

/-- The block after some requests. -/
def run (m : CodeMemory) (rs : List Request) : CodeMemory := rs.foldl after m

/-- All bytes of the block. -/
def contents (m : CodeMemory) : List UInt8 := m.read 0 m.size

/-- Bytes for some place in a block. -/
structure Patch where
  offset : Nat
  data : List UInt8

namespace Patch

/-- Behind the last byte. -/
def stop (p : Patch) : Nat := p.offset + p.data.length

/-- A byte of the block is among those that are written. -/
def Covers (p : Patch) (i : Nat) : Prop := p.offset ≤ i ∧ i < p.stop

instance (p : Patch) (i : Nat) : Decidable (p.Covers i) :=
  inferInstanceAs (Decidable (p.offset ≤ i ∧ i < p.stop))

end Patch

/-- The writes that count in a block of this size. -/
def counted (size : Nat) : List Request → List Patch
  | [] => []
  | .protect none :: _ => []
  | .protect (some _) :: rs => counted size rs
  | .write offset data :: rs =>
      if offset + data.length ≤ size then ⟨offset, data⟩ :: counted size rs else counted size rs

/-- A block with bytes laid over its own. -/
def overlay (block : List UInt8) (p : Patch) : List UInt8 :=
  block.take p.offset ++ p.data ++ block.drop p.stop

/-- Zeros, with bytes laid over them one after the other. -/
def written (size : Nat) (ps : List Patch) : List UInt8 := ps.foldl overlay (List.replicate size 0)

variable {m m' : CodeMemory} {size offset i : Nat} {data block code : List UInt8}
  {os : MemorySystem} {p : Patch} {ps : List Patch} {rs : List Request}

-- ============================================================= overlays

theorem overlay_length (h : p.stop ≤ block.length) : (overlay block p).length = block.length := by
  unfold Patch.stop at h
  simp only [overlay, Patch.stop, List.length_append, List.length_take, List.length_drop]
  omega

theorem overlay_getElem? (h : p.stop ≤ block.length) (hcovers : p.Covers i) :
    (overlay block p)[i]? = p.data[i - p.offset]? := by
  obtain ⟨hfrom, hto⟩ := hcovers
  unfold Patch.stop at h hto
  have htake : (block.take p.offset).length = p.offset := by
    rw [List.length_take]
    omega
  rw [overlay, List.append_assoc, List.getElem?_append_right (by omega), htake,
    List.getElem?_append_left (by omega)]

theorem overlay_getElem?_of_not_covers (h : p.stop ≤ block.length) (hcovers : ¬p.Covers i) :
    (overlay block p)[i]? = block[i]? := by
  have hside : i < p.offset ∨ p.stop ≤ i := by
    unfold Patch.Covers at hcovers
    omega
  unfold Patch.stop at h hside
  have htake : (block.take p.offset).length = p.offset := by
    rw [List.length_take]
    omega
  rw [overlay, List.append_assoc]
  rcases hside with hbefore | hbehind
  · rw [List.getElem?_append_left (by omega), List.getElem?_take_of_lt hbefore]
  · rw [List.getElem?_append_right (by omega), List.getElem?_append_right (by omega), htake,
      List.getElem?_drop, Patch.stop]
    congr 1
    omega

section Overlays

variable {later : List Patch} (hfit : ∀ p ∈ ps, p.stop ≤ block.length)
include hfit

theorem overlays_length : (ps.foldl overlay block).length = block.length := by
  induction ps generalizing block with
  | nil => rfl
  | cons p ps ih =>
      have hlength := overlay_length (hfit p List.mem_cons_self)
      rw [List.foldl_cons, ih, hlength]
      intro q hq
      rw [hlength]
      exact hfit q (List.mem_cons_of_mem p hq)

/-- What nothing is laid over stays. -/
theorem overlays_getElem?_of_not_covers (hcovers : ∀ p ∈ ps, ¬p.Covers i) :
    (ps.foldl overlay block)[i]? = block[i]? := by
  induction ps generalizing block with
  | nil => rfl
  | cons p ps ih =>
      have hp := hfit p List.mem_cons_self
      rw [List.foldl_cons, ih _ fun q hq => hcovers q (List.mem_cons_of_mem p hq),
        overlay_getElem?_of_not_covers hp (hcovers p List.mem_cons_self)]
      intro q hq
      rw [overlay_length hp]
      exact hfit q (List.mem_cons_of_mem p hq)

/-- The last one that covers a byte decides it. -/
theorem overlays_getElem? {earlier : List Patch} (heq : ps = earlier ++ p :: later)
    (hcovers : p.Covers i) (hlast : ∀ q ∈ later, ¬q.Covers i) :
    (ps.foldl overlay block)[i]? = p.data[i - p.offset]? := by
  subst heq
  have hlength := overlays_length fun q hq => hfit q (List.mem_append_left _ hq)
  have hp : p.stop ≤ (earlier.foldl overlay block).length := by
    rw [hlength]
    exact hfit p (List.mem_append_right _ List.mem_cons_self)
  rw [List.foldl_append, List.foldl_cons, overlays_getElem?_of_not_covers _ hlast,
    overlay_getElem? hp hcovers]
  intro q hq
  rw [overlay_length hp, hlength]
  exact hfit q (List.mem_append_right _ (List.mem_cons_of_mem p hq))

end Overlays

-- ============================================================= requests

theorem contents_length (m : CodeMemory) : m.contents.length = m.size := by
  simp [contents, read]

theorem contents_getElem? (hi : i < m.size) : m.contents[i]? = some (m.bytes i) := by
  simp [contents, read, hi]

/-- A block takes bytes as long as it can be written and they fit. -/
theorem after_write (m : CodeMemory) (offset : Nat) (data : List UInt8) :
    m.after (.write offset data)
      = if m.executable = false ∧ offset + data.length ≤ m.size then
          { m with
            bytes := fun i => if offset ≤ i then (data[i - offset]?).getD (m.bytes i) else m.bytes i }
        else m := by
  unfold after answer write fits
  cases m.executable with
  | true => rfl
  | false =>
      by_cases hfits : offset + data.length ≤ m.size
      · simp [hfits]
      · simp [hfits]

/-- How a write is answered. -/
theorem write_eq (m : CodeMemory) (offset : Nat) (data : List UInt8) :
    m.write offset data = if m.executable then .error .alreadyExecutable
      else if offset + data.length ≤ m.size then .ok (m.after (.write offset data))
      else .error (.outOfBounds offset data.length m.size) := by
  unfold after answer write fits
  split
  · rfl
  · simp only [decide_eq_true_eq]
    split
    · rfl
    · rfl

/-- A block becomes executable if the system lets it. -/
theorem after_protect (m : CodeMemory) (refusal? : Option String) :
    m.after (.protect refusal?)
      = if m.executable = false ∧ refusal? = none then m.makeExecutable else m := by
  unfold after answer protect
  cases m.executable with
  | true => rfl
  | false =>
      cases refusal? with
      | some reason => rfl
      | none => rfl

/-- A block stays where it is. -/
theorem after_place (m : CodeMemory) (r : Request) :
    (m.after r).base = m.base ∧ (m.after r).size = m.size := by
  cases r with
  | protect refusal? =>
      rw [after_protect]
      split
      · exact ⟨rfl, rfl⟩
      · exact ⟨rfl, rfl⟩
  | write offset data =>
      rw [after_write]
      split
      · exact ⟨rfl, rfl⟩
      · exact ⟨rfl, rfl⟩

theorem after_executable (m : CodeMemory) (r : Request) :
    (m.after r).executable = true ↔ m.executable = true ∨ r = .protect none := by
  cases r with
  | protect refusal? =>
      rw [after_protect, Request.protect.injEq]
      split
      · next hgranted => exact ⟨fun _ => .inr hgranted.2, fun _ => rfl⟩
      · next hkept =>
          refine ⟨.inl, fun h => h.elim id fun hnone => ?_⟩
          simpa [hnone] using hkept
  | write offset data =>
      rw [after_write, or_iff_left (fun h => nomatch h)]
      split
      · exact Iff.rfl
      · exact Iff.rfl

/-- Bytes that are taken are laid over the block's own. -/
theorem contents_after_write (hwritable : m.executable = false)
    (hfits : offset + data.length ≤ m.size) :
    (m.after (.write offset data)).contents = overlay m.contents ⟨offset, data⟩ := by
  have hstop : Patch.stop ⟨offset, data⟩ ≤ m.contents.length := by
    rw [contents_length]
    exact hfits
  apply List.ext_getElem?'
  intro i hi
  have hi' : i < m.size := by
    rw [overlay_length hstop, contents_length, contents_length, (after_place m _).2,
      Nat.max_self] at hi
    exact hi
  rw [contents_getElem? ((after_place m _).2 ▸ hi'), after_write, if_pos ⟨hwritable, hfits⟩]
  dsimp only
  by_cases hcovers : Patch.Covers ⟨offset, data⟩ i
  · rw [overlay_getElem? hstop hcovers, if_pos hcovers.1]
    have hlt : i - offset < data.length := by
      have hto := hcovers.2
      have hfrom := hcovers.1
      simp only [Patch.stop] at hto hfrom
      omega
    rw [List.getElem?_eq_getElem hlt, Option.getD_some]
  · rw [overlay_getElem?_of_not_covers hstop hcovers, contents_getElem? hi']
    split
    · next hfrom =>
        have hge : data.length ≤ i - offset := by
          unfold Patch.Covers Patch.stop at hcovers
          simp only at hcovers
          omega
        rw [List.getElem?_eq_none hge, Option.getD_none]
    · rfl

theorem run_place (m : CodeMemory) (rs : List Request) :
    (m.run rs).base = m.base ∧ (m.run rs).size = m.size := by
  induction rs generalizing m with
  | nil => exact ⟨rfl, rfl⟩
  | cons r rs ih =>
      obtain ⟨hbase, hsize⟩ := ih (m.after r)
      exact ⟨hbase.trans (after_place m r).1, hsize.trans (after_place m r).2⟩

theorem run_executable (m : CodeMemory) (rs : List Request) :
    (m.run rs).executable = true ↔ m.executable = true ∨ .protect none ∈ rs := by
  induction rs generalizing m with
  | nil => simp [run]
  | cons r rs ih =>
      rw [run, List.foldl_cons, ← run, ih, after_executable, List.mem_cons, or_assoc,
        eq_comm (a := r)]

/-- A block that can be executed keeps its bytes. -/
theorem run_of_executable (h : m.executable = true) (rs : List Request) : m.run rs = m := by
  induction rs with
  | nil => rfl
  | cons r rs ih =>
      have hstill : m.after r = m := by
        cases r with
        | protect refusal? => rw [after_protect, if_neg (by simp [h])]
        | write offset data => rw [after_write, if_neg (by simp [h])]
      rw [run, List.foldl_cons, hstill]
      exact ih

/-- A block that can be written ends up with the writes that count laid over
its bytes. -/
theorem run_contents (h : m.executable = false) (rs : List Request) :
    (m.run rs).contents = (counted m.size rs).foldl overlay m.contents := by
  induction rs generalizing m with
  | nil => rfl
  | cons r rs ih =>
      rw [run, List.foldl_cons, ← run]
      cases r with
      | protect refusal? =>
          rw [after_protect]
          cases refusal? with
          | some reason =>
              rw [if_neg (by simp), ih h]
              rfl
          | none =>
              rw [if_pos ⟨h, rfl⟩, run_of_executable rfl]
              rfl
      | write offset data =>
          have hwritable : (m.after (.write offset data)).executable = false := by
            rw [after_write]
            split
            · exact h
            · exact h
          rw [ih hwritable, (after_place m _).2, counted]
          split
          · next hfits => rw [List.foldl_cons, contents_after_write h hfits]
          · next hfits => rw [after_write, if_neg (fun hok => hfits hok.2)]

/-- Writes that count fit. -/
theorem stop_le_of_mem_counted (hp : p ∈ counted size rs) : p.stop ≤ size := by
  induction rs with
  | nil => cases hp
  | cons r rs ih =>
      cases r with
      | protect refusal? =>
          cases refusal? with
          | some reason => exact ih hp
          | none => cases hp
      | write offset data =>
          rw [counted] at hp
          split at hp
          · next hfits =>
              rcases List.mem_cons.mp hp with rfl | hp
              · exact hfits
              · exact ih hp
          · exact ih hp

-- =========================================================== new blocks

theorem wholePages_isLeast {pages : Nat} (h : wholePages os size = .ok pages) :
    IsLeast {n | os.pageBytes ∣ n ∧ size ≤ n} pages := by
  have hpage : 0 < os.pageBytes := Nat.two_pow_pos _
  unfold wholePages addWord at h
  split at h
  · cases h
    have hdivides := Nat.div_add_mod (size + os.pageBytes - 1) os.pageBytes
    have hrest := Nat.mod_lt (size + os.pageBytes - 1) hpage
    rw [Nat.mul_comm] at hdivides
    refine ⟨⟨Nat.dvd_mul_left _ _, by omega⟩, ?_⟩
    rintro n ⟨⟨k, rfl⟩, hle⟩
    rw [Nat.mul_comm os.pageBytes k]
    refine Nat.mul_le_mul_right _ (Nat.le_of_lt_succ (Nat.div_lt_of_lt_mul ?_))
    rw [Nat.mul_succ]
    omega
  · cases h

/-- A size is mapped if it can be rounded and the system finds room. -/
theorem map_eq_ok_iff : map size os = .ok m
    ↔ 0 < size ∧ wholePages os size = .ok m.size ∧ os.room? m.size = some m.base
      ∧ m = { base := m.base, size := m.size } := by
  unfold map
  split
  · next hzero => exact ⟨nofun, fun h => absurd hzero (Nat.ne_of_gt h.1)⟩
  · next hpos =>
      constructor
      · intro h
        split at h
        · cases h
        · next hpages =>
            split at h
            · cases h
            · next hroom =>
                cases h
                exact ⟨Nat.pos_of_ne_zero hpos, hpages, hroom, rfl⟩
      · rintro ⟨-, hpages, hroom, heq⟩
        simp only [hpages, hroom]
        rw [← heq]

theorem contents_of_map (h : map size os = .ok m) : m.contents = List.replicate m.size 0 := by
  obtain ⟨-, -, -, heq⟩ := map_eq_ok_iff.mp h
  rw [heq]
  simp [contents, read, List.map_const']

theorem writable_of_map (h : map size os = .ok m) : m.executable = false := by
  obtain ⟨-, -, -, heq⟩ := map_eq_ok_iff.mp h
  rw [heq]

/-- A block for some code is one of its size that is written and then
protected. The code always fits; whether it can be executed is up to the
system. -/
theorem ofCode_of_map (hmap : map code.length os = .ok m) :
    ofCode code os = match os.refusal? m.base m.size with
      | none => .ok (m.run [.write 0 code, .protect none])
      | some reason => .error (.protectionFailed reason) := by
  obtain ⟨-, hpages, -, -⟩ := map_eq_ok_iff.mp hmap
  have hfits : 0 + code.length ≤ m.size := by
    rw [Nat.zero_add]
    exact (wholePages_isLeast hpages).1.2
  obtain ⟨hbase, hsize⟩ := after_place m (.write 0 code)
  have hwrite : m.write 0 code = .ok (m.after (.write 0 code)) := by
    rw [write_eq, if_neg (by simp [writable_of_map hmap]), if_pos hfits]
  have hwritable : (m.after (.write 0 code)).executable = false := by
    rw [← Bool.not_eq_true, after_executable, writable_of_map hmap]
    simp
  have hlast : m.run [.write 0 code, .protect none]
      = (m.after (.write 0 code)).makeExecutable := by
    show (m.after (.write 0 code)).after (.protect none) = _
    rw [after_protect, if_pos ⟨hwritable, rfl⟩]
  simp only [ofCode, hmap, hwrite, bind, Except.bind, protect, hwritable, hbase, hsize, hlast,
    Bool.false_eq_true, if_false]
  cases os.refusal? m.base m.size with
  | none => rfl
  | some reason => rfl

theorem written_code (h : code.length ≤ size) :
    written size (counted size (.write 0 code :: .protect none :: rs))
      = code ++ List.replicate (size - code.length) 0 := by
  have hfits : 0 + code.length ≤ size := by
    rw [Nat.zero_add]
    exact h
  rw [counted, if_pos hfits, counted, written, List.foldl_cons, List.foldl_nil, overlay]
  simp [Patch.stop]

-- ============================================================== summary

/-- What there is to say of a block of some size that was new before some
requests: whether it can be executed, what each of its bytes is, and how it
will answer. -/
structure Holds (size : Nat) (rs : List Request) (m : CodeMemory) : Prop where
  sized : m.size = size
  executable : m.executable = true ↔ .protect none ∈ rs
  contents : m.contents = written size (counted size rs)
  lastWriter : ∀ earlier p later i, counted size rs = earlier ++ p :: later → p.Covers i →
    (∀ q ∈ later, ¬q.Covers i) → m.contents[i]? = p.data[i - p.offset]?
  untouched : ∀ i, i < size → (∀ p ∈ counted size rs, ¬p.Covers i) → m.contents[i]? = some 0
  answers : ∀ offset data, m.write offset data
    = if .protect none ∈ rs then .error .alreadyExecutable
      else if offset + data.length ≤ size then .ok (m.after (.write offset data))
      else .error (.outOfBounds offset data.length size)
  protects : ∀ refusal?, m.protect refusal? = match refusal? with
    | none => .ok (m.after (.protect none))
    | some reason => if .protect none ∈ rs then .ok m else .error (.protectionFailed reason)
  refused : ∀ offset data, .protect none ∈ rs ∨ size < offset + data.length →
    m.after (.write offset data) = m
  unprotected : ∀ reason, m.after (.protect (some reason)) = m
  kept : .protect none ∈ rs → ∀ more, (m.run more).contents = m.contents

theorem holds_of_map (hmap : map size os = .ok m) (rs : List Request) :
    Holds m.size rs (m.run rs) := by
  have hwritable := writable_of_map hmap
  have hexecutable : (m.run rs).executable = true ↔ .protect none ∈ rs := by
    rw [run_executable, hwritable, or_iff_right Bool.false_ne_true]
  have hcontents : (m.run rs).contents = written m.size (counted m.size rs) := by
    rw [run_contents hwritable, contents_of_map hmap]
    rfl
  have hfit : ∀ p ∈ counted m.size rs, p.stop ≤ (List.replicate m.size (0 : UInt8)).length := by
    intro p hp
    rw [List.length_replicate]
    exact stop_le_of_mem_counted hp
  constructor
  case sized => exact (run_place m rs).2
  case executable => exact hexecutable
  case contents => exact hcontents
  case lastWriter =>
    intro earlier p later i heq hcovers hlast
    rw [hcontents]
    exact overlays_getElem? hfit heq hcovers hlast
  case untouched =>
    intro i hi hcovers
    rw [hcontents, written, overlays_getElem?_of_not_covers hfit hcovers,
      List.getElem?_replicate_of_lt hi]
  case answers =>
    intro offset data
    simp only [write_eq, hexecutable, (run_place m rs).2]
  case protects =>
    intro refusal?
    cases refusal? with
    | none =>
        rw [after_protect, protect]
        cases (m.run rs).executable with
        | true => rfl
        | false => rfl
    | some reason => simp only [protect, hexecutable]
  case refused =>
    intro offset data h
    rw [after_write, if_neg]
    rintro ⟨hstill, hfits⟩
    rw [(run_place m rs).2] at hfits
    rcases h with h | h
    · rw [hexecutable.mpr h] at hstill
      cases hstill
    · omega
  case unprotected =>
    intro reason
    rw [after_protect, if_neg (by simp)]
  case kept =>
    intro h more
    rw [run_of_executable (hexecutable.mpr h)]

/-- A block is written first and executed afterwards, and never both. Its
size is the least number of whole pages, its bytes are those that were
written last while it could be written, and a request that is refused
changes nothing. A block made for some code begins with it, is zero behind
it, and stays so; there is none if the system will not let it be executed. -/
theorem written_then_executed (os : MemorySystem) :
    (∀ size m, map size os = .ok m → IsLeast {n | os.pageBytes ∣ n ∧ size ≤ n} m.size
        ∧ ∀ rs, Holds m.size rs (m.run rs))
      ∧ ∀ code m, map code.length os = .ok m →
        (∀ reason, os.refusal? m.base m.size = some reason →
            ofCode code os = .error (.protectionFailed reason))
          ∧ (os.refusal? m.base m.size = none → ∃ b, ofCode code os = .ok b
            ∧ IsLeast {n | os.pageBytes ∣ n ∧ code.length ≤ n} b.size
            ∧ ∀ rs, Holds b.size (.write 0 code :: .protect none :: rs) (b.run rs)
              ∧ (b.run rs).contents = code ++ List.replicate (b.size - code.length) 0) := by
  refine ⟨fun size m hmap => ?_, fun code m hmap =>
    ⟨fun reason hrefused => ?_, fun hgranted => ?_⟩⟩
  · obtain ⟨-, hpages, -, -⟩ := map_eq_ok_iff.mp hmap
    exact ⟨wholePages_isLeast hpages, holds_of_map hmap⟩
  · rw [ofCode_of_map hmap, hrefused]
  · obtain ⟨-, hpages, -, -⟩ := map_eq_ok_iff.mp hmap
    have hleast := wholePages_isLeast hpages
    have hsize := (run_place m [.write 0 code, .protect none]).2
    have hmade : ofCode code os = .ok (m.run [.write 0 code, .protect none]) := by
      rw [ofCode_of_map hmap, hgranted]
    refine ⟨_, hmade, ?_, fun rs => ?_⟩
    · rw [hsize]
      exact hleast
    · have hholds := holds_of_map hmap (.write 0 code :: .protect none :: rs)
      rw [hsize]
      exact ⟨hholds, hholds.contents.trans (written_code hleast.1.2)⟩

/-- A system with pages of 16 KiB, where no block of one page may be
executed. -/
def largePages : MemorySystem where
  room? _ := some 0x10000
  pageBits := 14
  refusal? _ size := if size = 0x4000 then some "denied" else none

/-- Two pages, written across their border with the later write on top, one
write that ends where words end, a protection that is refused, and a write
that comes too late. Code of one page gets no block. -/
theorem written_then_executed_across : ∃ m, map 20000 largePages = .ok m
    ∧ IsLeast {n | largePages.pageBytes ∣ n ∧ 20000 ≤ n} m.size
    ∧ (∀ late, late = m.run [.write 16382 [1, 2, 3, 4], .write (2 ^ 64 - 1) [5],
        .protect (some "denied"), .write 16384 [6], .protect none] →
      late.contents[16383]? = some 2 ∧ late.contents[16384]? = some 6
        ∧ late.write 0 [7] = .error .alreadyExecutable ∧ late.after (.write 0 [7]) = late)
    ∧ ofCode [0xC3, 0xCC] largePages = .error (.protectionFailed "denied") := by
  obtain ⟨m, hmap⟩ : ∃ m, map 20000 largePages = .ok m := ⟨_, rfl⟩
  obtain ⟨hleast, hall⟩ := (written_then_executed largePages).1 20000 m hmap
  have hsize : m.size = 32768 := by
    cases hmap
    rfl
  have hsmall : map [0xC3, 0xCC].length largePages = .ok ⟨0x10000, 0x4000, false, fun _ => 0⟩ := rfl
  refine ⟨m, hmap, hleast, ?_,
    ((written_then_executed largePages).2 [0xC3, 0xCC] _ hsmall).1 _ rfl⟩
  rintro late rfl
  have hlate := hall [.write 16382 [1, 2, 3, 4], .write (2 ^ 64 - 1) [5], .protect (some "denied"),
    .write 16384 [6], .protect none]
  have hcounted : counted m.size [.write 16382 [1, 2, 3, 4], .write (2 ^ 64 - 1) [5],
      .protect (some "denied"), .write 16384 [6], .protect none]
        = [⟨16382, [1, 2, 3, 4]⟩, ⟨16384, [6]⟩] := by
    rw [hsize]
    rfl
  refine ⟨?_, ?_, ?_, ?_⟩
  · refine hlate.lastWriter [] ⟨16382, [1, 2, 3, 4]⟩ [⟨16384, [6]⟩] 16383 hcounted (by decide) ?_
    decide
  · exact hlate.lastWriter [⟨16382, [1, 2, 3, 4]⟩] ⟨16384, [6]⟩ [] 16384 hcounted (by decide) nofun
  · exact (hlate.answers 0 [7]).trans (if_pos (by decide))
  · exact hlate.refused 0 [7] (.inl (by decide))

end Crossing.CodeMemory
