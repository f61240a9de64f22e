import Mathlib
import Crossing.Proofs.Glue.Program

/-
When a list of operations can be assembled. Each operation has to be one
that the target can lower, its labels have to be the assembler's own, no
label may be bound twice, and the frame must not be adjusted below zero:
then every operation goes through (`applyAll_ok`). If moreover every label
that is named is bound and the code stays within the reach of the target's
branches, the code can be finalized (`Stage.finalize_ok`).

How long the code gets is counted in instructions, of which an operation
may emit a given number at most.
-/
namespace Crossing

-- ================================================= instruction lengths

namespace X86

open Code

theorem operandBytes_length (reg : UInt8) (rm : RegMem) : (operandBytes reg rm).length ≤ 6 := by
  unfold operandBytes
  split
  · exact Nat.le_of_ble_eq_true rfl
  · simp [littleEndian]
  · next base disp =>
    have hsib : (if base.code = 4 then [(0x24 : UInt8)] else []).length ≤ 1 := by split <;> simp
    have hdisp : (displacementBytes (baseMode base disp) disp).length ≤ 4 := by
      unfold displacementBytes
      split
      · simp
      · split <;> simp [littleEndian]
    simp only [List.length_cons, List.length_append]
    omega

/-- Segment, REX, ModRM, SIB and displacement are eight bytes at most. -/
theorem Opcode.encode_length (op : Opcode) (reg : UInt8) (rm : RegMem) :
    (op.encode reg rm).length ≤ op.leading.length + op.bytes.length + 8 := by
  have hsegment : (segmentBytes rm).length ≤ 1 := by unfold segmentBytes; split <;> simp
  have hrex : (rexBytes op.wide op.byteRegs reg rm).length ≤ 1 := by
    simp only [rexBytes]
    split <;> simp
  have hoperand := operandBytes_length reg rm
  simp only [Opcode.encode, List.length_append]
  omega

theorem immediateForm_length (wide : Bool) (extension : UInt8) (rm : RegMem) (imm : Int32) :
    (immediateForm wide extension rm imm).length ≤ 13 := by
  unfold immediateForm
  split
  · have := Opcode.encode_length { bytes := [0x83], wide } extension rm
    simp only [List.length_append, List.length_cons, List.length_nil] at this ⊢
    omega
  · have := Opcode.encode_length { bytes := [0x81], wide } extension rm
    simp only [List.length_append, littleEndian, List.length_cons, List.length_nil] at this ⊢
    omega

theorem shortForm_length (opcode : UInt8) (reg : Reg) : (shortForm opcode reg).length ≤ 2 := by
  unfold shortForm
  split <;> simp

/-- No instruction is longer than the architecture allows. -/
theorem Instr.bytes_length (i : Instr) : i.bytes.length ≤ 15 := by
  cases i with
  | push reg | pop reg => exact Nat.le_trans (shortForm_length _ reg) (by decide)
  | load width dst mem =>
      refine Nat.le_trans (Opcode.encode_length _ _ _) ?_
      cases width <;> decide
  | store width mem src =>
      refine Nat.le_trans (Opcode.encode_length _ _ _) ?_
      cases width <;> decide
  | loadImm dst imm =>
      have := shortForm_length 0xB8 dst
      simp only [Instr.bytes]
      split <;> simp [littleEndian]
      omega
  | storeImm _ imm | testMemImm _ imm | testImm _ imm | compareByte _ imm =>
      refine Nat.le_trans (Nat.le_of_eq (List.length_append ..)) ?_
      exact Nat.le_trans (Nat.add_le_add_right (Opcode.encode_length _ _ _) _)
        (Nat.le_of_ble_eq_true rfl)
  | arith op dst imm => exact Nat.le_trans (immediateForm_length _ _ _ imm) (by decide)
  | compareLong mem imm => exact Nat.le_trans (immediateForm_length _ _ _ imm) (by decide)
  | lockCompareExchange mem src =>
      -- a segment override before the lock; otherwise an opcode like any other
      have := Opcode.encode_length { bytes := [0x0F, 0xB1] } src.number (.mem mem)
      simp only [Opcode.encode, List.length_append, List.length_cons, List.length_nil] at this
      simp only [Instr.bytes, List.length_append, List.length_cons, List.length_nil]
      omega
  | jump l | jumpIf c l | ret | breakpoint => exact Nat.le_of_ble_eq_true rfl
  | _ => exact Nat.le_trans (Opcode.encode_length _ _ _) (Nat.le_of_ble_eq_true rfl)

end X86

namespace Glue

open Code

-- ==================================================== tight emissions

/-- The label an item binds. -/
def Item.label? {ι : Type} : Item ι → Option Nat
  | .instr _ => none
  | .bind label => some label

/-- The labels that items bind, in order. -/
def Item.binds {ι : Type} (items : List (Item ι)) : List Nat := items.filterMap Item.label?

/-- How many instructions are among items. -/
def Item.count {ι : Type} (items : List (Item ι)) : Nat := items.countP (·.label?.isNone)

section items

variable {ι κ : Type} (items rest : List (Item ι)) (is : List ι) (i : ι) (label : Nat)

@[simp] theorem Item.binds_nil : Item.binds ([] : List (Item ι)) = [] := rfl

@[simp] theorem Item.binds_instr : Item.binds (.instr i :: items) = Item.binds items := rfl

@[simp] theorem Item.binds_bind : Item.binds (.bind label :: items) = label :: Item.binds items :=
  rfl

@[simp] theorem Item.binds_append :
    Item.binds (items ++ rest) = Item.binds items ++ Item.binds rest :=
  List.filterMap_append

@[simp] theorem Item.binds_instrs : Item.binds (is.map .instr) = [] := by
  induction is with
  | nil => rfl
  | cons i is ih => exact ih

@[simp] theorem Item.count_nil : Item.count ([] : List (Item ι)) = 0 := rfl

@[simp] theorem Item.count_instr : Item.count (.instr i :: items) = Item.count items + 1 :=
  List.countP_cons_of_pos rfl

@[simp] theorem Item.count_bind : Item.count (.bind label :: items) = Item.count items :=
  List.countP_cons_of_neg (by simp [Item.label?])

@[simp] theorem Item.count_append :
    Item.count (items ++ rest) = Item.count items + Item.count rest :=
  List.countP_append

@[simp] theorem Item.count_instrs : Item.count (is.map .instr) = is.length := by
  induction is with
  | nil => rfl
  | cons i is ih => rw [List.map_cons, Item.count_instr, ih, List.length_cons]

/-- Encoding instructions one by one changes neither. -/
theorem Item.map_encode {g : Item ι → Item κ} (hg : ∀ item, (g item).label? = item.label?) :
    Item.binds (items.map g) = Item.binds items ∧ Item.count (items.map g) = Item.count items := by
  have hcomp : Item.label? ∘ g = Item.label? := funext hg
  refine ⟨?_, ?_⟩
  · rw [Item.binds, Item.binds, List.filterMap_map, hcomp]
  · rw [Item.count, Item.count, List.countP_map]
    exact congrArg (List.countP · items) (funext fun item => by simp only [Function.comp, hg])

end items

namespace Emission

/-- An emission that binds `named` labels and those it takes from `next`
on, each once, and has at most `n` instructions. -/
structure Tight {ι : Type} (named : List Nat) (next n : Nat) (e : Emission ι) : Prop where
  grows : next ≤ e.next
  binds : Item.binds e.items = named ++ List.range' next (e.next - next)
  short : Item.count e.items ≤ n

/-- A way to emit code, given the next free label, that never fails. -/
def Emits {ι : Type} (f : Nat → Except Violation (Emission ι)) (named : List Nat) (n : Nat) :
    Prop :=
  ∀ next, ∃ e, f next = .ok e ∧ e.Tight named next n

variable {ι : Type} {next n : Nat}

/-- Straight-line code takes no label. -/
theorem tight_ofInstrs {is : List ι} (h : is.length ≤ n) : (ofInstrs next is).Tight [] next n where
  grows := Nat.le_refl next
  binds := by simp [ofInstrs]
  short := by simpa [ofInstrs] using h

/-- Code with one label of its own. -/
theorem tight_own {s t : List ι} (h : s.length + t.length ≤ n) :
    Tight [] next n ⟨s.map .instr ++ .bind next :: t.map .instr, next + 1⟩ where
  grows := Nat.le_succ next
  binds := by simp [List.range'_one]
  short := by simpa using h

theorem Tight.mono {named : List Nat} {e : Emission ι} {m : Nat} (h : e.Tight named next n)
    (hle : n ≤ m) : e.Tight named next m :=
  ⟨h.grows, h.binds, Nat.le_trans h.short hle⟩

theorem Emits.mono {f : Nat → Except Violation (Emission ι)} {named : List Nat} {m : Nat}
    (h : Emits f named n) (hle : n ≤ m) : Emits f named m := by
  intro next
  obtain ⟨e, he, htight⟩ := h next
  exact ⟨e, he, htight.mono hle⟩

/-- Straight-line code that does not depend on the next label. -/
theorem emits_straight {f : Nat → Except Violation (Emission ι)} {is : List ι}
    (hf : ∀ next, f next = .ok (ofInstrs next is)) (h : is.length ≤ n) : Emits f [] n :=
  fun next => ⟨ofInstrs next is, hf next, tight_ofInstrs h⟩

/-- A computation of straight-line code. -/
theorem emits_instrs {x : Except Violation (List ι)} {is : List ι} (hx : x = .ok is)
    (h : is.length ≤ n) : Emits (fun next => x >>= fun is => pure (ofInstrs next is)) [] n := by
  subst hx
  exact emits_straight (fun _ => rfl) h

/-- Emissions one after the other: the labels of the second follow those of
the first. -/
theorem emits_concat {α : Type} {f : α → Nat → Except Violation (Emission ι)} {cost : α → Nat}
    (as : List α) (h : ∀ a ∈ as, Emits (f a) [] (cost a)) :
    Emits (concat f as) [] (as.map cost).sum := by
  induction as with
  | nil => exact fun next => ⟨_, rfl, Nat.le_refl next, by simp, Nat.le_refl 0⟩
  | cons a as ih =>
      intro next
      obtain ⟨e, he, hhead⟩ := h a (List.mem_cons_self ..) next
      obtain ⟨rest, hrest, htail⟩ := ih (fun b hb => h b (List.mem_cons_of_mem a hb)) e.next
      have hgrows := hhead.grows
      have hgrows' := htail.grows
      refine ⟨⟨e.items ++ rest.items, rest.next⟩, ?_, Nat.le_trans hgrows hgrows', ?_, ?_⟩
      · simp only [concat, he, hrest, bind, Except.bind]
        rfl
      · rw [Item.binds_append, hhead.binds, htail.binds, List.nil_append, List.nil_append,
          List.nil_append]
        have hstart : e.next = next + 1 * (e.next - next) := by omega
        have hsum : e.next - next + (rest.next - e.next) = rest.next - next := by omega
        conv => lhs; arg 2; rw [hstart]
        rw [List.range'_append, ← hstart, hsum]
      · rw [Item.count_append, List.map_cons, List.sum_cons]
        exact Nat.add_le_add hhead.short htail.short

/-- What was emitted for a list was emitted for each of it. -/
theorem concat_emitted {α : Type} {f : α → Nat → Except Violation (Emission ι)}
    (as : List α) : ∀ next,
      Yields (concat f as next) fun _ => ∀ a ∈ as, ∃ next e, f a next = .ok e := by
  induction as with
  | nil => exact fun next => yields_pure fun a ha => absurd ha (by simp)
  | cons a as ih =>
      refine fun next => yields_bind fun e he => yields_bind fun rest hrest => yields_pure ?_
      intro b hb
      rcases List.mem_cons.mp hb with rfl | hb
      · exact ⟨next, e, he⟩
      · exact ih e.next rest hrest b hb

end Emission

-- ========================================================== operations

/-- The labels an operation binds. -/
def Op.binds : Op → List Nat
  | .bind label => [label.index]
  | _ => []

/-- The target can carry out an operation, in at most `n` instructions. -/
def Target.Lowers (t : Target) (op : Op) (n : Nat) : Prop :=
  Emission.Emits (Assembler.lower t op) op.binds n

theorem Target.Lowers.mono {t : Target} {op : Op} {m n : Nat} (h : t.Lowers op m) (hle : m ≤ n) :
    t.Lowers op n :=
  Emission.Emits.mono h hle

theorem Target.lowers_x86 {op : Op} {n : Nat} (h : Emission.Emits (X86.lower op) op.binds n) :
    Target.x86_64.Lowers op n := by
  intro next
  obtain ⟨e, he, htight⟩ := h next
  simp only [Assembler.lower, he, Except.map]
  refine ⟨_, rfl, htight.grows, ?_, ?_⟩
  · rw [← htight.binds]
    exact (Item.map_encode e.items fun item => by cases item <;> rfl).1
  · rw [(Item.map_encode e.items fun item => by cases item <;> rfl).2]
    exact htight.short

theorem Target.lowers_arm64 {lse : Bool} {op : Op} {n : Nat}
    (h : Emission.Emits (A64.lower lse op) op.binds n) : (Target.arm64 lse).Lowers op n := by
  intro next
  obtain ⟨e, he, htight⟩ := h next
  simp only [Assembler.lower, he, Except.map]
  refine ⟨_, rfl, htight.grows, ?_, ?_⟩
  · rw [← htight.binds]
    exact (Item.map_encode e.items fun item => by cases item <;> rfl).1
  · rw [(Item.map_encode e.items fun item => by cases item <;> rfl).2]
    exact htight.short

-- ============================================================= append

/-- What appending items does to a buffer. Every instruction takes 15 bytes
at most. -/
structure Appended (items : List (Item Encoding)) (b b' : CodeBuffer) : Prop where
  grows : b.size ≤ b'.size
  size : b'.size ≤ b.size + 15 * Item.count items
  bound : ∀ l, b'.position? l = none ↔ b.position? l = none ∧ l ∉ Item.binds items
  inside : ∀ l p, b'.position? l = some p → b.position? l = some p ∨ p ≤ b'.size
  fixups : ∀ f ∈ b'.fixups.toList, f ∈ b.fixups.toList
    ∨ ∃ e, Item.instr e ∈ items ∧ branchOf e = some f.label

/-- A label that exists and is not bound can be bound. -/
theorem bind_ok {b : CodeBuffer} {label : Nat} (hlt : label < b.labels.size)
    (hfree : b.position? label = none) : ∃ b', b.bind label = .ok b' := by
  rw [CodeBuffer.position?, Array.getElem?_eq_getElem hlt] at hfree
  have hnone : b.labels[label] = none := hfree
  unfold CodeBuffer.bind
  rw [dif_pos hlt]
  split
  · next heq => rw [hnone] at heq; cases heq
  · exact ⟨_, rfl⟩

/-- Items can be appended if the labels they bind are different ones, exist
and are free. -/
theorem append_ok (items : List (Item Encoding)) :
    ∀ b : CodeBuffer, (Item.binds items).Nodup →
      (∀ l ∈ Item.binds items, l < b.labels.size ∧ b.position? l = none) →
      (∀ e, Item.instr e ∈ items → e.bytes.length ≤ 15) →
      ∃ b', Assembler.append b items = .ok b' ∧ Appended items b b' := by
  induction items with
  | nil =>
      intro b _ _ _
      exact ⟨b, rfl, Nat.le_refl _, Nat.le_refl _, by simp, fun _ _ h => .inl h, fun _ h => .inl h⟩
  | cons item items ih =>
      intro b hnodup hfree hlength
      cases item with
      | instr e =>
          obtain ⟨b', hb', h⟩ := ih (b.emit e) hnodup hfree
            fun e' he' => hlength e' (List.mem_cons_of_mem _ he')
          have hsize := emit_size b e
          have hlong := hlength e (List.mem_cons_self ..)
          have hgrows := h.grows
          have hle := h.size
          refine ⟨b', hb', by omega, ?_, h.bound, h.inside, fun f hf => ?_⟩
          · rw [Item.count_instr]
            omega
          · rcases h.fixups f hf with hf | ⟨e', he', hl⟩
            · rcases mem_emit_fixups hf with hf | ⟨g, hg, rfl⟩
              · exact .inl hf
              · exact .inr ⟨e, List.mem_cons_self .., by rw [branchOf, hg]; rfl⟩
            · exact .inr ⟨e', List.mem_cons_of_mem _ he', hl⟩
      | bind label =>
          obtain ⟨hfresh, hnodup⟩ := List.nodup_cons.mp hnodup
          obtain ⟨hlt, hnone⟩ := hfree label (List.mem_cons_self ..)
          obtain ⟨b₁, hb₁⟩ := bind_ok hlt hnone
          obtain ⟨hcode, hfixups, hlabels, -, hpos⟩ := bind_spec hb₁
          have hsize : b₁.size = b.size := congrArg Array.size hcode
          obtain ⟨b', hb', h⟩ := ih b₁ hnodup
            (fun l hl => by
              obtain ⟨hlt, hnone⟩ := hfree l (List.mem_cons_of_mem _ hl)
              have hne : l ≠ label := fun heq => hfresh (heq ▸ hl)
              rw [hlabels, hpos, if_neg hne]
              exact ⟨hlt, hnone⟩)
            fun e' he' => hlength e' (List.mem_cons_of_mem _ he')
          have hgrows := h.grows
          have hle := h.size
          refine ⟨b', ?_, by omega, ?_, fun l => ?_, fun l p hp => ?_, fun f hf => ?_⟩
          · rw [Assembler.append, hb₁]
            exact hb'
          · rw [Item.count_bind]
            omega
          · rw [h.bound, hpos, Item.binds_bind, List.mem_cons]
            split
            · next heq => simp [heq]
            · next hne => simp [hne]
          · rcases h.inside l p hp with hp | hp
            · rw [hpos] at hp
              split at hp
              · injection hp with hp
                exact .inr (by omega)
              · exact .inl hp
            · exact .inr hp
          · rcases h.fixups f hf with hf | ⟨e', he', hl⟩
            · exact .inl (hfixups ▸ hf)
            · exact .inr ⟨e', List.mem_cons_of_mem _ he', hl⟩

namespace Assembler

/-- Every instruction of an operation takes 15 bytes at most. -/
theorem lower_length (t : Target) (op : Op) (next : Nat) :
    Yields (lower t op next) fun e => ∀ enc, .instr enc ∈ e.items → enc.bytes.length ≤ 15 := by
  intro e he enc henc
  cases t with
  | x86_64 =>
      cases h : X86.lower op next with
      | error v => simp [lower, h, Except.map] at he
      | ok e₀ =>
          simp only [lower, h, Except.map, Except.ok.injEq] at he
          subst he
          obtain ⟨item, -, hg⟩ := List.mem_map.mp henc
          cases item with
          | instr i => injection hg with hg; subst hg; exact i.bytes_length
          | bind l => cases hg
  | arm64 lse =>
      cases h : A64.lower lse op next with
      | error v => simp [lower, h, Except.map] at he
      | ok e₀ =>
          simp only [lower, h, Except.map, Except.ok.injEq] at he
          subst he
          obtain ⟨item, -, hg⟩ := List.mem_map.mp henc
          cases item with
          | instr i => injection hg with hg; subst hg; exact Nat.le_of_ble_eq_true rfl
          | bind l => cases hg

/-- A label of the assembler's own passes the check. -/
theorem checkLabel_forM_ok {a : Assembler} {ls : List Label}
    (h : ∀ l ∈ ls, l.isa = a.isa ∧ l.owner = a.owner) : ls.forM a.checkLabel = .ok () := by
  induction ls with
  | nil => rfl
  | cons l ls ih =>
      obtain ⟨hisa, howner⟩ := h l (List.mem_cons_self ..)
      have hl : a.checkLabel l = .ok () := by simp [checkLabel, hisa, howner]
      have hrest := ih fun l' hl' => h l' (List.mem_cons_of_mem l hl')
      show (a.checkLabel l >>= fun _ => ls.forM a.checkLabel) = .ok ()
      rw [hl, hrest]
      rfl

end Assembler

-- ================================================================ runs

/-- An assembler in the middle of a program: of the labels `ls` it was
handed, the program has bound `bound` and named `named`, and it has emitted
`n` instructions at most. -/
structure Stage (t : Target) (ls : List Label) (bound named : List Nat) (n : Nat) (a : Assembler) :
    Prop where
  sound : Sound t ls a
  own : ∀ l ∈ ls, l.isa = a.isa ∧ l.owner = a.owner
  free : ∀ l ∈ ls, l.index ∉ bound → a.buffer.position? l.index = none
  bound : ∀ l ∈ bound, a.buffer.position? l ≠ none
  named : ∀ f ∈ a.buffer.fixups.toList, (∃ l ∈ ls, l.index = f.label) → f.label ∈ named
  inside : ∀ l p, a.buffer.position? l = some p → p ≤ a.buffer.size
  size : a.buffer.size ≤ 15 * n

/-- The first `n` labels of an assembler. -/
def firstLabels (t : Target) (owner n : Nat) : List Label :=
  (List.range n).map fun index => ⟨t.isa, owner, index⟩

/-- An assembler that has handed out `n` labels and done nothing else. -/
theorem stage_start (t : Target) (owner n : Nat) :
    Stage t (firstLabels t owner n) [] [] 0
      { target := t, owner, buffer := { labels := Array.replicate n none } } := by
  have hreserve : ({ labels := Array.replicate n none } : CodeBuffer) = Assembler.reserve {} n := by
    simp [Assembler.reserve]
  have hfree : ∀ l, (Assembler.reserve {} n).position? l = none := by
    intro l
    rw [position?_reserve]
    rfl
  have hindex : ∀ l ∈ firstLabels t owner n, l.isa = t.isa ∧ l.owner = owner ∧ l.index < n := by
    intro l hl
    obtain ⟨i, hi, rfl⟩ := List.mem_map.mp hl
    exact ⟨rfl, rfl, List.mem_range.mp hi⟩
  rw [hreserve]
  refine ⟨⟨rfl, rfl, (laid_empty t).reserve n, ⟨[], (emitted_empty t).reserve n⟩, fun l hl => ?_,
      fun i hi hne => ?_⟩,
    fun l hl => ⟨(hindex l hl).1, (hindex l hl).2.1⟩, fun l _ _ => hfree l.index,
    fun l hl => absurd hl (by simp), fun f hf => absurd hf (by simp [Assembler.reserve]),
    fun l p hp => ?_, Nat.le_refl 0⟩
  · rw [reserve_labels_size]
    exact Nat.lt_of_lt_of_le (hindex l hl).2.2 (Nat.le_max_right ..)
  · rw [reserve_labels_size] at hi
    have hmem : ⟨t.isa, owner, i⟩ ∈ firstLabels t owner n :=
      List.mem_map.mpr ⟨i, List.mem_range.mpr (by simpa using hi), rfl⟩
    exact absurd rfl (hne _ hmem)
  · simp only [hfree] at hp
    cases hp

/-- An operation goes through if its target can lower it, its labels were
handed out, it binds none a second time and leaves the frame in order. -/
theorem Stage.apply {t : Target} {ls : List Label} {bound named : List Nat} {n k cfa : Nat}
    {a : Assembler} {op : Op} (h : Stage t ls bound named n a) (hop : t.Lowers op k)
    (hlabels : ∀ l ∈ op.labels, l ∈ ls) (hnodup : (bound ++ op.binds).Nodup)
    (hcfa : Assembler.cfaAfter t a.cfaOffset op = .ok cfa) :
    ∃ a', a.apply op = .ok a' ∧ a'.cfaOffset = cfa
      ∧ Stage t ls (bound ++ op.binds) (named ++ op.labels.map (·.index)) (n + k) a' := by
  obtain ⟨e, he, htight⟩ := hop a.buffer.labels.size
  obtain ⟨hclosed, -⟩ := Assembler.lower_spec t op _ e he
  have hsize : (Assembler.reserve a.buffer e.next).labels.size = e.next := by
    rw [reserve_labels_size]
    exact Nat.max_eq_right hclosed.grows
  -- what is bound now is a handed-out label or one that did not exist before
  have hbinds : ∀ l ∈ op.binds, ∃ l' ∈ ls, l'.index = l := by
    intro l hl
    cases op with
    | bind label =>
        exact ⟨label, hlabels label (List.mem_cons_self ..), (List.mem_singleton.mp hl).symm⟩
    | _ => cases hl
  have hnew : ∀ l, a.buffer.labels.size ≤ l → a.buffer.position? l = none := by
    intro l hl
    rw [CodeBuffer.position?, Array.getElem?_eq_none hl]
    rfl
  have hdistinct : (Item.binds e.items).Nodup := by
    rw [htight.binds, List.nodup_append]
    refine ⟨(List.nodup_append.mp hnodup).2.1, List.nodup_range', fun l hl l' hl' => ?_⟩
    obtain ⟨label, hlabel, rfl⟩ := hbinds l hl
    have := h.sound.handed label hlabel
    have := List.mem_range'_1.mp hl'
    omega
  obtain ⟨b, hb, happ⟩ := append_ok e.items (Assembler.reserve a.buffer e.next) hdistinct
    (fun l hl => by
      rw [hsize, position?_reserve]
      rw [htight.binds, List.mem_append] at hl
      rcases hl with hl | hl
      · obtain ⟨label, hlabel, rfl⟩ := hbinds l hl
        have hlt := h.sound.handed label hlabel
        refine ⟨Nat.lt_of_lt_of_le hlt hclosed.grows, h.free label hlabel fun hmem => ?_⟩
        exact (List.nodup_append.mp hnodup).2.2 _ hmem _ hl rfl
      · have hrange := List.mem_range'_1.mp hl
        have hgrows := htight.grows
        exact ⟨by omega, hnew l hrange.1⟩)
    (Assembler.lower_length t op _ e he)
  have happly : a.apply op = .ok { a with buffer := b, cfaOffset := cfa } := by
    have hcheck := Assembler.checkLabel_forM_ok fun l hl => h.own l (hlabels l hl)
    simp only [Assembler.apply, hcheck, h.sound.target, he, hcfa, hb, bind, Except.bind]
    rfl
  have hbytes : (Assembler.reserve a.buffer e.next).size = a.buffer.size := rfl
  have hgrows := happ.grows
  have hle := happ.size
  have hshort := htight.short
  have hbefore := h.size
  rw [hbytes] at hgrows hle
  refine ⟨_, happly, rfl, h.sound.apply (fun l hl _ _ => hlabels l hl) happly, h.own,
    fun l hl hfree => ?_, fun l hl => ?_, fun f hf hown => ?_, fun l p hp => ?_, ?_⟩
  · rw [List.mem_append, not_or] at hfree
    refine (happ.bound l.index).mpr ⟨?_, fun hmem => ?_⟩
    · rw [position?_reserve]
      exact h.free l hl hfree.1
    · rw [htight.binds, List.mem_append] at hmem
      have hlt := h.sound.handed l hl
      exact hmem.elim hfree.2 fun hmem => absurd (List.mem_range'_1.mp hmem).1 (by omega)
  · intro hnone
    obtain ⟨hold, hnot⟩ := (happ.bound l).mp hnone
    rw [position?_reserve] at hold
    rcases List.mem_append.mp hl with hl | hl
    · exact h.bound l hl hold
    · exact hnot (by rw [htight.binds]; exact List.mem_append_left _ hl)
  · rcases happ.fixups f hf with hf | ⟨enc, henc, hbranch⟩
    · exact List.mem_append_left _ (h.named f hf hown)
    · rcases hclosed.branches enc henc f.label hbranch with hgiven | ⟨hge, -⟩
      · exact List.mem_append_right _ hgiven
      · obtain ⟨l, hl, heq⟩ := hown
        have := h.sound.handed l hl
        omega
  · rcases happ.inside l p hp with hp | hp
    · rw [position?_reserve] at hp
      exact Nat.le_trans (h.inside l p hp) hgrows
    · exact hp
  · show b.size ≤ 15 * (n + k)
    omega

/-- A program goes through if each of its operations does. -/
theorem Stage.applyAll {t : Target} {ls : List Label} {cost : Op → Nat} (ops : List Op) :
    ∀ {bound named : List Nat} {n : Nat} {a : Assembler}, Stage t ls bound named n a →
      (∀ op ∈ ops, t.Lowers op (cost op)) → (∀ op ∈ ops, ∀ l ∈ op.labels, l ∈ ls) →
      (bound ++ ops.flatMap Op.binds).Nodup →
      (∃ cfa, ops.foldlM (Assembler.cfaAfter t) a.cfaOffset = .ok cfa) →
      ∃ a', a.applyAll ops = .ok a'
        ∧ Stage t ls (bound ++ ops.flatMap Op.binds)
          (named ++ ops.flatMap fun op => op.labels.map (·.index)) (n + (ops.map cost).sum) a' := by
  induction ops with
  | nil =>
      intro bound named n a h _ _ _ _
      refine ⟨a, rfl, ?_⟩
      simpa using h
  | cons op ops ih =>
      intro bound named n a h hemits hlabels hnodup hcfa
      rw [List.flatMap_cons, ← List.append_assoc] at hnodup
      obtain ⟨cfa, hcfa⟩ := hcfa
      rw [List.foldlM_cons] at hcfa
      obtain ⟨cfa₁, hcfa₁, hcfa⟩ := bind_eq_ok hcfa
      obtain ⟨a₁, ha₁, heq, h₁⟩ := h.apply (hemits op (List.mem_cons_self ..))
        (hlabels op (List.mem_cons_self ..)) (List.nodup_append.mp hnodup).1 hcfa₁
      obtain ⟨a', ha', h'⟩ := ih h₁ (fun o ho => hemits o (List.mem_cons_of_mem op ho))
        (fun o ho => hlabels o (List.mem_cons_of_mem op ho)) hnodup ⟨cfa, by rw [heq]; exact hcfa⟩
      refine ⟨a', ?_, ?_⟩
      · rw [Assembler.applyAll, List.foldlM_cons, ha₁]
        exact ha'
      · simpa only [List.flatMap_cons, List.map_cons, List.sum_cons, List.append_assoc,
          Nat.add_assoc] using h'

/-- A program that went through has lowered each of its operations. -/
theorem Assembler.applyAll_lowered (ops : List Op) : ∀ a : Assembler,
    Yields (a.applyAll ops) fun _ => ∀ op ∈ ops, ∃ next e, lower a.target op next = .ok e := by
  induction ops with
  | nil => exact fun a => yields_pure fun op hop => absurd hop (by simp)
  | cons op ops ih =>
      intro a
      rw [applyAll, List.foldlM_cons]
      refine yields_bind fun a₁ ha₁ => fun a' ha' o ho => ?_
      obtain ⟨-, e, he, -, htarget, -⟩ := apply_eq_ok ha₁
      rcases List.mem_cons.mp ho with rfl | ho
      · exact ⟨_, e, he⟩
      · exact htarget ▸ ih a₁ a' ha' o ho

-- ========================================================== finalizing

/-- Code shorter than this is within the reach of every branch. -/
def Target.reach : Target → Nat
  | .x86_64 => 2 ^ 31
  | .arm64 _ => 2 ^ 20

/-- Branches inside short code reach their targets. -/
theorem Laid.reaches {t : Target} {b : CodeBuffer} (h : Laid t b) (hshort : b.size < t.reach)
    {f : Fixup} (hf : f ∈ b.fixups.toList) {target : Nat} (htarget : target ≤ b.size) :
    f.kind.reaches f.at_ target = true := by
  have hinside := h.inside f hf
  have hkind := h.kinds f hf
  cases hk : f.kind with
  | rel32 =>
      have hlimit : t.reach ≤ 2 ^ 31 := by
        cases t with
        | x86_64 => exact Nat.le_refl _
        | arm64 lse => exact Nat.pow_le_pow_right (by decide) (by decide)
      simp only [FieldKind.reaches, Bool.and_eq_true, decide_eq_true_eq]
      omega
  | imm26 | imm19 =>
      have hlimit : t.reach ≤ 2 ^ 20 := by
        rw [hk] at hkind
        cases t with
        | x86_64 => exact absurd hkind (by decide)
        | arm64 lse => exact Nat.le_refl _
      simp only [FieldKind.reaches, Bool.and_eq_true, decide_eq_true_eq]
      omega

/-- Short code in which every named label is bound can be finalized. -/
theorem Stage.finalize_ok {t : Target} {ls : List Label} {bound named : List Nat} {n : Nat}
    {a : Assembler} (h : Stage t ls bound named n a) (hnamed : ∀ l ∈ named, l ∈ bound)
    (hshort : 15 * n < t.reach) : ∃ a' code, a.finalize = .ok a' ∧ a'.code = .ok code := by
  have hlaid := h.sound.laid
  have hclean : a.buffer.fixups.toList.findSome? a.buffer.offence? = none := by
    refine List.findSome?_eq_none_iff.mpr fun f hf => CodeBuffer.offence?_eq_none.mpr ?_
    have hbound : ∃ target, a.buffer.position? f.label = some target := by
      by_cases hown : ∃ l ∈ ls, l.index = f.label
      · exact Option.ne_none_iff_exists'.mp (h.bound _ (hnamed _ (h.named f hf hown)))
      · exact h.sound.own f.label (hlaid.known f hf) fun l hl heq => hown ⟨l, hl, heq⟩
    obtain ⟨target, htarget⟩ := hbound
    have hsize := h.size
    exact ⟨target, htarget, hlaid.reaches (by omega) hf (h.inside _ _ htarget)⟩
  obtain ⟨code, hall, -⟩ := CodeBuffer.patchAll_spec a.buffer a.buffer.fixups.toList
    a.buffer.code hlaid.inside hlaid.apart hlaid.patchable.aligned
  rw [hclean] at hall
  have hresolve : a.buffer.resolve
      = .ok (none, { a.buffer with code := code, fixups := #[] }) := by
    rw [CodeBuffer.resolve, hall]
  refine ⟨{ a with buffer := { a.buffer with code := code, fixups := #[] }, finalized := true },
    code, ?_, rfl⟩
  simp only [Assembler.finalize, h.sound.open_, hresolve]
  rfl

end Glue

end Crossing
