import Crossing.Glue.Assembler
import Crossing.Proofs.Code.Resolve
import Crossing.Proofs.Yields

/-
What glue operations may do to a code buffer. An emission is *closed* when
it binds every label it took for itself and branches only to labels it was
given or took itself; a buffer is *laid out* when its fields lie inside the
code, share no byte, name labels that exist, and keep the alignment of the
instruction set. Appending a closed emission keeps a buffer laid out and
binds what the emission took: that is the whole interface between the two
instruction sets and the assembler.
-/
namespace Crossing.Glue

open Code

-- ==================================================== closed emissions

/-- Code that branches to `given` labels only. `branch` tells an
instruction's target. -/
def Within {ι : Type} (branch : ι → Option Nat) (given : List Nat) (is : List ι) : Prop :=
  ∀ i ∈ is, ∀ l, branch i = some l → l ∈ given

namespace Emission

/-- Items that branch to `given` labels and to labels from `next` on, and
bind all of the latter. -/
structure Closed {ι : Type} (branch : ι → Option Nat) (given : List Nat) (next : Nat)
    (e : Emission ι) : Prop where
  grows : next ≤ e.next
  branches : ∀ i, Item.instr i ∈ e.items → ∀ l, branch i = some l →
    l ∈ given ∨ (next ≤ l ∧ l < e.next)
  bound : ∀ l, next ≤ l → l < e.next → Item.bind l ∈ e.items

variable {ι : Type} {branch : ι → Option Nat} {given : List Nat} {next : Nat}

/-- Straight-line code is closed if it branches to given labels only. -/
theorem closed_ofInstrs {is : List ι} (h : Within branch given is) :
    (ofInstrs next is).Closed branch given next where
  grows := Nat.le_refl next
  branches i hi l hl := by
    simp only [ofInstrs, List.mem_map, Item.instr.injEq, exists_eq_right] at hi
    exact .inl (h i hi l hl)
  bound l hlo hhi := absurd hhi (Nat.not_lt.mpr hlo)

/-- Code with one label of its own, bound somewhere in it: before a loop, or
behind what is skipped. -/
theorem closed_own {s t : List ι} (hs : Within branch (next :: given) s)
    (ht : Within branch (next :: given) t) :
    Closed branch given next ⟨s.map .instr ++ .bind next :: t.map .instr, next + 1⟩ where
  grows := Nat.le_succ next
  branches i hi l hl := by
    have hmem : l ∈ next :: given := by
      simp only [List.mem_append, List.mem_map, List.mem_cons, Item.instr.injEq,
        exists_eq_right, reduceCtorEq, false_or] at hi
      rcases hi with hi | hi
      · exact hs i hi l hl
      · exact ht i hi l hl
    rcases List.mem_cons.mp hmem with rfl | hmem
    · exact .inr ⟨Nat.le_refl l, Nat.lt_succ_self l⟩
    · exact .inl hmem
  bound l hlo hhi := by
    obtain rfl : l = next := Nat.le_antisymm (Nat.le_of_lt_succ hhi) hlo
    simp

/-- Emissions one after the other are closed if each is. -/
theorem closed_concat {α : Type} {f : α → Nat → Except Violation (Emission ι)}
    (hf : ∀ a next, Yields (f a next) (Closed branch given next)) (as : List α) :
    ∀ next, Yields (concat f as next) (Closed branch given next) := by
  induction as with
  | nil =>
      intro next
      refine yields_pure ⟨Nat.le_refl next, fun i hi => absurd hi (by simp), fun l hlo hhi => ?_⟩
      exact absurd hhi (Nat.not_lt.mpr hlo)
  | cons a as ih =>
      intro next
      refine yields_bind fun e he => yields_bind fun rest hrest => yields_pure ?_
      have hhead := hf a next e he
      have htail := ih e.next rest hrest
      refine ⟨Nat.le_trans hhead.grows htail.grows, fun i hi l hl => ?_, fun l hlo hhi => ?_⟩
      · rcases List.mem_append.mp hi with hi | hi
        · rcases hhead.branches i hi l hl with hg | hown
          · exact .inl hg
          · exact .inr ⟨hown.1, Nat.lt_of_lt_of_le hown.2 htail.grows⟩
        · rcases htail.branches i hi l hl with hg | hown
          · exact .inl hg
          · exact .inr ⟨Nat.le_trans hhead.grows hown.1, hown.2⟩
      · rcases Nat.lt_or_ge l e.next with hl | hl
        · exact List.mem_append_left _ (hhead.bound l hlo hl)
        · exact List.mem_append_right _ (htail.bound l hl hhi)

end Emission

-- -------------------------------------------------- straight-line code

/-- Code without a branch. -/
def Straight {ι : Type} (branch : ι → Option Nat) (is : List ι) : Prop :=
  ∀ i ∈ is, branch i = none

section Straight

variable {ι α : Type} {branch : ι → Option Nat} {is js : List ι}

theorem straight_nil : Straight branch [] := fun i hi => absurd hi (by simp)

theorem straight_cons {i : ι} (hi : branch i = none) (his : Straight branch is) :
    Straight branch (i :: is) := by
  intro j hj
  rcases List.mem_cons.mp hj with rfl | hj
  · exact hi
  · exact his j hj

theorem straight_one {i : ι} (hi : branch i = none) : Straight branch [i] :=
  straight_cons hi straight_nil

theorem straight_append (his : Straight branch is) (hjs : Straight branch js) :
    Straight branch (is ++ js) := by
  intro i hi
  rcases List.mem_append.mp hi with hi | hi
  · exact his i hi
  · exact hjs i hi

theorem straight_map {f : α → ι} (h : ∀ a, branch (f a) = none) (as : List α) :
    Straight branch (as.map f) := by
  intro i hi
  obtain ⟨a, -, rfl⟩ := List.mem_map.mp hi
  exact h a

/-- Straight-line code branches within any labels. -/
theorem Straight.within (h : Straight branch is) (given : List Nat) : Within branch given is :=
  fun i hi l hl => by rw [h i hi] at hl; cases hl

/-- Straight-line code is closed under any labels. -/
theorem Straight.closed (h : Straight branch is) (given : List Nat) (next : Nat) :
    (Emission.ofInstrs next is).Closed branch given next :=
  Emission.closed_ofInstrs (h.within given)

/-- One more instruction, which does not branch. -/
theorem within_cons {given : List Nat} {i : ι} (hi : branch i = none)
    (his : Within branch given is) : Within branch given (i :: is) := by
  intro j hj l hl
  rcases List.mem_cons.mp hj with rfl | hj
  · rw [hi] at hl
    cases hl
  · exact his j hj l hl

/-- One more instruction, which branches to a given label. -/
theorem within_jump {given : List Nat} {i : ι} {l : Nat} (hi : branch i = some l) (hl : l ∈ given)
    (his : Within branch given is) : Within branch given (i :: is) := by
  intro j hj l' hl'
  rcases List.mem_cons.mp hj with rfl | hj
  · rw [hi] at hl'
    injection hl' with hl'
    exact hl' ▸ hl
  · exact his j hj l' hl'

theorem within_append {given : List Nat} (his : Within branch given is)
    (hjs : Within branch given js) : Within branch given (is ++ js) := by
  intro i hi
  rcases List.mem_append.mp hi with hi | hi
  · exact his i hi
  · exact hjs i hi

/-- A computation of straight-line code gives closed code. -/
theorem yields_straight {x : Except Violation (List ι)} (h : Yields x (Straight branch))
    (given : List Nat) (next : Nat) :
    Yields (x >>= fun is => pure (Emission.ofInstrs next is))
      (Emission.Closed branch given next) :=
  yields_bind fun is his => yields_pure ((h is his).closed given next)

end Straight

-- ========================================================== encodings

/-- Instructions start at multiples of this. -/
def Target.alignment : Target → Nat
  | .x86_64 => 1
  | .arm64 _ => 4

/-- What the assembler relies on in an encoded instruction: it keeps the
alignment, and its branch field, if it has one, lies inside its bytes and
counts words only where instructions are words. -/
structure Target.Encodes (t : Target) (e : Encoding) : Prop where
  size : t.alignment ∣ e.bytes.length
  inside : ∀ f, e.field = some f → f.at_ + 4 ≤ e.bytes.length
  start : ∀ f, e.field = some f → t.alignment ∣ f.at_
  kind : ∀ f, e.field = some f → f.kind = .rel32 ∨ t.alignment = 4

/-- The label an encoded instruction branches to. -/
def branchOf (e : Encoding) : Option Nat := e.field.map (·.label)

-- ===================================================== laid-out buffers

/-- A buffer as instructions of target `t` leave it. -/
structure Laid (t : Target) (b : CodeBuffer) : Prop where
  inside : ∀ f ∈ b.fixups.toList, f.at_ + 4 ≤ b.size
  apart : b.fixups.toList.Pairwise Fixup.Apart
  known : ∀ f ∈ b.fixups.toList, f.label < b.labels.size
  size : t.alignment ∣ b.size
  starts : ∀ f ∈ b.fixups.toList, t.alignment ∣ f.at_
  positions : ∀ l p, b.position? l = some p → t.alignment ∣ p
  kinds : ∀ f ∈ b.fixups.toList, f.kind = .rel32 ∨ t.alignment = 4

/-- A laid-out buffer can be patched: on x86-64 no field counts words, on
ARM64 fields and labels are at words. -/
theorem Laid.patchable {t : Target} {b : CodeBuffer} (h : Laid t b) : b.Patchable where
  inside := h.inside
  apart := h.apart
  aligned f hf target hpos hkind := by
    rcases h.kinds f hf with hrel | hfour
    · exact absurd hrel hkind
    · have hstart := h.starts f hf
      have htarget := h.positions f.label target hpos
      rw [hfour] at hstart htarget
      omega

/-- An empty buffer is laid out. -/
theorem laid_empty (t : Target) : Laid t {} where
  inside f hf := absurd hf (by simp)
  apart := List.Pairwise.nil
  known f hf := absurd hf (by simp)
  size := Nat.dvd_zero _
  starts f hf := absurd hf (by simp)
  positions l p hp := by simp [CodeBuffer.position?] at hp
  kinds f hf := absurd hf (by simp)

-- -------------------------------------------------------------- emitting

/-- The field an instruction adds to a buffer. -/
def placed (b : CodeBuffer) (f : Fixup) : Fixup := { f with at_ := b.size + f.at_ }

/-- The fields after an emission: those before, and the instruction's own
at its place. -/
theorem emit_fixups (b : CodeBuffer) (e : Encoding) :
    (b.emit e).fixups.toList = b.fixups.toList ++ (e.field.map (placed b)).toList := by
  unfold CodeBuffer.emit
  cases e.field with
  | none => simp
  | some f => simp [placed, CodeBuffer.size]

theorem emit_size (b : CodeBuffer) (e : Encoding) :
    (b.emit e).size = b.size + e.bytes.length := by
  rw [CodeBuffer.size, CodeBuffer.size, CodeBuffer.emit, ← Array.length_toList,
    Array.toList_appendList, List.length_append, Array.length_toList]

/-- A field after an emission was there before, or is the instruction's. -/
theorem mem_emit_fixups {b : CodeBuffer} {e : Encoding} {f : Fixup}
    (h : f ∈ (b.emit e).fixups.toList) :
    f ∈ b.fixups.toList ∨ ∃ g, e.field = some g ∧ f = placed b g := by
  rw [emit_fixups, List.mem_append, Option.mem_toList, Option.map_eq_some_iff] at h
  rcases h with h | ⟨g, hg, rfl⟩
  · exact .inl h
  · exact .inr ⟨g, hg, rfl⟩

/-- Emitting keeps a buffer laid out: the new field starts where the code
ended, so it is apart from all others. -/
theorem Laid.emit {t : Target} {b : CodeBuffer} {e : Encoding} (h : Laid t b) (he : t.Encodes e)
    (hknown : ∀ l, branchOf e = some l → l < b.labels.size) : Laid t (b.emit e) where
  inside f hf := by
    rw [emit_size]
    rcases mem_emit_fixups hf with hf | ⟨g, hg, rfl⟩
    · have := h.inside f hf
      omega
    · have := he.inside g hg
      simp only [placed]
      omega
  apart := by
    rw [emit_fixups, List.pairwise_append]
    refine ⟨h.apart, ?_, fun f hf f' hf' => ?_⟩
    · cases e.field with
      | none => exact List.Pairwise.nil
      | some f => exact List.pairwise_singleton _ _
    · rw [Option.mem_toList, Option.map_eq_some_iff] at hf'
      obtain ⟨g, -, rfl⟩ := hf'
      have := h.inside f hf
      left
      simp only [placed]
      omega
  known f hf := by
    rcases mem_emit_fixups hf with hf | ⟨g, hg, rfl⟩
    · exact h.known f hf
    · exact hknown g.label (by rw [branchOf, hg]; rfl)
  size := by
    rw [emit_size]
    exact Nat.dvd_add h.size he.size
  starts f hf := by
    rcases mem_emit_fixups hf with hf | ⟨g, hg, rfl⟩
    · exact h.starts f hf
    · exact Nat.dvd_add h.size (he.start g hg)
  positions := h.positions
  kinds f hf := by
    rcases mem_emit_fixups hf with hf | ⟨g, hg, rfl⟩
    · exact h.kinds f hf
    · exact he.kind g hg

-- --------------------------------------------------------------- labels

/-- Handing out labels moves no label and leaves the rest alone. -/
theorem position?_reserve (b : CodeBuffer) (n l : Nat) :
    (Assembler.reserve b n).position? l = b.position? l := by
  unfold Assembler.reserve CodeBuffer.position?
  by_cases hl : l < b.labels.size
  · rw [Array.getElem?_append_left hl]
  · rw [Array.getElem?_append_right (by omega), Array.getElem?_replicate,
      Array.getElem?_eq_none (by omega)]
    split <;> rfl

theorem reserve_labels_size (b : CodeBuffer) (n : Nat) :
    (Assembler.reserve b n).labels.size = max b.labels.size n := by
  simp only [Assembler.reserve, Array.size_append, Array.size_replicate]
  omega

theorem Laid.reserve {t : Target} {b : CodeBuffer} (h : Laid t b) (n : Nat) :
    Laid t (Assembler.reserve b n) where
  inside := h.inside
  apart := h.apart
  known f hf := by
    have := h.known f hf
    rw [reserve_labels_size]
    omega
  size := h.size
  starts := h.starts
  positions l p hp := h.positions l p (position?_reserve b n l ▸ hp)
  kinds := h.kinds

/-- What binding a label changes: its position, and nothing else. -/
theorem bind_spec {b b' : CodeBuffer} {label : Nat} (h : b.bind label = .ok b') :
    b'.code = b.code ∧ b'.fixups = b.fixups ∧ b'.labels.size = b.labels.size
      ∧ b.position? label = none
      ∧ ∀ l, b'.position? l = if l = label then some b.size else b.position? l := by
  unfold CodeBuffer.bind at h
  split at h
  case isFalse => cases h
  case isTrue hlt =>
    split at h
    · cases h
    · next hnone =>
      injection h with h
      subst h
      refine ⟨rfl, rfl, Array.size_set hlt, ?_, fun l => ?_⟩
      · rw [CodeBuffer.position?, Array.getElem?_eq_getElem hlt, hnone]
        rfl
      · simp only [CodeBuffer.position?, Array.getElem?_set]
        by_cases hl : label = l
        · rw [if_pos hl, if_pos hl.symm]
          rfl
        · rw [if_neg hl, if_neg (Ne.symm hl)]

theorem Laid.bind {t : Target} {b b' : CodeBuffer} {label : Nat} (h : Laid t b)
    (hb : b.bind label = .ok b') : Laid t b' := by
  obtain ⟨hcode, hfixups, hlabels, -, hpos⟩ := bind_spec hb
  have hsize : b'.size = b.size := congrArg Array.size hcode
  refine ⟨?_, ?_, ?_, ?_, ?_, fun l p hp => ?_, ?_⟩
  · rw [hfixups, hsize]; exact h.inside
  · rw [hfixups]; exact h.apart
  · rw [hfixups, hlabels]; exact h.known
  · rw [hsize]; exact h.size
  · rw [hfixups]; exact h.starts
  · rw [hpos] at hp
    split at hp
    · injection hp with hp
      rw [← hp]
      exact h.size
    · exact h.positions l p hp
  · rw [hfixups]; exact h.kinds

-- ============================================================= append

/-- Appending items keeps a buffer laid out, leaves bound labels where they
are, and binds the labels that the items bind. -/
theorem append_spec {t : Target} (items : List (Item Encoding)) :
    ∀ {b b' : CodeBuffer}, Laid t b → Assembler.append b items = .ok b' →
      (∀ e, Item.instr e ∈ items → t.Encodes e) →
      (∀ e, Item.instr e ∈ items → ∀ l, branchOf e = some l → l < b.labels.size) →
      Laid t b' ∧ b'.labels.size = b.labels.size
        ∧ (∀ l p, b.position? l = some p → b'.position? l = some p)
        ∧ ∀ l, Item.bind l ∈ items → ∃ p, b'.position? l = some p := by
  induction items with
  | nil =>
      intro b b' h hb _ _
      injection hb with hb
      subst hb
      exact ⟨h, rfl, fun _ _ hp => hp, fun l hl => absurd hl (by simp)⟩
  | cons item items ih =>
      intro b b' h hb hencodes hknown
      cases item with
      | instr e =>
          have hlaid := h.emit (hencodes e (List.mem_cons_self ..))
            (hknown e (List.mem_cons_self ..))
          obtain ⟨hlaid', hsize, hkeep, hbinds⟩ := ih hlaid hb
            (fun e' he' => hencodes e' (List.mem_cons_of_mem _ he'))
            (fun e' he' => hknown e' (List.mem_cons_of_mem _ he'))
          refine ⟨hlaid', hsize, hkeep, fun l hl => hbinds l ?_⟩
          simpa using hl
      | bind label =>
          obtain ⟨b₁, hb₁, hb⟩ := bind_eq_ok hb
          obtain ⟨-, -, hlabels, hfree, hpos⟩ := bind_spec hb₁
          obtain ⟨hlaid', hsize, hkeep, hbinds⟩ := ih (h.bind hb₁) hb
            (fun e' he' => hencodes e' (List.mem_cons_of_mem _ he'))
            (fun e' he' => by
              rw [hlabels]
              exact hknown e' (List.mem_cons_of_mem _ he'))
          refine ⟨hlaid', hsize.trans hlabels, fun l p hp => hkeep l p ?_, fun l hl => ?_⟩
          · -- a bound label is not the one bound now
            rw [hpos, if_neg (fun hl => by rw [hl, hfree] at hp; cases hp)]
            exact hp
          · rcases List.mem_cons.mp hl with heq | hl
            · injection heq with heq
              exact ⟨b.size, hkeep l _ (by rw [hpos, if_pos heq])⟩
            · exact hbinds l hl

-- ======================================================== instructions

/-- An encoding is that of an instruction of the target. -/
def Target.Instruction (t : Target) (e : Encoding) : Prop :=
  match t with
  | .x86_64 => ∃ i : Crossing.X86.Instr, e = i.encode
  | .arm64 _ => ∃ i : Crossing.A64.Instr, e = i.encode

/-- The fields of instructions that stand one after the other, the first of
them at `at_`. -/
def fieldsOf (at_ : Nat) : List Encoding → List Fixup
  | [] => []
  | e :: es =>
      (e.field.map fun f => { f with at_ := at_ + f.at_ }).toList
        ++ fieldsOf (at_ + e.bytes.length) es

theorem fieldsOf_append (es es' : List Encoding) : ∀ at_,
    fieldsOf at_ (es ++ es') = fieldsOf at_ es ++ fieldsOf (at_ + (es.flatMap (·.bytes)).length) es' := by
  induction es with
  | nil => exact fun _ => rfl
  | cons e es ih =>
      intro at_
      rw [List.cons_append, fieldsOf, fieldsOf, ih, List.append_assoc, List.flatMap_cons,
        List.length_append, Nat.add_assoc]

/-- What a buffer holds are the instructions `es`, and every field of theirs
waits to be patched: none is missing, and there are no others. -/
structure Emitted (t : Target) (es : List Encoding) (b : CodeBuffer) : Prop where
  instructions : ∀ e ∈ es, t.Instruction e
  code : b.code.toList = es.flatMap (·.bytes)
  fixups : b.fixups.toList = fieldsOf 0 es

section Emitted

variable {t : Target} {es : List Encoding} {b : CodeBuffer}

theorem emitted_empty (t : Target) : Emitted t [] {} := ⟨fun _ h => absurd h (by simp), rfl, rfl⟩

theorem Emitted.emit {e : Encoding} (h : Emitted t es b) (he : t.Instruction e) :
    Emitted t (es ++ [e]) (b.emit e) where
  instructions e' he' := by
    rcases List.mem_append.mp he' with he' | he'
    · exact h.instructions e' he'
    · exact List.mem_singleton.mp he' ▸ he
  code := by
    rw [CodeBuffer.emit, Array.toList_appendList, h.code, List.flatMap_append]
    simp
  fixups := by
    have hsize : b.size = (es.flatMap (·.bytes)).length := by
      rw [← h.code, Array.length_toList, CodeBuffer.size]
    rw [emit_fixups, fieldsOf_append, h.fixups, fieldsOf, fieldsOf, List.append_nil, Nat.zero_add,
      ← hsize]
    rfl

/-- Labels are no instructions. -/
theorem Emitted.reserve (h : Emitted t es b) (n : Nat) : Emitted t es (Assembler.reserve b n) :=
  ⟨h.instructions, h.code, h.fixups⟩

theorem Emitted.bind {b' : CodeBuffer} {label : Nat} (h : Emitted t es b)
    (hb : b.bind label = .ok b') : Emitted t es b' := by
  obtain ⟨hcode, hfixups, -⟩ := bind_spec hb
  exact ⟨h.instructions, hcode ▸ h.code, hfixups ▸ h.fixups⟩

/-- Appending items emits their instructions behind those there are. -/
theorem Emitted.append (items : List (Item Encoding)) : ∀ {es : List Encoding} {b b' : CodeBuffer},
    Emitted t es b → Assembler.append b items = .ok b' →
      (∀ e, Item.instr e ∈ items → t.Instruction e) → ∃ es', Emitted t (es ++ es') b' := by
  induction items with
  | nil =>
      intro es b b' h hb _
      injection hb with hb
      subst hb
      exact ⟨[], by rw [List.append_nil]; exact h⟩
  | cons item items ih =>
      intro es b b' h hb hall
      have hrest := fun e he => hall e (List.mem_cons_of_mem _ he)
      cases item with
      | instr e =>
          obtain ⟨es', h'⟩ := ih (h.emit (hall e (List.mem_cons_self ..))) hb hrest
          exact ⟨e :: es', by rw [List.append_cons]; exact h'⟩
      | bind label =>
          obtain ⟨b₁, hb₁, hb⟩ := bind_eq_ok hb
          exact ih (h.bind hb₁) hb hrest

/-- The field of an emitted instruction is among those to patch. -/
theorem Emitted.field_mem {before after : List Encoding} {e : Encoding} {f : Fixup}
    (h : Emitted t (before ++ e :: after) b) (hf : e.field = some f) :
    { f with at_ := (before.flatMap (·.bytes)).length + f.at_ } ∈ b.fixups.toList := by
  rw [h.fixups, fieldsOf_append, fieldsOf, hf, Nat.zero_add]
  simp

end Emitted

end Crossing.Glue
