import Crossing.Proofs.Glue.A64
import Crossing.Proofs.Glue.X86

/-
Whole programs of glue operations. `Built` collects the assemblers that a
program can come to, with the labels it was handed on the way; an invariant
over it says that the code is always ready to be patched: every field is in
its place, and the only labels that can be left unbound are the program's
own. What finalizing can refuse follows from that.
-/
namespace Crossing.Glue

open Code

-- ========================================================= one operation

/-- Encoding instructions one by one keeps code closed. -/
theorem Emission.Closed.encode {ι : Type} {branch : ι → Option Nat} {given : List Nat} {next : Nat}
    {e : Emission ι} (h : e.Closed branch given next) {encode : ι → Encoding}
    (hbranch : ∀ i, branchOf (encode i) = branch i) {g : Item ι → Item Encoding}
    (hinstr : ∀ i, g (.instr i) = .instr (encode i)) (hbind : ∀ l, g (.bind l) = .bind l) :
    Closed branchOf given next ⟨e.items.map g, e.next⟩ where
  grows := h.grows
  branches enc henc l hl := by
    obtain ⟨item, hitem, hg⟩ := List.mem_map.mp henc
    cases item with
    | instr i =>
        rw [hinstr] at hg
        injection hg with hg
        subst hg
        exact h.branches i hitem l (hbranch i ▸ hl)
    | bind l' =>
        rw [hbind] at hg
        cases hg
  bound l hlo hhi := List.mem_map.mpr ⟨.bind l, h.bound l hlo hhi, hbind l⟩

/-- An instruction is what the assembler relies on. -/
theorem Target.Instruction.encodes {t : Target} {e : Encoding} (h : t.Instruction e) :
    t.Encodes e := by
  cases t with
  | x86_64 =>
      obtain ⟨i, rfl⟩ := h
      exact X86.encodes i
  | arm64 lse =>
      obtain ⟨i, rfl⟩ := h
      exact A64.encodes lse i

namespace Assembler

/-- What an operation is turned into, on either instruction set. -/
theorem lower_spec (t : Target) (op : Op) (next : Nat) :
    Yields (lower t op next) fun e => e.Closed branchOf (op.labels.map (·.index)) next
      ∧ ∀ enc, .instr enc ∈ e.items → t.Instruction enc := by
  intro e he
  cases t with
  | x86_64 =>
      cases h : X86.lower op next with
      | error v => simp [lower, h, Except.map] at he
      | ok e₀ =>
          simp only [lower, h, Except.map, Except.ok.injEq] at he
          subst he
          refine ⟨(X86.lower_closed op next e₀ h).encode (fun _ => rfl) (fun _ => rfl)
            (fun _ => rfl), fun enc henc => ?_⟩
          obtain ⟨item, -, hg⟩ := List.mem_map.mp henc
          cases item with
          | instr i => injection hg with hg; exact ⟨i, hg.symm⟩
          | bind l => cases hg
  | arm64 lse =>
      cases h : A64.lower lse op next with
      | error v => simp [lower, h, Except.map] at he
      | ok e₀ =>
          simp only [lower, h, Except.map, Except.ok.injEq] at he
          subst he
          refine ⟨(A64.lower_closed lse op next e₀ h).encode (fun _ => rfl) (fun _ => rfl)
            (fun _ => rfl), fun enc henc => ?_⟩
          obtain ⟨item, -, hg⟩ := List.mem_map.mp henc
          cases item with
          | instr i => injection hg with hg; exact ⟨i, hg.symm⟩
          | bind l => cases hg

/-- Labels that pass the check are the assembler's own. -/
theorem checkLabel_forM {a : Assembler} {ls : List Label} {u : Unit}
    (h : ls.forM a.checkLabel = .ok u) : ∀ l ∈ ls, l.isa = a.isa ∧ l.owner = a.owner := by
  induction ls with
  | nil => exact fun l hl => absurd hl (by simp)
  | cons l ls ih =>
      obtain ⟨_, hl, hls⟩ := bind_eq_ok h
      unfold checkLabel at hl
      split at hl
      · cases hl
      · next hisa =>
        split at hl
        · cases hl
        · next howner =>
          intro l' hl'
          rcases List.mem_cons.mp hl' with rfl | hl'
          · exact ⟨Decidable.of_not_not hisa, Decidable.of_not_not howner⟩
          · exact ih hls l' hl'

/-- A carried-out operation: its labels are the assembler's, its items went
into the buffer after the labels they take, and the frame was counted. -/
theorem apply_eq_ok {a a' : Assembler} {op : Op} (h : a.apply op = .ok a') :
    (∀ l ∈ op.labels, l.isa = a.isa ∧ l.owner = a.owner)
      ∧ ∃ e, lower a.target op a.buffer.labels.size = .ok e
        ∧ append (reserve a.buffer e.next) e.items = .ok a'.buffer
        ∧ a'.target = a.target ∧ a'.owner = a.owner ∧ a'.finalized = a.finalized
        ∧ cfaAfter a.target a.cfaOffset op = .ok a'.cfaOffset := by
  obtain ⟨_, hlabels, h⟩ := bind_eq_ok h
  obtain ⟨e, he, h⟩ := bind_eq_ok h
  obtain ⟨cfa, hcfa, h⟩ := bind_eq_ok h
  obtain ⟨buffer, hb, h⟩ := bind_eq_ok h
  injection h with h
  subst h
  exact ⟨checkLabel_forM hlabels, e, he, hb, rfl, rfl, rfl, hcfa⟩

end Assembler

-- ================================================================ runs

/-- The assemblers for target `t` that a program can come to, with the
labels it has been handed. Labels are not made up: one that carries the
assembler's mark was handed out by it. -/
inductive Built (t : Target) : List Label → Assembler → Prop where
  | fresh (owner : Nat) : Built t [] { target := t, owner }
  | createLabel {ls : List Label} {a : Assembler} :
      Built t ls a → Built t (a.createLabel.1 :: ls) a.createLabel.2
  | apply {ls : List Label} {a a' : Assembler} {op : Op} :
      Built t ls a → (∀ l ∈ op.labels, l.isa = a.isa → l.owner = a.owner → l ∈ ls) →
      a.apply op = .ok a' → Built t ls a'

/-- What holds of an assembler all along: its code is laid out and consists
of instructions, the labels it handed out exist, and all others, which it
made for itself, are bound. -/
structure Sound (t : Target) (ls : List Label) (a : Assembler) : Prop where
  target : a.target = t
  open_ : a.finalized = false
  laid : Laid t a.buffer
  emitted : ∃ es, Emitted t es a.buffer
  handed : ∀ l ∈ ls, l.index < a.buffer.labels.size
  own : ∀ n < a.buffer.labels.size, (∀ l ∈ ls, l.index ≠ n) → ∃ p, a.buffer.position? n = some p

theorem sound_fresh (t : Target) (owner : Nat) : Sound t [] { target := t, owner } where
  target := rfl
  open_ := rfl
  laid := laid_empty t
  emitted := ⟨[], emitted_empty t⟩
  handed l hl := absurd hl (by simp)
  own n hn := absurd hn (by simp)

/-- A new label is the only one that a program gets unbound. -/
theorem Sound.createLabel {t : Target} {ls : List Label} {a : Assembler} (h : Sound t ls a) :
    Sound t (a.createLabel.1 :: ls) a.createLabel.2 := by
  have hreserve : a.createLabel.2.buffer = Assembler.reserve a.buffer (a.buffer.labels.size + 1) := by
    simp [Assembler.createLabel, CodeBuffer.newLabel, Assembler.reserve]
  have hsize : a.createLabel.2.buffer.labels.size = a.buffer.labels.size + 1 := by
    rw [hreserve, reserve_labels_size]
    omega
  obtain ⟨es, hes⟩ := h.emitted
  refine ⟨h.target, h.open_, hreserve ▸ h.laid.reserve _, ⟨es, hreserve ▸ hes.reserve _⟩,
    fun l hl => ?_, fun n hn hne => ?_⟩
  · rw [hsize]
    rcases List.mem_cons.mp hl with rfl | hl
    · exact Nat.lt_succ_self _
    · exact Nat.lt_succ_of_lt (h.handed l hl)
  · rw [hreserve, position?_reserve]
    have hlast : a.buffer.labels.size ≠ n := hne _ (List.mem_cons_self ..)
    exact h.own n (by omega) fun l hl => hne l (List.mem_cons_of_mem _ hl)

/-- An operation leaves no label of its own unbound. -/
theorem Sound.apply {t : Target} {ls : List Label} {a a' : Assembler} {op : Op} (h : Sound t ls a)
    (hknown : ∀ l ∈ op.labels, l.isa = a.isa → l.owner = a.owner → l ∈ ls)
    (happly : a.apply op = .ok a') : Sound t ls a' := by
  obtain ⟨hlabels, e, he, hb, htarget, -, hfinal, -⟩ := Assembler.apply_eq_ok happly
  rw [h.target] at he
  obtain ⟨hclosed, hinstrs⟩ := Assembler.lower_spec t op _ e he
  have hsize : (Assembler.reserve a.buffer e.next).labels.size = e.next := by
    rw [reserve_labels_size]
    exact Nat.max_eq_right hclosed.grows
  have hgiven : ∀ enc, .instr enc ∈ e.items → ∀ l, branchOf enc = some l →
      l < (Assembler.reserve a.buffer e.next).labels.size := by
    intro enc henc l hl
    rw [hsize]
    rcases hclosed.branches enc henc l hl with hg | hown
    · obtain ⟨label, hlabel, rfl⟩ := List.mem_map.mp hg
      obtain ⟨hisa, howner⟩ := hlabels label hlabel
      exact Nat.lt_of_lt_of_le (h.handed label (hknown label hlabel hisa howner)) hclosed.grows
    · exact hown.2
  obtain ⟨hlaid, hsize', hkeep, hbinds⟩ :=
    append_spec e.items (h.laid.reserve e.next) hb (fun enc henc => (hinstrs enc henc).encodes) hgiven
  rw [hsize] at hsize'
  obtain ⟨es, hes⟩ := h.emitted
  obtain ⟨es', hemitted⟩ := Emitted.append e.items (hes.reserve e.next) hb hinstrs
  refine ⟨htarget.trans h.target, hfinal.trans h.open_, hlaid, ⟨es ++ es', hemitted⟩,
    fun l hl => ?_, fun n hn hne => ?_⟩
  · rw [hsize']
    exact Nat.lt_of_lt_of_le (h.handed l hl) hclosed.grows
  · rw [hsize'] at hn
    rcases Nat.lt_or_ge n a.buffer.labels.size with hold | hnew
    · obtain ⟨p, hp⟩ := h.own n hold hne
      exact ⟨p, hkeep n p (by rw [position?_reserve, hp])⟩
    · exact hbinds n (hclosed.bound n hnew hn)

/-- Every program keeps its assembler sound. -/
theorem Built.sound {t : Target} {ls : List Label} {a : Assembler} (h : Built t ls a) :
    Sound t ls a := by
  induction h with
  | fresh owner => exact sound_fresh t owner
  | createLabel _ ih => exact ih.createLabel
  | apply _ hknown happly ih => exact ih.apply hknown happly

-- ========================================================== finalizing

/-- Code whose branches can be patched, as seen from outside: it consists of
instructions, of which each one that branches has its field noted, a program
has to bind only the labels it was handed, and instruction words are at
words. -/
structure WellFormed (t : Target) (ls : List Label) (b : CodeBuffer) : Prop where
  emitted : ∃ es, Emitted t es b
  own : ∀ n < b.labels.size, (∀ l ∈ ls, l.index ≠ n) → ∃ p, b.position? n = some p
  inside : ∀ f ∈ b.fixups.toList, f.at_ + 4 ≤ b.size
  apart : b.fixups.toList.Pairwise Fixup.Apart
  words : t.isa = .arm64 → 4 ∣ b.size ∧ (∀ l p, b.position? l = some p → 4 ∣ p)
    ∧ ∀ f ∈ b.fixups.toList, 4 ∣ f.at_

/-- Why a program's code cannot be finalized: a branch to a label that the
program was handed and never bound, or a branch to a label out of reach. -/
def Refused (t : Target) (ls : List Label) (b : CodeBuffer) (v : Violation) : Prop :=
  ∃ f ∈ b.fixups.toList,
    (v = .labelUnbound t.isa f.label ∧ b.position? f.label = none ∧ ∃ l ∈ ls, l.index = f.label)
      ∨ ∃ target, v = .branchTooFar t.isa f.label ∧ b.position? f.label = some target
          ∧ f.kind.reaches f.at_ target = false

/-- Finalized code: every branch goes to its label, nothing else has
changed, and copying it out fills the start of the region only. -/
structure Finalized (t : Target) (b : CodeBuffer) (a : Assembler) : Prop where
  size : a.codeSize = .ok b.size
  /-- The instructions that branch, each at its place in the code. -/
  jumps : ∀ before e after f, Emitted t (before ++ e :: after) b → e.field = some f →
    ∃ target, b.position? f.label = some target ∧ CodeBuffer.FieldPatched
      { f with at_ := (before.flatMap (·.bytes)).length + f.at_ } target b.code a.buffer.code
  branches : ∀ f ∈ b.fixups.toList, ∃ target, b.position? f.label = some target
    ∧ CodeBuffer.FieldPatched f target b.code a.buffer.code
  outside : ∀ i, (∀ f ∈ b.fixups.toList, i < f.at_ ∨ f.at_ + 4 ≤ i) →
    a.buffer.code[i]? = b.code[i]?
  copy : ∀ region : Array UInt8, b.size ≤ region.size → ∃ out, a.copyTo region = .ok out
    ∧ out.size = region.size ∧ (∀ i < b.size, out[i]? = a.buffer.code[i]?)
    ∧ ∀ i, b.size ≤ i → out[i]? = region[i]?

theorem Sound.wellFormed {t : Target} {ls : List Label} {a : Assembler} (h : Sound t ls a) :
    WellFormed t ls a.buffer where
  emitted := h.emitted
  own := h.own
  inside := h.laid.inside
  apart := h.laid.apart
  words hisa := by
    cases t with
    | x86_64 => cases hisa
    | arm64 lse => exact ⟨h.laid.size, h.laid.positions, h.laid.starts⟩

/-- A label that a branch names and nothing binds was handed to the
program: the assembler binds its own. -/
theorem Sound.refused {t : Target} {ls : List Label} {a : Assembler} (h : Sound t ls a)
    {e : FixupError} (he : a.buffer.fixups.toList.findSome? a.buffer.offence? = some e) :
    Refused t ls a.buffer (match e with
      | .unbound label => .labelUnbound t.isa label
      | .outOfRange label => .branchTooFar t.isa label) := by
  obtain ⟨f, hf, hoffence⟩ := List.exists_of_findSome?_eq_some he
  refine ⟨f, hf, ?_⟩
  unfold CodeBuffer.offence? at hoffence
  cases hpos : a.buffer.position? f.label with
  | none =>
      simp only [hpos, Option.some.injEq] at hoffence
      subst hoffence
      refine .inl ⟨rfl, rfl, ?_⟩
      by_cases hex : ∃ l ∈ ls, l.index = f.label
      · exact hex
      · obtain ⟨p, hp⟩ := h.own f.label (h.laid.known f hf) fun l hl heq => hex ⟨l, hl, heq⟩
        rw [hpos] at hp
        cases hp
  | some target =>
      simp only [hpos] at hoffence
      split at hoffence
      · cases hoffence
      · next hr =>
        injection hoffence with hoffence
        subst hoffence
        exact .inr ⟨target, rfl, rfl, Bool.eq_false_iff.mpr hr⟩

/-- Copying finalized code out writes the code and nothing behind it. -/
theorem Assembler.copyTo_spec {a : Assembler} (hfinal : a.finalized = true) (region : Array UInt8)
    (hfit : a.buffer.size ≤ region.size) :
    ∃ out, a.copyTo region = .ok out ∧ out.size = region.size
      ∧ (∀ i < a.buffer.size, out[i]? = a.buffer.code[i]?)
      ∧ ∀ i, a.buffer.size ≤ i → out[i]? = region[i]? := by
  have hsize : a.codeSize = .ok a.buffer.size := by rw [codeSize, if_pos hfinal]
  refine ⟨a.buffer.code ++ region.extract a.buffer.size region.size, ?_, ?_, fun i hi => ?_,
    fun i hi => ?_⟩
  · rw [copyTo, hsize]
    exact if_neg (Nat.not_lt.mpr hfit)
  · rw [Array.size_append, Array.size_extract]
    unfold CodeBuffer.size at hfit ⊢
    omega
  · rw [Array.getElem?_append_left hi]
  · rw [Array.getElem?_append_right hi, Array.getElem?_extract]
    unfold CodeBuffer.size at hi hfit ⊢
    rw [Nat.add_sub_cancel' hi]
    split
    · rfl
    · next hlt => exact (Array.getElem?_eq_none (by omega)).symm

/-- Every program leaves well-formed code. Finalizing it refuses only a
branch to a handed-out label that was never bound, or a branch out of
reach; otherwise every branch goes to its label, and copying the code out
writes exactly the code. -/
theorem Built.finalize_exact {t : Target} {ls : List Label} {a : Assembler} (h : Built t ls a) :
    WellFormed t ls a.buffer
      ∧ (∀ a', a.finalize = .ok a' → Finalized t a.buffer a')
      ∧ ∀ v, a.finalize = .error v → Refused t ls a.buffer v := by
  have hsound := h.sound
  obtain ⟨code, hall, hpatched⟩ := CodeBuffer.patchAll_spec a.buffer a.buffer.fixups.toList
    a.buffer.code hsound.laid.inside hsound.laid.apart hsound.laid.patchable.aligned
  have hresolve : a.buffer.resolve = .ok (a.buffer.fixups.toList.findSome? a.buffer.offence?,
      { a.buffer with code := code, fixups := #[] }) := by
    rw [CodeBuffer.resolve, hall]
  have hisa : a.isa = t.isa := congrArg Target.isa hsound.target
  refine ⟨hsound.wellFormed, ?_⟩
  unfold Assembler.finalize
  rw [hsound.open_, hresolve, hisa]
  cases hfind : a.buffer.fixups.toList.findSome? a.buffer.offence? with
  | some e =>
      have hrefused := hsound.refused hfind
      cases e with
      | unbound label =>
          refine ⟨by rintro a' ⟨⟩, ?_⟩
          rintro v ⟨⟩
          exact hrefused
      | outOfRange label =>
          refine ⟨by rintro a' ⟨⟩, ?_⟩
          rintro v ⟨⟩
          exact hrefused
  | none =>
      have hcode := hpatched hfind
      have hsize : CodeBuffer.size { a.buffer with code := code, fixups := #[] } = a.buffer.size :=
        hcode.size
      refine ⟨?_, by rintro v ⟨⟩⟩
      rintro a' ⟨⟩
      refine ⟨congrArg Except.ok hsize, fun _ _ _ _ hes hf => hcode.fields _ (hes.field_mem hf),
        hcode.fields, hcode.outside, fun region hfit => ?_⟩
      rw [← hsize] at hfit ⊢
      exact Assembler.copyTo_spec rfl region hfit

/-- A jump to the next instruction: the program can be built, finalizing
accepts it, and the branch goes to its label. -/
theorem Built.finalize_exact_jump :
    ∃ a a', Built (.arm64 false) [⟨.arm64, 0, 0⟩] a ∧ a.buffer.fixups.toList = [⟨0, 0, .imm26⟩]
      ∧ a.finalize = .ok a' ∧ Finalized (.arm64 false) a.buffer a' := by
  have hfresh : Built (.arm64 false) [⟨.arm64, 0, 0⟩]
      { target := .arm64 false, owner := 0, buffer := { labels := #[none] } } :=
    .createLabel (.fresh 0)
  have hjump : Built (.arm64 false) [⟨.arm64, 0, 0⟩]
      { target := .arm64 false, owner := 0
        buffer := { code := #[0, 0, 0, 0x14], labels := #[none], fixups := #[⟨0, 0, .imm26⟩] } } :=
    hfresh.apply (by decide) (show Assembler.apply _ (.jump ⟨.arm64, 0, 0⟩) = _ by rfl)
  have hbind : Built (.arm64 false) [⟨.arm64, 0, 0⟩]
      { target := .arm64 false, owner := 0
        buffer := { code := #[0, 0, 0, 0x14], labels := #[some 4], fixups := #[⟨0, 0, .imm26⟩] } } :=
    hjump.apply (by decide) (show Assembler.apply _ (.bind ⟨.arm64, 0, 0⟩) = _ by rfl)
  exact ⟨_, _, hbind, rfl, rfl, hbind.finalize_exact.2.1 _ rfl⟩

end Crossing.Glue
