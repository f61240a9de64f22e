import Crossing.Proofs.Glue.Feasible
import Crossing.Proofs.Frame.MachineCode
import Crossing.Proofs.Frame.Undone

/-
Growing and shrinking a frame, down to the bytes. The distance to the
caller's frame is kept beside the code, so nothing but the encoding makes
sure that the stack pointer moves by as much. On ARM64 a distance that no
two immediates hold is refused; on x86-64 its low 32 bits become an
immediate, which the processor extends with its sign, whatever the upper
ones are.
-/
namespace Crossing

open Code

namespace Glue

/-- By how much the stack pointer is to move. -/
def distance (grow : Bool) (v : UInt64) : UInt64 := if grow then -v else v

theorem add_distance (grow : Bool) (a v : UInt64) :
    a + distance grow v = if grow then a - v else a + v := by
  cases grow with
  | true => exact (UInt64.sub_eq_add_neg a v).symm
  | false => rfl

theorem distance_inj {grow : Bool} {v v' : UInt64} (h : distance grow v = distance grow v') :
    v = v' := by
  cases grow with
  | true => exact UInt64.neg_inj.mp h
  | false => exact h

end Glue

-- ================================================================ x86-64

namespace X86

open Glue Glue.X86

/-- Adjusting by an immediate that is extended with its sign. -/
theorem executes_adjustFrame (grow : Bool) (adjust : Nat) :
    Yields (adjustFrame (if grow then .sub else .add) adjust) fun is =>
      ∀ s : Cpu, ∃ zero, Executes next (is.flatMap (·.encode.bytes)) s
        { s.set .rsp (s.reg .rsp + distance grow (Int32.ofNat adjust).toInt64.toUInt64) with
          zeroFlag := zero } := by
  refine yields_ite (fun _ => yields_error _) fun _ => yields_pure_bind (yields_pure fun s => ?_)
  split
  · next hzero =>
      have hsame : s.set .rsp (s.reg .rsp + distance grow (Int32.ofNat adjust).toInt64.toUInt64) = s := by
        have hstill : distance grow (Int32.ofNat adjust).toInt64.toUInt64 = 0 := by
          rw [hzero]
          cases grow <;> rfl
        have hregs : (fun q => if q = .rsp then s.reg .rsp else s.reg q) = s.reg := by
          funext q
          split
          · next hq => rw [hq]
          · rfl
        rw [hstill, UInt64.add_zero, Cpu.set, hregs]
      rw [hsame]
      exact ⟨s.zeroFlag, .done s⟩
  · have hread : ∀ op : Arith, op = .add ∨ op = .sub → ∀ i ∈ [Instr.arith op .rsp (Int32.ofNat adjust)],
        ∀ (s s' : Cpu) (rest : List UInt8), step i s = some (.next s') →
          next (i.encode.bytes ++ rest) s = some (s', rest) := by
      intro op hop i hi s s' rest h
      obtain rfl := List.mem_singleton.mp hi
      exact next_arith hop h
    cases grow with
    | true =>
        simp only [add_distance]
        exact ⟨_, executes_of_follow (hread .sub (.inr rfl)) rfl⟩
    | false => exact ⟨_, executes_of_follow (hread .add (.inl rfl)) rfl⟩

end X86

-- ================================================================= ARM64

namespace A64

open Glue Glue.A64

/-- Moving the stack pointer takes immediates only. -/
theorem adjustFrame_immediate (grow : Bool) (adjust : Nat) :
    Yields (adjustFrame grow adjust) fun is => ∀ i ∈ is, i.Immediate := by
  refine yields_ite (fun _ => yields_error _) fun _ => yields_pure_bind ?_
  refine yields_ite (fun _ => yields_pure fun i hi => nomatch hi) fun _ => yields_pure_bind ?_
  refine yields_bind fun n _ => yields_bind fun imm _ => yields_pure ?_
  split
  · exact forall_byHalves (fun _ _ _ => trivial) (fun _ _ _ => trivial) .sp .sp imm
  · exact forall_byHalves (fun _ _ _ => trivial) (fun _ _ _ => trivial) .sp .sp imm

/-- An adjustment that two immediates hold. -/
theorem executes_adjustFrame (grow : Bool) (adjust : Nat) :
    Yields (adjustFrame grow adjust) fun is => (adjust % 16 = 0 ∧ adjust < 2 ^ 24)
      ∧ ∀ s : Cpu, Executes next (is.flatMap (·.encode.bytes)) s
        (s.put .sp (s.x .sp + distance grow (UInt64.ofNat adjust))) := by
  intro is his
  have hread : ∀ i ∈ is, ∀ (s s' : Cpu) (rest : List UInt8), step i s = some (.next s') →
      next (i.encode.bytes ++ rest) s = some (s', rest) :=
    fun i hi s s' rest h => next_immediate (adjustFrame_immediate grow adjust is his i hi) h
  unfold adjustFrame at his
  split at his
  · cases his
  · next haligned =>
      have hstack : adjustStack grow adjust = .ok is := his
      refine ⟨⟨not_not.mp haligned, ?_⟩, fun s => executes_of_follow hread ?_⟩
      · unfold adjustStack at hstack
        split at hstack
        · omega
        · obtain ⟨n, hn, hstack⟩ := bind_eq_ok hstack
          obtain ⟨imm, himm, -⟩ := bind_eq_ok hstack
          obtain rfl := imm32_eq hn
          unfold Imm24.ofNat at himm
          split at himm
          · next hsmall => exact hsmall
          · cases himm
      · rw [adjustStack_spec grow adjust is hstack s, add_distance]

end A64

-- ========================================================== both targets

namespace Glue

/-- The operation that grows a frame, or shrinks it. -/
def adjusting (grow : Bool) (adjust : Nat) : Op :=
  if grow then .increaseFrame adjust else .decreaseFrame adjust

namespace Target

/-- Code that moves the stack pointer and changes nothing else; on x86-64
the zero flag may be anything. -/
def Moves (t : Target) (code : List UInt8) (delta : UInt64) : Prop :=
  match t with
  | .x86_64 => ∀ s : Crossing.X86.Cpu, ∃ zero, Executes Crossing.X86.next code s
      { s.set .rsp (s.reg .rsp + delta) with zeroFlag := zero }
  | .arm64 _ => ∀ s : Crossing.A64.Cpu,
      Executes Crossing.A64.next code s (s.put .sp (s.x .sp + delta))

/-- Code moves the stack pointer in one way only. -/
theorem Moves.unique {t : Target} {code : List UInt8} {delta delta' : UInt64}
    (h : t.Moves code delta) (h' : t.Moves code delta') : delta = delta' := by
  cases t with
  | x86_64 =>
      obtain ⟨zero, hrun⟩ := h wide
      obtain ⟨zero', hrun'⟩ := h' wide
      have hend := congrArg (·.reg .rsp) (hrun.unique Crossing.X86.next_nil hrun')
      exact (UInt64.add_right_inj _).mp hend
  | arm64 lse =>
      let s : Crossing.A64.Cpu := ⟨fun _ => 0, fun _ => 0, false, none, 0, ⟨fun _ => 0⟩⟩
      have hend := congrArg (·.x .sp) ((h s).unique Crossing.A64.next_nil (h' s))
      exact (UInt64.add_right_inj _).mp hend

/-- The instructions that adjust a frame. -/
def adjustCode (t : Target) (grow : Bool) (adjust : Nat) : Except Violation (List Encoding) :=
  match t with
  | .x86_64 => (X86.adjustFrame (if grow then .sub else .add) adjust).map
      (·.map Crossing.X86.Instr.encode)
  | .arm64 _ => (A64.adjustFrame grow adjust).map (·.map Crossing.A64.Instr.encode)

/-- Adjustments that are not refused: multiples of 16, and on ARM64 what
two immediates hold. -/
theorem adjustCode_ok_iff {t : Target} {grow : Bool} {adjust : Nat} :
    (∃ es, t.adjustCode grow adjust = .ok es) ↔ 16 ∣ adjust ∧ (t ≠ .x86_64 → adjust < 2 ^ 24) := by
  have hmap : ∀ {α β : Type} {x : Except Violation α} {f : α → β},
      (∃ b, x.map f = .ok b) ↔ ∃ a, x = .ok a := by
    intro α β x f
    cases x with
    | error v => exact ⟨fun ⟨_, h⟩ => (nomatch h), fun ⟨_, h⟩ => nomatch h⟩
    | ok a => exact ⟨fun _ => ⟨a, rfl⟩, fun _ => ⟨_, rfl⟩⟩
  rw [Nat.dvd_iff_mod_eq_zero]
  cases t with
  | x86_64 =>
      refine hmap.trans ⟨fun ⟨is, his⟩ => ⟨?_, fun h => absurd rfl h⟩, fun h => ?_⟩
      · exact yields_ite (fun _ => yields_error _) (fun h => fun _ _ => not_not.mp h) is his
      · obtain ⟨is, his, -⟩ := X86.adjustFrame_ok h.1 (if grow then .sub else .add)
        exact ⟨is, his⟩
  | arm64 lse =>
      refine hmap.trans ⟨fun ⟨is, his⟩ => ?_, fun h => ?_⟩
      · obtain ⟨haligned, hsmall⟩ := (Crossing.A64.executes_adjustFrame grow adjust is his).1
        exact ⟨haligned, fun _ => hsmall⟩
      · obtain ⟨is, his, -⟩ := A64.adjustFrame_ok ⟨h.1, h.2 (by simp)⟩ grow
        exact ⟨is, his⟩

/-- The distance that the code for an adjustment moves the stack pointer:
on x86-64 the low 32 bits, extended with their sign. -/
def moved (t : Target) (adjust : Nat) : UInt64 :=
  match t with
  | .x86_64 => (Int32.ofNat adjust).toInt64.toUInt64
  | .arm64 _ => UInt64.ofNat adjust

theorem adjustCode_moves (t : Target) (grow : Bool) (adjust : Nat) :
    Yields (t.adjustCode grow adjust) fun es =>
      t.Moves (es.flatMap (·.bytes)) (distance grow (t.moved adjust)) := by
  cases t with
  | x86_64 =>
      refine yields_map fun is his => ?_
      simp only [List.flatMap_map]
      exact Crossing.X86.executes_adjustFrame grow adjust is his
  | arm64 lse =>
      refine yields_map fun is his => ?_
      simp only [List.flatMap_map]
      exact (Crossing.A64.executes_adjustFrame grow adjust is his).2

theorem moved_eq_iff {t : Target} {adjust : Nat} (hword : adjust < wordLimit) :
    t.moved adjust = UInt64.ofNat adjust
      ↔ (t = .x86_64 → adjust < 2 ^ 31 ∨ 2 ^ 64 - 2 ^ 31 ≤ adjust) := by
  cases t with
  | arm64 lse => exact ⟨fun _ h => (nomatch h), fun _ => rfl⟩
  | x86_64 =>
      rw [moved, ← Crossing.X86.ofNat_wordOf, Int32.toInt_ofNat', ← UInt64.toNat_inj,
        UInt64.toNat_ofNat', UInt64.toNat_ofNat', Crossing.X86.wordOf, Int.bmod_def]
      rw [wordLimit] at hword
      have hsize : (Int32.size : Int) = 2 ^ 32 := rfl
      rw [hsize]
      simp only [forall_const]
      split <;> omega

end Target

namespace Assembler

theorem lower_plain {ι : Type} (encode : ι → Encoding) (x : Except Violation (List ι)) (next : Nat) :
    (x >>= fun is => pure (Emission.ofInstrs next is)).map (fun e : Emission ι =>
        (⟨e.items.map fun
          | .instr i => .instr (encode i)
          | .bind l => .bind l, e.next⟩ : Emission Encoding))
      = (x.map (·.map encode)).map fun es => ⟨es.map .instr, next⟩ := by
  cases x with
  | error v => rfl
  | ok is => simp [Except.map, Emission.ofInstrs, bind, Except.bind, pure, Except.pure]

theorem lower_adjusting (t : Target) (grow : Bool) (adjust next : Nat) :
    lower t (adjusting grow adjust) next
      = (t.adjustCode grow adjust).map fun es => ⟨es.map .instr, next⟩ := by
  cases t with
  | x86_64 =>
      cases grow with
      | true => exact lower_plain Crossing.X86.Instr.encode (X86.adjustFrame .sub adjust) next
      | false => exact lower_plain Crossing.X86.Instr.encode (X86.adjustFrame .add adjust) next
  | arm64 lse =>
      cases grow with
      | true => exact lower_plain Crossing.A64.Instr.encode (A64.adjustFrame true adjust) next
      | false => exact lower_plain Crossing.A64.Instr.encode (A64.adjustFrame false adjust) next

theorem append_instrs (es : List Encoding) : ∀ b : CodeBuffer, ∃ b',
    append b (es.map .instr) = .ok b' ∧ b'.code.toList = b.code.toList ++ es.flatMap (·.bytes) := by
  induction es with
  | nil => exact fun b => ⟨b, rfl, by simp⟩
  | cons e es ih =>
      intro b
      obtain ⟨b', happend, hcode⟩ := ih (b.emit e)
      refine ⟨b', happend, ?_⟩
      rw [hcode, List.flatMap_cons, ← List.append_assoc]
      simp [CodeBuffer.emit]

/-- An adjustment that is accepted is put behind the code there is, and the
distance to the caller's frame is adjusted beside it. -/
theorem apply_adjusting_iff {a a' : Assembler} {grow : Bool} {adjust : Nat} :
    a.apply (adjusting grow adjust) = .ok a' ↔ ∃ es cfa buffer,
      a.target.adjustCode grow adjust = .ok es
        ∧ (if grow then addWord a.cfaOffset adjust else subWord a.cfaOffset adjust) = .ok cfa
        ∧ append (reserve a.buffer a.buffer.labels.size) (es.map .instr) = .ok buffer
        ∧ a' = { a with buffer, cfaOffset := cfa } := by
  have hcfa : cfaAfter a.target a.cfaOffset (adjusting grow adjust)
      = if grow then addWord a.cfaOffset adjust else subWord a.cfaOffset adjust := by
    cases a.target <;> cases grow <;> rfl
  have hlabels : (adjusting grow adjust).labels = [] := by
    cases grow <;> rfl
  rw [apply, hlabels, lower_adjusting, hcfa]
  constructor
  · intro h
    obtain ⟨-, -, hlower⟩ := bind_eq_ok h
    obtain ⟨e, he, hbook⟩ := bind_eq_ok hlower
    obtain ⟨cfa, hbooked, happend⟩ := bind_eq_ok hbook
    obtain ⟨buffer, hbuffer, hout⟩ := bind_eq_ok happend
    obtain ⟨es, hcode, rfl⟩ := map_eq_ok he
    cases hout
    exact ⟨es, cfa, buffer, hcode, hbooked, hbuffer, rfl⟩
  · rintro ⟨es, cfa, buffer, hcode, hcfa, hbuffer, rfl⟩
    rw [hcode, hcfa]
    simp only [Except.map, bind, Except.bind, hbuffer]
    rfl

theorem apply_adjusting_ok_iff {a : Assembler} {grow : Bool} {adjust : Nat} :
    (∃ a', a.apply (adjusting grow adjust) = .ok a')
      ↔ 16 ∣ adjust ∧ (a.target ≠ .x86_64 → adjust < 2 ^ 24)
        ∧ if grow then a.cfaOffset + adjust < wordLimit else adjust ≤ a.cfaOffset := by
  have hbook : (∃ cfa, (if grow then addWord a.cfaOffset adjust else subWord a.cfaOffset adjust)
      = .ok cfa) ↔ if grow then a.cfaOffset + adjust < wordLimit else adjust ≤ a.cfaOffset := by
    unfold addWord subWord
    cases grow with
    | true =>
        simp only [if_true]
        split <;> simp [*]
    | false =>
        simp only [Bool.false_eq_true, if_false]
        split <;> simp [*]
  have hcoded : (∃ es, a.target.adjustCode grow adjust = .ok es) ↔ _ :=
    Target.adjustCode_ok_iff
  rw [← and_assoc, ← hcoded, ← hbook]
  constructor
  · rintro ⟨a', h⟩
    obtain ⟨es, cfa, buffer, hcode, hcfa, -, -⟩ := apply_adjusting_iff.mp h
    exact ⟨⟨es, hcode⟩, cfa, hcfa⟩
  · rintro ⟨⟨es, hcode⟩, cfa, hcfa⟩
    obtain ⟨buffer, hbuffer, -⟩ := append_instrs es (reserve a.buffer a.buffer.labels.size)
    exact ⟨_, apply_adjusting_iff.mpr ⟨es, cfa, buffer, hcode, hcfa, hbuffer, rfl⟩⟩

/-- What an accepted adjustment does: to the book, and when its code runs. -/
theorem apply_adjusting_moves {a a' : Assembler} {grow : Bool} {adjust : Nat}
    (h : a.apply (adjusting grow adjust) = .ok a') :
    (a'.cfaOffset : Int) = a.cfaOffset + (if grow then (adjust : Int) else -adjust)
      ∧ ∃ code, a'.buffer.code.toList = a.buffer.code.toList ++ code
        ∧ a.target.Moves code (distance grow (a.target.moved adjust)) := by
  obtain ⟨es, cfa, buffer, hcode, hcfa, hbuffer, rfl⟩ := apply_adjusting_iff.mp h
  refine ⟨?_, es.flatMap (·.bytes), ?_, Target.adjustCode_moves _ _ _ es hcode⟩
  · dsimp only
    unfold addWord subWord at hcfa
    cases grow with
    | true =>
        rw [if_pos rfl] at hcfa ⊢
        split at hcfa
        · cases hcfa
          omega
        · cases hcfa
    | false =>
        simp only [Bool.false_eq_true, if_false] at hcfa ⊢
        split at hcfa
        · cases hcfa
          omega
        · cases hcfa
  · obtain ⟨buffer', hbuffer', hcode'⟩ := append_instrs es (reserve a.buffer a.buffer.labels.size)
    rw [hbuffer'] at hbuffer
    cases hbuffer
    exact hcode'

/-- Growing and shrinking a frame. What is not refused is booked exactly,
and its code changes nothing but the stack pointer. On ARM64 the stack
pointer moves by exactly as much. On x86-64 it does so only if the low 32
bits, extended with their sign, are the adjustment itself; from 2^31 on they
are not, up to the very largest words. -/
theorem adjusting_exact_iff (a : Assembler) (grow : Bool) {adjust : Nat}
    (hword : adjust < wordLimit) :
    ((∃ a', a.apply (adjusting grow adjust) = .ok a')
        ↔ 16 ∣ adjust ∧ (a.target ≠ .x86_64 → adjust < 2 ^ 24)
          ∧ if grow then a.cfaOffset + adjust < wordLimit else adjust ≤ a.cfaOffset)
      ∧ ∀ a', a.apply (adjusting grow adjust) = .ok a' →
        (a'.cfaOffset : Int) = a.cfaOffset + (if grow then (adjust : Int) else -adjust)
          ∧ ∃ code, a'.buffer.code.toList = a.buffer.code.toList ++ code
            ∧ (a.target.Moves code (distance grow (UInt64.ofNat adjust))
              ↔ (a.target = .x86_64 → adjust < 2 ^ 31 ∨ 2 ^ 64 - 2 ^ 31 ≤ adjust)) := by
  refine ⟨apply_adjusting_ok_iff, fun a' h => ?_⟩
  obtain ⟨hcfa, code, happended, hmoves⟩ := apply_adjusting_moves h
  refine ⟨hcfa, code, happended, ?_⟩
  rw [← Target.moved_eq_iff hword]
  constructor
  · intro hexact
    exact distance_inj (hmoves.unique hexact)
  · intro heq
    rw [← heq]
    exact hmoves

/-- An assembler that has emitted nothing. -/
def fresh (t : Target) : Assembler := { target := t, owner := 0 }

/-- An adjustment that takes two immediates of ARM64, and one that takes an
immediate of four bytes of x86-64. -/
theorem adjusting_exact_large :
    (∃ a', (fresh (.arm64 true)).apply (adjusting true 0x123450) = .ok a'
        ∧ a'.cfaOffset = 0x123450
        ∧ (Target.arm64 true).Moves a'.buffer.code.toList (distance true 0x123450))
      ∧ ∃ a', (fresh .x86_64).apply (adjusting true 0x123450) = .ok a' ∧ a'.cfaOffset = 0x123450
        ∧ Target.x86_64.Moves a'.buffer.code.toList (distance true 0x123450) := by
  have hword : 0x123450 < wordLimit := by decide
  constructor
  · obtain ⟨hok, hall⟩ := adjusting_exact_iff (fresh (.arm64 true)) true hword
    obtain ⟨a', ha'⟩ := hok.mpr ⟨by decide, fun _ => by decide, by decide⟩
    obtain ⟨hcfa, code, hcode, hexact⟩ := hall a' ha'
    have hbooked : (a'.cfaOffset : Int) = 0 + 0x123450 := hcfa
    refine ⟨a', ha', by omega, ?_⟩
    rw [hcode]
    exact hexact.mpr fun h => nomatch h
  · obtain ⟨hok, hall⟩ := adjusting_exact_iff (fresh .x86_64) true hword
    obtain ⟨a', ha'⟩ := hok.mpr ⟨by decide, fun _ => by decide, by decide⟩
    obtain ⟨hcfa, code, hcode, hexact⟩ := hall a' ha'
    have hbooked : (a'.cfaOffset : Int) = 0 + 0x123450 := hcfa
    refine ⟨a', ha', by omega, ?_⟩
    rw [hcode]
    exact hexact.mpr fun _ => .inl (by decide)

/-- Four gigabytes are booked, and the stack pointer stays where it is. -/
theorem adjusting_truncated : ∃ a', (fresh .x86_64).apply (adjusting true (2 ^ 32)) = .ok a'
    ∧ a'.cfaOffset = 2 ^ 32 ∧ a'.buffer.code.toList = [0x48, 0x83, 0xEC, 0x00]
    ∧ Target.x86_64.Moves a'.buffer.code.toList 0
    ∧ ¬Target.x86_64.Moves a'.buffer.code.toList (distance true (UInt64.ofNat (2 ^ 32))) := by
  obtain ⟨a', ha'⟩ : ∃ a', (fresh .x86_64).apply (adjusting true (2 ^ 32)) = .ok a' := ⟨_, rfl⟩
  obtain ⟨hcfa, code, hcode, hmoves⟩ := apply_adjusting_moves ha'
  have hstill : Target.x86_64.Moves a'.buffer.code.toList 0 := by
    rw [hcode]
    exact hmoves
  have hbooked : (a'.cfaOffset : Int) = 0 + 2 ^ 32 := hcfa
  refine ⟨a', ha', by omega, ?_, hstill, fun h => ?_⟩
  · cases ha'
    rfl
  · exact absurd (hstill.unique h) (by decide)

end Assembler

end Glue

end Crossing
