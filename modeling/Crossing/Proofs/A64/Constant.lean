import Mathlib.Algebra.Ring.Nat
import Crossing.Proofs.Frame.MachineCode

/-
Constants on ARM64, down to the words that compute them. A constant is built
up sixteen bits at a time, and those that are zero are left out; the first
instruction clears the rest of the register, whichever sixteen bits it is
for. Places are filled from low to high, so whatever is built so far lies
below the next place (`follow_movk`), and filling that is adding.
-/
namespace Crossing.A64

open Code Glue

-- ======================================================== what words mean

/-- A number with the 16 bits from `16 * hw` on replaced. -/
def replaced (v hw imm : Nat) : Nat :=
  v / 2 ^ (16 * (hw + 1)) * 2 ^ (16 * (hw + 1)) + imm * 2 ^ (16 * hw) + v % 2 ^ (16 * hw)

/-- The effect of an instruction that a constant is built with: the moves of
sixteen bits, for which register 31 is zero, and those of straight-line
code. Setting a register in its 32-bit width clears its upper half. -/
def build : Instr → Cpu → Option (Flow Cpu)
  | .movz rd imm hw, s => some (.next (s.set rd (UInt64.ofNat (imm.toNat * 2 ^ (16 * hw.toNat)))))
  | .movk rd imm hw, s =>
      some (.next (s.set rd (UInt64.ofNat (replaced (s.operand rd).toNat hw.toNat imm.toNat))))
  | .movkWHigh rd imm, s =>
      some (.next (s.set rd (UInt64.ofNat (replaced ((s.operand rd).toNat % 2 ^ 32) 1 imm.toNat))))
  | i, s => step i s

/-- Moves of sixteen bits by the fields of their word: which move it is and
in what width, and where the sixteen bits go. -/
def wide? (top hw : Nat) (imm : UInt16) (rd : Reg) : Option Instr :=
  match top with
  | 0x1A5 => some (.movz rd imm (UInt32.ofNat hw))
  | 0x1E5 => some (.movk rd imm (UInt32.ofNat hw))
  | 0x0A5 => if h : hw < 2 then some (.movzW rd imm ⟨hw, h⟩) else none
  | 0x0E5 => if hw = 1 then some (.movkWHigh rd imm) else none
  | _ => none

/-- Moves of sixteen bits, read from their word. -/
def moveWide? (word : Nat) : Option Instr :=
  wide? (word / 2 ^ 23) (word / 2 ^ 21 % 4) (UInt16.ofNat (word / 2 ^ 5)) ⟨Fin.ofNat 32 word⟩

/-- Instructions that constants are built with, read from their word. -/
def constant? (word : Nat) : Option Instr := (moveWide? word).or (immediate? word)

/-- Carries out the instruction at the front of machine code. -/
def nextConstant : List UInt8 → Cpu → Option (Cpu × List UInt8)
  | b₀ :: b₁ :: b₂ :: b₃ :: rest, s => do
      match build (← constant? (ofLittleEndian [b₀, b₁, b₂, b₃])) s with
      | some (.next s') => some (s', rest)
      | _ => none
  | _, _ => none

theorem nextConstant_nil (s : Cpu) : nextConstant [] s = none := rfl

/-- Instructions that a constant is built with. -/
def Instr.Building : Instr → Prop
  | movz _ _ hw | movk _ _ hw => hw.toNat < 4
  | movzW .. | movkWHigh .. => True
  | i => i.Immediate

variable {rd : Reg} {s : Cpu}

/-- The fields of a word do not run into each other. -/
theorem wide_fields {top hw : Nat} (htop : top < 2 ^ 9) (hhw : hw < 4) (imm : UInt16) (rd : Reg) :
    (UInt32.ofNat (2 ^ 23 * top) ||| (UInt32.ofNat hw <<< 21) ||| (imm.toUInt32 <<< 5)
        ||| rd.code).toNat
      = 2 ^ 23 * top + 2 ^ 21 * hw + 2 ^ 5 * imm.toNat + rd.index := by
  have himm := imm.toNat_lt
  have hd := rd.index.isLt
  have hplace : hw <<< 21 % 2 ^ 32 = 2 ^ 21 * hw := by
    rw [Nat.shiftLeft_eq]
    omega
  have hvalue : imm.toNat <<< 5 % 2 ^ 32 = 2 ^ 5 * imm.toNat := by
    rw [Nat.shiftLeft_eq]
    omega
  have hupper : 2 ^ 23 * top ||| 2 ^ 21 * hw = 2 ^ 21 * (4 * top + hw) := by
    rw [← Nat.two_pow_add_eq_or_of_lt (by omega)]
    omega
  have hmiddle : 2 ^ 21 * (4 * top + hw) ||| 2 ^ 5 * imm.toNat
      = 2 ^ 5 * (2 ^ 16 * (4 * top + hw) + imm.toNat) := by
    rw [← Nat.two_pow_add_eq_or_of_lt (by omega)]
    omega
  have hlower : 2 ^ 5 * (2 ^ 16 * (4 * top + hw) + imm.toNat) ||| rd.index.val
      = 2 ^ 5 * (2 ^ 16 * (4 * top + hw) + imm.toNat) + rd.index :=
    (Nat.two_pow_add_eq_or_of_lt hd _).symm
  have htop32 : 2 ^ 23 * top % 2 ^ 32 = 2 ^ 23 * top := Nat.mod_eq_of_lt (by omega)
  have hhw32 : hw % 2 ^ 32 = hw := Nat.mod_eq_of_lt (by omega)
  have hd32 : rd.index.val % 2 ^ 32 = rd.index := Nat.mod_eq_of_lt (by omega)
  simp only [Reg.code, UInt32.toNat_or, UInt32.toNat_shiftLeft, UInt32.toNat_ofNat',
    UInt16.toNat_toUInt32, htop32, hhw32, hd32]
  show 2 ^ 23 * top ||| hw <<< 21 % 2 ^ 32 ||| imm.toNat <<< 5 % 2 ^ 32 ||| rd.index.val = _
  rw [hplace, hvalue, hupper, hmiddle, hlower]
  omega

/-- Reading a word gives back its fields. -/
theorem moveWide?_fields (top hw : Nat) (htop : top < 2 ^ 9) (hhw : hw < 4) (imm : UInt16) (rd : Reg)
    {word : UInt32} (hword : word = UInt32.ofNat (2 ^ 23 * top) ||| (UInt32.ofNat hw <<< 21)
      ||| (imm.toUInt32 <<< 5) ||| rd.code) :
    moveWide? word.toNat = wide? top hw imm rd := by
  have himm := imm.toNat_lt
  have hd := rd.index.isLt
  have hvalue := hword ▸ wide_fields htop hhw imm rd
  have htop' : word.toNat / 2 ^ 23 = top := by omega
  have hhw' : word.toNat / 2 ^ 21 % 4 = hw := by omega
  have himm' : UInt16.ofNat (word.toNat / 2 ^ 5) = imm := by
    apply UInt16.toNat_inj.mp
    rw [UInt16.toNat_ofNat']
    omega
  have hd' : (⟨Fin.ofNat 32 word.toNat⟩ : Reg) = rd :=
    congrArg Reg.mk (Fin.ext (show word.toNat % 32 = rd.index by omega))
  rw [moveWide?, htop', hhw', himm', hd']

/-- Words of additions and subtractions are none of moves. -/
theorem moveWide?_immediate {i : Instr} (hi : i.Immediate) : moveWide? i.word.toNat = none := by
  have hnone : ∀ top (imm : Imm12) (rn rd : Reg) (word : UInt32), top = 0x122 ∨ top = 0x1A2 →
      (∃ low < 2, word = UInt32.ofNat (2 ^ 22 * (2 * top + low)) ||| imm.field
        ||| rnRd rn.code rd.code) → moveWide? word.toNat = none := by
    rintro top imm rn rd word htop ⟨low, hlow, rfl⟩
    have himm := imm.value.isLt
    have hn := rn.index.isLt
    have hd := rd.index.isLt
    have hvalue := word_fields (show 2 * top + low < 2 ^ 10 by omega) imm rn rd
    rw [moveWide?, show _ / 2 ^ 23 = top by omega]
    rcases htop with rfl | rfl <;> rfl
  cases i with
  | addImm rd rn imm => exact hnone 0x122 imm rn rd _ (.inl rfl) ⟨0, by decide, rfl⟩
  | addImmHigh rd rn imm => exact hnone 0x122 imm rn rd _ (.inl rfl) ⟨1, by decide, rfl⟩
  | subImm rd rn imm => exact hnone 0x1A2 imm rn rd _ (.inr rfl) ⟨0, by decide, rfl⟩
  | subImmHigh rd rn imm => exact hnone 0x1A2 imm rn rd _ (.inr rfl) ⟨1, by decide, rfl⟩
  | _ => exact hi.elim

/-- Every instruction that a constant is built with is read back from its
word. -/
theorem constant?_word {i : Instr} (hi : i.Building) : constant? i.word.toNat = some i := by
  have hplace : ∀ hw : UInt32, UInt32.ofNat hw.toNat = hw := fun hw => UInt32.ofNat_toNat
  have hmove : ∀ {j}, moveWide? i.word.toNat = some j → constant? i.word.toNat = some j :=
    fun h => by rw [constant?, h, Option.some_or]
  have himmediate : i.Immediate → constant? i.word.toNat = some i := fun h => by
    rw [constant?, moveWide?_immediate h, Option.none_or, immediate?_word h]
  cases i with
  | movz rd imm hw =>
      refine hmove ((moveWide?_fields 0x1A5 hw.toNat (by decide) hi imm rd ?_).trans ?_)
      · rw [hplace]
        rfl
      · rw [wide?, hplace]
  | movk rd imm hw =>
      refine hmove ((moveWide?_fields 0x1E5 hw.toNat (by decide) hi imm rd ?_).trans ?_)
      · rw [hplace]
        rfl
      · rw [wide?, hplace]
  | movzW rd imm hw =>
      have hfour : hw.val < 4 := Nat.lt_trans hw.isLt (by decide)
      exact hmove ((moveWide?_fields 0x0A5 hw (by decide) hfour imm rd rfl).trans (dif_pos hw.isLt))
  | movkWHigh rd imm => exact hmove (moveWide?_fields 0x0E5 1 (by decide) (by decide) imm rd rfl)
  | addImm rd rn imm | addImmHigh rd rn imm | subImm rd rn imm | subImmHigh rd rn imm =>
      exact himmediate hi
  | _ => exact hi.elim

theorem nextConstant_word {i : Instr} (hi : i.Building) {s s' : Cpu} {rest : List UInt8}
    (h : build i s = some (.next s')) :
    nextConstant (i.encode.bytes ++ rest) s = some (s', rest) := by
  obtain ⟨b₀, b₁, b₂, b₃, hbytes, hword⟩ := encode_bytes i
  simp only [hbytes, List.cons_append, List.nil_append, nextConstant, hword, constant?_word hi,
    Option.bind_eq_bind, Option.bind_some, h]

-- ============================================================= registers

theorem operand_eq (h : rd ≠ .zero) : s.operand rd = s.x rd := if_neg h

/-- Other registers than 31 are the same to moves and to additions. -/
theorem set_eq_put (h : rd ≠ .zero) (s : Cpu) (v : UInt64) : s.set rd v = s.put rd v := by
  simp only [Cpu.set, Cpu.put, and_iff_left h]

theorem set_set (h : rd ≠ .zero) (s : Cpu) (v w : UInt64) : (s.set rd v).set rd w = s.set rd w := by
  simp only [set_eq_put h, put_put]

theorem set_self (h : rd ≠ .zero) (s : Cpu) : s.set rd (s.x rd) = s := by
  rw [set_eq_put h, put_self]

theorem set_same (h : rd ≠ .zero) (v : UInt64) : (s.set rd v).x rd = v := by
  rw [set_eq_put h, put_same]

-- ================================================ sixteen bits at a time

/-- What sixteen bits amount to at their place. -/
def part (p : UInt16 × UInt32) : Nat := p.1.toNat * 2 ^ (16 * p.2.toNat)

/-- Filling a place that everything lies below is adding. -/
theorem replaced_of_lt {v hw imm : Nat} (h : v < 2 ^ (16 * hw)) :
    replaced v hw imm = v + imm * 2 ^ (16 * hw) := by
  have habove : v < 2 ^ (16 * (hw + 1)) :=
    Nat.lt_of_lt_of_le h (Nat.pow_le_pow_right (by decide) (by omega))
  rw [replaced, Nat.div_eq_of_lt habove, Nat.zero_mul, Nat.zero_add, Nat.mod_eq_of_lt h,
    Nat.add_comm]

/-- Once a place is filled, everything lies below those above it. -/
theorem add_part_lt {v k : Nat} {p : UInt16 × UInt32} (h : v < 2 ^ (16 * p.2.toNat))
    (hk : p.2.toNat < k) : v + part p < 2 ^ (16 * k) := by
  have himm := p.1.toNat_lt
  calc v + part p
      < 2 ^ (16 * p.2.toNat) + (2 ^ 16 - 1) * 2 ^ (16 * p.2.toNat) :=
        Nat.add_lt_add_of_lt_of_le h (Nat.mul_le_mul_right _ (by omega))
    _ = 2 ^ (16 * (p.2.toNat + 1)) := by
        rw [Nat.mul_add, Nat.pow_add]
        omega
    _ ≤ 2 ^ (16 * k) := Nat.pow_le_pow_right (by decide) (Nat.mul_le_mul_left 16 hk)

/-- Places are filled from low to high: what is below them all in the
register is added up with what they hold. -/
theorem follow_movk (hrd : rd ≠ .zero) (ps : List (UInt16 × UInt32)) :
    ps.Pairwise (fun p q => p.2 < q.2) → (∀ p ∈ ps, p.2.toNat < 4) → ∀ s : Cpu,
    (∀ p ∈ ps, (s.x rd).toNat < 2 ^ (16 * p.2.toNat)) →
    follow build (ps.map fun (imm, hw) => .movk rd imm hw) s
      = some (.next (s.set rd (UInt64.ofNat ((s.x rd).toNat + (ps.map part).sum)))) := by
  induction ps with
  | nil =>
      intro _ _ s _
      simp only [List.map_nil, List.sum_nil, Nat.add_zero, UInt64.ofNat_toNat, set_self hrd, follow]
  | cons p ps ih =>
      intro hordered hplaces s hbelow
      obtain ⟨hfirst, hrest⟩ := List.pairwise_cons.mp hordered
      have hp := hbelow p List.mem_cons_self
      have hstep : build (.movk rd p.1 p.2) s
          = some (.next (s.set rd (UInt64.ofNat ((s.x rd).toNat + part p)))) := by
        rw [build, operand_eq hrd, replaced_of_lt hp]
        rfl
      have hvalue : ((s.set rd (UInt64.ofNat ((s.x rd).toNat + part p))).x rd).toNat
          = (s.x rd).toNat + part p := by
        have hsum := add_part_lt hp (hplaces p List.mem_cons_self)
        rw [set_same hrd, UInt64.toNat_ofNat_of_lt' hsum]
      rw [List.map_cons, follow, hstep]
      refine (ih hrest (fun q hq => hplaces q (List.mem_cons_of_mem p hq)) _ fun q hq => ?_).trans ?_
      · rw [hvalue]
        exact add_part_lt hp (UInt32.lt_iff_toNat_lt.mp (hfirst q hq))
      · rw [hvalue, set_set hrd, List.map_cons, List.sum_cons, Nat.add_assoc]

/-- Parts that are left out are zero. -/
theorem sum_filter_part (ps : List (UInt16 × UInt32)) :
    ((ps.filter (·.1 ≠ 0)).map part).sum = (ps.map part).sum := by
  induction ps with
  | nil => rfl
  | cons p ps ih =>
      rw [List.filter_cons]
      split
      · rw [List.map_cons, List.map_cons, List.sum_cons, List.sum_cons, ih]
      · next hzero =>
          have hpart : part p = 0 := by
            have hp : p.1 = 0 := by simpa using hzero
            rw [part, hp]
            exact Nat.zero_mul _
          rw [List.map_cons, List.sum_cons, hpart, Nat.zero_add, ih]

theorem part_eq (imm : UInt16) {hw : UInt32} {k : Nat} (hk : 16 * hw.toNat = k) :
    part (imm, hw) = imm.toNat * 2 ^ k := by
  rw [← hk, part]

theorem toNat_quarter (value k : UInt64) {n : Nat} (hk : k.toNat = n) (hn : n < 64) :
    (value >>> k).toUInt16.toNat = value.toNat / 2 ^ n % 2 ^ 16 := by
  rw [UInt64.toNat_toUInt16, UInt64.toNat_shiftRight, hk, Nat.mod_eq_of_lt hn,
    Nat.shiftRight_eq_div_pow]

theorem quarters_sum (value : UInt64) : ((Instr.quarters value).map part).sum = value.toNat := by
  have hvalue := value.toNat_lt
  rw [Instr.quarters, sum_filter_part, List.map_cons, List.map_cons, List.map_cons, List.map_cons,
    List.map_nil, List.sum_cons, List.sum_cons, List.sum_cons, List.sum_cons, List.sum_nil,
    part_eq _ (show 16 * (0 : UInt32).toNat = 0 from rfl),
    part_eq _ (show 16 * (1 : UInt32).toNat = 16 from rfl),
    part_eq _ (show 16 * (2 : UInt32).toNat = 32 from rfl),
    part_eq _ (show 16 * (3 : UInt32).toNat = 48 from rfl), UInt64.toNat_toUInt16,
    toNat_quarter value 16 (show _ = 16 from rfl) (by decide),
    toNat_quarter value 32 (show _ = 32 from rfl) (by decide),
    toNat_quarter value 48 (show _ = 48 from rfl) (by decide)]
  omega

/-- Places ascend and lie in the register. -/
theorem quarters_places (value : UInt64) :
    (Instr.quarters value).Pairwise (fun p q => p.2 < q.2)
      ∧ ∀ p ∈ Instr.quarters value, p.2.toNat < 4 := by
  have hascend : ([0, 1, 2, 3] : List UInt32).Pairwise (· < ·) := by decide
  have hfour : ∀ hw ∈ ([0, 1, 2, 3] : List UInt32), hw.toNat < 4 := by simp
  unfold Instr.quarters
  refine ⟨List.Pairwise.filter _ (List.Pairwise.of_map Prod.snd (fun _ _ h => h) hascend), ?_⟩
  intro p hp
  exact hfour p.2 (List.mem_map_of_mem (List.mem_of_mem_filter hp))

-- ============================================================= constants

/-- The first instruction of a constant clears what it does not set. -/
theorem follow_loadImm64 (hrd : rd ≠ .zero) (value : UInt64) (s : Cpu) :
    follow build (Instr.loadImm64 rd value) s = some (.next (s.set rd value)) := by
  have hsum := quarters_sum value
  obtain ⟨hordered, hplaces⟩ := quarters_places value
  unfold Instr.loadImm64
  split
  · next hquarters =>
      rw [hquarters] at hsum
      have hzero : value = 0 := UInt64.toNat_inj.mp hsum.symm
      rw [hzero]
      rfl
  · next imm hw rest hquarters =>
      rw [hquarters, List.map_cons, List.sum_cons] at hsum
      rw [hquarters] at hordered hplaces
      obtain ⟨hfirst, hrest⟩ := List.pairwise_cons.mp hordered
      have hvalue : ((s.set rd (UInt64.ofNat (part (imm, hw)))).x rd).toNat = part (imm, hw) := by
        have hle := value.toNat_lt
        rw [set_same hrd, UInt64.toNat_ofNat_of_lt' (show part (imm, hw) < 2 ^ 64 by omega)]
      refine (follow_movk hrd rest hrest (fun q hq => hplaces q (List.mem_cons_of_mem _ hq))
        (s.set rd (UInt64.ofNat (part (imm, hw)))) fun q hq => ?_).trans ?_
      · have hbelow := add_part_lt (Nat.two_pow_pos _) (UInt32.lt_iff_toNat_lt.mp (hfirst q hq))
        rwa [Nat.zero_add, ← hvalue] at hbelow
      · rw [hvalue, hsum, set_set hrd, UInt64.ofNat_toNat]

theorem loadImm64_length (rd : Reg) (value : UInt64) : (Instr.loadImm64 rd value).length ≤ 4 := by
  have hquarters : (Instr.quarters value).length ≤ 4 := List.length_filter_le _ _
  unfold Instr.loadImm64
  split
  · exact Nat.le_of_ble_eq_true rfl
  · next heq =>
      rw [heq, List.length_cons] at hquarters
      rw [List.length_cons, List.length_map]
      exact hquarters

/-- The move into a register's 32-bit width. -/
theorem build_movzW (rd : Reg) (imm : UInt16) (hw : Fin 2) (s : Cpu) :
    build (.movzW rd imm hw) s
      = some (.next (s.set rd (UInt64.ofNat (imm.toNat * 2 ^ (16 * hw.val))))) := by
  have himm := imm.toNat_lt
  have hvalue : (imm.toUInt32 <<< UInt32.ofNat (16 * hw)).toUInt64
      = UInt64.ofNat (imm.toNat * 2 ^ (16 * hw.val)) := by
    apply UInt64.toNat_inj.mp
    rw [UInt32.toNat_toUInt64, UInt32.toNat_shiftLeft, UInt16.toNat_toUInt32, UInt32.toNat_ofNat',
      UInt64.toNat_ofNat', Nat.shiftLeft_eq]
    obtain hw | hw : hw.val = 0 ∨ hw.val = 1 := by omega
    · rw [hw, show 16 * 0 % 2 ^ 32 % 32 = 0 from rfl]
      omega
    · rw [hw, show 16 * 1 % 2 ^ 32 % 32 = 16 from rfl]
      omega
  rw [← hvalue]
  rfl

/-- A constant of 32 bits is what its halves amount to. -/
theorem follow_loadImm32 (hrd : rd ≠ .zero) (value : UInt32) (s : Cpu) :
    follow build (Instr.loadImm32 rd value) s = some (.next (s.set rd value.toUInt64)) := by
  have hlow : value.toUInt16.toNat = value.toNat % 2 ^ 16 := UInt32.toNat_toUInt16 value
  have hhigh : (value >>> 16).toUInt16.toNat = value.toNat / 2 ^ 16 := by
    have hvalue := value.toNat_lt
    rw [UInt32.toNat_toUInt16, UInt32.toNat_shiftRight, show (16 : UInt32).toNat % 32 = 16 from rfl,
      Nat.shiftRight_eq_div_pow]
    omega
  have hvalue : value.toUInt64 = UInt64.ofNat
      (value.toUInt16.toNat + (value >>> 16).toUInt16.toNat * 2 ^ 16) := by
    rw [hlow, hhigh, Nat.mod_add_div', ← UInt32.toNat_toUInt64, UInt64.ofNat_toNat]
  rw [hvalue]
  unfold Instr.loadImm32
  generalize value.toUInt16 = low, (value >>> 16).toUInt16 = high
  have hfirst : build (.movzW rd low 0) s = some (.next (s.set rd (UInt64.ofNat low.toNat))) := by
    rw [build_movzW, show 16 * (0 : Fin 2).val = 0 from rfl, Nat.pow_zero, Nat.mul_one]
  dsimp only
  split
  · next hsole =>
      rw [follow, build_movzW, hsole.1, show (0 : UInt16).toNat = 0 from rfl, Nat.zero_add]
      rfl
  · split
    · next hsole =>
        rw [follow, hfirst, hsole, show (0 : UInt16).toNat = 0 from rfl, Nat.zero_mul]
        rfl
    · have hbelow : low.toNat < 2 ^ (16 * 1) := low.toNat_lt
      have hheld : ((s.set rd (UInt64.ofNat low.toNat)).operand rd).toNat % 2 ^ 32 = low.toNat := by
        rw [operand_eq hrd, set_same hrd, UInt64.toNat_ofNat']
        omega
      rw [follow, hfirst]
      show follow build [.movkWHigh rd high] (s.set rd (UInt64.ofNat low.toNat)) = _
      rw [follow, build, hheld, replaced_of_lt hbelow, set_set hrd]
      rfl

-- ============================================================== programs

/-- Code that leaves the processor in one state only, and in this one. -/
def Computes (is : List Instr) (f : Cpu → Cpu) : Prop :=
  ∀ s s', Executes nextConstant (is.flatMap (·.encode.bytes)) s s' ↔ s' = f s

theorem computes_of_follow {is : List Instr} {f : Cpu → Cpu} (hbuilding : ∀ i ∈ is, i.Building)
    (hfollow : ∀ s, follow build is s = some (.next (f s))) : Computes is f := by
  intro s s'
  have hrun : Executes nextConstant (is.flatMap (·.encode.bytes)) s (f s) :=
    executes_of_follow (fun i hi _ _ _ h => nextConstant_word (hbuilding i hi) h) (hfollow s)
  constructor
  · intro h
    exact h.unique nextConstant_nil hrun
  · rintro rfl
    exact hrun

theorem loadImm64_building (rd : Reg) (value : UInt64) :
    ∀ i ∈ Instr.loadImm64 rd value, i.Building := by
  obtain ⟨-, hplaces⟩ := quarters_places value
  intro i hi
  unfold Instr.loadImm64 at hi
  split at hi
  · obtain rfl := List.mem_singleton.mp hi
    exact Nat.zero_lt_succ 3
  · next heq =>
      rw [heq] at hplaces
      rcases List.mem_cons.mp hi with rfl | hi
      · exact hplaces _ List.mem_cons_self
      · obtain ⟨p, hp, rfl⟩ := List.mem_map.mp hi
        exact hplaces p (List.mem_cons_of_mem _ hp)

theorem loadImm32_building (rd : Reg) (value : UInt32) :
    ∀ i ∈ Instr.loadImm32 rd value, i.Building := by
  intro i hi
  unfold Instr.loadImm32 at hi
  dsimp only at hi
  split at hi
  · obtain rfl := List.mem_singleton.mp hi
    trivial
  · split at hi
    · obtain rfl := List.mem_singleton.mp hi
      trivial
    · simp only [List.mem_cons, List.not_mem_nil, or_false] at hi
      rcases hi with rfl | rfl
      · trivial
      · trivial

/-- Constants are computed exactly, whatever the registers held, and nothing
else changes. Of 64 bits they take at most four words; of 32 bits they clear
the upper half. What is added or subtracted may be anything below 2^24, with
register 31 as the stack pointer. -/
theorem constants_computed :
    (∀ rd, rd ≠ .zero → ∀ value : UInt64, (Instr.loadImm64 rd value).length ≤ 4
        ∧ Computes (Instr.loadImm64 rd value) (·.set rd value))
      ∧ (∀ rd, rd ≠ .zero → ∀ value : UInt32,
        Computes (Instr.loadImm32 rd value) (·.set rd value.toUInt64))
      ∧ ∀ n, n < 2 ^ 24 → ∃ imm, Imm24.ofNat n = .ok imm ∧ ∀ rd rn,
        Computes (Instr.addLarge rd rn imm) (fun s => s.put rd (s.x rn + UInt64.ofNat n))
          ∧ Computes (Instr.subLarge rd rn imm) (fun s => s.put rd (s.x rn - UInt64.ofNat n)) := by
  refine ⟨fun rd hrd value => ⟨loadImm64_length rd value, ?_⟩, fun rd hrd value => ?_,
    fun n hn => ⟨⟨⟨n, hn⟩⟩, dif_pos hn, fun rd rn => ⟨?_, ?_⟩⟩⟩
  · exact computes_of_follow (loadImm64_building rd value) (follow_loadImm64 hrd value)
  · exact computes_of_follow (loadImm32_building rd value) (follow_loadImm32 hrd value)
  · exact computes_of_follow (forall_byHalves (fun _ _ _ => trivial) (fun _ _ _ => trivial) rd rn _)
      (byHalves_spec (fun _ _ _ _ => rfl) (fun _ _ _ _ => rfl) UInt64.add_assoc rd rn _)
  · exact computes_of_follow (forall_byHalves (fun _ _ _ => trivial) (fun _ _ _ => trivial) rd rn _)
      (byHalves_spec (fun _ _ _ _ => rfl) (fun _ _ _ _ => rfl) word_sub_sub rd rn _)

/-- A constant with two halves of zeros between its parts, one that would be
negative in 32 bits, and a distance that takes both immediates. -/
theorem constants_computed_sparse :
    (Instr.loadImm64 ⟨1⟩ 0x0001000000000002).flatMap (·.encode.bytes)
        = [0x41, 0x00, 0x80, 0xD2, 0x21, 0x00, 0xE0, 0xF2]
      ∧ Computes (Instr.loadImm64 ⟨1⟩ 0x0001000000000002) (·.set ⟨1⟩ 0x0001000000000002)
      ∧ Computes (Instr.loadImm32 ⟨17⟩ 0x80000001) (·.set ⟨17⟩ 0x80000001)
      ∧ ∃ imm, Imm24.ofNat 0x123450 = .ok imm
        ∧ Computes (Instr.subLarge .sp .sp imm)
          (fun s => s.put .sp (s.x .sp - UInt64.ofNat 0x123450)) := by
  obtain ⟨hwide, hnarrow, hsums⟩ := constants_computed
  obtain ⟨imm, himm, hsum⟩ := hsums 0x123450 (by decide)
  refine ⟨by decide, (hwide ⟨1⟩ (by decide) _).2, hnarrow ⟨17⟩ (by decide) 0x80000001, imm, himm, ?_⟩
  exact (hsum .sp .sp).2

end Crossing.A64
