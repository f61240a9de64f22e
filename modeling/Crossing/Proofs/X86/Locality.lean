import Crossing.Proofs.X86.Length

/-
Which bytes the length of an instruction is told from: its own and no
others. Nothing behind an instruction counts, and of an instruction that is
cut short no length is told, so a decoder may be shown as much of the code
as there is, or as much as it cares to read (`instructionLength_take`).
-/
namespace Crossing.X86

open Format

variable {is64 : Bool} {code : List UInt8}

/-- An instruction lies in the code, and its length is told from its own
bytes, whatever follows them. -/
theorem instructionLength_own (hne : instructionLength code is64 ≠ 0) :
    instructionLength code is64 ≤ code.length
      ∧ ∀ more, instructionLength (code.take (instructionLength code is64) ++ more) is64
          = instructionLength code is64 := by
  obtain ⟨h, m, rest, f, k, hhead, hknown, hk, hle, hlen⟩ := measured hne
  obtain ⟨hvalid, hcode⟩ := head?_eq_some hhead
  constructor
  · rw [hlen, hcode, List.length_append, List.length_cons]
    omega
  · intro more
    have hcut : code.take (instructionLength code is64)
        = h.bytes ++ m :: rest.take (announced m + k) := by
      rw [hlen, hcode, List.take_length_add_append, Nat.add_comm 1, List.take_succ_cons]
    have hrest : announced m + k ≤ (rest.take (announced m + k) ++ more).length := by
      rw [List.length_append, List.length_take, Nat.min_eq_left hle]
      exact Nat.le_add_right _ _
    rw [hcut, List.append_assoc, List.cons_append, hlen]
    exact instructionLength_of_known (head?_bytes hvalid _) hknown hk hrest

/-- What lies behind an instruction does not change its length. -/
theorem instructionLength_append (hne : instructionLength code is64 ≠ 0) (more : List UInt8) :
    instructionLength (code ++ more) is64 = instructionLength code is64 := by
  have hown := (instructionLength_own hne).2 (code.drop (instructionLength code is64) ++ more)
  rwa [← List.append_assoc, List.take_append_drop] at hown

/-- Code that is cut off has the same length at its front if the instruction
there ends before the cut, and none otherwise. -/
theorem instructionLength_take (code : List UInt8) (is64 : Bool) (n : Nat) :
    instructionLength (code.take n) is64
      = if instructionLength code is64 ≤ n then instructionLength code is64 else 0 := by
  by_cases hcut : instructionLength (code.take n) is64 = 0
  · -- were the instruction whole, its length could still be told
    have hzero : instructionLength code is64 ≤ n → instructionLength code is64 = 0 := by
      intro hle
      by_cases hne : instructionLength code is64 = 0
      · exact hne
      · have hown := (instructionLength_own hne).2
          ((code.drop (instructionLength code is64)).take (n - instructionLength code is64))
        rw [← List.take_add, Nat.add_sub_cancel' hle, hcut] at hown
        exact hown.symm
    split
    · next hle => rw [hcut, hzero hle]
    · exact hcut
  · have hwhole : instructionLength code is64 = instructionLength (code.take n) is64 := by
      have happend := instructionLength_append hcut (code.drop n)
      rwa [List.take_append_drop] at happend
    have hle := (instructionLength_own hcut).1
    rw [List.length_take] at hle
    rw [hwhole, if_pos (by omega)]

/-- An instruction lies in the code, other code that begins with the same
bytes has an instruction of the same length there, and what is cut off
before its end has none. -/
theorem instructionLength_local {n : Nat} (hlen : instructionLength code is64 = n) (hpos : 0 < n) :
    n ≤ code.length
      ∧ (∀ other : List UInt8, n ≤ other.length → other.take n = code.take n →
        instructionLength other is64 = n)
      ∧ ∀ k, k < n → instructionLength (code.take k) is64 = 0 := by
  have hne : instructionLength code is64 ≠ 0 := hlen ▸ Nat.ne_of_gt hpos
  obtain ⟨hle, hown⟩ := instructionLength_own hne
  rw [hlen] at hle hown
  refine ⟨hle, fun other _ hsame => ?_, fun k hk => ?_⟩
  · calc instructionLength other is64
        = instructionLength (other.take n ++ other.drop n) is64 := by rw [List.take_append_drop]
      _ = instructionLength (code.take n ++ other.drop n) is64 := by rw [hsame]
      _ = n := hown (other.drop n)
  · rw [instructionLength_take, hlen, if_neg (Nat.not_le_of_gt hk)]

/-- An addition of two immediate bytes to memory, under two overrides and
with a scaled index: `add word ptr fs:[r12 + 8], 0x1234`. -/
theorem instructionLength_local_add :
    let code : List UInt8 := [0x64, 0x66, 0x41, 0x81, 0x44, 0x24, 0x08, 0x34, 0x12, 0x90]
    instructionLength code true = 9 ∧ 9 ≤ code.length
      ∧ instructionLength [0x64, 0x66, 0x41, 0x81, 0x44, 0x24, 0x08, 0x34, 0x12, 0xCC, 0xCC] true = 9
      ∧ instructionLength [0x64, 0x66, 0x41, 0x81, 0x44, 0x24, 0x08, 0x34] true = 0 := by
  intro code
  have hlen : instructionLength code true = 9 := by decide
  obtain ⟨hle, hother, hcut⟩ := instructionLength_local hlen (by decide)
  exact ⟨hlen, hle, hother _ (by decide) rfl, hcut 8 (by decide)⟩

end Crossing.X86
