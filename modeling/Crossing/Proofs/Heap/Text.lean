import Crossing.Heap.Store

/-
The units of a string and its characters. A character outside the first
65536 is written as two surrogates, which are units that are no characters
themselves; so the characters can be told from the units, and two strings
with the same units are the same.
-/
namespace Crossing.Heap

/-- The characters that units spell, unless a surrogate stands alone. -/
def ofUnits? : List UInt16 → Option (List Char)
  | [] => some []
  | u :: rest =>
      if u.toNat < 0xD800 ∨ 0xDFFF < u.toNat then
        (ofUnits? rest).map (Char.ofNat u.toNat :: ·)
      else
        match rest with
        | [] => none
        | v :: rest =>
            if u.toNat < 0xDC00 ∧ 0xDC00 ≤ v.toNat ∧ v.toNat < 0xE000 then
              (ofUnits? rest).map
                (Char.ofNat (0x10000 + (u.toNat - 0xD800) * 0x400 + (v.toNat - 0xDC00)) :: ·)
            else none

/-- A character is no surrogate and lies below 0x110000. -/
theorem toNat_char (c : Char) : c.toNat < 0xD800 ∨ 0xDFFF < c.toNat ∧ c.toNat < 0x110000 := c.valid

/-- The units of a character spell it, whatever follows them. -/
theorem ofUnits?_units (c : Char) (rest : List UInt16) :
    ofUnits? (units c ++ rest) = (ofUnits? rest).map (c :: ·) := by
  have hvalid := toNat_char c
  by_cases hsmall : c.toNat < 0x10000
  · have hunit : (UInt16.ofNat c.toNat).toNat = c.toNat := by
      rw [UInt16.toNat_ofNat']
      omega
    have hchar : (UInt16.ofNat c.toNat).toNat < 0xD800 ∨ 0xDFFF < (UInt16.ofNat c.toNat).toNat := by
      omega
    rw [units, if_pos hsmall, List.singleton_append, ofUnits?.eq_def]
    dsimp only
    rw [if_pos hchar, hunit, Char.ofNat_toNat]
  · have hhigh : (UInt16.ofNat (0xD800 + (c.toNat - 0x10000) / 0x400)).toNat
        = 0xD800 + (c.toNat - 0x10000) / 0x400 := by
      rw [UInt16.toNat_ofNat']
      omega
    have hlow : (UInt16.ofNat (0xDC00 + (c.toNat - 0x10000) % 0x400)).toNat
        = 0xDC00 + (c.toNat - 0x10000) % 0x400 := by
      rw [UInt16.toNat_ofNat']
      omega
    have hpair : 0x10000 + (0xD800 + (c.toNat - 0x10000) / 0x400 - 0xD800) * 0x400
        + (0xDC00 + (c.toNat - 0x10000) % 0x400 - 0xDC00) = c.toNat := by
      omega
    rw [units, if_neg hsmall, List.cons_append, List.cons_append, List.nil_append, ofUnits?.eq_def]
    dsimp only
    rw [hhigh, hlow, if_neg (by omega), if_pos (by omega), hpair, Char.ofNat_toNat]

/-- The units of a string spell it. -/
theorem ofUnits?_flatMap (cs : List Char) : ofUnits? (cs.flatMap units) = some cs := by
  induction cs with
  | nil => rfl
  | cons c cs ih => rw [List.flatMap_cons, ofUnits?_units, ih, Option.map_some]

end Crossing.Heap
