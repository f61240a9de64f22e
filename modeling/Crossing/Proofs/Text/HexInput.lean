import Crossing.Text.HexInput
import Mathlib.Tactic.IntervalCases

/-
Which texts are read as bytes. What is wanted are pairs of digits with
blanks anywhere, `Spells IsDigit`. The reader differs from that in two ways
and in no other (`hexText_exact_iff`): a plus sign passes for a zero at the
front of a pair, and a text is unreadable, not merely wrong, if the pairs
before the first wrong one end inside a character.

Pairs are cut by bytes. That is said without the reader here: a pair ends
inside a character if no whole number of characters makes up its two bytes
(`Straddled`).
-/
namespace Crossing.Text

/-- A text's characters, blanks aside. -/
def inked (s : String) : List Char := s.toList.filter (!isBlank ·)

/-- A digit of base sixteen, in either case, and its value. -/
def IsDigit (c : Char) (v : Nat) : Prop :=
  v < 16 ∧ (c = Nat.digitChar v ∨ c = (Nat.digitChar v).toUpper)

/-- What the reader takes as the first of a pair: a digit, or a plus sign in
place of a zero. -/
def IsLeading (c : Char) (v : Nat) : Prop := IsDigit c v ∨ (c = '+' ∧ v = 0)

/-- Pairs of characters that spell bytes, by what may stand first in a
pair. -/
inductive Spells (first : Char → Nat → Prop) : List Char → List UInt8 → Prop where
  | nil : Spells first [] []
  | pair {a b : Char} {v w : Nat} {cs : List Char} {bytes : List UInt8} :
      first a v → IsDigit b w → Spells first cs bytes →
      Spells first (a :: b :: cs) (UInt8.ofNat (16 * v + w) :: bytes)

/-- Bytes of some characters together. -/
def textWidth (cs : List Char) : Nat := (cs.map width).sum

/-- The first two bytes end inside a character. -/
def Straddled (cs : List Char) : Prop := cs ≠ [] ∧ ∀ front, front <+: cs → textWidth front ≠ 2

/-- After some pairs that spell bytes, a pair ends inside a character. -/
def Splits (cs : List Char) : Prop :=
  ∃ front back bytes, cs = front ++ back ∧ Spells IsLeading front bytes ∧ Straddled back

variable {a b c : Char} {v w : Nat} {cs : List Char} {bytes : List UInt8} {byte : UInt8}

-- =============================================================== digits

theorem IsDigit.value (h : IsDigit c v) : hexDigit? c = some v := by
  obtain ⟨hv, rfl | rfl⟩ := h
  · interval_cases v <;> rfl
  · interval_cases v <;> rfl

/-- A range of characters is one of digits if its numbers are. -/
theorem isDigit_of_range (low high : Nat) {shift : Nat}
    (hall : ∀ n, low ≤ n → n ≤ high → IsDigit (Char.ofNat n) (n - shift))
    (hlow : low ≤ c.toNat) (hhigh : c.toNat ≤ high) : IsDigit c (c.toNat - shift) := by
  have hc := hall c.toNat hlow hhigh
  rwa [Char.ofNat_toNat] at hc

theorem hexDigit?_eq_some_iff : hexDigit? c = some v ↔ IsDigit c v := by
  constructor
  · intro h
    unfold hexDigit? at h
    split at h
    · next hrange =>
        cases h
        simp only [Char.isDigit, Bool.and_eq_true, decide_eq_true_eq] at hrange
        refine isDigit_of_range 48 57 (fun n hlow hhigh => ?_) hrange.1 hrange.2
        interval_cases n <;> exact ⟨by decide, .inl rfl⟩
    · split at h
      · next hrange =>
          cases h
          refine isDigit_of_range 97 102 (fun n hlow hhigh => ?_) hrange.1 hrange.2
          interval_cases n <;> exact ⟨by decide, .inl rfl⟩
      · split at h
        · next hrange =>
            cases h
            refine isDigit_of_range 65 70 (fun n hlow hhigh => ?_) hrange.1 hrange.2
            interval_cases n <;> exact ⟨by decide, .inr rfl⟩
        · cases h
  · exact IsDigit.value

theorem IsDigit.width_eq (h : IsDigit c v) : width c = 1 := by
  obtain ⟨hv, rfl | rfl⟩ := h
  · interval_cases v <;> rfl
  · interval_cases v <;> rfl

/-- A sign is no digit. -/
theorem IsDigit.ne_plus (h : IsDigit c v) : c ≠ '+' := by
  rintro rfl
  cases h.value

theorem IsLeading.width_eq (h : IsLeading c v) : width c = 1 := by
  rcases h with h | ⟨rfl, -⟩
  · exact h.width_eq
  · rfl

/-- The first of a pair, as the reader takes it. -/
theorem leading?_eq_some_iff :
    (if a = '+' then some 0 else hexDigit? a) = some v ↔ IsLeading a v := by
  unfold IsLeading
  by_cases ha : a = '+'
  · rw [if_pos ha, Option.some_inj]
    constructor
    · intro hv
      exact .inr ⟨ha, hv.symm⟩
    · rintro (hdigit | ⟨-, hv⟩)
      · exact absurd ha hdigit.ne_plus
      · exact hv.symm
  · rw [if_neg ha, hexDigit?_eq_some_iff]
    constructor
    · exact .inl
    · rintro (hdigit | ⟨hplus, -⟩)
      · exact hdigit
      · exact absurd hplus ha

/-- The pairs that the reader knows. -/
theorem pairByte?_eq_some_iff :
    pairByte? a b = some byte
      ↔ ∃ v w, IsLeading a v ∧ IsDigit b w ∧ UInt8.ofNat (16 * v + w) = byte := by
  have hpair : pairByte? a b = (if a = '+' then some 0 else hexDigit? a).bind fun v =>
      (hexDigit? b).bind fun w => some (UInt8.ofNat (16 * v + w)) := by
    unfold pairByte?
    split
    · rfl
    · rfl
  simp only [hpair, Option.bind_eq_some_iff, leading?_eq_some_iff, hexDigit?_eq_some_iff,
    Option.some_inj, exists_and_left]

-- ================================================================ pairs

@[simp] theorem textWidth_nil : textWidth [] = 0 := rfl

@[simp] theorem textWidth_cons : textWidth (c :: cs) = width c + textWidth cs := rfl

theorem width_pos (c : Char) : 0 < width c := c.utf8Size_pos

/-- Two bytes hold a character of two bytes, two characters of one, or no
whole number of characters. -/
theorem straddled_cons :
    Straddled (a :: cs)
      ↔ width a ≠ 2 ∧ (width a = 1 → ∀ b rest, cs = b :: rest → width b ≠ 1) := by
  constructor
  · rintro ⟨-, hcut⟩
    refine ⟨hcut [a] ⟨cs, rfl⟩, ?_⟩
    rintro ha b rest rfl hb
    exact hcut [a, b] ⟨rest, rfl⟩ (by simp [ha, hb])
  · rintro ⟨hwide, hnarrow⟩
    refine ⟨List.cons_ne_nil a cs, ?_⟩
    rintro front ⟨back, hfront⟩ htwo
    match front, hfront with
    | [], _ => cases htwo
    | [_], hfront =>
        cases hfront
        exact hwide htwo
    | _ :: b :: front, hfront =>
        cases hfront
        simp only [textWidth_cons] at htwo
        have ha := width_pos a
        have hb := width_pos b
        exact hnarrow (by omega) b _ rfl (by omega)

theorem hexPairs_of_straddled (h : Straddled cs) : hexPairs cs = .error .splitCharacter := by
  cases cs with
  | nil => exact absurd rfl h.1
  | cons a cs =>
      obtain ⟨hwide, hnarrow⟩ := straddled_cons.mp h
      unfold hexPairs
      rw [if_neg hwide]
      split
      · rfl
      · next ha =>
          cases cs with
          | nil => rfl
          | cons b cs => exact if_pos (hnarrow (not_not.mp ha) b cs rfl)

/-- Pairs that spell bytes are read, and reading goes on behind them. -/
theorem Spells.hexPairs_append {front back : List Char} (h : Spells IsLeading front bytes) :
    hexPairs (front ++ back) = (hexPairs back).map (bytes ++ ·) := by
  induction h with
  | nil =>
      show hexPairs back = (hexPairs back).map id
      cases hexPairs back <;> rfl
  | pair ha hb _ ih =>
      have hpair := pairByte?_eq_some_iff.mpr ⟨_, _, ha, hb, rfl⟩
      rw [List.cons_append, List.cons_append, hexPairs, ha.width_eq, hb.width_eq, ih]
      simp only [hpair]
      cases hexPairs back <;> rfl

/-- Reading stops at the end, inside a character, or at a pair that is wrong. -/
theorem hexPairs_stops (cs : List Char) : ∃ front back bytes, cs = front ++ back
    ∧ Spells IsLeading front bytes
    ∧ (back = [] ∨ Straddled back ∨ ∃ pair, hexPairs back = .error (.invalidPair pair)) := by
  have hhere : ∀ {cs}, (Straddled cs ∨ ∃ pair, hexPairs cs = .error (.invalidPair pair)) →
      ∃ front back bytes, cs = front ++ back ∧ Spells IsLeading front bytes
        ∧ (back = [] ∨ Straddled back ∨ ∃ pair, hexPairs back = .error (.invalidPair pair)) :=
    fun {cs} h => ⟨[], cs, [], rfl, .nil, .inr h⟩
  fun_induction hexPairs cs with
  | case1 => exact ⟨[], [], [], rfl, .nil, .inl rfl⟩
  | case2 a rest hwide =>
      refine hhere (.inr ⟨String.singleton a, ?_⟩)
      unfold hexPairs
      rw [if_pos hwide]
  | case3 a rest hwide ha => exact hhere (.inl (straddled_cons.mpr ⟨hwide, fun h => absurd h ha⟩))
  | case4 a hwide => exact hhere (.inl (straddled_cons.mpr ⟨hwide, nofun⟩))
  | case5 a hwide ha b rest hb =>
      refine hhere (.inl (straddled_cons.mpr ⟨hwide, fun _ _ _ h => ?_⟩))
      cases h
      exact hb
  | case6 a hwide ha b rest hb hpair =>
      refine hhere (.inr ⟨String.ofList [a, b], ?_⟩)
      unfold hexPairs
      simp only [if_neg hwide, if_neg ha, if_neg hb, hpair]
  | case7 a hwide ha b rest hb byte hpair ih =>
      obtain ⟨front, back, bytes, rfl, hfront, hback⟩ := ih
      obtain ⟨v, w, hv, hw, rfl⟩ := pairByte?_eq_some_iff.mp hpair
      exact ⟨a :: b :: front, back, _, rfl, .pair hv hw hfront, hback⟩

/-- The reader accepts what spells bytes, in its own understanding of a
pair. -/
theorem hexPairs_ok_iff : hexPairs cs = .ok bytes ↔ Spells IsLeading cs bytes := by
  constructor
  · intro h
    obtain ⟨front, back, read, rfl, hfront, rfl | hsplit | ⟨pair, hwrong⟩⟩ := hexPairs_stops cs
    · rw [hfront.hexPairs_append] at h
      cases h
      simpa using hfront
    · rw [hfront.hexPairs_append, hexPairs_of_straddled hsplit] at h
      cases h
    · rw [hfront.hexPairs_append, hwrong] at h
      cases h
  · intro h
    calc hexPairs cs
        = hexPairs (cs ++ []) := by rw [List.append_nil]
      _ = .ok (bytes ++ []) := h.hexPairs_append
      _ = .ok bytes := by rw [List.append_nil]

/-- A text is unreadable if a pair ends inside a character and everything
before it spells bytes. -/
theorem hexPairs_split_iff : hexPairs cs = .error .splitCharacter ↔ Splits cs := by
  constructor
  · intro h
    obtain ⟨front, back, read, rfl, hfront, rfl | hsplit | ⟨pair, hwrong⟩⟩ := hexPairs_stops cs
    · rw [hfront.hexPairs_append] at h
      cases h
    · exact ⟨front, back, read, rfl, hfront, hsplit⟩
    · rw [hfront.hexPairs_append, hwrong] at h
      cases h
  · rintro ⟨front, back, read, rfl, hfront, hsplit⟩
    rw [hfront.hexPairs_append, hexPairs_of_straddled hsplit]
    rfl

theorem Spells.textWidth_even (h : Spells IsLeading cs bytes) : textWidth cs % 2 = 0 := by
  induction h with
  | nil => rfl
  | pair ha hb _ ih =>
      simp only [textWidth_cons, ha.width_eq, hb.width_eq]
      omega

-- ================================================================ texts

theorem readHex_eq (s : String) :
    readHex s = if textWidth (inked s) % 2 ≠ 0 then .error (.oddDigits s) else hexPairs (inked s) :=
  rfl

theorem readHex_ok_iff (s : String) :
    readHex s = .ok bytes ↔ Spells IsLeading (inked s) bytes := by
  rw [readHex_eq, ← hexPairs_ok_iff]
  split
  · next hodd =>
      constructor
      · nofun
      · intro h
        exact absurd (hexPairs_ok_iff.mp h).textWidth_even hodd
  · exact Iff.rfl

theorem readHex_split_iff (s : String) :
    readHex s = .error .splitCharacter ↔ textWidth (inked s) % 2 = 0 ∧ Splits (inked s) := by
  rw [readHex_eq, ← hexPairs_split_iff]
  split
  · next hodd => exact ⟨nofun, fun h => absurd h.1 hodd⟩
  · next heven => exact ⟨fun h => ⟨not_not.mp heven, h⟩, fun h => h.2⟩

/-- Only the sign tells the reader's pairs from pairs of digits. -/
theorem spells_digits_iff :
    Spells IsDigit cs bytes ↔ Spells IsLeading cs bytes ∧ '+' ∉ cs := by
  constructor
  · intro h
    induction h with
    | nil => exact ⟨.nil, List.not_mem_nil⟩
    | pair ha hb _ ih =>
        refine ⟨.pair (.inl ha) hb ih.1, ?_⟩
        simp [ha.ne_plus.symm, hb.ne_plus.symm, ih.2]
  · rintro ⟨h, hplus⟩
    induction h with
    | nil => exact .nil
    | pair ha hb _ ih =>
        simp only [List.mem_cons, not_or] at hplus
        refine .pair (ha.resolve_right fun h => hplus.1 h.1.symm) hb (ih hplus.2.2)

/-- Bytes can be spelled with any digits, if they are even in number. -/
theorem exists_spells_iff : ∀ {cs : List Char},
    (∃ bytes, Spells IsDigit cs bytes) ↔ 2 ∣ cs.length ∧ ∀ c ∈ cs, ∃ v, IsDigit c v
  | [] => ⟨fun _ => ⟨Nat.dvd_zero 2, nofun⟩, fun _ => ⟨[], .nil⟩⟩
  | [a] => ⟨nofun, fun h => absurd h.1 (by simp)⟩
  | a :: b :: cs => by
      have hrest : (∃ bytes, Spells IsDigit cs bytes) ↔ _ := exists_spells_iff
      simp only [List.length_cons, List.forall_mem_cons]
      constructor
      · rintro ⟨bytes, h⟩
        cases h with
        | pair ha hb h =>
            obtain ⟨heven, hdigits⟩ := hrest.mp ⟨_, h⟩
            exact ⟨by omega, ⟨_, ha⟩, ⟨_, hb⟩, hdigits⟩
      · rintro ⟨heven, ⟨v, ha⟩, ⟨w, hb⟩, hdigits⟩
        obtain ⟨bytes, h⟩ := hrest.mpr ⟨by omega, hdigits⟩
        exact ⟨_, .pair ha hb h⟩

/-- A text is read as it should be: it is not unreadable, it is accepted if
blanks aside it is an even number of digits, and then the bytes are those
that its pairs spell. -/
structure ReadsDigits (s : String) : Prop where
  readable : readHex s ≠ .error .splitCharacter
  accepted : (∃ bytes, readHex s = .ok bytes)
    ↔ 2 ∣ (inked s).length ∧ ∀ c ∈ inked s, ∃ v, IsDigit c v
  bytes : ∀ bytes, readHex s = .ok bytes → Spells IsDigit (inked s) bytes

/-- Which texts are accepted, with which bytes, and which are unreadable.
A text is read as it should be unless a pair of it ends inside a character
behind pairs that spell bytes, or it spells bytes with the help of a sign. -/
theorem hexText_exact_iff (s : String) :
    (∀ bytes, readHex s = .ok bytes ↔ Spells IsLeading (inked s) bytes)
      ∧ (readHex s = .error .splitCharacter ↔ textWidth (inked s) % 2 = 0 ∧ Splits (inked s))
      ∧ (ReadsDigits s ↔ ¬(textWidth (inked s) % 2 = 0 ∧ Splits (inked s))
        ∧ ∀ bytes, Spells IsLeading (inked s) bytes → '+' ∉ inked s) := by
  refine ⟨fun bytes => readHex_ok_iff s, readHex_split_iff s, ?_, ?_⟩
  · intro h
    refine ⟨fun hsplit => h.readable ((readHex_split_iff s).mpr hsplit), fun bytes hbytes => ?_⟩
    exact (spells_digits_iff.mp (h.bytes bytes ((readHex_ok_iff s).mpr hbytes))).2
  · rintro ⟨hwhole, hunsigned⟩
    have hdigits : ∀ {bytes}, readHex s = .ok bytes ↔ Spells IsDigit (inked s) bytes := by
      intro bytes
      rw [readHex_ok_iff, spells_digits_iff]
      exact ⟨fun h => ⟨h, hunsigned bytes h⟩, fun h => h.1⟩
    refine ⟨fun h => hwhole ((readHex_split_iff s).mp h), ?_, fun bytes => hdigits.mp⟩
    rw [← exists_spells_iff]
    exact exists_congr fun bytes => hdigits

/-- A sign passes for a digit, and a text that is no byte string need not
come back as an error. -/
theorem not_digits_only :
    (readHex "8b00+8" = .ok [0x8B, 0x00, 0x08] ∧ ¬ReadsDigits "8b00+8")
      ∧ readHex "aéb" = .error .splitCharacter ∧ ¬ReadsDigits "aéb" := by
  have hsign : readHex "8b00+8" = .ok [0x8B, 0x00, 0x08] := by decide
  have hsplit : readHex "aéb" = .error .splitCharacter := by decide
  refine ⟨⟨hsign, fun h => ?_⟩, hsplit, fun h => h.readable hsplit⟩
  exact (spells_digits_iff.mp (h.bytes _ hsign)).2 (by decide)

end Crossing.Text
