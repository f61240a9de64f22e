import Crossing.Proofs.Processor.Basic

/-
What frames are about on either processor: straight-line code that may end
by returning, and words that are kept in a piece of memory. A frame is a
block of bytes; everything in it is found by its distance from the stack
pointer that the body of a method runs with, and code that moves the stack
pointer is described with that same base.
-/
namespace Crossing

-- ======================================================= straight lines

namespace Glue

/-- What an instruction of straight-line code leads to: the next one, or
the code's caller. -/
inductive Flow (σ : Type) where
  | next (s : σ)
  | back (address : UInt64) (s : σ)

section Follow

variable {ι σ : Type} {step : ι → σ → Option (Flow σ)}

/-- Instructions one after the other, until one of them returns. -/
def follow (step : ι → σ → Option (Flow σ)) : List ι → σ → Option (Flow σ)
  | [], s => some (.next s)
  | i :: is, s =>
      match step i s with
      | some (.next s') => follow step is s'
      | r => r

/-- Instructions run through to their end, to a state with the property. -/
def Reaches (step : ι → σ → Option (Flow σ)) (is : List ι) (s : σ) (Q : σ → Prop) : Prop :=
  ∃ s', follow step is s = some (.next s') ∧ Q s'

theorem follow_append {is is' : List ι} {s s' : σ} (h : follow step is s = some (.next s')) :
    follow step (is ++ is') s = follow step is' s' := by
  induction is generalizing s with
  | nil =>
      obtain rfl : s = s' := by
        injection h with h
        injection h
      rfl
  | cons i is ih =>
      rw [follow] at h
      rw [List.cons_append, follow]
      cases hi : step i s with
      | none =>
          rw [hi] at h
          cases h
      | some r =>
          rw [hi] at h
          cases r with
          | next s₁ => exact ih h
          | back address s₁ => cases h

theorem Reaches.nil {s : σ} {Q : σ → Prop} (h : Q s) : Reaches step [] s Q := ⟨s, rfl, h⟩

theorem Reaches.one {i : ι} {s s' : σ} {Q : σ → Prop} (hi : step i s = some (.next s'))
    (h : Q s') : Reaches step [i] s Q := by
  refine ⟨s', ?_, h⟩
  rw [follow, hi]
  rfl

theorem Reaches.append {is is' : List ι} {s : σ} {Q Q' : σ → Prop} (h : Reaches step is s Q)
    (h' : ∀ s', Q s' → Reaches step is' s' Q') : Reaches step (is ++ is') s Q' := by
  obtain ⟨s₁, his, hs₁⟩ := h
  obtain ⟨s₂, his', hs₂⟩ := h' s₁ hs₁
  exact ⟨s₂, (follow_append his).trans his', hs₂⟩

theorem Reaches.cons {i : ι} {is : List ι} {s s' : σ} {Q : σ → Prop}
    (hi : step i s = some (.next s')) (h : Reaches step is s' Q) : Reaches step (i :: is) s Q :=
  (Reaches.one (Q := fun s₁ => s₁ = s') hi rfl).append fun _ heq => heq ▸ h

theorem Reaches.mono {is : List ι} {s : σ} {Q Q' : σ → Prop} (h : Reaches step is s Q)
    (himp : ∀ s', Q s' → Q' s') : Reaches step is s Q' := by
  obtain ⟨s', his, hs'⟩ := h
  exact ⟨s', his, himp s' hs'⟩

end Follow

end Glue

theorem subWord_add (a b : Nat) : subWord (a + b) b = .ok a := by
  rw [subWord, if_pos (Nat.le_add_left b a), Nat.add_sub_cancel]

theorem next_word (B : UInt64) (n : Nat) :
    B + UInt64.ofNat n + 8 = B + UInt64.ofNat (n + 8) := by
  rw [UInt64.ofNat_add, UInt64.add_assoc]
  rfl

-- ========================================================== saved words

namespace Memory

variable {m m' m'' : Memory} {base : UInt64} {ρ : Type} {f : ρ → UInt64}

/-- Bytes that are the same in two memories: those at a distance from
`base` between `lo` and `hi`. -/
def SameOn (m m' : Memory) (base : UInt64) (lo hi : Nat) : Prop :=
  ∀ o, lo ≤ o → o < hi → m'.byte (base + UInt64.ofNat o) = m.byte (base + UInt64.ofNat o)

/-- Only the `size` bytes at distance `at_` from `base` may differ. -/
def Within (m m' : Memory) (base : UInt64) (at_ size : Nat) : Prop :=
  ∀ a, size ≤ (a - (base + UInt64.ofNat at_)).toNat → m'.byte a = m.byte a

theorem SameOn.trans {lo hi : Nat} (h : SameOn m m' base lo hi) (h' : SameOn m' m'' base lo hi) :
    SameOn m m'' base lo hi := fun o hlo hhi => (h' o hlo hhi).trans (h o hlo hhi)

theorem SameOn.mono {lo hi lo' hi' : Nat} (h : SameOn m m' base lo hi) (hlo : lo ≤ lo')
    (hhi : hi' ≤ hi) : SameOn m m' base lo' hi' :=
  fun o ho ho' => h o (Nat.le_trans hlo ho) (Nat.lt_of_lt_of_le ho' hhi)

/-- A number in bytes that are the same is the same. -/
theorem SameOn.read {lo hi o size : Nat} (h : SameOn m m' base lo hi) (hlo : lo ≤ o)
    (hhi : o + size ≤ hi) :
    m'.read (base + UInt64.ofNat o) size = m.read (base + UInt64.ofNat o) size := by
  refine read_congr size fun i hi => ?_
  rw [UInt64.add_assoc, ← UInt64.ofNat_add]
  exact h (o + i) (by omega) (by omega)

theorem SameOn.read64 {lo hi o : Nat} (h : SameOn m m' base lo hi) (hlo : lo ≤ o)
    (hhi : o + 8 ≤ hi) :
    m'.read64 (base + UInt64.ofNat o) = m.read64 (base + UInt64.ofNat o) :=
  congrArg UInt64.ofNat (h.read hlo hhi)

theorem within_refl (m : Memory) (base : UInt64) (at_ size : Nat) : Within m m base at_ size :=
  fun _ _ => rfl

theorem Within.trans {at_ size : Nat} (h : Within m m' base at_ size)
    (h' : Within m' m'' base at_ size) : Within m m'' base at_ size :=
  fun a ha => (h' a ha).trans (h a ha)

theorem Within.mono {at_ size at' size' : Nat} (h : Within m m' base at_ size) (hlo : at' ≤ at_)
    (hhi : at_ + size ≤ at' + size') :
    Within m m' base at' size' := by
  intro a ha
  refine h a ?_
  simp only [UInt64.toNat_sub, UInt64.toNat_add, UInt64.toNat_ofNat'] at ha ⊢
  have := a.toNat_lt
  have := base.toNat_lt
  omega

/-- What lies beside the bytes that may differ is the same. -/
theorem Within.sameOn {at_ size lo hi : Nat} (h : Within m m' base at_ size)
    (hapart : hi ≤ at_ ∨ at_ + size ≤ lo) (hhi : hi ≤ 2 ^ 64) (hsize : at_ + size ≤ 2 ^ 64) :
    SameOn m m' base lo hi := by
  intro o hlo ho
  refine h _ ?_
  simp only [UInt64.toNat_sub, UInt64.toNat_add, UInt64.toNat_ofNat']
  have := base.toNat_lt
  omega

theorem Within.read64 {at_ size o : Nat} (h : Within m m' base at_ size)
    (hapart : o + 8 ≤ at_ ∨ at_ + size ≤ o) (ho : o + 8 ≤ 2 ^ 64) (hsize : at_ + size ≤ 2 ^ 64) :
    m'.read64 (base + UInt64.ofNat o) = m.read64 (base + UInt64.ofNat o) :=
  (h.sameOn hapart ho hsize).read64 (Nat.le_refl o) (Nat.le_refl (o + 8))

theorem within_write (m : Memory) (base : UInt64) (at_ size v : Nat) :
    Within m (m.write (base + UInt64.ofNat at_) size v) base at_ size :=
  fun _ ha => if_neg (Nat.not_lt.mpr ha)

theorem within_write64 (m : Memory) (base : UInt64) (at_ : Nat) (v : UInt64) :
    Within m (m.write64 (base + UInt64.ofNat at_) v) base at_ 8 :=
  m.within_write base at_ 8 v.toNat

/-- From distance `at_` on, word by word, there is what `f` gives for the
elements of a list. -/
def Saved (m : Memory) (base : UInt64) (f : ρ → UInt64) : Nat → List ρ → Prop
  | _, [] => True
  | at_, r :: rs => m.read64 (base + UInt64.ofNat at_) = f r ∧ m.Saved base f (at_ + 8) rs

theorem Saved.same (rs : List ρ) :
    ∀ {at_ : Nat}, SameOn m m' base at_ (at_ + 8 * rs.length) → m.Saved base f at_ rs →
      m'.Saved base f at_ rs := by
  induction rs with
  | nil => exact fun _ _ => trivial
  | cons r rs ih =>
      intro at_ hsame h
      rw [List.length_cons] at hsame
      refine ⟨?_, ih (hsame.mono (by omega) (by omega)) h.2⟩
      rw [hsame.read64 (Nat.le_refl _) (by omega), h.1]

theorem saved_append (rs rs' : List ρ) :
    ∀ {at_ : Nat}, m.Saved base f at_ (rs ++ rs')
      ↔ m.Saved base f at_ rs ∧ m.Saved base f (at_ + 8 * rs.length) rs' := by
  induction rs with
  | nil => exact fun {at_} => ⟨fun h => ⟨trivial, h⟩, fun h => h.2⟩
  | cons r rs ih =>
      intro at_
      rw [List.cons_append, Saved, Saved, ih, and_assoc, List.length_cons,
        show at_ + 8 + 8 * rs.length = at_ + 8 * (rs.length + 1) by omega]

theorem saved_congr {g : ρ → UInt64} (rs : List ρ) :
    ∀ {at_ : Nat}, (∀ r ∈ rs, f r = g r) → m.Saved base f at_ rs → m.Saved base g at_ rs := by
  induction rs with
  | nil => exact fun _ _ => trivial
  | cons r rs ih =>
      intro at_ hfg h
      exact ⟨h.1.trans (hfg r (List.mem_cons_self ..)),
        ih (fun q hq => hfg q (List.mem_cons_of_mem r hq)) h.2⟩

end Memory

end Crossing
