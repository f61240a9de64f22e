import Crossing.Proofs.Code.Field

/-
Patching all waiting fields of a buffer. Fields that lie inside the code
and share no byte are patched independently of each other: what the first
one's patch does to the code, later patches neither see nor undo. So the
loop over the fields reduces to one patch at a time, and its answer is the
first thing that is wrong with any field, in the order of emission
(`resolve_exact`).
-/
namespace Crossing

open Code

/-- Two fields that share no byte. -/
def Code.Fixup.Apart (f g : Fixup) : Prop := f.at_ + 4 ≤ g.at_ ∨ g.at_ + 4 ≤ f.at_

instance : DecidableRel Fixup.Apart := fun f g =>
  inferInstanceAs (Decidable (f.at_ + 4 ≤ g.at_ ∨ g.at_ + 4 ≤ f.at_))

namespace CodeBuffer

/-- What patching asks of a buffer's fields: they lie inside the code, do
not overlap, and count whole words where they count words. -/
structure Patchable (b : CodeBuffer) : Prop where
  inside : ∀ f ∈ b.fixups.toList, f.at_ + 4 ≤ b.size
  apart : b.fixups.toList.Pairwise Fixup.Apart
  aligned : ∀ f ∈ b.fixups.toList, ∀ target, b.position? f.label = some target →
    f.kind.Aligned f.at_ target

/-- What is wrong with a field: its label is bound nowhere, or too far
away. -/
def offence? (b : CodeBuffer) (f : Fixup) : Option FixupError :=
  match b.position? f.label with
  | none => some (.unbound f.label)
  | some target => if f.kind.reaches f.at_ target then none else some (.outOfRange f.label)

/-- Nothing is wrong with a field exactly when its label is bound within
its reach. -/
theorem offence?_eq_none {b : CodeBuffer} {f : Fixup} :
    b.offence? f = none
      ↔ ∃ target, b.position? f.label = some target ∧ f.kind.reaches f.at_ target = true := by
  cases hpos : b.position? f.label with
  | none => simp [offence?, hpos]
  | some target => simp [offence?, hpos]

-- ====================================================== independence

/-- A patched field is still patched in code that has the same bytes
there, before and after. -/
theorem FieldPatched.congr {f : Fixup} {target : Nat} {c₁ c₁' c₂ c₂' : Array UInt8}
    (h : FieldPatched f target c₁ c₁') (hsize : c₂.size = c₁.size) (hsize' : c₂'.size = c₁'.size)
    (hbefore : ∀ k < 4, c₂[f.at_ + k]? = c₁[f.at_ + k]?)
    (hafter : ∀ k < 4, c₂'[f.at_ + k]? = c₁'[f.at_ + k]?) : FieldPatched f target c₂ c₂' := by
  obtain ⟨w, w', hw, hw', htarget, hbits⟩ := h
  exact ⟨w, w', (wordAt_congr hsize hbefore).trans hw, (wordAt_congr hsize' hafter).trans hw',
    htarget, hbits⟩

/-- What patching a list of fields means: every branch goes to its label,
and the code outside the fields is as before. -/
structure AllPatched (b : CodeBuffer) (fs : List Fixup) (code code' : Array UInt8) : Prop where
  size : code'.size = code.size
  outside : ∀ i, (∀ f ∈ fs, i < f.at_ ∨ f.at_ + 4 ≤ i) → code'[i]? = code[i]?
  fields : ∀ f ∈ fs, ∃ target, b.position? f.label = some target ∧ FieldPatched f target code code'

/-- One more field in front, apart from all others. -/
theorem AllPatched.cons {b : CodeBuffer} {f : Fixup} {fs : List Fixup} {target : Nat}
    {code code₁ code' : Array UInt8} (hpos : b.position? f.label = some target)
    (hapart : ∀ g ∈ fs, Fixup.Apart f g) (hf : Patched f target code code₁)
    (hfs : AllPatched b fs code₁ code') : AllPatched b (f :: fs) code code' where
  size := hfs.size.trans hf.size
  outside i hi := by
    have hrest := hfs.outside i fun g hg => hi g (List.mem_cons_of_mem f hg)
    exact hrest.trans (hf.outside i (hi f (List.mem_cons_self ..)))
  fields g hg := by
    rcases List.mem_cons.mp hg with rfl | hg
    · refine ⟨target, hpos, hf.field.congr rfl hfs.size (fun _ _ => rfl) fun k hk => ?_⟩
      refine hfs.outside _ fun g' hg' => ?_
      have := hapart g' hg'
      unfold Fixup.Apart at this
      omega
    · obtain ⟨t, ht, hpatched⟩ := hfs.fields g hg
      refine ⟨t, ht, hpatched.congr hf.size.symm rfl (fun k hk => ?_) fun _ _ => rfl⟩
      refine (hf.outside _ ?_).symm
      have := hapart g hg
      unfold Fixup.Apart at this
      omega

-- ============================================================ the loop

/-- The loop over the fields answers with the first thing that is wrong,
and patches all fields if nothing is. The induction is over the fields
still to come; that they are inside the code survives a patch because
patches keep the length. -/
theorem patchAll_spec (b : CodeBuffer) :
    ∀ (fs : List Fixup) (code : Array UInt8),
      (∀ f ∈ fs, f.at_ + 4 ≤ code.size) → fs.Pairwise Fixup.Apart →
      (∀ f ∈ fs, ∀ target, b.position? f.label = some target → f.kind.Aligned f.at_ target) →
      ∃ code', patchAll b.labels code fs = .ok (fs.findSome? b.offence?, code')
        ∧ (fs.findSome? b.offence? = none → AllPatched b fs code code') := by
  intro fs
  induction fs with
  | nil =>
      intro code _ _ _
      exact ⟨code, rfl, fun _ => ⟨rfl, fun _ _ => rfl, fun f hf => absurd hf (by simp)⟩⟩
  | cons f fs ih =>
      intro code hin hapart ha
      have hinf := hin f (List.mem_cons_self ..)
      obtain ⟨hf, hfs⟩ := List.pairwise_cons.mp hapart
      cases hpos : b.position? f.label with
      | none =>
          refine ⟨code, ?_, fun h => ?_⟩
          · rw [patchAll, patch_unbound hpos]
            simp [offence?, hpos]
          · simp [offence?, hpos] at h
      | some target =>
          have haf := ha f (List.mem_cons_self ..) target hpos
          cases hr : f.kind.reaches f.at_ target with
          | false =>
              refine ⟨code, ?_, fun h => ?_⟩
              · rw [patchAll, patch_unreached hpos haf hr]
                simp [offence?, hpos, hr]
              · simp [offence?, hpos, hr] at h
          | true =>
              obtain ⟨code₁, hpatch, hpatched⟩ := patch_reached hinf hpos haf hr
              obtain ⟨code', hall, hspec⟩ := ih code₁
                (fun g hg => by rw [hpatched.size]; exact hin g (List.mem_cons_of_mem f hg)) hfs
                (fun g hg => ha g (List.mem_cons_of_mem f hg))
              have hnone : b.offence? f = none := offence?_eq_none.mpr ⟨target, hpos, hr⟩
              rw [patchAll, hpatch, List.findSome?_cons, hnone]
              exact ⟨code', hall, fun h => (hspec h).cons hpos hf hpatched⟩

-- ========================================================== the buffer

/-- Patching a buffer is exact. It succeeds if and only if every field's
label is bound within the field's reach, and reports the first field of
which that is not true. On success every branch goes to its label, the
other bits of the patched words and all bytes outside the fields are as
before, and so are the length and the labels. -/
theorem resolve_exact (b : CodeBuffer) (h : b.Patchable) :
    ∃ b', b.resolve = .ok (b.fixups.toList.findSome? b.offence?, b')
      ∧ (b.fixups.toList.findSome? b.offence? = none
        ↔ ∀ f ∈ b.fixups.toList, ∃ target, b.position? f.label = some target
            ∧ f.kind.reaches f.at_ target = true)
      ∧ (b.fixups.toList.findSome? b.offence? = none →
          b'.size = b.size ∧ b'.labels = b.labels
          ∧ (∀ i, (∀ f ∈ b.fixups.toList, i < f.at_ ∨ f.at_ + 4 ≤ i) → b'.code[i]? = b.code[i]?)
          ∧ ∀ f ∈ b.fixups.toList, ∃ target w w', b.position? f.label = some target
              ∧ wordAt b.code f.at_ = .ok w ∧ wordAt b'.code f.at_ = .ok w'
              ∧ branchTarget f.kind f.at_ w' = target
              ∧ ∀ i, f.kind.holds i = false → w'.testBit i = w.testBit i) := by
  obtain ⟨code', hall, hspec⟩ := patchAll_spec b b.fixups.toList b.code h.inside h.apart h.aligned
  refine ⟨{ b with code := code', fixups := #[] }, ?_, ?_, fun hnone => ?_⟩
  · rw [resolve, hall]
  · rw [List.findSome?_eq_none_iff]
    exact ⟨fun hf f hmem => offence?_eq_none.mp (hf f hmem),
      fun hf f hmem => offence?_eq_none.mpr (hf f hmem)⟩
  · have hpatched := hspec hnone
    refine ⟨hpatched.size, rfl, hpatched.outside, fun f hf => ?_⟩
    obtain ⟨target, hpos, w, w', hrest⟩ := hpatched.fields f hf
    exact ⟨target, w, w', hpos, hrest⟩

/-- One branch of each kind, one of them forward: the buffer is patchable,
patching it succeeds, and each branch goes to its label. -/
theorem resolve_exact_mixed :
    let b : CodeBuffer :=
      { code := #[0, 0, 0, 0xB4, 0, 0, 0, 0x14, 0xE9, 0, 0, 0, 0]
        labels := #[some 0, some 8]
        fixups := #[⟨0, 1, .imm19⟩, ⟨4, 0, .imm26⟩, ⟨9, 0, .rel32⟩] }
    b.Patchable ∧ ∃ b', b.resolve = .ok (none, b')
      ∧ ∀ f ∈ b.fixups.toList, ∃ target w', b.position? f.label = some target
          ∧ wordAt b'.code f.at_ = .ok w' ∧ branchTarget f.kind f.at_ w' = target := by
  intro b
  have hpatchable : b.Patchable := by
    refine ⟨by decide, by decide, fun f hf target ht => ?_⟩
    have hcases : f = ⟨0, 1, .imm19⟩ ∨ f = ⟨4, 0, .imm26⟩ ∨ f = ⟨9, 0, .rel32⟩ := by
      simpa [b] using hf
    rcases hcases with rfl | rfl | rfl
    · obtain rfl : 8 = target := by simpa [b, position?] using ht
      exact fun _ => by decide
    · obtain rfl : 0 = target := by simpa [b, position?] using ht
      exact fun _ => by decide
    · exact fun h => absurd rfl h
  have hclean : b.fixups.toList.findSome? b.offence? = none := by decide
  obtain ⟨b', hresolve, -, hexact⟩ := resolve_exact b hpatchable
  rw [hclean] at hresolve
  obtain ⟨-, -, -, hfields⟩ := hexact hclean
  refine ⟨hpatchable, b', hresolve, fun f hf => ?_⟩
  obtain ⟨target, _, w', hpos, -, hw', htarget, -⟩ := hfields f hf
  exact ⟨target, w', hpos, hw', htarget⟩

end CodeBuffer

end Crossing
