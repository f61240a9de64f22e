import Crossing.Proofs.Glue.Emission

/-
What an attempt to patch a buffer leaves behind. An attempt takes all
waiting fields out of the buffer, patches them one by one, and stops at the
first with which something is wrong: the fields before it are patched, the
others (`missed`) are as they were, and none waits any more. So a failed
attempt never leaves the buffer as it was.

What that means for later attempts rests on one fact about single steps
(`step_above`): fields that are emitted later lie behind the code there was,
so nothing that happens afterwards writes to a field that was missed. A
later attempt answers for the fields emitted since, and a branch that was
missed goes to its label only if the bytes it was left with happen to lead
there (`resolve_forgets`).
-/
namespace Crossing

open Code Glue

namespace CodeBuffer

-- ============================================================== history

/-- What can be done to a buffer. -/
inductive Step where
  | emit (e : Encoding)
  | newLabel
  | bind (label : Nat)
  | align (alignment : Nat) (fill : UInt8)
  /-- An attempt to patch, whatever its answer. -/
  | resolve

def step (b : CodeBuffer) : Step → Except Violation CodeBuffer
  | .emit e => .ok (b.emit e)
  | .newLabel => .ok b.newLabel.2
  | .bind label => b.bind label
  | .align alignment fill => b.align alignment fill
  | .resolve => b.resolve.map (·.2)

/-- Steps one after the other. -/
def steps (b : CodeBuffer) (ss : List Step) : Except Violation CodeBuffer := ss.foldlM step b

/-- The branch at a field goes to its label, in this code and with labels
bound like this. -/
def Leads (labels : Array (Option Nat)) (code : Array UInt8) (f : Fixup) : Prop :=
  ∃ target w, (labels[f.label]?).join = some target ∧ wordAt code f.at_ = .ok w
    ∧ branchTarget f.kind f.at_ w = target

/-- Whether nothing is wrong with a field. -/
def isFine (b : CodeBuffer) (f : Fixup) : Bool := (b.offence? f).isNone

/-- The waiting fields that an attempt patches: those before the first with
which something is wrong. -/
def reached (b : CodeBuffer) : List Fixup := b.fixups.toList.takeWhile b.isFine

/-- The waiting fields that an attempt does not patch. -/
def missed (b : CodeBuffer) : List Fixup := b.fixups.toList.dropWhile b.isFine

theorem reached_append_missed (b : CodeBuffer) : b.reached ++ b.missed = b.fixups.toList :=
  List.takeWhile_append_dropWhile

-- ========================================================== one attempt

section Patching

variable {labels : Array (Option Nat)} {f : Fixup} {fs gs : List Fixup} {n : Nat}

/-- Patching a field does not touch what lies before it. -/
theorem patch_above {code code' : Array UInt8} (hn : n ≤ f.at_)
    (h : patch labels code f = .ok (.ok code')) :
    code'.size = code.size ∧ ∀ i < n, code'[i]? = code[i]? := by
  have hwrite (bs : List UInt8) : (overwrite code f.at_ bs).size = code.size
      ∧ ∀ i < n, (overwrite code f.at_ bs)[i]? = code[i]? :=
    ⟨overwrite_size bs code f.at_, fun i hi => overwrite_outside bs (.inl (by omega))⟩
  cases hpos : (labels[f.label]?).join with
  | none =>
      rw [patch_unbound hpos] at h
      cases h
  | some target =>
      cases hfits : fits (fieldBits f.kind) (displacement f.kind f.at_ target) with
      | false => simp [patch, hpos, hfits] at h
      | true =>
          simp only [patch, hpos, hfits, if_true] at h
          split at h
          · split at h
            · cases h
              exact hwrite _
            · cases h
          · obtain ⟨w, -, h⟩ := bind_eq_ok h
            cases h
            exact hwrite _

/-- Patching fields keeps the length, and what lies before all of them. -/
theorem patchAll_above (fs : List Fixup) :
    ∀ {code : Array UInt8}, (∀ f ∈ fs, n ≤ f.at_) → ∀ {failure code'},
      patchAll labels code fs = .ok (failure, code') →
      code'.size = code.size ∧ ∀ i < n, code'[i]? = code[i]? := by
  induction fs with
  | nil =>
      intro code _ failure code' h
      cases h
      exact ⟨rfl, fun _ _ => rfl⟩
  | cons f fs ih =>
      intro code hn failure code' h
      rw [patchAll] at h
      split at h
      · cases h
      · cases h
        exact ⟨rfl, fun _ _ => rfl⟩
      · next code₁ hpatch =>
        obtain ⟨hsize, hfirst⟩ := patch_above (hn f (List.mem_cons_self ..)) hpatch
        obtain ⟨hsize', hrest⟩ := ih (fun g hg => hn g (List.mem_cons_of_mem f hg)) h
        exact ⟨hsize'.trans hsize, fun i hi => (hrest i hi).trans (hfirst i hi)⟩

/-- Fields that can all be patched are, before any others. -/
theorem patchAll_append (fs : List Fixup) :
    ∀ {code code₁ : Array UInt8}, patchAll labels code fs = .ok (none, code₁) →
      patchAll labels code (fs ++ gs) = patchAll labels code₁ gs := by
  induction fs with
  | nil =>
      intro code code₁ h
      cases h
      rfl
  | cons f fs ih =>
      intro code code₁ h
      rw [patchAll] at h
      rw [List.cons_append, patchAll]
      split at h
      · cases h
      · cases h
      · next code' hpatch => exact ih h

end Patching

/-- The first field that is missed is one with which something is wrong. -/
theorem missed_cases (b : CodeBuffer) :
    b.missed = [] ∨ ∃ f fs e, b.missed = f :: fs ∧ b.offence? f = some e := by
  cases hmissed : b.missed with
  | nil => exact .inl rfl
  | cons f fs =>
      have hfine : b.isFine f = false := by
        have hhead := List.head?_dropWhile_not b.isFine b.fixups.toList
        rw [show b.fixups.toList.dropWhile b.isFine = f :: fs from hmissed] at hhead
        simpa using hhead
      cases hoffence : b.offence? f with
      | none => simp [isFine, hoffence] at hfine
      | some e => exact .inr ⟨f, fs, e, rfl, hoffence⟩

/-- Whatever it answers, an attempt leaves the labels and the length as they
were and nothing waiting; it fails only if something was. -/
theorem resolve_eq_ok {b b₁ : CodeBuffer} {failure : Option FixupError}
    (h : b.resolve = .ok (failure, b₁)) :
    patchAll b.labels b.code b.fixups.toList = .ok (failure, b₁.code)
      ∧ b₁.labels = b.labels ∧ b₁.fixups = #[] ∧ (failure ≠ none → b.fixups ≠ #[]) := by
  unfold resolve at h
  split at h
  · cases h
  · next e code hall =>
    cases h
    refine ⟨hall, rfl, rfl, fun hfailure hempty => hfailure ?_⟩
    rw [hempty] at hall
    cases hall
    rfl

/-- An attempt patches the fields before the first with which something is
wrong, changes nothing else, and succeeds if there is no such field. -/
theorem resolve_reached {b b₁ : CodeBuffer} {failure : Option FixupError} (hb : b.Patchable)
    (h : b.resolve = .ok (failure, b₁)) :
    AllPatched b b.reached b.code b₁.code ∧ (failure = none ↔ b.missed = []) := by
  obtain ⟨hall, -⟩ := resolve_eq_ok h
  have hmem : ∀ f ∈ b.reached, f ∈ b.fixups.toList :=
    fun f hf => (List.takeWhile_sublist b.isFine).mem hf
  obtain ⟨code₁, hreached, hpatched⟩ := patchAll_spec b b.reached b.code
    (fun f hf => hb.inside f (hmem f hf)) (hb.apart.sublist (List.takeWhile_sublist b.isFine))
    (fun f hf => hb.aligned f (hmem f hf))
  have hfine : b.reached.findSome? b.offence? = none := by
    rw [List.findSome?_eq_none_iff]
    intro f hf
    have : b.isFine f = true := List.all_eq_true.mp List.all_takeWhile f hf
    simpa [isFine] using this
  rw [hfine] at hreached
  rw [← reached_append_missed, patchAll_append b.reached hreached] at hall
  rcases b.missed_cases with hnil | ⟨f, fs, e, hmissed, hoffence⟩
  · rw [hnil] at hall
    cases hall
    exact ⟨hpatched hfine, iff_of_true rfl hnil⟩
  · have hf : f ∈ b.fixups.toList := by
      rw [← reached_append_missed, hmissed]
      exact List.mem_append_right _ (List.mem_cons_self ..)
    have hpatch : patch b.labels code₁ f = .ok (.error e) := by
      cases hpos : b.position? f.label with
      | none =>
          simp only [offence?, hpos, Option.some.injEq] at hoffence
          rw [← hoffence]
          exact patch_unbound hpos
      | some target =>
          cases hr : f.kind.reaches f.at_ target with
          | true => simp [offence?, hpos, hr] at hoffence
          | false =>
              simp only [offence?, hpos, hr, Bool.false_eq_true, if_false, Option.some.injEq]
                at hoffence
              rw [← hoffence]
              exact patch_unreached hpos (hb.aligned f hf target hpos) hr
    rw [hmissed, patchAll, hpatch] at hall
    cases hall
    exact ⟨hpatched hfine, by simp [hmissed]⟩

-- ========================================================= later steps

/-- Nothing that waits lies among the first `n` bytes. -/
structure Above (n : Nat) (b : CodeBuffer) : Prop where
  size : n ≤ b.size
  fields : ∀ f ∈ b.fixups.toList, n ≤ f.at_

/-- The first `n` bytes are as they were, and bound labels stay where they
are. -/
structure Extends (n : Nat) (b b' : CodeBuffer) : Prop where
  bytes : ∀ i < n, b'.code[i]? = b.code[i]?
  position : ∀ label target, b.position? label = some target → b'.position? label = some target

theorem Extends.trans {n : Nat} {b b' b'' : CodeBuffer} (h : Extends n b b')
    (h' : Extends n b' b'') : Extends n b b'' where
  bytes i hi := (h'.bytes i hi).trans (h.bytes i hi)
  position label target hpos := h'.position label target (h.position label target hpos)

theorem resolve_above {n : Nat} {b b₁ : CodeBuffer} {failure : Option FixupError} (hb : Above n b)
    (h : b.resolve = .ok (failure, b₁)) : Above n b₁ ∧ Extends n b b₁ := by
  obtain ⟨hall, hlabels, hfixups, -⟩ := resolve_eq_ok h
  obtain ⟨hsize, hbytes⟩ := patchAll_above b.fixups.toList hb.fields hall
  refine ⟨⟨Nat.le_trans hb.size (Nat.le_of_eq hsize.symm), fun f hf => ?_⟩, hbytes,
    fun label target hpos => ?_⟩
  · rw [hfixups] at hf
    cases hf
  · rwa [position?, hlabels]

theorem bind_above {n label : Nat} {b : CodeBuffer} (hb : Above n b) :
    Yields (b.bind label) fun b' => Above n b' ∧ Extends n b b' := by
  intro b' hbind
  unfold bind at hbind
  split at hbind
  · next hlt =>
    split at hbind
    · cases hbind
    · next hfree =>
      cases hbind
      refine ⟨⟨hb.size, hb.fields⟩, fun _ _ => rfl, fun l target hpos => ?_⟩
      have hne : label ≠ l := by
        rintro rfl
        simp [position?, hlt, hfree] at hpos
      simpa [position?, Array.getElem?_set_ne hlt hne] using hpos
  · cases hbind

theorem align_above {n alignment : Nat} {fill : UInt8} {b : CodeBuffer} (hb : Above n b) :
    Yields (b.align alignment fill) fun b' => Above n b' ∧ Extends n b b' := by
  refine yields_bind fun sum hsum => yields_bind fun last hlast => yields_bind fun mask hmask => ?_
  refine yields_ite (fun _ => yields_pure ?_) fun _ => yields_error _
  have hsize : b.size ≤ last - (last &&& mask) := by
    have hand : last &&& mask ≤ mask := Nat.and_le_right
    simp only [addWord, subWord] at hsum hlast hmask
    split at hsum <;> cases hsum
    split at hlast <;> cases hlast
    split at hmask <;> cases hmask
    omega
  refine ⟨⟨?_, hb.fields⟩, fun i hi => ?_, fun _ _ hpos => hpos⟩
  · simp only [size, resize, Array.size_ofFn]
    exact Nat.le_trans hb.size hsize
  · have hi' : i < b.code.size := Nat.lt_of_lt_of_le hi hb.size
    have hi'' : i < last - (last &&& mask) := Nat.lt_of_lt_of_le hi' hsize
    simp [resize, hi', hi'']

/-- A step keeps what lies before the end of the code, apart from waiting
fields, and lets only fields behind it wait. -/
theorem step_above {n : Nat} {b : CodeBuffer} {s : Step} (hb : Above n b) :
    Yields (b.step s) fun b' => Above n b' ∧ Extends n b b' := by
  cases s with
  | emit e =>
      refine yields_pure ⟨⟨?_, fun f hf => ?_⟩, fun i hi => ?_, fun _ _ hpos => hpos⟩
      · rw [emit_size]
        exact Nat.le_trans hb.size (Nat.le_add_right _ _)
      · rcases mem_emit_fixups hf with hf | ⟨g, -, rfl⟩
        · exact hb.fields f hf
        · exact Nat.le_trans hb.size (Nat.le_add_right _ _)
      · have hi' : i < b.code.size := Nat.lt_of_lt_of_le hi hb.size
        rw [emit, ← Array.getElem?_toList, Array.toList_appendList,
          List.getElem?_append_left (by simpa using hi'), Array.getElem?_toList]
  | newLabel =>
      refine yields_pure ⟨⟨hb.size, hb.fields⟩, fun _ _ => rfl, fun label target hpos => ?_⟩
      have hlt : label < b.labels.size := by
        refine Nat.lt_of_not_le fun hout => ?_
        rw [position?, Array.getElem?_eq_none hout] at hpos
        cases hpos
      simpa only [position?, newLabel, Array.getElem?_push_lt hlt,
        Array.getElem?_eq_getElem hlt] using hpos
  | bind label => exact bind_above hb
  | align alignment fill => exact align_above hb
  | resolve =>
      intro b' h
      cases hresolve : b.resolve with
      | error v => simp [step, hresolve, Except.map] at h
      | ok answer =>
          simp only [step, hresolve, Except.map, Except.ok.injEq] at h
          exact h ▸ resolve_above hb hresolve

theorem steps_above {n : Nat} (ss : List Step) :
    ∀ {b : CodeBuffer}, Above n b → Yields (b.steps ss) fun b' => Above n b' ∧ Extends n b b' := by
  induction ss with
  | nil => exact fun hb => yields_pure ⟨hb, fun _ _ => rfl, fun _ _ hpos => hpos⟩
  | cons s ss ih =>
      intro b hb
      refine yields_bind fun b₁ hstep => fun b' hsteps => ?_
      obtain ⟨hb₁, hfirst⟩ := step_above hb b₁ hstep
      obtain ⟨hb', hrest⟩ := ih hb₁ b' hsteps
      exact ⟨hb', hfirst.trans hrest⟩

-- ========================================================= what is lost

/-- A word that is read is read from code that has the same bytes there. -/
theorem wordAt_of_bytes {code code' : Array UInt8} {at_ w : Nat}
    (hbytes : ∀ k < 4, code'[at_ + k]? = code[at_ + k]?) (h : wordAt code at_ = .ok w) :
    wordAt code' at_ = .ok w := by
  suffices key : ∀ n i w, (∀ k < n, code'[i + k]? = code[i + k]?) →
      wordAt.read code n i = .ok w → wordAt.read code' n i = .ok w from key 4 at_ w hbytes h
  intro n
  induction n with
  | zero => exact fun i w _ h => h
  | succ n ih =>
      intro i w hsame h
      have hhead : code'[i]? = code[i]? := hsame 0 (by omega)
      rw [wordAt.read] at h
      rw [wordAt.read, hhead]
      split at h
      · cases h
      · next byte hbyte =>
        cases hread : wordAt.read code n (i + 1) with
        | error v =>
            rw [hread] at h
            cases h
        | ok v =>
            have htail := ih (i + 1) v (fun k hk => by
              rw [show i + 1 + k = i + (k + 1) by omega]
              exact hsame (k + 1) (by omega)) hread
            rw [htail]
            rw [hread] at h
            exact h

/-- Where a field leads depends on its own bytes. -/
theorem Leads.congr {labels : Array (Option Nat)} {code code' : Array UInt8} {f : Fixup} {n : Nat}
    (h : Leads labels code f) (hf : f.at_ + 4 ≤ n) (hbytes : ∀ i < n, code'[i]? = code[i]?) :
    Leads labels code' f := by
  obtain ⟨target, w, hpos, hw, htarget⟩ := h
  exact ⟨target, w, hpos, wordAt_of_bytes (fun k hk => hbytes _ (by omega)) hw, htarget⟩

/-- A field that an attempt patched leads to its label from then on. -/
theorem AllPatched.leads {b b₁ b₃ : CodeBuffer} {fs : List Fixup} {n : Nat} {f : Fixup}
    (h : AllPatched b fs b.code b₁.code) (hf : f ∈ fs) (hin : f.at_ + 4 ≤ n)
    (hlabels : b₁.labels = b.labels) (hext : Extends n b₁ b₃) : Leads b₃.labels b₃.code f := by
  obtain ⟨target, hpos, _, w, -, hw, htarget, -⟩ := h.fields f hf
  have hpos₁ : b₁.position? f.label = some target := by rwa [position?, hlabels]
  have hleads : Leads b₃.labels b₁.code f := ⟨target, w, hext.position _ _ hpos₁, hw, htarget⟩
  exact hleads.congr hin hext.bytes

/-- An attempt to patch forgets. Whatever it answers, no field waits any
more, so one that fails never leaves the buffer as it was. From then on the
code there was stays as the attempt left it, whatever is emitted, bound or
attempted; a later attempt, and with it finalizing, can succeed all the
same. All branches of before go to their labels then exactly if those that
the first attempt missed are led there by the bytes it left them with; it
missed none exactly if it succeeded. -/
theorem resolve_forgets {b b₁ : CodeBuffer} {failure : Option FixupError}
    (h : b.resolve = .ok (failure, b₁)) :
    b₁.labels = b.labels ∧ b₁.size = b.size ∧ b₁.fixups = #[]
      ∧ (failure ≠ none → b₁.fixups ≠ b.fixups)
      ∧ (b.Patchable → AllPatched b b.reached b.code b₁.code ∧ (failure = none ↔ b.missed = []))
      ∧ ∀ ss b₂ b₃, b₁.steps ss = .ok b₂ → b₂.resolve = .ok (none, b₃) →
        (∀ i < b.size, b₃.code[i]? = b₁.code[i]?)
          ∧ (∀ a : Assembler, a.buffer = b₂ → a.finalized = false →
            a.finalize = .ok { a with buffer := b₃, finalized := true })
          ∧ (b.Patchable → ((∀ f ∈ b.fixups.toList, Leads b₃.labels b₃.code f)
            ↔ ∀ f ∈ b.missed, Leads b₃.labels b₁.code f)) := by
  obtain ⟨hall, hlabels, hfixups, hwaited⟩ := resolve_eq_ok h
  have hsize : b₁.size = b.size := (patchAll_above (n := 0) _ (fun _ _ => Nat.zero_le _) hall).1
  refine ⟨hlabels, hsize, hfixups, fun hfailure heq => hwaited hfailure (heq ▸ hfixups),
    fun hb => resolve_reached hb h, fun ss b₂ b₃ hsteps hsuccess => ?_⟩
  have habove : Above b.size b₁ := ⟨Nat.le_of_eq hsize.symm, fun f hf => by simp [hfixups] at hf⟩
  obtain ⟨hb₂, hext⟩ := steps_above ss habove b₂ hsteps
  have hext₃ := hext.trans (resolve_above hb₂ hsuccess).2
  refine ⟨hext₃.bytes, fun a hbuffer hopen => ?_,
    fun hb => ⟨fun hleads f hf => ?_, fun hmissed f hf => ?_⟩⟩
  · subst hbuffer
    simp only [Assembler.finalize, hopen, hsuccess]
    rfl
  · have hmem : f ∈ b.fixups.toList := by
      rw [← reached_append_missed]
      exact List.mem_append_right _ hf
    exact (hleads f hmem).congr (hb.inside f hmem) fun i hi => (hext₃.bytes i hi).symm
  · have hin := hb.inside f hf
    rw [← reached_append_missed] at hf
    rcases List.mem_append.mp hf with hf | hf
    · exact (resolve_reached hb h).1.leads hf hin hlabels hext₃
    · exact (hmissed f hf).congr hin hext₃.bytes

/-- Two branches, of which only the first has a label that is bound. -/
def halfBound : CodeBuffer where
  code := #[0xE9, 0, 0, 0, 0, 0xE9, 0, 0, 0, 0]
  labels := #[some 0, none]
  fixups := #[⟨1, 0, .rel32⟩, ⟨6, 1, .rel32⟩]

/-- What an attempt makes of it: the first branch goes to its label. -/
def halfPatched : CodeBuffer where
  code := #[0xE9, 0xFB, 0xFF, 0xFF, 0xFF, 0xE9, 0, 0, 0, 0]
  labels := #[some 0, none]

/-- The other label bound, behind one more instruction. -/
def allBound : CodeBuffer where
  code := #[0xE9, 0xFB, 0xFF, 0xFF, 0xFF, 0xE9, 0, 0, 0, 0, 0x90]
  labels := #[some 0, some 11]

/-- The second branch was missed, so all rests on the bytes it was left
with. -/
theorem resolve_forgets_halfBound :
    halfBound.resolve = .ok (some (.unbound 1), halfPatched) ∧ halfBound.Patchable
      ∧ halfPatched.steps [.emit ⟨[0x90], none⟩, .bind 1] = .ok allBound
      ∧ allBound.resolve = .ok (none, allBound)
      ∧ ((∀ f ∈ halfBound.fixups.toList, Leads allBound.labels allBound.code f)
        ↔ ∀ f ∈ halfBound.missed, Leads allBound.labels halfPatched.code f) := by
  have hfails : halfBound.resolve = .ok (some (.unbound 1), halfPatched) := rfl
  have hsteps : halfPatched.steps [.emit ⟨[0x90], none⟩, .bind 1] = .ok allBound := rfl
  have hsucceeds : allBound.resolve = .ok (none, allBound) := rfl
  have hpatchable : halfBound.Patchable := by
    refine ⟨by decide, by decide, fun f hf target _ hkind => absurd ?_ hkind⟩
    have hcases : f = ⟨1, 0, .rel32⟩ ∨ f = ⟨6, 1, .rel32⟩ := by simpa [halfBound] using hf
    rcases hcases with rfl | rfl
    · rfl
    · rfl
  obtain ⟨-, -, -, -, -, hlater⟩ := resolve_forgets hfails
  exact ⟨hfails, hpatchable, hsteps, hsucceeds, (hlater _ _ _ hsteps hsucceeds).2.2 hpatchable⟩

/-- A failed attempt does not leave the buffer as it was, and a later one
succeeds although the second branch goes one byte short of its label. -/
theorem not_kept_by_failure :
    halfBound.resolve = .ok (some (.unbound 1), halfPatched)
      ∧ halfPatched.code ≠ halfBound.code ∧ halfPatched.fixups ≠ halfBound.fixups
      ∧ halfPatched.steps [.emit ⟨[0x90], none⟩, .bind 1] = .ok allBound
      ∧ allBound.resolve = .ok (none, allBound)
      ∧ ⟨6, 1, .rel32⟩ ∈ halfBound.fixups.toList
      ∧ ¬Leads allBound.labels allBound.code ⟨6, 1, .rel32⟩ := by
  refine ⟨rfl, by decide, by decide, rfl, rfl, by decide, ?_⟩
  rintro ⟨target, w, hpos, hw, htarget⟩
  have hbound : allBound.position? 1 = some 11 := rfl
  have hword : wordAt allBound.code 6 = .ok 0 := rfl
  obtain rfl : 11 = target := Option.some.inj (hbound.symm.trans hpos)
  obtain rfl : 0 = w := Except.ok.inj (hword.symm.trans hw)
  exact absurd htarget (by decide)

end CodeBuffer

end Crossing
