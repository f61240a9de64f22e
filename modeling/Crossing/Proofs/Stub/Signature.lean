import Mathlib
import Crossing.Proofs.Argument.Marshalling

/-
What a stub's signature says, letter by letter. A text is a signature
written down, which is read back, or it is refused for its first fault
(`ofChars_cases`). With the restrictions of the critical kind added, the
same is true of a whole stub (`compile_cases`). The size of its outgoing
area is counted from the letters (`outArgsSize_eq`).
-/
namespace Crossing

-- ============================================================== letters

namespace ValueType

/-- The letters of parameters. -/
def letters : List Char := ['Z', 'B', 'C', 'S', 'I', 'J', 'F', 'D', 'L']

theorem ofLetter?_letter (t : ValueType) : ofLetter? t.letter = some t := by
  cases t <;> rfl

theorem letter_of_ofLetter? {c : Char} {t : ValueType} (h : ofLetter? c = some t) :
    t.letter = c := by
  unfold ofLetter? at h
  split at h <;> cases h <;> rfl

theorem letter_mem (t : ValueType) : t.letter ∈ letters := by
  cases t <;> decide

theorem letter_ne_void (t : ValueType) : t.letter ≠ 'V' := by
  cases t <;> decide

theorem letter_injective {t t' : ValueType} (h : t.letter = t'.letter) : t = t' := by
  have ht := ofLetter?_letter t
  rw [h, ofLetter?_letter] at ht
  injection ht with ht
  exact ht.symm

/-- Every letter is that of a type. -/
theorem exists_letter {c : Char} (h : c ∈ letters) : ∃ t : ValueType, t.letter = c := by
  simp only [letters, List.mem_cons, List.not_mem_nil, or_false] at h
  rcases h with rfl | rfl | rfl | rfl | rfl | rfl | rfl | rfl | rfl
  · exact ⟨.boolean, rfl⟩
  · exact ⟨.byte, rfl⟩
  · exact ⟨.char, rfl⟩
  · exact ⟨.short, rfl⟩
  · exact ⟨.int, rfl⟩
  · exact ⟨.long, rfl⟩
  · exact ⟨.float, rfl⟩
  · exact ⟨.double, rfl⟩
  · exact ⟨.reference, rfl⟩

theorem ofLetter?_eq_none {c : Char} (h : c ∉ letters) : ofLetter? c = none := by
  cases hc : ofLetter? c with
  | none => rfl
  | some t => exact absurd (letter_of_ofLetter? hc ▸ letter_mem t) h

end ValueType

namespace Shorty

open ValueType

/-- A signature written down. -/
def written (s : Shorty) : List Char :=
  (match s.result with
    | some t => t.letter
    | none => 'V') :: s.params.map letter

/-- What is wrong with a parameter. -/
def paramFault (c : Char) : ShortyError := if c = 'V' then .voidParameter else .invalidChar c

/-- What is wrong with a text, at the first place where something is. -/
def fault? : List Char → Option ShortyError
  | [] => some .empty
  | c :: cs =>
      if c ∈ 'V' :: letters then (cs.find? (· ∉ letters)).map paramFault
      else some (.invalidChar c)

theorem param_letter (t : ValueType) : param t.letter = .ok t := by
  rw [param, if_neg t.letter_ne_void, ofLetter?_letter]

theorem param_fault {c : Char} (h : c ∉ letters) : param c = .error (paramFault c) := by
  unfold param paramFault
  split
  · rfl
  · rw [ofLetter?_eq_none h]

/-- Parameters are read until the first fault. -/
theorem mapM_param (cs : List Char) :
    (∃ c, cs.find? (· ∉ letters) = some c ∧ cs.mapM param = .error (paramFault c))
      ∨ ∃ ts : List ValueType, cs = ts.map letter ∧ cs.mapM param = .ok ts := by
  induction cs with
  | nil => exact .inr ⟨[], rfl, rfl⟩
  | cons c cs ih =>
      rw [List.mapM_cons]
      by_cases hc : c ∈ letters
      · obtain ⟨t, rfl⟩ := exists_letter hc
        rw [List.find?_cons_of_neg (by simpa using hc), param_letter]
        rcases ih with ⟨c', hfind, hmap⟩ | ⟨ts, rfl, hmap⟩
        · exact .inl ⟨c', hfind, by rw [hmap]; rfl⟩
        · exact .inr ⟨t :: ts, rfl, by rw [hmap]; rfl⟩
      · refine .inl ⟨c, List.find?_cons_of_pos (by simpa using hc), ?_⟩
        rw [param_fault hc]
        rfl

/-- A text has a fault, for which it is refused, or it is a signature
written down, which is read back. -/
theorem ofChars_cases (cs : List Char) :
    (∃ e, fault? cs = some e ∧ ofChars cs = .error e)
      ∨ ∃ s : Shorty, fault? cs = none ∧ s.written = cs ∧ ofChars cs = .ok s := by
  cases cs with
  | nil => exact .inl ⟨.empty, rfl, rfl⟩
  | cons c cs =>
      by_cases hc : c ∈ 'V' :: letters
      · obtain ⟨result, hwritten, hresult⟩ : ∃ result : Option ValueType,
            (match result with
              | some t => t.letter
              | none => 'V') = c ∧ resultType c = .ok result := by
          rcases List.mem_cons.mp hc with rfl | hc
          · exact ⟨none, rfl, rfl⟩
          · obtain ⟨t, rfl⟩ := exists_letter hc
            exact ⟨some t, rfl, by rw [resultType, if_neg t.letter_ne_void, ofLetter?_letter]⟩
        rcases mapM_param cs with ⟨c', hfind, hmap⟩ | ⟨ts, rfl, hmap⟩
        · refine .inl ⟨paramFault c', ?_, ?_⟩
          · rw [fault?, if_pos hc, hfind]
            rfl
          · rw [ofChars, hresult, hmap]
            rfl
        · refine .inr ⟨⟨result, ts⟩, ?_, ?_, ?_⟩
          · rw [fault?, if_pos hc, Option.map_eq_none_iff, List.find?_eq_none]
            intro x hx
            obtain ⟨t, -, rfl⟩ := List.mem_map.mp hx
            simpa using t.letter_mem
          · rw [written, hwritten]
          · rw [ofChars, hresult, hmap]
            rfl
      · refine .inl ⟨.invalidChar c, if_neg hc, ?_⟩
        rw [List.mem_cons, not_or] at hc
        rw [ofChars, resultType, if_neg hc.1, ofLetter?_eq_none hc.2]
        rfl

/-- Texts without a fault: a letter for the result and one for each
parameter. -/
theorem fault?_eq_none {cs : List Char} :
    fault? cs = none ↔ ∃ result params, cs = result :: params ∧ result ∈ 'V' :: letters
      ∧ ∀ c ∈ params, c ∈ letters := by
  constructor
  · intro h
    rcases ofChars_cases cs with ⟨e, hfault, -⟩ | ⟨s, -, rfl, -⟩
    · rw [h] at hfault
      cases hfault
    · refine ⟨_, _, rfl, ?_, fun c hc => ?_⟩
      · cases s.result with
        | none => exact List.mem_cons_self ..
        | some t => exact List.mem_cons_of_mem _ t.letter_mem
      · obtain ⟨t, -, rfl⟩ := List.mem_map.mp hc
        exact t.letter_mem
  · rintro ⟨result, params, rfl, hresult, hparams⟩
    rw [fault?, if_pos hresult, Option.map_eq_none_iff, List.find?_eq_none]
    intro c hc
    simpa using hparams c hc

/-- A signature has references if one of its letters says so. -/
theorem hasReferences_iff (s : Shorty) : s.hasReferences = true ↔ 'L' ∈ s.written := by
  have hparams : s.params.contains .reference = true ↔ 'L' ∈ s.params.map letter := by
    rw [List.contains_iff_mem, List.mem_map]
    refine ⟨fun h => ⟨.reference, h, rfl⟩, fun ⟨t, ht, heq⟩ => ?_⟩
    have htype : t = .reference := letter_injective heq
    exact htype ▸ ht
  rw [hasReferences, Bool.or_eq_true, hparams, written, List.mem_cons]
  refine or_congr_left ?_
  cases s.result with
  | none => simp
  | some t =>
      rw [beq_iff_eq, Option.some.injEq]
      exact ⟨fun h => h ▸ rfl, fun h => letter_injective h.symm⟩

end Shorty

-- ============================================================== refusals

namespace Stub

open Glue Convention ValueType

/-- Why a method gets no stub, by the first check that fails: those of the
signature, then those of the critical kind. -/
def fault? (cs : List Char) (options : StubOptions) : Option StubError :=
  match Shorty.fault? cs with
  | some e => some (.shorty e)
  | none =>
      if options.kind = .critical ∧ ¬options.isStatic then some .criticalNotStatic
      else if options.kind = .critical ∧ 'L' ∈ cs then some .criticalWithReferences
      else none

/-- The assembler has no part in it. -/
theorem fault?_ne_refused (cs : List Char) (options : StubOptions) (v : Violation) :
    fault? cs options ≠ some (.refused v) := by
  unfold fault?
  intro h
  split at h
  · cases h
  · split at h
    · cases h
    · split at h
      · cases h
      · cases h

/-- The methods that get a stub: the signature is one letter for the result
and one for each parameter, and a method of the critical kind is static and
has no references. -/
structure Accepted (cs : List Char) (options : StubOptions) : Prop where
  signature : ∃ result params, cs = result :: params ∧ result ∈ 'V' :: letters
    ∧ ∀ c ∈ params, c ∈ letters
  critical : options.kind = .critical → options.isStatic = true ∧ 'L' ∉ cs

theorem fault?_eq_none {cs : List Char} {options : StubOptions} :
    fault? cs options = none ↔ Accepted cs options := by
  constructor
  · intro h
    unfold fault? at h
    split at h
    · cases h
    · next hnone =>
        refine ⟨Shorty.fault?_eq_none.mp hnone, fun hcritical => ?_⟩
        split at h
        · cases h
        · next hstatic =>
            split at h
            · cases h
            · next hrefs =>
                refine ⟨?_, fun hmem => hrefs ⟨hcritical, hmem⟩⟩
                simpa [hcritical] using hstatic
  · rintro ⟨hsignature, hcritical⟩
    unfold fault?
    rw [Shorty.fault?_eq_none.mpr hsignature]
    dsimp only
    rw [if_neg fun h => h.2 (hcritical h.1).1, if_neg fun h => (hcritical h.1).2 h.2]

/-- Reading a method's signature and options: either they have a fault and
the stub is refused for it, or the stub is laid out and assembled. -/
theorem compile_cases (shorty : String) (options : StubOptions) :
    (∃ e, fault? shorty.toList options = some e
        ∧ ∀ isa features, compile isa features shorty options = .error e)
      ∨ ∃ s : Shorty, fault? shorty.toList options = none ∧ s.written = shorty.toList
        ∧ ∀ {isa features abi t}, Convention.ofIsa? isa = some abi →
          Target.ofIsa isa features = .ok t → compile isa features shorty options = (do
            let plan ← (Plan.make abi s options).mapError .refused
            let code ← (assemble t plan).mapError .refused
            return { isa, shorty, kind := options.kind, isStatic := options.isStatic
                     frameSize := abi.frameSize, outArgsSize := plan.native.outArgsSize
                     code }) := by
  rcases Shorty.ofChars_cases shorty.toList with ⟨e, hfault, hread⟩ | ⟨s, hfault, hwritten, hread⟩
  · refine .inl ⟨.shorty e, by rw [fault?, hfault], fun isa features => ?_⟩
    rw [compile, Shorty.parse, hread]
    rfl
  · have hrefs : 'L' ∈ shorty.toList ↔ s.hasReferences = true := by
      rw [s.hasReferences_iff, hwritten]
    simp only [fault?, hfault, hrefs, compile, Shorty.parse, hread, Except.mapError, bind,
      Except.bind, pure, Except.pure]
    by_cases hstatic : options.kind = .critical ∧ ¬options.isStatic = true
    · refine .inl ⟨.criticalNotStatic, if_pos hstatic, fun isa features => ?_⟩
      rw [if_pos hstatic]
      rfl
    · by_cases hcritical : options.kind = .critical ∧ s.hasReferences = true
      · refine .inl ⟨.criticalWithReferences, by rw [if_neg hstatic, if_pos hcritical], ?_⟩
        intro isa features
        rw [if_neg hstatic, if_pos hcritical]
        rfl
      · refine .inr ⟨s, by rw [if_neg hstatic, if_neg hcritical], hwritten, ?_⟩
        intro isa features abi t habi htarget
        simp only [if_neg hstatic, if_neg hcritical, htarget, habi]

end Stub

-- ========================================================= outgoing area

namespace Convention

open ValueType

/-- `roundUp` is the least multiple that is not below. -/
theorem roundUp_least (n : Nat) {m : Nat} (hm : 0 < m) :
    m ∣ roundUp n m ∧ n ≤ roundUp n m ∧ ∀ k, m ∣ k → n ≤ k → roundUp n m ≤ k := by
  refine ⟨Nat.dvd_mul_left m _, (roundUp_bounds n hm).1, ?_⟩
  rintro _ ⟨k, rfl⟩ hle
  rw [Nat.mul_comm m k]
  refine Nat.mul_le_mul_right m ?_
  rw [Nat.mul_comm] at hle
  exact Nat.le_of_lt_succ (Nat.div_lt_of_lt_mul (by rw [Nat.mul_succ, Nat.mul_comm]; omega))

/-- What native code is passed in order, the environment and the class of a
static method first. -/
def nativeTypes (s : Shorty) (isStatic : Bool) (kind : NativeKind) : List ValueType :=
  List.replicate (lead isStatic kind) .long ++ s.arguments isStatic

/-- All that native code is passed, in order. -/
def NativeArgs.entries (n : NativeArgs) : List Location :=
  n.env.toList ++ n.class_.toList ++ n.args

/-- A pointer that is passed on a condition is handed out like an argument
before the others. -/
theorem nativeWhen_from (c : Convention) (passed : Bool) (k : Taken) :
    Yields (c.nativeWhen passed k) fun p => ∀ ts, Yields (nativeFrom c p.2 ts) fun q =>
      nativeFrom c k (List.replicate passed.toNat .long ++ ts) = .ok (p.1.toList ++ q.1, q.2) := by
  cases passed with
  | false => exact yields_pure fun ts q hq => hq
  | true =>
      refine yields_bind fun next hnext => yields_pure fun ts q hq => ?_
      show nativeFrom c k (.long :: ts) = _
      simp only [nativeFrom, hnext, hq, bind, Except.bind]
      rfl

/-- Environment and class are handed out like the first arguments. -/
theorem nativeArguments_from (c : Convention) (s : Shorty) (isStatic : Bool) (kind : NativeKind) :
    Yields (c.nativeArguments s isStatic kind) fun n => ∃ k,
      nativeFrom c {} (nativeTypes s isStatic kind) = .ok (n.entries, k)
        ∧ n.outArgsSize = roundUp (slotSize * k.stack) 16 := by
  refine yields_bind fun env henv => yields_bind fun class_ hclass => yields_bind fun args hargs =>
    yields_bind fun hidden _ => yields_pure ⟨args.2, ?_, rfl⟩
  have htypes : nativeTypes s isStatic kind
      = List.replicate (decide ¬kind = .critical).toNat .long
        ++ (List.replicate (decide (isStatic = true ∧ ¬kind = .critical)).toNat .long
          ++ s.arguments isStatic) := by
    cases kind <;> cases isStatic <;> rfl
  have hclass := nativeWhen_from c _ _ class_ hclass _ args hargs
  rw [htypes, nativeWhen_from c _ _ env henv _ _ hclass, NativeArgs.entries, List.append_assoc]

/-- The slots used are those of the arguments after the last register of
their class. -/
theorem nativeFrom_stack (c : Convention) (ts : List ValueType) : ∀ k : Taken,
    Yields (nativeFrom c k ts) fun p => p.2.stack = k.stack
      + ((k.core + ts.countP (!·.isFloating) - c.nativeCore.length)
        - (k.core - c.nativeCore.length))
      + ((k.fp + ts.countP isFloating - c.nativeFp.length) - (k.fp - c.nativeFp.length)) := by
  induction ts with
  | nil =>
      intro k
      exact yields_pure (by simp)
  | cons t ts ih =>
      intro k
      refine yields_bind fun next hnext => yields_bind fun rest hrest => yields_pure ?_
      obtain rfl := nativeNext_eq c (s := ⟨t, 0, k.core, k.fp, k.stack⟩)
        (Nat.add_zero k.core).symm rfl rfl next hnext
      rw [ih _ rest hrest]
      simp only [Seat.after, Seat.nativeReg, Nat.add_zero]
      cases hfloat : t.isFloating with
      | true =>
          simp only [List.countP_cons_of_neg (p := (!·.isFloating)) (a := t) (by simp [hfloat]),
            List.countP_cons_of_pos hfloat, if_true]
          cases hreg : c.nativeFp[k.fp]? with
          | some r =>
              obtain ⟨hlt, -⟩ := List.getElem?_eq_some_iff.mp hreg
              simp only [Option.isSome_some, if_true]
              omega
          | none =>
              have hge := List.getElem?_eq_none_iff.mp hreg
              simp only [Option.isSome_none, Bool.false_eq_true, if_false]
              omega
      | false =>
          simp only [List.countP_cons_of_pos (p := (!·.isFloating)) (a := t) (by simp [hfloat]),
            List.countP_cons_of_neg (p := isFloating) (a := t) (by simp [hfloat]),
            Bool.false_eq_true, if_false]
          cases hreg : c.nativeCore[k.core]? with
          | some r =>
              obtain ⟨hlt, -⟩ := List.getElem?_eq_some_iff.mp hreg
              simp only [Option.isSome_some, if_true]
              omega
          | none =>
              have hge := List.getElem?_eq_none_iff.mp hreg
              simp only [Option.isSome_none, Bool.false_eq_true, if_false]
              omega

end Convention

namespace Stub

open Convention ValueType

/-- The letters of a method's arguments as managed code passes them, the
receiver first. -/
def managedLetters (cs : List Char) (isStatic : Bool) : List Char :=
  if isStatic then cs.tail else 'L' :: cs.tail

/-- The letters of what native code is passed: except for the critical
kind, the environment comes first, then the class of a static method. Both
count as long integers. -/
def nativeLetters (cs : List Char) (options : StubOptions) : List Char :=
  (if options.kind = .critical then [] else if options.isStatic then ['J', 'J'] else ['J'])
    ++ managedLetters cs options.isStatic

/-- How many of these arguments native code finds on the stack: the
integers and pointers after the first `cores`, and the floating-point
numbers after the first `fps`. -/
def stackCount (cores fps : Nat) (cs : List Char) : Nat :=
  (cs.countP (· ∉ ['F', 'D']) - cores) + (cs.countP (· ∈ ['F', 'D']) - fps)

theorem managedLetters_eq (s : Shorty) (isStatic : Bool) :
    managedLetters s.written isStatic = (s.arguments isStatic).map letter := by
  cases isStatic <;> rfl

theorem nativeLetters_eq (s : Shorty) (options : StubOptions) :
    nativeLetters s.written options
      = (nativeTypes s options.isStatic options.kind).map letter := by
  rw [nativeLetters, managedLetters_eq, nativeTypes, lead, List.map_append, List.map_replicate]
  by_cases hcritical : options.kind = .critical
  · rw [if_pos hcritical, if_pos hcritical]
    rfl
  · rw [if_neg hcritical, if_neg hcritical]
    cases options.isStatic <;> rfl

/-- The outgoing area holds eight bytes for each of them, and no more than
alignment asks for. -/
theorem outArgsSize_eq (c : Convention) (s : Shorty) (options : StubOptions) :
    Yields (c.nativeArguments s options.isStatic options.kind) fun n => n.outArgsSize
      = roundUp (8 * stackCount c.nativeCore.length c.nativeFp.length
        (nativeLetters s.written options)) 16 := by
  have hfloat : ∀ ts : List ValueType,
      (ts.map letter).countP (· ∈ ['F', 'D']) = ts.countP isFloating := by
    intro ts
    rw [List.countP_map]
    refine congrArg (fun f => ts.countP f) (funext fun t => ?_)
    cases t <;> rfl
  have hword : ∀ ts : List ValueType,
      (ts.map letter).countP (· ∉ ['F', 'D']) = ts.countP (!·.isFloating) := by
    intro ts
    rw [List.countP_map]
    refine congrArg (fun f => ts.countP f) (funext fun t => ?_)
    cases t <;> rfl
  intro n hn
  obtain ⟨k, hentries, hsize⟩ := nativeArguments_from c s options.isStatic options.kind n hn
  rw [hsize, nativeFrom_stack c _ {} _ hentries, nativeLetters_eq, stackCount, hfloat, hword,
    slotSize]
  simp

end Stub

end Crossing
