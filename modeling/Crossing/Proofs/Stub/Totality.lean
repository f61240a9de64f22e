import Crossing.Proofs.Stub.Assembly
import Crossing.Proofs.Stub.Signature

/-
Which methods get a stub. Signature and kind can rule one out on either
instruction set. On x86-64 nothing else can, for a signature of fewer than
2^24 characters: every slot is within the reach of a 32-bit displacement
and all code within that of a branch (`compile_x86_64`). On ARM64 the
address of a reference's home must fit twelve bits, and with many arguments
it does not; for up to 255 of them that is the only obstacle
(`compile_arm64`).
-/
namespace Crossing.Stub

open Glue Convention

-- ============================================================ both targets

/-- A written signature has one letter for each argument, and one for the
result instead of the receiver. -/
theorem arguments_length {s : Shorty} {cs : List Char} (h : s.written = cs) (isStatic : Bool) :
    (s.arguments isStatic).length ≤ cs.length := by
  subst h
  cases isStatic <;> simp [Shorty.arguments, Shorty.written]

/-- A method without fault is laid out, and its stub is the assembled
plan. -/
theorem compile_made {shorty : String} {options : StubOptions}
    (hfault : fault? shorty.toList options = none) (hshort : shorty.length < 2 ^ 58) {isa : Isa}
    {features : Features} {abi : Convention} {t : Target} (habi : Convention.ofIsa? isa = some abi)
    (htarget : Target.ofIsa isa features = .ok t) :
    ∃ p : Plan, p.abi = abi ∧ p.options = options ∧ p.signature.written = shorty.toList
      ∧ (∃ cores fps hid r₀ r₁, p.Made cores fps hid r₀ r₁)
      ∧ p.native.outArgsSize = roundUp (8 * stackCount abi.nativeCore.length abi.nativeFp.length
        (nativeLetters shorty.toList options)) 16
      ∧ compile isa features shorty options = ((assemble t p).mapError .refused).map fun code =>
        { isa, shorty, kind := options.kind, isStatic := options.isStatic
          frameSize := abi.frameSize, outArgsSize := p.native.outArgsSize, code } := by
  rcases compile_cases shorty options with ⟨e, hsome, -⟩ | ⟨s, -, hwritten, hcompile⟩
  · rw [hfault] at hsome
    cases hsome
  · have hlength : s.params.length < 2 ^ 58 := by
      have := arguments_length hwritten true
      rw [String.length_toList] at this
      exact Nat.lt_of_le_of_lt this hshort
    obtain ⟨p, hp⟩ := Plan.make_ok habi s options hlength
    have hnative := (Plan.laidOut_of_make p hp).native
    obtain ⟨rfl, rfl, rfl, hmade⟩ := Plan.made_of_make habi hp
    refine ⟨p, rfl, rfl, hwritten, hmade, ?_, ?_⟩
    · rw [outArgsSize_eq _ _ _ p.native hnative, hwritten]
    · rw [hcompile habi htarget, hp]
      simp only [Except.mapError, bind, Except.bind]
      cases assemble t p with
      | error v => rfl
      | ok code => rfl

-- ================================================================ x86-64

/-- A short signature asks nothing of x86-64 that it cannot do. -/
theorem fits_x86_64 {p : Plan} {cores fps : List Nat} {hid : Nat} {r₀ r₁ : Register}
    (h : p.Made cores fps hid r₀ r₁) (habi : p.abi = x86_64)
    (haligned : 16 ∣ p.native.outArgsSize) (hshort : p.seats.length < 2 ^ 24) :
    p.Fits .x86_64 := by
  have hsmall := h.native.small
  have hheld : p.held ≤ 13 := by
    have := h.held_le
    rw [habi] at this
    exact this
  have hframe : p.abi.frameSize = 112 := by rw [habi]; rfl
  have hspan : p.area + 8 * p.seats.length < 2 ^ 31 := by
    rw [Plan.area, hframe]
    omega
  refine ⟨hspan, Nat.mod_eq_zero_of_dvd haligned, fun s hs _ => ?_, ?_⟩
  · obtain ⟨i, hi⟩ := List.getElem?_of_mem hs
    obtain ⟨hlt, -⟩ := List.getElem?_eq_some_iff.mp hi
    obtain ⟨hindex, -⟩ := seats_getElem? _ _ _ _ _ i s hi
    show p.area + 8 * (s.index + 1) < 2 ^ 31
    omega
  · show _ < 2 ^ 31
    omega

/-- On x86-64 a method gets a stub exactly when its signature and kind allow
it, and is refused for the first fault they have; assembly itself refuses
nothing. A stub's frame takes 112 bytes, and its outgoing area is the least
multiple of 16 that holds eight bytes for each argument that native code
finds on the stack. -/
theorem compile_x86_64 (shorty : String) (hshort : shorty.length < 2 ^ 24) (options : StubOptions)
    (features : Features) :
    (∀ v, compile .x86_64 features shorty options ≠ .error (.refused v))
      ∧ ((∃ stub, compile .x86_64 features shorty options = .ok stub)
        ↔ Accepted shorty.toList options)
      ∧ (∀ e, compile .x86_64 features shorty options = .error e
        ↔ fault? shorty.toList options = some e)
      ∧ ∀ stub, compile .x86_64 features shorty options = .ok stub →
        let slots := stackCount 6 8 (nativeLetters shorty.toList options)
        stub.frameSize = 112 ∧ 16 ∣ stub.outArgsSize ∧ 8 * slots ≤ stub.outArgsSize
          ∧ ∀ size, 16 ∣ size → 8 * slots ≤ size → stub.outArgsSize ≤ size := by
  rcases compile_cases shorty options with ⟨e, hfault, herror⟩ | ⟨-, hfault, -⟩
  · rw [herror .x86_64 features]
    refine ⟨fun v heq => ?_, ⟨fun ⟨stub, heq⟩ => (by cases heq), fun haccepted => ?_⟩, fun e' => ?_,
      fun stub heq => by cases heq⟩
    · injection heq with heq
      exact fault?_ne_refused _ _ v (heq ▸ hfault)
    · rw [fault?_eq_none.mpr haccepted] at hfault
      cases hfault
    · rw [hfault, Except.error.injEq, Option.some.injEq]
  · obtain ⟨p, habi, rfl, hwritten, ⟨cores, fps, hid, r₀, r₁, hmade⟩, hout, hcompile⟩ :=
      compile_made hfault (Nat.lt_trans hshort (by decide))
        (show Convention.ofIsa? .x86_64 = some x86_64 from rfl)
        (show Target.ofIsa .x86_64 features = .ok .x86_64 from rfl)
    have hround := roundUp_least (8 * stackCount 6 8 (nativeLetters shorty.toList p.options))
      (show 0 < 16 by decide)
    have hlength : p.seats.length < 2 ^ 24 := by
      have := arguments_length hwritten p.options.isStatic
      rw [String.length_toList] at this
      rw [Plan.seats, seats_length]
      omega
    have hfits := fits_x86_64 hmade habi (hout ▸ hround.1) hlength
    obtain ⟨code, hcode⟩ := hmade.assemble_ok (habi ▸ suits_x86_64) hfits
    rw [hcode] at hcompile
    rw [hcompile, hfault]
    refine ⟨fun v heq => (by cases heq), ⟨fun _ => fault?_eq_none.mp hfault, fun _ => ⟨_, rfl⟩⟩,
      fun e => ⟨fun heq => (by cases heq), fun heq => (by cases heq)⟩, fun stub heq => ?_⟩
    injection heq with heq
    subst heq
    refine ⟨rfl, ?_⟩
    show 16 ∣ p.native.outArgsSize ∧ _
    rw [hout]
    exact hround

/-- A static method with a parameter of every kind. -/
theorem compile_x86_64_mixed : ∃ stub, compile .x86_64 {} "LIJFDL" { isStatic := true } = .ok stub
    ∧ stub.frameSize = 112 := by
  obtain ⟨-, hok, -, hsizes⟩ := compile_x86_64 "LIJFDL" (by decide) { isStatic := true } {}
  have haccepted : Accepted "LIJFDL".toList { isStatic := true } :=
    ⟨⟨'L', ['I', 'J', 'F', 'D', 'L'], rfl, by decide, by simp [ValueType.letters]⟩,
      fun h => by cases h⟩
  obtain ⟨stub, hstub⟩ := hok.mpr haccepted
  exact ⟨stub, hstub, (hsizes stub hstub).1⟩

-- ================================================================= ARM64

/-- The homes of references, seen in the letters. -/
theorem Plan.homes_iff {p : Plan} {cs : List Char} (hwritten : p.signature.written = cs)
    (limit : Nat) :
    (∀ s ∈ p.seats, s.type = .reference → (s.home p.area).value < limit)
      ↔ ∀ i, (managedLetters cs p.options.isStatic)[i]? = some 'L' →
        p.area + 8 * (i + 1) < limit := by
  subst hwritten
  simp only [managedLetters_eq, List.getElem?_map]
  constructor
  · intro h i hi
    obtain ⟨type, htype, hletter⟩ := Option.map_eq_some_iff.mp hi
    obtain rfl : type = .reference := ValueType.letter_injective hletter
    obtain ⟨hlt, -⟩ := List.getElem?_eq_some_iff.mp htype
    have hlength : i < p.seats.length := by
      rw [Plan.seats, seats_length]
      exact hlt
    obtain ⟨s, hs⟩ : ∃ s, p.seats[i]? = some s := ⟨_, List.getElem?_eq_getElem hlength⟩
    obtain ⟨hindex, htype'⟩ := seats_getElem? _ _ _ _ _ i s hs
    rw [htype] at htype'
    injection htype' with href
    have := h s (List.mem_of_getElem? hs) href.symm
    rw [Seat.home, hindex, Nat.zero_add] at this
    exact this
  · intro h s hs href
    obtain ⟨i, hi⟩ := List.getElem?_of_mem hs
    obtain ⟨hindex, htype⟩ := seats_getElem? _ _ _ _ _ i s hi
    have := h i (by rw [htype, href]; rfl)
    rw [Nat.zero_add] at hindex
    rw [Seat.home, hindex]
    exact this

/-- What the largest signatures may ask of ARM64 is within its means, apart
from the addresses of homes. -/
theorem fits_arm64 {p : Plan} {cores fps : List Nat} {hid : Nat} {r₀ r₁ : Register}
    (h : p.Made cores fps hid r₀ r₁) (habi : p.abi = arm64) (haligned : 16 ∣ p.native.outArgsSize)
    (hcount : p.seats.length ≤ 255)
    (haddress : ∀ s ∈ p.seats, s.type = .reference → (s.home p.area).value < 4096) (lse : Bool) :
    p.Fits (.arm64 lse) := by
  have hsmall := h.native.small
  have hheld : p.held ≤ 15 := by
    have := h.held_le
    rw [habi] at this
    exact this
  have hframe : p.abi.frameSize = 176 := by rw [habi]; rfl
  refine ⟨?_, ⟨Nat.mod_eq_zero_of_dvd haligned, by omega⟩, haddress, ?_⟩
  · show _ < 2 ^ 14
    rw [Plan.area, hframe]
    omega
  · show _ < 2 ^ 20
    omega

/-- The homes of all references are below 4096, where one instruction can
compute their addresses. -/
def HomesInReach (cs : List Char) (options : StubOptions) : Prop :=
  ∀ i, (managedLetters cs options.isStatic)[i]? = some 'L' →
    176 + roundUp (8 * stackCount 8 8 (nativeLetters cs options)) 16 + 8 * (i + 1) < 4096

/-- What becomes of a method without fault on ARM64, if it has 255
arguments at most. -/
theorem compile_arm64_cases {shorty : String} {options : StubOptions}
    (hfault : fault? shorty.toList options = none)
    (hcount : (managedLetters shorty.toList options.isStatic).length ≤ 255) (features : Features) :
    HomesInReach shorty.toList options ∧ (∃ stub, compile .arm64 features shorty options = .ok stub)
      ∨ ¬HomesInReach shorty.toList options
        ∧ ∃ v, compile .arm64 features shorty options = .error (.refused v) := by
  have hshort : shorty.length < 2 ^ 58 := by
    rw [managedLetters] at hcount
    rw [← String.length_toList]
    split at hcount
    · rw [List.length_tail] at hcount
      omega
    · rw [List.length_cons, List.length_tail] at hcount
      omega
  obtain ⟨p, habi, rfl, hwritten, ⟨cores, fps, hid, r₀, r₁, hmade⟩, hout, hcompile⟩ :=
    compile_made hfault hshort (show Convention.ofIsa? .arm64 = some arm64 from rfl)
      (show Target.ofIsa .arm64 features = .ok (.arm64 features.lseAtomics) from rfl)
  have hseats : p.seats.length ≤ 255 := by
    rw [← hwritten, managedLetters_eq, List.length_map] at hcount
    rw [Plan.seats, seats_length]
    exact hcount
  have hhomes : (∀ s ∈ p.seats, s.type = .reference → (s.home p.area).value < 4096)
      ↔ HomesInReach shorty.toList p.options := by
    have harea : p.area
        = 176 + roundUp (8 * stackCount 8 8 (nativeLetters shorty.toList p.options)) 16 := by
      rw [Plan.area, habi, hout, Nat.add_comm]
      rfl
    rw [Plan.homes_iff hwritten, harea, HomesInReach]
  have haligned : 16 ∣ p.native.outArgsSize := by
    rw [hout]
    exact (roundUp_least _ (by decide)).1
  by_cases hreach : HomesInReach shorty.toList p.options
  · have hfits := fits_arm64 hmade habi haligned hseats (hhomes.mpr hreach) features.lseAtomics
    obtain ⟨code, hcode⟩ := hmade.assemble_ok (habi ▸ suits_arm64 features.lseAtomics) hfits
    rw [hcompile, hcode]
    exact .inl ⟨hreach, _, rfl⟩
  · -- the critical kind has no references
    have hkind : p.options.kind ≠ .critical := by
      intro hcritical
      obtain ⟨hstatic, hrefs⟩ := (fault?_eq_none.mp hfault).critical hcritical
      refine hreach fun i hi => absurd ?_ hrefs
      rw [managedLetters, if_pos hstatic] at hi
      exact List.mem_of_mem_tail (List.mem_of_getElem? hi)
    refine .inr ⟨hreach, ?_⟩
    rw [hcompile]
    cases hcode : assemble (.arm64 features.lseAtomics) p with
    | error v => exact ⟨v, rfl⟩
    | ok code =>
        refine absurd (hhomes.mp fun s hs href => ?_) hreach
        exact hmade.addressed hkind hs href code hcode

/-- On ARM64, of the methods that have 255 arguments at most and no fault,
those get a stub whose references have their homes below 4096; the others
are refused by the assembler. -/
theorem compile_arm64 (shorty : String) (options : StubOptions) (features : Features)
    (haccepted : Accepted shorty.toList options)
    (hcount : (managedLetters shorty.toList options.isStatic).length ≤ 255) :
    ((∃ stub, compile .arm64 features shorty options = .ok stub)
        ↔ HomesInReach shorty.toList options)
      ∧ ((∃ v, compile .arm64 features shorty options = .error (.refused v))
        ↔ ¬HomesInReach shorty.toList options) := by
  rcases compile_arm64_cases (fault?_eq_none.mpr haccepted) hcount features
    with ⟨hreach, stub, hok⟩ | ⟨hreach, v, herror⟩
  · rw [hok]
    exact ⟨⟨fun _ => hreach, fun _ => ⟨stub, rfl⟩⟩, fun ⟨v, heq⟩ => (by cases heq),
      fun hnot => absurd hreach hnot⟩
  · rw [herror]
    exact ⟨⟨fun ⟨stub, heq⟩ => (by cases heq), fun h => absurd h hreach⟩, fun _ => hreach,
      fun _ => ⟨v, rfl⟩⟩

/-- A static method that takes one reference gets its stub. -/
theorem compile_arm64_reference :
    ∃ stub, compile .arm64 {} "VL" { isStatic := true } = .ok stub := by
  have haccepted : Accepted "VL".toList { isStatic := true } :=
    ⟨⟨'V', ['L'], rfl, by decide, by simp [ValueType.letters]⟩, fun h => by cases h⟩
  refine (compile_arm64 "VL" { isStatic := true } {} haccepted (by decide)).1.mpr fun i hi => ?_
  obtain ⟨hlt, -⟩ := List.getElem?_eq_some_iff.mp hi
  have hone : i < 1 := hlt
  show 176 + 0 + 8 * (i + 1) < 4096
  omega

/-- The letters of a static method that takes `n` integers and then a
reference. -/
def integersThenReference (n : Nat) : List Char := 'V' :: (List.replicate n 'I' ++ ['L'])

theorem integersThenReference_length (n : Nat) :
    (managedLetters (integersThenReference n) true).length = n + 1 := by
  simp [managedLetters, integersThenReference]

theorem integersThenReference_slots (n : Nat) :
    stackCount 8 8 (nativeLetters (integersThenReference n) { isStatic := true }) = n - 5 := by
  simp [nativeLetters, managedLetters, integersThenReference, stackCount, List.countP_replicate]

/-- From 247 integers on, the home of the reference is too far away. -/
theorem integersThenReference_far {n : Nat} (h : 247 ≤ n) :
    ¬HomesInReach (integersThenReference n) { isStatic := true } := by
  intro hreach
  have hhome := hreach n (by simp [managedLetters, integersThenReference])
  rw [integersThenReference_slots] at hhome
  have := (roundUp_bounds (8 * (n - 5)) (show 0 < 16 by decide)).1
  omega

theorem integersThenReference_accepted (n : Nat) :
    Accepted (integersThenReference n) { isStatic := true } := by
  refine ⟨⟨_, _, rfl, by decide, fun c hc => ?_⟩, fun h => by cases h⟩
  rcases List.mem_append.mp hc with hc | hc
  · rw [(List.mem_replicate.mp hc).2]
    decide
  · rw [List.mem_singleton.mp hc]
    decide

/-- A static method with 247 integers before a reference has 248 arguments
and no stub: the home of the reference is at 4096. -/
theorem not_every_stub_arm64 : ¬∀ (shorty : String) (options : StubOptions) (features : Features),
    Accepted shorty.toList options →
    (managedLetters shorty.toList options.isStatic).length ≤ 255 →
    ∃ stub, compile .arm64 features shorty options = .ok stub := by
  intro hall
  have haccepted := integersThenReference_accepted 247
  have hfar := integersThenReference_far (Nat.le_refl 247)
  have hcount : (managedLetters (integersThenReference 247) true).length ≤ 255 := by
    rw [integersThenReference_length]
    decide
  rw [← String.toList_ofList (l := integersThenReference 247)] at haccepted hcount hfar
  obtain ⟨stub, hstub⟩ := hall _ _ {} haccepted hcount
  rcases compile_arm64_cases (fault?_eq_none.mpr haccepted) hcount {}
    with ⟨hreach, -⟩ | ⟨-, v, herror⟩
  · exact hfar hreach
  · rw [herror] at hstub
    cases hstub

end Crossing.Stub
