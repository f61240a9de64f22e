import Mathlib
import Crossing.Proofs.Argument.Rounds

/-
How many moves planning makes, and which. A transfer takes certain moves
(`steps`): a reference in a register is spilled and turned into a handle
first, and one more move reaches the target. Planning makes no other moves
and none twice. Both are said at once by weighing moves: whatever moves
weigh, a plan weighs no more than the steps of its transfers (`plan_weight`).
The rounds keep that up because a target that is filled is taken out of
those to come.
-/
namespace Crossing

open ArgMove

-- ================================================================ steps

/-- The last move of a transfer, from where preparation has left the
value. -/
def Transfer.last (i : Nat) (a : Transfer) (source : Location) : ArgMove :=
  match a.dest with
  | .stack offset size => toStack offset size source a.slot (i ≠ 0)
  | .register dest size =>
      match source with
      | .register reg _ => .moveToRegister dest reg size
      | .stack offset _ =>
          if a.slot.isReference then .handleToRegister dest a.slot none (i ≠ 0)
          else .loadToRegister dest offset size

/-- The moves that prepare the transfer with number `i`, and the source
they leave it with. -/
def Transfer.prepare (model : RegisterModel) (i : Nat) (a : Transfer) :
    Except Violation (List ArgMove × Location) :=
  match a.source with
  | .register reg _ =>
      if a.slot.isReference then do
        let wide ← model.pointer reg
        return ([.spillReference reg a.slot, .handleToRegister wide a.slot (some reg) (i ≠ 0)],
          .register wide model.pointerSize)
      else .ok ([], a.source)
  | .stack .. => .ok ([], a.source)

/-- The moves that the transfer with number `i` takes. -/
def Transfer.steps (model : RegisterModel) (i : Nat) (a : Transfer) :
    Except Violation (List ArgMove) := do
  let (early, source) ← a.prepare model i
  return early ++ [a.last i source]

namespace ArgMove

-- ============================================================== weights

/-- How many instructions a move takes at most, on either instruction
set. -/
def cost : ArgMove → Nat
  | .handleToStack .. | .handleToRegister .. => 5
  | .copyToStack .. => 2
  | _ => 1

section weights

variable (w : ArgMove → Nat)

/-- What planned moves weigh. -/
def weight (ms : List ArgMove) : Nat := (ms.map w).sum

@[simp] theorem weight_append (ms ms' : List ArgMove) :
    weight w (ms ++ ms') = weight w ms + weight w ms' := by
  simp [weight]

@[simp] theorem weight_cons (m : ArgMove) (ms : List ArgMove) :
    weight w (m :: ms) = w m + weight w ms := rfl

@[simp] theorem weight_nil : weight w [] = 0 := rfl

/-- What planned moves and the moves of all register targets weigh. -/
def Progress.total (p : Progress) : Nat :=
  weight w p.moves.toList + weight w (p.pending.toList.map Pending.move)

/-- What planned moves and those still to come weigh. -/
def Progress.due (p : Progress) : Nat :=
  weight w p.moves.toList
    + (p.pending.toList.map fun t => if t.place ∈ p.writes then w t.move else 0).sum

theorem Progress.due_le_total (p : Progress) : p.due w ≤ p.total w := by
  have hle : ∀ ts : List Pending,
      (ts.map fun t => if t.place ∈ p.writes then w t.move else 0).sum
        ≤ weight w (ts.map Pending.move) := by
    intro ts
    induction ts with
    | nil => exact Nat.le_refl 0
    | cons t ts ih =>
        simp only [List.map_cons, List.sum_cons, weight_cons]
        split
        · omega
        · omega
  exact Nat.add_le_add_left (hle _) _

end weights

-- =============================================================== rounds

/-- Sums over one list, of which one summand has lost `d`. -/
theorem sum_map_add_le {α : Type} {f g : α → Nat} {d : Nat} {t : α} (l : List α) (ht : t ∈ l)
    (hle : ∀ x, f x ≤ g x) (hlt : f t + d ≤ g t) : (l.map f).sum + d ≤ (l.map g).sum := by
  have hall : ∀ l : List α, (l.map f).sum ≤ (l.map g).sum := by
    intro l
    induction l with
    | nil => exact Nat.le_refl 0
    | cons x l ih => exact Nat.add_le_add (hle x) ih
  induction l with
  | nil => cases ht
  | cons x l ih =>
      simp only [List.map_cons, List.sum_cons]
      rcases List.mem_cons.mp ht with rfl | ht
      · have := hall l
        omega
      · have := ih ht
        have := hle x
        omega

/-- Filling a target makes its move due no more. -/
theorem due_fill (w : ArgMove → Nat) {p : Progress} {t : Pending} (ht : t ∈ p.pending.toList) :
    (fill p t).due w ≤ p.due w := by
  by_cases h : Ready p t
  · have hsum := sum_map_add_le (d := w t.move)
      (f := fun t' => if t'.place ∈ (fill p t).writes then w t'.move else 0)
      (g := fun t' => if t'.place ∈ p.writes then w t'.move else 0) p.pending.toList ht
      (fun t' => by
        simp only [mem_writes_fill h]
        split
        · next hin => exact Nat.le_of_eq (if_pos hin.1).symm
        · exact Nat.zero_le _)
      (by simp only [mem_writes_fill h, ne_eq, not_true_eq_false, and_false, if_false, if_pos h.1,
            Nat.zero_add, Nat.le_refl])
    have hmoves : (fill p t).moves.toList = p.moves.toList ++ [t.move] := by
      rw [fill_ready h]
      exact Array.toList_push
    simp only [Progress.due, pending_fill, hmoves, weight_append, weight_cons, weight_nil]
    omega
  · have hsame : fill p t = p := if_neg h
    exact Nat.le_of_eq (congrArg (Progress.due w) hsame)

theorem due_foldl (w : ArgMove → Nat) (ts : List Pending) :
    ∀ p : Progress, (∀ t ∈ ts, t ∈ p.pending.toList) → (ts.foldl fill p).due w ≤ p.due w := by
  induction ts with
  | nil => exact fun p _ => Nat.le_refl _
  | cons t ts ih =>
      intro p hmem
      have hfill := due_fill w (hmem t (List.mem_cons_self ..))
      refine Nat.le_trans (ih (fill p t) fun t' ht' => ?_) hfill
      rw [pending_fill]
      exact hmem t' (List.mem_cons_of_mem t ht')

/-- Rounds make nothing due that was not. -/
theorem due_rounds (w : ArgMove → Nat) (p : Progress) :
    Yields (rounds p) fun q => q.due w ≤ p.due w := by
  have hround : (round p).due w ≤ p.due w := by
    rw [round, ← Array.foldl_toList]
    exact due_foldl w _ p fun _ ht => ht
  rw [rounds]
  refine yields_ite (fun _ => yields_pure (Nat.le_refl _)) fun _ => ?_
  refine yields_ite (fun hless => ?_) fun _ => yields_error _
  intro q hq
  exact Nat.le_trans (due_rounds w (round p) q hq) hround
termination_by p.writes.length

-- ========================================================= first phase

/-- What the first phase does for one transfer: it makes the preparing
moves, and then the last one, or puts it off to the rounds. -/
theorem first_cases {model : RegisterModel} {p : Progress} {i : Nat} {a : Transfer} :
    Yields (first model p i a.dest a.source a.slot) fun q =>
      ∃ early source, a.prepare model i = .ok (early, source)
        ∧ ((a.dest.isRegister = true ∧ q.moves.toList = p.moves.toList ++ early
            ∧ ∃ t, t.move = a.last i source ∧ q.pending.toList = p.pending.toList ++ [t])
          ∨ (a.dest.isRegister = false ∧ q.pending = p.pending
            ∧ q.moves.toList = p.moves.toList ++ early ++ [a.last i source])) := by
  have hqueue : ∀ (p : Progress) (dest : Register) (size : Nat) (source : Location),
      a.dest = .register dest size →
      Yields (queue model p dest size source a.slot (i ≠ 0)) fun q => q.moves = p.moves
        ∧ ∃ t, t.move = a.last i source ∧ q.pending.toList = p.pending.toList ++ [t] := by
    intro p dest size source hdest
    cases source with
    | register reg n =>
        refine yields_bind fun origin _ => yields_bind fun target _ => ?_
        refine yields_ite (fun _ => yields_pure ⟨rfl, _, ?_, Array.toList_push⟩) fun _ =>
          yields_pure ⟨rfl, _, ?_, Array.toList_push⟩
        · simp only [Pending.move, Transfer.last, hdest]
        · simp only [Pending.move, Transfer.last, hdest]
    | stack offset n =>
        refine yields_bind fun target _ => yields_pure ⟨rfl, _, ?_, Array.toList_push⟩
        simp only [Pending.move, Transfer.last, hdest]
  -- what is done once the transfer is prepared
  have hlast : ∀ (moves : Array ArgMove) (early : List ArgMove) (source : Location),
      moves.toList = p.moves.toList ++ early →
      Yields (match a.dest with
        | .register reg size => queue model { p with moves } reg size source a.slot (i ≠ 0)
        | .stack offset size =>
            pure { p with moves := moves.push (toStack offset size source a.slot (i ≠ 0)) })
        fun q => (a.dest.isRegister = true ∧ q.moves.toList = p.moves.toList ++ early
            ∧ ∃ t, t.move = a.last i source ∧ q.pending.toList = p.pending.toList ++ [t])
          ∨ (a.dest.isRegister = false ∧ q.pending = p.pending
            ∧ q.moves.toList = p.moves.toList ++ early ++ [a.last i source]) := by
    intro moves early source hmoves
    cases hdest : a.dest with
    | register reg size =>
        intro q hq
        obtain ⟨hsame, ht⟩ := hqueue { p with moves } reg size source hdest q hq
        exact .inl ⟨rfl, by rw [hsame, hmoves], ht⟩
    | stack offset size =>
        refine yields_pure (.inr ⟨rfl, rfl, ?_⟩)
        simp only [Array.toList_push, hmoves, Transfer.last, hdest]
  unfold first Transfer.prepare
  cases a.source with
  | stack offset n =>
      exact yields_pure_bind fun q hq =>
        ⟨[], .stack offset n, rfl, hlast p.moves [] _ (List.append_nil _).symm q hq⟩
  | register reg n =>
      by_cases href : a.slot.isReference = true
      · simp only [if_pos href]
        refine yields_bind fun wide hwide => fun q hq => ?_
        refine ⟨_, _, by rw [hwide]; rfl, hlast _ _ _ ?_ q hq⟩
        simp only [Array.toList_push, List.append_assoc, List.cons_append, List.nil_append]
      · simp only [if_neg href]
        exact yields_pure_bind fun q hq =>
          ⟨[], .register reg n, rfl, hlast p.moves [] _ (List.append_nil _).symm q hq⟩

/-- One more transfer adds the weight of its steps. -/
theorem total_first {model : RegisterModel} {p : Progress} {i : Nat} {a : Transfer} :
    Yields (first model p i a.dest a.source a.slot) fun q =>
      ∃ ms, a.steps model i = .ok ms ∧ ∀ w, q.total w = p.total w + weight w ms := by
  intro q hq
  obtain ⟨early, source, hprepare, hcases⟩ := first_cases q hq
  refine ⟨early ++ [a.last i source], by rw [Transfer.steps, hprepare]; rfl, fun w => ?_⟩
  rcases hcases with ⟨-, hmoves, t, ht, hpending⟩ | ⟨-, hpending, hmoves⟩
  · simp only [Progress.total, hmoves, hpending, List.map_append, List.map_cons, List.map_nil, ht,
      weight_append]
    omega
  · simp only [Progress.total, hmoves, hpending, weight_append]
    omega

/-- The first phase adds the weight of all transfers' steps. -/
theorem total_firstAll {model : RegisterModel} {w : ArgMove → Nat} {most : Nat}
    (as : List Transfer) :
    ∀ (i : Nat) (p : Progress),
      (∀ (k : Nat) (a : Transfer), as[k]? = some a →
        Yields (a.steps model (i + k)) fun ms => weight w ms ≤ most) →
      Yields (firstAll model p i (as.map (·.dest)) (as.map (·.source)) (as.map (·.slot)))
        fun q => q.total w ≤ p.total w + most * as.length := by
  induction as with
  | nil => exact fun i p _ => yields_pure (Nat.le_add_right _ _)
  | cons a as ih =>
      intro i p hsteps
      refine yields_bind fun p₁ hp₁ => fun q hq => ?_
      obtain ⟨ms, hms, htotal⟩ := total_first p₁ hp₁
      have hhead := hsteps 0 a rfl ms hms
      have htail := ih (i + 1) p₁ (fun k b hk => by
        rw [Nat.add_right_comm]
        exact hsteps (k + 1) b hk) q hq
      rw [htotal w] at htail
      rw [List.length_cons, Nat.mul_succ]
      omega

-- ================================================================ plans

/-- Whatever moves weigh: if the steps of each transfer weigh `most` at
most, so does, for each transfer, the plan. -/
theorem plan_weight {model : RegisterModel} {w : ArgMove → Nat} {most : Nat} {as : List Transfer}
    (h : ∀ (i : Nat) (a : Transfer), as[i]? = some a →
      Yields (a.steps model i) fun ms => weight w ms ≤ most) :
    Yields (plan model (as.map (·.dest)) (as.map (·.source)) (as.map (·.slot)))
      fun ms => weight w ms ≤ most * as.length := by
  unfold plan
  refine yields_ite (fun _ => yields_error _) fun _ => ?_
  refine yields_ite (fun _ => yields_error _) fun _ => ?_
  refine yields_bind fun p hp => yields_bind fun q hq => yields_pure ?_
  have hfirst := total_firstAll as 0 {} (fun k a hk => by rw [Nat.zero_add]; exact h k a hk) p hp
  have hrounds := due_rounds w p q hq
  have hdue := p.due_le_total w
  have hstart : Progress.total w {} = 0 := rfl
  have hmoves : weight w q.moves.toList ≤ q.due w := Nat.le_add_right _ _
  omega

theorem cost_le (m : ArgMove) : m.cost ≤ 5 := by
  cases m with
  | _ => exact Nat.le_of_ble_eq_true rfl

/-- From a register, one instruction reaches the target. -/
theorem cost_last_register (i : Nat) (a : Transfer) (reg : Register) (n : Nat) :
    cost (a.last i (.register reg n)) = 1 := by
  unfold Transfer.last
  cases a.dest with
  | register dest size => rfl
  | stack offset size => rfl

/-- No transfer takes more than seven instructions. -/
theorem plan_cost {model : RegisterModel} {as : List Transfer} :
    Yields (plan model (as.map (·.dest)) (as.map (·.source)) (as.map (·.slot)))
      fun ms => weight cost ms ≤ 7 * as.length := by
  refine plan_weight fun i a _ => yields_bind fun ⟨early, source⟩ hprepare => yields_pure ?_
  rw [weight_append]
  unfold Transfer.prepare at hprepare
  cases hsrc : a.source with
  | stack offset n =>
      simp only [hsrc] at hprepare
      cases hprepare
      have := cost_le (a.last i (.stack offset n))
      simp only [weight_cons, weight_nil]
      omega
  | register reg n =>
      simp only [hsrc] at hprepare
      split at hprepare
      · obtain ⟨wide, -, hprepare⟩ := bind_eq_ok hprepare
        cases hprepare
        simp only [weight_cons, weight_nil, cost_last_register]
        exact Nat.le_refl 7
      · cases hprepare
        rw [weight_cons, cost_last_register]
        exact Nat.le_add_left 1 6

/-- What is true of all steps is true of all planned moves. -/
theorem plan_forall {model : RegisterModel} {P : ArgMove → Prop} {as : List Transfer}
    (h : ∀ (i : Nat) (a : Transfer), as[i]? = some a →
      Yields (a.steps model i) fun ms => ∀ m ∈ ms, P m) :
    Yields (plan model (as.map (·.dest)) (as.map (·.source)) (as.map (·.slot)))
      fun ms => ∀ m ∈ ms, P m := by
  -- weigh the moves that are against `P`
  have hzero : ∀ ms : List ArgMove,
      weight (fun m => open Classical in if P m then 0 else 1) ms = 0 ↔ ∀ m ∈ ms, P m := by
    intro ms
    induction ms with
    | nil => simp
    | cons m ms ih =>
        simp only [weight_cons, Nat.add_eq_zero_iff, ih, List.mem_cons, forall_eq_or_imp]
        refine and_congr_left fun _ => ?_
        split
        · next hm => simp [hm]
        · next hm => simp [hm]
  intro ms hms
  have hle : weight _ ms ≤ 0 * as.length :=
    plan_weight (fun i a ha ms hms => Nat.le_of_eq ((hzero ms).mpr (h i a ha ms hms))) ms hms
  rw [Nat.zero_mul] at hle
  exact (hzero ms).mp (Nat.le_zero.mp hle)

-- ============================================================== handles

/-- The slot whose address a move hands over. -/
def handle? : ArgMove → Option FrameOffset
  | .handleToStack _ slot _ | .handleToRegister _ slot _ _ => some slot
  | _ => none

/-- Planning goes on from `p` to `q`: no planned move is lost. -/
def Keeps (p q : Progress) : Prop := ∀ m ∈ p.moves.toList, m ∈ q.moves.toList

theorem keeps_fill (p : Progress) (t : Pending) : Keeps p (fill p t) := by
  unfold fill
  split
  · intro m hm
    rw [Array.toList_push]
    exact List.mem_append_left _ hm
  · exact fun _ hm => hm

theorem keeps_foldl (ts : List Pending) : ∀ p : Progress, Keeps p (ts.foldl fill p) := by
  induction ts with
  | nil => exact fun p _ hm => hm
  | cons t ts ih => exact fun p m hm => ih (fill p t) m (keeps_fill p t m hm)

theorem keeps_rounds (p : Progress) : Yields (rounds p) (Keeps p) := by
  rw [rounds]
  refine yields_ite (fun _ => yields_pure fun _ hm => hm) fun _ => ?_
  refine yields_ite (fun hless => fun q hq m hm => ?_) fun _ => yields_error _
  refine keeps_rounds (round p) q hq m ?_
  rw [round, ← Array.foldl_toList]
  exact keeps_foldl _ p m hm
termination_by p.writes.length

/-- The first phase keeps moves, and makes the handle of a reference that
comes in a register or goes to the stack. -/
theorem handle_first {model : RegisterModel} {p : Progress} {i : Nat} {a : Transfer} :
    Yields (first model p i a.dest a.source a.slot) fun q =>
      Keeps p q ∧ (a.isReference = true → a.source.isRegister = true ∨ a.dest.isRegister = false →
        ∃ m ∈ q.moves.toList, m.handle? = some a.slot) := by
  intro q hq
  obtain ⟨early, source, hprepare, hcases⟩ := first_cases q hq
  have hearly : ∀ m ∈ p.moves.toList ++ early, m ∈ q.moves.toList := by
    rcases hcases with ⟨-, hmoves, -⟩ | ⟨-, -, hmoves⟩
    · rw [hmoves]
      exact fun m hm => hm
    · rw [hmoves]
      exact fun m hm => List.mem_append_left _ hm
  refine ⟨fun m hm => hearly m (List.mem_append_left _ hm), fun href hshape => ?_⟩
  have href' : a.slot.isReference = true := href
  unfold Transfer.prepare at hprepare
  cases hsrc : a.source with
  | register reg n =>
      simp only [hsrc, if_pos href'] at hprepare
      obtain ⟨wide, -, hprepare⟩ := bind_eq_ok hprepare
      cases hprepare
      refine ⟨.handleToRegister wide a.slot (some reg) (i ≠ 0), hearly _ ?_, rfl⟩
      exact List.mem_append_right _ (List.mem_cons_of_mem _ (List.mem_cons_self ..))
  | stack offset n =>
      simp only [hsrc] at hprepare
      cases hprepare
      rcases hcases with ⟨hreg, -⟩ | ⟨-, -, hmoves⟩
      · rw [hsrc, hreg] at hshape
        exact absurd hshape (by simp [Location.isRegister])
      · refine ⟨_, by rw [hmoves]; exact List.mem_append_right _ (List.mem_cons_self ..), ?_⟩
        cases hdest : a.dest with
        | register dest size =>
            rw [hsrc, hdest] at hshape
            exact absurd hshape (by simp [Location.isRegister])
        | stack dest size => simp only [Transfer.last, hdest, toStack, if_pos href', handle?]

theorem handle_firstAll {model : RegisterModel} (as : List Transfer) :
    ∀ (i : Nat) (p : Progress),
      Yields (firstAll model p i (as.map (·.dest)) (as.map (·.source)) (as.map (·.slot))) fun q =>
        Keeps p q ∧ ∀ a ∈ as, a.isReference = true →
          a.source.isRegister = true ∨ a.dest.isRegister = false →
          ∃ m ∈ q.moves.toList, m.handle? = some a.slot := by
  induction as with
  | nil => exact fun i p => yields_pure ⟨fun _ hm => hm, fun a ha => absurd ha (by simp)⟩
  | cons a as ih =>
      intro i p
      refine yields_bind fun p₁ hp₁ => fun q hq => ?_
      obtain ⟨hkeeps, hhead⟩ := handle_first p₁ hp₁
      obtain ⟨hkeeps', htail⟩ := ih (i + 1) p₁ q hq
      refine ⟨fun m hm => hkeeps' m (hkeeps m hm), fun b hb href hshape => ?_⟩
      rcases List.mem_cons.mp hb with rfl | hb
      · obtain ⟨m, hm, hslot⟩ := hhead href hshape
        exact ⟨m, hkeeps' m hm, hslot⟩
      · exact htail b hb href hshape

/-- A plan makes the handle of every reference that comes in a register or
goes to the stack. -/
theorem plan_handles {model : RegisterModel} {as : List Transfer} {a : Transfer} (ha : a ∈ as)
    (href : a.isReference = true)
    (hshape : a.source.isRegister = true ∨ a.dest.isRegister = false) :
    Yields (plan model (as.map (·.dest)) (as.map (·.source)) (as.map (·.slot)))
      fun ms => ∃ m ∈ ms, m.handle? = some a.slot := by
  unfold plan
  refine yields_ite (fun _ => yields_error _) fun _ => ?_
  refine yields_ite (fun _ => yields_error _) fun _ => ?_
  refine yields_bind fun p hp => yields_bind fun q hq => yields_pure ?_
  obtain ⟨m, hm, hslot⟩ := (handle_firstAll as 0 {} p hp).2 a ha href hshape
  exact ⟨m, keeps_rounds p q hq m hm, hslot⟩

end ArgMove

end Crossing
