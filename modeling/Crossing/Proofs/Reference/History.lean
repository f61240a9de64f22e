import Crossing.Reference.Table

/-
What handles stand for over time. A local table is a stack in disguise: its
slots are the references it holds, in the order they came, and null behind
them (`LocalTable.Holds`). What a table holds can be told from the calls
made on it alone (`held`), without looking at slots.

`HandleHistory` is what can happen to the tables of several threads and to
the global table they share. A handle for a slot keeps its meaning until a
frame is popped that reaches down to the slot, and means nothing after that
until the slot is used again; a global handle keeps its meaning for good.
-/
namespace Crossing

-- ============================================================ handles

namespace Handle

variable {read : Nat → HeapRef} {globals : GlobalTable} {a n : Nat} {weak : Bool} {r : HeapRef}

/-- What generated code makes of a handle on its own: the second bit leaves
it to the runtime, null stays null, and anything else is read from its
slot. -/
def inline? (read : Nat → HeapRef) (h : Handle) : Option HeapRef :=
  if h.bits / 2 % 2 = 1 then none
  else if h.slot = 0 then some 0
  else some (read h.slot)

/-- What generated code makes of a handle, with the help of the runtime. -/
def follow (read : Nat → HeapRef) (globals : GlobalTable) (h : Handle) :
    Except HandleError HeapRef :=
  match h.inline? read with
  | some r => .ok r
  | none => h.decode read globals

theorem slot_ofSlot (ha : a % 4 = 0) : (ofSlot a).slot = a := by
  simp only [slot, ofSlot, HandleKind.tag]
  omega

theorem kind_ofSlot (ha : a % 4 = 0) : (ofSlot a).kind = .local := by
  have htag : (ofSlot a).bits % 4 = 1 := by
    simp only [ofSlot, HandleKind.tag]
    omega
  simp [kind, htag]

theorem decode_ofSlot (ha : a % 4 = 0) : (ofSlot a).decode read globals = .ok (read a) := by
  have hnull : ofSlot a ≠ .null := by simp [ofSlot, null, HandleKind.tag]
  simp [decode, hnull, kind_ofSlot ha, slot_ofSlot ha, HandleKind.isGlobal]

theorem inline?_ofSlot (ha : a % 4 = 0) (hzero : a ≠ 0) :
    (ofSlot a).inline? read = some (read a) := by
  have hbit : (ofSlot a).bits / 2 % 2 ≠ 1 := by
    simp only [ofSlot, HandleKind.tag]
    omega
  simp [inline?, hbit, slot_ofSlot ha, hzero]

theorem kind_ofEntry : (ofEntry n weak).kind = if weak then .weakGlobal else .global := by
  cases weak with
  | true => simp [kind, ofEntry, HandleKind.tag, Nat.add_mod]
  | false => simp [kind, ofEntry, HandleKind.tag, Nat.add_mod]

theorem decode_ofEntry (hn : globals.entries[n]? = some r) :
    (ofEntry n weak).decode read globals = .ok r := by
  have hkind : (ofEntry n weak).kind.isGlobal = true := by
    rw [kind_ofEntry]
    cases weak <;> rfl
  have hentry : (ofEntry n weak).entry = n := by
    simp only [entry, ofEntry]
    cases weak <;> simp only [HandleKind.tag, if_true, if_false, Bool.false_eq_true] <;> omega
  have hnull : ofEntry n weak ≠ .null := by
    cases weak <;> simp [ofEntry, null, HandleKind.tag]
  simp [decode, hnull, hkind, GlobalTable.get, hentry, hn]

theorem inline?_ofEntry : (ofEntry n weak).inline? read = none := by
  have hbit : (ofEntry n weak).bits / 2 % 2 = 1 := by
    simp only [ofEntry]
    cases weak <;> simp only [HandleKind.tag, if_true, if_false, Bool.false_eq_true] <;> omega
  simp [inline?, hbit]

end Handle

-- ======================================================== local tables

namespace LocalTable

variable {t t' : LocalTable} {refs : List HeapRef} {r : HeapRef} {handle : Handle} {i : Nat}

/-- A table in use: its slots are some references and null behind them. -/
structure Holds (t : LocalTable) (refs : List HeapRef) : Prop where
  top : t.top = refs.length
  fits : refs.length ≤ t.capacity
  slots : t.slots = refs ++ .replicate (t.capacity - refs.length) 0

/-- Two states of one table. -/
structure Same (t t' : LocalTable) : Prop where
  base : t'.base = t.base
  capacity : t'.capacity = t.capacity

theorem holds_ofCapacity (base capacity : Nat) : (ofCapacity base capacity).Holds [] where
  top := rfl
  fits := Nat.zero_le _
  slots := by simp [ofCapacity, LocalTable.capacity]

/-- What a slot holds. -/
theorem Holds.slot (h : t.Holds refs) (hi : i < t.capacity) : t.slots[i]? = some (refs[i]?.getD 0) := by
  rw [h.slots]
  by_cases hin : i < refs.length
  · simp [List.getElem?_append_left hin, hin]
  · have hout : refs.length ≤ i := Nat.le_of_not_lt hin
    rw [List.getElem?_append_right hout, List.getElem?_replicate, if_pos (by omega),
      List.getElem?_eq_none hout]
    rfl

/-- A reference that is not null goes into the first free slot. -/
theorem Holds.add (h : t.Holds refs) (hr : r ≠ 0) (hadd : t.add r = .ok (handle, t')) :
    refs.length < t.capacity ∧ handle = .ofSlot (t.address refs.length)
      ∧ t'.Holds (refs ++ [r]) ∧ t.Same t' := by
  unfold LocalTable.add at hadd
  rw [if_neg hr] at hadd
  split at hadd
  · next hroom =>
      cases hadd
      rw [h.top] at hroom
      have hcapacity : (t.slots.set t.top r).length = t.capacity := List.length_set
      have hnext : t.capacity - refs.length = t.capacity - (refs.length + 1) + 1 := by omega
      refine ⟨hroom, by rw [h.top], ⟨?_, ?_, ?_⟩, ⟨rfl, hcapacity⟩⟩
      · simp [h.top]
      · rw [List.length_append, List.length_singleton]
        exact Nat.le_trans hroom (Nat.le_of_eq hcapacity.symm)
      · show t.slots.set t.top r = _ ++ .replicate ((t.slots.set t.top r).length - _) 0
        rw [hcapacity, h.top, h.slots, hnext, List.length_append, List.length_singleton]
        simp [List.replicate_succ]
  · cases hadd

/-- Only a table without a free slot refuses a reference. -/
theorem Holds.refuses (h : t.Holds refs) (hr : r ≠ 0) :
    (refs.length = t.capacity ↔ t.add r = .error (.localTableFull t.capacity))
      ∧ (refs.length < t.capacity → ∃ handle t', t.add r = .ok (handle, t')) := by
  have hfits := h.fits
  unfold LocalTable.add
  rw [if_neg hr, h.top]
  split
  · next hroom => exact ⟨⟨fun hfull => absurd hfull (by omega), nofun⟩, fun _ => ⟨_, _, rfl⟩⟩
  · next hfull => exact ⟨⟨fun _ => rfl, fun _ => by omega⟩, fun hroom => absurd hroom hfull⟩

/-- Popping a frame keeps the references below its cookie. -/
theorem Holds.popFrame (h : t.Holds refs) (cookie : Nat) :
    (t.popFrame cookie).Holds (refs.take cookie) ∧ t.Same (t.popFrame cookie) := by
  have hfits := h.fits
  have hslots : (t.popFrame cookie).slots
      = refs.take cookie ++ .replicate (t.capacity - (refs.take cookie).length) 0 := by
    simp only [LocalTable.popFrame, h.top, h.slots]
    have hkeep : (refs ++ .replicate (t.capacity - refs.length) 0).take (min cookie refs.length)
        = refs.take cookie := by
      rw [List.take_append_of_le_length (Nat.min_le_right _ _), ← List.take_take, List.take_length]
    rw [hkeep, List.drop_left, List.append_assoc, List.replicate_append_replicate, List.length_take]
    congr 2
    omega
  have hcapacity : (t.popFrame cookie).capacity = t.capacity := by
    rw [LocalTable.capacity, hslots, List.length_append, List.length_replicate, List.length_take]
    omega
  refine ⟨⟨?_, ?_, ?_⟩, ⟨rfl, hcapacity⟩⟩
  · simp [LocalTable.popFrame, h.top]
  · rw [hcapacity, List.length_take]
    omega
  · rw [hcapacity]
    exact hslots

end LocalTable

-- ============================================================ histories

/-- The local tables of any number of threads, and the global one. -/
structure HandleTables where
  locals : Nat → LocalTable
  globals : GlobalTable := {}

namespace HandleTables

def setLocal (s : HandleTables) (k : Nat) (t : LocalTable) : HandleTables :=
  { s with locals := fun j => if j = k then t else s.locals j }

/-- Unused local tables, whose slots lie apart at addresses that are
multiples of four and not null. -/
structure Fresh (s : HandleTables) : Prop where
  unused : ∀ k, (s.locals k).Holds []
  aligned : ∀ {k i}, i < (s.locals k).capacity → (s.locals k).address i % 4 = 0
  nonzero : ∀ {k i}, i < (s.locals k).capacity → (s.locals k).address i ≠ 0
  apart : ∀ {k i k' i'}, i < (s.locals k).capacity → i' < (s.locals k').capacity →
    (s.locals k).address i = (s.locals k').address i' → k = k' ∧ i = i'

/-- Memory holds the slots of all local tables. -/
def Shows (s : HandleTables) (read : Nat → HeapRef) : Prop :=
  ∀ {k i r}, (s.locals k).slots[i]? = some r → read ((s.locals k).address i) = r

end HandleTables

/-- What has happened to the tables. -/
inductive HandleEvent where
  /-- A reference was added to a local table while slot `i` was its first
  free one. -/
  | added (k i : Nat) (r : HeapRef) (h : Handle)
  | popped (k cookie : Nat)
  | addedGlobal (r : HeapRef) (weak : Bool) (h : Handle)

namespace HandleEvent

/-- The handle that was returned. -/
def handle? : HandleEvent → Option Handle
  | added _ _ _ h | addedGlobal _ _ h => some h
  | popped _ _ => none

/-- A frame of table `k` is popped that reaches down to slot `i`. -/
def Drops (k i : Nat) : HandleEvent → Prop
  | popped k' cookie => k' = k ∧ cookie ≤ i
  | _ => False

/-- A reference is put into slot `i` of table `k`. -/
def Fills (k i : Nat) : HandleEvent → Prop
  | added k' i' r _ => k' = k ∧ i' = i ∧ r ≠ 0
  | _ => False

end HandleEvent

/-- Histories of tables that were `s₀` at first; the latest event is first.
An addition that is refused is no event. -/
inductive HandleHistory (s₀ : HandleTables) : List HandleEvent → HandleTables → Prop where
  | start : HandleHistory s₀ [] s₀
  | added {events : List HandleEvent} {s : HandleTables} {k : Nat} {r : HeapRef} {h : Handle}
      {t : LocalTable} : HandleHistory s₀ events s → (s.locals k).add r = .ok (h, t) →
      HandleHistory s₀ (.added k (s.locals k).top r h :: events) (s.setLocal k t)
  | popped {events : List HandleEvent} {s : HandleTables} (k cookie : Nat) :
      HandleHistory s₀ events s → HandleHistory s₀ (.popped k cookie :: events)
        (s.setLocal k ((s.locals k).popFrame cookie))
  | addedGlobal {events : List HandleEvent} {s : HandleTables} {r : HeapRef} {weak : Bool}
      {h : Handle} {globals : GlobalTable} : HandleHistory s₀ events s →
      s.globals.add r weak = (h, globals) →
      HandleHistory s₀ (.addedGlobal r weak h :: events) { s with globals }

/-- The references that table `k` holds, told from the events alone. -/
def held (k : Nat) : List HandleEvent → List HeapRef
  | [] => []
  | .added k' _ r _ :: earlier =>
      if k' = k ∧ r ≠ 0 then held k earlier ++ [r] else held k earlier
  | .popped k' cookie :: earlier =>
      if k' = k then (held k earlier).take cookie else held k earlier
  | .addedGlobal _ _ _ :: earlier => held k earlier

/-- The handle `h` was returned for `r` at a certain time, before the
`later` events, and no frame was popped since that reaches down to its
slot. -/
def Stands (events later : List HandleEvent) (k i : Nat) (r : HeapRef) (h : Handle) : Prop :=
  r ≠ 0 ∧ (∃ earlier, events = later ++ .added k i r h :: earlier) ∧ ∀ e ∈ later, ¬ e.Drops k i

-- ============================================================= records

/-- What the events say is what the tables are like. -/
structure HandleTables.Recorded (s₀ s : HandleTables) (events : List HandleEvent) : Prop where
  same : ∀ k, (s₀.locals k).Same (s.locals k)
  holds : ∀ k, (s.locals k).Holds (held k events)
  added : ∀ {later earlier k i r h}, events = later ++ .added k i r h :: earlier → r ≠ 0 →
    i = (held k earlier).length ∧ i < (s₀.locals k).capacity
      ∧ h = .ofSlot ((s₀.locals k).address i)
  null : ∀ {k i h}, .added k i 0 h ∈ events → h = .null
  global : ∀ {r weak h}, .addedGlobal r weak h ∈ events →
    if r = 0 then h = .null else ∃ n, h = .ofEntry n weak ∧ s.globals.entries[n]? = some r

namespace LocalTable

variable {t t₁ t' : LocalTable}

theorem Same.refl (t : LocalTable) : t.Same t := ⟨rfl, rfl⟩

theorem Same.trans (h : t.Same t₁) (h' : t₁.Same t') : t.Same t' :=
  ⟨h'.base.trans h.base, h'.capacity.trans h.capacity⟩

theorem Same.address (h : t.Same t') (i : Nat) : t'.address i = t.address i := by
  rw [LocalTable.address, LocalTable.address, h.base]

theorem add_null (t : LocalTable) : t.add 0 = .ok (.null, t) := if_pos rfl

end LocalTable

namespace HandleTables

variable {s₀ s s' : HandleTables} {events : List HandleEvent} {e : HandleEvent}

theorem Fresh.recorded (h : s₀.Fresh) : s₀.Recorded s₀ [] where
  same k := .refl _
  holds := h.unused
  added h := by simp at h
  null := nofun
  global := nofun

/-- One more event. -/
theorem Recorded.next (h : s₀.Recorded s events)
    (htables : ∀ k, (s.locals k).Same (s'.locals k) ∧ (s'.locals k).Holds (held k (e :: events)))
    (hadded : ∀ {k i r handle}, e = .added k i r handle → if r = 0 then handle = .null else
      i = (held k events).length ∧ i < (s.locals k).capacity
        ∧ handle = .ofSlot ((s.locals k).address i))
    (hgrows : ∀ {n : Nat} {r}, s.globals.entries[n]? = some r → s'.globals.entries[n]? = some r)
    (hglobal : ∀ {r weak handle}, e = .addedGlobal r weak handle → if r = 0 then handle = .null
      else ∃ n, handle = .ofEntry n weak ∧ s'.globals.entries[n]? = some r) :
    s₀.Recorded s' (e :: events) where
  same k := (h.same k).trans (htables k).1
  holds k := (htables k).2
  added {later earlier k i r handle} hevents hr := by
    cases later with
    | nil =>
        obtain ⟨he, rfl⟩ := List.cons.inj hevents
        have hnew := hadded he
        rw [if_neg hr, (h.same k).capacity, (h.same k).address] at hnew
        exact hnew
    | cons e' later =>
        obtain ⟨-, hevents⟩ := List.cons.inj hevents
        exact h.added hevents hr
  null {k i handle} hmem := by
    rcases List.mem_cons.mp hmem with he | hmem
    · simpa using hadded he.symm
    · exact h.null hmem
  global {r weak handle} hmem := by
    rcases List.mem_cons.mp hmem with he | hmem
    · exact hglobal he.symm
    · have hold := h.global hmem
      split
      · next hr => rwa [if_pos hr] at hold
      · next hr =>
          rw [if_neg hr] at hold
          obtain ⟨n, hhandle, hentry⟩ := hold
          exact ⟨n, hhandle, hgrows hentry⟩

theorem Recorded.add (h : s₀.Recorded s events) {k : Nat} {r : HeapRef} {handle : Handle}
    {t : LocalTable} (hadd : (s.locals k).add r = .ok (handle, t)) :
    s₀.Recorded (s.setLocal k t) (.added k (s.locals k).top r handle :: events) := by
  by_cases hr : r = 0
  · subst hr
    rw [LocalTable.add_null] at hadd
    cases hadd
    refine h.next (fun j => ?_) (fun he => ?_) id nofun
    · simp only [setLocal, held, ne_eq, not_true_eq_false, and_false, if_false]
      split
      · next hj => rw [hj]; exact ⟨.refl _, h.holds k⟩
      · exact ⟨.refl _, h.holds j⟩
    · cases he
      rw [if_pos rfl]
  · obtain ⟨hroom, hhandle, hholds, hsame⟩ := (h.holds k).add hr hadd
    refine h.next (fun j => ?_) (fun he => ?_) id nofun
    · simp only [setLocal, held]
      by_cases hj : j = k
      · subst hj
        rw [if_pos rfl, if_pos ⟨rfl, hr⟩]
        exact ⟨hsame, hholds⟩
      · rw [if_neg hj, if_neg fun hk => hj hk.1.symm]
        exact ⟨.refl _, h.holds j⟩
    · cases he
      rw [if_neg hr, (h.holds k).top]
      exact ⟨rfl, hroom, hhandle⟩

theorem Recorded.popFrame (h : s₀.Recorded s events) (k cookie : Nat) :
    s₀.Recorded (s.setLocal k ((s.locals k).popFrame cookie)) (.popped k cookie :: events) := by
  obtain ⟨hholds, hsame⟩ := (h.holds k).popFrame cookie
  refine h.next (fun j => ?_) nofun id nofun
  simp only [setLocal, held]
  by_cases hj : j = k
  · subst hj
    rw [if_pos rfl, if_pos rfl]
    exact ⟨hsame, hholds⟩
  · rw [if_neg hj, if_neg (Ne.symm hj)]
    exact ⟨.refl _, h.holds j⟩

theorem Recorded.addGlobal (h : s₀.Recorded s events) {r : HeapRef} {weak : Bool} {handle : Handle}
    {globals : GlobalTable} (hadd : s.globals.add r weak = (handle, globals)) :
    s₀.Recorded { s with globals } (.addedGlobal r weak handle :: events) := by
  have hgrown : (∀ {n : Nat} {r}, s.globals.entries[n]? = some r → globals.entries[n]? = some r)
      ∧ if r = 0 then handle = .null
        else ∃ n, handle = .ofEntry n weak ∧ globals.entries[n]? = some r := by
    unfold GlobalTable.add at hadd
    split at hadd
    · next hr => cases hadd; exact ⟨id, by rw [if_pos hr]⟩
    · next hr =>
        cases hadd
        rw [if_neg hr]
        refine ⟨fun {n r} hentry => ?_, s.globals.entries.size, rfl, Array.getElem?_push_size⟩
        obtain ⟨hn, -⟩ := Array.getElem?_eq_some_iff.mp hentry
        rw [Array.getElem?_push_lt hn, ← Array.getElem?_eq_getElem hn]
        exact hentry
  refine h.next (fun j => ⟨.refl _, h.holds j⟩) nofun hgrown.1 fun he => ?_
  cases he
  exact hgrown.2

end HandleTables

theorem HandleHistory.recorded {s₀ s : HandleTables} {events : List HandleEvent} (h₀ : s₀.Fresh)
    (h : HandleHistory s₀ events s) : s₀.Recorded s events := by
  induction h with
  | start => exact h₀.recorded
  | added _ hadd ih => exact ih.add hadd
  | popped k cookie _ ih => exact ih.popFrame k cookie
  | addedGlobal _ hadd ih => exact ih.addGlobal hadd

-- ============================================================ meanings

section Held

variable {events later earlier : List HandleEvent} {k i cookie : Nat} {r : HeapRef} {h : Handle}

/-- A reference stays where it was put until a frame is popped that reaches
down to it. -/
theorem held_kept (hr : r ≠ 0) (hkept : ∀ e ∈ later, ¬ e.Drops k (held k earlier).length) :
    (held k (later ++ .added k i r h :: earlier))[(held k earlier).length]? = some r := by
  induction later with
  | nil =>
      rw [List.nil_append, held, if_pos ⟨rfl, hr⟩]
      simp
  | cons e later ih =>
      have ih := ih fun e he => hkept e (List.mem_cons_of_mem _ he)
      obtain ⟨hin, -⟩ := List.getElem?_eq_some_iff.mp ih
      cases e with
      | added k' i' r' h' =>
          simp only [List.cons_append, held]
          split
          · rw [List.getElem?_append_left hin]
            exact ih
          · exact ih
      | popped k' cookie =>
          simp only [List.cons_append, held]
          split
          · next hk =>
              have hcookie : (held k earlier).length < cookie :=
                Nat.lt_of_not_le fun hle => hkept _ List.mem_cons_self ⟨hk, hle⟩
              rw [List.getElem?_take_of_lt hcookie]
              exact ih
          · exact ih
      | addedGlobal r' weak h' => exact ih

/-- A slot that was dropped stays free until it is filled again. -/
theorem held_dropped (hcookie : cookie ≤ i) (hfree : ∀ e ∈ later, ¬ e.Fills k i)
    (horder : ∀ later' earlier' k' i' r' h', later = later' ++ .added k' i' r' h' :: earlier' →
      r' ≠ 0 → i' = (held k' (earlier' ++ .popped k cookie :: earlier)).length) :
    (held k (later ++ .popped k cookie :: earlier)).length ≤ i := by
  induction later with
  | nil =>
      rw [List.nil_append, held, if_pos rfl, List.length_take]
      omega
  | cons e later ih =>
      have ih := ih (fun e he => hfree e (List.mem_cons_of_mem _ he))
        fun later' _ _ _ _ _ hlater => horder (e :: later') _ _ _ _ _ (by rw [hlater]; rfl)
      cases e with
      | added k' i' r' h' =>
          simp only [List.cons_append, held]
          split
          · next hfills =>
              obtain ⟨rfl, hr⟩ := hfills
              have hi := horder [] _ _ _ _ _ rfl hr
              have hne : i' ≠ i := fun heq => hfree _ List.mem_cons_self ⟨rfl, heq, hr⟩
              rw [List.length_append, List.length_singleton]
              omega
          · exact ih
      | popped k' cookie' =>
          simp only [List.cons_append, held]
          split
          · rw [List.length_take]
            omega
          · exact ih
      | addedGlobal r' weak h' => exact ih

end Held

/-- What the handles of some tables mean after some events, while memory
reads as `read`. -/
structure HandleTables.Faithful (s : HandleTables) (events : List HandleEvent)
    (read : Nat → HeapRef) : Prop where
  /-- Null is its own handle, in any table. -/
  null : (∀ k, (s.locals k).add 0 = .ok (.null, s.locals k))
    ∧ (∀ weak, s.globals.add 0 weak = (.null, s.globals))
    ∧ Handle.null.decode read s.globals = .ok 0
  /-- A local table refuses a reference just if it has no free slot. -/
  full : ∀ k {r}, r ≠ 0 → if (s.locals k).top < (s.locals k).capacity
    then ∃ h t, (s.locals k).add r = .ok (h, t)
    else (s.locals k).add r = .error (.localTableFull (s.locals k).capacity)
  /-- A global handle stands for its reference for good. -/
  global : ∀ {r weak h}, .addedGlobal r weak h ∈ events → r ≠ 0 →
    h.kind = (if weak then .weakGlobal else .global) ∧ h.decode read s.globals = .ok r
  /-- A local handle is that of its slot. -/
  slot : ∀ {k i r h}, .added k i r h ∈ events → r ≠ 0 →
    h.kind = .local ∧ h = .ofSlot ((s.locals k).address i)
  /-- It stands for its reference until its slot is dropped. -/
  stands : ∀ {later k i r h}, Stands events later k i r h → h.decode read s.globals = .ok r
  /-- No two local handles that stand are the same. -/
  apart : ∀ {later k i r h later' k' i' r' h'}, Stands events later k i r h →
    Stands events later' k' i' r' h' → later ≠ later' → h ≠ h'
  /-- It stands for null from then on, until its slot is filled again. -/
  dropped : ∀ {later earlier k i r h cookie}, .added k i r h ∈ events → r ≠ 0 →
    events = later ++ .popped k cookie :: earlier → cookie ≤ i → (∀ e ∈ later, ¬ e.Fills k i) →
    h.decode read s.globals = .ok 0
  /-- Generated code makes of every handle what the runtime does. -/
  inline : ∀ {e h}, e ∈ events → e.handle? = some h →
    h.follow read s.globals = h.decode read s.globals

namespace HandleTables

variable {s₀ s : HandleTables} {events later : List HandleEvent} {read : Nat → HeapRef}
  {k i k' i' : Nat} {r r' : HeapRef} {h h' : Handle} {e : HandleEvent}

theorem Recorded.local (hrec : s₀.Recorded s events) (hadded : .added k i r h ∈ events)
    (hr : r ≠ 0) : i < (s₀.locals k).capacity ∧ h = .ofSlot ((s₀.locals k).address i) := by
  obtain ⟨later, earlier, hevents⟩ := List.append_of_mem hadded
  exact (hrec.added hevents hr).2

/-- A local handle leads to what the table holds in its slot. -/
theorem Recorded.decode (hrec : s₀.Recorded s events) (hfresh : s₀.Fresh) (hread : s.Shows read)
    (hadded : .added k i r h ∈ events) (hr : r ≠ 0) :
    h.decode read s.globals = .ok ((held k events)[i]?.getD 0) := by
  obtain ⟨hi, rfl⟩ := hrec.local hadded hr
  have hslot := (hrec.holds k).slot (i := i) (by rw [(hrec.same k).capacity]; exact hi)
  have hword := hread hslot
  rw [(hrec.same k).address] at hword
  rw [Handle.decode_ofSlot (hfresh.aligned hi), hword]

/-- A handle that stands has its reference in the table. -/
theorem Recorded.stands (hrec : s₀.Recorded s events) (hstands : Stands events later k i r h) :
    (held k events)[i]? = some r := by
  obtain ⟨hr, ⟨earlier, rfl⟩, hkept⟩ := hstands
  obtain ⟨rfl, -⟩ := hrec.added rfl hr
  exact held_kept hr hkept

/-- The later one of two handles for one slot was made when the earlier one
no longer stood. -/
theorem Recorded.stands_once (hrec : s₀.Recorded s events) {mid : List HandleEvent}
    (hstands : Stands events later k i r h)
    (hstands' : Stands events (later ++ .added k i r h :: mid) k i r' h') : False := by
  obtain ⟨hr, ⟨earlier, hevents⟩, -⟩ := hstands
  obtain ⟨hr', ⟨earlier', hevents'⟩, hkept⟩ := hstands'
  have hearlier : earlier = mid ++ .added k i r' h' :: earlier' := by
    rw [hevents, List.append_assoc] at hevents'
    exact (List.cons.inj (List.append_cancel_left hevents')).2
  obtain ⟨hi', -⟩ := hrec.added hevents' hr'
  obtain ⟨hi, -⟩ := hrec.added hevents hr
  have hin : (held k earlier)[i]? = some r' := by
    rw [hearlier, hi']
    refine held_kept hr' fun e he => ?_
    rw [← hi']
    exact hkept e (List.mem_append_right _ (List.mem_cons_of_mem _ he))
  obtain ⟨hlt, -⟩ := List.getElem?_eq_some_iff.mp hin
  omega

theorem Recorded.apart (hrec : s₀.Recorded s events) (hfresh : s₀.Fresh)
    {later' : List HandleEvent} (hstands : Stands events later k i r h)
    (hstands' : Stands events later' k' i' r' h') (hne : later ≠ later') : h ≠ h' := by
  rintro rfl
  have ⟨hr, ⟨earlier, hevents⟩, _⟩ := hstands
  have ⟨hr', ⟨earlier', hevents'⟩, _⟩ := hstands'
  obtain ⟨-, hi, hh⟩ := hrec.added hevents hr
  obtain ⟨-, hi', hh'⟩ := hrec.added hevents' hr'
  have hslot : (s₀.locals k).address i = (s₀.locals k').address i' := by
    rw [← Handle.slot_ofSlot (hfresh.aligned hi), ← hh, hh', Handle.slot_ofSlot (hfresh.aligned hi')]
  obtain ⟨rfl, rfl⟩ := hfresh.apart hi hi' hslot
  rcases List.append_eq_append_iff.mp (hevents.symm.trans hevents') with
    ⟨mid, hmid, htail⟩ | ⟨mid, hmid, htail⟩
  · cases mid with
    | nil => exact hne (by rw [hmid, List.append_nil])
    | cons e mid =>
        cases htail
        exact hrec.stands_once hstands (hmid ▸ hstands')
  · cases mid with
    | nil => exact hne (by rw [hmid, List.append_nil])
    | cons e mid =>
        cases htail
        exact hrec.stands_once hstands' (hmid ▸ hstands)

theorem Recorded.dropped (hrec : s₀.Recorded s events) {earlier : List HandleEvent} {cookie : Nat}
    (hevents : events = later ++ .popped k cookie :: earlier) (hcookie : cookie ≤ i)
    (hfree : ∀ e ∈ later, ¬ e.Fills k i) : (held k events)[i]? = none := by
  refine List.getElem?_eq_none ?_
  rw [hevents]
  refine held_dropped hcookie hfree fun later' earlier' k' i' r' h' hlater hr => ?_
  have hfilled : events
      = later' ++ .added k' i' r' h' :: (earlier' ++ .popped k cookie :: earlier) := by
    rw [hevents, hlater, List.append_assoc]
    rfl
  exact (hrec.added hfilled hr).1

/-- Every handle that was returned is null, that of a local slot, or that of
a global entry; generated code follows it accordingly. -/
theorem Recorded.inline (hrec : s₀.Recorded s events) (hfresh : s₀.Fresh) (he : e ∈ events)
    (hhandle : e.handle? = some h) : h.follow read s.globals = h.decode read s.globals := by
  have hnull : Handle.null.follow read s.globals = Handle.null.decode read s.globals := rfl
  cases e with
  | added k i r h' =>
      cases hhandle
      by_cases hr : r = 0
      · rw [hr] at he
        rw [hrec.null he]
        exact hnull
      · obtain ⟨hi, rfl⟩ := hrec.local he hr
        have haligned := hfresh.aligned hi
        rw [Handle.follow, Handle.inline?_ofSlot haligned (hfresh.nonzero hi),
          Handle.decode_ofSlot haligned]
  | popped k cookie => cases hhandle
  | addedGlobal r weak h' =>
      cases hhandle
      have hglobal := hrec.global he
      split at hglobal
      · rw [hglobal]
        exact hnull
      · obtain ⟨n, rfl, -⟩ := hglobal
        rw [Handle.follow, Handle.inline?_ofEntry]

theorem Recorded.faithful (hrec : s₀.Recorded s events) (hfresh : s₀.Fresh) (hread : s.Shows read) :
    s.Faithful events read where
  null := ⟨fun k => LocalTable.add_null _, fun weak => if_pos rfl, rfl⟩
  full k r hr := by
    have hholds := hrec.holds k
    have hfits := hholds.fits
    obtain ⟨hfull, hroom⟩ := hholds.refuses hr
    rw [hholds.top]
    split
    · next hlt => exact hroom hlt
    · next hge => exact hfull.mp (by omega)
  global hadded hr := by
    have hglobal := hrec.global hadded
    rw [if_neg hr] at hglobal
    obtain ⟨n, rfl, hentry⟩ := hglobal
    exact ⟨Handle.kind_ofEntry, Handle.decode_ofEntry hentry⟩
  slot hadded hr := by
    obtain ⟨hi, rfl⟩ := hrec.local hadded hr
    rw [(hrec.same _).address]
    exact ⟨Handle.kind_ofSlot (hfresh.aligned hi), rfl⟩
  stands hstands := by
    have ⟨hr, ⟨earlier, hevents⟩, _⟩ := hstands
    have hadded : _ ∈ events := hevents ▸ List.mem_append_right _ List.mem_cons_self
    rw [hrec.decode hfresh hread hadded hr, hrec.stands hstands]
    rfl
  apart := hrec.apart hfresh
  dropped hadded hr hevents hcookie hfree := by
    rw [hrec.decode hfresh hread hadded hr, hrec.dropped hevents hcookie hfree]
    rfl
  inline := hrec.inline hfresh

end HandleTables

end Crossing
