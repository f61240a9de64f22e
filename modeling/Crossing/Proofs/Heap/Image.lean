import Crossing.Proofs.Code.Bytes
import Crossing.Proofs.Heap.Allocation

/-
What a heap looks like in memory: each granted object is written into its
block, byte by byte, and read back field by field. Nothing marks where a
block ends, so a write that reached into another block would change the
object there; that none does is `Image.after_holds`, from the order of the
blocks.
-/
namespace Crossing

open Code Heap

-- ============================================================== objects

/-- The bytes behind a header. The second word of a class and of a string is
not used. -/
def ObjectBody.bytes : ObjectBody → List UInt8
  | plain => []
  | classOf superclass => littleEndian 4 superclass ++ littleEndian 4 0
  | text chars =>
      littleEndian 4 chars.length ++ (littleEndian 4 0 ++ chars.flatMap fun c => littleEndian 2 c.toNat)

/-- The bytes of an object: class reference, lock word and body. -/
def HeapObject.bytes (o : HeapObject) : List UInt8 :=
  littleEndian 4 o.klass ++ (littleEndian 4 o.lockWord.toNat ++ o.body.bytes)

theorem flatMap_units_length (chars : List UInt16) :
    (chars.flatMap fun c => littleEndian 2 c.toNat).length = 2 * chars.length := by
  induction chars with
  | nil => rfl
  | cons c chars ih =>
      rw [List.flatMap_cons, List.length_append, ih, littleEndian_length, List.length_cons]
      omega

theorem HeapObject.bytes_length (o : HeapObject) : o.bytes.length = o.body.size := by
  have hbody : o.body.bytes.length + 8 = o.body.size := by
    cases o.body with
    | plain => rfl
    | classOf superclass =>
        simp only [ObjectBody.bytes, ObjectBody.size, List.length_append, littleEndian_length]
    | text chars =>
        simp only [ObjectBody.bytes, ObjectBody.size, List.length_append, littleEndian_length,
          flatMap_units_length]
        omega
  rw [bytes, List.length_append, List.length_append, littleEndian_length, littleEndian_length]
  omega

-- =============================================================== memory

/-- Memory, byte by byte. -/
abbrev Image := Nat → UInt8

namespace Image

variable {image image' : Image} {a a' n m i : Nat} {bs front field rest : List UInt8}

/-- Memory with bytes written from an address on. -/
def store (image : Image) (a : Nat) (bs : List UInt8) : Image :=
  fun x => if x < a then image x else bs[x - a]?.getD (image x)

/-- The bytes from an address on. -/
def load (image : Image) (a n : Nat) : List UInt8 := (List.range n).map fun i => image (a + i)

/-- Memory has these bytes at an address. -/
def Holds (image : Image) (a : Nat) (bs : List UInt8) : Prop := image.load a bs.length = bs

theorem load_length : (image.load a n).length = n := by
  rw [load, List.length_map, List.length_range]

theorem load_getElem? (hi : i < n) : (image.load a n)[i]? = some (image (a + i)) := by
  rw [load, List.getElem?_map, List.getElem?_range hi]
  rfl

theorem load_congr (h : ∀ i < n, image' (a + i) = image (a + i)) :
    image'.load a n = image.load a n :=
  List.map_congr_left fun i hi => h i (List.mem_range.mp hi)

/-- Bytes that are written are there. -/
theorem holds_store (image : Image) (a : Nat) (bs : List UInt8) : (image.store a bs).Holds a bs := by
  apply List.ext_getElem?
  intro i
  by_cases hi : i < bs.length
  · have hnext : ¬ a + i < a := by omega
    rw [load_getElem? hi, store, if_neg hnext, Nat.add_sub_cancel_left, List.getElem?_eq_getElem hi]
    rfl
  · have hi : bs.length ≤ i := Nat.le_of_not_lt hi
    rw [List.getElem?_eq_none (by rw [load_length]; exact hi), List.getElem?_eq_none hi]

/-- Bytes behind which others are written stay. -/
theorem Holds.store (h : image.Holds a bs) (hapart : a + bs.length ≤ a') {bs' : List UInt8} :
    (image.store a' bs').Holds a bs := by
  refine Eq.trans (load_congr fun i hi => ?_) h
  exact if_pos (by omega)

/-- Part of some bytes that memory has. -/
theorem Holds.part (h : image.Holds a (front ++ (field ++ rest))) :
    image.Holds (a + front.length) field := by
  apply List.ext_getElem?
  intro i
  by_cases hi : i < field.length
  · have hwhole : front.length + i < (front ++ (field ++ rest)).length := by
      rw [List.length_append, List.length_append]
      omega
    have hbyte := congrArg (fun l : List UInt8 => l[front.length + i]?) h
    rw [load_getElem? hwhole, List.getElem?_append_right (Nat.le_add_right _ _),
      Nat.add_sub_cancel_left, List.getElem?_append_left hi, ← Nat.add_assoc] at hbyte
    rw [load_getElem? hi, hbyte]
  · have hi : field.length ≤ i := Nat.le_of_not_lt hi
    rw [List.getElem?_eq_none (by rw [load_length]; exact hi), List.getElem?_eq_none hi]

-- --------------------------------------------------------------- fields

/-- The 32-bit word at an address. -/
def word (image : Image) (a : Nat) : Nat := ofLittleEndian (image.load a 4)

/-- The 16-bit unit at an address. -/
def unit (image : Image) (a : Nat) : UInt16 := UInt16.ofNat (ofLittleEndian (image.load a 2))

/-- The units of the string at an address: their number is in the word
behind the header, and they come after one more word. -/
def chars (image : Image) (a : Nat) : List UInt16 :=
  (List.range (image.word (a + 8))).map fun i => image.unit (a + 16 + 2 * i)

/-- Memory has an object at an address, as the accessors of objects read
it. -/
structure Shows (image : Image) (a : Nat) (o : HeapObject) : Prop where
  klass : image.word (a + ObjectHeader.classOffset.value) = o.klass
  lockWord : image.word (a + ObjectHeader.monitorOffset.value) = o.lockWord.toNat
  superclass : ∀ {superclass}, o.body = .classOf superclass → image.word (a + 8) = superclass
  chars : ∀ {chars}, o.body = .text chars → image.chars a = chars

theorem Holds.word {v : Nat} (h : image.Holds a (littleEndian 4 v)) (hv : v < 2 ^ 32) :
    image.word a = v := by
  have hload : image.load a 4 = littleEndian 4 v := h
  rw [Image.word, hload, ofLittleEndian_littleEndian]
  exact Nat.mod_eq_of_lt hv

theorem Holds.unit {c : UInt16} (h : image.Holds a (littleEndian 2 c.toNat)) : image.unit a = c := by
  have hload : image.load a 2 = littleEndian 2 c.toNat := h
  rw [Image.unit, hload, ofLittleEndian_littleEndian, Nat.mod_eq_of_lt c.toNat_lt, UInt16.ofNat_toNat]

/-- A list of units is read one by one. -/
theorem Holds.units {chars : List UInt16}
    (h : image.Holds a (chars.flatMap fun c => littleEndian 2 c.toNat)) :
    (List.range chars.length).map (fun i => image.unit (a + 2 * i)) = chars := by
  apply List.ext_getElem
  · rw [List.length_map, List.length_range]
  · intro i _ hi
    have hsplit : (chars.flatMap fun c => littleEndian 2 c.toNat)
        = ((chars.take i).flatMap fun c => littleEndian 2 c.toNat)
          ++ (littleEndian 2 chars[i].toNat
            ++ (chars.drop (i + 1)).flatMap fun c => littleEndian 2 c.toNat) := by
      conv_lhs => rw [← List.take_append_drop i chars, ← List.getElem_cons_drop hi]
      rw [List.flatMap_append, List.flatMap_cons]
    have hfront : ((chars.take i).flatMap fun c => littleEndian 2 c.toNat).length = 2 * i := by
      rw [flatMap_units_length, List.length_take, Nat.min_eq_left (Nat.le_of_lt hi)]
    rw [hsplit] at h
    have hunit := h.part.unit
    rw [hfront] at hunit
    rw [List.getElem_map, List.getElem_range]
    exact hunit

/-- Objects whose numbers fit their fields are read back. -/
theorem Holds.shows {o : HeapObject} (h : image.Holds a o.bytes) (hklass : o.klass < 2 ^ 32)
    (hsuper : ∀ {superclass}, o.body = .classOf superclass → superclass < 2 ^ 32)
    (htext : ∀ {chars}, o.body = .text chars → chars.length < 2 ^ 32) : image.Shows a o where
  klass := by
    have hfield : image.Holds a ([] ++ (littleEndian 4 o.klass
      ++ (littleEndian 4 o.lockWord.toNat ++ o.body.bytes))) := h
    exact hfield.part.word hklass
  lockWord := h.part.word o.lockWord.toNat_lt
  superclass := by
    intro superclass hbody
    rw [HeapObject.bytes, hbody, ObjectBody.bytes, ← List.append_assoc] at h
    exact h.part.word (hsuper hbody)
  chars := by
    intro chars hbody
    rw [HeapObject.bytes, hbody, ObjectBody.bytes, ← List.append_assoc] at h
    have hcount : image.word (a + 8) = chars.length := h.part.word (htext hbody)
    rw [Image.chars, hcount]
    apply Holds.units
    rw [← List.append_assoc, ← List.append_assoc,
      ← List.append_nil (chars.flatMap fun c => littleEndian 2 c.toNat)] at h
    exact h.part

-- --------------------------------------------------------------- grants

/-- Memory after some grants, the latest one first: each object has been
written into its block. -/
def after (image : Image) : List Grant → Image
  | [] => image
  | g :: earlier => (image.after earlier).store g.address g.request.object.bytes

/-- Blocks one behind the other keep what was written into them. -/
theorem after_holds (image : Image) {grants : List Grant}
    (hapart : grants.Pairwise fun later earlier => earlier.stop ≤ later.address) :
    ∀ g ∈ grants, (image.after grants).Holds g.address g.request.object.bytes := by
  induction grants with
  | nil => exact fun g hg => nomatch hg
  | cons latest earlier ih =>
      obtain ⟨hbehind, hapart⟩ := List.pairwise_cons.mp hapart
      intro g hg
      rcases List.mem_cons.mp hg with hlatest | hold
      · rw [hlatest]
        exact holds_store _ _ _
      · apply (ih hapart g hold).store
        have hsize : g.request.object.body.size ≤ g.request.size := (rounded_bounds _).1
        have hstop : g.address + g.request.size ≤ latest.address := hbehind g hold
        rw [HeapObject.bytes_length]
        omega

end Image

end Crossing
