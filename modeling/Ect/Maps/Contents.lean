-- SUMMARY: The bytes of a hash map's region as a table of slots.
import Ect.Base.SlotTable
import Ect.Bpf.Machine
import Ect.Maps.Layout

/-!
# The contents of a map's region

A presence byte of 0 is a free slot and one of 1 a filled slot, whose entry is the tag and
the value beside it; any other byte is neither. Claiming a slot writes the tag, the
presence byte and the value, and is a write of the table's slot.
-/

namespace Ect

open LittleEndian Ranges Slots

/-! ## Byte strings in a region -/

section Bytes

variable {m m' : Nat → Byte} {off k n x : Nat} {bs : List Byte}

theorem getBytes_congr (h : ∀ x, off ≤ x → x < off + n → m x = m' x) :
    getBytes m off n = getBytes m' off n := by
  induction n generalizing off with
  | zero => rfl
  | succ n ih =>
    have hrest := @ih (off + 1) fun x hlo hhi => h x (by omega) (by omega)
    simp only [getBytes, h off (by omega) (by omega), hrest]

theorem getBytes_getElem {i : Nat} (hi : i < (getBytes m off n).length) :
    (getBytes m off n)[i] = m (off + i) := by
  induction n generalizing off i with
  | zero => simp [getBytes] at hi
  | succ n ih =>
    cases i with
    | zero => rfl
    | succ i =>
      simp only [getBytes, List.getElem_cons_succ]
      rw [ih, Nat.add_right_comm, Nat.add_assoc]

theorem putBytes_out (h : x < off ∨ off + bs.length ≤ x) : putBytes m off bs x = m x := by
  simp only [putBytes]
  rw [if_neg (by omega)]

theorem putBytes_in {i : Nat} (hi : i < bs.length) : putBytes m off bs (off + i) = bs[i] := by
  simp only [putBytes]
  rw [if_pos (by omega), Nat.add_sub_cancel_left]
  simp [List.getD, List.getElem?_eq_getElem hi]

/-- A read of the bytes that were just written. -/
theorem getBytes_putBytes_self (hn : bs.length = n) : getBytes (putBytes m off bs) off n = bs := by
  subst hn
  refine List.ext_getElem (getBytes_length _ _ _) fun i hi hi' => ?_
  rw [getBytes_getElem, putBytes_in hi']

/-- A read beside a write. -/
theorem getBytes_putBytes_disjoint (h : Range.Disjoint ⟨off, n⟩ ⟨k, bs.length⟩) :
    getBytes (putBytes m k bs) off n = getBytes m off n := by
  simp only [Range.Disjoint] at h
  exact getBytes_congr fun x hlo hhi => putBytes_out (by omega)

/-- Writing what is there changes nothing. -/
theorem putBytes_getBytes (h : getBytes m off n = bs) : putBytes m off bs = m := by
  subst h
  funext x
  by_cases hx : off ≤ x ∧ x < off + n
  · obtain ⟨i, rfl⟩ := Nat.exists_eq_add_of_le hx.1
    have hi : i < (getBytes m off n).length := by rw [getBytes_length]; omega
    rw [putBytes_in hi, getBytes_getElem]
  · exact putBytes_out (by rw [getBytes_length]; omega)

end Bytes

/-! ## The table -/

namespace MapInfo

/-- The key slot `i` is tagged with. -/
def tagOf (mi : MapInfo) (R : Nat → Byte) (i : Nat) : Nat :=
  leNat (getBytes R (mi.tagOff i) mi.keySize)

def valueOf (mi : MapInfo) (R : Nat → Byte) (i : Nat) : List Byte :=
  getBytes R (mi.valueOff i) mi.valueSize

def slotOf (mi : MapInfo) (R : Nat → Byte) (i : Nat) : Slot Nat (List Byte) :=
  if R i = 0 then .free else if R i = 1 then .entry (mi.tagOf R i) (mi.valueOf R i) else .dead

/-- The slots of the region. -/
def table (mi : MapInfo) (R : Nat → Byte) : SlotTable Nat (List Byte) :=
  ⟨mi.nslots, fun i => if i < mi.nslots then mi.slotOf R i else .dead⟩

/-- The capacity byte is set: an update inserts no new key. -/
def closed (mi : MapInfo) (R : Nat → Byte) : Bool := R mi.fullOff = 1

/-- The region after slot `i` is claimed for `key` and holds `v`. -/
def writeSlot (mi : MapInfo) (R : Nat → Byte) (i key : Nat) (v : List Byte) : Nat → Byte :=
  putBytes (putBytes (putBytes R (mi.tagOff i) (leBytes mi.keySize key)) i [1]) (mi.valueOff i) v

end MapInfo

variable {mi : MapInfo} {R : Nat → Byte} {i key : Nat} {v : List Byte}

@[simp] theorem MapInfo.table_size : (mi.table R).size = mi.nslots := rfl

theorem MapInfo.table_slot (hi : i < mi.nslots) : (mi.table R).slot i = mi.slotOf R i := if_pos hi

/-- The table depends on the cells of the region alone. -/
theorem MapInfo.table_congr {R' : Nat → Byte} (htag : mi.tagged = true)
    (h : ∀ x < mi.length, R x = R' x) : mi.table R = mi.table R' := by
  refine congrArg (SlotTable.mk mi.nslots) (funext fun i => ?_)
  split
  · rename_i hi
    have hpart : ∀ p : Part, p.Of mi → getBytes R (p.range mi).off (p.range mi).size =
        getBytes R' (p.range mi).off (p.range mi).size := fun p hp =>
      getBytes_congr fun x _ hhi => h x (Nat.lt_of_lt_of_le hhi (Part.end_le hp))
    have hpres := hpart (.presence i) hi
    have htags := hpart (.tag i) ⟨htag, hi⟩
    have hvals := hpart (.value i) hi
    simp only [Part.range, getBytes, List.cons.injEq, and_true] at hpres htags hvals
    rw [slotOf, slotOf, tagOf, tagOf, valueOf, valueOf, hpres, htags, hvals]
  · rfl

theorem MapInfo.closed_congr {R' : Nat → Byte} (htag : mi.tagged = true)
    (h : ∀ x < mi.length, R x = R' x) : mi.closed R = mi.closed R' := by
  rw [closed, closed, h mi.fullOff (by rw [MapInfo.length_of_tagged htag]; omega)]

theorem MapInfo.slotOf_isFree : (mi.slotOf R i).isFree = decide (R i = 0) := by
  unfold slotOf
  split
  · rename_i hzero; exact (decide_eq_true hzero).symm
  · rename_i hzero; split <;> exact (decide_eq_false hzero).symm

theorem MapInfo.slotOf_holds :
    (mi.slotOf R i).holds key = (decide (R i = 1) && decide (mi.tagOf R i = key)) := by
  unfold slotOf
  split
  · rename_i hzero; rw [hzero, decide_eq_false (by decide)]; rfl
  · split
    · rename_i hone; rw [decide_eq_true hone]; rfl
    · rename_i hone; rw [decide_eq_false hone]; rfl

theorem MapInfo.valueOf_of_slotOf {k : Nat} (h : mi.slotOf R i = .entry k v) :
    mi.valueOf R i = v := by
  unfold slotOf at h
  split at h
  · cases h
  · split at h
    · exact (Slot.entry.inj h).2
    · cases h

/-! ## Claiming a slot -/

/-- Parts of other slots keep their bytes. -/
theorem MapInfo.writeSlot_part (R : Nat → Byte) (key : Nat) (htag : mi.tagged = true) (hi : i < mi.nslots)
    (hv : v.length = mi.valueSize) {p : Part} (hp : p.Of mi) (hne : ¬p.OfSlot i) :
    getBytes (mi.writeSlot R i key v) (p.range mi).off (p.range mi).size =
      getBytes R (p.range mi).off (p.range mi).size := by
  have htagDisj := Part.disjoint hp (q := .tag i) ⟨htag, hi⟩ fun h => hne (h ▸ rfl)
  have hpresDisj := Part.disjoint hp (q := .presence i) hi fun h => hne (h ▸ rfl)
  have hvalDisj := Part.disjoint hp (q := .value i) hi fun h => hne (h ▸ rfl)
  rw [writeSlot, getBytes_putBytes_disjoint (by simpa [Part.range, hv] using hvalDisj),
    getBytes_putBytes_disjoint (by simpa [Part.range] using hpresDisj),
    getBytes_putBytes_disjoint (by simpa [Part.range] using htagDisj)]

theorem MapInfo.writeSlot_presence (hi : i < mi.nslots) (hv : v.length = mi.valueSize) :
    mi.writeSlot R i key v i = 1 := by
  have hdisj : Range.Disjoint ⟨i, 1⟩ ⟨mi.valueOff i, mi.valueSize⟩ :=
    Part.disjoint (p := .presence i) (q := .value i) hi hi (by simp)
  simp only [Range.Disjoint] at hdisj
  rw [writeSlot, putBytes_out (by omega)]
  exact putBytes_in (i := 0) (by simp)

theorem MapInfo.writeSlot_tag (htag : mi.tagged = true) (hi : i < mi.nslots)
    (hv : v.length = mi.valueSize) (hkey : key < 256 ^ mi.keySize) :
    mi.tagOf (mi.writeSlot R i key v) i = key := by
  have hp : (Part.tag i).Of mi := ⟨htag, hi⟩
  have hval := Part.disjoint hp (q := .value i) hi (by simp)
  have hpres := Part.disjoint hp (q := .presence i) hi (by simp)
  rw [tagOf, writeSlot, getBytes_putBytes_disjoint (by simpa [Part.range, hv] using hval),
    getBytes_putBytes_disjoint (by simpa [Part.range] using hpres),
    getBytes_putBytes_self (leBytes_length _ _), leNat_leBytes_of_lt hkey]

theorem MapInfo.writeSlot_value (hv : v.length = mi.valueSize) :
    mi.valueOf (mi.writeSlot R i key v) i = v := getBytes_putBytes_self hv

/-- Claiming a slot leaves the capacity byte alone. -/
theorem MapInfo.closed_writeSlot (htag : mi.tagged = true) (hi : i < mi.nslots)
    (hv : v.length = mi.valueSize) : mi.closed (mi.writeSlot R i key v) = mi.closed R := by
  have h := writeSlot_part R key htag hi hv (p := .capacity) htag id
  simp only [Part.range, getBytes, List.cons.injEq, and_true] at h
  rw [closed, closed, h]

/-- Claiming a slot of the region writes the table's slot. -/
theorem MapInfo.table_writeSlot (htag : mi.tagged = true) (hi : i < mi.nslots)
    (hv : v.length = mi.valueSize) (hkey : key < 256 ^ mi.keySize) :
    mi.table (mi.writeSlot R i key v) = (mi.table R).put i key v := by
  refine congrArg (SlotTable.mk mi.nslots) (funext fun j => ?_)
  by_cases hj : j < mi.nslots
  · rw [if_pos hj]
    by_cases hji : j = i
    · subst hji
      rw [if_pos rfl, slotOf, writeSlot_presence hi hv, if_neg (by decide), if_pos rfl,
        writeSlot_tag htag hi hv hkey, writeSlot_value hv]
    · have hpres := writeSlot_part R key htag hi hv (p := .presence j) hj hji
      have htags := writeSlot_part R key htag hi hv (p := .tag j) ⟨htag, hj⟩ hji
      have hvals := writeSlot_part R key htag hi hv (p := .value j) hj hji
      simp only [Part.range, getBytes, List.cons.injEq, and_true] at hpres htags hvals
      rw [if_neg hji, table_slot hj, slotOf, slotOf, tagOf, tagOf, valueOf, valueOf, hpres, htags,
        hvals]
  · have hji : j ≠ i := by omega
    rw [if_neg hj, if_neg hji]
    exact (if_neg hj).symm

/-- In a slot that holds the key, claiming it anew writes the value alone. -/
theorem MapInfo.writeSlot_of_holds (hi : i < mi.nslots)
    (h : ((mi.table R).slot i).holds key = true) :
    mi.writeSlot R i key v = putBytes R (mi.valueOff i) v := by
  obtain ⟨w, hw⟩ := Slot.holds_iff.mp h
  rw [table_slot hi, slotOf] at hw
  split at hw
  · cases hw
  · split at hw
    · rename_i hone
      obtain ⟨htag, _⟩ := Slot.entry.inj hw
      have hbytes : getBytes R (mi.tagOff i) mi.keySize = leBytes mi.keySize key := by
        rw [← htag, tagOf]
        have := leBytes_leNat (getBytes R (mi.tagOff i) mi.keySize)
        rw [getBytes_length] at this
        exact this.symm
      have hpres : getBytes R i 1 = [1] := by simp [getBytes, hone]
      rw [writeSlot, putBytes_getBytes hbytes, putBytes_getBytes hpres]
    · cases hw

end Ect
