-- SUMMARY: The parts of a map's region, and that they tile it.
import Ect.Base.Ranges
import Ect.Translate.MapInfo

/-!
# The layout of a map's region

A region is made of a presence byte, a tag and a value for each slot, and a capacity byte.
An array has no tags and no capacity byte. The parts are disjoint and leave no gap.
-/

namespace Ect

open Ranges

/-- A part of a map's region. -/
inductive Part where
  | presence (i : Nat)
  | tag (i : Nat)
  | value (i : Nat)
  | capacity
  deriving DecidableEq, Repr

namespace Part

variable (mi : MapInfo)

/-- The cells of the part. -/
def range : Part → Range
  | presence i => ⟨i, 1⟩
  | tag i => ⟨mi.tagOff i, mi.keySize⟩
  | value i => ⟨mi.valueOff i, mi.valueSize⟩
  | capacity => ⟨mi.fullOff, 1⟩

/-- The map has the part. -/
def Of : Part → Prop
  | presence i => i < mi.nslots
  | tag i => mi.tagged = true ∧ i < mi.nslots
  | value i => i < mi.nslots
  | capacity => mi.tagged = true

/-- The parts of slot `i`. -/
def OfSlot (i : Nat) : Part → Prop
  | presence j => j = i
  | tag j => j = i
  | value j => j = i
  | capacity => False

/-- Where the parts of one kind lie. -/
def band : Part → Range
  | presence _ => ⟨0, mi.nslots⟩
  | tag _ => ⟨mi.tagBase, mi.nslots * mi.keySize⟩
  | value _ => ⟨mi.valueBase, mi.nslots * mi.valueSize⟩
  | capacity => ⟨mi.fullOff, 1⟩

/-- The kinds in the order they lie in. -/
def kind : Part → Nat
  | presence _ => 0
  | tag _ => 1
  | value _ => 2
  | capacity => 3

end Part

variable {mi : MapInfo} {p q : Part} {x : Nat}

theorem MapInfo.valueBase_of_tagged (h : mi.tagged = true) :
    mi.valueBase = mi.tagBase + mi.nslots * mi.keySize := by
  simp [MapInfo.valueBase, MapInfo.tagBase, h]

theorem MapInfo.valueBase_of_not_tagged (h : mi.tagged = false) : mi.valueBase = mi.nslots := by
  simp [MapInfo.valueBase, h]

theorem MapInfo.fullOff_eq : mi.fullOff = mi.valueBase + mi.nslots * mi.valueSize := rfl

theorem MapInfo.length_of_tagged (h : mi.tagged = true) : mi.length = mi.fullOff + 1 := by
  simp [MapInfo.length, h]

theorem MapInfo.length_of_not_tagged (h : mi.tagged = false) : mi.length = mi.fullOff := by
  simp [MapInfo.length, h]

theorem Part.within_band (hp : p.Of mi) : (p.range mi).Within (p.band mi) := by
  cases p with
  | presence i =>
    simp only [Part.Of, Part.range, Part.band, Range.Within] at *
    omega
  | tag i => exact block_within hp.2
  | value i => exact block_within hp
  | capacity => exact .refl _

/-- The kinds follow each other. -/
theorem Part.band_le (hp : p.Of mi) (hq : q.Of mi) (h : p.kind < q.kind) :
    (p.band mi).off + (p.band mi).size ≤ (q.band mi).off := by
  have hbase : mi.nslots ≤ mi.valueBase := Nat.le_add_right _ _
  have hfull := mi.fullOff_eq
  have htag : mi.tagged = true → mi.valueBase = mi.nslots + mi.nslots * mi.keySize :=
    MapInfo.valueBase_of_tagged
  cases p with
  | presence i => cases q <;> simp [Part.kind, Part.band, MapInfo.tagBase] at h ⊢ <;> omega
  | tag i =>
    have := htag hp.1
    cases q <;> simp [Part.kind, Part.band, MapInfo.tagBase] at h ⊢ <;> omega
  | value i => cases q <;> simp [Part.kind, Part.band] at h ⊢; omega
  | capacity => cases q <;> simp [Part.kind] at h

/-- Two parts of a map do not meet: parts of one kind are blocks of a row. -/
theorem Part.disjoint (hp : p.Of mi) (hq : q.Of mi) (hne : p ≠ q) :
    (p.range mi).Disjoint (q.range mi) := by
  rcases Nat.lt_trichotomy p.kind q.kind with h | h | h
  · exact (within_band hp).disjoint ((within_band hq).disjoint (.inr (band_le hp hq h))).symm
  · cases p <;> cases q <;> simp [kind] at h
    case presence.presence i j =>
      have hij : i ≠ j := fun he => hne (by rw [he])
      simp only [range, Range.Disjoint]
      omega
    case tag.tag i j => exact block_disjoint fun he => hne (by rw [he])
    case value.value i j => exact block_disjoint fun he => hne (by rw [he])
    case capacity.capacity => exact absurd rfl hne
  · exact (within_band hp).disjoint ((within_band hq).disjoint (.inl (band_le hq hp h))).symm

/-- A part ends in the region. -/
theorem Part.band_end_le (hp : p.Of mi) : (p.band mi).off + (p.band mi).size ≤ mi.length := by
  have hfull := mi.fullOff_eq
  have hbase : mi.nslots ≤ mi.valueBase := Nat.le_add_right _ _
  have hlen : mi.fullOff ≤ mi.length := Nat.le_add_right _ _
  cases p with
  | presence i => simp only [band]; omega
  | tag i =>
    have := MapInfo.valueBase_of_tagged hp.1
    simp only [band]
    omega
  | value i => simp only [band]; omega
  | capacity => simp only [band, MapInfo.length_of_tagged hp]; omega

theorem Part.end_le (hp : p.Of mi) : (p.range mi).off + (p.range mi).size ≤ mi.length :=
  Nat.le_trans (within_band hp).2 (band_end_le hp)

/-- The parts leave no gap and do not leave the region. -/
theorem Part.exists_contains_iff (hkey : 0 < mi.keySize) (hvalue : 0 < mi.valueSize) :
    (∃ p : Part, p.Of mi ∧ (p.range mi).Contains x) ↔ x < mi.length := by
  constructor
  · rintro ⟨p, hp, _, hx⟩
    exact Nat.lt_of_lt_of_le hx (end_le hp)
  · intro hx
    -- the row of values, and for a tagged map the row of tags before it
    have hvals : mi.valueBase ≤ x → x < mi.fullOff →
        ∃ p : Part, p.Of mi ∧ (p.range mi).Contains x := fun hlo hhi => by
      obtain ⟨i, hi, hc⟩ := (exists_block_contains hvalue).mpr ⟨hlo, hhi⟩
      exact ⟨.value i, hi, hc⟩
    by_cases hpres : x < mi.nslots
    · exact ⟨.presence x, hpres, by simp [range, Range.Contains]⟩
    cases htag : mi.tagged with
    | false =>
      rw [MapInfo.length_of_not_tagged htag] at hx
      exact hvals (by rw [MapInfo.valueBase_of_not_tagged htag]; omega) hx
    | true =>
      rw [MapInfo.length_of_tagged htag] at hx
      have hbase := MapInfo.valueBase_of_tagged htag
      by_cases hlow : x < mi.valueBase
      · obtain ⟨i, hi, hc⟩ := (exists_block_contains (n := mi.nslots) hkey).mpr
          ⟨show mi.tagBase ≤ x by simp only [MapInfo.tagBase]; omega, by omega⟩
        exact ⟨.tag i, ⟨htag, hi⟩, hc⟩
      by_cases hmid : x < mi.fullOff
      · exact hvals (by omega) hmid
      · refine ⟨.capacity, htag, ?_⟩
        simp only [range, Range.Contains]
        omega

end Ect
