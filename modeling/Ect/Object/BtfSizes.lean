-- SUMMARY: When resolving the size of a type comes to an end: the elements of arrays must not lead back.
import Ect.Object.Btf
import Ect.Base.Follow

/-!
# Type sizes

Qualifiers are looked through at most 32 times, but an array asks for the size of its
element with nothing to stop it. Every other kind answers at once, so the calls
follow the elements of
arrays, and end exactly when that chain does.
-/

namespace Ect

open LittleEndian Struct Follow

namespace Btf

variable (b : Btf)

/-- The element type of an array, given its id or that of a qualified type around it. -/
def elemOf (tid : Nat) : Option Nat :=
  match b.strip tid with
  | none => none
  | some t => if kind t.info = .array then some (unpack btfTripleFmt t.payload).1 else none

/-- The type a pointer points to, given its id or that of a qualified type around it. -/
def pointee (tid : Nat) : Option Nat :=
  match b.strip tid with
  | none => none
  | some p => if kind p.info = .ptr then some p.size else none

/-- All the functions that resolve a type return, the recursion being allowed `limit` calls. -/
def Returns (limit tid : Nat) : Prop :=
  (∃ n, b.sizeOf limit tid = .ok n) ∧ (∃ n, b.uintValue tid = .ok n) ∧
    ∃ n, b.typeSize limit tid = .ok n

variable {b} {limit tid : Nat}

theorem triple_array {t : BtfType} (h : kind t.info = .array) :
    triple t 0 = .ok (unpack btfTripleFmt t.payload) := by
  have hlen : t.payload.length = 12 := by rw [t.payload_length, extra, h]
  have hcalc : calcsize btfTripleFmt = 12 := rfl
  rw [triple, unpackFrom_of_le (by omega), List.drop_zero]

theorem sizeOf_elem {elem : Nat} (h : b.elemOf tid = some elem) :
    ∃ nelems, b.sizeOf (limit + 1) tid = (nelems * ·) <$> b.sizeOf limit elem := by
  rw [elemOf] at h
  rw [sizeOf]
  cases hstrip : b.strip tid with
  | none => rw [hstrip] at h; cases h
  | some t =>
    rw [hstrip] at h
    dsimp only at h ⊢
    split at h
    · rename_i hkind
      have hsized : kind t.info ∉ sizedKinds := by rw [hkind]; decide
      have hptr : kind t.info ≠ .ptr := by rw [hkind]; decide
      obtain rfl := Option.some.inj h
      rw [if_neg hsized, if_neg hptr, if_pos hkind, triple_array hkind]
      refine ⟨(unpack btfTripleFmt t.payload).2.2.1, ?_⟩
      change (b.sizeOf limit (unpack btfTripleFmt t.payload).1 >>= fun size => _) = _
      cases b.sizeOf limit (unpack btfTripleFmt t.payload).1 <;> rfl
    · cases h

theorem sizeOf_no_elem (h : b.elemOf tid = none) : ∃ n, b.sizeOf (limit + 1) tid = .ok n := by
  rw [elemOf] at h
  rw [sizeOf]
  cases hstrip : b.strip tid with
  | none => exact ⟨0, rfl⟩
  | some t =>
    rw [hstrip] at h
    dsimp only at h ⊢
    have hkind : kind t.info ≠ .array := fun hk => by rw [if_pos hk] at h; cases h
    rw [if_neg hkind]
    split
    · exact ⟨_, rfl⟩
    · split <;> exact ⟨_, rfl⟩

/-- The recursion returns exactly when the chain of elements is shorter than the limit, and
fails by running out of calls otherwise. -/
theorem sizeOf_cases (b : Btf) (limit tid : Nat) :
    (follow b.elemOf limit tid = none ∧ ∃ n, b.sizeOf limit tid = .ok n) ∨
      (follow b.elemOf limit tid ≠ none ∧ b.sizeOf limit tid = .error .recursion) := by
  induction limit generalizing tid with
  | zero => exact .inr ⟨nofun, rfl⟩
  | succ limit ih =>
    rw [follow_succ]
    cases helem : b.elemOf tid with
    | none => exact .inl ⟨rfl, sizeOf_no_elem helem⟩
    | some elem =>
      obtain ⟨nelems, hsize⟩ := sizeOf_elem helem
      rw [Option.bind_some, hsize]
      rcases ih elem with ⟨hend, n, hn⟩ | ⟨hgo, hn⟩
      · exact .inl ⟨hend, nelems * n, by rw [hn]; rfl⟩
      · exact .inr ⟨hgo, by rw [hn]; rfl⟩

theorem sizeOf_ok_iff : (∃ n, b.sizeOf limit tid = .ok n) ↔ follow b.elemOf limit tid = none := by
  rcases sizeOf_cases b limit tid with ⟨hend, hn⟩ | ⟨hgo, hn⟩
  · exact iff_of_true hn hend
  · refine iff_of_false ?_ hgo
    rintro ⟨n, hok⟩
    rw [hn] at hok
    cases hok

theorem uintValue_ok (b : Btf) (tid : Nat) : ∃ n, b.uintValue tid = .ok n := by
  rw [uintValue]
  split
  · exact ⟨0, rfl⟩
  · split
    · exact ⟨0, rfl⟩
    · split
      · exact ⟨0, rfl⟩
      · rename_i a _
        split
        · exact ⟨0, rfl⟩
        · rename_i hkind
          rw [triple_array (not_not.mp hkind)]
          exact ⟨_, rfl⟩

theorem typeSize_ok_iff : (∃ n, b.typeSize limit tid = .ok n) ↔
    ∀ p, b.pointee tid = some p → follow b.elemOf limit p = none := by
  rw [typeSize, pointee]
  cases b.strip tid with
  | none => exact iff_of_true ⟨0, rfl⟩ (fun _ => nofun)
  | some p =>
    dsimp only
    by_cases hkind : kind p.info = .ptr
    · rw [if_neg (not_not.mpr hkind), if_pos hkind, sizeOf_ok_iff]
      exact ⟨fun h q hq => Option.some.inj hq ▸ h, fun h => h _ rfl⟩
    · rw [if_pos hkind, if_neg hkind]
      exact iff_of_true ⟨0, rfl⟩ (fun _ => nofun)

theorem returns_iff : b.Returns limit tid ↔ follow b.elemOf limit tid = none ∧
    ∀ p, b.pointee tid = some p → follow b.elemOf limit p = none := by
  rw [Returns, sizeOf_ok_iff, typeSize_ok_iff]
  exact and_congr_right fun _ => and_iff_right (uintValue_ok b tid)

/-! ## Cycles -/

theorem strip_inside {t : BtfType} (h : b.strip tid = some t) : tid < b.types.length + 1 := by
  have hget : b.get tid ≠ none := by
    rw [strip, stripLoop] at h
    intro hnone
    rw [hnone] at h
    cases h
  cases tid with
  | zero => exact Nat.succ_pos _
  | succ i =>
    rw [get, ne_eq, List.getElem?_eq_none_iff] at hget
    omega

theorem elemOf_inside (h : b.elemOf tid ≠ none) : tid ∈ Finset.range (b.types.length + 1) := by
  rw [elemOf] at h
  cases hstrip : b.strip tid with
  | none => rw [hstrip] at h; exact absurd rfl h
  | some t => exact Finset.mem_range.mpr (strip_inside hstrip)

theorem elements_end_iff :
    (∃ k, follow b.elemOf k tid = none) ↔ ¬RunsIntoCycle b.elemOf tid :=
  ends_iff_not_runsIntoCycle fun _ => elemOf_inside

/-- Resolving a type id returns within a limit exactly when the elements of arrays come to an
end within it, from the type and from what it points to. Some limit is enough exactly when neither
chain of elements comes back to an array it has been through. -/
theorem returns_iff_no_cycle (b : Btf) (tid : Nat) :
    (∀ limit, b.Returns limit tid ↔ follow b.elemOf limit tid = none ∧
      ∀ p, b.pointee tid = some p → follow b.elemOf limit p = none) ∧
    ((∃ limit, b.Returns limit tid) ↔ ¬RunsIntoCycle b.elemOf tid ∧
      ∀ p, b.pointee tid = some p → ¬RunsIntoCycle b.elemOf p) := by
  refine ⟨fun _ => returns_iff, ?_⟩
  simp only [returns_iff]
  constructor
  · rintro ⟨limit, hend, hpointee⟩
    exact ⟨elements_end_iff.mp ⟨limit, hend⟩, fun p hp => elements_end_iff.mp
      ⟨limit, hpointee p hp⟩⟩
  · rintro ⟨hend, hpointee⟩
    obtain ⟨m, hm⟩ := elements_end_iff.mpr hend
    cases hp : b.pointee tid with
    | none => exact ⟨m, hm, fun _ => nofun⟩
    | some p =>
      obtain ⟨n, hn⟩ := elements_end_iff.mpr (hpointee p hp)
      refine ⟨m + n, follow_none hm (Nat.le_add_right m n), fun q hq => ?_⟩
      obtain rfl := Option.some.inj hq
      exact follow_none hn (Nat.le_add_left n m)

/-- A header, and one record: an array of two of itself. -/
def selfArray : List Byte :=
  pack btfHdrFmt (btfMagic, 1, 0, 24, 0, 24, 24, 0, ()) ++
    (pack btfTypeFmt (0, 0x03000000, 0, ()) ++ pack btfTripleFmt (1, 1, 2, ()))

theorem returns_counterexample : ∃ b, init selfArray = .ok b ∧ ¬∃ limit, b.Returns limit 1 := by
  refine ⟨⟨[], [⟨0, 0x03000000, 0, pack btfTripleFmt (1, 1, 2, ()), rfl⟩]⟩, by decide +kernel, ?_⟩
  rintro ⟨limit, hsize, -⟩
  have helem : (Btf.mk [] [⟨0, 0x03000000, 0, pack btfTripleFmt (1, 1, 2, ()), rfl⟩]).elemOf 1 =
      some 1 := by decide +kernel
  have hcycle : RunsIntoCycle (Btf.mk [] [_]).elemOf 1 :=
    ⟨1, 0, 1, rfl, Nat.one_pos, by rw [follow_succ, helem, Option.bind_some, follow_zero]⟩
  exact hcycle.follow_ne_none limit (sizeOf_ok_iff.mp hsize)

end Btf

end Ect
