-- SUMMARY: Fixed-width records read out of a byte string: slices, formats, packing and unpacking.
import Ect.Base.LittleEndian
import Mathlib.Data.List.GetD

/-!
# Records in byte strings

A format lists the widths of a record's fields, in bytes. `unpackFrom` reads a record at an
offset and fails exactly when the record runs past the end; `pack` writes one, and reading
back what was written gives the same fields. Slices never fail: they are clipped at the end.
-/

namespace Struct

open LittleEndian

/-- What an indexing or an unpacking operation can fail with. -/
inductive Exn where
  | value (msg : String)
  | struct
  | overflow
  | index
  | recursion
  deriving DecidableEq, Repr

/-- The fields of a record with the widths of a format. -/
@[reducible] def Fields : List Nat → Type
  | [] => Unit
  | _ :: fmt => Nat × Fields fmt

/-- The number of bytes of a format. -/
def calcsize (fmt : List Nat) : Nat := fmt.sum

/-- The fields at the start of a byte string. -/
def unpack : (fmt : List Nat) → List Byte → Fields fmt
  | [], _ => ()
  | k :: fmt, bs => (leNat (bs.take k), unpack fmt (bs.drop k))

/-- The record with these fields. -/
def pack : (fmt : List Nat) → Fields fmt → List Byte
  | [], () => []
  | k :: fmt, (v, vs) => leBytes k v ++ pack fmt vs

/-- Every field fits its width. -/
def Fits : (fmt : List Nat) → Fields fmt → Prop
  | [], () => True
  | k :: fmt, (v, vs) => v < 256 ^ k ∧ Fits fmt vs

instance decidableFits : (fmt : List Nat) → (vs : Fields fmt) → Decidable (Fits fmt vs)
  | [], () => .isTrue trivial
  | k :: fmt, (v, vs) =>
    have := decidableFits fmt vs
    inferInstanceAs (Decidable (v < 256 ^ k ∧ Fits fmt vs))

/-- The record of a format at an offset. An offset that is not a machine word cannot even be
passed on; no byte string reaches that far. -/
def unpackFrom (fmt : List Nat) (bs : List Byte) (off : Nat) : Except Exn (Fields fmt) :=
  if off + calcsize fmt ≤ bs.length then .ok (unpack fmt (bs.drop off))
  else if 2 ^ 63 ≤ off then .error .overflow
  else .error .struct

/-- `bs[off : off + size]`. -/
def slice (bs : List Byte) (off size : Nat) : List Byte := (bs.drop off).take size

/-- `range(0, stop, step)`. -/
def steps (stop step : Nat) : List Nat := (List.range ((stop + step - 1) / step)).map (· * step)

variable {fmt : List Nat} {bs pre post : List Byte} {off : Nat}

/-! ## Packing and unpacking -/

@[simp] theorem pack_length (vs : Fields fmt) : (pack fmt vs).length = calcsize fmt := by
  induction fmt with
  | nil => rfl
  | cons k fmt ih => simp [pack, calcsize, ih]

theorem unpack_pack_append (vs : Fields fmt) (hfits : Fits fmt vs) (post : List Byte) :
    unpack fmt (pack fmt vs ++ post) = vs := by
  induction fmt with
  | nil => rfl
  | cons k fmt ih =>
    obtain ⟨v, vs⟩ := vs
    have htake : (leBytes k v ++ (pack fmt vs ++ post)).take k = leBytes k v :=
      List.take_left' (leBytes_length k v)
    have hdrop : (leBytes k v ++ (pack fmt vs ++ post)).drop k = pack fmt vs ++ post :=
      List.drop_left' (leBytes_length k v)
    rw [pack, unpack, List.append_assoc, htake, hdrop, leNat_leBytes_of_lt hfits.1, ih vs hfits.2]

/-! ## Reading at an offset -/

theorem unpackFrom_of_le (h : off + calcsize fmt ≤ bs.length) :
    unpackFrom fmt bs off = .ok (unpack fmt (bs.drop off)) := if_pos h

theorem unpackFrom_of_lt (h : bs.length < off + calcsize fmt) :
    ∃ e, unpackFrom fmt bs off = .error e ∧ ∀ msg, e ≠ .value msg := by
  rw [unpackFrom, if_neg (by omega)]
  split
  · exact ⟨.overflow, rfl, fun _ => nofun⟩
  · exact ⟨.struct, rfl, fun _ => nofun⟩

/-- A record written at an offset is read back there. -/
theorem unpackFrom_pack (vs : Fields fmt) (hfits : Fits fmt vs) (hoff : pre.length = off) :
    unpackFrom fmt (pre ++ (pack fmt vs ++ post)) off = .ok vs := by
  rw [unpackFrom_of_le (by simp only [List.length_append, pack_length]; omega),
    List.drop_left' hoff, unpack_pack_append vs hfits]

/-- A record that lies at an offset is read there. -/
theorem unpackFrom_of_slice (vs : Fields fmt) (hfits : Fits fmt vs) (hpos : 0 < calcsize fmt)
    (h : slice bs off (calcsize fmt) = pack fmt vs) : unpackFrom fmt bs off = .ok vs := by
  have hlen := congrArg List.length h
  rw [slice, List.length_take, List.length_drop, pack_length] at hlen
  have hsplit : bs.drop off = pack fmt vs ++ (bs.drop off).drop (calcsize fmt) := by
    rw [← h, slice, List.take_append_drop]
  rw [unpackFrom_of_le (by omega), hsplit, unpack_pack_append vs hfits]

/-! ## Slices and steps -/

@[simp] theorem slice_length (bs : List Byte) (off size : Nat) :
    (slice bs off size).length = min size (bs.length - off) := by
  simp [slice]

theorem slice_length_of_le {off size : Nat} (h : off + size ≤ bs.length) :
    (slice bs off size).length = size := by
  rw [slice_length, Nat.min_eq_left (by omega)]

/-- The piece that starts at an offset. -/
theorem slice_append {mid : List Byte} {size : Nat} (hoff : pre.length = off)
    (hsize : mid.length = size) : slice (pre ++ (mid ++ post)) off size = mid := by
  rw [slice, List.drop_left' hoff, List.take_left' hsize]

theorem mem_steps {stop step off : Nat} (hstep : 0 < step) (h : off ∈ steps stop step) :
    off < stop ∧ step ∣ off := by
  obtain ⟨i, hi, rfl⟩ := List.mem_map.mp h
  have hlt : i < (stop + step - 1) / step := List.mem_range.mp hi
  have hmul : (i + 1) * step ≤ stop + step - 1 :=
    (Nat.le_div_iff_mul_le hstep).mp hlt
  rw [Nat.succ_mul] at hmul
  exact ⟨by omega, Nat.dvd_mul_left step i⟩

/-- The last step short of `stop`. -/
theorem last_mem_steps {stop step : Nat} (hstep : 0 < step) (hstop : 0 < stop) :
    (stop - 1) / step * step ∈ steps stop step := by
  refine List.mem_map.mpr ⟨(stop - 1) / step, List.mem_range.mpr ?_, rfl⟩
  have heq : (stop + step - 1) / step = (stop - 1) / step + 1 := by
    rw [show stop + step - 1 = stop - 1 + step by omega, Nat.add_div_right _ hstep]
  omega

/-! ## Reading in sequence -/

variable {α β : Type} {f : α → Except Exn β} {xs : List α}

theorem mapM_ok {g : α → β} (h : ∀ x ∈ xs, f x = .ok (g x)) : xs.mapM f = .ok (xs.map g) := by
  induction xs with
  | nil => rfl
  | cons x xs ih =>
    rw [List.mapM_cons, h x (by simp), ih fun y hy => h y (by simp [hy])]
    rfl

/-- A sequence of reads fails with what one of them fails with. -/
theorem mapM_error {x : α} {e : Exn} (hx : x ∈ xs) (hf : f x = .error e) :
    ∃ y ∈ xs, ∃ e', f y = .error e' ∧ xs.mapM f = .error e' := by
  induction xs with
  | nil => cases hx
  | cons y xs ih =>
    cases hy : f y with
    | error e' => exact ⟨y, by simp, e', hy, by rw [List.mapM_cons, hy]; rfl⟩
    | ok b =>
      have hmem : x ∈ xs := by
        rcases List.mem_cons.mp hx with rfl | h
        · rw [hf] at hy; cases hy
        · exact h
      obtain ⟨z, hz, e', hze, hrest⟩ := ih hmem
      exact ⟨z, List.mem_cons_of_mem _ hz, e', hze, by rw [List.mapM_cons, hy, hrest]; rfl⟩

/-- One read for every entry of a list. -/
theorem mapM_range {f : Nat → Except Exn β} {g : α → β}
    (h : ∀ i (hi : i < xs.length), f i = .ok (g xs[i])) :
    (List.range xs.length).mapM f = .ok (xs.map g) := by
  induction xs generalizing f with
  | nil => rfl
  | cons x xs ih =>
    have hrest : (List.range xs.length).mapM (f ∘ Nat.succ) = .ok (xs.map g) :=
      ih fun i hi => h (i + 1) (Nat.succ_lt_succ hi)
    rw [List.length_cons, List.range_succ_eq_map, List.mapM_cons, h 0 (Nat.succ_pos _),
      List.mapM_map, hrest]
    rfl

/-- The steps of a table end with its last record. -/
theorem steps_mul {n step : Nat} (hstep : 0 < step) :
    steps (n * step) step = (List.range n).map (· * step) := by
  have hdiv : (n * step + step - 1) / step = n := by
    rw [show n * step + step - 1 = step - 1 + n * step by omega,
      Nat.add_mul_div_right _ _ hstep, Nat.div_eq_of_lt (by omega), Nat.zero_add]
  rw [steps, hdiv]

/-- They do so too where a last piece would be left out. -/
theorem steps_whole {n step : Nat} (hstep : 0 < step) :
    steps (n * step + 1 - step) step = (List.range n).map (· * step) := by
  rcases Nat.eq_zero_or_pos n with rfl | hn
  · have hnone : (0 * step + 1 - step + step - 1) / step = 0 := Nat.div_eq_of_lt (by omega)
    rw [steps, hnone]
  · have hle : step ≤ n * step := Nat.le_mul_of_pos_left step hn
    have hdiv : (n * step + 1 - step + step - 1) / step = n := by
      rw [show n * step + 1 - step + step - 1 = n * step by omega, Nat.mul_div_cancel _ hstep]
    rw [steps, hdiv]

/-- Entry `i` of a table of records. -/
theorem unpackFrom_table {g : α → Fields fmt} (hfits : ∀ x ∈ xs, Fits fmt (g x)) {i : Nat}
    (hi : i < xs.length) :
    unpackFrom fmt (xs.flatMap fun x => pack fmt (g x)) (i * calcsize fmt) = .ok (g xs[i]) := by
  induction xs generalizing i with
  | nil => cases hi
  | cons x xs ih =>
    rw [List.flatMap_cons]
    cases i with
    | zero =>
      have hread := (@unpackFrom_pack _ [] (xs.flatMap fun x => pack fmt (g x)))
        (g x) (hfits x (by simp)) rfl
      rwa [Nat.zero_mul]
    | succ i =>
      have hrest := ih (fun y hy => hfits y (by simp [hy])) (Nat.lt_of_succ_lt_succ hi)
      have hlen := pack_length (g x)
      rw [List.getElem_cons_succ, ← hrest, Nat.succ_mul]
      simp only [unpackFrom, List.length_append, hlen]
      rw [List.drop_append, hlen, List.drop_eq_nil_of_le (by omega), List.nil_append,
        show i * calcsize fmt + calcsize fmt - calcsize fmt = i * calcsize fmt by omega]
      by_cases hin : i * calcsize fmt + calcsize fmt ≤
          (xs.flatMap fun x => pack fmt (g x)).length
      · rw [if_pos (by omega), if_pos hin]
      · -- the entry is there, so this does not happen
        rw [unpackFrom, if_neg hin] at hrest
        split at hrest <;> cases hrest

theorem table_length {g : α → Fields fmt} (xs : List α) :
    (xs.flatMap fun x => pack fmt (g x)).length = xs.length * calcsize fmt := by
  simp [List.length_flatMap]

/-- A table is read entry by entry. -/
theorem mapM_table {g : α → Fields fmt} {f : Nat → Except Exn β} {h : α → β}
    (hfits : ∀ x ∈ xs, Fits fmt (g x))
    (hread : ∀ off, ∀ x ∈ xs, unpackFrom fmt (xs.flatMap fun x => pack fmt (g x)) off = .ok (g x) →
      f off = .ok (h x)) :
    ((List.range xs.length).map (· * calcsize fmt)).mapM f = .ok (xs.map h) := by
  rw [List.mapM_map]
  exact mapM_range fun i hi => hread _ _ (List.getElem_mem hi) (unpackFrom_table hfits hi)

end Struct
