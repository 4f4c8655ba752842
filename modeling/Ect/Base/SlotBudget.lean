-- SUMMARY: A small table of slots that stands in for a large bounded map, for runs that perform few operations.
import Mathlib.Data.Finset.Basic
import Mathlib.Order.Interval.Finset.Nat
import Ect.Base.SlotTable

/-!
# Slot budgets

A table of `n` slots answers like a bounded map of more entries as long as few operations
are performed: it holds the entries the run names, it has as many free slots as the map has
room for, up to what the run can fill, and the other slots hold entries the run does not
name. `Tracks` is the invariant of a run, and `exists_tracking` finds one table for two
runs at once.
-/

namespace Slots

variable {K V : Type}

/-! ## Bounded maps -/

/-- A map of at most `cap` entries, with the set of its keys. -/
structure BoundedMap (K V : Type) (cap : Nat) where
  get : K → Option V
  keys : Finset K
  mem_keys : ∀ k, k ∈ keys ↔ (get k).isSome = true
  card_le : keys.card ≤ cap

/-- An operation on a map. -/
inductive MapOp (K V : Type) where
  | lookup (k : K)
  | update (k : K) (v : V)
  deriving DecidableEq, Repr

/-- What an operation returns: what was found, or whether the update was made. -/
inductive MapResult (V : Type) where
  | found (v : Option V)
  | updated (done : Bool)
  deriving DecidableEq, Repr

def MapOp.key : MapOp K V → K
  | lookup k => k
  | update k _ => k

namespace BoundedMap

variable {cap : Nat} {M : BoundedMap K V cap} {k k' : K} {v : V}

/-- How many new keys the map still takes. -/
def room (M : BoundedMap K V cap) : Nat := cap - M.keys.card

theorem get_eq_none : M.get k = none ↔ k ∉ M.keys := by
  rw [M.mem_keys]
  cases M.get k <;> simp

theorem not_mem_keys_of_get (h : M.get k = none) : k ∉ M.keys := get_eq_none.mp h

theorem mem_keys_of_get (h : M.get k = some v) : k ∈ M.keys := by
  rw [M.mem_keys, h]
  rfl

variable [DecidableEq K]

/-- The map takes the entry: it has the key, or room for it. -/
def Takes (M : BoundedMap K V cap) (k : K) : Prop := k ∈ M.keys ∨ M.keys.card < cap

instance decidableTakes (M : BoundedMap K V cap) (k : K) : Decidable (M.Takes k) :=
  inferInstanceAs (Decidable (_ ∨ _))

theorem card_insert_le (h : M.Takes k) : (insert k M.keys).card ≤ cap := by
  rcases h with h | h
  · rw [Finset.insert_eq_of_mem h]
    exact M.card_le
  · exact Nat.le_trans (Finset.card_insert_le k M.keys) h

theorem mem_insert_keys (k' : K) :
    k' ∈ insert k M.keys ↔ (Function.update M.get k (some v) k').isSome = true := by
  rw [Finset.mem_insert, M.mem_keys]
  by_cases h : k' = k
  · simp [h]
  · simp [h]

def insert (M : BoundedMap K V cap) (k : K) (v : V) (h : M.Takes k) : BoundedMap K V cap where
  get := Function.update M.get k (some v)
  keys := Insert.insert k M.keys
  mem_keys := mem_insert_keys
  card_le := card_insert_le h

/-- An operation on the map: a new key is refused when the map is full. -/
def step (M : BoundedMap K V cap) : MapOp K V → MapResult V × BoundedMap K V cap
  | .lookup k => (.found (M.get k), M)
  | .update k v =>
    if h : M.Takes k then (.updated true, M.insert k v h) else (.updated false, M)

def run (M : BoundedMap K V cap) : List (MapOp K V) → List (MapResult V)
  | [] => []
  | op :: ops => (M.step op).1 :: (M.step op).2.run ops

end BoundedMap

/-! ## Free slots -/

namespace SlotTable

/-- The free slots. -/
def frees (T : SlotTable K V) : Finset Nat := (Finset.range T.size).filter fun i =>
  (T.slot i).isFree = true

variable {T : SlotTable K V} {i : Nat} {k : K} {v : V}

theorem mem_frees : i ∈ T.frees ↔ i < T.size ∧ (T.slot i).isFree = true := by simp [frees]

theorem firstFree_mem (h : T.firstFree = some i) : i ∈ T.frees :=
  mem_frees.mpr ⟨(firstFree_eq_some.mp h).2.1, (firstFree_eq_some.mp h).1⟩

theorem firstFree_eq_none_iff_card : T.firstFree = none ↔ T.frees.card = 0 := by
  rw [firstFree_eq_none, Finset.card_eq_zero, Finset.eq_empty_iff_forall_notMem]
  simp only [mem_frees, not_and, Bool.not_eq_true]

theorem frees_put : (T.put i k v).frees = T.frees.erase i := by
  ext j
  rw [Finset.mem_erase, mem_frees, mem_frees, put_slot, put_size]
  by_cases h : j = i
  · simp [h]
  · simp [h]

theorem card_frees_put_free (h : T.firstFree = some i) :
    (T.put i k v).frees.card + 1 = T.frees.card := by
  rw [frees_put, Finset.card_erase_add_one (firstFree_mem h)]

variable [DecidableEq K]

theorem frees_put_hit (h : T.hit k = some i) : (T.put i k v).frees = T.frees := by
  obtain ⟨w, hw, _⟩ := hit_value h
  rw [frees_put, Finset.erase_eq_of_notMem]
  rw [mem_frees, hw]
  simp

/-- An operation on the table, which is closed to new keys or not. -/
def step (T : SlotTable K V) (closed : Bool) : MapOp K V → MapResult V × SlotTable K V
  | .lookup k => (.found (T.get k), T)
  | .update k v => (.updated (T.dest closed k).isSome, (T.dest closed k).elim T (T.put · k v))

def run (T : SlotTable K V) (closed : Bool) : List (MapOp K V) → List (MapResult V)
  | [] => []
  | op :: ops => (T.step closed op).1 :: (T.step closed op).2.run closed ops

end SlotTable

/-! ## The invariant of a run -/

section Tracks

variable [DecidableEq K] {cap : Nat} {M : BoundedMap K V cap} {T : SlotTable K V} {closed : Bool}
  {op : MapOp K V} {ops : List (MapOp K V)}

/-- The keys the operations name that the map does not have. -/
def newKeys (M : BoundedMap K V cap) (ops : List (MapOp K V)) : Finset K :=
  (ops.map MapOp.key).toFinset \ M.keys

/-- The table answers the operations as the map does: it holds what the map holds at the
keys they name, and it has a free slot for a new key exactly when the map has room. -/
structure Tracks (M : BoundedMap K V cap) (T : SlotTable K V) (closed : Bool)
    (ops : List (MapOp K V)) : Prop where
  get : ∀ op ∈ ops, T.get op.key = M.get op.key
  free_le : T.frees.card ≤ M.room
  enough : T.frees.card = M.room ∨ (newKeys M ops).card ≤ T.frees.card
  closed : closed = true → M.room = 0

theorem newKeys_cons_subset : newKeys M ops ⊆ newKeys M (op :: ops) := by
  intro k hk
  simp only [newKeys, Finset.mem_sdiff, List.mem_toFinset, List.map_cons, List.mem_cons] at hk ⊢
  exact ⟨.inr hk.1, hk.2⟩

theorem Tracks.tail (h : Tracks M T closed (op :: ops)) : Tracks M T closed ops where
  get o ho := h.get o (by simp [ho])
  free_le := h.free_le
  enough := h.enough.imp_right fun hle =>
    Nat.le_trans (Finset.card_le_card newKeys_cons_subset) hle
  closed := h.closed

/-- A new key has a free slot exactly when the map has room for it. -/
theorem Tracks.free_iff (h : Tracks M T closed (op :: ops)) (hnew : op.key ∉ M.keys) :
    T.frees.card = 0 ↔ M.room = 0 := by
  have hle := h.free_le
  rcases h.enough with heq | hle'
  · rw [heq]
  · have hpos : 0 < (newKeys M (op :: ops)).card :=
      Finset.card_pos.mpr ⟨op.key, by simp [newKeys, hnew]⟩
    omega

/-- An update the map takes finds a slot, and only such an update does. -/
theorem Tracks.dest_isSome {k : K} {v : V} (h : Tracks M T closed (.update k v :: ops)) :
    (T.dest closed k).isSome = true ↔ M.Takes k := by
  have hget : T.get k = M.get k := h.get (.update k v) (by simp)
  cases hhit : T.hit k with
  | some i =>
    obtain ⟨w, _, hw⟩ := SlotTable.hit_value hhit
    rw [SlotTable.dest_of_hit hhit]
    exact ⟨fun _ => .inl (BoundedMap.mem_keys_of_get (hget.symm.trans hw)), fun _ => rfl⟩
  | none =>
    have hnew : k ∉ M.keys :=
      BoundedMap.not_mem_keys_of_get (hget.symm.trans (SlotTable.get_eq_none.mpr hhit))
    have hiff := h.free_iff hnew
    have hcard := M.card_le
    have hfirst := SlotTable.firstFree_eq_none_iff_card (T := T)
    have htakes : M.Takes k ↔ M.room ≠ 0 := by
      simp only [BoundedMap.Takes, hnew, false_or, BoundedMap.room]
      omega
    rw [SlotTable.dest_of_miss hhit, htakes]
    cases hclosed : closed with
    | false => simpa [Option.isSome_iff_ne_none] using not_congr (hfirst.trans hiff)
    | true => simp [h.closed hclosed]

/-- An update that overwrites keeps the invariant. -/
theorem Tracks.overwrite {k : K} {v : V} {i : Nat} (h : Tracks M T closed (.update k v :: ops))
    (hhit : T.hit k = some i) (htakes : M.Takes k) :
    Tracks (M.insert k v htakes) (T.put i k v) closed ops := by
  have hmem : k ∈ M.keys := by
    obtain ⟨w, _, hw⟩ := SlotTable.hit_value hhit
    exact BoundedMap.mem_keys_of_get ((h.get (.update k v) (by simp)).symm.trans hw)
  have hkeys : (M.insert k v htakes).keys = M.keys := Finset.insert_eq_of_mem hmem
  have hroom : (M.insert k v htakes).room = M.room := by
    rw [BoundedMap.room, BoundedMap.room, hkeys]
  have hnew : newKeys (M.insert k v htakes) ops = newKeys M ops := by
    rw [newKeys, newKeys, hkeys]
  have ht := h.tail
  refine ⟨fun o ho => ?_, ?_, ?_, ?_⟩
  · rw [SlotTable.get_put (show T.dest closed k = some i from SlotTable.dest_of_hit hhit)]
    simp only [BoundedMap.insert, Function.update_apply, ht.get o ho]
  · rw [SlotTable.frees_put_hit hhit, hroom]
    exact ht.free_le
  · rw [SlotTable.frees_put_hit hhit, hroom, hnew]
    exact ht.enough
  · rw [hroom]
    exact ht.closed

/-- An update that claims a free slot keeps the invariant: the map's room and the keys that
may still need a slot shrink with the free slots. -/
theorem Tracks.claim {k : K} {v : V} {i : Nat} (h : Tracks M T closed (.update k v :: ops))
    (hdest : T.dest closed k = some i) (hmiss : T.hit k = none) (hfree : T.firstFree = some i)
    (htakes : M.Takes k) : Tracks (M.insert k v htakes) (T.put i k v) closed ops := by
  have hget : T.get k = M.get k := h.get (.update k v) (by simp)
  have hnew : k ∉ M.keys :=
    BoundedMap.not_mem_keys_of_get (hget.symm.trans (SlotTable.get_eq_none.mpr hmiss))
  have hcard : (M.insert k v htakes).keys.card = M.keys.card + 1 :=
    Finset.card_insert_of_notMem hnew
  have hroom : (M.insert k v htakes).room + 1 = M.room := by
    have := (M.insert k v htakes).card_le
    simp only [BoundedMap.room] at *
    omega
  have hfrees := SlotTable.card_frees_put_free (k := k) (v := v) hfree
  have hshrink : newKeys (M.insert k v htakes) ops ⊂ newKeys M (.update k v :: ops) := by
    refine Finset.ssubset_iff_subset_ne.mpr ⟨fun k' hk' => ?_, fun heq => ?_⟩
    · simp only [newKeys, BoundedMap.insert, Finset.mem_sdiff, List.mem_toFinset,
        Finset.mem_insert, not_or] at hk'
      simp only [newKeys, Finset.mem_sdiff, List.mem_toFinset, List.map_cons, List.mem_cons]
      exact ⟨.inr hk'.1, hk'.2.2⟩
    · have hin : k ∈ newKeys M (.update k v :: ops) := by simp [newKeys, MapOp.key, hnew]
      rw [← heq] at hin
      simp [newKeys, BoundedMap.insert] at hin
  have hlt := Finset.card_lt_card hshrink
  refine ⟨fun o ho => ?_, ?_, ?_, fun hclosed => ?_⟩
  · rw [SlotTable.get_put hdest]
    simp only [BoundedMap.insert, Function.update_apply, h.tail.get o ho]
  · have := h.free_le
    omega
  · rcases h.enough with heq | hle
    · exact .inl (by omega)
    · exact .inr (by omega)
  · have := h.closed hclosed
    omega

/-- The table answers an operation as the map does, and goes on tracking it. -/
theorem Tracks.step (h : Tracks M T closed (op :: ops)) :
    (T.step closed op).1 = (M.step op).1 ∧
      Tracks (M.step op).2 (T.step closed op).2 closed ops := by
  cases op with
  | lookup k =>
    have hget : T.get k = M.get k := h.get (.lookup k) (by simp)
    exact ⟨congrArg MapResult.found hget, h.tail⟩
  | update k v =>
    have hiff := h.dest_isSome
    by_cases htakes : M.Takes k
    · obtain ⟨i, hdest⟩ := Option.isSome_iff_exists.mp (hiff.mpr htakes)
      simp only [SlotTable.step, BoundedMap.step, hdest, dif_pos htakes, Option.isSome_some,
        Option.elim_some, true_and]
      rcases SlotTable.dest_eq_some hdest with hhit | ⟨hmiss, _, hfree⟩
      · exact h.overwrite hhit htakes
      · exact h.claim hdest hmiss hfree htakes
    · have hnone : T.dest closed k = none := by
        simpa [htakes] using hiff
      simp only [SlotTable.step, BoundedMap.step, hnone, dif_neg htakes, Option.isSome_none,
        Option.elim_none, true_and]
      exact h.tail

/-- The table answers the whole run as the map does. -/
theorem Tracks.run (h : Tracks M T closed ops) : T.run closed ops = M.run ops := by
  induction ops generalizing M T with
  | nil => rfl
  | cons op ops ih =>
    obtain ⟨hres, hnext⟩ := h.step
    rw [SlotTable.run, BoundedMap.run, hres, ih hnext]

end Tracks

/-! ## One table for two runs -/

namespace SlotTable

/-- The table of `n` slots that holds the entries, its other slots free. -/
def ofEntries (n : Nat) (E : List (K × V)) : SlotTable K V :=
  ⟨n, fun i => if i < n then E[i]?.elim .free fun e => .entry e.1 e.2 else .dead⟩

variable {n i : Nat} {E : List (K × V)} {k : K} {v : V}

theorem ofEntries_slot (hlen : E.length ≤ n) (hi : i < E.length) :
    (ofEntries n E).slot i = .entry E[i].1 E[i].2 := by
  have hin : i < n := by omega
  simp [ofEntries, hin, List.getElem?_eq_getElem hi]

theorem ofEntries_slot_free (hi : i < n) (hout : E.length ≤ i) :
    (ofEntries n E).slot i = .free := by
  simp [ofEntries, hi, List.getElem?_eq_none hout]

theorem ofEntries_append (hlen : E.length < n) :
    ofEntries n (E ++ [(k, v)]) = (ofEntries n E).put E.length k v := by
  refine congrArg (SlotTable.mk n) (funext fun i => ?_)
  by_cases hi : i = E.length
  · subst hi
    simp [hlen]
  · rw [if_neg hi]
    by_cases hlt : i < E.length
    · simp [ofEntries, List.getElem?_append_left hlt]
    · have hout : (E ++ [(k, v)]).length ≤ i := by simp; omega
      simp [ofEntries, List.getElem?_eq_none hout, List.getElem?_eq_none (Nat.le_of_not_lt hlt)]

theorem card_frees_ofEntries (hlen : E.length ≤ n) :
    (ofEntries n E).frees.card = n - E.length := by
  have hfrees : (ofEntries n E).frees = Finset.Ico E.length n := by
    ext i
    rw [mem_frees, Finset.mem_Ico, and_comm]
    refine and_congr_left fun (hi : i < n) => ?_
    by_cases hlt : i < E.length
    · simp [ofEntries_slot hlen hlt, hlt]
    · simp [ofEntries_slot_free hi (Nat.le_of_not_lt hlt), Nat.le_of_not_lt hlt]
  rw [hfrees, Nat.card_Ico]

variable [DecidableEq K]

theorem ofEntries_get_none (hlen : E.length ≤ n) (h : k ∉ E.map Prod.fst) :
    (ofEntries n E).get k = none := by
  refine get_eq_none.mpr (hit_eq_none.mpr fun i (hi : i < n) => ?_)
  by_cases hlt : i < E.length
  · rw [ofEntries_slot hlen hlt, Slot.holds_entry, decide_eq_false]
    rintro rfl
    exact h (List.mem_map_of_mem (List.getElem_mem hlt))
  · rw [ofEntries_slot_free hi (Nat.le_of_not_lt hlt), Slot.holds_free]

theorem ofEntries_get (hlen : E.length ≤ n) (hnodup : (E.map Prod.fst).Nodup) (h : (k, v) ∈ E) :
    (ofEntries n E).get k = some v := by
  obtain ⟨i, hi, hei⟩ := List.getElem_of_mem h
  have hslot := ofEntries_slot hlen hi
  rw [hei] at hslot
  have hhit : (ofEntries n E).hit k = some i := by
    refine hit_eq_some.mpr ⟨by simp [hslot], Nat.lt_of_lt_of_le hi hlen, fun j hj => ?_⟩
    rw [ofEntries_slot hlen (by omega), Slot.holds_entry, decide_eq_false]
    -- no two entries share a key
    intro heq
    have hij := (List.nodup_iff_injective_get.mp hnodup).eq_iff
      (a := ⟨j, by simp; omega⟩) (b := ⟨i, by simpa using hi⟩)
    simp only [List.get_eq_getElem, List.getElem_map, heq, hei, Fin.mk.injEq, true_iff] at hij
    omega
  rw [get, hhit, Option.bind_some, hslot, Slot.value_entry]

end SlotTable

section Initial

variable {cap n : Nat} {M : BoundedMap K V cap} {E : List (K × V)} {named : Finset K}
  {ops ops₁ ops₂ : List (MapOp K V)}

/-- Entries of the map at given keys. -/
theorem BoundedMap.exists_entries (ks : List K) (h : ∀ k ∈ ks, k ∈ M.keys) :
    ∃ E : List (K × V), E.map Prod.fst = ks ∧ ∀ e ∈ E, M.get e.1 = some e.2 := by
  induction ks with
  | nil => exact ⟨[], rfl, by simp⟩
  | cons k ks ih =>
    obtain ⟨E, hkeys, hE⟩ := ih fun k' hk' => h k' (by simp [hk'])
    obtain ⟨v, hv⟩ := Option.isSome_iff_exists.mp ((M.mem_keys k).mp (h k (by simp)))
    exact ⟨(k, v) :: E, by rw [List.map_cons, hkeys], by simpa [hv] using hE⟩

variable [DecidableEq K]

/-- A table of entries of the map tracks it on a run that names few keys: the table holds
the entries at these keys, and has as many free slots as the map has room for, or at least
as many as there are slots beyond those entries. -/
theorem tracks_ofEntries (hlen : E.length ≤ n) (hnodup : (E.map Prod.fst).Nodup)
    (hE : ∀ e ∈ E, M.get e.1 = some e.2) (hnamed : named ∩ M.keys ⊆ (E.map Prod.fst).toFinset)
    (hfree : n - E.length = min M.room (n - (named ∩ M.keys).card)) (hcard : named.card ≤ n)
    (hops : (ops.map MapOp.key).toFinset ⊆ named) :
    Tracks M (.ofEntries n E) (decide (M.room = 0)) ops where
  get op hop := by
    have hin : op.key ∈ named := hops (by simpa using ⟨op, hop, rfl⟩)
    cases hget : M.get op.key with
    | none =>
      refine SlotTable.ofEntries_get_none hlen fun hmem => ?_
      obtain ⟨e, he, heq⟩ := List.mem_map.mp hmem
      rw [← heq, hE e he] at hget
      cases hget
    | some v =>
      have hmem := hnamed (Finset.mem_inter.mpr ⟨hin, BoundedMap.mem_keys_of_get hget⟩)
      obtain ⟨⟨k, w⟩, he, heq⟩ := List.mem_map.mp (List.mem_toFinset.mp hmem)
      obtain rfl : k = op.key := heq
      have hw : w = v := Option.some.inj ((hE _ he).symm.trans hget)
      exact SlotTable.ofEntries_get hlen hnodup (hw ▸ he)
  free_le := by
    rw [SlotTable.card_frees_ofEntries hlen]
    omega
  enough := by
    rw [SlotTable.card_frees_ofEntries hlen]
    have hnew : (newKeys M ops).card ≤ (named \ M.keys).card :=
      Finset.card_le_card (Finset.sdiff_subset_sdiff hops (Finset.Subset.refl _))
    have hsplit := Finset.card_inter_add_card_sdiff named M.keys
    omega
  closed := by simp

/-- For any map of more entries than the table has slots, and any two runs that perform no
more operations together than that, one table of entries of the map tracks it on both. -/
theorem exists_tracking (M : BoundedMap K V cap) (hn : n ≤ cap)
    (h : ops₁.length + ops₂.length ≤ n) :
    ∃ E : List (K × V), E.length ≤ n ∧ (∀ e ∈ E, M.get e.1 = some e.2) ∧
      Tracks M (.ofEntries n E) (decide (M.room = 0)) ops₁ ∧
      Tracks M (.ofEntries n E) (decide (M.room = 0)) ops₂ := by
  set named := ((ops₁ ++ ops₂).map MapOp.key).toFinset with hnamed
  have hcard : named.card ≤ n := by
    have hle : named.card ≤ ((ops₁ ++ ops₂).map MapOp.key).length := List.toFinset_card_le _
    rw [List.length_map, List.length_append] at hle
    omega
  have hinter : (named ∩ M.keys).card ≤ named.card := Finset.card_le_card Finset.inter_subset_left
  have hinter' : (named ∩ M.keys).card ≤ M.keys.card :=
    Finset.card_le_card Finset.inter_subset_right
  have hcap := M.card_le
  have hroom : M.room = cap - M.keys.card := rfl
  -- the keys held: those named, and others of the map in the slots that must not be free
  obtain ⟨S, hsub, hsup, hS⟩ := Finset.exists_subsuperset_card_eq
    (n := n - min M.room (n - (named ∩ M.keys).card)) (Finset.inter_subset_right)
    (show (named ∩ M.keys).card ≤ _ by omega) (show _ ≤ M.keys.card by omega)
  obtain ⟨E, hkeys, hE⟩ := BoundedMap.exists_entries S.toList fun k hk =>
    hsup (Finset.mem_toList.mp hk)
  have hlen : E.length = S.card := by
    rw [← List.length_map (f := Prod.fst), hkeys, Finset.length_toList]
  have htracks : ∀ {ops : List (MapOp K V)}, (ops.map MapOp.key).toFinset ⊆ named →
      Tracks M (.ofEntries n E) (decide (M.room = 0)) ops := fun hops =>
    tracks_ofEntries (by omega) (by rw [hkeys]; exact S.nodup_toList) hE
      (by rwa [hkeys, Finset.toList_toFinset]) (by omega) hcard hops
  refine ⟨E, by omega, hE, htracks ?_, htracks ?_⟩
  · rw [hnamed, List.map_append, List.toFinset_append]
    exact Finset.subset_union_left
  · rw [hnamed, List.map_append, List.toFinset_append]
    exact Finset.subset_union_right

end Initial

end Slots
