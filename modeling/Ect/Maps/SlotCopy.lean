-- SUMMARY: What the update of a slot leaves in the map's region: the tag, the presence byte and the value.
import Ect.Maps.SlotScan

/-!
# Writing a slot

`ValuePassed` says which value an update passes: the bytes `r3` points at when the call is
reached. Each of the three shapes of a copy writes those bytes at the destination, and an
arm writes one slot of the map's table.
-/

namespace Ect

open LittleEndian Ranges Slots

variable {c : Config} {len : Nat → Nat} {σ σ' : State} {t t' : Translator} {ops : List Op}
  {kw : Width} {mr : MapRef} {vp : RegInfo} {R : Nat → Byte} {v : List Byte}

/-! ## Bytes written to a region -/

/-- The regions after the bytes are written to region `r` at `off`. -/
def memPut (mem : Nat → Nat → Cell) (r off : Nat) (bs : List Byte) : Nat → Nat → Cell :=
  fun r' => if r' = r then writeCells (mem r) off (bs.map some) else mem r'

section MemPut

variable {mem : Nat → Nat → Cell} {r r' off x : Nat} {bs xs ys : List Byte}

theorem memPut_of_ne (h : r' ≠ r) : memPut mem r off bs r' = mem r' := if_neg h

theorem memPut_out (h : r' = r → x < off ∨ off + bs.length ≤ x) :
    memPut mem r off bs r' x = mem r' x := by
  unfold memPut
  split
  · rename_i heq
    rw [heq]
    exact writeCells_out (by simpa using h heq)
  · rfl

theorem memPut_in {i : Nat} (hi : i < bs.length) : memPut mem r off bs r (off + i) = some bs[i] := by
  have hlen : i < (bs.map some).length := by simpa using hi
  rw [memPut, if_pos rfl, writeCells_in hlen, List.getElem_map]

@[simp] theorem memPut_nil : memPut mem r off [] = mem := by
  funext r' x
  exact memPut_out fun _ => by simp only [List.length_nil]; omega

/-- Two writes in a row are one. -/
theorem memPut_append :
    memPut (memPut mem r off xs) r (off + xs.length) ys = memPut mem r off (xs ++ ys) := by
  funext r' x
  by_cases hr : r' = r
  · subst hr
    by_cases hlo : x < off
    · rw [memPut_out fun _ => by omega, memPut_out fun _ => by omega, memPut_out fun _ => by omega]
    obtain ⟨i, rfl⟩ := Nat.exists_eq_add_of_le (Nat.le_of_not_lt hlo)
    by_cases hx : i < xs.length
    · rw [memPut_out fun _ => by omega, memPut_in hx,
        memPut_in (by rw [List.length_append]; omega), List.getElem_append_left hx]
    obtain ⟨j, rfl⟩ := Nat.exists_eq_add_of_le (Nat.le_of_not_lt hx)
    by_cases hy : j < ys.length
    · rw [← Nat.add_assoc, memPut_in hy, Nat.add_assoc,
        memPut_in (by rw [List.length_append]; omega), List.getElem_append_right (by omega)]
      simp
    · rw [memPut_out fun _ => by omega, memPut_out fun _ => by omega,
        memPut_out fun _ => by rw [List.length_append]; omega]
  · rw [memPut_of_ne hr, memPut_of_ne hr, memPut_of_ne hr]

/-- A region of bytes stays one. -/
theorem State.Holds.put (h : σ.Holds mr R) (hmem : σ'.mem = memPut σ.mem mr.region off bs) :
    σ'.Holds mr (putBytes R off bs) := by
  intro x hx
  rw [hmem]
  by_cases hin : off ≤ x ∧ x < off + bs.length
  · obtain ⟨i, rfl⟩ := Nat.exists_eq_add_of_le hin.1
    rw [memPut_in (by omega), putBytes_in (by omega)]
  · rw [memPut_out fun _ => by omega, putBytes_out (by omega), h x hx]

theorem store_mem {w : Width} {a val : Operand} {n : Nat} (ha : a.eval σ .w64 = some off)
    (hv : val.eval σ w = some n) (hlen : off + w.bytes ≤ len r) :
    ((Op.store w r a val).eval len σ).mem = memPut σ.mem r off (leBytes w.bytes n) := by
  simp only [Op.eval, ha, hlen, if_true, hv]
  rfl

theorem store_hdr {w : Width} {a val : Operand} {k : Nat} :
    ((Op.store w r a val).eval len σ).hdr k = σ.hdr k :=
  Op.Writes.hdr (T := fun _ => False) (Op.writes_store.mpr trivial) len σ id

end MemPut

/-! ## The value -/

/-- The call passes the value `v` in the state `σ`: the slot of the frame `r3` points at
holds it at the value's width, or the bytes of the region from `r3` on are it. -/
inductive ValuePassed (c : Config) (t : Translator) (len : Nat → Nat) (σ : State) (vp : RegInfo)
    (v : List Byte) : Prop where
  | stack {sh n : Nat} (htag : vp.tag = .stack) (hsh : t.stackHdrOf (-vp.off).toNat = some sh)
      (hval : σ.hdr sh = .int (widthName v.length) n) (hv : v = leBytes v.length n)
  | region {off : Nat} (htag : vp.tag ≠ .stack) (hoff : σ.hdr (hReg 3) = .int .w64 off)
      (hin : off + v.length ≤ len (regionOf c.maps vp)) (hlt : off + v.length ≤ 2 ^ 64)
      (hbs : readCells (σ.mem (regionOf c.maps vp)) off v.length = some v)

theorem ValuePassed.grows (h : ValuePassed c t len σ vp v) (hg : t.Grows t') :
    ValuePassed c t' len σ vp v := by
  cases h with
  | stack htag hsh hval hv => exact .stack htag (hg.keeps hsh) hval hv
  | region htag hoff hin hlt hbs => exact .region htag hoff hin hlt hbs

/-- The source of the value, where it is in the map's own region, is the destination or
meets no cell that satisfies `W`. -/
def SourceApart (c : Config) (mr : MapRef) (σ : State) (vp : RegInfo) (dst : Nat)
    (W : Nat → Prop) : Prop :=
  vp.tag ≠ .stack → regionOf c.maps vp = mr.region → ∀ off, σ.hdr (hReg 3) = .int .w64 off →
    off = dst ∨ ∀ x, off ≤ x → x < off + mr.mi.valueSize → ¬W x

/-- What the call passes depends on the header of the slot, or on `r3` and the cells it
points at. -/
theorem ValuePassed.congr (h : ValuePassed c t len σ vp v)
    (hstack : ∀ slot sh, t.stackHdrOf slot = some sh → σ'.hdr sh = σ.hdr sh)
    (hreg : σ'.hdr (hReg 3) = σ.hdr (hReg 3))
    (hmem : vp.tag ≠ .stack → ∀ off, σ.hdr (hReg 3) = .int .w64 off → ∀ x, off ≤ x →
      x < off + v.length → σ'.mem (regionOf c.maps vp) x = σ.mem (regionOf c.maps vp) x) :
    ValuePassed c t len σ' vp v := by
  cases h with
  | stack htag hsh hval hv => exact .stack htag hsh ((hstack _ _ hsh).trans hval) hv
  | region htag hoff hin hlt hbs =>
    exact .region htag (hreg.trans hoff) hin hlt ((readCells_congr (hmem htag _ hoff)).trans hbs)

/-- A write beside the source leaves the value as it was. -/
theorem ValuePassed.put {off dst : Nat} {bs : List Byte} {W : Nat → Prop}
    (h : ValuePassed c t len σ vp v) (hv : v.length = mr.mi.valueSize)
    (hmem : σ'.mem = memPut σ.mem mr.region off bs) (hhdr : ∀ k, σ'.hdr k = σ.hdr k)
    (hapart : SourceApart c mr σ vp dst W)
    (hdst : off + bs.length ≤ dst ∨ dst + v.length ≤ off)
    (hW : ∀ x, off ≤ x → x < off + bs.length → W x) : ValuePassed c t len σ' vp v := by
  refine h.congr (fun _ _ _ => hhdr _) (hhdr _) fun htag src hsrc x hlo hhi => ?_
  rw [hmem]
  refine memPut_out fun hr => ?_
  rcases hapart htag hr src hsrc with rfl | hout
  · omega
  · by_contra hcon
    exact hout x hlo (by omega) (hW x (by omega) (by omega))

theorem SourceApart.congr {dst : Nat} {W : Nat → Prop} (h : SourceApart c mr σ vp dst W)
    (hreg : σ'.hdr (hReg 3) = σ.hdr (hReg 3)) : SourceApart c mr σ' vp dst W :=
  fun htag hr off hoff => h htag hr off (hreg ▸ hoff)

/-! ## The copy -/

/-- One byte of a copy. -/
theorem copyByte_mem {src r tSa tDa tB j off d : Nat} {b : Byte} (hsd : tSa ≠ tDa) (hdb : tDa ≠ tB)
    (hoff : σ.hdr (hReg 3) = .int .w64 off) (hsrc : off + j < 2 ^ 64) (hdst : d + j < 2 ^ 64)
    (hlen : off + j + 1 ≤ len src) (hlen' : d + j + 1 ≤ len r)
    (hb : σ.mem src (off + j) = some b) :
    (runOps len σ
      [.stateless .add .w64 (hdr (hReg 3)) (konstN j) tSa,
        .stateless .add .w64 (konstN d) (konstN j) tDa,
        .load .w8 src (hdr tSa) tB, .store .w8 r (hdr tDa) (hdr tB)]).mem =
      memPut σ.mem r (d + j) [b] := by
  have hkonst : ∀ {n : Nat} {τ : State}, n < 2 ^ 64 → (konstN n).eval τ .w64 = some n := fun hn =>
    Operand.eval_konstN (w := .w64) hn
  rw [runOps_cons, Op.eval_stateless (Operand.eval_hdr hoff) (hkonst (by omega)), runOps_cons,
    Op.eval_stateless (hkonst (by omega)) (hkonst (by omega))]
  simp only [BinOp.eval, Width.bits_w64, Nat.mod_eq_of_lt hsrc, Nat.mod_eq_of_lt hdst]
  set τ := (σ.setHdr tSa (.int .w64 (off + j))).setHdr tDa (.int .w64 (d + j)) with hτ
  have hload : (Op.load .w8 src (hdr tSa) tB).eval len τ =
      (τ.addLog ⟨false, src, off + j, 1⟩).setHdr tB (.int .w8 (leNat [b])) :=
    load_eval (Operand.eval_hdr (by simp [hτ, hsd])) hlen (by simp [readCells, hτ, hb])
  set τ' := (τ.addLog ⟨false, src, off + j, 1⟩).setHdr tB (.int .w8 (leNat [b])) with hτ'
  have hda : (hdr tDa).eval τ' .w64 = some (d + j) :=
    Operand.eval_hdr (by simp [hτ', hτ, hdb])
  have hval : (hdr tB).eval τ' .w8 = some (leNat [b]) := Operand.eval_hdr (by simp [hτ'])
  rw [runOps_cons, hload, runOps_cons, runOps_nil, store_mem hda hval hlen']
  simp [hτ', hτ]

/-- A byte-wise copy from the `j`-th byte on, when the source still holds each byte as it
is reached. -/
theorem copyBytes_mem {src r n off d : Nat} {mem : Nat → Nat → Cell}
    (hsrc : off + v.length ≤ 2 ^ 64) (hdst : d + v.length ≤ 2 ^ 64)
    (hlen : off + v.length ≤ len src) (hlen' : d + v.length ≤ len r)
    (hstill : ∀ j (hj : j < v.length), memPut mem r d (v.take j) src (off + j) = some v[j])
    {m j : Nat} (hm : j + m = v.length) (hoff : σ.hdr (hReg 3) = .int .w64 off)
    (hmem : σ.mem = memPut mem r d (v.take j)) :
    (runOps len σ (copyBytesOps src r (konstN d) (hTmp n) (hTmp (n + 1)) (hTmp (n + 2))
      (List.range' j m))).mem = memPut mem r d v := by
  induction m generalizing j σ with
  | zero =>
    obtain rfl : j = v.length := hm
    simpa [copyBytesOps] using hmem
  | succ m ih =>
    have hj : j < v.length := by omega
    have hbyte := @copyByte_mem len σ src r (hTmp n) (hTmp (n + 1)) (hTmp (n + 2)) j off d v[j]
      (by simp [hTmp_inj]) (by simp [hTmp_inj]) hoff (by omega) (by omega) (by omega) (by omega)
      (by rw [hmem, hstill j hj])
    set byteOps : List Op := [.stateless .add .w64 (hdr (hReg 3)) (konstN j) (hTmp n),
      .stateless .add .w64 (konstN d) (konstN j) (hTmp (n + 1)),
      .load .w8 src (hdr (hTmp n)) (hTmp (n + 2)),
      .store .w8 r (hdr (hTmp (n + 1))) (hdr (hTmp (n + 2)))] with hops
    have hcons : copyBytesOps src r (konstN d) (hTmp n) (hTmp (n + 1)) (hTmp (n + 2))
        (List.range' j (m + 1)) = byteOps ++ copyBytesOps src r (konstN d) (hTmp n) (hTmp (n + 1))
          (hTmp (n + 2)) (List.range' (j + 1) m) := by
      simp [copyBytesOps, List.range'_succ, hops]
    have hwrites : AllWrite (IsCopyTmp n) byteOps := by simp [hops, IsCopyTmp]
    rw [hcons, runOps_append]
    refine ih (by omega) ?_ ?_
    · exact (runOps_hdr hwrites len σ (not_isCopyTmp_hReg 3)).trans hoff
    · have htake : (v.take j).length = j := by rw [List.length_take]; omega
      have happend := @memPut_append mem r d (v.take j) [v[j]]
      rw [htake, List.take_append_getElem] at happend
      rw [hbyte, hmem, happend]

/-- An accepted copy to a constant offset writes the value there. -/
theorem ValueCopy.mem {d : Nat} {W : Nat → Prop} (h : ValueCopy c t vp mr (konstN d) t' ops)
    (hv : v.length = mr.mi.valueSize) (hpass : ValuePassed c t len σ vp v)
    (hapart : SourceApart c mr σ vp d W) (hW : ∀ x, d ≤ x → x < d + v.length → W x)
    (hin : d + v.length ≤ len mr.region) (hd : d + v.length < 2 ^ 64) :
    (runOps len σ ops).mem = memPut σ.mem mr.region d v := by
  have hdst : ∀ τ : State, (konstN d).eval τ .w64 = some d := fun _ =>
    Operand.eval_konstN (w := .w64) (by rw [Width.bits_w64]; omega)
  cases h with
  | stack htag hsize _ _ _ hsh hgrows _ =>
    cases hpass with
    | region htag' => exact absurd htag htag'
    | stack _ hsh' hval hbytes =>
      obtain rfl := Option.some.inj (hsh.symm.trans (hgrows.keeps hsh'))
      have hw := widthName_bytes hsize
      rw [← hv] at hw ⊢
      rw [runOps_cons, runOps_nil, store_mem (hdst σ) (Operand.eval_hdr hval) (by omega), hw,
        ← hbytes]
  | wide htag _ hsize =>
    cases hpass with
    | stack htag' => exact absurd htag' htag
    | @region off _ hoff hlen _ hbs =>
      have hw := widthName_bytes hsize
      rw [← hv] at hw ⊢
      have hload : (Op.load (widthName v.length) (regionOf c.maps vp) (hdr (hReg 3))
          (hTmp t.tmpNext)).eval len σ = (σ.addLog ⟨false, regionOf c.maps vp, off,
            (widthName v.length).bytes⟩).setHdr (hTmp t.tmpNext)
              (.int (widthName v.length) (leNat v)) :=
        load_eval (Operand.eval_hdr hoff) (by omega) (by rw [hw, hbs])
      rw [runOps_cons, hload, runOps_cons, runOps_nil, store_mem (hdst _)
        (Operand.eval_hdr ((State.setHdr_hdr _ _ _ _).trans (if_pos rfl))) (by omega), hw,
        leBytes_leNat]
      rfl
  | bytes htag _ _ _ _ hops =>
    cases hpass with
    | stack htag' => exact absurd htag' htag
    | @region off _ hoff hlen hlt hbs =>
      obtain ⟨_, rfl⟩ := emitCopyBytes_accepts hops
      rw [← hv, List.range_eq_range']
      refine copyBytes_mem hlt (by omega) hlen hin (fun j hj => ?_) (Nat.zero_add _) hoff (by simp)
      -- the bytes written so far are not the one read next
      rw [memPut_out fun hr => ?_]
      · exact readCells_getElem hbs hj
      · rw [List.length_take]
        rcases hapart htag hr off hoff with rfl | hout
        · omega
        · by_contra hcon
          exact hout (off + j) (by omega) (by omega) (hW _ (by omega) (by omega))

/-! ## The arm of a slot -/

/-- The cell belongs to slot `i`. -/
def MapInfo.InSlot (mi : MapInfo) (i x : Nat) : Prop :=
  ∃ p : Part, p.Of mi ∧ p.OfSlot i ∧ (p.range mi).Contains x

section Slot

variable {i key tTag : Nat} {copy : List Op}

/-- What a slot's arm leaves: the region's new bytes, the other regions as they were, and 0
in `r0`. -/
structure Wrote (mr : MapRef) (R' : Nat → Byte) (σ σ' : State) : Prop where
  holds : σ'.Holds mr R'
  other : ∀ r, r ≠ mr.region → σ'.mem r = σ.mem r
  result : σ'.hdr (hReg 0) = .int .w64 0

theorem Part.contains_inSlot {mi : MapInfo} {p : Part} (hp : p.Of mi) (hslot : p.OfSlot i) {x : Nat}
    (hlo : (p.range mi).off ≤ x) (hhi : x < (p.range mi).off + (p.range mi).size) :
    mi.InSlot i x := ⟨p, hp, hslot, hlo, hhi⟩

/-- The copy of an arm, and the 0 it returns. -/
theorem copyOps_wrote (ha : Addressable len mr) (hi : i < mr.mi.nslots) (hR : σ.Holds mr R)
    (hcopy : ValueCopy c t vp mr (konstN (mr.mi.valueOff i)) t' copy)
    (hv : v.length = mr.mi.valueSize) (hpass : ValuePassed c t len σ vp v)
    (hapart : SourceApart c mr σ vp (mr.mi.valueOff i) (mr.mi.InSlot i)) :
    Wrote mr (putBytes R (mr.mi.valueOff i) v) σ (runOps len σ (copy ++ [setOp (hReg 0) 0])) := by
  have hend : mr.mi.valueOff i + mr.mi.valueSize ≤ mr.mi.length :=
    Part.end_le (p := .value i) hi
  have hlen := ha.len
  have hlt := ha.lt
  have hmem := hcopy.mem hv hpass hapart
    (fun x hlo hhi => Part.contains_inSlot (p := .value i) hi rfl hlo (by rwa [hv] at hhi))
    (by omega) (by omega)
  have hset : (setOp (hReg 0) 0).eval len (runOps len σ copy) =
      (runOps len σ copy).setHdr (hReg 0) (.int .w64 0) := setOp_eval (v := 0) (by decide)
  rw [runOps_append, runOps_cons, runOps_nil, hset]
  refine ⟨hR.put hmem, fun r hr => ?_, by simp⟩
  rw [State.setHdr_mem, hmem, memPut_of_ne hr]

/-- The arm of a slot that holds the key, or that is claimed for it. -/
theorem slotOps_wrote {insert : Bool} (hsize : keySizeModelled mr.mi = true)
    (htag : mr.mi.tagged = true) (ha : Addressable len mr) (hi : i < mr.mi.nslots)
    (hR : σ.Holds mr R)
    (htTag : σ.hdr tTag = .int (widthName mr.mi.keySize) key)
    (hhit : insert = false → ((mr.mi.table R).slot i).holds key = true)
    (hcopy : ValueCopy c t vp mr (konstN (mr.mi.valueOff i)) t' copy)
    (hv : v.length = mr.mi.valueSize) (hpass : ValuePassed c t len σ vp v)
    (hapart : SourceApart c mr σ vp (mr.mi.valueOff i) (mr.mi.InSlot i)) :
    Wrote mr (mr.mi.writeSlot R i key v) σ
      (runOps len σ (slotOps mr (widthName mr.mi.keySize) tTag insert i copy)) := by
  cases insert with
  | false =>
    rw [MapInfo.writeSlot_of_holds hi (hhit rfl)]
    exact copyOps_wrote ha hi hR hcopy hv hpass hapart
  | true =>
    have hbytes := widthName_bytes hsize
    have hlen := ha.len
    have hlt := ha.lt
    have hpt : (Part.tag i).Of mr.mi := ⟨htag, hi⟩
    have hpp : (Part.presence i).Of mr.mi := hi
    have hpv : (Part.value i).Of mr.mi := hi
    have hendTag := Part.end_le hpt
    have hendPres := Part.end_le hpp
    have htagApart := Part.disjoint hpt hpv (by simp)
    have hpresApart := Part.disjoint hpp hpv (by simp)
    simp only [Part.range, Range.Disjoint] at hendTag hendPres htagApart hpresApart
    -- the tag
    set σ₁ := (Op.store (widthName mr.mi.keySize) mr.region (konstN (mr.mi.tagOff i))
      (hdr tTag)).eval len σ with hσ₁
    have hmem₁ : σ₁.mem = memPut σ.mem mr.region (mr.mi.tagOff i) (leBytes mr.mi.keySize key) := by
      rw [hσ₁, store_mem (Operand.eval_konstN (w := .w64) (by rw [Width.bits_w64]; omega))
        (Operand.eval_hdr htTag) (by omega), hbytes]
    have hhdr₁ : ∀ k, σ₁.hdr k = σ.hdr k := fun _ => store_hdr
    have hpass₁ := hpass.put hv hmem₁ hhdr₁ hapart (by rw [leBytes_length, hv]; exact htagApart)
      fun x hlo hhi => Part.contains_inSlot hpt rfl hlo (by rwa [leBytes_length] at hhi)
    -- the presence byte
    set σ₂ := (Op.store .w8 mr.region (konstN i) (konst 1)).eval len σ₁ with hσ₂
    have hmem₂ : σ₂.mem = memPut σ₁.mem mr.region i [1] :=
      store_mem (n := 1) (Operand.eval_konstN (w := .w64) (by rw [Width.bits_w64]; omega))
        (Operand.eval_konst 1) (by rw [Width.bytes_w8]; omega)
    have hhdr₂ : ∀ k, σ₂.hdr k = σ₁.hdr k := fun _ => store_hdr
    have hpass₂ := hpass₁.put hv hmem₂ hhdr₂ (hapart.congr (hhdr₁ _))
      (by rw [hv]; exact hpresApart)
      fun x hlo hhi => Part.contains_inSlot hpp rfl hlo hhi
    have hwrote := copyOps_wrote ha hi ((hR.put hmem₁).put hmem₂) hcopy hv hpass₂
      ((hapart.congr (hhdr₁ _)).congr (hhdr₂ _))
    have hops : runOps len σ (slotOps mr (widthName mr.mi.keySize) tTag true i copy) =
        runOps len σ₂ (copy ++ [setOp (hReg 0) 0]) := by simp [slotOps, hσ₁, hσ₂]
    rw [hops]
    refine ⟨hwrote.holds, fun r hr => ?_, hwrote.result⟩
    rw [hwrote.other r hr, hmem₂, memPut_of_ne hr, hmem₁, memPut_of_ne hr]

end Slot

end Ect
