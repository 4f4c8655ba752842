-- SUMMARY: What the translator emits does not depend on the order in which an object declares its maps.
import Ect.Object.Driver

/-!
# Declaration order

Regions are numbered by the place of a map in the sorted list, so the order of the symbols of
the legacy section, or of the variables of the BTF section, must not be seen behind the sort.
A relocation names its map by a symbol, which is looked up in the sorted list.
-/

namespace Ect

open LittleEndian Struct

/-! ## Discovery -/

/-- Maps of different names that fit are all taken, in the order they are declared. -/
theorem foldl_declare {slots : Nat} {ds : List MapDef} {maps : List MapInfo} {diags : List String}
    (hnames : (ds.map MapDef.name).Nodup) (hnew : ∀ d ∈ ds, ∀ m ∈ maps, m.name ≠ d.name)
    (hfits : maps.length + ds.length ≤ maxMaps) :
    (ds.map Except.ok).foldl (declare slots) ⟨maps, diags⟩ =
      ⟨maps ++ ds.map (MapDef.toInfo slots), diags⟩ := by
  induction ds generalizing maps with
  | nil => simp
  | cons d ds ih =>
    rw [List.map_cons, List.nodup_cons] at hnames
    rw [List.length_cons] at hfits
    have hfind : findMap maps d.name = none := by
      rw [findMap, List.findIdx?_eq_none_iff]
      exact fun m hm => decide_eq_false (hnew d (by simp) m hm)
    have hadd : declare slots ⟨maps, diags⟩ (.ok d) = ⟨maps ++ [d.toInfo slots], diags⟩ := by
      simp only [declare, addMap, hfind, Option.isSome_none, Bool.false_eq_true, if_false]
      rw [if_neg (by omega)]
    rw [List.map_cons, List.foldl_cons, hadd, ih hnames.2 ?_ (by simp; omega)]
    · simp
    · intro d' hd' m hm
      rcases List.mem_append.mp hm with hm | hm
      · exact hnew d' (List.mem_cons_of_mem _ hd') m hm
      · rw [List.mem_singleton.mp hm]
        rintro heq
        exact hnames.1 (List.mem_map.mpr ⟨d', hd', heq.symm⟩)

theorem discoverMaps_ok {slots : Nat} {ds : List MapDef} (hnames : (ds.map MapDef.name).Nodup)
    (hfits : ds.length ≤ maxMaps) :
    discoverMaps slots (ds.map Except.ok) = ⟨ds.map (MapDef.toInfo slots), []⟩ := by
  rw [discoverMaps, foldl_declare hnames (by simp) (by simpa using hfits), List.nil_append]

/-! ## The sort -/

theorem encode_injective : Function.Injective encode := by
  intro a b h
  have hbytes : a.toByteArray.data.toList = b.toByteArray.data.toList :=
    List.map_injective_iff.mpr (fun x y h => UInt8.toNat_inj.mp h) h
  exact String.toByteArray_inj.mp (ByteArray.ext (Array.toList_inj.mp hbytes))

theorem sortMaps_perm (maps : List MapInfo) : (sortMaps maps).Perm maps :=
  List.perm_insertionSort _ maps

/-- Differently named maps come out in one order. -/
theorem sortMaps_eq_of_perm {maps₁ maps₂ : List MapInfo} (h : maps₁.Perm maps₂)
    (hnames : (maps₁.map MapInfo.name).Nodup) : sortMaps maps₁ = sortMaps maps₂ := by
  have htotal : Std.Total fun a b : MapInfo => encode a.name ≤ encode b.name :=
    ⟨fun a b => le_total _ _⟩
  have htrans : IsTrans MapInfo fun a b => encode a.name ≤ encode b.name :=
    ⟨fun a b c => le_trans⟩
  have hperm : (sortMaps maps₁).Perm (sortMaps maps₂) :=
    (sortMaps_perm maps₁).trans (h.trans (sortMaps_perm maps₂).symm)
  refine hperm.eq_of_pairwise (fun a b ha hb hab hba => ?_) (List.pairwise_insertionSort _ _)
    (List.pairwise_insertionSort _ _)
  -- two maps of one name are one map
  have hname : a.name = b.name := encode_injective (le_antisymm hab hba)
  have hmem : b ∈ maps₁ := h.mem_iff.mpr ((sortMaps_perm maps₂).mem_iff.mp hb)
  exact List.inj_on_of_nodup_map hnames ((sortMaps_perm maps₁).mem_iff.mp ha) hmem hname

/-! ## Relocations -/

/-- The instruction a relocation is on and the map name it attaches, among the names that are
declared. -/
def relocName (e : Elf) (ninsns : Nat) (names : List String) (r : Nat × Nat × Nat) :
    Option (Nat × String) :=
  if r.2.2 ≠ rBpf6464 then none
  else
    match e.symbols[r.2.1]? with
    | none => none
    | some sym =>
      if sym.name ∈ names ∧ r.1 / INSN_SIZE < ninsns then some (r.1 / INSN_SIZE, sym.name)
      else none

/-- The map name attached to each instruction: the last relocation on it counts. -/
def attachedNames (e : Elf) (secIndex ninsns : Nat) (names : List String) :
    Except Exn (Nat → Option String) :=
  if e.symbols ≠ [] then do
    let rs ← e.relocations secIndex
    return (rs.filterMap (relocName e ninsns names)).foldl attach fun _ => none
  else pure fun _ => none

section Relocs

variable {e : Elf} {ninsns : Nat} {maps : List MapInfo}

theorem findMap_isSome {name : String} :
    (findMap maps name).isSome ↔ name ∈ maps.map MapInfo.name := by
  rw [findMap, List.findIdx?_isSome, List.any_eq_true]
  simp [eq_comm]

theorem relocName_declared {names : List String} {r : Nat × Nat × Nat} {p : Nat × String}
    (h : relocName e ninsns names r = some p) : p.2 ∈ names := by
  rw [relocName] at h
  split at h
  · cases h
  · split at h
    · cases h
    · split at h
      · rename_i hmem
        cases h
        exact hmem.1
      · cases h

theorem mapReloc_eq (r : Nat × Nat × Nat) : mapReloc e ninsns maps r =
    (relocName e ninsns (maps.map MapInfo.name) r).bind fun p =>
      (findMap maps p.2).map fun m => (p.1, m) := by
  rw [mapReloc, relocName]
  split
  · rfl
  · cases e.symbols[r.2.1]? with
    | none => rfl
    | some sym =>
      have hsome := @findMap_isSome maps sym.name
      dsimp only
      cases hfind : findMap maps sym.name with
      | none =>
        rw [hfind] at hsome
        rw [if_neg fun h => Bool.false_ne_true (hsome.mpr h.1)]
        rfl
      | some m =>
        rw [hfind] at hsome
        have hmem := hsome.mp rfl
        by_cases hlt : r.1 / INSN_SIZE < ninsns
        · rw [if_pos ⟨hmem, hlt⟩, Option.bind_some, hfind]
          exact if_pos hlt
        · rw [if_neg fun h => hlt h.2]
          exact if_neg hlt

theorem foldl_attach (rs : List (Nat × Nat × Nat)) {at_ : Nat → Option Nat}
    {names : Nat → Option String} (h : ∀ idx, at_ idx = (names idx).bind (findMap maps))
    (idx : Nat) :
    (rs.filterMap (mapReloc e ninsns maps)).foldl attach at_ idx =
      ((rs.filterMap (relocName e ninsns (maps.map MapInfo.name))).foldl attach names idx).bind
        (findMap maps) := by
  induction rs generalizing at_ names with
  | nil => exact h idx
  | cons r rs ih =>
    rw [List.filterMap_cons, List.filterMap_cons, mapReloc_eq]
    cases hname : relocName e ninsns (maps.map MapInfo.name) r with
    | none => exact ih h
    | some p =>
      -- a name that is attached is a declared one
      obtain ⟨m, hm⟩ : ∃ m, findMap maps p.2 = some m :=
        Option.isSome_iff_exists.mp (findMap_isSome.mpr (relocName_declared hname))
      rw [Option.bind_some, hm]
      refine ih fun i => ?_
      rw [attach, attach]
      split
      · rw [Option.bind_some, hm]
      · exact h i

theorem attachedNames_congr {secIndex : Nat} {names names' : List String}
    (h : ∀ name, name ∈ names ↔ name ∈ names') :
    attachedNames e secIndex ninsns names = attachedNames e secIndex ninsns names' := by
  have hreloc : relocName e ninsns names = relocName e ninsns names' := by
    funext r
    simp only [relocName, h]
  rw [attachedNames, attachedNames, hreloc]

/-- The map of an instruction is the one of the name attached to it. -/
theorem insnMapIdxOf_eq {secIndex : Nat} :
    insnMapIdxOf e secIndex ninsns maps =
      (attachedNames e secIndex ninsns (maps.map MapInfo.name)).map
        fun names idx => (names idx).bind (findMap maps) := by
  rw [insnMapIdxOf, attachedNames]
  split
  · rw [loadMapRelocs]
    cases e.relocations secIndex with
    | error exn => rfl
    | ok rs => exact congrArg Except.ok (funext (foldl_attach rs fun _ => rfl))
  · rfl

end Relocs

/-! ## Objects -/

/-- The file is an object whose program is the section and which declares the maps, in this
order. -/
structure Declares (limit : Nat) (blob : List Byte) (e : Elf) (s : Section)
    (defs : List MapDef) : Prop where
  elf : Elf.init blob = .ok e
  program : e.sections.find? isProgram = some s
  maps : decls limit e = .ok (defs.map Except.ok)

/-- The program that is emitted, and what is reported about it. -/
def Pass.emitted (p : Pass) : Option (Program × List String) :=
  match p.result with
  | .emitted program diags => some (program, diags)
  | .refused _ => none

/-- All of a pass but the text of a refusal, which names the section. -/
def Pass.seen (p : Pass) : List MapInfo × (Nat → Nat) × Option (Program × List String) :=
  (p.maps, p.mapSites, p.emitted)

section Objects

variable {limit : Nat} {b₁ b₂ : List Byte} {e₁ e₂ : Elf} {s₁ s₂ : Section} {ds₁ ds₂ : List MapDef}

theorem translateSection_seen {ctx : CtxLayout} {found : Discovered}
    (hinsns : sectionInsns s₁ = sectionInsns s₂)
    (hnames : attachedNames e₁ s₁.index (sectionInsns s₁).length (found.maps.map MapInfo.name) =
      attachedNames e₂ s₂.index (sectionInsns s₂).length (found.maps.map MapInfo.name)) :
    (translateSection e₁ s₁ ctx found).map Pass.seen =
      (translateSection e₂ s₂ ctx found).map Pass.seen := by
  rw [translateSection, translateSection, insnMapIdxOf_eq, insnMapIdxOf_eq, hnames, hinsns]
  split <;> rfl

theorem map_name_toInfo {slots : Nat} {ds : List MapDef} :
    (ds.map (MapDef.toInfo slots)).map MapInfo.name = ds.map MapDef.name := by
  rw [List.map_map]
  rfl

theorem sizeMaps_names {hint : Option (String → Nat)} {maps : List MapInfo} :
    (sizeMaps hint maps).map MapInfo.name = maps.map MapInfo.name := by
  cases hint with
  | none => rfl
  | some hint =>
    rw [sizeMaps, List.map_map]
    refine List.map_congr_left fun mi _ => ?_
    rw [Function.comp_apply, sizeMap]
    split <;> rfl

/-- Everything behind the sort is the same for both objects. -/
theorem runPass_seen {slots : Nat} {ctxOverride : Option CtxLayout}
    {hint : Option (String → Nat)} (h₁ : Declares limit b₁ e₁ s₁ ds₁)
    (h₂ : Declares limit b₂ e₂ s₂ ds₂) (hperm : ds₁.Perm ds₂)
    (hnames : (ds₁.map MapDef.name).Nodup) (hfits : ds₁.length ≤ maxMaps)
    (hctx : ctxLayoutFor s₁.name = ctxLayoutFor s₂.name)
    (hinsns : sectionInsns s₁ = sectionInsns s₂)
    (hattached : attachedNames e₁ s₁.index (sectionInsns s₁).length (ds₁.map MapDef.name) =
      attachedNames e₂ s₂.index (sectionInsns s₂).length (ds₂.map MapDef.name)) :
    (runPass limit ctxOverride slots hint b₁).map Pass.seen =
      (runPass limit ctxOverride slots hint b₂).map Pass.seen := by
  have hnames₂ : (ds₂.map MapDef.name).Nodup := (hperm.map _).nodup_iff.mp hnames
  have hsort : sortMaps (ds₁.map (MapDef.toInfo slots)) =
      sortMaps (ds₂.map (MapDef.toInfo slots)) :=
    sortMaps_eq_of_perm (hperm.map _) (map_name_toInfo ▸ hnames)
  -- the names of the maps behind the sort are those that are declared
  have hmem : ∀ name, name ∈ (sizeMaps hint (sortMaps (ds₂.map (MapDef.toInfo slots)))).map
      MapInfo.name ↔ name ∈ ds₂.map MapDef.name := by
    intro name
    rw [sizeMaps_names, ((sortMaps_perm _).map _).mem_iff, map_name_toInfo]
  have hmem₁ : ∀ name, name ∈ (sizeMaps hint (sortMaps (ds₂.map (MapDef.toInfo slots)))).map
      MapInfo.name ↔ name ∈ ds₁.map MapDef.name := fun name =>
    (hmem name).trans (hperm.map _).mem_iff.symm
  simp only [runPass, h₁.elf, h₂.elf, h₁.maps, h₂.maps, Bind.bind, Except.bind]
  rw [discoverMaps_ok hnames hfits, discoverMaps_ok hnames₂ (hperm.length_eq ▸ hfits)]
  simp only [hsort, runSection, h₁.program, h₂.program, hctx]
  cases ctxOverride <|> ctxLayoutFor s₂.name with
  | none => rfl
  | some ctx =>
    refine translateSection_seen hinsns ?_
    rw [attachedNames_congr hmem₁, attachedNames_congr hmem]
    exact hattached

/-- The counts are kept by name. -/
theorem probeMapSites_eq {ctxOverride : Option CtxLayout} {blob : List Byte} :
    probeMapSites limit ctxOverride blob =
      ((runPass limit ctxOverride mapMaxSlots none blob).map Pass.seen).map fun seen name =>
        ((findMap seen.1 name).map seen.2.1).getD 0 := by
  rw [probeMapSites]
  cases runPass limit ctxOverride mapMaxSlots none blob <;> rfl

/-- Two objects of one program that declare the same maps in any order are translated to the same
regions and modules, and the same is reported about them. -/
theorem declaration_order_irrelevant {ctxOverride : Option CtxLayout} {mapSlots : Option Nat}
    (h₁ : Declares limit b₁ e₁ s₁ ds₁)
    (h₂ : Declares limit b₂ e₂ s₂ ds₂) (hperm : ds₁.Perm ds₂)
    (hnames : (ds₁.map MapDef.name).Nodup) (hfits : ds₁.length ≤ maxMaps)
    (hctx : ctxLayoutFor s₁.name = ctxLayoutFor s₂.name)
    (hinsns : sectionInsns s₁ = sectionInsns s₂)
    (hattached : attachedNames e₁ s₁.index (sectionInsns s₁).length (ds₁.map MapDef.name) =
      attachedNames e₂ s₂.index (sectionInsns s₂).length (ds₂.map MapDef.name)) :
    (run limit ctxOverride mapSlots b₁).map Pass.emitted =
      (run limit ctxOverride mapSlots b₂).map Pass.emitted := by
  have hpass : ∀ slots hint, (runPass limit ctxOverride slots hint b₁).map Pass.seen =
      (runPass limit ctxOverride slots hint b₂).map Pass.seen := fun slots hint =>
    runPass_seen h₁ h₂ hperm hnames hfits hctx hinsns hattached
  have hemitted : ∀ x y : Except Exn Pass, x.map Pass.seen = y.map Pass.seen →
      x.map Pass.emitted = y.map Pass.emitted := by
    intro x y h
    have hproj := congrArg (Except.map fun seen => seen.2.2) h
    cases x <;> cases y <;> exact hproj
  cases mapSlots with
  | some n => exact hemitted _ _ (hpass _ _)
  | none =>
    simp only [run]
    rw [probeMapSites_eq, probeMapSites_eq, hpass]
    cases (runPass limit ctxOverride mapMaxSlots none b₂).map Pass.seen with
    | error exn => rfl
    | ok seen => exact hemitted _ _ (hpass _ _)

end Objects

/-! ## Two orders of one section -/

/-- `r1 = &b; exit` with a hash map `a` and an array `b`, of which either symbol comes first. -/
def twoMaps (aFirst : Bool) : List Byte :=
  let symA := pack symFmt (10, 0x11, 0, 0, 0, 20, ())
  let symB := pack symFmt (12, 0x11, 0, 0, 20, 20, ())
  let symOfB := if aFirst then 1 else 0
  pack ehdrFmt (0x464c457f, 1, 247, 1, 0, 0, 208, 0, 64, 0, 0, 64, 5, 2, ()) ++
    pack [4, 4, 4, 4, 4] (1, 4, 8, 16, 0, ()) ++ pack [4, 4, 4, 4, 4] (2, 4, 4, 2, 0, ()) ++
    pack [8, 8, 8] (0x118, 0, 0x95, ()) ++
    pack [1, 4, 5, 2, 2, 2] (0, 0x706478, 0x7370616d, 0x61, 0x62, 0, ()) ++
    (if aFirst then symA ++ symB else symB ++ symA) ++
    pack relFmt (0, symOfB * 2 ^ 32 + 1, ()) ++
    pack shdrFmt (5, 1, 3, 0, 64, 40, 0, 0, 4, 0, ()) ++
    pack shdrFmt (1, 1, 6, 0, 104, 24, 0, 0, 8, 0, ()) ++
    pack shdrFmt (0, 3, 0, 0, 128, 16, 0, 0, 1, 0, ()) ++
    pack shdrFmt (0, 2, 0, 0, 144, 48, 2, 0, 8, 24, ()) ++
    pack shdrFmt (0, 9, 0, 0, 192, 16, 3, 1, 8, 16, ())

/-- The file reads as the program, with the maps in this order and the names attached to its
instructions. -/
def readsAs (limit : Nat) (blob : List Byte) (ctx : CtxLayout) (insns : List Insn)
    (defs : List MapDef) (names : List (Nat × String)) : Bool :=
  match Elf.init blob with
  | .error _ => false
  | .ok e =>
    match e.sections.find? isProgram with
    | none => false
    | some s =>
      decide (decls limit e = .ok (defs.map Except.ok)) && decide (e.symbols ≠ []) &&
        decide (ctxLayoutFor s.name = some ctx) && decide (sectionInsns s = insns) &&
        decide ((e.relocations s.index).map
          (·.filterMap (relocName e insns.length (defs.map MapDef.name))) = .ok names)

theorem readsAs_declares {limit : Nat} {blob : List Byte} {ctx : CtxLayout} {insns : List Insn}
    {defs : List MapDef} {names : List (Nat × String)}
    (h : readsAs limit blob ctx insns defs names = true) :
    ∃ e s, Declares limit blob e s defs ∧ ctxLayoutFor s.name = some ctx ∧
      sectionInsns s = insns ∧ attachedNames e s.index (sectionInsns s).length
        (defs.map MapDef.name) = .ok (names.foldl attach fun _ => none) := by
  rw [readsAs] at h
  split at h
  · cases h
  · rename_i e he
    split at h
    · cases h
    · rename_i s hs
      simp only [Bool.and_eq_true, decide_eq_true_eq] at h
      obtain ⟨⟨⟨⟨hdecls, hsyms⟩, hctx⟩, hinsns⟩, hrel⟩ := h
      refine ⟨e, s, ⟨he, hs, hdecls⟩, hctx, hinsns, ?_⟩
      rw [attachedNames, if_pos hsyms, hinsns]
      cases hrs : e.relocations s.index with
      | error exn => rw [hrs] at hrel; cases hrel
      | ok rs =>
        rw [hrs] at hrel
        exact congrArg (fun ps => Except.ok (ps.foldl attach fun _ => none)) (Except.ok.inj hrel)

theorem twoMaps_order_irrelevant :
    (run 100 none none (twoMaps true)).map Pass.emitted =
      (run 100 none none (twoMaps false)).map Pass.emitted := by
  have htrue : readsAs 100 (twoMaps true) ctxXdpMd [⟨0x18, 1, 0, 0, 0⟩, ⟨0, 0, 0, 0, 0⟩,
      ⟨0x95, 0, 0, 0, 0⟩] [⟨"a", 1, 4, 8, 16⟩, ⟨"b", 2, 4, 4, 2⟩] [(0, "b")] = true := by
    decide +kernel
  have hfalse : readsAs 100 (twoMaps false) ctxXdpMd [⟨0x18, 1, 0, 0, 0⟩, ⟨0, 0, 0, 0, 0⟩,
      ⟨0x95, 0, 0, 0, 0⟩] [⟨"b", 2, 4, 4, 2⟩, ⟨"a", 1, 4, 8, 16⟩] [(0, "b")] = true := by
    decide +kernel
  obtain ⟨e₁, s₁, h₁, hctx₁, hinsns₁, hrel₁⟩ := readsAs_declares htrue
  obtain ⟨e₂, s₂, h₂, hctx₂, hinsns₂, hrel₂⟩ := readsAs_declares hfalse
  exact declaration_order_irrelevant h₁ h₂ (List.Perm.swap _ _ _) (by decide) (by decide)
    (hctx₁.trans hctx₂.symm) (hinsns₁.trans hinsns₂.symm) (hrel₁.trans hrel₂.symm)

end Ect
