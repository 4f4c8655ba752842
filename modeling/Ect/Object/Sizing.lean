-- SUMMARY: Automatic sizing gives every hash map the slots its budget is checked against, unless the map holds fewer entries.
import Ect.Object.Order
import Ect.Translate.Budget

/-!
# Automatic sizing

Without `--map-slots` a first pass counts the uses of each map, and a hash map gets twice as
many slots. A map never has more slots than entries, so one with few entries is refused by
the check its slots were chosen for.
-/

namespace Ect

open LittleEndian Struct

/-! ## The maps that are found -/

/-- What holds of the maps found so far: their names differ, and they have one number of slots. -/
structure Discovered.WellFound (slots : Nat) (s : Discovered) : Prop where
  names : (s.maps.map MapInfo.name).Nodup
  slots : ∀ mi ∈ s.maps, mi.slotsBudget = slots

theorem declare_wellFound {slots : Nat} {s : Discovered} (h : s.WellFound slots) (d : Decl) :
    (declare slots s d).WellFound slots := by
  rcases d with msg | d
  · exact ⟨h.names, h.slots⟩
  · rw [declare, addMap]
    split
    · exact h
    · rename_i hnew
      split
      · exact ⟨h.names, h.slots⟩
      · refine ⟨?_, ?_⟩
        · rw [findMap_isSome] at hnew
          rw [List.map_append, List.map_singleton, List.nodup_append]
          refine ⟨h.names, List.nodup_singleton _, fun a ha b hb => ?_⟩
          rintro rfl
          rw [List.mem_singleton.mp hb] at ha
          exact hnew ha
        · intro mi hmi
          rcases List.mem_append.mp hmi with hmi | hmi
          · exact h.slots mi hmi
          · rw [List.mem_singleton.mp hmi]
            rfl

theorem discoverMaps_wellFound {slots : Nat} (ds : List Decl) :
    (discoverMaps slots ds).WellFound slots := by
  have hfold : ∀ (ds : List Decl) (s : Discovered), s.WellFound slots →
      (ds.foldl (declare slots) s).WellFound slots := by
    intro ds
    induction ds with
    | nil => exact fun s h => h
    | cons d ds ih => exact fun s h => ih _ (declare_wellFound h d)
  exact hfold ds _ ⟨List.nodup_nil, by simp⟩

theorem sortMaps_wellFound {slots : Nat} {maps : List MapInfo} {diags : List String}
    (h : (⟨maps, diags⟩ : Discovered).WellFound slots) :
    (⟨sortMaps maps, diags⟩ : Discovered).WellFound slots :=
  ⟨((sortMaps_perm maps).map _).nodup_iff.mpr h.names,
    fun mi hmi => h.slots mi ((sortMaps_perm maps).mem_iff.mp hmi)⟩

/-- A map is found by its name. -/
theorem findMap_name {maps : List MapInfo} {i : Nat} {mi : MapInfo}
    (hnames : (maps.map MapInfo.name).Nodup) (hi : maps[i]? = some mi) :
    findMap maps mi.name = some i := by
  obtain ⟨hlt, rfl⟩ := List.getElem?_eq_some_iff.mp hi
  rw [findMap, List.findIdx?_eq_some_iff_getElem]
  refine ⟨hlt, by simp, fun j hj => ?_⟩
  have hne := List.pairwise_iff_getElem.mp hnames j i (by simp; omega) (by simpa using hlt) hj
  simpa using hne

/-! ## Sizing -/

theorem findMap_sizeMaps {hint : Option (String → Nat)} {maps : List MapInfo} (name : String) :
    findMap (sizeMaps hint maps) name = findMap maps name := by
  cases hint with
  | none => rfl
  | some hint =>
    rw [findMap, sizeMaps, List.findIdx?_map, findMap]
    congr 1
    funext mi
    rw [Function.comp_apply, sizeMap]
    split <;> rfl

theorem sizeMap_resized {hint : String → Nat} {mi : MapInfo} (h : 0 < mi.slotsBudget) :
    mi.Resized (sizeMap hint mi) := by
  rw [sizeMap]
  split
  · rename_i htag
    exact ⟨rfl, fun hno => absurd htag (by simp [hno]), h, by
      have : 0 < mapSlotsMax := by decide
      simp only
      omega⟩
  · exact ⟨rfl, fun _ => rfl, h, h⟩

theorem sizeMap_tagged (hint : String → Nat) (mi : MapInfo) :
    (sizeMap hint mi).tagged = mi.tagged := by
  rw [sizeMap]
  split <;> rfl

theorem sizeMap_maxEntries (hint : String → Nat) (mi : MapInfo) :
    (sizeMap hint mi).maxEntries = mi.maxEntries := by
  rw [sizeMap]
  split <;> rfl

/-- The check of a sized map passes where its entries are twice its uses. -/
theorem budgetDiag_sizeMap {hint : String → Nat} {mi : MapInfo} (htag : mi.tagged = true)
    (hmax : 2 * hint mi.name ≤ mapSlotsMax) :
    budgetDiag (sizeMap hint mi) (hint mi.name) = none ↔
      mi.maxEntries = 0 ∨ 2 * hint mi.name ≤ mi.maxEntries := by
  have hsized : (sizeMap hint mi).tagged = true := (sizeMap_tagged hint mi).trans htag
  have hbudget : (sizeMap hint mi).nslots =
      if mi.maxEntries = 0 ∨ mi.maxEntries > max (2 * hint mi.name) 1 then max (2 * hint mi.name) 1
      else mi.maxEntries := by
    have hcap : max (2 * hint mi.name) 1 ≤ mapSlotsMax := by
      have : 1 ≤ mapSlotsMax := by decide
      omega
    rw [sizeMap, if_pos htag, MapInfo.nslots]
    simp only [Nat.min_eq_left hcap]
  have hdiag : budgetDiag (sizeMap hint mi) (hint mi.name) = none ↔
      hint mi.name ≤ (sizeMap hint mi).nslots / 2 := by
    rw [budgetDiag]
    split
    · rename_i h
      exact iff_of_false (by simp) (Nat.not_le.mpr h.2)
    · rename_i h
      exact iff_of_true rfl (by_contra fun hlt => h ⟨hsized, Nat.not_le.mp hlt⟩)
  rw [hdiag, hbudget]
  split <;> omega

/-! ## The two passes -/

section Passes

variable {limit : Nat} {ctxOverride : Option CtxLayout} {blob : List Byte} {probe real : Pass}

/-- The maps before and after sizing, in a section that is translated. -/
theorem insnMapIdxOf_sizeMaps {e : Elf} {secIndex ninsns : Nat} {maps : List MapInfo}
    {hint : Option (String → Nat)} :
    insnMapIdxOf e secIndex ninsns (sizeMaps hint maps) = insnMapIdxOf e secIndex ninsns maps := by
  have hreloc : mapReloc e ninsns (sizeMaps hint maps) = mapReloc e ninsns maps := by
    funext r
    simp only [mapReloc, findMap_sizeMaps]
  rw [insnMapIdxOf, insnMapIdxOf, loadMapRelocs, loadMapRelocs, hreloc]

theorem forall₂_sizeMap {hint : String → Nat} {maps : List MapInfo}
    (h : ∀ mi ∈ maps, 0 < mi.slotsBudget) :
    List.Forall₂ MapInfo.Resized maps (maps.map (sizeMap hint)) := by
  induction maps with
  | nil => exact .nil
  | cons mi maps ih =>
    exact .cons (sizeMap_resized (h mi (by simp))) (ih fun mi' hmi => h mi' (by simp [hmi]))

theorem translateInsns_ok {c : Config} {diags : List String} {insns : List Insn} {pass : Pass}
    (h : translateInsns c diags insns = .ok pass) :
    ∃ mods t out, translateProgram insns c .init = .ok (mods, t, out) ∧ pass.maps = c.maps ∧
      pass.mapSites = t.mapSites := by
  rw [translateInsns] at h
  cases hrun : translateProgram insns c .init with
  | error e => rw [hrun] at h; cases h
  | ok p =>
    obtain ⟨mods, t, out⟩ := p
    rw [hrun] at h
    cases h
    exact ⟨mods, t, out, rfl, rfl, rfl⟩

/-- Runs on the maps as they are found and as they are sized count the same. -/
theorem runSection_counts {e : Elf} {found : Discovered} {hint : String → Nat}
    (hslots : ∀ mi ∈ found.maps, 0 < mi.slotsBudget)
    (hprobe : runSection e ctxOverride found = .ok probe)
    (hreal : runSection e ctxOverride { found with maps := sizeMaps (some hint) found.maps } =
      .ok real) :
    probe.maps = found.maps ∧ real.maps = found.maps.map (sizeMap hint) ∧
      real.mapSites = probe.mapSites := by
  rw [runSection] at hprobe hreal
  cases hfind : e.sections.find? isProgram with
  | none =>
    rw [hfind] at hprobe hreal
    cases hprobe
    cases hreal
    exact ⟨rfl, rfl, rfl⟩
  | some s =>
    rw [hfind] at hprobe hreal
    dsimp only at hprobe hreal
    cases hctx : ctxOverride <|> ctxLayoutFor s.name with
    | none =>
      rw [hctx] at hprobe hreal
      cases hprobe
      cases hreal
      exact ⟨rfl, rfl, rfl⟩
    | some ctx =>
      rw [hctx] at hprobe hreal
      simp only [translateSection, insnMapIdxOf_sizeMaps] at hprobe hreal
      split at hprobe
      · rename_i hlen
        rw [if_pos hlen] at hreal
        cases hprobe
        cases hreal
        exact ⟨rfl, rfl, rfl⟩
      · rename_i hlen
        rw [if_neg hlen] at hreal
        cases hidx : insnMapIdxOf e s.index (sectionInsns s).length found.maps with
        | error exn => rw [hidx] at hprobe; cases hprobe
        | ok at_ =>
          rw [hidx] at hprobe hreal
          obtain ⟨_, t, _, hrun, hmaps, hsites⟩ := translateInsns_ok hprobe
          obtain ⟨_, t', _, hrun', hmaps', hsites'⟩ := translateInsns_ok hreal
          have hresized : Config.Resized ⟨ctx, found.maps, at_⟩
              ⟨ctx, sizeMaps (some hint) found.maps, at_⟩ := ⟨rfl, rfl, forall₂_sizeMap hslots⟩
          have hcounts := translateProgram_counts hresized hrun hrun'
          exact ⟨hmaps, hmaps', by rw [hsites, hsites', hcounts]⟩

/-- The number of uses the first pass hands on for a name. -/
def Pass.hint (p : Pass) (name : String) : Nat := ((findMap p.maps name).map p.mapSites).getD 0

/-- What the two passes of a run without `--map-slots` have to do with each other. -/
structure Sized (probe real : Pass) : Prop where
  names : (probe.maps.map MapInfo.name).Nodup
  maps : real.maps = probe.maps.map (sizeMap probe.hint)
  mapSites : real.mapSites = probe.mapSites

theorem run_sized (hprobe : runPass limit ctxOverride mapMaxSlots none blob = .ok probe)
    (hreal : run limit ctxOverride none blob = .ok real) : Sized probe real := by
  have hhint : probeMapSites limit ctxOverride blob = .ok probe.hint := by
    rw [probeMapSites, hprobe]
    rfl
  have hreal : runPass limit ctxOverride mapMaxSlots (some probe.hint) blob = .ok real := by
    simp only [run, hhint] at hreal
    exact hreal
  rw [runPass] at hprobe hreal
  cases hinit : Elf.init blob with
  | error exn =>
    rw [hinit] at hprobe hreal
    cases exn with
    | value msg =>
      cases hprobe
      cases hreal
      exact ⟨List.nodup_nil, rfl, rfl⟩
    | _ => cases hprobe
  | ok e =>
    rw [hinit] at hprobe hreal
    cases hdecls : decls limit e with
    | error exn =>
      simp only [hdecls] at hprobe
      cases hprobe
    | ok ds =>
      simp only [hdecls] at hprobe hreal
      have hsorted : Discovered.WellFound mapMaxSlots ⟨sortMaps (discoverMaps mapMaxSlots ds).maps,
          (discoverMaps mapMaxSlots ds).diags⟩ := sortMaps_wellFound (discoverMaps_wellFound ds)
      have hslots : ∀ mi ∈ sortMaps (discoverMaps mapMaxSlots ds).maps, 0 < mi.slotsBudget := by
        intro mi hmi
        rw [hsorted.slots mi hmi]
        decide
      obtain ⟨hmaps, hmaps', hsites⟩ := runSection_counts hslots hprobe hreal
      exact ⟨hmaps ▸ hsorted.names, by rw [hmaps', hmaps], hsites⟩

theorem checkMapBudget_eq_nil {maps : List MapInfo} {sites : Nat → Nat} :
    checkMapBudget maps sites = [] ↔
      ∀ i mi, maps[i]? = some mi → budgetDiag mi (sites i) = none := by
  rw [checkMapBudget, List.filterMap_eq_nil_iff]
  constructor
  · exact fun h i mi hi => h (mi, i) (List.mk_mem_zipIdx_iff_getElem?.mpr hi)
  · exact fun h p hp => h p.2 p.1 (List.mem_zipIdx_iff_getElem?.mp hp)

/-- Every hash map has entries, and is not used more often than the slots there can be allow. -/
def UsesFit (p : Pass) : Prop :=
  ∀ i mi, p.maps[i]? = some mi → mi.tagged = true →
    1 ≤ mi.maxEntries ∧ 2 * p.mapSites i ≤ mapSlotsMax

/-- Both passes count the same, and no map is refused for its budget. -/
def MeetsBudget (probe real : Pass) : Prop :=
  (∀ i, probe.mapSites i = real.mapSites i) ∧ checkMapBudget real.maps real.mapSites = []

/-- Every hash map has twice as many entries as uses. -/
def RoomForUses (p : Pass) : Prop :=
  ∀ i mi, p.maps[i]? = some mi → mi.tagged = true → 2 * p.mapSites i ≤ mi.maxEntries

/-- A run that sizes its maps itself counts the uses right, and meets the budget exactly where
every hash map has twice as many entries as uses. -/
theorem auto_sizing_meets_budget_iff
    (hprobe : runPass limit ctxOverride mapMaxSlots none blob = .ok probe)
    (hreal : run limit ctxOverride none blob = .ok real) (hfit : UsesFit real) :
    MeetsBudget probe real ↔ RoomForUses real := by
  obtain ⟨hnames, hmaps, hsites⟩ := run_sized hprobe hreal
  have hcheck : ∀ i mi, real.maps[i]? = some mi → mi.tagged = true →
      (budgetDiag mi (real.mapSites i) = none ↔ 2 * real.mapSites i ≤ mi.maxEntries) := by
    intro i mi hi htag
    obtain ⟨hpos, hmax⟩ := hfit i mi hi htag
    rw [hmaps, List.getElem?_map, Option.map_eq_some_iff] at hi
    obtain ⟨mi, hi, rfl⟩ := hi
    rw [sizeMap_tagged] at htag
    rw [sizeMap_maxEntries] at hpos ⊢
    have hhint : probe.hint mi.name = real.mapSites i := by
      rw [Pass.hint, findMap_name hnames hi, hsites]
      rfl
    rw [← hhint] at hmax ⊢
    rw [budgetDiag_sizeMap htag hmax]
    omega
  rw [MeetsBudget, checkMapBudget_eq_nil, hsites]
  constructor
  · rintro ⟨-, h⟩ i mi hi htag
    rw [hsites]
    exact (hsites ▸ hcheck i mi hi htag).mp (h i mi hi)
  · refine fun h => ⟨fun _ => rfl, fun i mi hi => ?_⟩
    by_cases htag : mi.tagged = true
    · exact hsites ▸ (hcheck i mi hi htag).mpr (h i mi hi htag)
    · rw [budgetDiag, if_neg fun hd => htag hd.1]

end Passes

/-! ## A map that is used once -/

/-- A lookup of a key that is stored on the stack, in a hash map `a` of so many entries. -/
def oneLookup (maxEntries : Nat) : List Byte :=
  pack ehdrFmt (0x464c457f, 1, 247, 1, 0, 0, 192, 0, 64, 0, 0, 64, 5, 2, ()) ++
    pack [4, 4, 4, 4, 4] (1, 4, 8, maxEntries, 0, ()) ++
    pack [8, 8, 8, 8, 8, 8, 8]
      (0x118, 0, 0xfffc0a62, 0xa2bf, 0xfffffffc00000207, 0x100000085, 0x95, ()) ++
    pack [1, 4, 5, 2] (0, 0x706478, 0x7370616d, 0x61, ()) ++
    pack symFmt (10, 0x11, 0, 0, 0, 20, ()) ++
    pack relFmt (0, 1, ()) ++
    pack shdrFmt (5, 1, 3, 0, 64, 20, 0, 0, 4, 0, ()) ++
    pack shdrFmt (1, 1, 6, 0, 84, 56, 0, 0, 8, 0, ()) ++
    pack shdrFmt (0, 3, 0, 0, 140, 12, 0, 0, 1, 0, ()) ++
    pack shdrFmt (0, 2, 0, 0, 152, 24, 2, 0, 8, 24, ()) ++
    pack shdrFmt (0, 9, 0, 0, 176, 16, 3, 1, 8, 16, ())

/-- Both passes of a run on it end, with the map in two slots and one use of it. -/
def lookedUpOnce (maxEntries : Nat) : Bool :=
  match runPass 100 none mapMaxSlots none (oneLookup maxEntries),
    run 100 none none (oneLookup maxEntries) with
  | .ok _, .ok real => decide (real.maps = [⟨"a", 1, 4, 8, maxEntries, 2⟩] ∧ real.mapSites 0 = 1)
  | _, _ => false

theorem lookedUpOnce_passes {maxEntries : Nat} (h : lookedUpOnce maxEntries = true) :
    ∃ probe real, runPass 100 none mapMaxSlots none (oneLookup maxEntries) = .ok probe ∧
      run 100 none none (oneLookup maxEntries) = .ok real ∧
      real.maps = [⟨"a", 1, 4, 8, maxEntries, 2⟩] ∧ real.mapSites 0 = 1 := by
  unfold lookedUpOnce at h
  generalize runPass 100 none mapMaxSlots none (oneLookup maxEntries) = x at h ⊢
  generalize run 100 none none (oneLookup maxEntries) = y at h ⊢
  rcases x with exn | probe <;> rcases y with exn' | real
  case ok.ok => exact ⟨probe, real, rfl, rfl, of_decide_eq_true h⟩
  all_goals cases h

/-- What is asked of the map is asked of no other. -/
theorem forall_oneMap {maps : List MapInfo} {mi : MapInfo} {P : Nat → MapInfo → Prop}
    (hmaps : maps = [mi]) (h : P 0 mi) (i : Nat) (mi' : MapInfo) (hi : maps[i]? = some mi') :
    P i mi' := by
  subst hmaps
  cases i with
  | zero => cases hi; exact h
  | succ i => cases hi

/-- With sixteen entries the lookup fits its budget. -/
theorem oneLookup_meets_budget :
    ∃ probe real, run 100 none none (oneLookup 16) = .ok real ∧ MeetsBudget probe real := by
  obtain ⟨probe, real, hprobe, hreal, hmaps, hsites⟩ :=
    lookedUpOnce_passes (show lookedUpOnce 16 = true by decide +kernel)
  have hfit : UsesFit real := fun i mi hi _ =>
    forall_oneMap (P := fun i mi => 1 ≤ mi.maxEntries ∧ 2 * real.mapSites i ≤ mapSlotsMax) hmaps
      (by rw [hsites]; decide) i mi hi
  refine ⟨probe, real, hreal, (auto_sizing_meets_budget_iff hprobe hreal hfit).mpr ?_⟩
  exact fun i mi hi _ => forall_oneMap (P := fun i mi => 2 * real.mapSites i ≤ mi.maxEntries) hmaps
    (by rw [hsites]; decide) i mi hi

/-- With one entry the map has one slot, and half of that is none. -/
theorem oneLookup_counterexample :
    ∃ probe real, runPass 100 none mapMaxSlots none (oneLookup 1) = .ok probe ∧
      run 100 none none (oneLookup 1) = .ok real ∧ UsesFit real ∧ ¬MeetsBudget probe real := by
  obtain ⟨probe, real, hprobe, hreal, hmaps, hsites⟩ :=
    lookedUpOnce_passes (show lookedUpOnce 1 = true by decide +kernel)
  refine ⟨probe, real, hprobe, hreal, fun i mi hi _ => ?_, fun h => ?_⟩
  · exact forall_oneMap (P := fun i mi => 1 ≤ mi.maxEntries ∧ 2 * real.mapSites i ≤ mapSlotsMax)
      hmaps (by rw [hsites]; decide) i mi hi
  · have hdiag := checkMapBudget_eq_nil.mp h.2 0 _ (by rw [hmaps]; rfl)
    rw [hsites] at hdiag
    cases hdiag

end Ect
