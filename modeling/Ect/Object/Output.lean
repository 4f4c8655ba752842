-- SUMMARY: The text of the emitted program, and that reading it gives the program back.
import Ect.Ir.Text
import Ect.Object.Driver

/-!
# The emitted text

`emit_program` writes the declared regions, the modules and the edges of the chain, with a
comment line for each map. A reader of the text gets the tree of the program, provided no
map name has a line break in it, and the tree determines the program.
-/

namespace Ect

open Sexp

/-! ## Writing -/

def parserText (modParser : Nat) : String :=
  s!"(ParserModule {modParser} ((parser_start 1) (parser_states " ++
    "(Coq_cons ((psd_label 1) (psd_action None) " ++
    "(psd_trans (Unconditional Accept))) Coq_nil))))"

def deparserText (modDeparser emitHdr : Nat) : String :=
  s!"(DeparserModule {modDeparser} (Coq_cons (EmitOpConstructor {emitHdr} 32) " ++ "Coq_nil))"

def edgeText (e : Nat × Nat) : String := s!"({e.1} {e.2})"

def regionText (r : Nat × Nat) : String := s!"((mr_id {r.1}) (mr_len {r.2}))"

/-- The comment that names the map of a region. -/
def mapComment (i : Nat) (m : MapInfo) : String :=
  s!"  ; region {regionMap i} = map {m.name} (key {m.keySize}, value {m.valueSize}, " ++
    s!"{m.nslots} of {m.maxEntries} slots)"

def Program.moduleTexts (p : Program) : List String :=
  [parserText modParser] ++ p.modules.map Transformer.text ++ [deparserText modDeparser p.emitHdr]

def Program.edgesText (p : Program) : String :=
  " ".intercalate (p.edges.map edgeText)

/-- The lines `emit_program` writes. -/
def Program.lines (maps : List MapInfo) (p : Program) : List String :=
  ["(GeneralCaracaraProgramDef 0"] ++ (maps.zipIdx.map fun m => mapComment m.2 m.1) ++
    [s!"  {coqList (p.regions.map regionText)}",
      s!"  ((net_modules {coqList p.moduleTexts})",
      s!"   (net_edges ({p.edgesText}))",
      s!"   (start_module {modParser})))"]

/-- What `emit_program` writes. -/
def Program.text (maps : List MapInfo) (p : Program) : String :=
  String.join ((p.lines maps).map (· ++ "\n"))

/-! ## The tree of the text -/

def parserTree (modParser : Nat) : Tree :=
  .list [ident "ParserModule", num modParser, .list [.list [ident "parser_start", ident "1"],
    .list [ident "parser_states", coqTree [.list [.list [ident "psd_label", ident "1"],
      .list [ident "psd_action", ident "None"],
      .list [ident "psd_trans", .list [ident "Unconditional", ident "Accept"]]]]]]]

def deparserTree (modDeparser emitHdr : Nat) : Tree :=
  .list [ident "DeparserModule", num modDeparser,
    coqTree [.list [ident "EmitOpConstructor", num emitHdr, ident "32"]]]

def edgeTree (e : Nat × Nat) : Tree := .list [num e.1, num e.2]

def regionTree (r : Nat × Nat) : Tree :=
  .list [.list [ident "mr_id", num r.1], .list [ident "mr_len", num r.2]]

def Program.moduleTrees (p : Program) : List Tree :=
  [parserTree modParser] ++ p.modules.map Transformer.tree ++ [deparserTree modDeparser p.emitHdr]

def Program.tree (p : Program) : Tree :=
  .list [ident "GeneralCaracaraProgramDef", ident "0", coqTree (p.regions.map regionTree),
    .list [.list [ident "net_modules", coqTree p.moduleTrees],
      .list [ident "net_edges", .list (p.edges.map edgeTree)],
      .list [ident "start_module", num modParser]]]

theorem edge_prints (e : Nat × Nat) : Prints (edgeText e).toList (edgeTree e) := by
  have htext : (edgeText e).toList = form [(toString e.1).toList, (toString e.2).toList] := by
    unfold edgeText
    simp only [toString_string, String.toList_append, form, List.intercalate_cons_cons,
      List.intercalate_singleton, List.append_assoc]
    rfl
  rw [htext]
  exact .form (.cons (num_prints e.1) (.cons (num_prints e.2) .nil))

theorem region_prints (r : Nat × Nat) : Prints (regionText r).toList (regionTree r) := by
  have htext : (regionText r).toList = form [form ["mr_id".toList, (toString r.1).toList],
      form ["mr_len".toList, (toString r.2).toList]] := by
    unfold regionText
    simp only [toString_string, String.toList_append, form, List.intercalate_cons_cons,
      List.intercalate_singleton, List.append_assoc, List.cons_append]
    rfl
  have hid := Prints.form (.cons (ident_prints "mr_id" rfl) (.cons (num_prints r.1) .nil))
  have hlen := Prints.form (.cons (ident_prints "mr_len" rfl) (.cons (num_prints r.2) .nil))
  rw [htext]
  exact .form (.cons hid (.cons hlen .nil))

theorem parser_prints (n : Nat) : Prints (parserText n).toList (parserTree n) := by
  have htext : (parserText n).toList = form ["ParserModule".toList, (toString n).toList,
      form [form ["parser_start".toList, "1".toList], form ["parser_states".toList,
        form ["Coq_cons".toList, form [form ["psd_label".toList, "1".toList],
          form ["psd_action".toList, "None".toList], form ["psd_trans".toList,
            form ["Unconditional".toList, "Accept".toList]]], "Coq_nil".toList]]]] := by
    unfold parserText
    simp only [toString_string, String.toList_append, form, List.intercalate_cons_cons,
      List.intercalate_singleton, List.append_assoc, List.cons_append]
    rfl
  have hone := ident_prints "1" rfl
  have hstart := Prints.form (.cons (ident_prints "parser_start" rfl) (.cons hone .nil))
  have hlabel := Prints.form (.cons (ident_prints "psd_label" rfl) (.cons hone .nil))
  have haction := Prints.form (.cons (ident_prints "psd_action" rfl)
    (.cons (ident_prints "None" rfl) .nil))
  have haccept := Prints.form (.cons (ident_prints "Unconditional" rfl)
    (.cons (ident_prints "Accept" rfl) .nil))
  have htrans := Prints.form (.cons (ident_prints "psd_trans" rfl) (.cons haccept .nil))
  have hstate := Prints.form (.cons hlabel (.cons haction (.cons htrans .nil)))
  have hlist := Prints.form (.cons (ident_prints "Coq_cons" rfl) (.cons hstate
    (.cons (ident_prints "Coq_nil" rfl) .nil)))
  have hstates := Prints.form (.cons (ident_prints "parser_states" rfl) (.cons hlist .nil))
  have hbody := Prints.form (.cons hstart (.cons hstates .nil))
  rw [htext]
  exact .form (.cons (ident_prints "ParserModule" rfl) (.cons (num_prints n) (.cons hbody .nil)))

theorem deparser_prints (n h : Nat) : Prints (deparserText n h).toList (deparserTree n h) := by
  have htext : (deparserText n h).toList = form ["DeparserModule".toList, (toString n).toList,
      form ["Coq_cons".toList, form ["EmitOpConstructor".toList, (toString h).toList,
        "32".toList], "Coq_nil".toList]] := by
    unfold deparserText
    simp only [toString_string, String.toList_append, form, List.intercalate_cons_cons,
      List.intercalate_singleton, List.append_assoc, List.cons_append]
    rfl
  have hemit := Prints.form (.cons (ident_prints "EmitOpConstructor" rfl)
    (.cons (num_prints h) (.cons (ident_prints "32" rfl) .nil)))
  have hops := Prints.form (.cons (ident_prints "Coq_cons" rfl) (.cons hemit
    (.cons (ident_prints "Coq_nil" rfl) .nil)))
  rw [htext]
  exact .form (.cons (ident_prints "DeparserModule" rfl) (.cons (num_prints n)
    (.cons hops .nil)))

variable {p : Program} {maps : List MapInfo}

theorem modules_print (p : Program) :
    Prints (coqList p.moduleTexts).toList (coqTree p.moduleTrees) := by
  apply coqList_prints
  have hmods : List.Forall₂ (fun s x => Prints s.toList x) (p.modules.map Transformer.text)
      (p.modules.map Transformer.tree) := by
    rw [List.forall₂_map_left_iff, List.forall₂_map_right_iff, List.forall₂_same]
    exact fun t _ => t.prints
  exact .cons (parser_prints _) (List.rel_append hmods (.cons (deparser_prints _ _) .nil))

theorem edges_print (es : List (Nat × Nat)) :
    Prints (form (es.map fun e => (edgeText e).toList)) (.list (es.map edgeTree)) := by
  apply Prints.form
  rw [List.forall₂_map_left_iff, List.forall₂_map_right_iff, List.forall₂_same]
  exact fun e _ => edge_prints e

/-! ## Reading -/

/-- A text that a tree fills. -/
theorem tokenize_hole {s : List Char} {x : Tree} (h : Prints s x) (pre post : List Char) :
    tokenize (pre ++ ' ' :: (s ++ ')' :: post)) =
      tokenize pre ++ (x.toks ++ [')'] :: tokenize post) := by
  rw [tokenize_space _ (by decide) (by decide), tokenize_paren _ (by decide), h.toks]

theorem tokenize_indent (s : List Char) : tokenize (' ' :: ' ' :: s) = tokenize s := by
  have hspace (u : List Char) : tokenize (' ' :: u) = tokenize u :=
    tokenize_space [] (by decide) (by decide) u
  rw [hspace, hspace]

/-- Nothing of a comment line is read. -/
theorem tokenize_mapComment (i : Nat) (m : MapInfo) :
    tokenize (beforeComment (mapComment i m).toList) = [] := by
  unfold mapComment
  simp only [toString_string, String.toList_append, List.append_assoc]
  rfl

theorem oneLine_mapComment (i : Nat) {m : MapInfo} (h : OneLine m.name.toList) :
    OneLine (mapComment i m).toList := by
  have hnum (n : Nat) : OneLine (toString n).toList := (num_prints n).plain.oneLine
  unfold mapComment
  simp only [toString_string, String.toList_append, List.append_assoc, oneLine_append]
  exact ⟨by decide, hnum _, by decide, h, by decide, hnum _, by decide, hnum _, by decide,
    hnum _, by decide, hnum _, by decide⟩

/-- The lines other than comments, with what they print. -/
structure BodyLine (l : String) (ts : List Tok) : Prop where
  plain : Plain l.toList
  toks : tokenize l.toList = ts

theorem regions_line (p : Program) : BodyLine s!"  {coqList (p.regions.map regionText)}"
    (coqTree (p.regions.map regionTree)).toks := by
  have hprint := coqList_map_prints region_prints p.regions
  have htext : (s!"  {coqList (p.regions.map regionText)}").toList =
      ' ' :: ' ' :: (coqList (p.regions.map regionText)).toList := by
    simp only [toString_string, String.toList_append]
    rfl
  constructor
  · rw [htext]
    exact Plain.append (s := [' ', ' ']) (by decide) hprint.plain
  · rw [htext, tokenize_indent, hprint.toks]

theorem modules_line (p : Program) : BodyLine s!"  ((net_modules {coqList p.moduleTexts})"
    (["(".toList, "(".toList, "net_modules".toList] ++
      ((coqTree p.moduleTrees).toks ++ [")".toList])) := by
  have hprint := modules_print p
  have htext : (s!"  ((net_modules {coqList p.moduleTexts})").toList =
      "  ((net_modules".toList ++ ' ' :: ((coqList p.moduleTexts).toList ++ ')' :: []) := by
    simp only [toString_string, String.toList_append, List.append_assoc]
    rfl
  constructor
  · rw [htext]
    exact Plain.append (by decide) (Plain.append (s := [' ']) (by decide)
      (hprint.plain.append (by decide)))
  · rw [htext, tokenize_hole hprint]
    rfl

theorem edges_line (p : Program) :
    BodyLine s!"   (net_edges ({p.edgesText}))"
      (["(".toList, "net_edges".toList] ++
        ((Tree.list (p.edges.map edgeTree)).toks ++ [")".toList])) := by
  have hprint := edges_print p.edges
  have htext : (s!"   (net_edges ({p.edgesText}))").toList =
      "   (net_edges".toList ++
        ' ' :: (form (p.edges.map fun e => (edgeText e).toList) ++ ')' :: []) := by
    simp only [Program.edgesText, toString_string, String.toList_append,
      String.toList_intercalate, List.map_map, form, List.append_assoc, List.cons_append]
    rfl
  constructor
  · rw [htext]
    exact Plain.append (by decide) (Plain.append (s := [' ']) (by decide)
      (hprint.plain.append (by decide)))
  · rw [htext, tokenize_hole hprint]
    rfl

theorem start_line : BodyLine s!"   (start_module {modParser})))"
    ["(".toList, "start_module".toList, "1".toList, ")".toList, ")".toList, ")".toList] :=
  ⟨by decide, by decide⟩

/-- The tokens of the lines are those of the tree. -/
theorem Program.lines_toks (maps : List MapInfo) (p : Program) :
    (p.lines maps).flatMap (fun l => tokenize (beforeComment l.toList)) = p.tree.toks := by
  have hbody {l : String} {ts : List Tok} (h : BodyLine l ts) :
      tokenize (beforeComment l.toList) = ts := by rw [h.plain.beforeComment, h.toks]
  have hcomments : ((maps.zipIdx.map fun m => mapComment m.2 m.1).flatMap
      fun l => tokenize (beforeComment l.toList)) = [] := by
    rw [List.flatMap_eq_nil_iff]
    intro l hl
    obtain ⟨m, -, rfl⟩ := List.mem_map.mp hl
    exact tokenize_mapComment m.2 m.1
  rw [lines, List.flatMap_append, List.flatMap_append, hcomments]
  simp only [List.flatMap_cons, List.flatMap_nil, hbody (regions_line p), hbody (modules_line p),
    hbody (edges_line p), hbody start_line, tree, Tree.toks, allToks]
  simp only [ident, num, Tree.toks, List.append_assoc, List.append_nil, List.cons_append,
    List.nil_append]
  rfl

theorem Program.oneLine_lines (p : Program) (hnames : ∀ m ∈ maps, OneLine m.name.toList) :
    ∀ l ∈ p.lines maps, OneLine l.toList := by
  intro l hl
  simp only [lines, List.mem_append, List.mem_map, List.mem_cons, List.not_mem_nil,
    or_false] at hl
  rcases hl with (rfl | ⟨m, hm, rfl⟩) | rfl | rfl | rfl | rfl
  · decide
  · exact oneLine_mapComment m.2 (hnames m.1 (List.fst_mem_of_mem_zipIdx hm))
  · exact (regions_line p).plain.oneLine
  · exact (modules_line p).plain.oneLine
  · exact (edges_line p).plain.oneLine
  · exact start_line.plain.oneLine

theorem Program.tree_worded (p : Program) : p.tree.Worded := by
  have hident (s : String) (h : isName s.toList = true) : (ident s).Worded :=
    (ident_prints s h).worded
  have hedges : (Tree.list (p.edges.map edgeTree)).Worded := (edges_print p.edges).worded
  simp only [tree, Tree.Worded, AllWorded, and_true]
  exact ⟨hident _ rfl, hident _ rfl, (coqList_map_prints region_prints p.regions).worded,
    ⟨hident _ rfl, (modules_print p).worded⟩, ⟨hident _ rfl, hedges⟩,
    hident _ rfl, (num_prints _).worded⟩

theorem Program.text_lines (maps : List MapInfo) (p : Program) : (p.text maps).toList =
    ((p.lines maps).map String.toList).flatMap (· ++ ['\n']) := by
  rw [text, String.toList_join, List.flatMap_map, List.flatMap_map]
  simp only [String.toList_append]
  rfl

/-- Reading the emitted text gives the tree of the program, unless it nests too deeply. -/
theorem Program.text_reads (limit : Nat) (p : Program)
    (hnames : ∀ m ∈ maps, OneLine m.name.toList) :
    parse limit (p.text maps).toList =
      if p.tree.depth ≤ limit then .ok p.tree else .error .recursion := by
  rw [text_lines]
  apply parse_lines
  · simpa only [List.forall_mem_map] using p.oneLine_lines hnames
  · exact p.tree_worded
  · rw [List.flatMap_map]
    exact p.lines_toks maps

theorem regionTree_injective : Function.Injective regionTree := by
  rintro ⟨i, n⟩ ⟨i', n'⟩ h
  simpa [regionTree] using h

theorem edgeTree_injective : Function.Injective edgeTree := by
  rintro ⟨a, b⟩ ⟨a', b'⟩ h
  simpa [edgeTree] using h

/-- A program is determined by its tree. -/
theorem Program.tree_injective : Function.Injective Program.tree := by
  intro p p' h
  simp only [tree, Tree.list.injEq, List.cons.injEq, coqTree_inj, true_and, and_true,
    moduleTrees, List.cons_append, List.nil_append] at h
  obtain ⟨hregions, hmods, hedges⟩ := h
  have hdep := List.append_inj' hmods rfl
  have hhdr : p.emitHdr = p'.emitHdr := by simpa [deparserTree] using hdep.2
  obtain ⟨regions, modules, edges, emitHdr⟩ := p
  obtain ⟨regions', modules', edges', emitHdr'⟩ := p'
  rw [Program.mk.injEq]
  exact ⟨regionTree_injective.list_map hregions, Transformer.tree_injective.list_map hdep.1,
    edgeTree_injective.list_map hedges, hhdr⟩

/-- The text, with the last four lines, which name no map, apart. -/
theorem Program.text_toList (maps : List MapInfo) (p : Program) : (p.text maps).toList =
    ("(GeneralCaracaraProgramDef 0".toList ++
      (maps.zipIdx.map fun m => (mapComment m.2 m.1).toList).flatMap ('\n' :: ·)) ++
        ((p.lines []).tail.map String.toList).flatMap ('\n' :: ·) ++ ['\n'] := by
  have hlines : (p.lines maps).map String.toList = "(GeneralCaracaraProgramDef 0".toList ::
      ((maps.zipIdx.map fun m => (mapComment m.2 m.1).toList) ++
        (p.lines []).tail.map String.toList) := by
    simp [lines, Function.comp_def]
  rw [text_lines, hlines, flatMap_break, List.flatMap_append, ← List.append_assoc]

/-- A program is determined by its text, whatever the names of the maps have in them. -/
theorem Program.eq_of_text {p p' : Program} {maps maps' : List MapInfo}
    (h : p.text maps = p'.text maps') : p = p' := by
  have hnone : ∀ m ∈ ([] : List MapInfo), OneLine m.name.toList := by simp
  have hline (p : Program) : ∀ l ∈ (p.lines []).tail.map String.toList, OneLine l := by
    simp only [List.forall_mem_map]
    exact fun l hl => p.oneLine_lines hnone l (List.mem_of_mem_tail hl)
  have hchars := congrArg String.toList h
  rw [text_toList, text_toList, List.append_cancel_right_eq] at hchars
  obtain ⟨-, hlast⟩ := lastLines_inj (by simp [lines]) (hline p) (hline p') hchars
  -- the texts without the comments are the same too, and can be read
  have htext : (p.text []).toList = (p'.text []).toList := by
    rw [text_toList, text_toList, hlast]
  have hread (p₁ : Program) := p₁.text_reads (max p.tree.depth p'.tree.depth) hnone
  have htrees := (hread p).symm.trans (htext ▸ hread p')
  rw [if_pos (le_max_left _ _), if_pos (le_max_right _ _)] at htrees
  exact tree_injective (Except.ok.inj htrees)

/-! ## What a run writes -/

namespace Pass

/-- The program a run emits, unless it is refused. -/
def program (r : Pass) : Option Program :=
  match r.result with
  | .refused _ => none
  | .emitted p _ => some p

/-- What a run writes to standard output. -/
def output (r : Pass) : String := (r.program.map (Program.text r.maps)).getD ""

/-- No map name has a line break in it. -/
def NamesOneLine (r : Pass) : Prop := ∀ m ∈ r.maps, OneLine m.name.toList

theorem output_eq_some {r : Pass} {p : Program} (h : r.program = some p) :
    r.output = p.text r.maps := by
  rw [output, h]
  rfl

/-- What a reader gets of a run that emits this program, or none. -/
def reading (limit : Nat) : Option Program → Except Struct.Exn Tree
  | none => if 0 < limit then .error .index else .error .recursion
  | some p => if p.tree.depth ≤ limit then .ok p.tree else .error .recursion

/-- What a run writes reads as the tree of the program it emits; nothing can be read of a
refused run. -/
theorem parse_output (limit : Nat) {r : Pass} (hnames : r.NamesOneLine) :
    parse limit r.output.toList = reading limit r.program := by
  cases hp : r.program with
  | none =>
    rw [output, hp]
    cases limit <;> rfl
  | some p =>
    rw [output_eq_some hp]
    exact p.text_reads limit hnames

/-- A run that emits a program with one map and one module. -/
def hitsPass (diags : List String) : Pass :=
  let hits : MapInfo := ⟨"hits", 1, 4, 8, 4, 4⟩
  ⟨[hits], fun _ => 0,
    .emitted (emitProgram ⟨ctxXdpMd, [hits], fun _ => none⟩ [closeRules []]) diags⟩

theorem namesOneLine_hits (diags : List String) : (hitsPass diags).NamesOneLine := by
  intro m hm
  rw [List.mem_singleton.mp hm]
  decide

/-- A tree is read exactly where it is the tree of the program the run emits and does not nest
more deeply than the reader can follow. -/
theorem output_reads_iff (limit : Nat) {r : Pass} (hnames : r.NamesOneLine) (x : Tree) :
    parse limit r.output.toList = .ok x ↔
      ∃ p, r.program = some p ∧ p.tree = x ∧ p.tree.depth ≤ limit := by
  rw [parse_output limit hnames]
  cases r.program with
  | none =>
    simp only [reading, reduceCtorEq, false_and, exists_false, iff_false]
    split <;> nofun
  | some p =>
    simp only [reading, Option.some.injEq, exists_eq_left']
    split
    · rename_i hdepth
      rw [Except.ok.injEq]
      exact ⟨fun h => ⟨h, hdepth⟩, And.left⟩
    · rename_i hdepth
      exact ⟨nofun, fun h => absurd h.2 hdepth⟩

theorem output_reads_hits : ∃ x, parse 20 (hitsPass []).output.toList = .ok x ∧
    (hitsPass []).program.map Program.tree = some x :=
  ⟨_, (output_reads_iff 20 (namesOneLine_hits []) _).mpr ⟨_, rfl, rfl, by decide⟩, rfl⟩

theorem text_ne_empty (maps : List MapInfo) (p : Program) : p.text maps ≠ "" := by
  intro h
  have hchars := congrArg String.toList h
  rw [Program.text_toList] at hchars
  simp at hchars

/-- Two runs that write the same text emit the same program, and are refused together. -/
theorem program_eq_of_output {r r' : Pass} (h : r.output = r'.output) :
    r.program = r'.program := by
  unfold output at h
  cases hp : r.program with
  | none =>
    cases hp' : r'.program with
    | none => rfl
    | some p' =>
      rw [hp, hp'] at h
      exact absurd h.symm (text_ne_empty _ p')
  | some p =>
    cases hp' : r'.program with
    | none =>
      rw [hp, hp'] at h
      exact absurd h (text_ne_empty _ p)
    | some p' =>
      rw [hp, hp'] at h
      exact congrArg some (Program.eq_of_text h)

/-- A run on `exit` and a hash map, whose name has a line break in it. -/
def twoLinesPass (type : Nat) (imm : BitVec 32) : Except Struct.Exn Pass :=
  translateInsns ⟨ctxXdpMd, [⟨"two\nlines", type, 4, 8, 4, 4⟩], fun _ => none⟩ []
    [⟨0x95, 0, 0, 0, imm⟩]

/-- The text says neither the type of the map nor the immediate of the exit. -/
theorem program_eq_of_output_twoLines : ∃ r r', twoLinesPass 1 0 = .ok r ∧
    twoLinesPass 5 7 = .ok r' ∧ r.maps ≠ r'.maps ∧ r.program = r'.program :=
  ⟨_, _, rfl, rfl, by decide, program_eq_of_output (by decide +kernel)⟩

end Pass

end Ect
