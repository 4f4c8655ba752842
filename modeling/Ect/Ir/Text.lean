-- SUMMARY: The text of operations, rules and transformers, and the tree each text prints.
import Ect.Base.Sexp
import Ect.Ir.Syntax

/-!
# IR text

What `pybpf/ir.py` writes: every operation, match entry, rule and module is an
s-expression in a string. Beside each text stands the tree it prints, and trees
are equal only when what they stand for is.
-/

namespace Ect

open Sexp

/-! ## Words and numbers -/

def ident (s : String) : Tree := .atom s.toList

def num (n : Nat) : Tree := .atom (toString n).toList

/-- A word that starts no comment. -/
def isName (s : List Char) : Bool := s != [] && s.all fun c => isWord c && c != ';'

theorem prints_of_isName {s : List Char} (h : isName s = true) : Prints s (.atom s) := by
  simp only [isName, Bool.and_eq_true, bne_iff_ne, ne_eq, List.all_eq_true] at h
  exact .atom ⟨h.1, fun c hc => (h.2 c hc).1⟩ fun hc => (h.2 _ hc).2 rfl

theorem ident_prints (s : String) (h : isName s.toList = true) : Prints s.toList (ident s) :=
  prints_of_isName h

theorem isName_of_isDigit {c : Char} (h : c.isDigit = true) :
    (isWord c && c != ';') = true := by
  have hrange : 48 ≤ c.toNat ∧ c.toNat ≤ 57 := by
    simp only [Char.isDigit, Bool.and_eq_true, decide_eq_true_eq] at h
    exact ⟨UInt32.le_iff_toNat_le.mp h.1, UInt32.le_iff_toNat_le.mp h.2⟩
  have hne (d : Char) (hd : d.toNat < 48 ∨ 57 < d.toNat) : (c == d) = false := by
    rw [beq_eq_false_iff_ne]
    rintro rfl
    omega
  simp only [isWord, isParen, isSpace, bne, hne '(' (by decide), hne ')' (by decide),
    hne ';' (by decide), Bool.or_false, Bool.not_false, Bool.true_and, Bool.and_true,
    Bool.not_eq_true', Bool.or_eq_false_iff, Bool.and_eq_false_iff, decide_eq_false_iff_not,
    beq_eq_false_iff_ne]
  omega

theorem num_prints (n : Nat) : Prints (toString n).toList (num n) := by
  apply prints_of_isName
  have hdigit (c) (hc : c ∈ (toString n).toList) : (isWord c && c != ';') = true := by
    rw [Nat.toString_eq_repr, Nat.toList_repr] at hc
    exact isName_of_isDigit (Nat.isDigit_of_mem_toDigits (by decide) (by decide) hc)
  have hne : (toString n).toList ≠ [] := by
    rw [Nat.toString_eq_repr, Nat.toList_repr]
    exact Nat.toDigits_ne_nil
  rw [isName, Bool.and_eq_true, bne_iff_ne, List.all_eq_true]
  exact ⟨hne, hdigit⟩

/-- The number that decimal digits write. -/
def ofDigits (s : Tok) : Nat := Nat.ofDigitChars 10 s 0

@[simp] theorem ofDigits_toString (n : Nat) : ofDigits (toString n).toList = n := by
  rw [ofDigits, Nat.toString_eq_repr, Nat.toList_repr, Nat.ofDigitChars_ten_toDigits]

@[simp] theorem num_inj {m n : Nat} : num m = num n ↔ m = n := by
  refine ⟨fun h => ?_, fun h => h ▸ rfl⟩
  injection h with hlist
  rw [← ofDigits_toString m, hlist, ofDigits_toString]

@[simp] theorem ident_inj {s s' : String} : ident s = ident s' ↔ s = s' := by
  rw [ident, ident, Tree.atom.injEq, String.toList_inj]

/-! ## Coq lists -/

/-- `[a, b]` -> `(Coq_cons a (Coq_cons b Coq_nil))`. -/
def coqList (items : List String) : String :=
  items.foldr (fun it out => s!"(Coq_cons {it} {out})") "Coq_nil"

def coqTree (xs : List Tree) : Tree :=
  xs.foldr (fun x out => .list [ident "Coq_cons", x, out]) (ident "Coq_nil")

/-- `toString` of a string, which interpolation leaves behind. -/
theorem toString_string (s : String) : toString s = s := rfl

theorem coqList_prints {ss : List String} {xs : List Tree}
    (h : List.Forall₂ (fun s x => Prints s.toList x) ss xs) :
    Prints (coqList ss).toList (coqTree xs) := by
  induction h with
  | nil => exact ident_prints "Coq_nil" rfl
  | @cons s x ss xs hx _ ih =>
    have htext : (coqList (s :: ss)).toList =
        form ["Coq_cons".toList, s.toList, (coqList ss).toList] := by
      simp only [coqList, List.foldr_cons, toString_string, String.toList_append, form,
        List.intercalate_cons_cons, List.intercalate_singleton, List.append_assoc]
      rfl
    rw [htext]
    exact .form (.cons (ident_prints "Coq_cons" rfl) (.cons hx (.cons ih .nil)))

theorem coqList_map_prints {α : Type} {text : α → String} {tree : α → Tree}
    (h : ∀ a, Prints (text a).toList (tree a)) (l : List α) :
    Prints (coqList (l.map text)).toList (coqTree (l.map tree)) := by
  apply coqList_prints
  rw [List.forall₂_map_left_iff, List.forall₂_map_right_iff, List.forall₂_same]
  exact fun a _ => h a

/-- `(Coq_cons a (Coq_cons b Coq_nil))` -> [a, b]. -/
def readCoqList : Tree → Except Struct.Exn (List Tree)
  | .list (.atom s :: rest) =>
    if s = "Coq_cons".toList then
      match rest with
      | x :: n :: _ => do return x :: (← readCoqList n)
      | _ => .error .index
    else .ok []
  | _ => .ok []
termination_by structural n => n

/-- The reader of lists inverts their printing. -/
@[simp] theorem readCoqList_coqTree (xs : List Tree) : readCoqList (coqTree xs) = .ok xs := by
  induction xs with
  | nil => rfl
  | cons x xs ih =>
    rw [coqTree, List.foldr_cons, ident, readCoqList, if_pos rfl]
    change (do return x :: (← readCoqList (coqTree xs))) = _
    rw [ih]
    rfl

@[simp] theorem coqTree_inj {xs ys : List Tree} : coqTree xs = coqTree ys ↔ xs = ys := by
  refine ⟨fun h => ?_, fun h => h ▸ rfl⟩
  have hread := congrArg readCoqList h
  rw [readCoqList_coqTree, readCoqList_coqTree] at hread
  exact Except.ok.inj hread

/-! ## Names -/

def Width.name : Width → String
  | .w8 => "W8"
  | .w16 => "W16"
  | .w32 => "W32"
  | .w64 => "W64"

def BinOp.name : BinOp → String
  | .add => "AddOp"
  | .sub => "SubOp"
  | .and => "AndOp"
  | .or => "OrOp"
  | .xor => "XorOp"
  | .mul => "MulOp"
  | .div => "DivOp"
  | .mod => "ModOp"

def Cmp.name : Cmp → String
  | .eq => "CmpEq"
  | .gt => "CmpGt"
  | .lt => "CmpLt"

theorem Width.name_prints (w : Width) : Prints w.name.toList (ident w.name) :=
  ident_prints _ (by cases w <;> rfl)

theorem BinOp.name_prints (f : BinOp) : Prints f.name.toList (ident f.name) :=
  ident_prints _ (by cases f <;> rfl)

theorem Cmp.name_prints (c : Cmp) : Prints c.name.toList (ident c.name) :=
  ident_prints _ (by cases c <;> rfl)

@[simp] theorem Width.name_inj {w w' : Width} : w.name = w'.name ↔ w = w' := by
  cases w <;> cases w' <;> decide

@[simp] theorem BinOp.name_inj {f f' : BinOp} : f.name = f'.name ↔ f = f' := by
  cases f <;> cases f' <;> decide

@[simp] theorem Cmp.name_inj {c c' : Cmp} : c.name = c'.name ↔ c = c' := by
  cases c <;> cases c' <;> decide

/-! ## Operations -/

/-- `konst(v)` and `hdr(h)`. -/
def Operand.text : Operand → String
  | .const v => s!"(OpConst {v})"
  | .header h => s!"(OpHeader {h})"

def Operand.tree : Operand → Tree
  | .const v => .list [ident "OpConst", num v]
  | .header h => .list [ident "OpHeader", num h]

/-- `Ops.binop` -/
def binopText (op w a1 a2 : String) (target : Nat) : String :=
  s!"(StatelessOp {op} {w} {a1} {a2} {target})"

/-- `Ops.cast` -/
def castText (frm into arg : String) (target : Nat) : String :=
  s!"(CastHeaderOp {frm} {into} {arg} {target})"

/-- `Ops.load` -/
def loadText (w : String) (region : Nat) (off : String) (target : Nat) : String :=
  s!"(LoadOp {w} {region} {off} {target})"

/-- `Ops.store` -/
def storeText (w : String) (region : Nat) (off val : String) : String :=
  s!"(StoreOp {w} {region} {off} {val})"

def Op.text : Op → String
  | .stateless f w a1 a2 target => binopText f.name w.name a1.text a2.text target
  | .cast frm into arg target => castText frm.name into.name arg.text target
  | .load w region off target => loadText w.name region off.text target
  | .store w region off val => storeText w.name region off.text val.text

def Op.tree : Op → Tree
  | .stateless f w a1 a2 target =>
    .list [ident "StatelessOp", ident f.name, ident w.name, a1.tree, a2.tree, num target]
  | .cast frm into arg target =>
    .list [ident "CastHeaderOp", ident frm.name, ident into.name, arg.tree, num target]
  | .load w region off target =>
    .list [ident "LoadOp", ident w.name, num region, off.tree, num target]
  | .store w region off val =>
    .list [ident "StoreOp", ident w.name, num region, off.tree, val.tree]

theorem Operand.prints (a : Operand) : Prints a.text.toList a.tree := by
  cases a with
  | const v =>
    have htext : (text (.const v)).toList = form ["OpConst".toList, (toString v).toList] := by
      unfold text
      simp only [toString_string, String.toList_append, form, List.intercalate_cons_cons,
        List.intercalate_singleton, List.append_assoc]
      rfl
    rw [htext]
    exact .form (.cons (ident_prints "OpConst" rfl) (.cons (num_prints v) .nil))
  | header h =>
    have htext : (text (.header h)).toList = form ["OpHeader".toList, (toString h).toList] := by
      unfold text
      simp only [toString_string, String.toList_append, form, List.intercalate_cons_cons,
        List.intercalate_singleton, List.append_assoc]
      rfl
    rw [htext]
    exact .form (.cons (ident_prints "OpHeader" rfl) (.cons (num_prints h) .nil))

variable {sf sw su sa sb : String} {xf xw xu xa xb : Tree} (n k : Nat)

theorem binopText_prints (hf : Prints sf.toList xf) (hw : Prints sw.toList xw)
    (ha : Prints sa.toList xa) (hb : Prints sb.toList xb) :
    Prints (binopText sf sw sa sb n).toList
      (.list [ident "StatelessOp", xf, xw, xa, xb, num n]) := by
  have htext : (binopText sf sw sa sb n).toList = form ["StatelessOp".toList, sf.toList,
      sw.toList, sa.toList, sb.toList, (toString n).toList] := by
    unfold binopText
    simp only [toString_string, String.toList_append, form,
      List.intercalate_cons_cons, List.intercalate_singleton, List.append_assoc]
    rfl
  rw [htext]
  exact .form (.cons (ident_prints "StatelessOp" rfl) (.cons hf (.cons hw (.cons ha (.cons hb
    (.cons (num_prints n) .nil))))))

theorem castText_prints (hw : Prints sw.toList xw) (hu : Prints su.toList xu)
    (ha : Prints sa.toList xa) :
    Prints (castText sw su sa n).toList (.list [ident "CastHeaderOp", xw, xu, xa, num n]) := by
  have htext : (castText sw su sa n).toList = form ["CastHeaderOp".toList, sw.toList,
      su.toList, sa.toList, (toString n).toList] := by
    unfold castText
    simp only [toString_string, String.toList_append, form,
      List.intercalate_cons_cons, List.intercalate_singleton, List.append_assoc]
    rfl
  rw [htext]
  exact .form (.cons (ident_prints "CastHeaderOp" rfl) (.cons hw (.cons hu (.cons ha
    (.cons (num_prints n) .nil)))))

theorem loadText_prints (hw : Prints sw.toList xw) (ha : Prints sa.toList xa) :
    Prints (loadText sw k sa n).toList (.list [ident "LoadOp", xw, num k, xa, num n]) := by
  have htext : (loadText sw k sa n).toList = form ["LoadOp".toList, sw.toList,
      (toString k).toList, sa.toList, (toString n).toList] := by
    unfold loadText
    simp only [toString_string, String.toList_append, form,
      List.intercalate_cons_cons, List.intercalate_singleton, List.append_assoc]
    rfl
  rw [htext]
  exact .form (.cons (ident_prints "LoadOp" rfl) (.cons hw (.cons (num_prints k) (.cons ha
    (.cons (num_prints n) .nil)))))

theorem storeText_prints (hw : Prints sw.toList xw) (ha : Prints sa.toList xa)
    (hb : Prints sb.toList xb) :
    Prints (storeText sw k sa sb).toList (.list [ident "StoreOp", xw, num k, xa, xb]) := by
  have htext : (storeText sw k sa sb).toList = form ["StoreOp".toList, sw.toList,
      (toString k).toList, sa.toList, sb.toList] := by
    unfold storeText
    simp only [toString_string, String.toList_append, form,
      List.intercalate_cons_cons, List.intercalate_singleton, List.append_assoc]
    rfl
  rw [htext]
  exact .form (.cons (ident_prints "StoreOp" rfl) (.cons hw (.cons (num_prints k) (.cons ha
    (.cons hb .nil)))))

theorem Op.prints (op : Op) : Prints op.text.toList op.tree := by
  cases op with
  | stateless f w a1 a2 target =>
    exact binopText_prints target f.name_prints w.name_prints a1.prints a2.prints
  | cast frm into arg target =>
    exact castText_prints target frm.name_prints into.name_prints arg.prints
  | load w region off target => exact loadText_prints target region w.name_prints off.prints
  | store w region off val => exact storeText_prints region w.name_prints off.prints val.prints

@[simp] theorem Operand.tree_inj {a a' : Operand} : a.tree = a'.tree ↔ a = a' := by
  cases a <;> cases a' <;> simp [tree]

@[simp] theorem Op.tree_inj {op op' : Op} : op.tree = op'.tree ↔ op = op' := by
  cases op <;> cases op' <;> simp [tree]

/-! ## Rules and transformers -/

/-- `match_const` and `match_header`. -/
def MatchVal.text : MatchVal → String
  | .const k w => s!"(MatchConst {k} {w.name})"
  | .header h => s!"(MatchHeader {h})"

def MatchVal.tree : MatchVal → Tree
  | .const k w => .list [ident "MatchConst", num k, ident w.name]
  | .header h => .list [ident "MatchHeader", num h]

/-- `cmp_entry` -/
def MatchEntry.text (e : MatchEntry) : String :=
  s!"(Coq_pair (Coq_pair {e.lhs} {e.cmp.name}) {e.rhs.text})"

def MatchEntry.tree (e : MatchEntry) : Tree :=
  .list [ident "Coq_pair", .list [ident "Coq_pair", num e.lhs, ident e.cmp.name], e.rhs.tree]

/-- `rule`, and `default_rule` of no entries and no operations. -/
def Rule.text (r : Rule) : String :=
  s!"(Seq (SeqCtr {coqList (r.entries.map MatchEntry.text)} {coqList (r.ops.map Op.text)}))"

def Rule.tree (r : Rule) : Tree :=
  .list [ident "Seq", .list [ident "SeqCtr", coqTree (r.entries.map MatchEntry.tree),
    coqTree (r.ops.map Op.tree)]]

def Transformer.text (t : Transformer) : String :=
  s!"(TransformerModule {t.id} Coq_nil Coq_nil {coqList (t.rules.map Rule.text)})"

def Transformer.tree (t : Transformer) : Tree :=
  .list [ident "TransformerModule", num t.id, ident "Coq_nil", ident "Coq_nil",
    coqTree (t.rules.map Rule.tree)]

theorem MatchVal.prints (v : MatchVal) : Prints v.text.toList v.tree := by
  cases v with
  | const k w =>
    have htext : (text (.const k w)).toList =
        form ["MatchConst".toList, (toString k).toList, w.name.toList] := by
      unfold text
      simp only [toString_string, String.toList_append, form, List.intercalate_cons_cons,
        List.intercalate_singleton, List.append_assoc]
      rfl
    rw [htext]
    exact .form (.cons (ident_prints "MatchConst" rfl) (.cons (num_prints k) (.cons w.name_prints .nil)))
  | header h =>
    have htext : (text (.header h)).toList = form ["MatchHeader".toList, (toString h).toList] := by
      unfold text
      simp only [toString_string, String.toList_append, form, List.intercalate_cons_cons,
        List.intercalate_singleton, List.append_assoc]
      rfl
    rw [htext]
    exact .form (.cons (ident_prints "MatchHeader" rfl) (.cons (num_prints h) .nil))

theorem MatchEntry.prints (e : MatchEntry) : Prints e.text.toList e.tree := by
  have htext : e.text.toList = form ["Coq_pair".toList,
      form ["Coq_pair".toList, (toString e.lhs).toList, e.cmp.name.toList],
      e.rhs.text.toList] := by
    unfold text
    simp only [toString_string, String.toList_append, form, List.intercalate_cons_cons,
      List.intercalate_singleton, List.append_assoc, List.cons_append]
    rfl
  have hpair : Prints (form ["Coq_pair".toList, (toString e.lhs).toList, e.cmp.name.toList])
      (.list [ident "Coq_pair", num e.lhs, ident e.cmp.name]) :=
    .form (.cons (ident_prints "Coq_pair" rfl) (.cons (num_prints e.lhs) (.cons e.cmp.name_prints .nil)))
  rw [htext]
  exact .form (.cons (ident_prints "Coq_pair" rfl) (.cons hpair (.cons e.rhs.prints .nil)))

theorem Rule.prints (r : Rule) : Prints r.text.toList r.tree := by
  have htext : r.text.toList = form ["Seq".toList, form ["SeqCtr".toList,
      (coqList (r.entries.map MatchEntry.text)).toList,
      (coqList (r.ops.map Op.text)).toList]] := by
    unfold text
    simp only [toString_string, String.toList_append, form, List.intercalate_cons_cons,
      List.intercalate_singleton, List.append_assoc, List.cons_append]
    rfl
  have hctr := Prints.form (.cons (ident_prints "SeqCtr" rfl)
    (.cons (coqList_map_prints MatchEntry.prints r.entries)
      (.cons (coqList_map_prints Op.prints r.ops) .nil)))
  rw [htext]
  exact .form (.cons (ident_prints "Seq" rfl) (.cons hctr .nil))

theorem Transformer.prints (t : Transformer) : Prints t.text.toList t.tree := by
  have htext : t.text.toList = form ["TransformerModule".toList, (toString t.id).toList,
      "Coq_nil".toList, "Coq_nil".toList, (coqList (t.rules.map Rule.text)).toList] := by
    unfold text
    simp only [toString_string, String.toList_append, form, List.intercalate_cons_cons,
      List.intercalate_singleton, List.append_assoc]
    rfl
  rw [htext]
  exact .form (.cons (ident_prints "TransformerModule" rfl) (.cons (num_prints t.id) (.cons (ident_prints "Coq_nil" rfl)
    (.cons (ident_prints "Coq_nil" rfl) (.cons (coqList_map_prints Rule.prints t.rules) .nil)))))

theorem MatchVal.tree_injective : Function.Injective MatchVal.tree := by
  intro v v' h
  cases v <;> cases v' <;> simp_all [tree]

theorem MatchEntry.tree_injective : Function.Injective MatchEntry.tree := by
  intro e e' h
  obtain ⟨lhs, cmp, rhs⟩ := e
  obtain ⟨lhs', cmp', rhs'⟩ := e'
  simp only [tree, Tree.list.injEq, List.cons.injEq, num_inj, ident_inj, Cmp.name_inj,
    true_and, and_true] at h
  rw [h.1.1, h.1.2, MatchVal.tree_injective h.2]

theorem Rule.tree_injective : Function.Injective Rule.tree := by
  intro r r' h
  obtain ⟨entries, ops⟩ := r
  obtain ⟨entries', ops'⟩ := r'
  simp only [tree, Tree.list.injEq, List.cons.injEq, coqTree_inj, true_and, and_true] at h
  have hops : Function.Injective Op.tree := fun _ _ => Op.tree_inj.mp
  rw [MatchEntry.tree_injective.list_map h.1, hops.list_map h.2]

theorem Transformer.tree_injective : Function.Injective Transformer.tree := by
  intro t t' h
  obtain ⟨id, rules⟩ := t
  obtain ⟨id', rules'⟩ := t'
  simp only [tree, Tree.list.injEq, List.cons.injEq, num_inj, coqTree_inj, true_and,
    and_true] at h
  rw [h.1, Rule.tree_injective.list_map h.2]

end Ect
