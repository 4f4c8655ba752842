-- SUMMARY: S-expressions as text: tokens, line comments, a reader of bounded nesting, and that it inverts printing.
import Ect.Base.Struct
import Mathlib.Data.List.Forall2
import Mathlib.Data.List.Induction
import Mathlib.Data.List.TakeWhile

/-!
# S-expressions

A text is cut into parentheses and words; a reader builds a tree from the tokens, one level
of recursion for each level of nesting. Reading the tokens of a tree gives the tree back,
exactly when the recursion limit is not below its depth.
-/

namespace Sexp

open Struct

/-! ## Trees and their tokens -/

/-- A parenthesis or a word. -/
abbrev Tok := List Char

inductive Tree where
  | atom (s : Tok)
  | list (xs : List Tree)

mutual

/-- The tokens of a tree, in order. -/
def Tree.toks : Tree → List Tok
  | .atom s => [s]
  | .list xs => ['('] :: (allToks xs ++ [[')']])

def allToks : List Tree → List Tok
  | [] => []
  | x :: xs => x.toks ++ allToks xs

end

mutual

/-- The levels of recursion it takes to read a tree. -/
def Tree.depth : Tree → Nat
  | .atom _ => 1
  | .list xs => maxDepth xs + 1

def maxDepth : List Tree → Nat
  | [] => 0
  | x :: xs => max x.depth (maxDepth xs)

end

def isParen (c : Char) : Bool := c == '(' || c == ')'

/-- `str.isspace`, which is what `\s` matches. -/
def isSpace (c : Char) : Bool :=
  let n := c.toNat
  (0x09 ≤ n && n ≤ 0x0d) || (0x1c ≤ n && n ≤ 0x20) || n == 0x85 || n == 0xa0 || n == 0x1680 ||
    (0x2000 ≤ n && n ≤ 0x200a) || n == 0x2028 || n == 0x2029 || n == 0x202f || n == 0x205f ||
    n == 0x3000

/-- A character of a word. -/
def isWord (c : Char) : Bool := !isParen c && !isSpace c

/-- A word is a nonempty run of characters that are no parentheses and no spaces. -/
def Word (s : Tok) : Prop := s ≠ [] ∧ ∀ c ∈ s, isWord c = true

mutual

/-- Every atom of the tree is a word. -/
def Tree.Worded : Tree → Prop
  | .atom s => Word s
  | .list xs => AllWorded xs

def AllWorded : List Tree → Prop
  | [] => True
  | x :: xs => x.Worded ∧ AllWorded xs

end

theorem Word.ne_paren {s : Tok} {c : Char} (h : Word s) (hc : isParen c = true) : s ≠ [c] := by
  rintro rfl
  have hword := h.2 c (by simp)
  simp [isWord, hc] at hword

/-! ## Reading tokens -/

/-- The elements up to the closing parenthesis, each read by `one`. Every element takes a
token, so the number of tokens is enough fuel. -/
def items (one : List Tok → Except Exn (Tree × List Tok)) :
    Nat → List Tok → Except Exn (List Tree × List Tok)
  | _, [] => .error .index
  | 0, _ :: _ => .error .index
  | fuel + 1, t :: ts =>
    if t = [')'] then .ok ([], ts)
    else do
      let (x, rest) ← one (t :: ts)
      let (xs, rest) ← items one fuel rest
      return (x :: xs, rest)

/-- The tree at the head of the tokens, and what is left. -/
def node : Nat → List Tok → Except Exn (Tree × List Tok)
  | 0, _ => .error .recursion
  | _ + 1, [] => .error .index
  | limit + 1, t :: ts =>
    if t = ['('] then do
      let (xs, rest) ← items (node limit) (ts.length + 1) ts
      return (.list xs, rest)
    else .ok (.atom t, ts)

theorem toks_ne_nil (x : Tree) : x.toks ≠ [] := by
  cases x <;> simp [Tree.toks]

theorem length_le_allToks (xs : List Tree) : xs.length ≤ (allToks xs).length := by
  induction xs with
  | nil => exact Nat.le_refl _
  | cons x xs ih =>
    have hpos := List.length_pos_iff.mpr (toks_ne_nil x)
    simp only [allToks, List.length_append, List.length_cons]
    omega

/-- No tree starts with a closing parenthesis. -/
theorem toks_head {x : Tree} (h : x.Worded) : ∃ t ts, x.toks = t :: ts ∧ t ≠ [')'] := by
  cases x with
  | atom s => exact ⟨s, [], rfl, Word.ne_paren h (by decide)⟩
  | list xs => exact ⟨_, _, rfl, by decide⟩

theorem node_zero (ts : List Tok) : node 0 ts = .error .recursion := by
  cases ts <;> rfl

mutual

/-- The reader gets the tree whose tokens come first, unless it nests too deeply. -/
theorem node_toks (limit : Nat) (rest : List Tok) : (x : Tree) → x.Worded →
    node limit (x.toks ++ rest) =
      if x.depth ≤ limit then .ok (x, rest) else .error .recursion
  | .atom s, h => by
    have hne : s ≠ ['('] := Word.ne_paren h (by decide)
    cases limit with
    | zero => rw [node_zero]; rfl
    | succ limit => simp [Tree.toks, Tree.depth, node, hne]
  | .list xs, h => by
    cases limit with
    | zero => rw [node_zero]; rfl
    | succ limit =>
      have hfuel : xs.length < (allToks xs ++ [[')']] ++ rest).length + 1 := by
        have := length_le_allToks xs
        simp only [List.length_append]
        omega
      have hitems := items_toks limit rest xs h _ hfuel
      simp only [Tree.toks, List.cons_append, List.append_assoc, node, if_true] at hitems ⊢
      rw [hitems]
      simp only [Tree.depth, Nat.add_le_add_iff_right]
      split <;> rfl

theorem items_toks (limit : Nat) (rest : List Tok) : (xs : List Tree) → AllWorded xs →
    (fuel : Nat) → xs.length < fuel →
    items (node limit) fuel (allToks xs ++ [[')']] ++ rest) =
      if maxDepth xs ≤ limit then .ok (xs, rest) else .error .recursion
  | [], _, fuel, hfuel => by
    obtain ⟨fuel, rfl⟩ : ∃ m, fuel = m + 1 := ⟨fuel - 1, by omega⟩
    simp [allToks, maxDepth, items]
  | x :: xs, h, fuel, hfuel => by
    obtain ⟨fuel, rfl⟩ : ∃ m, fuel = m + 1 := ⟨fuel - 1, by omega⟩
    rw [List.length_cons] at hfuel
    obtain ⟨t, ts, htoks, hne⟩ := toks_head h.1
    have hone := node_toks limit (allToks xs ++ [[')']] ++ rest) x h.1
    have hrest := items_toks limit rest xs h.2 fuel (by omega)
    simp only [allToks, List.append_assoc, htoks, List.cons_append] at hone hrest ⊢
    rw [items, if_neg hne, hone, maxDepth]
    by_cases hx : x.depth ≤ limit
    · rw [if_pos hx]
      simp only [bind, Except.bind]
      rw [hrest]
      by_cases hxs : maxDepth xs ≤ limit
      · rw [if_pos hxs, if_pos (Nat.max_le.mpr ⟨hx, hxs⟩)]
        rfl
      · rw [if_neg hxs, if_neg fun hle => hxs (Nat.max_le.mp hle).2]
    · rw [if_neg hx, if_neg fun hle => hx (Nat.max_le.mp hle).1]
      rfl

end

/-! ## Tokens of a text -/

/-- The word read so far, if there is one. -/
def flush (acc : Tok) : List Tok := if acc = [] then [] else [acc]

/-- The tokens of a text that goes on the word `acc`. -/
def scan (acc : Tok) : List Char → List Tok
  | [] => flush acc
  | c :: cs =>
    if isParen c then flush acc ++ [c] :: scan [] cs
    else if isSpace c then flush acc ++ scan [] cs
    else scan (acc ++ [c]) cs

/-- `re.findall` of a parenthesis or a run of other characters that are no spaces. -/
def tokenize (text : List Char) : List Tok := scan [] text

theorem scan_paren (acc : Tok) (s : List Char) {c : Char} (hc : isParen c = true) (u : List Char) :
    scan acc (s ++ c :: u) = scan acc s ++ [c] :: tokenize u := by
  induction s generalizing acc with
  | nil => simp [scan, hc, tokenize]
  | cons d s ih =>
    rw [List.cons_append, scan, scan, ih, ih]
    split
    · simp
    · split <;> simp

theorem scan_space (acc : Tok) (s : List Char) {c : Char} (hp : isParen c = false)
    (hc : isSpace c = true) (u : List Char) :
    scan acc (s ++ c :: u) = scan acc s ++ tokenize u := by
  induction s generalizing acc with
  | nil => simp [scan, hp, hc, tokenize]
  | cons d s ih =>
    rw [List.cons_append, scan, scan, ih, ih]
    split
    · simp
    · split <;> simp

theorem scan_word (acc : Tok) {w : Tok} (h : ∀ c ∈ w, isWord c = true) (u : List Char) :
    scan acc (w ++ u) = scan (acc ++ w) u := by
  induction w generalizing acc with
  | nil => simp
  | cons c w ih =>
    have hc := h c (by simp)
    simp only [isWord, Bool.and_eq_true, Bool.not_eq_true'] at hc
    rw [List.cons_append, scan, if_neg (by simp [hc.1]), if_neg (by simp [hc.2]),
      ih (acc ++ [c]) fun d hd => h d (by simp [hd])]
    simp

@[simp] theorem tokenize_nil : tokenize [] = [] := rfl

/-- A parenthesis is a token of its own, wherever it stands. -/
theorem tokenize_paren (s : List Char) {c : Char} (hc : isParen c = true) (u : List Char) :
    tokenize (s ++ c :: u) = tokenize s ++ [c] :: tokenize u := scan_paren [] s hc u

/-- A space separates. -/
theorem tokenize_space (s : List Char) {c : Char} (hp : isParen c = false)
    (hc : isSpace c = true) (u : List Char) :
    tokenize (s ++ c :: u) = tokenize s ++ tokenize u := scan_space [] s hp hc u

theorem tokenize_word {w : Tok} (h : Word w) : tokenize w = [w] := by
  have hscan := scan_word [] h.2 []
  rw [List.append_nil, List.nil_append] at hscan
  rw [tokenize, hscan, scan, flush, if_neg h.1]

/-- A parenthesised list of texts. -/
def form (ss : List (List Char)) : List Char := '(' :: (List.intercalate [' '] ss ++ [')'])

theorem tokenize_spaced (ss : List (List Char)) :
    tokenize (List.intercalate [' '] ss) = ss.flatMap tokenize := by
  induction ss with
  | nil => rfl
  | cons s ss ih =>
    cases ss with
    | nil => simp [List.intercalate]
    | cons s' ss =>
      rw [List.intercalate_cons_cons, List.append_assoc, List.singleton_append,
        tokenize_space _ (by decide) (by decide), ih]
      rfl

theorem tokenize_form (ss : List (List Char)) :
    tokenize (form ss) = ['('] :: (ss.flatMap tokenize ++ [[')']]) := by
  have hopen := tokenize_paren [] (show isParen '(' = true from rfl) (List.intercalate [' '] ss ++ [')'])
  have hclose := tokenize_paren (List.intercalate [' '] ss) (show isParen ')' = true from rfl) []
  rw [List.nil_append] at hopen
  rw [form, hopen, hclose, tokenize_spaced]
  rfl

/-! ## Lines and comments -/

/-- The characters `str.splitlines` breaks at. -/
def isBreak (c : Char) : Bool :=
  let n := c.toNat
  (0x0a ≤ n && n ≤ 0x0d) || (0x1c ≤ n && n ≤ 0x1e) || n == 0x85 || n == 0x2028 || n == 0x2029

/-- The lines of a text that goes on the line `acc`. A carriage return and the newline after
it are one break. -/
def linesFrom (acc : List Char) : List Char → List (List Char)
  | [] => flush acc
  | '\r' :: '\n' :: cs => acc :: linesFrom [] cs
  | c :: cs => if isBreak c then acc :: linesFrom [] cs else linesFrom (acc ++ [c]) cs

/-- `str.splitlines`. -/
def splitLines (text : List Char) : List (List Char) := linesFrom [] text

/-- The line up to the first `;`. -/
def beforeComment (line : List Char) : List Char := line.takeWhile (· ≠ ';')

/-- The text without its line comments. -/
def uncomment (text : List Char) : List Char :=
  List.intercalate ['\n'] ((splitLines text).map beforeComment)

/-- S-expression to tree. `;` starts a line comment. What follows the first tree is ignored. -/
def parse (limit : Nat) (text : List Char) : Except Exn Tree := do
  let (x, _) ← node limit (tokenize (uncomment text))
  return x

/-- Text without a line break. -/
def OneLine (s : List Char) : Prop := ∀ c ∈ s, isBreak c = false

theorem linesFrom_oneLine (acc : List Char) {s : List Char} (h : OneLine s) (u : List Char) :
    linesFrom acc (s ++ '\n' :: u) = (acc ++ s) :: linesFrom [] u := by
  induction s generalizing acc with
  | nil => simp [linesFrom, isBreak]
  | cons c s ih =>
    have hc : isBreak c = false := h c (by simp)
    have hr : c ≠ '\r' := by
      rintro rfl
      revert hc
      decide
    rw [List.cons_append, linesFrom.eq_3 _ _ _ (fun _ he _ => hr he), if_neg (by simp [hc]),
      ih (acc ++ [c]) fun d hd => h d (by simp [hd])]
    simp

/-- Lines that are ended one by one are split again. -/
theorem splitLines_flatMap {ls : List (List Char)} (h : ∀ l ∈ ls, OneLine l) :
    splitLines (ls.flatMap (· ++ ['\n'])) = ls := by
  induction ls with
  | nil => rfl
  | cons l ls ih =>
    have hl := linesFrom_oneLine [] (h l (by simp)) (ls.flatMap (· ++ ['\n']))
    have hrest := ih fun l' hl' => h l' (by simp [hl'])
    rw [splitLines] at hrest ⊢
    simp only [List.flatMap_cons, List.append_assoc, List.singleton_append] at hl ⊢
    rw [hl, hrest, List.nil_append]

theorem tokenize_intercalate (ls : List (List Char)) :
    tokenize (List.intercalate ['\n'] ls) = ls.flatMap tokenize := by
  induction ls with
  | nil => rfl
  | cons l ls ih =>
    cases ls with
    | nil => simp [List.intercalate]
    | cons l' ls =>
      rw [List.intercalate_cons_cons, List.append_assoc, List.singleton_append,
        tokenize_space _ (by decide) (by decide), ih]
      rfl

theorem isSpace_of_isBreak {c : Char} (h : isBreak c = true) : isSpace c = true := by
  simp only [isBreak, isSpace, Bool.or_eq_true, Bool.and_eq_true, decide_eq_true_eq,
    beq_iff_eq] at h ⊢
  omega

/-! ## Texts that print a tree -/

/-- Text without line breaks and comments. -/
def Plain (s : List Char) : Prop := ∀ c ∈ s, isBreak c = false ∧ c ≠ ';'

/-- A text whose tokens are those of the tree. -/
structure Prints (s : List Char) (x : Tree) : Prop where
  toks : tokenize s = x.toks
  worded : x.Worded
  plain : Plain s

instance decidableOneLine (s : List Char) : Decidable (OneLine s) :=
  List.decidableBAll (isBreak · = false) s

instance decidablePlain (s : List Char) : Decidable (Plain s) :=
  List.decidableBAll (fun c => isBreak c = false ∧ c ≠ ';') s

theorem oneLine_append {s u : List Char} : OneLine (s ++ u) ↔ OneLine s ∧ OneLine u :=
  List.forall_mem_append

/-- The last line of a text, and what is before it. -/
theorem lastLine_inj {u v s t : List Char} (hs : OneLine s) (ht : OneLine t)
    (h : u ++ '\n' :: s = v ++ '\n' :: t) : u = v ∧ s = t := by
  have hbreak {a s t : List Char} (hs : OneLine s) (h : '\n' :: s = a ++ '\n' :: t) : a = [] := by
    cases a with
    | nil => rfl
    | cons c a =>
      obtain rfl := (List.cons.inj h).2
      exact absurd (hs '\n' (by simp)) (by decide)
  rcases List.append_eq_append_iff.mp h with ⟨a, rfl, h'⟩ | ⟨a, rfl, h'⟩
  · obtain rfl := hbreak hs h'
    exact ⟨(List.append_nil u).symm, (List.cons.inj h').2⟩
  · obtain rfl := hbreak ht h'
    exact ⟨List.append_nil v, (List.cons.inj h').2.symm⟩

/-- The last lines of a text, given how many, and what is before them. -/
theorem lastLines_inj {u v : List Char} {ls ls' : List (List Char)}
    (hlen : ls.length = ls'.length) (hls : ∀ l ∈ ls, OneLine l) (hls' : ∀ l ∈ ls', OneLine l)
    (h : u ++ ls.flatMap ('\n' :: ·) = v ++ ls'.flatMap ('\n' :: ·)) : u = v ∧ ls = ls' := by
  induction ls using List.reverseRecOn generalizing ls' with
  | nil =>
    obtain rfl := List.length_eq_zero_iff.mp hlen.symm
    simpa using h
  | append_singleton ls l ih =>
    rcases ls'.eq_nil_or_concat' with rfl | ⟨ls', l', rfl⟩
    · simp at hlen
    · simp only [List.forall_mem_append, List.forall_mem_singleton, List.length_append,
        List.length_singleton] at hlen hls hls'
      simp only [List.flatMap_append, List.flatMap_singleton, ← List.append_assoc] at h
      obtain ⟨hfront, rfl⟩ := lastLine_inj hls.2 hls'.2 h
      obtain ⟨rfl, rfl⟩ := ih (Nat.add_right_cancel hlen) hls.1 hls'.1 hfront
      exact ⟨rfl, rfl⟩

theorem flatMap_break (l : List Char) (ls : List (List Char)) :
    (l :: ls).flatMap (· ++ ['\n']) = l ++ ls.flatMap ('\n' :: ·) ++ ['\n'] := by
  induction ls generalizing l with
  | nil => simp
  | cons l' ls ih =>
    rw [List.flatMap_cons, ih]
    simp

theorem Plain.append {s u : List Char} (hs : Plain s) (hu : Plain u) : Plain (s ++ u) :=
  fun c hc => (List.mem_append.mp hc).elim (hs c) (hu c)

theorem Plain.oneLine {s : List Char} (h : Plain s) : OneLine s := fun c hc => (h c hc).1

/-- Nothing of a plain text is in a comment. -/
theorem Plain.beforeComment {s : List Char} (h : Plain s) : beforeComment s = s := by
  rw [Sexp.beforeComment, List.takeWhile_eq_self_iff]
  exact fun c hc => decide_eq_true (h c hc).2

theorem plain_form {ss : List (List Char)} (h : ∀ s ∈ ss, Plain s) : Plain (form ss) := by
  have hmid : Plain (List.intercalate [' '] ss) := by
    induction ss with
    | nil => exact fun c hc => absurd hc List.not_mem_nil
    | cons s ss ih =>
      have hs := h s List.mem_cons_self
      have hss := ih fun u hu => h u (List.mem_cons_of_mem _ hu)
      cases ss with
      | nil => simpa [List.intercalate] using hs
      | cons s' ss =>
        rw [List.intercalate_cons_cons]
        exact (hs.append (by simp [Plain, isBreak])).append hss
  have hopen : Plain ['('] := by simp [Plain, isBreak]
  have hclose : Plain [')'] := by simp [Plain, isBreak]
  exact hopen.append (hmid.append hclose)

/-- A word without the character that starts a comment. -/
theorem Prints.atom {s : Tok} (h : Word s) (hbare : ';' ∉ s) : Prints s (.atom s) where
  toks := tokenize_word h
  worded := h
  plain c hc := by
    have hword := h.2 c hc
    simp only [isWord, Bool.and_eq_true, Bool.not_eq_true'] at hword
    constructor
    · exact Bool.eq_false_iff.mpr fun hb => by simp [isSpace_of_isBreak hb] at hword
    · rintro rfl
      exact hbare hc

/-- Texts that print trees print their list. -/
theorem Prints.form {ss : List (List Char)} {xs : List Tree} (h : List.Forall₂ Prints ss xs) :
    Prints (form ss) (.list xs) := by
  refine ⟨?_, ?_, plain_form ?_⟩
  · rw [tokenize_form, Tree.toks]
    congr 2
    induction h with
    | nil => rfl
    | cons hx _ ih => rw [List.flatMap_cons, hx.toks, ih, allToks]
  · rw [Tree.Worded]
    induction h with
    | nil => trivial
    | cons hx _ ih => exact ⟨hx.worded, ih⟩
  · induction h with
    | nil => exact fun s hs => absurd hs List.not_mem_nil
    | cons hx _ ih => exact List.forall_mem_cons.mpr ⟨hx.plain, ih⟩

/-- A text of lines, comments included, reads as the tree whose tokens its lines hold. -/
theorem parse_lines {ls : List (List Char)} {x : Tree} (limit : Nat)
    (hls : ∀ l ∈ ls, OneLine l) (hx : x.Worded)
    (htoks : ls.flatMap (fun l => tokenize (beforeComment l)) = x.toks) :
    parse limit (ls.flatMap (· ++ ['\n'])) =
      if x.depth ≤ limit then .ok x else .error .recursion := by
  have htok : tokenize (uncomment (ls.flatMap (· ++ ['\n']))) = x.toks ++ [] := by
    rw [uncomment, splitLines_flatMap hls, tokenize_intercalate, List.flatMap_map, htoks,
      List.append_nil]
  rw [parse, htok, node_toks limit [] x hx]
  split <;> rfl

end Sexp
