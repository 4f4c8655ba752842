-- SUMMARY: The abstract state of the translator: region tags, known offsets and constants, and their join.
import Ect.Translate.MapInfo
import Mathlib.Order.Basic

/-!
# Pointer provenance

Each register carries an abstract region tag. A load or store needs one to know
which declared region to name, and the stack needs a constant offset on top of
that to pick a slot header.
-/

namespace Ect

/-- The context a program is called with: how big the ctx region is, and which
fields hold pointers into the packet. -/
structure CtxLayout where
  name : String
  length : Nat
  dataOff : Nat
  dataEndOff : Nat
  /-- The struct is far smaller than the address space. -/
  length_lt : length < 2 ^ 32
  deriving DecidableEq, Repr

def ctxXdpMd : CtxLayout := ⟨"xdp_md", 20, 0, 4, by decide⟩
def ctxSkBuff : CtxLayout := ⟨"__sk_buff", 192, 76, 80, by decide⟩

/-- `scalar` is a plain integer; `unknown` is the join of two disagreeing tags,
and using it as a memory base is an error rather than a guess. `map` is the map
object itself; `mapval` is what a successful lookup returns. -/
inductive Tag where
  | scalar | ctx | pkt | stack | map | mapval | unknown
  deriving DecidableEq, Repr

structure RegInfo where
  tag : Tag := .scalar
  off : Int := 0
  offKnown : Bool := true
  mapidx : Int := -1
  /-- The value of a scalar, where it is statically known. -/
  const : Option Nat := none
  deriving DecidableEq, Repr

def RegInfo.scalar : RegInfo := {}

def scalarConst (v : Nat) : RegInfo := ⟨.scalar, 0, true, -1, some (v % 2 ^ 64)⟩

def pointer (tag : Tag) (off : Int) : RegInfo := ⟨tag, off, true, -1, none⟩

def mapPointer (tag : Tag) (off : Int) (mapidx : Int) : RegInfo := ⟨tag, off, true, mapidx, none⟩

def joinReg (a b : RegInfo) : RegInfo :=
  if a.tag ≠ b.tag ∨ a.mapidx ≠ b.mapidx then ⟨.unknown, 0, false, -1, none⟩
  else
    let known := a.offKnown && b.offKnown && a.off == b.off
    let const := if a.const = b.const then a.const else none
    ⟨a.tag, if known then a.off else 0, known, a.mapidx, const⟩

/-- Abstract state on entry to a block: a tag per register and per stack slot,
plus whether the block has been reached at all. Only the registers below
`numBpfRegs` and the slots up to `bpfStackSize` are ever asked for. -/
structure AbsState where
  reg : Nat → RegInfo
  slot : Nat → RegInfo
  live : Bool

namespace AbsState

def init : AbsState := ⟨fun _ => .scalar, fun _ => .scalar, false⟩

def setReg (st : AbsState) (r : Nat) (v : RegInfo) : AbsState :=
  { st with reg := fun r' => if r' = r then v else st.reg r' }

def setSlot (st : AbsState) (k : Nat) (v : RegInfo) : AbsState :=
  { st with slot := fun k' => if k' = k then v else st.slot k' }

/-- The call clobbers `r1` to `r5`. -/
def clobber (st : AbsState) : AbsState :=
  { st with reg := fun r => if 1 ≤ r ∧ r < 6 then .scalar else st.reg r }

def joinFrom (st src : AbsState) : AbsState :=
  if !src.live then st
  else if !st.live then { reg := src.reg, slot := src.slot, live := true }
  else { st with
    reg := fun r => joinReg (st.reg r) (src.reg r)
    slot := fun k => joinReg (st.slot k) (src.slot k) }

@[simp] theorem setReg_reg (st : AbsState) (r r' : Nat) (v : RegInfo) :
    (st.setReg r v).reg r' = if r' = r then v else st.reg r' := rfl
@[simp] theorem setReg_slot (st : AbsState) (r : Nat) (v : RegInfo) :
    (st.setReg r v).slot = st.slot := rfl
@[simp] theorem setReg_live (st : AbsState) (r : Nat) (v : RegInfo) :
    (st.setReg r v).live = st.live := rfl
@[simp] theorem setSlot_reg (st : AbsState) (k : Nat) (v : RegInfo) :
    (st.setSlot k v).reg = st.reg := rfl
@[simp] theorem setSlot_slot (st : AbsState) (k k' : Nat) (v : RegInfo) :
    (st.setSlot k v).slot k' = if k' = k then v else st.slot k' := rfl
@[simp] theorem setSlot_live (st : AbsState) (k : Nat) (v : RegInfo) :
    (st.setSlot k v).live = st.live := rfl
@[simp] theorem clobber_slot (st : AbsState) : st.clobber.slot = st.slot := rfl
@[simp] theorem clobber_live (st : AbsState) : st.clobber.live = st.live := rfl
theorem clobber_reg (st : AbsState) (r : Nat) :
    st.clobber.reg r = if 1 ≤ r ∧ r < 6 then .scalar else st.reg r := rfl

end AbsState

/-! ## The join as an upper bound

`a ≤ b` when `b` says no more than `a`: whatever `b` knows of a register, `a`
knows too, and the tag is the same unless `b` gave it up, together with the constant. -/

structure RegInfo.Le (a b : RegInfo) : Prop where
  tag : b.tag = .unknown ∨ (b.tag = a.tag ∧ b.mapidx = a.mapidx)
  off : b.offKnown = true → a.offKnown = true ∧ a.off = b.off
  const : ∀ c, b.const = some c → a.const = some c ∧ b.tag = a.tag

instance : Preorder RegInfo where
  le := RegInfo.Le
  le_refl a := ⟨.inr ⟨rfl, rfl⟩, fun h => ⟨h, rfl⟩, fun _ h => ⟨h, rfl⟩⟩
  le_trans a b c hab hbc := by
    refine ⟨?_, ?_, fun k h => ?_⟩
    · rcases hbc.tag with h | ⟨h, h'⟩
      · exact .inl h
      · rcases hab.tag with g | ⟨g, g'⟩
        · exact .inl (h.trans g)
        · exact .inr ⟨h.trans g, h'.trans g'⟩
    · intro h
      obtain ⟨hb, hoff⟩ := hbc.off h
      obtain ⟨ha, hoff'⟩ := hab.off hb
      exact ⟨ha, hoff'.trans hoff⟩
    · obtain ⟨hb, htag⟩ := hbc.const k h
      obtain ⟨ha, htag'⟩ := hab.const k hb
      exact ⟨ha, htag.trans htag'⟩

theorem RegInfo.Le.tag_eq {a b : RegInfo} (h : a ≤ b) (hb : b.tag ≠ .unknown) :
    b.tag = a.tag ∧ b.mapidx = a.mapidx :=
  h.tag.resolve_left hb

theorem le_joinReg_left (a b : RegInfo) : a ≤ joinReg a b := by
  unfold joinReg
  split
  · exact ⟨.inl rfl, by simp, by simp⟩
  · refine ⟨.inr ⟨rfl, rfl⟩, ?_, ?_⟩
    · intro hk
      simp only [Bool.and_eq_true, beq_iff_eq] at hk
      simp [hk]
    · intro c hc
      dsimp only at hc
      split at hc
      · exact ⟨hc, rfl⟩
      · cases hc

theorem le_joinReg_right (a b : RegInfo) : b ≤ joinReg a b := by
  unfold joinReg
  split
  · exact ⟨.inl rfl, by simp, by simp⟩
  · rename_i hsame
    simp only [not_or, not_not] at hsame
    refine ⟨.inr hsame, ?_, ?_⟩
    · intro hk
      simp only [Bool.and_eq_true, beq_iff_eq] at hk
      simp [hk]
    · intro c hc
      dsimp only at hc
      split at hc
      · rename_i heq
        rw [← heq]; exact ⟨hc, hsame.1⟩
      · cases hc

namespace AbsState

instance : Preorder AbsState where
  le a b := (∀ r, a.reg r ≤ b.reg r) ∧ ∀ k, a.slot k ≤ b.slot k
  le_refl a := ⟨fun r => le_refl _, fun k => le_refl _⟩
  le_trans a b c hab hbc :=
    ⟨fun r => le_trans (hab.1 r) (hbc.1 r), fun k => le_trans (hab.2 k) (hbc.2 k)⟩

theorem le_joinFrom_left {st : AbsState} (src : AbsState) (h : st.live = true) :
    st ≤ st.joinFrom src ∧ (st.joinFrom src).live = true := by
  unfold joinFrom
  simp only [h, Bool.not_true, Bool.false_eq_true, if_false]
  split
  · exact ⟨le_refl _, h⟩
  · exact ⟨⟨fun r => le_joinReg_left _ _, fun k => le_joinReg_left _ _⟩, rfl⟩

theorem le_joinFrom_right (st : AbsState) {src : AbsState} (h : src.live = true) :
    src ≤ st.joinFrom src ∧ (st.joinFrom src).live = true := by
  unfold joinFrom
  simp only [h, Bool.not_true, Bool.false_eq_true, if_false]
  split
  · exact ⟨⟨fun r => le_refl _, fun k => le_refl _⟩, rfl⟩
  · rename_i hst
    have hst : st.live = true := by simpa using hst
    exact ⟨⟨fun r => le_joinReg_right _ _, fun k => le_joinReg_right _ _⟩, hst⟩

end AbsState

end Ect
