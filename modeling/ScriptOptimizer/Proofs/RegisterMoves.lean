import Mathlib.Logic.Function.Basic
import ScriptOptimizer.IR.Basic

/-!
# Moves between registers

The copies at the end of a round of a loop move values into the registers of merging temps, after values
that stand in such registers were put aside. The main statement says when an operand has the same value
before and behind such moves.
-/

namespace ScriptOptimizer.IR

/-- The value of an operand, by the contents of the registers and the values of what is no temp. -/
def Operand.read {α : Type} (other : Operand → α) (regs : TempId → α) : Operand → α
  | temp t => regs t
  | x => other x

/-- A register and the operand whose value is moved into it. -/
abbrev Move := TempId × Operand

/-- The move that an action is, if it does nothing else. -/
def Action.move? : Action → Option Move
  | define t (.operand x) _ => some (t, x)
  | copy t (some x) => some (t, x)
  | _ => none

def Program.movesOf (p : Program) (xs : List StmtId) : List Move :=
  xs.filterMap fun s => (p.stmt s).action.move?

/-- The registers behind some moves. -/
def moved {α : Type} (other : Operand → α) : (TempId → α) → List Move → TempId → α
  | regs, [] => regs
  | regs, m :: ms => moved other (Function.update regs m.1 (m.2.read other regs)) ms

/-- Whatever the registers hold, some moves leave an operand its value. -/
def Operand.Survives (x : Operand) (ms : List Move) : Prop :=
  ∀ (α : Type) (other : Operand → α) (regs : TempId → α),
    x.read other (moved other regs ms) = x.read other regs

/-- Moves that act at once: none of them reads a register that one of them writes. -/
structure AtOnce (ms : List Move) : Prop where
  nodup : (ms.map Prod.fst).Nodup
  apart : ∀ m ∈ ms, ∀ t, m.2 = .temp t → t ∉ ms.map Prod.fst

section

variable {α : Type} {other : Operand → α} {regs : TempId → α} {ms ns : List Move} {t : TempId}
  {x : Operand}

theorem moved_append : moved other regs (ms ++ ns) = moved other (moved other regs ms) ns := by
  induction ms generalizing regs with
  | nil => rfl
  | cons m ms ih => exact ih

/-- A register that is not written keeps what it holds. -/
theorem moved_of_not_mem (h : t ∉ ms.map Prod.fst) : moved other regs ms t = regs t := by
  induction ms generalizing regs with
  | nil => rfl
  | cons m ms ih =>
    rw [List.map_cons, List.mem_cons, not_or] at h
    rw [moved, ih h.2, Function.update_of_ne h.1]

/-- What is no temp has its value whatever the registers hold; the value of a temp is in its register. -/
theorem Operand.read_congr {regs' : TempId → α} (h : ∀ t, x = .temp t → regs' t = regs t) :
    x.read other regs' = x.read other regs := by
  cases x with
  | temp t => exact h t rfl
  | _ => rfl

theorem AtOnce.tail {m : Move} (h : AtOnce (m :: ms)) : AtOnce ms where
  nodup := (List.nodup_cons.mp h.nodup).2
  apart n hn t ht hm := h.apart n (List.mem_cons_of_mem _ hn) t ht (List.mem_cons_of_mem _ hm)

/-- A register that is written once, and before nothing else changes what is written, holds the value
that the operand had at the start. -/
theorem AtOnce.moved_of_mem (h : AtOnce ms) (hm : (t, x) ∈ ms) :
    moved other regs ms t = x.read other regs := by
  induction ms generalizing regs with
  | nil => cases hm
  | cons m ms ih =>
    rcases List.mem_cons.mp hm with rfl | hm'
    · rw [moved, moved_of_not_mem (List.nodup_cons.mp h.nodup).1, Function.update_self]
    · rw [moved, ih h.tail hm']
      refine Operand.read_congr fun u hu => Function.update_of_ne ?_ _ _
      rintro rfl
      exact h.apart (t, x) hm _ hu List.mem_cons_self

end

/-- Values are put aside first and then copied. An operand survives that unless its own register is
copied into, if every copy brings another value than the register holds. -/
theorem Operand.survives_append_iff {x : Operand} {holds copies : List Move}
    (hcopies : AtOnce copies) (hx : ∀ t, x = .temp t → t ∉ holds.map Prod.fst)
    (hne : ∀ m ∈ copies, m.2.read id (moved id .temp holds) ≠ .temp m.1) :
    x.Survives (holds ++ copies) ↔ ∀ t, x = .temp t → t ∉ copies.map Prod.fst := by
  constructor
  · rintro h t rfl hm
    obtain ⟨⟨u, y⟩, hy, rfl⟩ := List.mem_map.mp hm
    -- The registers hold the operands that name them, so that a copy shows which operand it moved.
    have ht := h Operand id .temp
    rw [moved_append] at ht
    exact hne _ hy ((hcopies.moved_of_mem hy).symm.trans ht)
  · intro h α other regs
    refine read_congr fun t ht => ?_
    rw [moved_append, moved_of_not_mem (h t ht), moved_of_not_mem (hx t ht)]

end ScriptOptimizer.IR
