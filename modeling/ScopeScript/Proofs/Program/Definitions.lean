import Mathlib.Data.List.Nodup
import ScopeScript.Syntax.Stmt

/-!
# The definitions of a program

The function definitions that occur in a program, at any depth, in the order of the text. A function
value is a definition with its tag, so a tag must not stand for two definitions that differ.

* `Stmt.defsAll`: the definitions, one before those in its body.
* `Block.Tagged`: a tag tells which definition it is on.
* `Stmt.defsAll_subset`: what a body defines is defined by the program that the body is from.

Main statement:

* `Block.tagged_number`: the definitions of a numbered program are told apart by their numbers.
-/

namespace ScopeScript

variable {δ : Type}

mutual

/-- The definitions in a statement, at any depth. -/
def Stmt.defs : Stmt δ → List (FuncDef δ)
  | .assign _ _ _ => []
  | .assert _ => []
  | .cond _ b .none => Stmt.defsAll b
  | .cond _ b (.some o) => Stmt.defsAll b ++ Stmt.defsAll o
  | .ret _ => []
  | .funcDef tag n ps b => ⟨tag, n, ps, b⟩ :: Stmt.defsAll b
  | .simple ss => Stmt.defsAll ss
  | .expr _ => []
  | .pass => []

/-- The definitions in several statements, at any depth. -/
def Stmt.defsAll : List (Stmt δ) → List (FuncDef δ)
  | [] => []
  | s :: ss => Stmt.defs s ++ Stmt.defsAll ss

end

/-- A tag tells which of the definitions it is on. -/
def Block.Tagged (p : Block δ) : Prop :=
  ∀ d ∈ Stmt.defsAll p, ∀ d' ∈ Stmt.defsAll p, d.tag = d'.tag → d = d'

/-! ### Definitions in bodies -/

mutual

/-- The body of a definition in a statement defines nothing else than the statement does. -/
theorem Stmt.defs_subset {d : FuncDef δ} :
    ∀ s : Stmt δ, d ∈ s.defs → Stmt.defsAll d.body ⊆ s.defs
  | .assign _ _ _, h | .assert _, h | .ret _, h | .expr _, h | .pass, h => by
    simp [Stmt.defs] at h
  | .cond _ b .none, h => by
    simp only [Stmt.defs] at h ⊢
    exact Stmt.defsAll_subset b h
  | .cond _ b (.some o), h => by
    simp only [Stmt.defs, List.mem_append] at h ⊢
    rcases h with h | h
    · exact List.subset_append_of_subset_left _ (Stmt.defsAll_subset b h)
    · exact List.subset_append_of_subset_right _ (Stmt.defsAll_subset o h)
  | .funcDef tag n ps b, h => by
    simp only [Stmt.defs, List.mem_cons] at h ⊢
    -- The definition is the statement itself, or stands in its body.
    rcases h with rfl | h
    · exact List.subset_cons_self _ _
    · exact List.subset_cons_of_subset _ (Stmt.defsAll_subset b h)
  | .simple ss, h => by
    simp only [Stmt.defs] at h ⊢
    exact Stmt.defsAll_subset ss h

/-- The body of a definition in several statements defines nothing else than they do. -/
theorem Stmt.defsAll_subset {d : FuncDef δ} :
    ∀ ss : List (Stmt δ), d ∈ Stmt.defsAll ss → Stmt.defsAll d.body ⊆ Stmt.defsAll ss
  | [], h => by simp [Stmt.defsAll] at h
  | s :: ss, h => by
    simp only [Stmt.defsAll, List.mem_append] at h ⊢
    rcases h with h | h
    · exact List.subset_append_of_subset_left _ (Stmt.defs_subset s h)
    · exact List.subset_append_of_subset_right _ (Stmt.defsAll_subset ss h)

end

/-! ### Numbered programs -/

/-- Two runs of numbers, the second from where the first ends, are one. -/
theorem range'_append_of_le {a b c : Nat} (hab : a ≤ b) (hbc : b ≤ c) :
    List.range' a (b - a) ++ List.range' b (c - b) = List.range' a (c - a) := by
  have hb : b = a + 1 * (b - a) := by omega
  have hc : c - a = (b - a) + (c - b) := by omega
  rw [hc, ← List.range'_append, ← hb]

mutual

/-- Numbering a statement gives its definitions the numbers from the first free one on. -/
theorem Stmt.tags_number (next : Nat) : ∀ s : Stmt δ,
    (Stmt.number next s).1.defs.map FuncDef.tag =
      List.range' next ((Stmt.number next s).2 - next)
  | .assign _ _ _ | .assert _ | .ret _ | .expr _ | .pass => by
    simp [Stmt.number, Stmt.defs]
  | .cond _ b .none => by
    simp only [Stmt.number, Stmt.defs]
    exact Stmt.tags_numberAll next b
  | .cond _ b (.some o) => by
    simp only [Stmt.number, Stmt.defs, List.map_append]
    rw [Stmt.tags_numberAll next b, Stmt.tags_numberAll _ o]
    exact range'_append_of_le (Stmt.le_numberAll next b) (Stmt.le_numberAll _ o)
  | .funcDef _ n ps b => by
    simp only [Stmt.number, Stmt.defs, List.map_cons]
    rw [Stmt.tags_numberAll (next + 1) b]
    -- The definition itself has the first number, alone in its run.
    have hrun := range'_append_of_le (Nat.le_succ next) (Stmt.le_numberAll (next + 1) b)
    rwa [Nat.succ_eq_add_one, Nat.add_sub_cancel_left] at hrun
  | .simple ss => by
    simp only [Stmt.number, Stmt.defs]
    exact Stmt.tags_numberAll next ss

/-- Numbering several statements gives their definitions the numbers from the first free one on. -/
theorem Stmt.tags_numberAll (next : Nat) : ∀ ss : List (Stmt δ),
    (Stmt.defsAll (Stmt.numberAll next ss).1).map FuncDef.tag =
      List.range' next ((Stmt.numberAll next ss).2 - next)
  | [] => by simp [Stmt.numberAll, Stmt.defsAll]
  | s :: ss => by
    simp only [Stmt.numberAll, Stmt.defsAll, List.map_append]
    rw [Stmt.tags_number next s, Stmt.tags_numberAll _ ss]
    exact range'_append_of_le (Stmt.le_number next s) (Stmt.le_numberAll _ ss)

end

/-- The numbers of a numbered program tell its definitions apart. -/
theorem Block.tagged_number (next : Nat) (b : Block δ) : Tagged (Block.number next b).1 := by
  have hnodup : ((Stmt.defsAll (Block.number next b).1).map FuncDef.tag).Nodup := by
    rw [Block.number, Stmt.tags_numberAll]
    exact List.nodup_range'
  exact fun d hd d' hd' h => List.inj_on_of_nodup_map hnodup hd hd' h

end ScopeScript
