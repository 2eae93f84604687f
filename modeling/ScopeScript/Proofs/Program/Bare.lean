import ScopeScript.Proofs.Program.Definitions

/-!
# Programs without hints and without shared lines

Neither the hint of an assignment nor the line that a statement shares with others means anything. A
bare program has none of the two: every assignment is without its hint, and the statements of a line
stand one by one in the list that the line stood in.

* `Stmt.bareAll`: a program made bare, with other tags on its definitions.
* `Block.Alike`: programs that differ in hints and in the sharing of lines alone.
* `FuncDef.Corresponds`: the definitions of such programs that stand at the same place.

Main statements:

* `Block.Alike.existsUnique_corresponds`, `Block.Alike.existsUnique_corresponds_right`: the
  definitions correspond one to one.
* `Block.alike_number`: programs that come down to the same are alike once they are numbered.
-/

namespace ScopeScript

variable {δ ε : Type}

/-! ### Bare programs -/

mutual

/-- The statements that a statement comes down to without hints and without shared lines, with its
definitions tagged anew. -/
def Stmt.bare (f : δ → ε) : Stmt δ → List (Stmt ε)
  | .assign target _ value => [.assign target none value]
  | .assert es => [.assert es]
  | .cond c b .none => [.cond c (Stmt.bareAll f b) .none]
  | .cond c b (.some o) => [.cond c (Stmt.bareAll f b) (.some (Stmt.bareAll f o))]
  | .ret value => [.ret value]
  | .funcDef tag n ps b => [.funcDef (f tag) n ps (Stmt.bareAll f b)]
  | .simple ss => Stmt.bareAll f ss
  | .expr e => [.expr e]
  | .pass => [.pass]

/-- The statements that several statements come down to. -/
def Stmt.bareAll (f : δ → ε) : List (Stmt δ) → List (Stmt ε)
  | [] => []
  | s :: ss => Stmt.bare f s ++ Stmt.bareAll f ss

end

/-- The definition with a bare body and another tag. -/
def FuncDef.bare (f : δ → ε) (d : FuncDef δ) : FuncDef ε :=
  ⟨f d.tag, d.name, d.params, Stmt.bareAll f d.body⟩

/-- Statements in a row define what each of them does. -/
theorem Stmt.defsAll_append (ss ts : List (Stmt δ)) :
    Stmt.defsAll (ss ++ ts) = Stmt.defsAll ss ++ Stmt.defsAll ts := by
  induction ss with
  | nil => rfl
  | cons s ss ih => simp [Stmt.defsAll, ih]

mutual

/-- A statement that is made bare keeps its definitions, each made bare. -/
theorem Stmt.defsAll_bare (f : δ → ε) : ∀ s : Stmt δ,
    Stmt.defsAll (s.bare f) = s.defs.map (FuncDef.bare f)
  | .assign _ _ _ | .assert _ | .ret _ | .expr _ | .pass => rfl
  | .cond _ b .none => by
    simp [Stmt.bare, Stmt.defsAll, Stmt.defs, Stmt.defsAll_bareAll f b]
  | .cond _ b (.some o) => by
    simp [Stmt.bare, Stmt.defsAll, Stmt.defs, Stmt.defsAll_bareAll f b, Stmt.defsAll_bareAll f o]
  | .funcDef _ _ _ b => by
    simp [Stmt.bare, Stmt.defsAll, Stmt.defs, FuncDef.bare, Stmt.defsAll_bareAll f b]
  | .simple ss => by
    rw [Stmt.bare, Stmt.defs, Stmt.defsAll_bareAll f ss]

/-- Statements that are made bare keep their definitions, each made bare. -/
theorem Stmt.defsAll_bareAll (f : δ → ε) : ∀ ss : List (Stmt δ),
    Stmt.defsAll (Stmt.bareAll f ss) = (Stmt.defsAll ss).map (FuncDef.bare f)
  | [] => rfl
  | s :: ss => by
    rw [Stmt.bareAll, Stmt.defsAll_append, Stmt.defsAll, List.map_append,
      Stmt.defsAll_bare f s, Stmt.defsAll_bareAll f ss]

end

/-! ### Programs that are alike -/

/-- Two programs that are the same but for hints and for the sharing of lines, at every depth. Their
definitions correspond one to one: `f` takes a tag of the first program to one of the second. -/
structure Block.Alike (f : δ → ε) (p : Block δ) (q : Block ε) : Prop where
  /-- Without hints and shared lines, the programs are equal. -/
  bare_eq : Stmt.bareAll f p = Stmt.bareAll id q
  /-- Definitions with different tags correspond to definitions with different tags. -/
  tags_injective : ∀ d ∈ Stmt.defsAll p, ∀ d' ∈ Stmt.defsAll p, f d.tag = f d'.tag → d.tag = d'.tag
  /-- The tags of the first program tell its definitions apart. -/
  tagged_left : p.Tagged
  /-- The tags of the second program tell its definitions apart. -/
  tagged_right : q.Tagged

/-- A definition in the first of two programs, and the one in the second that is the same but for
hints and for the sharing of lines. -/
structure FuncDef.Corresponds (f : δ → ε) (p : Block δ) (q : Block ε) (d : FuncDef δ)
    (e : FuncDef ε) : Prop where
  /-- The first definition occurs in the first program. -/
  mem_left : d ∈ Stmt.defsAll p
  /-- The second definition occurs in the second program. -/
  mem_right : e ∈ Stmt.defsAll q
  /-- Without hints and shared lines, the definitions are equal but for the tag given anew. -/
  bare_eq : d.bare f = e.bare id

/-- Where tags tell definitions apart and are given anew one to one, a definition is known by what
it comes down to. -/
theorem Block.Tagged.eq_of_bare_eq {f : δ → ε} {p : Block δ} (hp : p.Tagged)
    (hf : ∀ d ∈ Stmt.defsAll p, ∀ d' ∈ Stmt.defsAll p, f d.tag = f d'.tag → d.tag = d'.tag)
    {d d' : FuncDef δ} (hd : d ∈ Stmt.defsAll p) (hd' : d' ∈ Stmt.defsAll p)
    (h : d.bare f = d'.bare f) : d = d' := by
  have htag : f d.tag = f d'.tag := congrArg FuncDef.tag h
  exact hp d hd d' hd' (hf d hd d' hd' htag)

namespace Block.Alike

variable {f : δ → ε} {p : Block δ} {q : Block ε}

/-- The definitions of programs that are alike come down to the same, in the same order. -/
theorem map_bare_eq (h : Alike f p q) :
    (Stmt.defsAll p).map (FuncDef.bare f) = (Stmt.defsAll q).map (FuncDef.bare id) := by
  rw [← Stmt.defsAll_bareAll, ← Stmt.defsAll_bareAll, h.bare_eq]

/-- To each definition of the first program corresponds exactly one of the second. -/
theorem existsUnique_corresponds (h : Alike f p q) {d : FuncDef δ} (hd : d ∈ Stmt.defsAll p) :
    ∃! e, FuncDef.Corresponds f p q d e := by
  have hmem : d.bare f ∈ (Stmt.defsAll q).map (FuncDef.bare id) := by
    rw [← h.map_bare_eq]
    exact List.mem_map_of_mem hd
  obtain ⟨e, he, hbare⟩ := List.mem_map.1 hmem
  refine ⟨e, ⟨hd, he, hbare.symm⟩, fun e' he' => ?_⟩
  exact h.tagged_right.eq_of_bare_eq (fun _ _ _ _ => id) he'.mem_right he
    (he'.bare_eq.symm.trans hbare.symm)

/-- Each definition of the second program corresponds to exactly one of the first. -/
theorem existsUnique_corresponds_right (h : Alike f p q) {e : FuncDef ε}
    (he : e ∈ Stmt.defsAll q) : ∃! d, FuncDef.Corresponds f p q d e := by
  have hmem : e.bare id ∈ (Stmt.defsAll p).map (FuncDef.bare f) := by
    rw [h.map_bare_eq]
    exact List.mem_map_of_mem he
  obtain ⟨d, hd, hbare⟩ := List.mem_map.1 hmem
  refine ⟨d, ⟨hd, he, hbare⟩, fun d' hd' => ?_⟩
  exact h.tagged_left.eq_of_bare_eq h.tags_injective hd'.mem_left hd
    (hd'.bare_eq.trans hbare.symm)

end Block.Alike

/-! ### Numbered programs -/

/-- Statements in a row are numbered one part after the other. -/
theorem Stmt.numberAll_append (next : Nat) (ss ts : List (Stmt δ)) :
    Stmt.numberAll next (ss ++ ts) =
      ((Stmt.numberAll next ss).1 ++ (Stmt.numberAll (Stmt.numberAll next ss).2 ts).1,
        (Stmt.numberAll (Stmt.numberAll next ss).2 ts).2) := by
  induction ss generalizing next with
  | nil => rfl
  | cons s ss ih => simp [Stmt.numberAll, ih]

mutual

/-- A bare statement has the numbers that its definitions have before it is made bare. -/
theorem Stmt.numberAll_bare (f : δ → ε) (next : Nat) : ∀ s : Stmt δ,
    Stmt.numberAll next (s.bare f) =
      ((Stmt.number next s).1.bare id, (Stmt.number next s).2)
  | .assign _ _ _ | .assert _ | .ret _ | .expr _ | .pass => rfl
  | .cond _ b .none => by
    simp [Stmt.bare, Stmt.numberAll, Stmt.number, Stmt.numberAll_bareAll f next b]
  | .cond _ b (.some o) => by
    simp [Stmt.bare, Stmt.numberAll, Stmt.number, Stmt.numberAll_bareAll f next b,
      Stmt.numberAll_bareAll f _ o]
  | .funcDef _ _ _ b => by
    simp [Stmt.bare, Stmt.numberAll, Stmt.number, Stmt.numberAll_bareAll f (next + 1) b]
  | .simple ss => by
    simp only [Stmt.bare, Stmt.number]
    exact Stmt.numberAll_bareAll f next ss

/-- Bare statements have the numbers that their definitions have before they are made bare. -/
theorem Stmt.numberAll_bareAll (f : δ → ε) (next : Nat) : ∀ ss : List (Stmt δ),
    Stmt.numberAll next (Stmt.bareAll f ss) =
      (Stmt.bareAll id (Stmt.numberAll next ss).1, (Stmt.numberAll next ss).2)
  | [] => rfl
  | s :: ss => by
    rw [Stmt.bareAll, Stmt.numberAll_append, Stmt.numberAll_bare f next s,
      Stmt.numberAll_bareAll f _ ss]
    rfl

end

/-- Programs that come down to the same are alike once they are numbered: definitions at one place
get one number. -/
theorem Block.alike_number {b b' : Block δ} (h : Stmt.bareAll id b = Stmt.bareAll id b')
    (next : Nat) : Block.Alike id (Block.number next b).1 (Block.number next b').1 where
  bare_eq := by
    have hleft := congrArg Prod.fst (Stmt.numberAll_bareAll id next b)
    have hright := congrArg Prod.fst (Stmt.numberAll_bareAll id next b')
    rw [h] at hleft
    exact hleft.symm.trans hright
  tags_injective := fun _ _ _ _ => id
  tagged_left := Block.tagged_number next b
  tagged_right := Block.tagged_number next b'

end ScopeScript
