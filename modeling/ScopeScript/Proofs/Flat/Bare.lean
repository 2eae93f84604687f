import ScopeScript.Proofs.Flat.Matching
import ScopeScript.Proofs.Program.Bare

/-!
# Runs of bare programs

A program and the bare program that it comes down to run alike. A line is run statement by statement
and stops at the first return, as the list does in which its statements stand one by one; a hint is
not looked at. The runs differ in the functions that they make, which are the definitions of the
program on the one side and the bare ones on the other.

* `FuncDef.BareOf`: a definition of a program and the bare one that it comes down to.
* `Flat.execAll_append`: statements in a row run one part after the other.

Main statement:

* `Flat.execAll_program_bareAll`: a program and the bare program agree.
-/

namespace ScopeScript

/-- The first is a definition of the program, and the second is what it comes down to. -/
def FuncDef.BareOf (f : Nat → Nat) (p : Block Nat) (d e : FuncDef Nat) : Prop :=
  d ∈ Stmt.defsAll p ∧ e = d.bare f

/-- Where tags tell definitions apart and are given anew one to one, definitions are paired with
what they come down to. -/
theorem FuncDef.paired_bareOf {f : Nat → Nat} {p : Block Nat} (hp : p.Tagged)
    (hf : ∀ d ∈ Stmt.defsAll p, ∀ d' ∈ Stmt.defsAll p, f d.tag = f d'.tag → d.tag = d'.tag) :
    FuncDef.Paired (FuncDef.BareOf f p) where
  name_eq := by
    rintro d e ⟨-, rfl⟩
    rfl
  params_eq := by
    rintro d e ⟨-, rfl⟩
    rfl
  eq_iff := by
    rintro d d' e e' ⟨hd, rfl⟩ ⟨hd', rfl⟩
    -- A definition that comes down to the same has the same tag, and so is the same.
    exact ⟨fun h => h ▸ rfl, hp.eq_of_bare_eq hf hd hd'⟩

namespace Flat

section Lists

variable (cfg : Config) (depth : Nat) (names : NameMap Value)

/-- A list of one statement runs as the statement does. -/
theorem execAll_singleton (s : Stmt Nat) :
    execAll cfg depth names [s] = exec cfg depth names s := by
  rw [execAll]
  cases exec cfg depth names s with
  | error e => rfl
  | ok flow =>
    cases flow with
    | next names' =>
      show execAll cfg depth names' [] = _
      rw [execAll]
    | returned v => rfl

/-- Statements in a row run one part after the other, unless the first returns. -/
theorem execAll_append (ss ts : List (Stmt Nat)) :
    execAll cfg depth names (ss ++ ts) = (do
      match ← execAll cfg depth names ss with
      | .next names => execAll cfg depth names ts
      | .returned value => return .returned value) := by
  induction ss generalizing names with
  | nil =>
    have hnil : execAll cfg depth names [] = .ok (.next names) := by rw [execAll]
    rw [List.nil_append, hnil]
    rfl
  | cons s ss ih =>
    rw [List.cons_append, execAll, execAll]
    cases exec cfg depth names s with
    | error e => rfl
    | ok flow =>
      cases flow with
      | next names' => exact ih names'
      | returned v => rfl

end Lists

section Statements

variable {f : Nat → Nat} {p : Block Nat} {cfg : Config} {depth : Nat}

mutual

/-- A statement of the program runs as the statements that it comes down to. -/
theorem exec_bare (hpaired : FuncDef.Paired (FuncDef.BareOf f p))
    (hbodies : BodiesMatch (FuncDef.BareOf f p) cfg depth) :
    ∀ (s : Stmt Nat), s.defs ⊆ Stmt.defsAll p → ∀ {names names' : NameMap Value},
      names.Matches (Value.Matches (FuncDef.BareOf f p)) names' →
      Agree (Flow.Matches (FuncDef.BareOf f p)) (exec cfg depth names s)
        (execAll cfg depth names' (s.bare f))
  | .assign target hint none, _, _, _, h => by
    -- All statements but a shared line come down to one statement.
    rw [Stmt.bare, execAll_singleton]
    simp only [exec]
    exact .ok (.next h)
  | .assign target hint (some e), _, _, _, h => by
    rw [Stmt.bare, execAll_singleton]
    simp only [exec]
    exact (eval_matches hpaired hbodies h e).bind fun _ _ hv => .ok (.next (h.insert target hv))
  | .assert es, _, _, _, h => by
    rw [Stmt.bare, execAll_singleton]
    simp only [exec]
    exact (assertAll_matches hpaired hbodies h es).bind fun _ _ _ => .ok (.next h)
  | .cond c b none, hs, _, _, h => by
    rw [Stmt.bare, execAll_singleton]
    simp only [exec]
    refine (eval_matches hpaired hbodies h c).bind fun v w hv => ?_
    -- The conditions match, so both sides take one branch.
    rw [hv.truthy_eq]
    exact (execAll_bareAll hpaired hbodies b hs h).ite (.ok (.next h))
  | .cond c b (some o), hs, _, _, h => by
    rw [Stmt.bare, execAll_singleton]
    simp only [exec]
    obtain ⟨hb, ho⟩ := List.append_subset.1 hs
    refine (eval_matches hpaired hbodies h c).bind fun v w hv => ?_
    rw [hv.truthy_eq]
    exact (execAll_bareAll hpaired hbodies b hb h).ite (execAll_bareAll hpaired hbodies o ho h)
  | .ret none, _, _, _, _ => by
    rw [Stmt.bare, execAll_singleton]
    simp only [exec]
    exact .ok (.returned (.plain Kind.noConfusion))
  | .ret (some e), _, _, _, h => by
    rw [Stmt.bare, execAll_singleton]
    simp only [exec]
    exact (eval_matches hpaired hbodies h e).bind fun _ _ hv => .ok (.returned hv)
  | .funcDef tag name params body, hs, _, _, h => by
    rw [Stmt.bare, execAll_singleton]
    simp only [exec]
    have hmem : (⟨tag, name, params, body⟩ : FuncDef Nat) ∈ Stmt.defsAll p :=
      hs List.mem_cons_self
    exact .ok (.next (h.insert name (.function ⟨hmem, rfl⟩)))
  | .simple ss, hs, _, _, h => by
    -- The statements of the line stand one by one on the other side.
    rw [Stmt.bare, exec]
    exact execAll_bareAll hpaired hbodies ss hs h
  | .expr e, _, _, _, h => by
    rw [Stmt.bare, execAll_singleton]
    simp only [exec]
    exact (eval_matches hpaired hbodies h e).bind fun _ _ _ => .ok (.next h)
  | .pass, _, _, _, h => by
    rw [Stmt.bare, execAll_singleton]
    simp only [exec]
    exact .ok (.next h)

/-- Statements of the program run as the statements that they come down to. -/
theorem execAll_bareAll (hpaired : FuncDef.Paired (FuncDef.BareOf f p))
    (hbodies : BodiesMatch (FuncDef.BareOf f p) cfg depth) :
    ∀ (ss : List (Stmt Nat)), Stmt.defsAll ss ⊆ Stmt.defsAll p →
      ∀ {names names' : NameMap Value},
        names.Matches (Value.Matches (FuncDef.BareOf f p)) names' →
        Agree (Flow.Matches (FuncDef.BareOf f p)) (execAll cfg depth names ss)
          (execAll cfg depth names' (Stmt.bareAll f ss))
  | [], _, _, _, h => by
    simp only [Stmt.bareAll, execAll]
    exact .ok (.next h)
  | s :: ss, hs, _, _, h => by
    -- What the first statement comes down to runs before the rest, and stops it by returning.
    rw [Stmt.bareAll, execAll_append, execAll]
    obtain ⟨hhead, htail⟩ := List.append_subset.1 hs
    refine (exec_bare hpaired hbodies s hhead h).bind fun flow flow' hflow => ?_
    cases hflow with
    | next h' => exact execAll_bareAll hpaired hbodies ss htail h'
    | returned hv => exact .ok (.returned hv)

end

/-- The bodies of the definitions of a program agree with what they come down to, whatever the
number of calls in progress. -/
theorem bodiesMatch_bareOf (hpaired : FuncDef.Paired (FuncDef.BareOf f p)) (cfg : Config)
    (depth : Nat) : BodiesMatch (FuncDef.BareOf f p) cfg depth := by
  rintro hallowed d e ⟨hd, rfl⟩ names names' h
  -- The induction is on the number of calls that the limit leaves.
  exact execAll_bareAll hpaired (bodiesMatch_bareOf hpaired cfg (depth + 1)) d.body
    (Stmt.defsAll_subset p hd) h
  termination_by cfg.maxCallDepth - depth

/-- A program runs as the bare program that it comes down to. -/
theorem execAll_program_bareAll (hpaired : FuncDef.Paired (FuncDef.BareOf f p)) (cfg : Config) :
    Agree (Flow.Matches (FuncDef.BareOf f p)) (execAll cfg 0 .empty p)
      (execAll cfg 0 .empty (Stmt.bareAll f p)) :=
  execAll_bareAll hpaired (bodiesMatch_bareOf hpaired cfg 0) p (List.Subset.refl _) .empty

end Statements

end Flat

end ScopeScript
