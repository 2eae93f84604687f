import ScopeScript.Host.Module
import ScopeScript.Proofs.Flat.Refinement

/-!
# Modules and the interpreter without a stack

A loaded program is one scope, so that what a module does is told by the names that it binds:
loading runs the program from no names on, and a call is a call expression on the names of the
module.

* `Module.ofNames`: the module that binds given names.

Main statements:

* `Module.load_eq`: loading gives the names that running the program leaves.
* `Module.call_ofNames`: a call by the host is an expression run on the names of the module.
-/

namespace ScopeScript

/-- Over a stack of one scope, the visible names are those of the scope. -/
theorem Environment.visible_scope (names : NameMap Value) : visible ⟨[.scope names]⟩ = names := by
  refine NameMap.ext_get? fun name => ?_
  show (NameMap.empty.override names).get? name = names.get? name
  rw [NameMap.get?_override, NameMap.get?_empty, Option.or_none]

namespace Module

/-- The module that binds the given names. -/
def ofNames (config : Config) (names : NameMap Value) : Module :=
  ⟨{ env := ⟨[.scope names]⟩, callDepth := 0, config }⟩

variable (config : Config) (names : NameMap Value)

/-- The module looks up the names that it binds. -/
@[simp]
theorem get?_ofNames (name : String) : (ofNames config names).get? name = names.get? name := rfl

/-- Loading gives the names that running the program leaves. A return at the top level is an
error. -/
theorem load_eq (program : Block Nat) :
    load program config = (do
      match ← Flat.execAll config 0 .empty program with
      | .next names => return ofNames config names
      | .returned _ => throw .returnOutsideFunction) := by
  have hread := Caller.reads_atDepth config 0
  have hsettles : EvalM.Settles (Stmt.boundAll program)
      (Stmt.execAll config (Caller.atDepth config 0) program) :=
    Stmt.settles_execAll hread program (List.Subset.refl _)
  have hrun := hsettles {}
  have hflow : Machine.flow (Stmt.execAll config (Caller.atDepth config 0) program {}) =
      Flat.execAll config 0 .empty program :=
    Stmt.flows_execAll hread (Caller.follows_atDepth config 0) program .empty []
  rw [load, Evaluator.executeModule, Evaluator.run, Evaluator.moduleStep, EvalM.bind_apply]
  -- The flow of the interpreter is read off the stack that the run leaves.
  generalize Stmt.execAll config (Caller.atDepth config 0) program {} = outcome at hrun hflow ⊢
  rw [← hflow]
  cases hrun with
  | next hb =>
    obtain ⟨b, -, rfl⟩ := hb.exists_scope
    show _ = Except.ok (ofNames config (Environment.visible ⟨[.scope b]⟩))
    rw [Environment.visible_scope]
    rfl
  | posted hb value => rfl
  | failed hb e => rfl

/-- A call by the host is a call expression, run on the names of the module. -/
theorem call_ofNames (name : String) (args : List HostValue) :
    ((ofNames config names).call name args).1 =
      match names.get? name with
      | none => .error (.nameNotFound name)
      | some (.function _) =>
        (Flat.eval config 0 names (.call (.name name) (args.map HostValue.toExpr))).map Value.toHost
      | some _ => .error (.notAFunction name) := by
  have heval : (((ofNames config names).evaluator).evaluate
      (.call (.name name) (args.map HostValue.toExpr))).1 =
      Flat.eval config 0 names (.call (.name name) (args.map HostValue.toExpr)) := by
    have hfollows := Expr.follows_eval (Caller.reads_atDepth config 0)
      (Caller.follows_atDepth config 0) (.call (.name name) (args.map HostValue.toExpr))
      ⟨[.scope names]⟩
    rw [Environment.visible_scope] at hfollows
    exact hfollows
  rw [call, get?_ofNames]
  cases names.get? name with
  | none => rfl
  | some v =>
    cases v with
    | function d => exact congrArg (Except.map Value.toHost) heval
    | none | bool | int | unsupported => rfl

end Module

end ScopeScript
