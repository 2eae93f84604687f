import ScopeScript.Proofs.Flat.Bare
import ScopeScript.Proofs.Host.History

/-!
# Hints and shared lines are not observable

A host cannot tell programs apart that differ in hints and in the sharing of lines alone. Both come
down to one bare program, and each of them loads as the bare one does, to a module whose names hold
the same values but for the definitions behind functions. A host sees of a function no more than its
name.

* `Module.Matches`: modules on names that match.
* `Module.Alike`: modules that hold the same values and answer everything alike.

Main statement:

* `Module.load_alike`: programs that are alike load as modules that are alike, or fail with the same
  error.
-/

namespace ScopeScript

/-- The host gets the same of values that match. -/
theorem Value.Matches.toHost_eq {same : FuncDef Nat → FuncDef Nat → Prop}
    (hsame : FuncDef.Paired same) {v w : Value} (h : Value.Matches same v w) :
    v.toHost = w.toHost := by
  cases h with
  | plain => rfl
  | function h => exact congrArg HostValue.function (hsame.name_eq h)

/-- Values that match one value of a bare program match each other, by the definitions that
correspond. -/
theorem Value.Matches.of_bare {f : Nat → Nat} {p q : Block Nat} {v w bare : Value}
    (hv : Value.Matches (FuncDef.BareOf f p) v bare)
    (hw : Value.Matches (FuncDef.BareOf id q) w bare) :
    Value.Matches (FuncDef.Corresponds f p q) v w := by
  cases hv with
  | plain hplain =>
    cases hw with
    | plain => exact .plain hplain
    | function => exact absurd rfl hplain
  | function hd =>
    cases hw with
    | plain hplain => exact absurd rfl hplain
    | function he => exact .function ⟨hd.1, he.1, hd.2.symm.trans he.2⟩

namespace Module

/-- The modules have one configuration and bind the same names, to values that match. -/
inductive Matches (same : FuncDef Nat → FuncDef Nat → Prop) (config : Config) :
    Module → Module → Prop where
  /-- Modules on names that match. -/
  | ofNames {names names' : NameMap Value} (h : names.Matches (Value.Matches same) names') :
    Matches same config (ofNames config names) (ofNames config names')

/-- The modules bind the same names to the same values, up to the definitions behind functions, and
answer every sequence of operations alike. -/
structure Alike (same : FuncDef Nat → FuncDef Nat → Prop) (m n : Module) : Prop where
  /-- A name is bound by both or by none, to values that match. -/
  bindings : ∀ name, Option.Rel (Value.Matches same) (m.get? name) (n.get? name)
  /-- The answers are the same. -/
  answers : ∀ (describe : String → String) (history : List Operation),
    m.answers describe history = n.answers describe history

section Matches

variable {same : FuncDef Nat → FuncDef Nat → Prop} {config : Config} {m n : Module}

/-- A call has the same result on modules that match. -/
theorem Matches.call_eq (hsame : FuncDef.Paired same) (hbodies : Flat.BodiesMatch same config 0)
    (h : Matches same config m n) (name : String) (args : List HostValue) :
    (m.call name args).1 = (n.call name args).1 := by
  obtain @⟨names, names', hnames⟩ := h
  have heval := Flat.eval_matches hsame hbodies hnames
    (.call (.name name) (args.map HostValue.toExpr))
  have hname := hnames name
  rw [call_ofNames, call_ofNames]
  generalize names.get? name = found, names'.get? name = found' at hname ⊢
  cases hname with
  | none => rfl
  | @some v w hv =>
    cases hv with
    | function => exact (heval.map fun _ _ hresult => hresult.toHost_eq hsame).eq
    | plain hplain =>
      cases v with
      | function d => exact absurd rfl hplain
      | none | bool | int | unsupported => rfl

/-- A call through JSON has the same result on modules that match. -/
theorem Matches.callJson_eq (hsame : FuncDef.Paired same)
    (hbodies : Flat.BodiesMatch same config 0) (h : Matches same config m n)
    (describe : String → String) (name args : String) :
    (m.callJson describe name args).1 = (n.callJson describe name args).1 := by
  rw [callJson, callJson]
  cases HostValue.decodeAll? args with
  | none => rfl
  | some values =>
    exact congrArg (Except.map HostValue.encode) (h.call_eq hsame hbodies name values)

/-- Operations are answered alike on modules that match. -/
theorem Matches.answers_eq (hsame : FuncDef.Paired same)
    (hbodies : Flat.BodiesMatch same config 0) (h : Matches same config m n)
    (describe : String → String) (history : List Operation) :
    m.answers describe history = n.answers describe history := by
  rw [answers_eq_map, answers_eq_map]
  refine List.map_congr_left fun op _ => ?_
  cases op with
  | call name args => exact congrArg (Except.map Answer.plain) (h.call_eq hsame hbodies name args)
  | callJson name args =>
    exact congrArg (Except.map Answer.json) (h.callJson_eq hsame hbodies describe name args)

end Matches

section Bare

variable {f : Nat → Nat} {p q : Block Nat} {config : Config}

/-- A program loads as the bare program that it comes down to. -/
theorem load_bareAll (hpaired : FuncDef.Paired (FuncDef.BareOf f p)) (config : Config) :
    Agree (Matches (FuncDef.BareOf f p) config) (load p config)
      (load (Stmt.bareAll f p) config) := by
  rw [load_eq, load_eq]
  refine (Flat.execAll_program_bareAll hpaired config).bind fun flow flow' hflow => ?_
  cases hflow with
  | next hnames => exact .ok (.ofNames hnames)
  | returned => exact .error _

/-- Modules that match one module on bare definitions bind values that correspond. -/
theorem Matches.bindings_of_bare {m n bare : Module}
    (hm : Matches (FuncDef.BareOf f p) config m bare)
    (hn : Matches (FuncDef.BareOf id q) config n bare) (name : String) :
    Option.Rel (Value.Matches (FuncDef.Corresponds f p q)) (m.get? name) (n.get? name) := by
  obtain @⟨names, bareNames, hm⟩ := hm
  obtain @⟨names', _, hn⟩ := hn
  have hleft := hm name
  have hright := hn name
  rw [get?_ofNames, get?_ofNames]
  generalize names.get? name = left, names'.get? name = right,
    bareNames.get? name = found at hleft hright ⊢
  cases hleft with
  | none =>
    cases hright
    exact .none
  | some hv =>
    cases hright with
    | some hw => exact .some (hv.of_bare hw)

/-- Programs that differ in hints and in the sharing of lines alone fail to load with the same
error, or load as modules that bind the same names to the same values, functions to the definitions
that correspond, and that answer every sequence of calls alike. -/
theorem load_alike (h : Block.Alike f p q) (config : Config) :
    Agree (Alike (FuncDef.Corresponds f p q)) (load p config) (load q config) := by
  have hp : FuncDef.Paired (FuncDef.BareOf f p) :=
    FuncDef.paired_bareOf h.tagged_left h.tags_injective
  have hq : FuncDef.Paired (FuncDef.BareOf id q) :=
    FuncDef.paired_bareOf h.tagged_right fun _ _ _ _ => id
  have hleft := load_bareAll hp config
  have hright := load_bareAll hq config
  rw [h.bare_eq] at hleft
  -- Each of the two programs loads as the one bare program does.
  generalize load p config = left, load q config = right,
    load (Stmt.bareAll id q) config = bare at hleft hright ⊢
  cases hleft with
  | error e =>
    cases hright
    exact .error e
  | ok hm =>
    cases hright with
    | ok hn =>
      refine .ok ⟨hm.bindings_of_bare hn, fun describe history => ?_⟩
      exact (hm.answers_eq hp (Flat.bodiesMatch_bareOf hp config 0) describe history).trans
        (hn.answers_eq hq (Flat.bodiesMatch_bareOf hq config 0) describe history).symm

end Bare

/-- A line with a hint and a return in its middle, in a body that defines a function, and the same
without hints, with the lines shared otherwise and the definitions tagged in the other order. -/
theorem load_alike_of_shared_lines :
    let p : Block Nat :=
      [.simple [.assign "x" (some .none) (some (.int 1)), .pass],
        .funcDef 0 "f" ["a"]
          [.funcDef 1 "g" [] [.ret (some (.name "a"))],
            .simple [.assign "b" (some (.name "g")) (some (.name "g")), .ret (some (.name "b")),
              .assert [.bool false]]],
        .assign "h" (some (.name "f")) (some (.call (.name "f") [.name "x"]))]
    let q : Block Nat :=
      [.assign "x" none (some (.int 1)), .pass,
        .simple [.funcDef 4 "f" ["a"]
            [.simple [.funcDef 3 "g" [] [.ret (some (.name "a"))]],
              .assign "b" none (some (.name "g")), .ret (some (.name "b")), .assert [.bool false]],
          .assign "h" none (some (.call (.name "f") [.name "x"]))]]
    let history : List Operation := [.call "f" [.int 2], .callJson "h" "[]", .call "x" []]
    Block.Alike (4 - ·) p q ∧ ∃ m n, load p {} = .ok m ∧ load q {} = .ok n ∧
      Alike (FuncDef.Corresponds (4 - ·) p q) m n ∧
      ∀ describe, m.answers describe history =
        [.ok (.plain (.function "g")), .error (.nameNotFound "a"), .error (.notAFunction "x")] := by
  intro p q history
  have halike : Block.Alike (4 - ·) p q :=
    { bare_eq := rfl
      tags_injective := by decide
      tagged_left := by unfold Block.Tagged; decide
      tagged_right := by unfold Block.Tagged; decide }
  have hload := load_alike halike {}
  obtain ⟨m, hm⟩ : ∃ m, load p {} = .ok m := ⟨_, rfl⟩
  obtain ⟨n, hn⟩ : ∃ n, load q {} = .ok n := ⟨_, rfl⟩
  rw [hm, hn] at hload
  cases hload with
  | ok hmn =>
    refine ⟨halike, m, n, hm, hn, hmn, fun describe => ?_⟩
    obtain rfl := (Except.ok.inj hm).symm
    rfl

end Module

end ScopeScript
