import Mathlib.Data.List.Forall2
import ScopeScript.Proofs.Flat.Interpreter
import ScopeScript.Proofs.Flat.Refinement

/-!
# Runs on other definitions

Two runs of one expression whose names hold the same values, except that a function in the one is
another definition than in the other. What an expression can tell of a function is its name, its
parameters, whether it is the same as another, and what its body does. Runs on definitions that
agree in these fail with the same error or give values that again differ in the definitions alone.

* `Agree`: runs that fail with the same error or give related results.
* `FuncDef.Paired`: a relation between definitions that pairs them one to one.
* `Value.Matches`, `NameMap.Matches`, `Flat.Flow.Matches`: values, names and flows that differ in
  paired definitions alone.
* `Flat.BodiesMatch`: the bodies of paired definitions agree when they are run.

Main statement:

* `Flat.eval_matches`: runs of one expression agree if the bodies of paired definitions do.
-/

namespace ScopeScript

/-! ### Runs that agree -/

/-- The runs fail with the same error, or give results that are related. -/
inductive Agree {α β : Type} (R : α → β → Prop) :
    Except EvalError α → Except EvalError β → Prop where
  /-- Both give a result. -/
  | ok {a : α} {b : β} (h : R a b) : Agree R (.ok a) (.ok b)
  /-- Both fail. -/
  | error (e : EvalError) : Agree R (.error e) (.error e)

namespace Agree

variable {α β γ κ : Type} {R : α → β → Prop} {S : γ → κ → Prop} {x : Except EvalError α}
  {y : Except EvalError β}

/-- Two runs in a row on each side. -/
theorem bind {f : α → Except EvalError γ} {g : β → Except EvalError κ} (h : Agree R x y)
    (hnext : ∀ a b, R a b → Agree S (f a) (g b)) : Agree S (x >>= f) (y >>= g) := by
  cases h with
  | ok h => exact hnext _ _ h
  | error e => exact .error e

/-- What is made of the results. -/
theorem map {f : α → γ} {g : β → κ} (h : Agree R x y) (hnext : ∀ a b, R a b → S (f a) (g b)) :
    Agree S (x.map f) (y.map g) := by
  cases h with
  | ok h => exact .ok (hnext _ _ h)
  | error e => exact .error e

/-- One choice on both sides. -/
theorem ite {c : Prop} [Decidable c] {x' : Except EvalError α} {y' : Except EvalError β}
    (h : Agree R x y) (h' : Agree R x' y') :
    Agree R (if c then x else x') (if c then y else y') := by
  split
  · exact h
  · exact h'

/-- Runs that agree on equal results are equal. -/
protected theorem eq {x y : Except EvalError α} (h : Agree Eq x y) : x = y := by
  cases h with
  | ok h => rw [h]
  | error e => rfl

end Agree

/-! ### Values and names -/

/-- The relation pairs definitions one to one, each with one of the same name and parameters. -/
structure FuncDef.Paired (same : FuncDef Nat → FuncDef Nat → Prop) : Prop where
  /-- Paired definitions have one name. -/
  name_eq : ∀ {d e}, same d e → d.name = e.name
  /-- Paired definitions have the same parameters. -/
  params_eq : ∀ {d e}, same d e → d.params = e.params
  /-- Definitions are the same exactly when those that they are paired with are. -/
  eq_iff : ∀ {d d' e e'}, same d e → same d' e' → (d = d' ↔ e = e')

/-- The values are the same, or are functions with paired definitions. -/
inductive Value.Matches (same : FuncDef Nat → FuncDef Nat → Prop) : Value → Value → Prop where
  /-- A value that is no function. -/
  | plain {v : Value} (h : v.kind ≠ .function) : Matches same v v
  /-- Functions. -/
  | function {d e : FuncDef Nat} (h : same d e) : Matches same (.function d) (.function e)

/-- The maps hold the same names, with values that are related. -/
def NameMap.Matches {α β : Type} (R : α → β → Prop) (m : NameMap α) (n : NameMap β) : Prop :=
  ∀ name, Option.Rel R (m.get? name) (n.get? name)

/-- Both go on, with names that match, or both return, with values that match. -/
inductive Flat.Flow.Matches (same : FuncDef Nat → FuncDef Nat → Prop) :
    Flat.Flow → Flat.Flow → Prop where
  /-- Running goes on. -/
  | next {names names' : NameMap Value} (h : names.Matches (Value.Matches same) names') :
    Matches same (.next names) (.next names')
  /-- A value is returned. -/
  | returned {v w : Value} (h : Value.Matches same v w) : Matches same (.returned v) (.returned w)

namespace Value

/-- Arithmetic takes no other operands than integers. -/
theorem arithmetic_of_kind {op : BinaryOp} {exact : Int → Int → Int} {a b : Value}
    (h : ¬ (a.kind = .int ∧ b.kind = .int)) :
    arithmetic op exact a b = .error (.unsupportedOperands op a.kind b.kind) := by
  cases a <;> cases b <;> first | rfl | exact absurd ⟨rfl, rfl⟩ h

/-- No other values than integers have an order. -/
theorem ordered_of_kind {op : BinaryOp} {test : Int64 → Int64 → Bool} {a b : Value}
    (h : ¬ (a.kind = .int ∧ b.kind = .int)) :
    ordered op test a b = .error (.notOrdered op a.kind b.kind) := by
  cases a <;> cases b <;> first | rfl | exact absurd ⟨rfl, rfl⟩ h

namespace Matches

variable {same : FuncDef Nat → FuncDef Nat → Prop} {v w v' w' : Value}

/-- Values that match are of one kind. -/
theorem kind_eq (h : Matches same v w) : v.kind = w.kind := by
  cases h <;> rfl

/-- Values that match count as true alike. -/
theorem truthy_eq (h : Matches same v w) (mode : Truthiness) : v.truthy mode = w.truthy mode := by
  cases h <;> rfl

/-- Values that match are called alike: neither is a function, or the functions are paired. -/
theorem asFunction (h : Matches same v w) : Agree same v.asFunction w.asFunction := by
  cases h with
  | function h => exact .ok h
  | @plain v hv =>
    cases v with
    | function d => exact absurd rfl hv
    | none | bool | int | unsupported => exact .error _

/-- An integer matches itself alone. -/
theorem eq_of_kind_int (h : Matches same v w) (hkind : v.kind = .int) : v = w := by
  cases h with
  | plain => rfl
  | function => cases hkind

/-- Values are equal exactly when those that they match are. -/
theorem eq_iff (hsame : FuncDef.Paired same) (h : Matches same v w) (h' : Matches same v' w') :
    v = v' ↔ w = w' := by
  -- A function and a value that is none are equal on neither side.
  cases h with
  | plain hv =>
    cases h' with
    | plain => rfl
    | function => exact iff_of_false (fun e => hv (e ▸ rfl)) (fun e => hv (e ▸ rfl))
  | function h =>
    cases h' with
    | plain hv => exact iff_of_false (fun e => hv (e ▸ rfl)) (fun e => hv (e ▸ rfl))
    | function h' => simpa using hsame.eq_iff h h'

/-- Arithmetic does not tell values that match apart. -/
theorem arithmetic_eq (op : BinaryOp) (exact : Int → Int → Int) (h : Matches same v w)
    (h' : Matches same v' w') : arithmetic op exact v v' = arithmetic op exact w w' := by
  by_cases hkind : v.kind = .int ∧ v'.kind = .int
  · rw [h.eq_of_kind_int hkind.1, h'.eq_of_kind_int hkind.2]
  · -- The error names the kinds, which are those of the other values.
    have hkind' : ¬ (w.kind = .int ∧ w'.kind = .int) := by rwa [← h.kind_eq, ← h'.kind_eq]
    rw [arithmetic_of_kind hkind, arithmetic_of_kind hkind', h.kind_eq, h'.kind_eq]

/-- The order does not tell values that match apart. -/
theorem ordered_eq (op : BinaryOp) (test : Int64 → Int64 → Bool) (h : Matches same v w)
    (h' : Matches same v' w') : ordered op test v v' = ordered op test w w' := by
  by_cases hkind : v.kind = .int ∧ v'.kind = .int
  · rw [h.eq_of_kind_int hkind.1, h'.eq_of_kind_int hkind.2]
  · have hkind' : ¬ (w.kind = .int ∧ w'.kind = .int) := by rwa [← h.kind_eq, ← h'.kind_eq]
    rw [ordered_of_kind hkind, ordered_of_kind hkind', h.kind_eq, h'.kind_eq]

/-- No comparison tells values that match apart, identity included. -/
theorem compare_eq (hsame : FuncDef.Paired same) (op : BinaryOp) (h : Matches same v w)
    (h' : Matches same v' w') : Value.compare op v v' = Value.compare op w w' := by
  have heq : v = v' ↔ w = w' := eq_iff hsame h h'
  cases op with
  | eq | is => exact congrArg Except.ok (decide_eq_decide.2 heq)
  | notEq | isNot => exact congrArg Except.ok (decide_eq_decide.2 (not_congr heq))
  | isIn | notIn => exact congrArg (fun k => Except.error (EvalError.notIterable k)) h'.kind_eq
  | lt | le | gt | ge => exact ordered_eq _ _ h h'
  | _ => rfl

end Matches

end Value

/-- An operator does not tell operands that match apart. -/
theorem BinaryOp.meaning?_matches {same : FuncDef Nat → FuncDef Nat → Prop}
    (hsame : FuncDef.Paired same) {op : BinaryOp} {mode : Truthiness}
    {meaning : Value → Value → Except EvalError Value} (h : op.meaning? mode = some meaning)
    {a a' b b' : Value} (ha : Value.Matches same a a') (hb : Value.Matches same b b') :
    Agree (Value.Matches same) (meaning a b) (meaning a' b') := by
  -- The results are even equal, for none of them is a function.
  have heq : meaning a b = meaning a' b' := by
    cases op with
    | or | and =>
      cases h
      simp only [Value.connective, ha.truthy_eq, hb.truthy_eq]
    | add | sub =>
      cases h
      exact ha.arithmetic_eq _ _ hb
    | eq | notEq | lt | le | gt | ge | isIn | notIn | is | isNot =>
      cases h
      exact congrArg (Except.map Value.bool) (ha.compare_eq hsame _ hb)
    | _ => cases h
  rw [heq]
  cases hv : meaning a' b' with
  | error e => exact .error e
  | ok v => exact .ok (.plain (BinaryOp.kind_ne_function_of_meaning? h hv))

/-! ### Names -/

namespace NameMap.Matches

variable {α β : Type} {R : α → β → Prop} {m upper : NameMap α} {n upper' : NameMap β}

/-- Maps without names match. -/
theorem empty : Matches R NameMap.empty NameMap.empty :=
  fun _ => .none

/-- A name set to values that are related. -/
theorem insert (h : Matches R m n) (name : String) {a : α} {b : β} (hab : R a b) :
    Matches R (m.insert name a) (n.insert name b) := by
  intro k
  rw [get?_insert, get?_insert]
  split
  · exact .some hab
  · exact h k

/-- Names set over others. -/
theorem override (h : Matches R m n) (hupper : Matches R upper upper') :
    Matches R (m.override upper) (n.override upper') := by
  intro k
  rw [get?_override, get?_override]
  -- A name is found above on both sides or on none.
  have hk := hupper k
  generalize upper.get? k = above, upper'.get? k = above' at hk ⊢
  cases hk with
  | some hab => exact .some hab
  | none => exact h k

/-- Parameters set one after the other, each to values that are related. -/
theorem foldl_zip (params : List String) {as : List α} {bs : List β} (hab : List.Forall₂ R as bs)
    (h : Matches R m n) :
    Matches R ((params.zip as).foldl (fun m p => m.insert p.1 p.2) m)
      ((params.zip bs).foldl (fun m p => m.insert p.1 p.2) n) := by
  induction hab generalizing params m n with
  | nil =>
    rw [List.zip_nil_right, List.zip_nil_right]
    exact h
  | cons hhead _ ih =>
    cases params with
    | nil => exact h
    | cons param params => exact ih params (h.insert param hhead)

/-- The scope of a call on arguments that are related. -/
theorem ofList_zip (params : List String) {as : List α} {bs : List β}
    (hab : List.Forall₂ R as bs) :
    Matches R (NameMap.ofList (params.zip as)) (NameMap.ofList (params.zip bs)) :=
  foldl_zip params hab empty

end NameMap.Matches

namespace Flat

variable {same : FuncDef Nat → FuncDef Nat → Prop} {cfg : Config} {depth : Nat}
  {names names' : NameMap Value}

/-- Flows that match give their callers values that match. -/
theorem Flow.Matches.value {flow flow' : Flow} (h : Flow.Matches same flow flow') :
    Value.Matches same flow.value flow'.value := by
  cases h with
  | next => exact .plain Kind.noConfusion
  | returned h => exact h

/-! ### Expressions -/

/-- Where `depth` calls are in progress and one more is allowed, the bodies of paired definitions
agree on names that match. -/
def BodiesMatch (same : FuncDef Nat → FuncDef Nat → Prop) (cfg : Config) (depth : Nat) : Prop :=
  ¬ cfg.maxCallDepth ≤ depth → ∀ d e, same d e → ∀ names names' : NameMap Value,
    names.Matches (Value.Matches same) names' →
      Agree (Flow.Matches same) (execAll cfg (depth + 1) names d.body)
        (execAll cfg (depth + 1) names' e.body)

mutual

/-- Runs of one expression on names that match agree if the bodies of paired definitions do. -/
theorem eval_matches (hsame : FuncDef.Paired same) (hbodies : BodiesMatch same cfg depth)
    (h : names.Matches (Value.Matches same) names') :
    ∀ e : Expr, Agree (Value.Matches same) (eval cfg depth names e) (eval cfg depth names' e)
  | .none | .bool _ | .int _ => by
    simp only [eval]
    exact .ok (.plain Kind.noConfusion)
  | .name id => by
    simp only [eval]
    have hid := h id
    generalize names.get? id = found, names'.get? id = found' at hid ⊢
    cases hid with
    | some hv => exact .ok hv
    | none => exact .error _
  | .unary op e => by
    cases op with
    | not =>
      simp only [eval]
      refine (eval_matches hsame hbodies h e).bind fun v w hv => ?_
      rw [hv.truthy_eq]
      exact .ok (.plain Kind.noConfusion)
    | neg | pos | bitNot | star =>
      simp only [eval]
      exact .error _
  | .binary op a b => by
    simp only [eval]
    cases hop : op.meaning? cfg.truthiness with
    | none => exact .error _
    | some meaning =>
      exact (eval_matches hsame hbodies h a).bind fun _ _ hx =>
        (eval_matches hsame hbodies h b).bind fun _ _ hy =>
          BinaryOp.meaning?_matches hsame hop hx hy
  | .ternary body condition orelse => by
    simp only [eval]
    refine (eval_matches hsame hbodies h condition).bind fun v w hv => ?_
    rw [hv.truthy_eq]
    exact (eval_matches hsame hbodies h body).ite (eval_matches hsame hbodies h orelse)
  | .call callee args => by
    simp only [eval]
    refine (eval_matches hsame hbodies h callee).bind fun v w hv =>
      hv.asFunction.bind fun d e hde => ?_
    -- Paired definitions take equally many arguments, and a mismatch is reported by their name.
    rw [hsame.params_eq hde, hsame.name_eq hde]
    refine Agree.ite ?_ (.error _)
    split
    · exact .error _
    · next hallowed =>
      -- The parameters stand over names that match, so the bodies agree.
      exact (evalAll_matches hsame hbodies h args).bind fun vs ws hvs =>
        (hbodies hallowed d e hde _ _ (h.override (.ofList_zip e.params hvs))).bind
          fun _ _ hflow => .ok hflow.value

/-- Runs of several expressions on names that match agree. -/
theorem evalAll_matches (hsame : FuncDef.Paired same) (hbodies : BodiesMatch same cfg depth)
    (h : names.Matches (Value.Matches same) names') :
    ∀ es : List Expr, Agree (List.Forall₂ (Value.Matches same)) (evalAll cfg depth names es)
      (evalAll cfg depth names' es)
  | [] => by
    simp only [evalAll]
    exact .ok .nil
  | e :: es => by
    simp only [evalAll]
    exact (eval_matches hsame hbodies h e).bind fun _ _ hv =>
      (evalAll_matches hsame hbodies h es).bind fun _ _ hvs => .ok (.cons hv hvs)

end

/-- Runs of several assertions on names that match agree. -/
theorem assertAll_matches (hsame : FuncDef.Paired same) (hbodies : BodiesMatch same cfg depth)
    (h : names.Matches (Value.Matches same) names') (es : List Expr) :
    Agree Eq (assertAll cfg depth names es) (assertAll cfg depth names' es) := by
  induction es with
  | nil =>
    simp only [assertAll]
    exact .ok rfl
  | cons e es ih =>
    simp only [assertAll]
    refine (eval_matches hsame hbodies h e).bind fun v w hv => ?_
    rw [hv.truthy_eq]
    exact ih.ite (.error _)

end Flat

end ScopeScript
