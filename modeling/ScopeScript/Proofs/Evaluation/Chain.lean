import ScopeScript.Proofs.Evaluation.Frames
import ScopeScript.Proofs.Program.Image

/-!
# Comparison chains

A comparison chain is read as the conjunction of its links, and each operand in its middle stands in
two of them, so evaluation comes to it twice. Since an expression leaves the stack and the number of
calls in progress as it found them, the second time gives what the first gave, also if the operand
calls a function. The chain has the outcome of one pass over its operands.

* `Expr.chainOnce`: the one pass. Operands are evaluated from left to right, each once, and a link
  is applied as soon as its right operand is known.

Main statement:

* `Node.evaluate_toExpr_of_comparison`: a chain that is read from a tree evaluates as one pass.
-/

namespace ScopeScript

namespace Expr

/-! ### One pass over a chain -/

/-- The links of a chain that follow an operand of a known value, given what those before come to.
A link that fails to hold does not end the pass; an error does. -/
def linksOnce (cfg : Config) (caller : Caller) (previous : Value) (holds : Bool) :
    List (BinaryOp × Expr) → EvalM Bool
  | [] => pure holds
  | (op, e) :: rest => do
    let v ← e.eval cfg caller
    let link ← EvalM.ofExcept (Value.compare op previous v)
    linksOnce cfg caller v (holds && link) rest

/-- The value of a chain in one pass: whether all its links hold. -/
def chainOnce (cfg : Config) (caller : Caller) (first : Expr) (links : List (BinaryOp × Expr)) :
    EvalM Value := do
  let v ← first.eval cfg caller
  let holds ← linksOnce cfg caller v true links
  return .bool holds

section

variable {cfg : Config} {caller : Caller}

/-- A pass over links only reads if calls do. -/
theorem reads_linksOnce (hcaller : caller.Reads) (previous : Value) (holds : Bool)
    (links : List (BinaryOp × Expr)) :
    EvalM.Reads (linksOnce cfg caller previous holds links) := by
  induction links generalizing previous holds with
  | nil => exact EvalM.reads_pure holds
  | cons l ls ih =>
    exact (reads_eval hcaller l.2).bind fun v =>
      (EvalM.reads_ofExcept _).bind fun link => ih v (holds && link)

/-- A pass over a chain only reads if calls do. -/
theorem reads_chainOnce (hcaller : caller.Reads) (first : Expr) (links : List (BinaryOp × Expr)) :
    EvalM.Reads (chainOnce cfg caller first links) :=
  (reads_eval hcaller first).bind fun v =>
    (reads_linksOnce hcaller v true links).bind fun _ => EvalM.reads_pure _

/-! ### The conjunction of the links -/

variable {acc previous : Expr} {links : List (BinaryOp × Expr)} {m : Machine}

/-- What a pass over links comes to, from the next operand on. -/
theorem fst_linksOnce_cons {v : Value} {holds : Bool} {op : BinaryOp} {e : Expr}
    (hcaller : caller.Reads) :
    (linksOnce cfg caller v holds ((op, e) :: links) m).1 =
      (e.eval cfg caller m).1.bind fun w => (Value.compare op v w).bind fun link =>
        (linksOnce cfg caller w (holds && link) links m).1 := by
  rw [linksOnce, (reads_eval hcaller e).fst_bind]
  congr 1
  funext w
  exact (EvalM.reads_ofExcept (Value.compare op v w)).fst_bind _ m

/-- A chain whose finished part fails does so whatever links follow. -/
theorem eval_chainFrom_of_error {err : EvalError} (hcaller : caller.Reads)
    (hacc : (acc.eval cfg caller m).1 = .error err) :
    ((chainFrom acc previous links).eval cfg caller m).1 = .error err := by
  induction links generalizing acc previous with
  | nil => exact hacc
  | cons l ls ih =>
    refine ih ?_
    rw [eval_binary hcaller rfl, hacc]
    rfl

/-- A finished part and one more link in conjunction come to what the pass comes to there: the last
operand, evaluated again as the left operand of the link, gives what it gave before. -/
theorem fst_eval_joined {op : BinaryOp} {previous e : Expr} {v : Value} {holds : Bool}
    (hcaller : caller.Reads) (hop : op.isComparison = true)
    (hacc : (acc.eval cfg caller m).1 = .ok (.bool holds))
    (hprevious : (previous.eval cfg caller m).1 = .ok v) :
    ((binary .and acc (binary op previous e)).eval cfg caller m).1 =
      (e.eval cfg caller m).1.bind fun w => (Value.compare op v w).map fun link =>
        .bool (holds && link) := by
  rw [eval_binary hcaller rfl, hacc,
    eval_binary hcaller (BinaryOp.meaning?_of_isComparison hop _), hprevious]
  cases he : (e.eval cfg caller m).1 with
  | error err => rfl
  | ok w =>
    show (((Value.compare op v w).map .bool).bind fun y =>
      Value.connective cfg.truthiness (· && ·) (.bool holds) y) = (Value.compare op v w).map _
    cases Value.compare op v w <;> rfl

/-- A chain goes on from its finished part as a pass does. The part ends with a link whose right
operand is the left operand of the link that follows. -/
theorem fst_eval_chainFrom {op : BinaryOp} {e : Expr} {v : Value} {holds : Bool}
    (hcaller : caller.Reads) (hlinks : ∀ l ∈ links, l.1.isComparison = true)
    (hacc : (acc.eval cfg caller m).1 =
      (e.eval cfg caller m).1.bind fun w => (Value.compare op v w).map fun link =>
        .bool (holds && link)) :
    ((chainFrom acc e links).eval cfg caller m).1 =
      (linksOnce cfg caller v holds ((op, e) :: links) m).1.map .bool := by
  -- The induction is on the links that follow, for any finished part and any pass up to it.
  induction links generalizing acc op e v holds with
  | nil =>
    rw [fst_linksOnce_cons hcaller]
    refine hacc.trans ?_
    cases (e.eval cfg caller m).1 with
    | error err => rfl
    | ok w =>
      show (Value.compare op v w).map _ = ((Value.compare op v w).bind _).map _
      cases Value.compare op v w <;> rfl
  | cons l ls ih =>
    obtain ⟨op', e'⟩ := l
    obtain ⟨hop, hls⟩ := List.forall_mem_cons.1 hlinks
    rw [fst_linksOnce_cons hcaller]
    -- Either the finished part fails, in its last operand or its last link, or it is a truth value.
    cases he : (e.eval cfg caller m).1 with
    | error err =>
      rw [he] at hacc
      exact eval_chainFrom_of_error hcaller hacc
    | ok w =>
      rw [he] at hacc
      change _ = (Value.compare op v w).map _ at hacc
      show _ = ((Value.compare op v w).bind _).map _
      cases hlink : Value.compare op v w with
      | error err =>
        rw [hlink] at hacc
        exact eval_chainFrom_of_error hcaller hacc
      | ok link =>
        rw [hlink] at hacc
        exact ih hls (fst_eval_joined hcaller hop hacc he)

/-- A chain with at least one link gives what one pass over its operands gives. -/
theorem fst_eval_chain {first : Expr} {link : BinaryOp × Expr} (hcaller : caller.Reads)
    (hlinks : ∀ l ∈ link :: links, l.1.isComparison = true) :
    ((first.chain (link :: links)).eval cfg caller m).1 =
      (chainOnce cfg caller first (link :: links) m).1 := by
  obtain ⟨op, e⟩ := link
  obtain ⟨hop, hls⟩ := List.forall_mem_cons.1 hlinks
  -- The first link is the finished part to start from, and no link before it failed to hold.
  have hfirst : ((binary op first e).eval cfg caller m).1 =
      (first.eval cfg caller m).1.bind fun v => (e.eval cfg caller m).1.bind fun w =>
        (Value.compare op v w).map .bool :=
    eval_binary hcaller (BinaryOp.meaning?_of_isComparison hop _)
  rw [chain, chainOnce, (reads_eval hcaller first).fst_bind]
  cases hv : (first.eval cfg caller m).1 with
  | error err =>
    rw [hv] at hfirst
    exact eval_chainFrom_of_error hcaller hfirst
  | ok v =>
    rw [hv] at hfirst
    have hpass : ((chainFrom (binary op first e) e links).eval cfg caller m).1 =
        (linksOnce cfg caller v true ((op, e) :: links) m).1.map .bool :=
      fst_eval_chainFrom hcaller hls hfirst
    rw [hpass]
    show _ = ((linksOnce cfg caller v true ((op, e) :: links) >>= fun holds =>
      pure (Value.bool holds)) m).1
    rw [(reads_linksOnce hcaller v true _).fst_bind]
    cases (linksOnce cfg caller v true ((op, e) :: links) m).1 <;> rfl

end

end Expr

namespace Node

/-! ### Chains that are read from trees -/

/-- The operator of a comparison link is a comparison. -/
theorem isComparison_of_toLink {n : Node} {link : BinaryOp × Expr} (h : n.toLink = .ok link) :
    link.1.isComparison = true := by
  obtain ⟨rule, items⟩ := n
  obtain ⟨p, hp, e, -, rfl⟩ := exists_of_toLink h
  have hall : ∀ q ∈ linkOperators, q.2.isComparison = true := by decide
  exact hall p hp

/-- Where no links are read, no child is one. -/
theorem hasChild_eq_false_of_mapM {α : Type} {n : Node} {r : Rule}
    {read : Node → Except TreeError α} (h : (n.children r).mapM read = .ok []) :
    n.hasChild r = false := by
  rw [hasChild, child?]
  cases hchildren : n.children r with
  | nil => rfl
  | cons m ms =>
    rw [hchildren, List.mapM_cons] at h
    obtain ⟨a, -, h⟩ := bind_eq_ok.1 h
    obtain ⟨as, -, h⟩ := bind_eq_ok.1 h
    cases h

/-- A comparison is read as the chain of its links. -/
theorem exists_chain_of_comparison {n : Node} {e : Expr} (hrule : n.rule = .comparison)
    (h : n.toExpr = .ok e) :
    ∃ first links, (n.child? .bitwiseOr 0).map toExpr = some (.ok first) ∧
      (n.children .compareOpBitwiseOrPair).mapM toLink = .ok links ∧ e = first.chain links := by
  obtain ⟨rule, items⟩ := n
  obtain rfl : rule = .comparison := hrule
  simp only [toExpr] at h
  obtain ⟨first, hfirst, h⟩ := bind_eq_ok.1 h
  obtain ⟨links, hlinks, h⟩ := bind_eq_ok.1 h
  refine ⟨first, links, ?_, ?_, (Except.ok.inj h).symm⟩
  · exact (exprAt_items (mk .comparison items) .bitwiseOr 0).symm.trans (need_eq_ok.1 hfirst)
  · exact (linksAt_items (mk .comparison items)).symm.trans hlinks

/-- A comparison of an operand with one or more others, once it is read, evaluates as one pass over
the operands does: it gives the same value or the same error and leaves the same evaluator, whatever
that held before. -/
theorem evaluate_toExpr_of_comparison {n : Node} {e : Expr} (hrule : n.rule = .comparison)
    (hlink : n.hasChild .compareOpBitwiseOrPair = true) (h : n.toExpr = .ok e) :
    ∃ first links, (n.child? .bitwiseOr 0).map toExpr = some (.ok first) ∧
      (n.children .compareOpBitwiseOrPair).mapM toLink = .ok links ∧
      ∀ ev : Evaluator,
        ev.evaluate e = ev.run fun cfg caller => Expr.chainOnce cfg caller first links := by
  obtain ⟨first, links, hfirst, hlinks, rfl⟩ := exists_chain_of_comparison hrule h
  refine ⟨first, links, hfirst, hlinks, fun ev => ?_⟩
  have hcomparison : ∀ l ∈ links, l.1.isComparison = true :=
    forall_mem_of_mapM (fun _ _ _ hm => isComparison_of_toLink hm) hlinks
  have hcaller := Caller.reads_atDepth ev.config ev.callDepth
  cases links with
  | nil => exact absurd hlink (ne_true_of_eq_false (hasChild_eq_false_of_mapM hlinks))
  | cons link links =>
    -- Neither the chain nor the pass changes the machine, so only the outcomes are compared.
    rw [Evaluator.evaluate, Evaluator.run, Evaluator.run, (Expr.reads_eval hcaller _).eq,
      (Expr.reads_chainOnce hcaller first _).eq, Expr.fst_eval_chain hcaller hcomparison]

/-- In `2 < f(1) < f`, the conjunction of the links evaluates the call twice. The first link does
not hold, and the second fails all the same. -/
theorem evaluate_toExpr_of_called_operand :
    let called := Phrase.call (Phrase.name "f") [Phrase.expr (Phrase.number "1")]
    let n := Phrase.comparison (Phrase.lift (Phrase.number "2") .bitwiseOr)
      [(.ltBitwiseOr, Phrase.lift called .bitwiseOr),
        (.ltBitwiseOr, Phrase.lift (Phrase.name "f") .bitwiseOr)]
    let links : List (BinaryOp × Expr) :=
      [(.lt, .call (.name "f") [.int 1]), (.lt, .name "f")]
    let d : FuncDef Nat := ⟨0, "f", ["x"], [.ret (some (.name "x"))]⟩
    let ev : Evaluator :=
      { config := {}, env := ⟨[.scope (NameMap.empty.insert "f" (.function d))]⟩ }
    n.rule = .comparison ∧ n.hasChild .compareOpBitwiseOrPair = true ∧
      n.toExpr = .ok ((Expr.int 2).chain links) ∧
      ev.evaluate ((Expr.int 2).chain links) =
        (ev.run fun cfg caller => Expr.chainOnce cfg caller (.int 2) links) ∧
      (ev.evaluate ((Expr.int 2).chain links)).1 = .error (.notOrdered .lt .int .function) := by
  intro called n links d ev
  have hread : n.toExpr = .ok ((Expr.int 2).chain links) := rfl
  obtain ⟨first, links', hfirst, hlinks, heval⟩ := evaluate_toExpr_of_comparison rfl rfl hread
  -- The operands that the theorem finds are those of the tree.
  obtain rfl : first = .int 2 := by
    have hnode : (n.child? .bitwiseOr 0).map toExpr = some (.ok (.int 2)) := rfl
    simpa using hfirst.symm.trans hnode
  obtain rfl : links' = links := by
    have hnodes : (n.children .compareOpBitwiseOrPair).mapM toLink = .ok links := rfl
    simpa using hlinks.symm.trans hnodes
  exact ⟨rfl, rfl, hread, heval ev, rfl⟩

end Node

end ScopeScript
