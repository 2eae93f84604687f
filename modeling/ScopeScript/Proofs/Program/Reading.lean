import ScopeScript.Proofs.Phrase.Reading
import ScopeScript.Proofs.Program.Outline

/-!
# Reading outlines

A program built from proper outlines is read as the statements that the outlines spell. Each phrase
of the statement grammar is read with its parts; clauses, statements and tails are put together from
that.

* `Node.Stands`: a node of a production that is read as a statement.
* `Node.HasValue`: a node of starred expressions that is read as a value.
* `Node.Continues`: a tail that is read as the alternative of a conditional statement.

Main statements:

* `Clause.exists_stands`, `Outline.exists_stands`: a proper clause or outline spells a statement,
  and its tree is read as it.
-/

namespace ScopeScript

/-! ### Nodes and what they stand for -/

/-- The node is built from the production and read as the statement. -/
structure Node.Stands (r : Rule) (n : Node) (s : Stmt Unit) : Prop where
  /-- The production. -/
  rule : n.rule = r
  /-- The node is read as the statement. -/
  reads : n.toStmt = .ok s

/-- The node is built from starred expressions and read as the value. -/
structure Node.HasValue (n : Node) (e : Expr) : Prop where
  /-- The production. -/
  rule : n.rule = .starExpressions
  /-- The node is read as the value. -/
  reads : n.toExpr = .ok e

/-- The tail of a conditional statement is read as its alternative. -/
inductive Node.Continues : Option Node → Option (Block Unit) → Prop where
  /-- Nothing follows. -/
  | nothing : Continues none none
  /-- An `elif` is an alternative of one more conditional statement. -/
  | elif {n : Node} {s : Stmt Unit} (h : Stands .elifStmt n s) : Continues (some n) (some [s])
  /-- An `else` brings its block. -/
  | orElse {n : Node} {b : Block Unit} (hrule : n.rule = .elseBlock) (h : n.toBlock = .ok b) :
    Continues (some n) (some b)

namespace Phrase

open Node

variable {n m : Node} {e v : Expr}

/-! ### Expressions in statements -/

/-- An expression in the place of starred expressions is read as itself. -/
theorem toExpr_starExpressions (h : Spells .expression n e) :
    (starExpressions n).toExpr = .ok e := by
  simp [starExpressions, expr, toExpr, exprAt, need, childCount, children, hasToken, token?,
    Item.textOf?, h.rule_lift, h.toExpr_lift]

/-- A condition is read as its expression. -/
theorem toExpr_named (h : Spells .expression n e) : (named n).toExpr = .ok e := by
  simp [named, expr, toExpr, exprAt, supported, h.rule_lift, h.toExpr_lift]

/-! ### Simple statements

A value may be an unpacking, which no phrase builds. What is read around a value is told for any
node that is read as one, and so for the expressions of the phrases. -/

/-- An expression in the place of starred expressions has itself as its value. -/
theorem hasValue_starExpressions (h : Spells .expression n e) :
    HasValue (starExpressions n) e :=
  ⟨rfl, toExpr_starExpressions h⟩

/-- The assignment of a value to a name. -/
def assigned (name : String) (value : Node) : Node :=
  .mk .simpleStmt [.node (.mk .assignment [.node (target name), .fixed .equal, .node value])]

/-- The annotated assignment of a value to a name. -/
def assignedAs (name : String) (hint value : Node) : Node :=
  .mk .simpleStmt
    [.node (.mk .assignment
      [.token .name name, .fixed .colon, .node (expr hint), .fixed .equal,
       .node (.mk .annotatedRhs [.node value])])]

/-- The return of a value. -/
def returned (value : Node) : Node :=
  .mk .simpleStmt [.node (.mk .returnStmt [.fixed .kwReturn, .node value])]

/-- A value as a statement. -/
def dropped (value : Node) : Node :=
  .mk .simpleStmt [.node value]

/-- An assignment to a name. -/
theorem stands_assigned (name : String) (h : HasValue m v) :
    Stands .simpleStmt (assigned name m) (.assign name none (some v)) where
  rule := rfl
  reads := by
    simp [assigned, target, Item.fixed, toStmt, simpleStmt, assignment, targetName, targetAtom,
      value?, need, supported, childCount, hasChild, child?, children, hasToken, token?,
      Item.textOf?, h.rule, h.reads]
    rfl

/-- An assignment to a name of an expression. -/
theorem stands_assign (name : String) (h : Spells .expression n e) :
    Stands .simpleStmt (assign name n) (.assign name none (some e)) :=
  stands_assigned name (hasValue_starExpressions h)

/-- A bare annotation. -/
theorem stands_annotated_none (name : String) (h : Spells .expression n e) :
    Stands .simpleStmt (annotated name n none) (.assign name (some e) none) where
  rule := rfl
  reads := by
    simp [annotated, expr, Item.fixed, toStmt, simpleStmt, assignment, need, child?, children,
      token?, Item.textOf?, h.rule_lift, h.toExpr_lift]

/-- An annotated assignment. -/
theorem stands_assignedAs (name : String) (h : Spells .expression n e) (hv : HasValue m v) :
    Stands .simpleStmt (assignedAs name n m) (.assign name (some e) (some v)) where
  rule := rfl
  reads := by
    simp [assignedAs, expr, Item.fixed, toStmt, simpleStmt, assignment, value?, need, supported,
      child?, children, token?, Item.textOf?, h.rule_lift, h.toExpr_lift, hv.rule, hv.reads]
    rfl

/-- An annotated assignment of an expression. -/
theorem stands_annotated_some (name : String) (h : Spells .expression n e)
    (hv : Spells .expression m v) :
    Stands .simpleStmt (annotated name n (some m)) (.assign name (some e) (some v)) :=
  stands_assignedAs name h (hasValue_starExpressions hv)

/-- A return without a value. -/
theorem stands_ret_none : Stands .simpleStmt (ret none) (.ret none) where
  rule := rfl
  reads := rfl

/-- A return with a value. -/
theorem stands_returned (h : HasValue m v) :
    Stands .simpleStmt (returned m) (.ret (some v)) where
  rule := rfl
  reads := by
    simp [returned, Item.fixed, toStmt, simpleStmt, Node.returned, value?, child?, children,
      h.rule, h.reads, Except.map]

/-- A return with an expression. -/
theorem stands_ret_some (h : Spells .expression n e) :
    Stands .simpleStmt (ret (some n)) (.ret (some e)) :=
  stands_returned (hasValue_starExpressions h)

/-! ### Lists of children -/

/-- Children with a token before each are found by their production. -/
theorem childrenOf_preceded {place : Rule} (sep : Token) {ns : List Node}
    (h : ∀ n ∈ ns, n.rule = place) :
    Item.childrenOf place (ns.flatMap fun m => [.fixed sep, .node m]) = ns := by
  induction ns with
  | nil => rfl
  | cons n ns ih =>
    obtain ⟨hn, hns⟩ := List.forall_mem_cons.1 h
    have htail := ih hns
    simp only [Item.fixed] at htail
    rw [List.flatMap_cons, List.cons_append, List.singleton_append, Item.fixed,
      Item.childrenOf_token, Item.childrenOf_node, if_pos hn, htail]

/-- Children between tokens are found by their production. -/
theorem childrenOf_separated {place : Rule} (sep : Token) {ns : List Node}
    (h : ∀ n ∈ ns, n.rule = place) : Item.childrenOf place (separated sep ns) = ns := by
  cases ns with
  | nil => rfl
  | cons n ns =>
    obtain ⟨hn, hns⟩ := List.forall_mem_cons.1 h
    rw [separated, Item.childrenOf_node, if_pos hn, childrenOf_preceded sep hns]

/-- Children one after another are found by their production. -/
theorem childrenOf_map_node {place : Rule} {ns : List Node} (h : ∀ n ∈ ns, n.rule = place) :
    Item.childrenOf place (ns.map .node) = ns := by
  induction ns with
  | nil => rfl
  | cons n ns ih =>
    obtain ⟨hn, hns⟩ := List.forall_mem_cons.1 h
    rw [List.map_cons, Item.childrenOf_node, if_pos hn, ih hns]

/-- Nodes that are read one by one are read as a list. -/
theorem mapM_eq_ok {α : Type} {read : Node → Except TreeError α} {ns : List Node} {as : List α}
    (h : List.Forall₂ (fun n a => read n = .ok a) ns as) : ns.mapM read = .ok as := by
  induction h with
  | nil => rfl
  | cons hn _ ih =>
    rw [List.mapM_cons, hn, ih]
    rfl

/-- The nodes that stand for statements are built from one production. -/
theorem rule_of_forall₂_stands {r : Rule} {ns : List Node} {ss : List (Stmt Unit)}
    (h : List.Forall₂ (Stands r) ns ss) : ∀ n ∈ ns, n.rule = r :=
  ((List.forall₂_and_left _ _).1 (h.imp fun _ _ hn => ⟨hn.rule, hn⟩)).1

/-- The statements that the children of a production stand for are read in their order. -/
theorem stmtsAt_eq_ok {r : Rule} {items : List Item} {ns : List Node} {ss : List (Stmt Unit)}
    (hchildren : Item.childrenOf r items = ns) (h : List.Forall₂ (Stands r) ns ss) :
    stmtsAt r items = .ok ss := by
  have hitems := stmtsAt_items (mk .statements items) r
  rw [items_mk, children, items_mk, hchildren, mapM_eq_ok (h.imp fun _ _ hn => hn.reads)] at hitems
  exact hitems

/-- An assertion of one or more expressions. -/
theorem stands_assertion {ns : List Node} {es : List Expr}
    (h : List.Forall₂ (Spells .expression) ns es) (hne : es ≠ []) :
    Stands .simpleStmt (assertion ns) (.assert es) where
  rule := rfl
  reads := by
    have hrule : ∀ n ∈ ns.map expr, n.rule = .expression := by
      intro n hn
      obtain ⟨m, hm, rfl⟩ := List.mem_map.1 hn
      exact ((List.forall₂_and_left _ _).1 (h.imp fun _ _ hs => ⟨hs.rule_lift, hs⟩)).1 m hm
    have hread : (ns.map expr).mapM toExpr = .ok es := by
      refine mapM_eq_ok (List.forall₂_map_left_iff.2 (h.imp fun _ _ hs => ?_))
      exact hs.toExpr_lift
    let node : Node := mk .assertStmt (.fixed .kwAssert :: separated .comma (ns.map expr))
    have hchildren : node.children .expression = ns.map expr := by
      rw [children, items_mk, Item.fixed, Item.childrenOf_token, childrenOf_separated .comma hrule]
    have hasserted : node.asserted = .ok (.assert es : Stmt Unit) := by
      rw [asserted, hchildren, hread]
      cases es with
      | nil => exact absurd rfl hne
      | cons e es => rfl
    simp only [assertion, toStmt, simpleStmt, child?, children]
    exact hasserted

/-- A value as a statement. -/
theorem stands_dropped (h : HasValue m v) : Stands .simpleStmt (dropped m) (.expr v) where
  rule := rfl
  reads := by
    simp [dropped, toStmt, simpleStmt, value?, child?, children, h.rule, h.reads, Except.map]

/-- An expression as a statement. -/
theorem stands_exprStmt (h : Spells .expression n e) :
    Stands .simpleStmt (exprStmt n) (.expr e) :=
  stands_dropped (hasValue_starExpressions h)

/-- The statement that does nothing. -/
theorem stands_pass : Stands .simpleStmt pass .pass where
  rule := rfl
  reads := rfl

/-! ### Lines and blocks -/

/-- Simple statements on one line. -/
theorem stands_line {ns : List Node} {ss : List (Stmt Unit)} {s : Stmt Unit}
    (h : List.Forall₂ (Stands .simpleStmt) ns ss) (hs : Stmt.ofLine? ss = some s) :
    Stands .statement (line ns) s where
  rule := rfl
  reads := by
    have hchildren : Item.childrenOf .simpleStmt
        (separated .semicolon ns ++ [.fixed .newline]) = ns := by
      rw [Item.childrenOf, List.filterMap_append, ← Item.childrenOf,
        childrenOf_separated .semicolon (rule_of_forall₂_stands h)]
      exact List.append_nil ns
    have hgrouped : grouped (.ok ss) = .ok s := by
      cases ss with
      | nil => cases hs
      | cons t ts => cases ts <;> exact congrArg Except.ok (Option.some.inj hs)
    rw [line, toStmt, stmtAt, rule_mk, if_pos rfl, toStmt, stmtsAt_eq_ok hchildren h]
    exact hgrouped

/-- An indented block. -/
theorem toBlock_block {ns : List Node} {ss : List (Stmt Unit)}
    (h : List.Forall₂ (Stands .statement) ns ss) : (block ns).toBlock = .ok ss := by
  have hstmts : stmtsAt .statement (ns.map .node) = .ok ss :=
    stmtsAt_eq_ok (childrenOf_map_node (rule_of_forall₂_stands h)) h
  simp [block, statements, Item.fixed, toBlock, blockAt, hstmts]

/-! ### Compound statements -/

/-- A compound statement is read as what it holds. -/
theorem stands_compound {s : Stmt Unit} {r : Rule} (hr : r = .ifStmt ∨ r = .functionDef)
    (h : Stands r n s) : Stands .statement (compound n) s where
  rule := rfl
  reads := by
    have hrule := h.rule
    rcases hr with rfl | rfl <;> simp [compound, toStmt, stmtAt, supported, hrule, h.reads]

/-- A condition, its block and what follows, under the keyword that opens it. -/
theorem stands_conditional {r : Rule} (hr : r = .ifStmt ∨ r = .elifStmt) (opening : Token)
    {ns : List Node} {ss : Block Unit} {tail : Option Node} {o : Option (Block Unit)}
    (hc : Spells .expression n e) (hb : List.Forall₂ (Stands .statement) ns ss)
    (ht : Continues tail o) :
    Stands r (conditional r opening n ns tail) (.cond e ss o) where
  rule := rfl
  reads := by
    have hcondition := toExpr_named hc
    have hbody := toBlock_block hb
    have hnamed : (named n).rule = .namedExpression := rfl
    have hblock : (block ns).rule = .block := rfl
    cases ht with
    | nothing =>
      rcases hr with rfl | rfl <;>
        simp [conditional, Item.fixed, toStmt, stmtAt, blockAt, need, child?, children, hnamed,
          hblock, hcondition, hbody] <;> rfl
    | elif h =>
      rcases hr with rfl | rfl <;>
        simp [conditional, Item.fixed, toStmt, stmtAt, blockAt, need, child?, children, hnamed,
          hblock, hcondition, hbody, h.rule, h.reads] <;> rfl
    | orElse hrule h =>
      rcases hr with rfl | rfl <;>
        simp [conditional, Item.fixed, toStmt, stmtAt, blockAt, need, child?, children, hnamed,
          hblock, hcondition, hbody, hrule, h] <;> rfl

/-- An `else` brings its block. -/
theorem continues_orElse {ns : List Node} {ss : Block Unit}
    (h : List.Forall₂ (Stands .statement) ns ss) : Continues (some (orElse ns)) (some ss) := by
  refine .orElse rfl ?_
  have hbody := toBlock_block h
  have hblock : (block ns).rule = .block := rfl
  simp [orElse, Item.fixed, toBlock, blockAt, need, hblock, hbody]

/-- The parameters of a header are read in their order. -/
theorem paramList_parameters (params : List String) :
    (mk .parameters (params.map fun p => .node (param p))).paramList = .ok params := by
  have hrule : ∀ n ∈ params.map param, n.rule = .paramNoDefault := by
    intro n hn
    obtain ⟨p, -, rfl⟩ := List.mem_map.1 hn
    rfl
  have hitems : (params.map fun p => Item.node (param p)) = (params.map param).map .node := by
    rw [List.map_map]
    rfl
  have hplain : (mk .parameters (params.map fun p => .node (param p))).children .paramNoDefault =
      params.map param := by
    rw [children, items_mk, hitems, childrenOf_map_node hrule]
  -- No parameter is of a form that the language leaves out.
  have hnone : ∀ r, r ≠ .paramNoDefault →
      (mk .parameters (params.map fun p => .node (param p))).hasChild r = false := by
    intro r hr
    have hempty : Item.childrenOf r (params.map fun p => .node (param p)) = [] := by
      refine List.filterMap_eq_nil_iff.2 fun i hi => ?_
      obtain ⟨p, -, rfl⟩ := List.mem_map.1 hi
      exact if_neg fun h => hr h.symm
    rw [hasChild, child?, children, items_mk, hempty]
    rfl
  have hread : (params.map param).mapM paramName = .ok params := by
    refine mapM_eq_ok (List.forall₂_map_left_iff.2 (List.forall₂_same.2 fun p _ => ?_))
    simp [param, paramName, need, needName, child?, children, token?, Item.textOf?]
  rw [paramList, hnone .slashNoDefault (by decide), hnone .slashWithDefault (by decide),
    hnone .paramWithDefault (by decide), hnone .starEtc (by decide), hplain, hread]
  rfl

/-- A function definition. -/
theorem stands_funcDef (name : String) (params : List String) {ns : List Node} {ss : Block Unit}
    (h : List.Forall₂ (Stands .statement) ns ss) :
    Stands .statement (funcDef name params ns) (.funcDef () name params ss) := by
  refine stands_compound (.inr rfl) ⟨rfl, ?_⟩
  have hbody := toBlock_block h
  have hblock : (block ns).rule = .block := rfl
  have hparams := paramList_parameters params
  cases params with
  | nil =>
    simp [parameters, Item.fixed, toStmt, stmtAt, blockAt, need, needName, paramNames, hasChild,
      child?, children, hasToken, token?, Item.textOf?, hblock, hbody]
    rfl
  | cons p ps =>
    rw [parameters]
    · simp [-List.map_cons, Item.fixed, toStmt, stmtAt, blockAt, need, needName, paramNames,
        hasChild, child?, children, hasToken, token?, Item.textOf?, hblock, hbody, hparams]
      rfl
    · exact List.cons_ne_nil _ _

/-- A whole program. -/
theorem program_file {ns : List Node} {ss : Block Unit}
    (h : List.Forall₂ (Stands .statement) ns ss) : (file ns).program = .ok ss := by
  have hstmts : stmtsAt .statement (ns.map .node) = .ok ss :=
    stmtsAt_eq_ok (childrenOf_map_node (rule_of_forall₂_stands h)) h
  cases h with
  | nil => rfl
  | cons =>
    rw [file]
    · simp [-List.map_cons, program, statements, toBlock, blockAt, hstmts]
    · exact List.cons_ne_nil _ _

end Phrase

/-! ### Outlines -/

/-- A proper sketch spells an expression in the place of a whole one. -/
theorem Sketch.Proper.exists_spells {s : Sketch} (h : s.Proper) :
    ∃ e, s.meaning? = some e ∧ Node.Spells .expression s.node e := by
  obtain ⟨e, he⟩ := Sketch.exists_meaning? s h.spelled
  exact ⟨e, he, h.within, Sketch.toExpr_node s h.fits he⟩

/-- Proper sketches spell expressions in the places of whole ones. -/
theorem Sketch.exists_spells_all : ∀ ss : List Sketch, (∀ s ∈ ss, s.Proper) →
    ∃ es, Sketch.meanings? ss = some es ∧
      List.Forall₂ (Node.Spells .expression) (Sketch.nodes ss) es
  | [], _ => ⟨[], rfl, .nil⟩
  | s :: ss, h => by
    obtain ⟨e, he, hs⟩ := (h s List.mem_cons_self).exists_spells
    obtain ⟨es, hes, hss⟩ := exists_spells_all ss fun t ht => h t (List.mem_cons_of_mem s ht)
    exact ⟨e :: es, by simp [meanings?, he, hes], .cons hs hss⟩

/-- A proper clause spells a statement, and its tree is read as it. -/
theorem Clause.exists_stands {c : Clause} (h : c.Proper) :
    ∃ s, c.meaning? = some s ∧ Node.Stands .simpleStmt c.node s := by
  have hsketches := h.sketches
  cases c with
  | assign target value =>
    obtain ⟨e, he, hs⟩ := (hsketches value (by simp [sketches])).exists_spells
    exact ⟨_, by simp [meaning?, he], Phrase.stands_assign target hs⟩
  | annotated target hint value =>
    obtain ⟨e, he, hs⟩ := (hsketches hint (by simp [sketches])).exists_spells
    cases value with
    | none => exact ⟨_, by simp [meaning?, he], Phrase.stands_annotated_none target hs⟩
    | some value =>
      obtain ⟨v, hv, hvs⟩ := (hsketches value (by simp [sketches])).exists_spells
      exact ⟨_, by simp [meaning?, he, hv], Phrase.stands_annotated_some target hs hvs⟩
  | ret value =>
    cases value with
    | none => exact ⟨_, rfl, Phrase.stands_ret_none⟩
    | some value =>
      obtain ⟨e, he, hs⟩ := (hsketches value (by simp [sketches])).exists_spells
      exact ⟨_, by simp [meaning?, he], Phrase.stands_ret_some hs⟩
  | assertion exprs =>
    obtain ⟨es, hes, hs⟩ := Sketch.exists_spells_all exprs hsketches
    have hne : es ≠ [] := by
      rintro rfl
      cases exprs with
      | nil => exact h.asserts rfl
      | cons => cases hs
    exact ⟨_, by simp [meaning?, hes, hne], Phrase.stands_assertion hs hne⟩
  | pass => exact ⟨_, rfl, Phrase.stands_pass⟩
  | expr value =>
    obtain ⟨e, he, hs⟩ := (hsketches value (by simp [sketches])).exists_spells
    exact ⟨_, by simp [meaning?, he], Phrase.stands_exprStmt hs⟩

/-- Proper clauses spell statements, and their trees are read as them. -/
theorem Clause.exists_stands_all : ∀ cs : List Clause, (∀ c ∈ cs, c.Proper) →
    ∃ ss, cs.mapM Clause.meaning? = some ss ∧
      List.Forall₂ (Node.Stands .simpleStmt) (cs.map Clause.node) ss
  | [], _ => ⟨[], rfl, .nil⟩
  | c :: cs, h => by
    obtain ⟨s, hs, hstands⟩ := exists_stands (h c List.mem_cons_self)
    obtain ⟨ss, hss, hall⟩ := exists_stands_all cs fun d hd => h d (List.mem_cons_of_mem c hd)
    exact ⟨s :: ss, by simp [hs, hss], .cons hstands hall⟩

/-- The statements of a line that is not empty make one statement. -/
theorem Stmt.exists_ofLine? {δ : Type} {ss : List (Stmt δ)} (h : ss ≠ []) :
    ∃ s, Stmt.ofLine? ss = some s := by
  match ss, h with
  | [s], _ => exact ⟨s, rfl⟩
  | s :: t :: ts, _ => exact ⟨.simple (s :: t :: ts), rfl⟩

mutual

/-- A proper outline spells a statement, and its tree is read as it. -/
theorem Outline.exists_stands : ∀ o : Outline, o.Proper →
    ∃ s, o.meaning? = some s ∧ Node.Stands .statement o.node s
  | .line clauses, h => by
    obtain ⟨ss, hss, hall⟩ := Clause.exists_stands_all clauses h.2
    have hne : ss ≠ [] := by
      rintro rfl
      exact h.1 (List.map_eq_nil_iff.1 (List.forall₂_nil_right_iff.1 hall))
    obtain ⟨s, hs⟩ := Stmt.exists_ofLine? hne
    exact ⟨s, by simp [Outline.meaning?, hss, hs], Phrase.stands_line hall hs⟩
  | .cond condition body tail, h => by
    obtain ⟨c, hc, hcs⟩ := h.1.exists_spells
    obtain ⟨b, hb, hbs⟩ := Outline.exists_stands_all body h.2.1
    obtain ⟨o, ho, hos⟩ := Tail.exists_continues tail h.2.2
    refine ⟨.cond c b o, by simp [Outline.meaning?, hc, hb, ho], ?_⟩
    exact Phrase.stands_compound (.inl rfl)
      (Phrase.stands_conditional (.inl rfl) .kwIf hcs hbs hos)
  | .funcDef name params body, h => by
    obtain ⟨b, hb, hbs⟩ := Outline.exists_stands_all body h
    exact ⟨.funcDef () name params b, by simp [Outline.meaning?, hb],
      Phrase.stands_funcDef name params hbs⟩

/-- Proper outlines spell statements, and their trees are read as them. -/
theorem Outline.exists_stands_all : ∀ os : List Outline, Outline.ProperAll os →
    ∃ ss, Outline.meanings? os = some ss ∧
      List.Forall₂ (Node.Stands .statement) (Outline.nodes os) ss
  | [], _ => ⟨[], rfl, .nil⟩
  | o :: os, h => by
    obtain ⟨s, hs, hstands⟩ := Outline.exists_stands o h.1
    obtain ⟨ss, hss, hall⟩ := Outline.exists_stands_all os h.2
    exact ⟨s :: ss, by simp [Outline.meanings?, hs, hss], .cons hstands hall⟩

/-- A proper tail spells an alternative, and its tree is read as it. -/
theorem Tail.exists_continues : ∀ t : Tail, t.Proper →
    ∃ o, t.meaning? = some o ∧ Node.Continues t.node? o
  | .none, _ => ⟨Option.none, rfl, .nothing⟩
  | .elif condition body tail, h => by
    obtain ⟨c, hc, hcs⟩ := h.1.exists_spells
    obtain ⟨b, hb, hbs⟩ := Outline.exists_stands_all body h.2.1
    obtain ⟨o, ho, hos⟩ := Tail.exists_continues tail h.2.2
    refine ⟨some [.cond c b o], by simp [Tail.meaning?, hc, hb, ho], ?_⟩
    exact .elif (Phrase.stands_conditional (.inr rfl) .kwElif hcs hbs hos)
  | .orElse body, h => by
    obtain ⟨b, hb, hbs⟩ := Outline.exists_stands_all body h
    exact ⟨some b, by simp [Tail.meaning?, hb], Phrase.continues_orElse hbs⟩

end

/-- Reading inverts building: the tree of a program built from phrases, in which every sketch and
clause is proper and no line is empty, is read, as the statements that the phrases spell. -/
theorem Outline.program_file_nodes (outlines : List Outline) (h : Outline.ProperAll outlines) :
    ∃ b, Outline.meanings? outlines = some b ∧
      (Phrase.file (Outline.nodes outlines)).program = .ok b := by
  obtain ⟨b, hb, hall⟩ := Outline.exists_stands_all outlines h
  exact ⟨b, hb, Phrase.program_file hall⟩

/-- A chain whose links share an operand, two statements on one line, an `elif` with an `else` below
it, and a group that leaves no trace. -/
theorem Outline.program_file_nodes_of_elif :
    let outlines : List Outline :=
      [.funcDef "f" ["a", "b"]
        [.cond
          (.comparison (.name "a")
            [(.ltBitwiseOr, .name "b"),
             (.lteBitwiseOr, .binary .sum (.number "1_0") .plus (.unary .minus (.name "a")))])
          [.line [.annotated "x" (.name "T") (some (.call (.name "f") [.name "b", .name "a"])),
            .ret (some (.name "x"))]]
          (.elif (.conjunction [.negation (.name "a"), .name "b"]) [.line [.pass]]
            (.orElse
              [.line [.assertion [.group (.disjunction [.name "a", .keyword .kwNone])]]]))]]
    let b : Block Unit :=
      [.funcDef () "f" ["a", "b"]
        [.cond
          (.binary .and (.binary .lt (.name "a") (.name "b"))
            (.binary .le (.name "b") (.binary .add (.int 10) (.unary .neg (.name "a")))))
          [.simple [.assign "x" (some (.name "T"))
              (some (.call (.name "f") [.name "b", .name "a"])),
            .ret (some (.name "x"))]]
          (some [.cond (.binary .and (.unary .not (.name "a")) (.name "b")) [.pass]
            (some [.assert [.binary .or (.name "a") .none]])])]]
    Outline.ProperAll outlines ∧ (Phrase.file (Outline.nodes outlines)).program = .ok b := by
  intro outlines b
  have hname : ∀ s, (Sketch.name s).Proper := fun _ => ⟨trivial, trivial, rfl⟩
  have hproper : Outline.ProperAll outlines := by
    refine ⟨⟨⟨⟨?_, ?_, rfl⟩, ⟨⟨List.cons_ne_nil _ _, ?_⟩, trivial⟩, ⟨?_, ?_, rfl⟩,
      ⟨⟨List.cons_ne_nil _ _, ?_⟩, trivial⟩, ⟨List.cons_ne_nil _ _, ?_⟩, trivial⟩, trivial⟩,
      trivial⟩
    · simp only [Sketch.Spelled, Sketch.SpelledLinked]
      decide +kernel
    · simp only [Sketch.Fits, Sketch.Operands, Sketch.OperandsLinked, Sketch.Within]
      decide
    · refine List.forall_mem_cons.2 ⟨⟨?_, Clause.noConfusion⟩, List.forall_mem_singleton.2
        ⟨List.forall_mem_singleton.2 (hname "x"), Clause.noConfusion⟩⟩
      refine List.forall_mem_cons.2 ⟨hname "T", List.forall_mem_singleton.2 ⟨?_, ?_, rfl⟩⟩
      · simp [Sketch.Spelled, Sketch.SpelledAll]
      · simp only [Sketch.Fits, Sketch.Operands, Sketch.OperandsAll, Sketch.Within]
        decide
    · simp [Sketch.Spelled, Sketch.SpelledAll]
    · simp only [Sketch.Fits, Sketch.Operands, Sketch.OperandsAll, Sketch.Within]
      decide
    · exact List.forall_mem_singleton.2 ⟨fun _ h => absurd h List.not_mem_nil, Clause.noConfusion⟩
    · refine List.forall_mem_singleton.2 ⟨List.forall_mem_singleton.2 ⟨?_, ?_, rfl⟩, by simp⟩
      · simp only [Sketch.Spelled, Sketch.SpelledAll]
        decide
      · simp only [Sketch.Fits, Sketch.Operands, Sketch.OperandsAll, Sketch.Within]
        decide
  obtain ⟨b', hb', hread⟩ := Outline.program_file_nodes outlines hproper
  have hb : Outline.meanings? outlines = some b := by decide +kernel
  obtain rfl : b' = b := Option.some.inj (hb'.symm.trans hb)
  exact ⟨hproper, hread⟩

end ScopeScript
