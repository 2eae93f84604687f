import ScopeScript.Proofs.Literal.Grammar
import ScopeScript.Proofs.Phrase.Sketch
import ScopeScript.Proofs.Program.Image

/-!
# Where the faults of a tree lie

Every fault that reading reports is a fault of some node of the tree: a node that is left out is
there with its text, a node that misses a part is there without it, and a number that is no literal
is the first of some atom. Readings are put together from readings of parts, so it is enough that
each way of putting them together keeps to the tree. Of two faults on the sides of an operator the
right one is reported, since the right operand is read first.

* `Node.Contains`: the nodes of a tree.
* `TreeError.IsOf`, `TreeError.LiesIn`: an error that is true of a node, or of some node of a tree.
* `Node.Explains`: a reading whose error, if it has one, lies in the tree of the node.

Main statements:

* `Node.fault_lies_in_tree`: the error of reading a program or an expression lies in its tree.
* `Node.left_fault_reported_iff`: when the fault of a left operand is the one reported.
-/

namespace ScopeScript

/-- The second node is the first or stands somewhere below it. -/
inductive Node.Contains : Node → Node → Prop where
  /-- The node itself. -/
  | here (n : Node) : Contains n n
  /-- A node of the tree of one of the items. -/
  | inside {n m k : Node} (hm : .node m ∈ n.items) (h : Contains m k) : Contains n k

/-- The node has no part of the kind among its items. -/
def Node.Lacks (n : Node) : Part → Prop
  | .production r => ∀ m, .node m ∈ n.items → m.rule ≠ r
  | .name => ∀ text, .token .name text ∉ n.items

/-- What the error tells is so of the node. -/
def TreeError.IsOf (n : Node) : TreeError → Prop
  | unsupported r text => n.rule = r ∧ n.text = text
  | missing r part => n.rule = r ∧ n.Lacks part
  | invalidLiteral text =>
    n.rule = .atom ∧ n.token? .number = some text ∧ ∀ value, ¬ Literal.Denotes text value

/-- What the error tells is so of some node of the tree. -/
def TreeError.LiesIn (n : Node) (err : TreeError) : Prop :=
  ∃ m, n.Contains m ∧ err.IsOf m

namespace Node

/-! ### Children -/

/-- A node without children of a production lacks it. -/
theorem lacks_of_children_eq_nil {n : Node} {r : Rule} (h : n.children r = []) :
    n.Lacks (.production r) := by
  intro m hm hr
  have hnone := List.filterMap_eq_nil_iff.1 h (.node m) hm
  rw [Item.childOf?, if_pos hr] at hnone
  cases hnone

/-- A node in which no child of a production is found lacks it. -/
theorem lacks_of_child?_eq_none {n : Node} {r : Rule} (h : n.child? r 0 = none) :
    n.Lacks (.production r) :=
  lacks_of_children_eq_nil (List.length_eq_zero_iff.1 (Nat.le_zero.1 (child?_eq_none_iff.1 h)))

/-! ### Readings that explain their errors -/

/-- The error of a reading, if it ends in one, lies in the tree of the node. -/
def Explains {α : Type} (n : Node) (reading : Except TreeError α) : Prop :=
  ∀ err, reading = .error err → err.LiesIn n

section

variable {α β : Type} {n m : Node}

/-- A reading that succeeds. -/
theorem explains_ok (a : α) : n.Explains (.ok a) := by
  intro err h
  cases h

/-- An error that is true of the node itself. -/
theorem explains_error {err : TreeError} (h : err.IsOf n) :
    n.Explains (.error err : Except TreeError α) := by
  intro err' h'
  obtain rfl := Except.error.inj h'
  exact ⟨n, .here n, h⟩

/-- A node that is left out. -/
theorem explains_unsupported : n.Explains (.error n.unsupported : Except TreeError α) :=
  explains_error ⟨rfl, rfl⟩

/-- The reading of a child. -/
theorem Explains.of_child {reading : Except TreeError α} (h : m.Explains reading)
    (hm : .node m ∈ n.items) : n.Explains reading := by
  intro err herr
  obtain ⟨k, hk, hof⟩ := h err herr
  exact ⟨k, .inside hm hk, hof⟩

/-- Two readings one after the other. -/
theorem Explains.bind {reading : Except TreeError α} {next : α → Except TreeError β}
    (h : n.Explains reading) (hnext : ∀ a, n.Explains (next a)) :
    n.Explains (reading >>= next) := by
  cases reading with
  | error err =>
    intro err' herr
    obtain rfl := Except.error.inj herr
    exact h err rfl
  | ok a => exact hnext a

/-- What is made of a reading. -/
theorem Explains.map {reading : Except TreeError α} (h : n.Explains reading) (f : α → β) :
    n.Explains (reading.map f) := by
  cases reading with
  | error err =>
    intro err' herr
    obtain rfl := Except.error.inj herr
    exact h err rfl
  | ok a => exact explains_ok (f a)

/-- The reading of a part that the node has to have. -/
theorem explains_need {r : Rule} {found : Option (Except TreeError α)}
    (h : ∀ reading ∈ found, n.Explains reading) (hnone : found = none → n.Lacks (.production r)) :
    n.Explains (n.need r found) := by
  cases found with
  | none => exact explains_error ⟨rfl, hnone rfl⟩
  | some reading => exact h reading rfl

/-- The reading of a part without which the node is left out. -/
theorem explains_supported {found : Option (Except TreeError α)}
    (h : ∀ reading ∈ found, n.Explains reading) : n.Explains (n.supported found) := by
  cases found with
  | none => exact explains_unsupported
  | some reading => exact h reading rfl

/-- The reading of several children, one after the other. -/
theorem explains_mapM {read : Node → Except TreeError α} {ms : List Node}
    (h : ∀ m ∈ ms, n.Explains (read m)) : n.Explains (ms.mapM read) := by
  induction ms with
  | nil => exact explains_ok []
  | cons m ms ih =>
    obtain ⟨hm, hms⟩ := List.forall_mem_cons.1 h
    rw [List.mapM_cons]
    exact hm.bind fun _ => (ih hms).bind fun _ => explains_ok _

/-- The name that the node has to have. -/
theorem explains_needName : n.Explains n.needName := by
  rw [needName]
  split
  · exact explains_ok _
  · next hnone => exact explains_error ⟨rfl, token?_eq_none_iff.1 hnone⟩

end

/-! ### Children and what is read from them -/

section

variable {α : Type} {n : Node} {read : Node → Except TreeError α}

/-- A child that is read by a reading that explains its errors. -/
theorem explains_child? (h : ∀ m, .node m ∈ n.items → m.Explains (read m)) {r : Rule}
    {index : Nat} : ∀ reading ∈ (n.child? r index).map read, n.Explains reading := by
  intro reading hreading
  obtain ⟨m, hm, rfl⟩ := Option.map_eq_some_iff.1 hreading
  have hitem := node_mem_of_child? hm
  exact (h m hitem).of_child hitem

/-- All children of a production, read one after the other. -/
theorem explains_children (h : ∀ m, .node m ∈ n.items → m.Explains (read m)) (r : Rule) :
    n.Explains ((n.children r).mapM read) := by
  refine explains_mapM fun m hm => ?_
  have hitem := node_mem_of_mem_children hm
  exact (h m hitem).of_child hitem

/-- All children of a production, of which the node has to have one: what is made of no readings
is made of a node that lacks the production. -/
theorem explains_some_children {β : Type} {next : List α → Except TreeError β} {r : Rule}
    (h : ∀ m, .node m ∈ n.items → m.Explains (read m))
    (hnil : n.Lacks (.production r) → n.Explains (next []))
    (hcons : ∀ a as, n.Explains (next (a :: as))) :
    n.Explains ((n.children r).mapM read >>= next) := by
  cases hms : n.children r with
  | nil => exact hnil (lacks_of_children_eq_nil hms)
  | cons m ms =>
    -- The first child brings a reading, so there are readings if none fails.
    have hall := explains_children h r
    rw [hms] at hall
    intro err herr
    cases hread : (m :: ms).mapM read with
    | error err' =>
      rw [hread] at herr
      obtain rfl := Except.error.inj herr
      exact hall _ hread
    | ok as =>
      rw [hread] at herr
      rw [List.mapM_cons] at hread
      obtain ⟨a, -, hread⟩ := bind_eq_ok.1 hread
      obtain ⟨as', -, hread⟩ := bind_eq_ok.1 hread
      cases hread
      exact hcons a as' err herr

/-- A child that the node has to have. -/
theorem explains_need_child? (h : ∀ m, .node m ∈ n.items → m.Explains (read m)) (r : Rule) :
    n.Explains (n.need r ((n.child? r 0).map read)) :=
  explains_need (explains_child? h) fun hnone =>
    lacks_of_child?_eq_none (Option.map_eq_none_iff.1 hnone)

end

/-! ### Expressions -/

/-- What the tokens of an atom spell: a number that is refused denotes nothing. -/
theorem explains_atomToken? {n : Node} (hn : n.rule = .atom) :
    ∀ reading ∈ n.atomToken?, n.Explains reading := by
  intro reading hreading
  unfold atomToken? at hreading
  split at hreading
  · cases hreading
    exact explains_ok _
  · split at hreading
    · next htoken =>
      split at hreading
      · cases hreading
        exact explains_ok _
      · next hread =>
        cases hreading
        exact explains_error ⟨hn, htoken, Literal.read?_eq_none_iff.1 hread⟩
    · split at hreading
      · cases hreading
        exact explains_ok _
      · split at hreading
        · cases hreading
          exact explains_ok _
        · split at hreading
          · cases hreading
            exact explains_ok _
          · cases hreading

/-- Joined operands: if there are none, the node lacks them. -/
theorem explains_joined {n : Node} {operand : Rule} (op : BinaryOp)
    (h : ∀ m, .node m ∈ n.items → m.Explains m.toExpr) :
    n.Explains (n.joined operand op ((n.children operand).mapM toExpr)) :=
  explains_some_children h (fun hlacks => explains_error ⟨rfl, hlacks⟩) fun _ _ => explains_ok _

/-- The expressions, links and arguments that a node stands for. -/
structure ExplainsExprs (n : Node) : Prop where
  /-- The expression of the node. -/
  expr : n.Explains n.toExpr
  /-- The comparison link of the node. -/
  link : n.Explains n.toLink
  /-- The arguments of the node. -/
  args : n.Explains n.toArgs

/-- An expression, read from items whose expressions, links and arguments explain their errors. -/
theorem explains_toExpr {n : Node} (h : ∀ m, .node m ∈ n.items → m.ExplainsExprs) :
    n.Explains n.toExpr := by
  have hexpr : ∀ m, .node m ∈ n.items → m.Explains m.toExpr := fun m hm => (h m hm).expr
  have hargs : ∀ m, .node m ∈ n.items → m.Explains m.toArgs := fun m hm => (h m hm).args
  have hlink : ∀ m, .node m ∈ n.items → m.Explains m.toLink := fun m hm => (h m hm).link
  have hexprAt : ∀ r index, exprAt r index n.items = (n.child? r index).map toExpr :=
    exprAt_items n
  have hexprsAt : ∀ r, exprsAt r n.items = (n.children r).mapM toExpr := exprsAt_items n
  have hargsAt : ∀ r, argsAt r n.items = (n.child? r 0).map toArgs := argsAt_items n
  have hlinksAt := linksAt_items n
  obtain ⟨rule, items⟩ := n
  simp only [items_mk] at hexprAt hexprsAt hargsAt hlinksAt
  cases rule with
  | starExpressions =>
    simp only [toExpr, hexprAt]
    split
    · exact explains_unsupported
    · exact explains_need_child? hexpr _
  | starExpression =>
    simp only [toExpr, hexprAt]
    split
    · next found hfound => exact explains_child? hexpr found hfound
    · refine explains_supported fun reading hreading => ?_
      obtain ⟨found, hfound, rfl⟩ := Option.map_eq_some_iff.1 hreading
      exact (explains_child? hexpr found hfound).map _
  | namedExpression | group =>
    simp only [toExpr, hexprAt]
    exact explains_supported (explains_child? hexpr)
  | expression =>
    simp only [toExpr, hexprAt]
    split
    · exact explains_unsupported
    · refine (explains_need_child? hexpr _).bind fun body => ?_
      split
      · exact explains_ok _
      · next found hfound =>
        refine (explains_child? hexpr found hfound).bind fun condition => ?_
        exact (explains_need_child? hexpr _).bind fun orelse => explains_ok _
  | disjunction | conjunction =>
    simp only [toExpr, hexprsAt]
    exact explains_joined _ hexpr
  | inversion =>
    simp only [toExpr, hexprAt]
    split
    · next found hfound => exact (explains_child? hexpr found hfound).map _
    · exact explains_need_child? hexpr _
  | comparison =>
    simp only [toExpr, hexprAt, hlinksAt]
    refine (explains_need_child? hexpr _).bind fun first => ?_
    exact (explains_children hlink _).bind fun links => explains_ok _
  | eqBitwiseOr | noteqBitwiseOr | lteBitwiseOr | ltBitwiseOr | gteBitwiseOr | gtBitwiseOr
  | notinBitwiseOr | inBitwiseOr | isnotBitwiseOr | isBitwiseOr =>
    simp only [toExpr, hexprAt]
    exact explains_need_child? hexpr _
  | bitwiseOr | bitwiseXor | bitwiseAnd | shiftExpr | sum | term =>
    simp only [toExpr, hexprAt]
    refine (explains_need_child? hexpr _).bind fun rhs => ?_
    split
    · exact explains_ok _
    · next found hfound =>
      exact (explains_child? hexpr found hfound).bind fun lhs => explains_ok _
  | factor =>
    simp only [toExpr, hexprAt]
    split
    · next found hfound => exact explains_child? hexpr found hfound
    · exact (explains_need_child? hexpr _).map _
  | power =>
    simp only [toExpr, hexprAt]
    refine (explains_need_child? hexpr _).bind fun base => ?_
    split
    · exact explains_ok _
    · next found hfound =>
      exact (explains_child? hexpr found hfound).bind fun exponent => explains_ok _
  | awaitPrimary =>
    simp only [toExpr, hexprAt]
    split
    · exact explains_unsupported
    · exact explains_need_child? hexpr _
  | primary =>
    simp only [toExpr, hexprAt, hargsAt]
    split
    · exact explains_need_child? hexpr _
    · next found hfound =>
      split
      · exact explains_unsupported
      · refine (explains_child? hexpr found hfound).bind fun callee => ?_
        split
        · exact explains_ok _
        · next args hfoundArgs =>
          exact (explains_child? hargs args hfoundArgs).bind fun as => explains_ok _
  | atom =>
    simp only [toExpr, hexprAt]
    split
    · next found hfound => exact explains_atomToken? rfl found hfound
    · exact explains_supported (explains_child? hexpr)
  | _ =>
    simp only [toExpr]
    exact explains_unsupported

/-- A comparison link, read from items whose expressions explain their errors. -/
theorem explains_toLink {n : Node} (h : ∀ m, .node m ∈ n.items → m.Explains m.toExpr) :
    n.Explains n.toLink := by
  have hexprAt : ∀ r index, exprAt r index n.items = (n.child? r index).map toExpr :=
    exprAt_items n
  obtain ⟨rule, items⟩ := n
  rw [toLink]
  refine explains_supported fun reading hreading => ?_
  obtain ⟨p, -, hfound⟩ := List.exists_of_findSome?_eq_some hreading
  obtain ⟨found, hat, rfl⟩ := Option.map_eq_some_iff.1 hfound
  rw [items_mk] at hexprAt
  rw [hexprAt] at hat
  exact (explains_child? h found hat).map _

/-- The arguments of a call, read from items whose expressions and arguments explain their
errors. -/
theorem explains_toArgs {n : Node} (h : ∀ m, .node m ∈ n.items → m.ExplainsExprs) :
    n.Explains n.toArgs := by
  have hexprsAt : ∀ r, exprsAt r n.items = (n.children r).mapM toExpr := exprsAt_items n
  have hargsAt : ∀ r, argsAt r n.items = (n.child? r 0).map toArgs := argsAt_items n
  obtain ⟨rule, items⟩ := n
  simp only [items_mk] at hexprsAt hargsAt
  cases rule with
  | arguments =>
    simp only [toArgs, hargsAt]
    exact explains_need_child? (fun m hm => (h m hm).args) _
  | args =>
    simp only [toArgs, hexprsAt]
    split
    · exact explains_unsupported
    · exact explains_children (fun m hm => (h m hm).expr) _
  | _ =>
    simp only [toArgs]
    exact explains_unsupported

/-- Every reading of the expression grammar explains its errors. -/
theorem explainsExprs (n : Node) : n.ExplainsExprs := by
  refine induction_on_items (fun n h => ?_) n
  exact ⟨explains_toExpr h, explains_toLink fun m hm => (h m hm).expr, explains_toArgs h⟩

/-! ### Simple statements -/

/-- Every expression explains its errors, whichever node it is read from. -/
theorem explains_toExpr_of_mem {n : Node} : ∀ m, .node m ∈ n.items → m.Explains m.toExpr :=
  fun m _ => (explainsExprs m).expr

/-- The name of an assignment's target, which is looked for three nodes deep. -/
theorem explains_targetName (n : Node) : n.Explains n.targetName := by
  have hatom : ∀ m : Node, m.Explains m.targetAtom := by
    intro m
    rw [targetAtom]
    split
    · split
      · exact explains_unsupported
      · exact explains_ok _
    · exact explains_unsupported
  have hinner : ∀ m : Node, m.Explains (m.supported ((m.child? .starAtom 0).map targetAtom)) :=
    fun m => explains_supported (explains_child? fun k _ => hatom k)
  rw [targetName]
  split
  · exact explains_unsupported
  · refine explains_need_child? (fun target _ => ?_) .starTarget
    split
    · exact explains_unsupported
    · exact explains_supported (explains_child? fun m _ => hinner m)

/-- The parameters of a header. -/
theorem explains_paramNames (n : Node) : n.Explains n.paramNames := by
  have hparam : ∀ m : Node, m.Explains m.paramName :=
    fun m => explains_need_child? (fun k _ => explains_needName) .param
  have hlist : ∀ m : Node, m.Explains m.paramList := by
    intro m
    rw [paramList]
    split
    · exact explains_unsupported
    · exact explains_children (fun k _ => hparam k) .paramNoDefault
  rw [paramNames]
  split
  · exact explains_ok _
  · next params hparams =>
    have hread : params.Explains
        (params.need .parameters ((params.child? .parameters 0).map paramList)) :=
      explains_need_child? (fun k _ => hlist k) .parameters
    exact hread.of_child (node_mem_of_child? hparams)

section

variable {δ : Type} {n : Node}

/-- An assignment. -/
theorem explains_assignment : n.Explains (n.assignment : Except TreeError (Stmt δ)) := by
  rw [assignment]
  split
  · refine (explains_need_child? explains_toExpr_of_mem .expression).bind fun hint => ?_
    split
    · exact explains_ok _
    · next rhs hrhs =>
      have hvalue : rhs.Explains (rhs.supported rhs.value?) :=
        explains_supported (explains_child? explains_toExpr_of_mem)
      exact (hvalue.of_child (node_mem_of_child? hrhs)).bind fun value => explains_ok _
  · split
    · exact explains_unsupported
    · split
      · next targets value htargets hvalue =>
        refine ((explains_targetName targets).of_child
          (node_mem_of_child? htargets)).bind fun id => ?_
        exact (explains_child? explains_toExpr_of_mem value hvalue).bind fun v => explains_ok _
      · exact explains_unsupported

/-- A return. -/
theorem explains_returned : n.Explains (n.returned : Except TreeError (Stmt δ)) := by
  rw [returned]
  split
  · exact explains_ok _
  · next value hvalue => exact (explains_child? explains_toExpr_of_mem value hvalue).map _

/-- An assertion: if there is nothing to assert, the node lacks it. -/
theorem explains_asserted (hn : n.rule = .assertStmt) :
    n.Explains (n.asserted : Except TreeError (Stmt δ)) := by
  refine explains_some_children explains_toExpr_of_mem (fun hlacks => ?_) fun e es => ?_
  · exact explains_error ⟨hn, hlacks⟩
  · exact explains_ok _

/-- A simple statement, told by the first form that is there. -/
theorem explains_simpleStmt : n.Explains (n.simpleStmt : Except TreeError (Stmt δ)) := by
  rw [simpleStmt]
  split
  · next inner hinner => exact explains_assignment.of_child (node_mem_of_child? hinner)
  · split
    · next inner hinner => exact explains_returned.of_child (node_mem_of_child? hinner)
    · split
      · next inner hinner =>
        exact (explains_asserted (rule_of_child? hinner)).of_child (node_mem_of_child? hinner)
      · split
        · next value hvalue => exact (explains_child? explains_toExpr_of_mem value hvalue).map _
        · split
          · exact explains_ok _
          · exact explains_unsupported

end

/-! ### Statements and blocks -/

/-- The statement and the block that a node stands for. -/
structure ExplainsStmts (n : Node) : Prop where
  /-- The statement of the node. -/
  stmt : n.Explains n.toStmt
  /-- The block of the node. -/
  block : n.Explains n.toBlock

/-- The statements of one line: if there are none, the node lacks them. -/
theorem explains_grouped {n : Node} (hn : n.rule = .simpleStmts)
    (h : ∀ m, .node m ∈ n.items → m.Explains m.toStmt) :
    n.Explains (grouped ((n.children .simpleStmt).mapM toStmt)) := by
  refine explains_some_children h (fun hlacks => explains_error ⟨hn, hlacks⟩) fun s ss => ?_
  cases ss <;> exact explains_ok _

/-- A statement, read from items whose statements and blocks explain their errors. -/
theorem explains_toStmt {n : Node} (h : ∀ m, .node m ∈ n.items → m.ExplainsStmts) :
    n.Explains n.toStmt := by
  have hstmt : ∀ m, .node m ∈ n.items → m.Explains m.toStmt := fun m hm => (h m hm).stmt
  have hblock : ∀ m, .node m ∈ n.items → m.Explains m.toBlock := fun m hm => (h m hm).block
  have hstmtAt : ∀ r, stmtAt r n.items = (n.child? r 0).map toStmt := stmtAt_items n
  have hstmtsAt : ∀ r, stmtsAt r n.items = (n.children r).mapM toStmt := stmtsAt_items n
  have hblockAt : ∀ r, blockAt r n.items = (n.child? r 0).map toBlock := blockAt_items n
  obtain ⟨rule, items⟩ := n
  simp only [items_mk] at hstmtAt hstmtsAt hblockAt
  cases rule with
  | statement | compoundStmt =>
    simp only [toStmt, hstmtAt]
    split
    · next found hfound => exact explains_child? hstmt found hfound
    · exact explains_supported (explains_child? hstmt)
  | simpleStmts =>
    simp only [toStmt, hstmtsAt]
    exact explains_grouped rfl hstmt
  | simpleStmt =>
    simp only [toStmt]
    exact explains_simpleStmt
  | functionDef =>
    simp only [toStmt, hstmtAt]
    split
    · exact explains_unsupported
    · exact explains_need_child? hstmt _
  | functionDefRaw =>
    simp only [toStmt, hblockAt]
    split
    · exact explains_unsupported
    · refine explains_needName.bind fun name => ?_
      refine (explains_paramNames _).bind fun params => ?_
      exact (explains_need_child? hblock _).bind fun body => explains_ok _
  | ifStmt | elifStmt =>
    simp only [toStmt, hstmtAt, hblockAt]
    refine (explains_need_child? explains_toExpr_of_mem _).bind fun condition => ?_
    refine (explains_need_child? hblock _).bind fun body => ?_
    split
    · next found hfound =>
      exact (explains_child? hstmt found hfound).bind fun s => explains_ok _
    · split
      · next found hfound =>
        exact (explains_child? hblock found hfound).bind fun b => explains_ok _
      · exact explains_ok _
  | _ =>
    simp only [toStmt]
    exact explains_unsupported

/-- A block, read from items whose statements and blocks explain their errors. -/
theorem explains_toBlock {n : Node} (h : ∀ m, .node m ∈ n.items → m.ExplainsStmts) :
    n.Explains n.toBlock := by
  have hstmt : ∀ m, .node m ∈ n.items → m.Explains m.toStmt := fun m hm => (h m hm).stmt
  have hblock : ∀ m, .node m ∈ n.items → m.Explains m.toBlock := fun m hm => (h m hm).block
  have hstmtAt : ∀ r, stmtAt r n.items = (n.child? r 0).map toStmt := stmtAt_items n
  have hstmtsAt : ∀ r, stmtsAt r n.items = (n.children r).mapM toStmt := stmtsAt_items n
  have hblockAt : ∀ r, blockAt r n.items = (n.child? r 0).map toBlock := blockAt_items n
  obtain ⟨rule, items⟩ := n
  simp only [items_mk] at hstmtAt hstmtsAt hblockAt
  cases rule with
  | fileInput =>
    simp only [toBlock, hblockAt]
    split
    · next found hfound => exact explains_child? hblock found hfound
    · exact explains_ok _
  | statements =>
    simp only [toBlock, hstmtsAt]
    exact explains_children hstmt _
  | block =>
    simp only [toBlock, hblockAt, hstmtAt]
    split
    · next found hfound => exact explains_child? hblock found hfound
    · next hnone =>
      split
      · next found hfound => exact (explains_child? hstmt found hfound).map _
      · -- Of the two forms of a block that are missing, the error names the first.
        exact explains_error ⟨rfl, lacks_of_child?_eq_none (Option.map_eq_none_iff.1 hnone)⟩
  | elseBlock =>
    simp only [toBlock, hblockAt]
    exact explains_need_child? hblock _
  | _ =>
    simp only [toBlock]
    exact explains_unsupported

/-- Every reading of the statement grammar explains its errors. -/
theorem explainsStmts (n : Node) : n.ExplainsStmts := by
  refine induction_on_items (fun n h => ?_) n
  exact ⟨explains_toStmt h, explains_toBlock h⟩

/-- What is made of the node of a whole file or a whole expression, if it is one. -/
theorem explains_of_rule {α : Type} {n : Node} {r : Rule} {reading : Except TreeError α}
    (h : n.Explains reading) :
    n.Explains (if n.rule = r then reading else .error n.unsupported) := by
  split
  · exact h
  · exact explains_unsupported

/-- A program or an expression that cannot be read has a fault: some node of the tree is as the
error tells. -/
theorem fault_lies_in_tree {n : Node} {err : TreeError}
    (h : n.program = .error err ∨ n.expression = .error err) : err.LiesIn n := by
  rcases h with h | h
  · exact explains_of_rule (explainsStmts n).block err h
  · exact explains_of_rule (explainsExprs n).expr err h

/-- A number with two underscores in a row, in a call that the body of a function returns. -/
theorem fault_lies_in_tree_of_number :
    let n := Phrase.file [Phrase.funcDef "f" ["a"]
      [Phrase.line [Phrase.ret (some (Phrase.call (Phrase.name "f") [Phrase.number "1__0"]))]]]
    n.program = .error (.invalidLiteral "1__0") ∧ (TreeError.invalidLiteral "1__0").LiesIn n := by
  intro n
  have hread : n.program = .error (.invalidLiteral "1__0") := by rfl
  exact ⟨hread, fault_lies_in_tree (.inl hread)⟩

/-! ### Two faults on the sides of an operator -/

/-- At the left-recursive levels the right operand is read before the left one. -/
theorem toExpr_of_isLeftRecursive {n : Node} (h : n.rule.isLeftRecursive = true) :
    n.toExpr = (n.need n.rule.rightOperand ((n.child? n.rule.rightOperand 0).map toExpr)).bind
      fun rhs =>
        match (n.child? n.rule 0).map toExpr with
        | none => .ok rhs
        | some lhs => lhs.bind fun lhs => .ok (.binary n.levelOperator lhs rhs) := by
  have hexprAt : ∀ r index, exprAt r index n.items = (n.child? r index).map toExpr :=
    exprAt_items n
  obtain ⟨rule, items⟩ := n
  simp only [items_mk] at hexprAt
  rw [rule_mk] at h ⊢
  cases rule with
  | bitwiseOr | bitwiseXor | bitwiseAnd | shiftExpr | sum | term =>
    simp only [toExpr, hexprAt]
    rfl
  | _ => cases h

/-- The fault of a left operand is the one reported exactly when the right operand has no other
fault: the right one is read first. -/
theorem left_fault_reported_iff {n lhs rhs : Node} {err : TreeError}
    (hlevel : n.rule.isLeftRecursive = true) (hleft : n.child? n.rule 0 = some lhs)
    (hright : n.child? n.rule.rightOperand 0 = some rhs) (hfault : lhs.toExpr = .error err) :
    (∀ err', rhs.toExpr = .error err' → n.toExpr = .error err') ∧
      (n.toExpr = .error err ↔ ∀ err', rhs.toExpr = .error err' → err' = err) := by
  have hread : n.toExpr = rhs.toExpr.bind fun _ => .error err := by
    rw [toExpr_of_isLeftRecursive hlevel, hleft, hright, Option.map_some, Option.map_some, hfault]
    rfl
  rw [hread]
  cases rhs.toExpr with
  | error err' => simp [Except.bind, eq_comm]
  | ok b => simp [Except.bind]

/-- A left operand that is no literal is reported beside a right operand that is one. -/
theorem left_fault_reported_beside_literal :
    let lhs := Phrase.lift (Phrase.number "1x") .sum
    let rhs := Phrase.lift (Phrase.number "2") .term
    let n := Phrase.binary .sum (Phrase.number "1x") .plus (Phrase.number "2")
    n.rule.isLeftRecursive = true ∧ n.child? n.rule 0 = some lhs ∧
      n.child? n.rule.rightOperand 0 = some rhs ∧
      lhs.toExpr = .error (.invalidLiteral "1x") ∧ n.toExpr = .error (.invalidLiteral "1x") := by
  intro lhs rhs n
  have hlhs : lhs.toExpr = .error (.invalidLiteral "1x") := rfl
  have hrhs : rhs.toExpr = .ok (.int 2) := rfl
  refine ⟨rfl, rfl, rfl, hlhs, (left_fault_reported_iff rfl rfl rfl hlhs).2.2 fun err' h => ?_⟩
  cases hrhs.symm.trans h

/-- Of two operands that are no literals, the right one is reported. -/
theorem left_fault_hidden_by_right :
    let lhs := Phrase.lift (Phrase.number "1x") .sum
    let n := Phrase.binary .sum (Phrase.number "1x") .plus (Phrase.number "2y")
    n.rule.isLeftRecursive = true ∧ n.hasToken .plus = true ∧ n.child? n.rule 0 = some lhs ∧
      n.hasChild n.rule.rightOperand = true ∧ lhs.toExpr = .error (.invalidLiteral "1x") ∧
      n.toExpr ≠ .error (.invalidLiteral "1x") := by
  intro lhs n
  have hread : n.toExpr = .error (.invalidLiteral "2y") := rfl
  refine ⟨rfl, rfl, rfl, rfl, rfl, ?_⟩
  simp [hread]

end Node

end ScopeScript
