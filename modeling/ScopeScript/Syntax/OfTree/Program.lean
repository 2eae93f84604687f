import ScopeScript.Syntax.OfTree.Expression
import ScopeScript.Syntax.Stmt

/-!
# Programs from parse trees

The statement or block that a node of the statement grammar stands for, one case for each
production. A statement alone on its line is read as itself, several become one grouped statement,
and an `elif` becomes an alternative that holds one more conditional statement. Annotations of
parameters and results are not kept.

* `stmtAt_items`, `stmtsAt_items`, `blockAt_items`: the sweeps over a node's items read exactly the
  children found by production.
-/

namespace ScopeScript.Node

/-! ### Targets and parameters -/

/-- The name that an atom of a target is: a name in no brackets. -/
def targetAtom (n : Node) : Except TreeError String :=
  match n.token? .name with
  | some id =>
    if n.hasToken .leftParen || n.hasToken .leftBracket then .error n.unsupported else .ok id
  | none => .error n.unsupported

/-- The single name that an assignment's targets are. A list of targets or an unpacking is
outside the language. -/
def targetName (n : Node) : Except TreeError String :=
  if n.childCount .starTarget != 1 || n.hasToken .comma then .error n.unsupported
  else n.need .starTarget <| (n.child? .starTarget 0).map fun target =>
    if target.hasToken .star then .error target.unsupported
    else target.supported <| (target.child? .targetWithStarAtom 0).map fun inner =>
      inner.supported <| (inner.child? .starAtom 0).map targetAtom

/-- The name of a plain parameter. -/
def paramName (n : Node) : Except TreeError String :=
  n.need .param ((n.child? .param 0).map needName)

/-- The parameter names of a parameter list. Only plain ones without defaults are in the
language. -/
def paramList (n : Node) : Except TreeError (List String) :=
  if n.hasChild .slashNoDefault || n.hasChild .slashWithDefault || n.hasChild .paramWithDefault
    || n.hasChild .starEtc
  then .error n.unsupported
  else (n.children .paramNoDefault).mapM paramName

/-- The parameter names of a function's header, none if it has no parameter list. -/
def paramNames (n : Node) : Except TreeError (List String) :=
  match n.child? .params 0 with
  | none => .ok []
  | some params => params.need .parameters ((params.child? .parameters 0).map paramList)

/-! ### Simple statements -/

/-- The expression of the first list of starred expressions among the children, if there is one. -/
def value? (n : Node) : Option (Except TreeError Expr) :=
  (n.child? .starExpressions 0).map toExpr

/-- An assignment: a name with a hint and an optional value, or a single target with a value. -/
def assignment {δ : Type} (n : Node) : Except TreeError (Stmt δ) :=
  match n.token? .name with
  | some id => do
    let hint ← n.need .expression ((n.child? .expression 0).map toExpr)
    match n.child? .annotatedRhs 0 with
    | none => return .assign id (some hint) none
    | some rhs => return .assign id (some hint) (some (← rhs.supported rhs.value?))
  | none =>
    -- A chain of targets, or a yield as the value, is outside the language.
    if n.childCount .starTargets != 1 || n.hasChild .yieldExpr then .error n.unsupported
    else
      match n.child? .starTargets 0, n.value? with
      | some targets, some value => do
        let id ← targets.targetName
        return .assign id none (some (← value))
      | _, _ => .error n.unsupported

/-- A return with the value that the node holds, if it holds one. -/
def returned {δ : Type} (n : Node) : Except TreeError (Stmt δ) :=
  match n.value? with
  | none => .ok (.ret none)
  | some value => value.map fun v => .ret (some v)

/-- An assertion of at least one expression. -/
def asserted {δ : Type} (n : Node) : Except TreeError (Stmt δ) := do
  match ← (n.children .expression).mapM toExpr with
  | [] => .error (.missing .assertStmt (.production .expression))
  | es => return .assert es

/-- The statement that a simple statement node stands for. -/
def simpleStmt {δ : Type} (n : Node) : Except TreeError (Stmt δ) :=
  -- The forms are tried in this order, whatever else the node holds.
  match n.child? .assignment 0 with
  | some inner => inner.assignment
  | none =>
    match n.child? .returnStmt 0 with
    | some inner => inner.returned
    | none =>
      match n.child? .assertStmt 0 with
      | some inner => inner.asserted
      | none =>
        match n.value? with
        | some value => value.map .expr
        | none => if n.hasToken .kwPass then .ok .pass else .error n.unsupported

/-! ### Statements and blocks -/

/-- The statements of one line: a single one as itself, several as a group. -/
def grouped {δ : Type} (stmts : Except TreeError (List (Stmt δ))) : Except TreeError (Stmt δ) :=
  stmts.bind fun
    | [] => .error (.missing .simpleStmts (.production .simpleStmt))
    | [s] => .ok s
    | ss => .ok (.simple ss)

mutual

/-- The statement that a node stands for, by its production. -/
def toStmt : Node → Except TreeError (Stmt Unit)
  | mk rule items =>
    let n := mk rule items
    match rule with
    | .statement =>
      match stmtAt .simpleStmts items with
      | some s => s
      | none => n.supported (stmtAt .compoundStmt items)
    | .simpleStmts => grouped (stmtsAt .simpleStmt items)
    | .simpleStmt => n.simpleStmt
    | .compoundStmt =>
      match stmtAt .functionDef items with
      | some s => s
      | none => n.supported (stmtAt .ifStmt items)
    | .functionDef =>
      if n.hasChild .decorators then .error n.unsupported
      else n.need .functionDefRaw (stmtAt .functionDefRaw items)
    | .functionDefRaw =>
      if n.hasToken .kwAsync || n.hasChild .typeParams then .error n.unsupported
      else do
        let name ← n.needName
        let params ← n.paramNames
        let body ← n.need .block (blockAt .block items)
        return .funcDef () name params body
    | .ifStmt | .elifStmt => do
      let condition ← n.need .namedExpression ((n.child? .namedExpression 0).map toExpr)
      let body ← n.need .block (blockAt .block items)
      -- An `elif` goes before an `else` beside it.
      match stmtAt .elifStmt items with
      | some s => return .cond condition body (some [← s])
      | none =>
        match blockAt .elseBlock items with
        | some b => return .cond condition body (some (← b))
        | none => return .cond condition body none
    | _ => .error n.unsupported
  termination_by structural n => n

/-- The block that a node stands for, by its production: a program, an indented block, or the
statements on the line of a header. -/
def toBlock : Node → Except TreeError (Block Unit)
  | mk rule items =>
    let n := mk rule items
    match rule with
    | .fileInput =>
      match blockAt .statements items with
      | some b => b
      | none => .ok []
    | .statements => stmtsAt .statement items
    | .block =>
      match blockAt .statements items with
      | some b => b
      | none =>
        match stmtAt .simpleStmts items with
        | some s => s.map fun s => [s]
        | none => .error (.missing .block (.production .statements))
    | .elseBlock => n.need .block (blockAt .block items)
    | _ => .error n.unsupported
  termination_by structural n => n

/-- The statement of the first child of production `r`. -/
def stmtAt (r : Rule) : List Item → Option (Except TreeError (Stmt Unit))
  | [] => none
  | .token _ _ :: rest => stmtAt r rest
  | .node n :: rest => if n.rule = r then some (toStmt n) else stmtAt r rest
  termination_by structural items => items

/-- The statements of all children of production `r`, in order. -/
def stmtsAt (r : Rule) : List Item → Except TreeError (List (Stmt Unit))
  | [] => .ok []
  | .token _ _ :: rest => stmtsAt r rest
  | .node n :: rest =>
    if n.rule = r then do
      let s ← toStmt n
      let ss ← stmtsAt r rest
      return s :: ss
    else stmtsAt r rest
  termination_by structural items => items

/-- The block of the first child of production `r`. -/
def blockAt (r : Rule) : List Item → Option (Except TreeError (Block Unit))
  | [] => none
  | .token _ _ :: rest => blockAt r rest
  | .node n :: rest => if n.rule = r then some (toBlock n) else blockAt r rest
  termination_by structural items => items

end

/-- The program that the node of a whole file stands for. -/
def program (n : Node) : Except TreeError (Block Unit) :=
  if n.rule = .fileInput then n.toBlock else .error n.unsupported

/-! ### The sweeps over items -/

/-- The first child of a production is read through its statement. -/
theorem stmtAt_items (n : Node) (r : Rule) : stmtAt r n.items = (n.child? r 0).map toStmt := by
  unfold child? children
  induction n.items with
  | nil => simp [stmtAt]
  | cons i is ih =>
    cases i with
    | token k s => simpa [stmtAt] using ih
    | node c =>
      by_cases h : c.rule = r
      · simp [stmtAt, h]
      · simpa [stmtAt, h] using ih

/-- All children of a production are read, each through its statement, up to the first fault. -/
theorem stmtsAt_items (n : Node) (r : Rule) :
    stmtsAt r n.items = (n.children r).mapM toStmt := by
  unfold children
  induction n.items with
  | nil => rfl
  | cons i is ih =>
    cases i with
    | token k s => simpa [stmtsAt] using ih
    | node c => by_cases h : c.rule = r <;> simp [stmtsAt, h, ih]

/-- The first child of a production is read through its block. -/
theorem blockAt_items (n : Node) (r : Rule) :
    blockAt r n.items = (n.child? r 0).map toBlock := by
  unfold child? children
  induction n.items with
  | nil => simp [blockAt]
  | cons i is ih =>
    cases i with
    | token k s => simpa [blockAt] using ih
    | node c =>
      by_cases h : c.rule = r
      · simp [blockAt, h]
      · simpa [blockAt, h] using ih

end ScopeScript.Node
