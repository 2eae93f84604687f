/-!
# Productions of the grammar

The productions that a parse tree may hold: those of the language, and the ones beside them in the
grammar that a tree may bring and that the language leaves out.
-/

namespace ScopeScript

/-- A production of the grammar. -/
inductive Rule where
  -- Programs and statements
  | fileInput | statements | statement | simpleStmts | simpleStmt | compoundStmt | assignment
  | annotatedRhs | returnStmt | assertStmt | block | ifStmt | elifStmt | elseBlock
  -- Definitions and their parameters
  | functionDef | functionDefRaw | decorators | typeParams | params | parameters | paramNoDefault
  | paramWithDefault | slashNoDefault | slashWithDefault | starEtc | param | annotationClause
  -- Statement forms that the language leaves out
  | importStmt | raiseStmt | delStmt | yieldStmt | globalStmt | nonlocalStmt | classDef | forStmt
  | whileStmt | withStmt | tryStmt | matchStmt | augassign | singleTarget
  | singleSubscriptAttributeTarget
  -- Assignment targets
  | starTargets | starTarget | targetWithStarAtom | starAtom | tPrimary
  -- Expressions, from the loosest down
  | starExpressions | starExpression | namedExpression | assignmentExpression | expression
  | lambdef | yieldExpr | disjunction | conjunction | inversion | comparison
  -- The ten links of a comparison chain
  | compareOpBitwiseOrPair | eqBitwiseOr | noteqBitwiseOr | lteBitwiseOr | ltBitwiseOr
  | gteBitwiseOr | gtBitwiseOr | notinBitwiseOr | inBitwiseOr | isnotBitwiseOr | isBitwiseOr
  -- Operators, calls and atoms
  | bitwiseOr | bitwiseXor | bitwiseAnd | shiftExpr | sum | term | factor | power | awaitPrimary
  | primary | slices | arguments | args | kwargs | starredExpression | genexp | atom | group
  -- Atoms that the language leaves out
  | strings | tuple | list | listcomp | dict | set | dictcomp | setcomp
  deriving DecidableEq, Repr

namespace Rule

/-- The production's name as the grammar spells it. -/
def name : Rule → String
  | .fileInput => "file_input"
  | .statements => "statements"
  | .statement => "statement"
  | .simpleStmts => "simple_stmts"
  | .simpleStmt => "simple_stmt"
  | .compoundStmt => "compound_stmt"
  | .assignment => "assignment"
  | .annotatedRhs => "annotated_rhs"
  | .returnStmt => "return_stmt"
  | .assertStmt => "assert_stmt"
  | .block => "block"
  | .ifStmt => "if_stmt"
  | .elifStmt => "elif_stmt"
  | .elseBlock => "else_block"
  | .functionDef => "function_def"
  | .functionDefRaw => "function_def_raw"
  | .decorators => "decorators"
  | .typeParams => "type_params"
  | .params => "params"
  | .parameters => "parameters"
  | .paramNoDefault => "param_no_default"
  | .paramWithDefault => "param_with_default"
  | .slashNoDefault => "slash_no_default"
  | .slashWithDefault => "slash_with_default"
  | .starEtc => "star_etc"
  | .param => "param"
  | .annotationClause => "annotation"
  | .importStmt => "import_stmt"
  | .raiseStmt => "raise_stmt"
  | .delStmt => "del_stmt"
  | .yieldStmt => "yield_stmt"
  | .globalStmt => "global_stmt"
  | .nonlocalStmt => "nonlocal_stmt"
  | .classDef => "class_def"
  | .forStmt => "for_stmt"
  | .whileStmt => "while_stmt"
  | .withStmt => "with_stmt"
  | .tryStmt => "try_stmt"
  | .matchStmt => "match_stmt"
  | .augassign => "augassign"
  | .singleTarget => "single_target"
  | .singleSubscriptAttributeTarget => "single_subscript_attribute_target"
  | .starTargets => "star_targets"
  | .starTarget => "star_target"
  | .targetWithStarAtom => "target_with_star_atom"
  | .starAtom => "star_atom"
  | .tPrimary => "t_primary"
  | .starExpressions => "star_expressions"
  | .starExpression => "star_expression"
  | .namedExpression => "named_expression"
  | .assignmentExpression => "assignment_expression"
  | .expression => "expression"
  | .lambdef => "lambdef"
  | .yieldExpr => "yield_expr"
  | .disjunction => "disjunction"
  | .conjunction => "conjunction"
  | .inversion => "inversion"
  | .comparison => "comparison"
  | .compareOpBitwiseOrPair => "compare_op_bitwise_or_pair"
  | .eqBitwiseOr => "eq_bitwise_or"
  | .noteqBitwiseOr => "noteq_bitwise_or"
  | .lteBitwiseOr => "lte_bitwise_or"
  | .ltBitwiseOr => "lt_bitwise_or"
  | .gteBitwiseOr => "gte_bitwise_or"
  | .gtBitwiseOr => "gt_bitwise_or"
  | .notinBitwiseOr => "notin_bitwise_or"
  | .inBitwiseOr => "in_bitwise_or"
  | .isnotBitwiseOr => "isnot_bitwise_or"
  | .isBitwiseOr => "is_bitwise_or"
  | .bitwiseOr => "bitwise_or"
  | .bitwiseXor => "bitwise_xor"
  | .bitwiseAnd => "bitwise_and"
  | .shiftExpr => "shift_expr"
  | .sum => "sum"
  | .term => "term"
  | .factor => "factor"
  | .power => "power"
  | .awaitPrimary => "await_primary"
  | .primary => "primary"
  | .slices => "slices"
  | .arguments => "arguments"
  | .args => "args"
  | .kwargs => "kwargs"
  | .starredExpression => "starred_expression"
  | .genexp => "genexp"
  | .atom => "atom"
  | .group => "group"
  | .strings => "strings"
  | .tuple => "tuple"
  | .list => "list"
  | .listcomp => "listcomp"
  | .dict => "dict"
  | .set => "set"
  | .dictcomp => "dictcomp"
  | .setcomp => "setcomp"

end Rule

end ScopeScript
