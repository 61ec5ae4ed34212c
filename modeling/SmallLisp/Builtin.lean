/-! The functions that every program starts with. A primitive answers from its arguments alone (and, for
`slurp`, from the files at hand); the others print, call back into the evaluator, or hand it a form to go on
with. -/

namespace SmallLisp

/-- The four operations on integers. -/
inductive Arith
  | add | sub | mul | div
  deriving DecidableEq, Repr

/-- The four comparisons of integers. -/
inductive Order
  | lt | le | gt | ge
  deriving DecidableEq, Repr

/-- The questions that can be asked about any single value. -/
inductive Test
  | isList | isVector | isMap | isNil | isTrue | isFalse | isSymbol | isString | isKeyword | isFunction
  deriving DecidableEq, Repr

/-- The functions that neither print nor call another function. -/
inductive Primitive
  | arith (op : Arith)
  | order (op : Order)
  | test (question : Test)
  | equal | list | vector | hashMap | isEmpty | count | keyword
  | prStr | str | readString | slurp | throw
  deriving DecidableEq, Repr

/-- The predefined functions. -/
inductive Builtin
  | primitive (p : Primitive)
  | prn | println | apply | map | eval
  deriving DecidableEq, Repr

def Arith.name : Arith → String
  | .add => "+"
  | .sub => "-"
  | .mul => "*"
  | .div => "/"

def Order.name : Order → String
  | .lt => "<"
  | .le => "<="
  | .gt => ">"
  | .ge => ">="

def Test.name : Test → String
  | .isList => "list?"
  | .isVector => "vector?"
  | .isMap => "map?"
  | .isNil => "nil?"
  | .isTrue => "true?"
  | .isFalse => "false?"
  | .isSymbol => "symbol?"
  | .isString => "string?"
  | .isKeyword => "keyword?"
  | .isFunction => "fn?"

def Primitive.name : Primitive → String
  | .arith op => op.name
  | .order op => op.name
  | .test question => question.name
  | .equal => "="
  | .list => "list"
  | .vector => "vector"
  | .hashMap => "hash-map"
  | .isEmpty => "empty?"
  | .count => "count"
  | .keyword => "keyword"
  | .prStr => "pr-str"
  | .str => "str"
  | .readString => "read-string"
  | .slurp => "slurp"
  | .throw => "throw"

/-- The name under which a predefined function is bound, and by which its errors call it. -/
def Builtin.name : Builtin → String
  | .primitive p => p.name
  | .prn => "prn"
  | .println => "println"
  | .apply => "apply"
  | .map => "map"
  | .eval => "eval"

/-- The library: every predefined function but `eval`, which belongs to an interpreter. -/
def Builtin.library : List Builtin := [
  .primitive (.arith .add), .primitive (.arith .sub), .primitive (.arith .mul), .primitive (.arith .div),
  .primitive .equal,
  .primitive (.order .lt), .primitive (.order .le), .primitive (.order .gt), .primitive (.order .ge),
  .primitive .list, .primitive (.test .isList), .primitive .vector, .primitive (.test .isVector),
  .primitive .hashMap, .primitive (.test .isMap), .primitive .isEmpty, .primitive .count,
  .apply, .map,
  .primitive (.test .isNil), .primitive (.test .isTrue), .primitive (.test .isFalse),
  .primitive (.test .isSymbol), .primitive (.test .isString),
  .primitive .keyword, .primitive (.test .isKeyword), .primitive (.test .isFunction),
  .primitive .prStr, .primitive .str, .prn, .println,
  .primitive .readString, .primitive .slurp, .primitive .throw]

end SmallLisp
