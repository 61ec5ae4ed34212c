/-! The limits of an interpreter. Evaluations may nest only so deep, and so may the forms and values that are
read, printed or compared; the decimal notation of an integer may have only so many digits, read or written.
A limit that is passed is an error of its own kind: it says nothing about the program that ran into it. -/

namespace SmallLisp

/-- How far an interpreter goes. `depth` is for evaluations inside one another and `nesting` for data. `steps`
bounds the longest chain of evaluation steps, so that a run which never ends has an answer too; it is no limit
that a program meets in practice. -/
structure Limits where
  depth : Nat := 500
  nesting : Nat := 500
  digits : Nat := 4300
  steps : Nat := 1000000000000000
  deriving DecidableEq, Repr

/-- A limit that was passed. -/
inductive Overrun
  | depth
  | nesting
  | digitsRead (limit count : Nat)
  | digitsWritten (limit : Nat)
  deriving DecidableEq, Repr

/-- The wording of a passed limit. -/
def Overrun.message : Overrun → String
  | .depth | .nesting => "maximum recursion depth exceeded"
  | .digitsRead limit count =>
    s!"Exceeds the limit ({limit} digits) for integer string conversion: value has {count} digits; " ++
      "use sys.set_int_max_str_digits() to increase the limit"
  | .digitsWritten limit =>
    s!"Exceeds the limit ({limit} digits) for integer string conversion; " ++
      "use sys.set_int_max_str_digits() to increase the limit"

end SmallLisp
