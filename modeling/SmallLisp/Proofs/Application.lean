import Mathlib.Data.List.Forall2
import SmallLisp.Proofs.Initial
import SmallLisp.Proofs.Steps

/-! Applications. A list that begins with the name of a function is evaluated by finding the values of its arguments
and calling the function with them. The function `apply` makes such a call itself, with arguments that it takes from
a list or vector. Which of the two ways a function is called makes no difference: it is called from the same frame,
with the same arguments, in the same state. Only the call by `apply` is nested work, and so one level deeper. -/

namespace SmallLisp

open EvalM SmallLisp.Computation

/-! ### Arguments that are found without doing anything -/

/-- The form has this value in the frame, and the nested evaluator finds it without changing the state. -/
def Finds (nested : Nested) (ctx : Context) (m : Machine) (frame : Nat) (form v : Value) : Prop :=
  nested (.eval form frame) ctx m = some (.ok v, m)

/-- In the frame, the names stand for these values. -/
def Machine.Sees (m : Machine) (frame : Nat) (names : List String) (vs : List Value) : Prop :=
  List.Forall₂ (fun name v => m.frames.get? frame name = some v) names vs

/-- The application of a name to names. -/
def application (name : String) (arguments : List String) : Value := .list ((name :: arguments).map .symbol)

section

variable {ctx : Context} {m : Machine} {frame room : Nat}

theorem Finds.mapM {nested : Nested} {forms vs : List Value}
    (h : List.Forall₂ (Finds nested ctx m frame) forms vs) :
    (forms.mapM fun form => nested (.eval form frame)) ctx m = some (.ok vs, m) := by
  induction h with
  | nil => rfl
  | cons hform _ ih =>
      rw [List.mapM_cons, bind_of_ok hform, bind_of_ok ih]
      rfl

theorem run_symbol {name : String} {v : Value} (h : m.frames.get? frame name = some v) (steps : Nat) :
    Finds (run (steps + 1) room) ctx m frame (.symbol name) v := by
  have hlookup : lookup frame name ctx m = some (.ok v, m) := by
    rw [lookup_apply, h]
    rfl
  have hstep : step (nestedRun steps room) (.eval (.symbol name) frame) ctx m = some (.ok (.value v), m) :=
    (bind_of_ok hlookup).trans rfl
  exact run_of_value (x := pure v) hstep

namespace Machine.Sees

variable {names names' : List String} {vs vs' : List Value}

theorem append (h : m.Sees frame names vs) (h' : m.Sees frame names' vs') :
    m.Sees frame (names ++ names') (vs ++ vs') := by
  induction h with
  | nil => exact h'
  | cons hname _ ih => exact .cons hname ih

theorem finds (h : m.Sees frame names vs) (steps room : Nat) :
    List.Forall₂ (Finds (run (steps + 1) room) ctx m frame) (names.map .symbol) vs := by
  induction h with
  | nil => exact .nil
  | cons hname _ ih => exact .cons (run_symbol hname steps) ih

end Machine.Sees

/-! ### The call that an application makes -/

/-- Once the values of the arguments are found, an application is a call from the frame in which it stands. -/
theorem run_application {name : String} {fn : Value} {forms args : List Value} {steps : Nat}
    (hname : SpecialForm.ofName? name = none) (hfn : m.frames.get? frame name = some fn)
    (hargs : List.Forall₂ (Finds (run (steps + 1) room) ctx m frame) forms args) :
    run (steps + 2) (room + 1) (.eval (.list (.symbol name :: forms)) frame) ctx m =
      run (steps + 2) (room + 1) (.call fn args frame) ctx m := by
  have hspecial : (Value.symbol name).specialForm? = none := hname
  have hhead : nestedRun (steps + 1) (room + 1) (.eval (.symbol name) frame) ctx m = some (.ok fn, m) :=
    run_symbol hfn steps
  have hstep : step (nestedRun (steps + 1) (room + 1)) (.eval (.list (.symbol name :: forms)) frame) ctx m =
      step (nestedRun (steps + 1) (room + 1)) (.call fn args frame) ctx m := by
    rw [step_application hspecial, bind_of_ok hhead]
    exact bind_of_ok (Finds.mapM hargs)
  rw [run_succ, run_succ, bind_apply, bind_apply, hstep]

/-- A primitive answers from its arguments and leaves the state as it is. -/
theorem run_call_primitive (p : Primitive) (args : List Value) (caller steps room : Nat) :
    run (steps + 1) room (.call (.builtin (.primitive p)) args caller) ctx m = some (p.run ctx args, m) := by
  have hstep : step (nestedRun steps room) (.call (.builtin (.primitive p)) args caller) ctx m =
      ((ofExcept (p.run ctx args) : EvalM Value) >>= fun v => pure (.value v)) ctx m := bind_of_ok (read_apply ctx m)
  exact (run_of_value hstep).trans (ofExcept_apply (p.run ctx args) ctx m)

/-- Applied to arguments that are found, so does an application. -/
theorem run_primitive_application {name : String} {p : Primitive} {forms args : List Value} {steps : Nat}
    (hname : SpecialForm.ofName? name = none) (hfn : m.frames.get? frame name = some (.builtin (.primitive p)))
    (hargs : List.Forall₂ (Finds (run (steps + 1) room) ctx m frame) forms args) :
    run (steps + 2) (room + 1) (.eval (.list (.symbol name :: forms)) frame) ctx m = some (p.run ctx args, m) := by
  rw [run_application hname hfn hargs, run_call_primitive]

/-- The function `eval` goes on with the form that it is given, in the root frame. -/
theorem run_call_eval (form : Value) (caller steps room : Nat) :
    run (steps + 1) room (.call (.builtin .eval) [form] caller) ctx m =
      run steps room (.eval form (m.frames.root caller)) ctx m := by
  have hstep : step (nestedRun steps room) (.call (.builtin .eval) [form] caller) ctx m =
      some (.ok (.next form (m.frames.root caller)), m) := step_eq_next_iff.mpr (.call (.eval form caller m))
  exact run_of_next hstep

/-- The function `apply` calls the function that it is given, as nested work. -/
theorem run_call_apply {fn xs : Value} {items : List Value} (hitems : xs.elements? = some items)
    (args : List Value) (caller steps room : Nat) :
    run (steps + 1) (room + 1) (.call (.builtin .apply) (fn :: (args ++ [xs])) caller) ctx m =
      run steps room (.call fn (args ++ items) caller) ctx m := by
  have hstep : step (nestedRun steps (room + 1)) (.call (.builtin .apply) (fn :: (args ++ [xs])) caller) =
      nestedRun steps (room + 1) (.call fn (args ++ items) caller) >>= fun v => pure (.value v) := by
    have hgiven : ∀ given : List Value, given = args ++ [xs] → Builtin.step (nestedRun steps (room + 1)) caller .apply
        (fn :: given) = nestedRun steps (room + 1) (.call fn (args ++ items) caller) >>= fun v => pure (.value v) := by
      rintro (_ | ⟨arg, more⟩) hgiven
      · exact absurd hgiven.symm (List.append_ne_nil_of_right_ne_nil args (List.cons_ne_nil xs []))
      · simp only [Builtin.step, hgiven, List.getLast_concat, List.dropLast_concat, hitems]
    exact hgiven _ rfl
  exact run_of_value (congrFun (congrFun hstep ctx) m)

/-- An application of variables is a call with their values. -/
theorem run_application_names {name : String} {fn : Value} {names : List String} {args : List Value}
    (hname : SpecialForm.ofName? name = none) (hfn : m.frames.get? frame name = some fn)
    (hargs : m.Sees frame names args) (steps room : Nat) :
    run (steps + 2) (room + 1) (.eval (application name names) frame) ctx m =
      run (steps + 2) (room + 1) (.call fn args frame) ctx m :=
  run_application hname hfn (hargs.finds steps room)

/-- **Application through `apply`.** Let a name stand for any value, and be no name of a special form. Whether it is
applied to variables and the elements of a list, each under a name of its own, or `apply` is given the name, the
variables and the list: with the limits left aside, both end with the same value or error and leave the same frames
and the same output, or both do not end. The application through `apply` takes one level and one step more, and apart
from this they are also the same within limits. -/
theorem evaluate_apply {name last : String} {fn xs : Value} {names elementNames : List String} {args items : List Value}
    (happly : m.frames.get? frame "apply" = some (.builtin .apply))
    (hname : SpecialForm.ofName? name = none) (hfn : m.frames.get? frame name = some fn)
    (hargs : m.Sees frame names args) (hlast : m.frames.get? frame last = some xs)
    (hitems : xs.elements? = some items) (helements : m.Sees frame elementNames items) :
    (∀ outcome, Ends (evaluate (application "apply" (name :: (names ++ [last]))) frame) ctx m outcome ↔
      Ends (evaluate (application name (names ++ elementNames)) frame) ctx m outcome) ∧
    ∀ depth steps,
      evaluate (application "apply" (name :: (names ++ [last]))) frame (ctx.allowing (depth + 2) (steps + 3)) m =
        evaluate (application name (names ++ elementNames)) frame (ctx.allowing (depth + 1) (steps + 2)) m := by
  have hgiven : m.Sees frame (name :: (names ++ [last])) (fn :: (args ++ [xs])) :=
    .cons hfn (hargs.append (.cons hlast .nil))
  have hsame : ∀ depth steps,
      evaluate (application "apply" (name :: (names ++ [last]))) frame (ctx.allowing (depth + 2) (steps + 3)) m =
        evaluate (application name (names ++ elementNames)) frame (ctx.allowing (depth + 1) (steps + 2)) m := by
    intro depth steps
    simp only [evaluate, perform_allowing]
    calc run (steps + 3) (depth + 2) (.eval (application "apply" (name :: (names ++ [last]))) frame) ctx m
        = run (steps + 3) (depth + 2) (.call (.builtin .apply) (fn :: (args ++ [xs])) frame) ctx m :=
          run_application_names rfl happly hgiven (steps + 1) (depth + 1)
      _ = run (steps + 2) (depth + 1) (.call fn (args ++ items) frame) ctx m := by
          rw [run_call_apply hitems]
      _ = run (steps + 2) (depth + 1) (.eval (application name (names ++ elementNames)) frame) ctx m :=
          (run_application_names hname hfn (hargs.append helements) steps depth).symm
  exact ⟨ends_congr hsame, hsame⟩

end

/-- The machine of a new session, with a frame in which `form` stands for `(+ 1 2)` and `xs` for a vector of it. -/
def Session.withForm : Machine :=
  { initial.machine with
    frames := (initial.machine.frames.extend rootFrame [
      ("form", .list [.symbol "+", .int 1, .int 2]),
      ("xs", .vector [.list [.symbol "+", .int 1, .int 2]])]).2 }

theorem Session.get?_withForm :
    (∀ entry ∈ [("apply", .builtin .apply), ("eval", .builtin .eval),
        ("form", .list [.symbol "+", .int 1, .int 2]), ("xs", .vector [.list [.symbol "+", .int 1, .int 2]])],
      withForm.frames.get? 1 entry.1 = some entry.2) ∧
    withForm.frames.root 1 = rootFrame ∧
    withForm.frames.get? rootFrame "+" = some (.builtin (.primitive (.arith .add))) := by
  decide +kernel

/-- The form that `apply` gives to `eval` is evaluated in the root frame, as it is by `eval` itself. -/
theorem evaluate_apply_eval :
    Ends (evaluate (application "apply" ["eval", "xs"]) 1) Session.noFiles Session.withForm
      (.ok (.int 3), Session.withForm) := by
  obtain ⟨hnames, hroot, hadd⟩ := Session.get?_withForm
  simp only [List.forall_mem_cons] at hnames
  obtain ⟨happly, heval, hform, hxs, -⟩ := hnames
  generalize Session.withForm = m at *
  refine ((evaluate_apply happly rfl heval .nil hxs rfl (.cons hform .nil)).1 _).mpr
    (.of_surplus 1 3 fun depth steps => ?_)
  rw [evaluate, perform_allowing]
  generalize Session.noFiles = ctx
  calc run (steps + 3) (depth + 1) (.eval (application "eval" ["form"]) 1) ctx m
      = run (steps + 3) (depth + 1) (.call (.builtin .eval) [.list [.symbol "+", .int 1, .int 2]] 1) ctx m :=
        run_application_names rfl heval (.cons hform .nil) (steps + 1) depth
    _ = run (steps + 2) (depth + 1) (.eval (.list [.symbol "+", .int 1, .int 2]) (m.frames.root 1)) ctx m :=
        run_call_eval _ 1 (steps + 2) (depth + 1)
    _ = run (steps + 2) (depth + 1) (.call (.builtin (.primitive (.arith .add))) [.int 1, .int 2]
          (m.frames.root 1)) ctx m := by
        rw [hroot]
        exact run_application rfl hadd (.cons rfl (.cons rfl .nil))
    _ = some (.ok (.int 3), m) := run_call_primitive (.arith .add) [.int 1, .int 2] _ (steps + 1) (depth + 1)

end SmallLisp
