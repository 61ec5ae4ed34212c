import SmallLisp.Proofs.Sequence
import SmallLisp.Proofs.Unlimited

/-! Loading files. The function `load-file` reads the text of a file as one sequence of forms and gives that
sequence to `eval`, from a frame of its own. What it does is nevertheless what evaluating the forms of the
text one after the other in the root does: the frame of its own only moves the numbers of the frames that come
after it. -/

namespace SmallLisp

open SmallLisp.Computation

/-! ### Strings put together -/

theorem Value.print_text {limits : Limits} (hnesting : 0 < limits.nesting) (style : PrintStyle) (s : String) :
    (text s).print limits style = .ok (printText style s) := by
  obtain ⟨room, hroom⟩ : ∃ room, limits.nesting = room + 1 := ⟨limits.nesting - 1, by omega⟩
  rw [print, hroom, printWithin]

/-- Of strings and keywords, `str` puts together what is printed of each. -/
theorem Primitive.run_str_texts {ctx : Context} (hnesting : 0 < ctx.limits.nesting) (texts : List String) :
    run ctx .str (texts.map .text) = .ok (.text ("".intercalate (texts.map (printText .raw)))) := by
  have hparts : (texts.map Value.text).mapM (Value.print ctx.limits .raw) = .ok (texts.map (printText .raw)) := by
    rw [List.mapM_map]
    simp only [Function.comp_def, Value.print_text hnesting]
    exact List.mapM_pure
  rw [run, Value.printAll, hparts]
  rfl

/-! ### Forms that only have a value -/

namespace Recursive

variable {ctx : Context} {m : Machine} {frame : Nat}

/-- The form has this value in the frame, and finding it changes nothing. -/
def Yields (ctx : Context) (m : Machine) (frame : Nat) (form v : Value) : Prop :=
  evaluate form frame ctx m = some (.ok v, m)

/-- The forms have these values. -/
def YieldsAll (ctx : Context) (m : Machine) (frame : Nat) (forms vs : List Value) : Prop :=
  (forms.mapM fun form => evaluate form frame) ctx m = some (.ok vs, m)

theorem Yields.symbol {name : String} {v : Value} (h : m.frames.get? frame name = some v) :
    Yields ctx m frame (.symbol name) v := by
  rw [Yields, evaluate, perform_eq]
  refine (EvalM.lookup_apply frame name ctx m).trans ?_
  rw [h]
  rfl

theorem Yields.text (s : String) : Yields ctx m frame (.text s) (.text s) := by
  rw [Yields, evaluate, perform_eq]
  rfl

theorem YieldsAll.nil : YieldsAll ctx m frame [] [] := rfl

theorem YieldsAll.cons {form v : Value} {forms vs : List Value} (h : Yields ctx m frame form v)
    (hrest : YieldsAll ctx m frame forms vs) : YieldsAll ctx m frame (form :: forms) (v :: vs) := by
  rw [YieldsAll, List.mapM_cons, bind_of_ok h, bind_of_ok hrest]
  rfl

/-- The arguments of a function are evaluated before it is applied. -/
theorem evaluate_arguments {name : String} {fn : Value} (forms : List Value)
    (hname : SpecialForm.ofName? name = none) (hfn : m.frames.get? frame name = some fn) :
    evaluate (.list (.symbol name :: forms)) frame ctx m =
      ((forms.mapM fun form => evaluate form frame) >>= fun args => apply perform frame fn args) ctx m := by
  have hspecial : (Value.symbol name).specialForm? = none := hname
  have hsymbol : perform (.eval (.symbol name) frame) ctx m = some (.ok fn, m) := Yields.symbol hfn
  rw [evaluate, perform_eq, value]
  simp only [hspecial]
  rw [bind_of_ok hsymbol]
  rfl

/-- A function is applied to the values of its arguments. -/
theorem evaluate_application {name : String} {fn : Value} {forms args : List Value}
    (hname : SpecialForm.ofName? name = none) (hfn : m.frames.get? frame name = some fn)
    (hargs : YieldsAll ctx m frame forms args) :
    evaluate (.list (.symbol name :: forms)) frame ctx m = apply perform frame fn args ctx m := by
  rw [evaluate_arguments forms hname hfn, bind_of_ok hargs]

theorem Yields.primitive {name : String} {p : Primitive} {forms args : List Value} {v : Value}
    (hname : SpecialForm.ofName? name = none) (hfn : m.frames.get? frame name = some (.builtin (.primitive p)))
    (hargs : YieldsAll ctx m frame forms args) (hrun : p.run ctx args = .ok v) :
    Yields ctx m frame (.list (.symbol name :: forms)) v := by
  rw [Yields, evaluate_application hname hfn hargs, apply, bind_of_ok (read_apply ctx m), hrun]
  rfl

/-- A sequence that ends with `nil` evaluates the forms in front of it and gives `nil`. -/
theorem evaluate_sequence (forms : List Value) :
    evaluate (.list (.symbol "do" :: forms ++ [.nil])) frame =
      (forms.mapM fun form => evaluate form frame) >>= fun _ => pure .nil := by
  have hnil : perform (.eval .nil frame) = pure .nil := by
    rw [perform_eq]
    rfl
  have hforM : ∀ forms : List Value, (forms.forM fun form => do let _ ← evaluate form frame) =
      ((forms.mapM fun form => evaluate form frame) >>= fun _ => pure ()) := by
    intro forms
    induction forms with
    | nil => rfl
    | cons form forms ih => simp only [List.forM, List.mapM_cons, bind_assoc, ih, pure_bind]
  obtain ⟨first, rest, hparts⟩ : ∃ first rest, forms ++ [.nil] = first :: rest :=
    List.exists_cons_of_ne_nil (by simp)
  have hspecial : evaluate (.list (.symbol "do" :: forms ++ [.nil])) frame =
      ((first :: rest).dropLast.forM fun form => do let _ ← evaluate form frame) >>= fun _ =>
        evaluate ((first :: rest).getLast (List.cons_ne_nil first rest)) frame := by
    rw [evaluate, perform_eq, List.cons_append, hparts]
    rfl
  rw [hspecial]
  simp only [← hparts, List.dropLast_concat, List.getLast_concat]
  rw [hforM, evaluate, hnil, bind_assoc]
  rfl

end Recursive

namespace Session

open Recursive

/-- The machine when the body of `load-file` is evaluated: it has one more frame, which binds the path. -/
def entered (m : Machine) (path : String) : Machine :=
  { m with frames := (m.frames.extend rootFrame [("f", .text path)]).2 }

/-- The text that loading a file reads: the text of the file, as a string is printed, in brackets. -/
def spliced (text : String) : String := "(do " ++ printText .raw text ++ "\nnil)"

theorem isKeyword_spliced (text : String) : isKeyword (spliced text) = false := by
  simp [spliced, isKeyword, keywordMark]

/-- That text is put together by `str`. -/
theorem run_str_spliced {ctx : Context} (hnesting : 0 < ctx.limits.nesting) (text : String) :
    Primitive.run ctx .str [.text "(do ", .text text, .text "\nnil)"] = .ok (.text (spliced text)) := by
  have hjoined : "".intercalate [printText .raw "(do ", printText .raw text, printText .raw "\nnil)"] =
      spliced text := by
    rw [show printText .raw "(do " = "(do " by decide, show printText .raw "\nnil)" = "\nnil)" by decide]
    simp [spliced, String.ext_iff]
  rw [← hjoined]
  exact Primitive.run_str_texts hnesting ["(do ", text, "\nnil)"]

section

variable {m : Machine} (hm : m.frames.WellScoped) (path : String)
include hm

theorem wellScoped_entered : (entered m path).frames.WellScoped := by
  refine hm.extend hm.size_pos fun pair hpair => ?_
  rw [List.mem_singleton.mp hpair]
  exact .text path

/-- In the new frame, the parameter stands for the path and any other name for what it stands for in the root. -/
theorem get?_entered (name : String) :
    (entered m path).frames.get? m.frames.size name =
      if name = "f" then some (.text path) else m.frames.get? rootFrame name :=
  hm.get?_extend_single hm.size_pos (.text path) name

/-- The body of `load-file` reads the text of the file in brackets. -/
theorem evaluate_spliced {ctx : Context} {text : String}
    (hnames : ∀ entry ∈ loaderBindings, m.frames.get? rootFrame entry.1 = some entry.2)
    (hpath : isKeyword path = false) (hfile : fileText ctx path = .ok text) (hnesting : 0 < ctx.limits.nesting) :
    Recursive.evaluate (.list [.symbol "read-string",
      .list [.symbol "str", .text "(do ", .list [.symbol "slurp", .symbol "f"], .text "\nnil)"]]) m.frames.size ctx
        (entered m path) =
      some (firstForm ctx (spliced text), entered m path) := by
  have hbuiltin : ∀ name b, name ≠ "f" → (name, Value.builtin b) ∈ loaderBindings →
      (entered m path).frames.get? m.frames.size name = some (.builtin b) := fun name b hne hmem => by
    rw [get?_entered hm path name, if_neg hne, hnames _ hmem]
  have hslurp : Yields ctx (entered m path) m.frames.size (.list [.symbol "slurp", .symbol "f"])
      (.text text) := by
    refine .primitive (by decide) (hbuiltin "slurp" (.primitive .slurp) (by decide) (by simp [loaderBindings]))
      (.cons (.symbol (get?_entered hm path "f")) .nil) ?_
    simp only [Primitive.run, hpath, hfile]
    rfl
  have hstr : Yields ctx (entered m path) m.frames.size
      (.list [.symbol "str", .text "(do ", .list [.symbol "slurp", .symbol "f"], .text "\nnil)"])
      (.text (spliced text)) := by
    exact .primitive (by decide) (hbuiltin "str" (.primitive .str) (by decide) (by simp [loaderBindings]))
      (.cons (.text _) (.cons hslurp (.cons (.text _) .nil))) (run_str_spliced hnesting text)
  have hread := hbuiltin "read-string" (.primitive .readString) (by decide) (by simp [loaderBindings])
  rw [evaluate_application (by decide) hread (.cons hstr .nil), apply, bind_of_ok (read_apply ctx _),
    Primitive.run, isKeyword_spliced]
  exact ofExcept_apply ..

/-- Loading a file evaluates the first form of its text in brackets in the root, from the machine with one more
frame, if there is such a form, and does nothing else. -/
theorem evaluate_load {ctx : Context} {text : String}
    (hnames : ∀ entry ∈ loaderBindings, m.frames.get? rootFrame entry.1 = some entry.2)
    (hpath : isKeyword path = false) (hfile : fileText ctx path = .ok text) (hnesting : 0 < ctx.limits.nesting) :
    Recursive.evaluate (.list [.symbol "load-file", .text path]) rootFrame ctx m =
      match firstForm ctx (spliced text) with
      | .ok form => Recursive.evaluate form rootFrame ctx (entered m path)
      | .error e => some (.error e, entered m path) := by
  have heval : (entered m path).frames.get? m.frames.size "eval" = some (.builtin .eval) := by
    rw [get?_entered hm path, if_neg (by decide), hnames ("eval", .builtin .eval) (by simp [loaderBindings])]
  have hroot : (entered m path).frames.root m.frames.size = rootFrame := by
    refine (wellScoped_entered hm path).root_eq ?_
    rw [entered, Frames.size_extend]
    exact Nat.lt_succ_self _
  have hcall : apply Recursive.perform rootFrame loader [.text path] ctx m =
      Recursive.evaluate (.list [.symbol "eval", .list [.symbol "read-string",
        .list [.symbol "str", .text "(do ", .list [.symbol "slurp", .symbol "f"], .text "\nnil)"]]])
        m.frames.size ctx (entered m path) := by
    have hpairs : (ofExcept (Params.assign ⟨["f"], none⟩ [.text path]) : EvalM (List (String × Value))) ctx m =
        some (.ok [("f", .text path)], m) := ofExcept_apply _ ctx m
    rw [loader, apply, bind_of_ok hpairs, bind_of_ok (EvalM.extendFrame_apply ..)]
    rfl
  have hbody : ∀ form, apply Recursive.perform m.frames.size (.builtin .eval) [form] ctx (entered m path) =
      Recursive.evaluate form rootFrame ctx (entered m path) := by
    intro form
    rw [apply, bind_of_ok (get_apply ctx (entered m path)), hroot]
    rfl
  have hspliced := evaluate_spliced hm path hnames hpath hfile hnesting
  rw [evaluate_application (by decide) (hnames ("load-file", loader) (by simp [loaderBindings]))
    (.cons (.text path) .nil), hcall, evaluate_arguments _ (by decide) heval, List.mapM_cons]
  cases hform : firstForm ctx (spliced text) with
  | ok form =>
      rw [hform] at hspliced
      rw [bind_assoc, bind_of_ok hspliced]
      exact hbody form
  | error e =>
      rw [hform] at hspliced
      rw [bind_assoc, bind_of_error hspliced]

end

/-- Evaluating forms from the machine with one more frame does what it does without that frame. -/
theorem tracks_forms {m : Machine} (hm : m.frames.WellScoped) (path : String) {ctx : Context}
    {forms : List Value} (hforms : ∀ form ∈ forms, form.InScope 0) {k : Nat} (hpos : 0 < k)
    (hk : m.frames.size = k) :
    Tracks (.skip k hpos) (· = 0) (fun _ => Value.nil) (fun _ _ => True)
      (forms.mapM fun form => Recursive.evaluate form rootFrame)
      ((forms.mapM fun form => Recursive.evaluate form rootFrame) >>= fun _ => pure Value.nil) ctx m
      (entered m path) := by
  have himage : m.Image (.skip k hpos) (entered m path) := .skip hm hpos hk rootFrame [("f", .text path)]
  have hnested : Nested.Tracks (.skip k hpos) (· = 0) Recursive.perform Recursive.perform ctx :=
    fun task m m' h htask => Recursive.tracks_perform h htask
  have hsame : forms.map (Value.rename (.skip k hpos)) = forms := by
    rw [List.map_congr_left fun form hform => (hforms form hform).rename_closed, List.map_id']
  have hall := hnested.evalAll (fun _ h => h) himage hm.size_pos rfl fun form hform =>
    (hforms form hform).mono (Nat.zero_le _)
  rw [hsame, Renumbering.frame_zero] at hall
  have hrest : Tracks (.skip k hpos) (· = 0) (fun _ => Value.nil) (fun _ _ => True)
      ((forms.mapM fun form => Recursive.evaluate form rootFrame) >>= pure)
      ((forms.mapM fun form => Recursive.evaluate form rootFrame) >>= fun _ => pure Value.nil) ctx m
      (entered m path) :=
    hall.bind fun vs n n' _ hn _ => Tracks.pure (f := fun _ : List Value => Value.nil) hn trivial
  rwa [bind_pure] at hrest

/-- The forms of a text without fault are submitted one after the other, whatever is allowed. -/
theorem runAll_allowing {ctx : Context} {text : String} {forms : List Value}
    (hread : readPrefix ctx.limits text = (forms, none)) (depth steps : Nat) :
    runAll text (ctx.allowing depth steps) = forms.mapM submit (ctx.allowing depth steps) := by
  funext s
  have hread : readPrefix (ctx.allowing depth steps).limits text = (forms, none) :=
    (readPrefix_allowing ctx.limits depth steps text).trans hread
  rw [runAll_apply hread]
  exact congrFun (congrFun (bind_pure _) (ctx.allowing depth steps)) s

theorem Denotes.setArgv_runAll {ctx : Context} {text : String} {forms : List Value}
    (hread : readPrefix ctx.limits text = (forms, none)) (argv : List String) :
    Denotes ctx (do Session.setArgv argv; runAll text) (do
      EvalM.bindName rootFrame "*ARGV*" (.list (argv.map .text))
      forms.mapM fun form => Recursive.evaluate form rootFrame) :=
  (Denotes.setArgv argv).bind fun _ => (Denotes.mapM Denotes.submit forms).congr (runAll_allowing hread)

/-- Binding the arguments leaves alone what loading a file looks up. -/
theorem bindName_argv {s : Session} (hs : s.machine.frames.WellScoped) (hloader : s.LoaderIntact) (ctx : Context)
    (argv : List String) :
    ∃ m, EvalM.bindName rootFrame "*ARGV*" (.list (argv.map .text)) ctx s.machine = some (.ok (), m) ∧
      m.frames.WellScoped ∧ m.frames.size = s.machine.frames.size ∧
      ∀ entry ∈ loaderBindings, m.frames.get? rootFrame entry.1 = some entry.2 := by
  have hargv : (Value.list (argv.map .text)).InScope s.machine.frames.size := by
    refine .list fun v hv => ?_
    obtain ⟨arg, _, rfl⟩ := List.mem_map.mp hv
    exact .text arg
  have hnames : ∀ entry ∈ loaderBindings, "*ARGV*" ≠ entry.1 := by decide
  refine ⟨_, EvalM.bindName_apply .., hs.set hargv, Frames.size_set .., fun entry hentry => ?_⟩
  exact (Frames.get?_set_of_ne (hnames entry hentry) rootFrame).trans (hloader.get? hentry)

/-- The session in which the root binds the arguments of a program. -/
def withArgv (s : Session) (argv : List String) : Session :=
  { s with machine := { s.machine with
      frames := s.machine.frames.set rootFrame "*ARGV*" (.list (argv.map .text)) } }

theorem setArgv_apply (argv : List String) (ctx : Context) (s : Session) :
    setArgv argv ctx s = some (.ok (), s.withArgv argv) :=
  onMachine_of_eq_some (EvalM.bindName_apply ..)

/-- To bind arguments and to evaluate a text is to evaluate its forms where the root binds the arguments. -/
theorem setArgv_runAll_eq_some {ctx : Context} {text : String} {forms : List Value}
    (hread : readPrefix ctx.limits text = (forms, none)) (argv : List String) (depth steps : Nat) {s t : Session}
    {r : Except Error (List Value)} :
    (do setArgv argv; runAll text : SessionM (List Value)) (ctx.allowing depth steps) s = some (r, t) ↔
      (∃ values, r = .ok values ∧ Evaluates (ctx.allowing depth steps) (s.withArgv argv) forms values t) ∨
        ∃ front back e, forms = front ++ back ∧ r = .error e ∧
          Raises (ctx.allowing depth steps) (s.withArgv argv) front e t := by
  rw [bind_of_ok (setArgv_apply argv _ s), runAll_allowing hread]
  exact mapM_submit_eq_some

/-- **Loading a file is evaluating its text.** In a session where what loading looks up is as in a new
session, let a path lead to a file whose text can be read, with a level of nesting to spare. Evaluating the
text submits its forms one after the other and nothing else. When the arguments are bound first, the forms are
evaluated where the root binds `*ARGV*` to them, and is otherwise what it was. Loading the file, with the limits
on depth and steps left aside, comes to an end exactly if binding the arguments and evaluating the text does. It
ends with the same error, or else with `nil`, and with the same printed text and the same frames and bindings,
except that one more frame was made, so that the frames made later have a number that is higher by one. -/
theorem loadFile_runAll {s : Session} (hs : s.Reachable) (hloader : s.LoaderIntact) {ctx : Context}
    {path text : String} {forms : List Value} {nesting : Nat} (hpath : isKeyword path = false)
    (hfile : fileText ctx path = .ok text) (htext : isKeyword text = false)
    (hforms : readAll { ctx.limits with nesting } text = .ok forms) (hnesting : nesting < ctx.limits.nesting)
    (argv : List String) :
    let ρ := Renumbering.skip s.machine.frames.size hs.wellScoped.size_pos
    let run : SessionM (List Value) := do
      setArgv argv
      runAll text
    (∀ depth steps, runAll text (ctx.allowing depth steps) = forms.mapM submit (ctx.allowing depth steps)) ∧
    (s.withArgv argv).machine.frames.bindings rootFrame =
      Assoc.insert "*ARGV*" (.list (argv.map .text)) (s.machine.frames.bindings rootFrame) ∧
    (∀ depth steps r t, run (ctx.allowing depth steps) s = some (r, t) ↔
      (∃ values, r = .ok values ∧ Evaluates (ctx.allowing depth steps) (s.withArgv argv) forms values t) ∨
        ∃ front back e, forms = front ++ back ∧ r = .error e ∧
          Raises (ctx.allowing depth steps) (s.withArgv argv) front e t) ∧
    ((∃ outcome, Ends (loadFile path argv) ctx s outcome) ↔ ∃ outcome, Ends run ctx s outcome) ∧
    ∀ r t r' t', Ends run ctx s (r, t) → Ends (loadFile path argv) ctx s (r', t') →
      r' = renameResult ρ (fun _ => .nil) r ∧ t'.machine.output = t.machine.output ∧
      t'.machine.frames.bindings rootFrame =
        (t.machine.frames.bindings rootFrame).map (fun entry => (entry.1, entry.2.rename ρ)) ∧
      t.machine.Image ρ t'.machine := by
  intro ρ run
  have hread : readPrefix ctx.limits text = (forms, none) := readPrefix_of_readAll hforms (Nat.le_of_lt hnesting)
  have hclosed : ∀ form ∈ forms, form.InScope 0 := by
    have hsafe := (safe_readPrefix ctx.limits text).1
    rwa [hread] at hsafe
  obtain ⟨m, hbind, hscoped, hsize, hnames⟩ := bindName_argv hs.wellScoped hloader ctx argv
  have hrun : Denotes ctx run _ := Denotes.setArgv_runAll hread argv
  have hload := @Denotes.loadFile ctx path argv
  have hspliced : spliced text = "(do " ++ text ++ "\nnil)" := by
    rw [spliced, printText, htext]
    rfl
  have hfirst : firstForm ctx (spliced text) = .ok (.list (.symbol "do" :: forms ++ [.nil])) := by
    rw [firstForm, hspliced, readFirst_enclosed (readAll_nil hforms) hnesting]
    rfl
  have hloaded := evaluate_load hscoped path hnames hpath hfile (Nat.zero_lt_of_lt hnesting)
  rw [hfirst] at hloaded
  dsimp only at hloaded
  rw [evaluate_sequence] at hloaded
  have htracks := @tracks_forms m hscoped path ctx forms hclosed _ hs.wellScoped.size_pos hsize
  refine ⟨runAll_allowing hread, Frames.bindings_set hs.wellScoped.size_pos _ _,
    fun depth steps r t => setArgv_runAll_eq_some hread argv depth steps, ?_, fun r t r' t' hends hends' => ?_⟩
  · rw [hload.ends_iff, hrun.ends_iff, bind_of_ok hbind, bind_of_ok hbind, hloaded]
    cases hforms : (forms.mapM fun form => Recursive.evaluate form rootFrame) ctx m with
    | none =>
        rw [htracks.silent hforms]
        exact Iff.rfl
    | some outcome =>
        obtain ⟨n', hn', _⟩ := htracks.mirrors _ _ hforms
        rw [hn']
        rfl
  · have hr := hrun.of_ends hends
    have hr' := hload.of_ends hends'
    rw [bind_of_ok hbind] at hr hr'
    rw [hloaded] at hr'
    obtain ⟨n', hn', himage⟩ := htracks.mirrors _ _ hr
    rw [hn'] at hr'
    cases hr'
    refine ⟨rfl, himage.output, ?_, himage⟩
    have hbindings := himage.bindings_eq rootFrame
    rwa [rootFrame, ρ.frame_zero] at hbindings

/-- A single file with two forms. Both read the arguments, and the second what the first has bound. Its text ends
inside a comment. -/
def commentedFile : Context :=
  ⟨{}, fun path =>
    if path = "lib" then .ok ("(def! n (count *ARGV*)) (prn n *ARGV*) ; one".toList.map fun c => c.toNat.toUInt8)
    else .error .notFound⟩

/-- The forms of that file. -/
def commentedForms : List Value := [
  .list [.symbol "def!", .symbol "n", .list [.symbol "count", .symbol "*ARGV*"]],
  .list [.symbol "prn", .symbol "n", .symbol "*ARGV*"]]

/-- A new session loads that file with two arguments, prints how many there are and which, and gives `nil`. -/
theorem loadFile_runAll_commentedFile :
    ∃ t, Ends (loadFile "lib" ["one", "two"]) commentedFile initial (.ok .nil, t) ∧
      t.machine.output = "2 (\"one\" \"two\")\n" := by
  have hs : initial.Reachable := .start _ _
  have hloader : initial.LoaderIntact := fun _ _ => rfl
  have hfile : fileText commentedFile "lib" = .ok "(def! n (count *ARGV*)) (prn n *ARGV*) ; one" :=
    eq_ok_of_toOption (by decide +kernel)
  have hforms : readAll { commentedFile.limits with nesting := 3 } "(def! n (count *ARGV*)) (prn n *ARGV*) ; one" =
      .ok commentedForms := eq_ok_of_toOption (by decide +kernel)
  obtain ⟨-, -, hevaluates, hiff, hsame⟩ :=
    loadFile_runAll hs hloader (by decide) hfile (by decide) hforms (by decide) ["one", "two"]
  have hvalues : ((commentedForms.mapM submit (commentedFile.allowing 40 40) (initial.withArgv ["one", "two"])).map
      fun outcome => (outcome.1.toOption, outcome.2.machine.output)) =
        some (some [.int 2, .nil], "2 (\"one\" \"two\")\n") := by decide +kernel
  obtain ⟨⟨r, t⟩, hsubmit, hvalues⟩ := Option.map_eq_some_iff.mp hvalues
  obtain ⟨hr, houtput⟩ := Prod.mk.inj hvalues
  obtain rfl := eq_ok_of_toOption hr
  have hrun := (hevaluates 40 40 _ t).mpr (mapM_submit_eq_some.mp hsubmit)
  have hdenotes := Denotes.setArgv_runAll (readPrefix_of_readAll hforms (by decide)) ["one", "two"]
  obtain ⟨t₁, ht₁, hends⟩ := hdenotes.complete initial _ t.machine (hdenotes.sound 40 initial _ t hrun)
  obtain ⟨⟨r', t'⟩, hends'⟩ := hiff.mpr ⟨_, hends⟩
  obtain ⟨rfl, hsameOutput, -⟩ := hsame _ _ _ _ hends hends'
  exact ⟨t', hends', hsameOutput.trans (ht₁ ▸ houtput)⟩

end Session

end SmallLisp
