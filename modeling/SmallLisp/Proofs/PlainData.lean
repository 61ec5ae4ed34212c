import SmallLisp.Proofs.Conversation
import SmallLisp.Proofs.MapLiteral
import SmallLisp.Proofs.Sequence

/-! Data that stands for itself. A value without symbols, functions and applications is evaluated to itself: whatever
names are bound, there is none in it to look up, and its parts are evaluated to themselves. If its texts can be read
back, too, then a session gives its printed form as the answer to its printed form. -/

namespace SmallLisp

open SmallLisp.Computation

/-! ### Plain data -/

/-- Plain data that nests less than `room` levels deep and whose printed form can be read back: strings and keywords,
integers within the limit, the empty list, and vectors and maps of such data. -/
inductive Value.Plain (limits : Limits) : Nat → Value → Prop
  | nil {room : Nat} : Plain limits (room + 1) .nil
  | bool {room : Nat} (b : Bool) : Plain limits (room + 1) (.bool b)
  | int {room : Nat} {n : Int} :
      (Nat.toDigits 10 n.natAbs).length ≤ limits.digits → Plain limits (room + 1) (.int n)
  | text {room : Nat} {s : String} : ReadableText s → Plain limits (room + 1) (.text s)
  | emptyList {room : Nat} : Plain limits (room + 1) (.list [])
  | vector {room : Nat} {items : List Value} :
      (∀ v ∈ items, Plain limits room v) → Plain limits (room + 1) (.vector items)
  | map {room : Nat} {entries : List (String × Value)} :
      (∀ entry ∈ entries, ReadableText entry.1) → (∀ entry ∈ entries, Plain limits room entry.2) →
        (entries.map Prod.fst).Nodup → Plain limits (room + 1) (.map entries)

namespace Value.Plain

variable {limits : Limits} {room : Nat} {v : Value}

theorem readable (h : v.Plain limits room) : v.Readable limits room := by
  induction h with
  | nil => exact .nil
  | bool b => exact .bool b
  | int hdigits => exact .int hdigits
  | text hs => exact .text hs
  | emptyList => exact .list nofun
  | vector _ ih => exact .vector ih
  | map hkeys _ hnodup ih => exact .map hkeys ih hnodup

/-! ### Evaluating it -/

variable {steps depth frame : Nat} {ctx : Context} {m : Machine}

/-- A part is nested work, and there is room for it because every value takes some. -/
theorem finds_part (h : v.Plain limits room) (hdepth : room ≤ depth)
    (hv : ∀ d, room ≤ d + 1 → Finds (run steps d) ctx m frame v v) :
    Finds (nestedRun steps depth) ctx m frame v v := by
  have hpos := h.readable.room_pos
  obtain ⟨d, rfl⟩ : ∃ d, depth = d + 1 := ⟨depth - 1, by omega⟩
  exact hv d hdepth

/-- Plain data is its own value in every frame, and finding it does nothing. -/
theorem finds (h : v.Plain limits room) (hsteps : room ≤ steps) (hdepth : room ≤ depth + 1) :
    Finds (run steps depth) ctx m frame v v := by
  induction h generalizing steps depth with
  | nil | bool | int | text | emptyList =>
      obtain ⟨n, rfl⟩ : ∃ n, steps = n + 1 := ⟨steps - 1, by omega⟩
      exact run_of_value (x := pure _) rfl
  | @vector room items hitems ih =>
      obtain ⟨n, rfl⟩ : ∃ n, steps = n + 1 := ⟨steps - 1, by omega⟩
      have hparts : ∀ item ∈ items, Finds (nestedRun n depth) ctx m frame item item := fun item hitem =>
        (hitems item hitem).finds_part (by omega) fun d hd => ih item hitem (by omega) hd
      have hvalue : evalParts (nestedRun n depth) frame (.vector items) ctx m = some (.ok (.vector items), m) :=
        bind_of_ok (Finds.mapM (List.forall₂_same.mpr hparts))
      exact (run_of_value rfl).trans hvalue
  | @map room entries _ hentries _ ih =>
      obtain ⟨n, rfl⟩ : ∃ n, steps = n + 1 := ⟨steps - 1, by omega⟩
      have hparts : ∀ form ∈ entries.map Prod.snd, Finds (nestedRun n depth) ctx m frame form form := by
        intro form hform
        obtain ⟨entry, hentry, rfl⟩ := List.mem_map.mp hform
        exact (hentries entry hentry).finds_part (by omega) fun d hd => ih entry hentry (by omega) hd
      have hvalue : evalEntries (nestedRun n depth) frame entries ctx m = some (.ok (.map entries), m) := by
        rw [evalEntries, bind_of_ok (Finds.mapM (List.forall₂_same.mpr hparts)), ← List.zip_of_prod rfl rfl]
        rfl
      exact (run_mapLiteral entries frame n depth).trans hvalue

end Value.Plain

/-! ### Submitting it -/

/-- How many levels data may have to be printed, read and evaluated. Evaluating a part is nested work, one level
deeper and with one step less. -/
def Limits.dataRoom (limits : Limits) : Nat := min limits.nesting (min (limits.depth + 1) limits.steps)

example : ({} : Limits).dataRoom = 500 := rfl

namespace Session

variable {ctx : Context} {v : Value}

theorem runFirst_apply {source : String} {form : Value} (hread : readFirst ctx.limits source = .ok (some form))
    (s : Session) : runFirst source ctx s = (some <$> submit form) ctx s := by
  unfold runFirst
  rw [bind_of_ok (read_apply ctx s), hread]
  rfl

theorem submit_plain (h : v.Plain ctx.limits ctx.limits.dataRoom) (s : Session) :
    submit v ctx s = some (.ok v, { s with submitted := s.submitted.push v }) := by
  have hrooms : ctx.limits.dataRoom ≤ ctx.limits.steps ∧ ctx.limits.dataRoom ≤ ctx.limits.depth + 1 := by
    unfold Limits.dataRoom
    omega
  have hvalue : evaluate v rootFrame ctx s.machine = some (.ok v, s.machine) := h.finds hrooms.1 hrooms.2
  exact submit_eq_some.mpr ⟨s.machine, hvalue, rfl⟩

/-- **Plain data answers for itself.** Plain data that nests less deep than the limits allow can be printed. In every
session, whatever its names stand for, the printed form has the data as its value and itself as its answer; it prints
nothing, binds nothing and leaves the session as it was but for the form that was submitted. So a text whose value is
such data is answered by a text that is its own answer. -/
theorem reply_plain (h : v.Plain ctx.limits ctx.limits.dataRoom) :
    ∃ text, v.print ctx.limits .readable = .ok text ∧
      (∀ s : Session,
        runFirst text ctx s = some (.ok (some v), ⟨s.machine, s.submitted.push v⟩) ∧
        reply text ctx s = some (.ok (some text), ⟨s.machine, s.submitted.push v⟩)) ∧
      ∀ source s s', runFirst source ctx s = some (.ok (some v), s') →
        reply source ctx s = some (.ok (some text), s') ∧
        reply text ctx s' = some (.ok (some text), ⟨s'.machine, s'.submitted.push v⟩) := by
  have hroom : ctx.limits.dataRoom ≤ ctx.limits.nesting := Nat.min_le_left _ _
  obtain ⟨text, tokens, hprint, hwritten⟩ := h.readable.written
  have hprint : v.print ctx.limits .readable = .ok text := Value.printWithin_mono hroom hprint
  have hanswer : ∀ source s s', runFirst source ctx s = some (.ok (some v), s') →
      reply source ctx s = some (.ok (some text), s') := by
    intro source s s' hrun
    rw [Repl.reply_apply, hrun]
    simp only [Option.map_some, Repl.shown, hprint]
    rfl
  have hself : ∀ s : Session, runFirst text ctx s = some (.ok (some v), ⟨s.machine, s.submitted.push v⟩) := by
    intro s
    rw [runFirst_apply (hwritten.readFirst_eq hroom), ← bind_pure_comp, bind_of_ok (submit_plain h s)]
    rfl
  refine ⟨text, hprint, fun s => ⟨hself s, hanswer text s _ (hself s)⟩, fun source s s' hrun => ?_⟩
  exact ⟨hanswer source s s' hrun, hanswer text s' _ (hself s')⟩

/-- A map that is put together by calls, with a line feed in its key and a keyword without a name, is printed as a
text that a session answers with this text. -/
theorem reply_plain_computed :
    ∃ s' s'', reply "(hash-map \"a\\n\" (vector nil (= 1 1) (- 12) (list) (keyword \"\")))" noFiles initial =
        some (.ok (some "\x7b\"a\\n\" [nil true -12 () :]\x7d"), s') ∧
      reply "\x7b\"a\\n\" [nil true -12 () :]\x7d" noFiles s' =
        some (.ok (some "\x7b\"a\\n\" [nil true -12 () :]\x7d"), s'') := by
  let v : Value := .map [("a\n", .vector [.nil, .bool true, .int (-12), .list [], .text (keywordOf "")])]
  have hplain : v.Plain noFiles.limits noFiles.limits.dataRoom := by
    refine .map (List.forall_mem_singleton.mpr fun h => absurd h (by decide)) (List.forall_mem_singleton.mpr ?_)
      (by decide)
    refine .vector ?_
    simp only [List.forall_mem_cons]
    exact ⟨.nil, .bool true, .int (by decide), .emptyList,
      .text fun _ => ⟨List.all_eq_true.mp (by decide), by decide⟩, nofun⟩
  have hvalue : ((runFirst "(hash-map \"a\\n\" (vector nil (= 1 1) (- 12) (list) (keyword \"\")))" noFiles
      initial).map fun outcome => outcome.1.toOption) = some (some (some v)) := by decide +kernel
  obtain ⟨⟨r, s'⟩, hrun, hr⟩ := Option.map_eq_some_iff.mp hvalue
  obtain rfl := eq_ok_of_toOption hr
  obtain ⟨text, hprint, -, hanswers⟩ := reply_plain hplain
  have htext : v.print noFiles.limits .readable = .ok "\x7b\"a\\n\" [nil true -12 () :]\x7d" := by decide +kernel
  obtain rfl := Except.ok.inj (hprint.symm.trans htext)
  exact ⟨s', _, hanswers _ _ _ hrun⟩

end Session

end SmallLisp
