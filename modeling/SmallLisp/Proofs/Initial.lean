import SmallLisp.Session

/-! What a new session binds. Values can be compared part by part, so what the names of a new session stand for
can be computed; in particular `load-file` stands for a closure over the root frame that is known in full. -/

namespace SmallLisp

namespace Value

mutual

/-- Whether two values are the same in every part, the numbers of closures included. -/
def same : Value → Value → Bool
  | .nil, .nil => true
  | .bool a, .bool b => a == b
  | .int m, .int n => m == n
  | .symbol a, .symbol b => a == b
  | .text a, .text b => a == b
  | .list vs, .list ws => sameAll vs ws
  | .vector vs, .vector ws => sameAll vs ws
  | .map vs, .map ws => sameEntries vs ws
  | .closure i p v f, .closure j q w g => i == j && p == q && same v w && f == g
  | .builtin a, .builtin b => a == b
  | _, _ => false

def sameAll : List Value → List Value → Bool
  | [], [] => true
  | v :: vs, w :: ws => same v w && sameAll vs ws
  | _, _ => false

def sameEntries : List (String × Value) → List (String × Value) → Bool
  | [], [] => true
  | (a, v) :: vs, (b, w) :: ws => a == b && same v w && sameEntries vs ws
  | _, _ => false

end

mutual

theorem same_iff : ∀ v w : Value, same v w = true ↔ v = w
  | .nil, w => by cases w <;> simp [same]
  | .bool _, w => by cases w <;> simp [same]
  | .int _, w => by cases w <;> simp [same]
  | .symbol _, w => by cases w <;> simp [same]
  | .text _, w => by cases w <;> simp [same]
  | .list vs, w => by cases w <;> simp [same, sameAll_iff vs]
  | .vector vs, w => by cases w <;> simp [same, sameAll_iff vs]
  | .map vs, w => by cases w <;> simp [same, sameEntries_iff vs]
  | .closure _ _ v _, w => by cases w <;> simp [same, same_iff v, and_assoc]
  | .builtin _, w => by cases w <;> simp [same]

theorem sameAll_iff : ∀ vs ws : List Value, sameAll vs ws = true ↔ vs = ws
  | [], ws => by cases ws <;> simp [sameAll]
  | v :: vs, ws => by cases ws <;> simp [sameAll, same_iff v, sameAll_iff vs]

theorem sameEntries_iff : ∀ vs ws : List (String × Value), sameEntries vs ws = true ↔ vs = ws
  | [], ws => by cases ws <;> simp [sameEntries]
  | (_, v) :: vs, ws => by cases ws <;> simp [sameEntries, same_iff v, sameEntries_iff vs, Prod.ext_iff]

end

instance : DecidableEq Value := fun v w => decidable_of_iff (same v w = true) (same_iff v w)

end Value

namespace Session

/-- The usual limits, and no files. -/
def noFiles : Context := ⟨{}, fun _ => .error .notFound⟩

/-- A new session within the usual limits, without files and arguments. -/
def initial : Session := start ⟨{}, fun _ => .error .notFound⟩ []

/-- The function that `load-file` stands for in a new session. -/
def loader : Value :=
  .closure 1 ⟨["f"], none⟩
    (.list [.symbol "eval", .list [.symbol "read-string",
      .list [.symbol "str", .text "(do ", .list [.symbol "slurp", .symbol "f"], .text "\nnil)"]]]) 0

/-- The names that loading a file looks up, with what they stand for in a new session. -/
def loaderBindings : List (String × Value) := [
  ("load-file", loader), ("eval", .builtin .eval), ("read-string", .builtin (.primitive .readString)),
  ("str", .builtin (.primitive .str)), ("slurp", .builtin (.primitive .slurp))]

/-- The names that loading a file looks up still stand for what they stand for in a new session. -/
def LoaderIntact (s : Session) : Prop :=
  ∀ name ∈ loaderBindings.map Prod.fst,
    s.machine.frames.get? rootFrame name = initial.machine.frames.get? rootFrame name

theorem get?_initial : ∀ entry ∈ loaderBindings,
    initial.machine.frames.get? rootFrame entry.1 = some entry.2 := by
  decide +kernel

theorem LoaderIntact.get? {s : Session} (h : s.LoaderIntact) {entry : String × Value}
    (hentry : entry ∈ loaderBindings) : s.machine.frames.get? rootFrame entry.1 = some entry.2 := by
  rw [h entry.1 (List.mem_map_of_mem hentry), get?_initial entry hentry]

end Session

end SmallLisp
