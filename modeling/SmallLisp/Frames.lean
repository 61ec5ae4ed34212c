import SmallLisp.Assoc
import SmallLisp.Error
import SmallLisp.Value.Describe

/-! Frames: the scopes that names are bound in. A frame is known by its number and is made under an older
frame or under none, so the numbers fall on the way outwards and every such way ends. Binding a name touches
one frame alone; looking a name up takes the nearest frame outwards that binds it. Frames are never taken
away. -/

namespace SmallLisp

/-- A frame: its bindings in the order in which the names were first bound, and the frame it was made
under. -/
structure Frame where
  bindings : List (String × Value)
  outer : Option Nat

structure Frames where
  all : Array Frame

namespace Frames

/-- A root frame without bindings, and no other. -/
def single : Frames := ⟨#[⟨[], none⟩]⟩

/-- The bindings of a frame. -/
def bindings (t : Frames) (frame : Nat) : List (String × Value) :=
  match t.all[frame]? with
  | some f => f.bindings
  | none => []

/-- The frame that a frame was made under. -/
def outer? (t : Frames) (frame : Nat) : Option Nat := t.all[frame]?.bind Frame.outer

/-- Makes a frame under another one, with bindings made from left to right. -/
def extend (t : Frames) (outer : Nat) (pairs : List (String × Value)) : Nat × Frames :=
  (t.all.size, ⟨t.all.push ⟨Assoc.ofPairs pairs, some outer⟩⟩)

/-- Makes an empty frame under another one. -/
def child (t : Frames) (outer : Nat) : Nat × Frames := t.extend outer []

/-- Binds a name in a frame. -/
def set (t : Frames) (frame : Nat) (name : String) (value : Value) : Frames :=
  ⟨t.all.modify frame fun f => { f with bindings := Assoc.insert name value f.bindings }⟩

/-- The first `steps` frames on the way outwards. -/
def chainWithin (t : Frames) : Nat → Nat → List Nat
  | 0, _ => []
  | steps + 1, frame =>
    frame :: match t.outer? frame with
      | some outer => chainWithin t steps outer
      | none => []

/-- The frames on the way outwards, from a frame itself to its root. A frame has a larger number than the
frame it was made under, so there is no more of them than the number allows. -/
def chain (t : Frames) (frame : Nat) : List Nat := t.chainWithin (frame + 1) frame

/-- The nearest frame outwards that binds a name. -/
def find? (t : Frames) (frame : Nat) (name : String) : Option Nat :=
  (t.chain frame).find? fun f => (Assoc.find? name (t.bindings f)).isSome

/-- The value of a name, as a frame sees it. -/
def get? (t : Frames) (frame : Nat) (name : String) : Option Value :=
  (t.chain frame).findSome? fun f => Assoc.find? name (t.bindings f)

/-- The outermost frame around a frame. -/
def root (t : Frames) (frame : Nat) : Nat := (t.chain frame).getLastD frame

/-- How many frames are around a frame. -/
def depth (t : Frames) (frame : Nat) : Nat := (t.chain frame).length - 1

/-- The name that a value stands for, where only a symbol or a text can stand. -/
def nameOf (limits : Limits) (v : Value) : Except Error String :=
  match v.boundName? with
  | some name => .ok name
  | none => do
    let shown ← withinLimits (v.describe limits)
    throw (.notName shown)

/-- A list of named values as a mapping: a name that is given again keeps its first place and takes its last
value. A symbol and a text are two names here, even if they will name the same binding. What is no name is
left for `update` to refuse, except that nothing with a map inside can be looked up among the names. -/
def mapping (pairs : List (Value × Value)) : Except Error (List (Value × Value)) :=
  let sameName : Value → Value → Bool
    | .symbol a, .symbol b => a == b
    | .text a, .text b => a == b
    | _, _ => false
  if pairs.any fun pair => pair.1.holdsMap then .error .mapInName
  else
    .ok (pairs.foldl (fun kept pair =>
      if kept.any fun other => sameName other.1 pair.1 then
        kept.map fun other => if sameName other.1 pair.1 then (other.1, pair.2) else other
      else kept ++ [pair]) [])

/-- Binds what values name, from left to right, up to the first that is no name. -/
def update (limits : Limits) (frame : Nat) :
    List (Value × Value) → Frames → Except Error Unit × Frames
  | [], t => (.ok (), t)
  | (name, value) :: pairs, t =>
    match nameOf limits name with
    | .ok name => update limits frame pairs (t.set frame name value)
    | .error e => (.error e, t)

/-- Binds names to as many values. -/
def bind (limits : Limits) (frame : Nat) (names values : List Value) (t : Frames) :
    Except Error Unit × Frames :=
  if names.length = values.length then t.update limits frame (names.zip values)
  else (.error (.argumentCount names.length values.length), t)

/-- The bindings of one frame with the descriptions of their values. An arrow shows that there is a frame
around it. -/
def frameText (limits : Limits) (t : Frames) (frame : Nat) : Except Overrun String := do
  let parts ← (t.bindings frame).mapM fun (name, value) => return name ++ ": " ++ (← value.describe limits)
  let arrow := if (t.outer? frame).isSome then " -> ..." else ""
  return "\x7b" ++ ", ".intercalate parts ++ "\x7d" ++ arrow

/-- One line on a frame: how many frames are around it, and the names it binds, in order. -/
def summary (t : Frames) (frame : Nat) : String :=
  let names := ((t.bindings frame).map Prod.fst).mergeSort fun a b => a ≤ b
  s!"<Environment depth={t.depth frame} names={Text.quotedList names}>"

end Frames

end SmallLisp
