import CelEdit.Expr.Basic
import CelEdit.IdMap
import CelEdit.Rendering.Error
import CelEdit.Rendering.Operator

/-!
# Concrete syntax

Renders a tree as text. A node whose id is a key of the macro calls is written as the call found
there, except inside of the expansion of that very key; so expansions nest at most as deep as there
are keys. Operands get parentheses when they bind looser than their place allows.
-/

namespace CelEdit

abbrev Rendering := Except UnparseError (List Char)

/-- The macro call to write in place of a node, unless it is being written already. -/
def macroCall? (calls : IdMap Expr) (expanding : List NodeId) (id : NodeId) : Option Expr :=
  if id.isSet ∧ id ∉ expanding then calls.get? id else none

/-- The keys that can still be expanded. -/
def pendingKeys (calls : IdMap Expr) (expanding : List NodeId) : List NodeId :=
  calls.keys.filter (· ∉ expanding)

theorem mem_keys_of_get? {calls : IdMap Expr} {id : NodeId} {call : Expr}
    (h : calls.get? id = some call) : id ∈ calls.keys := by
  unfold IdMap.get? at h
  obtain ⟨entry, hfind, rfl⟩ := Option.map_eq_some_iff.1 h
  have hkey := List.find?_some hfind
  have hmem := List.mem_of_find?_eq_some hfind
  rw [← of_decide_eq_true hkey]
  exact List.mem_map_of_mem hmem

theorem pendingKeys_lt {calls : IdMap Expr} {expanding : List NodeId} {id : NodeId} {call : Expr}
    (h : macroCall? calls expanding id = some call) :
    (pendingKeys calls (id :: expanding)).length < (pendingKeys calls expanding).length := by
  unfold macroCall? at h
  split at h
  · next hopen =>
    have hkey := mem_keys_of_get? h
    have hfilter : pendingKeys calls (id :: expanding) =
        (pendingKeys calls expanding).filter (· ≠ id) := by
      unfold pendingKeys
      rw [List.filter_filter]
      congr 1
      funext x
      by_cases hx : x = id <;> simp [hx]
    rw [hfilter]
    apply List.length_filter_lt_length_iff_exists.2
    refine ⟨id, List.mem_filter.2 ⟨hkey, by simpa using hopen.2⟩, by simp⟩
  · cases h

namespace Unparse

/-- A child and its text, which is made only when it is used. -/
abbrev Child := Expr × (Unit → Rendering)

def Child.text (c : Child) : Rendering := c.2 ()

/-- Whether a node is written with an operator of a level above the limit. -/
def looserThan (limit : Nat) (e : Expr) : Bool :=
  match e.kind with
  | .call ⟨none, function, _⟩ =>
    match Operator.ofFunction? function with
    | some op => limit < op.level
    | none => false
  | _ => false

/-- A child as an operand. What is written as a macro call needs no parentheses. -/
def operand (isMacro : NodeId → Bool) (limit : Nat) (c : Child) : Rendering := do
  let text ← c.text
  if !isMacro c.1.id && looserThan limit c.1 then pure ('(' :: text ++ [')']) else pure text

def commaSeparated (items : List (List Char)) : List Char := [',', ' '].intercalate items

def callText (function : String) (args : List Child) : Rendering := do
  let texts ← args.mapM Child.text
  pure (function.toList ++ '(' :: commaSeparated texts ++ [')'])

def optionalMark (optional : Bool) : List Char := if optional then ['?'] else []

def operatorText (isMacro : NodeId → Bool) (function : String) (op : Operator)
    (args : List Child) : Rendering :=
  match op, args with
  | .conditional, [condition, yes, no] => do
    let condition ← operand isMacro 7 condition
    let yes ← operand isMacro 8 yes
    let no ← operand isMacro 8 no
    pure (condition ++ " ? ".toList ++ yes ++ " : ".toList ++ no)
  | .binary symbol level, [left, right] => do
    let left ← operand isMacro level left
    let right ← operand isMacro (level - 1) right
    pure (left ++ ' ' :: symbol.toList ++ ' ' :: right)
  | .unary sign, [arg] => do
    let arg ← operand isMacro 2 arg
    pure (sign :: arg)
  | .index, [arg, position] => do
    let arg ← operand isMacro 1 arg
    let position ← position.text
    pure (arg ++ '[' :: position ++ [']'])
  | .optionalIndex, [arg, position] => do
    let arg ← operand isMacro 1 arg
    let position ← position.text
    pure (arg ++ '[' :: '?' :: position ++ [']'])
  | .optionalSelect, [arg, field] => do
    let arg ← operand isMacro 1 arg
    let field ← match field.1.kind with
      | .constant (.string name) => pure name.toList
      | _ => field.text
    pure (arg ++ '.' :: '?' :: field)
  | op, args => .error (.operatorArity function op.arity args.length)

/-- The text of a node that is not written as a macro call. -/
def nodeText (isMacro : NodeId → Bool) (id : NodeId) : Kind Child → Rendering
  | .notSet => .error (.unsetExpr id)
  | .constant c => pure c.source
  | .ident i => pure i.name.toList
  | .select s => do
    let text ← operand isMacro 1 s.operand
    let selected := text ++ '.' :: s.field.toList
    pure (if s.testOnly then "has(".toList ++ selected ++ [')'] else selected)
  | .call ⟨some target, function, args⟩ => do
    let target ← operand isMacro 1 target
    let call ← callText function args
    pure (target ++ '.' :: call)
  | .call ⟨none, function, args⟩ =>
    match Operator.ofFunction? function with
    | some op => operatorText isMacro function op args
    | none => callText function args
  | .list l => do
    let texts ← l.elements.mapM Child.text
    let marked := texts.mapIdx (fun i text => optionalMark (l.optionalIndices.contains i) ++ text)
    pure ('[' :: commaSeparated marked ++ [']'])
  | .struct s => do
    let texts ← s.entries.mapM fun e => do
      let value ← e.value.text
      pure (optionalMark e.optionalEntry ++ e.fieldKey.toList ++ ':' :: ' ' :: value)
    pure (s.messageName.toList ++ '\x7b' :: commaSeparated texts ++ ['\x7d'])
  | .map m => do
    let texts ← m.entries.mapM fun e => do
      let key ← e.key.text
      let value ← e.value.text
      pure (optionalMark e.optionalEntry ++ key ++ ':' :: ' ' :: value)
    pure ('\x7b' :: commaSeparated texts ++ ['\x7d'])
  | .comprehension _ => .error (.missingMacroCall id)

/-- The text of a tree while the listed keys are being expanded. -/
def render (calls : IdMap Expr) (expanding : List NodeId) (e : Expr) : Rendering :=
  let written : Unit → Rendering := e.fold fun id k _ =>
    match _h : macroCall? calls expanding id with
    | some call => render calls (id :: expanding) call
    | none => nodeText (fun i => (macroCall? calls expanding i).isSome) id k
  written ()
termination_by (pendingKeys calls expanding).length
decreasing_by exact pendingKeys_lt _h

end Unparse

/-- The concrete syntax of a tree with the given macro calls. -/
def Expr.unparse (e : Expr) (calls : IdMap Expr) : Except UnparseError String :=
  (Unparse.render calls [] e).map String.ofList

end CelEdit
