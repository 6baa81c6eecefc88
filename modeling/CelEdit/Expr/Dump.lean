import CelEdit.Expr.Basic
import CelEdit.Text.Blank

/-!
# Dump of a tree

A text with one block per node, headed by its tag and id. Nested blocks are indented by two blanks.
-/

namespace CelEdit

/-- A line of a dump and how deep it is nested. -/
structure DumpLine where
  indent : Nat
  text : List Char

namespace DumpLine

def of (text : String) : DumpLine := ⟨0, text.toList⟩

def nest (l : DumpLine) : DumpLine := ⟨l.indent + 1, l.text⟩

def spell (l : DumpLine) : List Char := List.replicate (2 * l.indent) ' ' ++ l.text ++ ['\n']

end DumpLine

namespace Dump

def number (n : Nat) : String := String.ofList (Nat.toDigits 10 n)

def nested (ls : List DumpLine) : List DumpLine := ls.map DumpLine.nest

/-- Lines between a header that opens a block and the brace that closes it. -/
def braced (header : String) (content : List DumpLine) : List DumpLine :=
  .of (header ++ " \x7b") :: nested content ++ [.of "\x7d"]

def labelled (label : String) (content : List DumpLine) : List DumpLine :=
  braced (label ++ ":") content

def field (label value : String) : DumpLine := .of (label ++ ": " ++ value)

def optionalMark (optional : Bool) : List DumpLine :=
  if optional then [field "optional_entry" "true"] else []

/-- The lines of a node, given those of its children. -/
def node (id : NodeId) (k : Kind (List DumpLine)) : List DumpLine :=
  let header := k.tag.display ++ " [" ++ number id.toNat ++ "]"
  match k with
  | .notSet => [.of (header ++ " \x7b\x7d")]
  | .constant c => [.of (header ++ " \x7b value: " ++ String.ofList c.source ++ " \x7d")]
  | .ident i => braced header [field "name" i.name]
  | .select s =>
    .of (header ++ " \x7b") :: nested s.operand ++
      [.of ("\x7d." ++ s.field ++ if s.testOnly then "~presence_test" else "")]
  | .call c =>
    braced header
      ((match c.target with
        | none => []
        | some t => labelled "target" t) ++
        field "function" c.function ::
        (if c.args.isEmpty then [] else labelled "args" c.args.flatten))
  | .list l =>
    braced header
      (labelled "elements" l.elements.flatten ++
        if l.optionalIndices.isEmpty then []
        else
          let indices := l.optionalIndices.toList.map (fun i => number i.toNat)
          [field "optional_indices" ("[" ++ ", ".intercalate indices ++ "]")])
  | .struct s =>
    braced header
      (field "name" s.messageName ::
        labelled "entries" (s.entries.flatMap fun e =>
          braced ("ENTRY [" ++ number e.id.toNat ++ "]")
            (field "field_key" e.fieldKey :: optionalMark e.optionalEntry ++
              labelled "value" e.value)))
  | .map m =>
    braced header
      (m.entries.flatMap fun e =>
        braced ("MAP_ENTRY [" ++ number e.id.toNat ++ "]")
          (labelled "key" e.key ++ optionalMark e.optionalEntry ++ labelled "value" e.value))
  | .comprehension c =>
    braced header
      (field "iter_var" c.iterVar :: labelled "iter_range" c.iterRange ++
        field "accu_var" c.accuVar :: labelled "accu_init" c.accuInit ++
        labelled "loop_condition" c.loopCondition ++ labelled "loop_step" c.loopStep ++
        labelled "result" c.result)

end Dump

def Expr.dumpLines : Expr → List DumpLine :=
  fold fun id k => Dump.node id (k.mapChildren Prod.snd)

/-- The dump of a tree, without blanks at its end. -/
def Expr.dump (e : Expr) : String :=
  String.ofList (Text.trimEnd (e.dumpLines.flatMap DumpLine.spell))

end CelEdit
