import CoroutineIR.Routine.Basic
import CoroutineIR.Routine.Nesting

/-!
# Printing

A node is printed on one line, its sub-expressions in parentheses. A routine is printed as its
statement tree: every node of the stream on a line of its own, indented by four spaces for each
region around it, with a closing line for every region and a dividing line between the arms of a
conditional.
-/

namespace CoroutineIR

/-- A printed line and the number of regions around it. -/
structure Line where
  depth : Nat
  text : String
deriving DecidableEq, Repr, Inhabited

/-- The line with its indentation and the line break behind it. -/
def Line.render (l : Line) : String := String.join (List.replicate l.depth "    ") ++ l.text ++ "\n"

namespace Routine

/-- The destination of a jump. -/
def jumpText (r : Routine) : Jump → Query String
  | .pending _ => return "<pending>"
  | .terminal => return "<end>"
  | .step n => do
    match (← r.node n).kind with
    | .step name => return name
    | _ => return "<" ++ nodeText n ++ ">"

/-- What stands behind the mnemonic of a node. -/
def labelText (r : Routine) (node : Node) : Query String :=
  match node.kind with
  | .define name sig _ => return s!" {name} " ++ sig.text
  | .step name => return s!" {name}"
  | .goto _ jump => return " " ++ (← r.jumpText jump)
  | .call _ sig => return " " ++ sig.text
  | _ => return (node.ty.map fun ty => " " ++ ty.text).getD ""

/-- One operand, given a way to print sub-expressions. -/
def operandText (r : Routine) (print : NodeId → Query String) : Operand → Query String
  | .lit value => return value.text
  | .var v => return (← r.var v).name
  | .node n => return "(" ++ (← print n) ++ ")"

/-- A node on one line. -/
def nodeTextWithin (r : Routine) : Nat → NodeId → Query String
  | 0, _ => .error .exhausted
  | fuel + 1, n => do
    let node ← r.node n
    let dest ← match node.dest with
      | some v => do pure ((← r.var v).name ++ " = ")
      | none => pure ""
    let label ← r.labelText node
    let args ← node.args.mapM (r.operandText (nodeTextWithin r fuel))
    let tail := args ++ (node.kind.branch?.toList.map fun b => toString b.depth)
    let separator := if tail.isEmpty then "" else " "
    return dest ++ node.kind.mnemonic ++ label ++ separator ++ String.intercalate ", " tail

/-- A node on one line, its sub-expressions in parentheses. -/
def nodeLine (r : Routine) (n : NodeId) : Query String := nodeTextWithin r r.nestFuel n

/-- The lines of the stream from a node up to the next closing node. -/
def strainLines (r : Routine) : Nat → Nat → Option NodeId → Query (List Line)
  | _, _, none => return []
  | 0, _, some _ => .error .exhausted
  | fuel + 1, depth, some n => do
    let node ← r.node n
    if node.kind.isClose then
      return []
    let head : Line := ⟨depth, ← r.nodeLine n⟩
    match node.kind.region? with
    | none => return head :: (← strainLines r fuel depth node.firstNext)
    | some region =>
      let body ← strainLines r fuel (depth + 1) node.firstNext
      let second ← match node.kind.isCond, node.next[1]? with
        | true, some first => do
          pure (⟨depth, "else"⟩ :: (← strainLines r fuel (depth + 1) (some first)))
        | _, _ => pure []
      let behind := (← r.node region.close).firstNext
      return head :: body ++ second ++ ⟨depth, "end"⟩ :: (← strainLines r fuel depth behind)

/-- The printed lines of a routine. -/
def lines (r : Routine) : Query (List Line) := strainLines r r.walkFuel 0 (some r.entry)

/-- The printed routine. -/
def text (r : Routine) : Query String :=
  return String.join ((← r.lines).map Line.render)

end Routine

end CoroutineIR
