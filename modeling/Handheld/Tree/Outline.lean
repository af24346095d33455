import Handheld.Text.Outline
import Handheld.Text.Quoted
import Handheld.Tree.Basic

/-!
# Outlines of tokens and trees
-/

namespace Handheld

open Text

def Span.outline (s : Span) : Outline :=
  .record "Span" [("line", toString s.line), ("column", s!"{s.start}..{s.stop}")]

def Token.outline (t : Token) : Outline :=
  match t with
  | .whitespace n => .node t.kind [.leaf (toString n)]
  | .comment s => .node t.kind [.leaf (quotedString s)]
  | .number n => .node t.kind [.leaf (toString n.toNat)]
  | .var c => .node t.kind [.leaf (quotedChar c)]
  | .buffer b => .node t.kind [.leaf b.text]
  | .name s => .node t.kind [.leaf (quotedString s)]
  | .word w => .node t.kind [.leaf w.name]
  | .operator op => .node t.kind [.leaf op.name]
  | .modifier m => .node t.kind [.leaf m.name]
  | .command m => .node t.kind [.leaf m.name]
  | _ => .leaf t.kind

mutual

def Expr.outline : Expr → Outline
  | .number n => .node "Number" [.leaf (toString n.toInt)]
  | .var c => .node "Variable" [.leaf (quotedChar c)]
  | .buffer b => .node "Buffer" [.leaf b.text]
  | .deref address width => .node "Deref" [address.outline, .leaf width.name]
  | .addressOf target => .node "AddressOf" [target.outline]
  | .unary op operand => .node "Unary" [.leaf op.name, operand.outline]
  | .binary op lhs rhs => .node "Binary" [.leaf op.name, lhs.outline, rhs.outline]
  | .assign value target => .node "Assign" [value.outline, target.outline]
  | .increment target => .node "Increment" [target.outline]
  | .decrement target => .node "Decrement" [target.outline]
  | .getKey code => .node "GetKey" [code.outline]
  | .rand => .leaf "Rand"
  | .pxlTest surface x y => .node "PxlTest" [.leaf surface.name, x.outline, y.outline]

def Target.outline : Target → Outline
  | .var c => .node "Variable" [.leaf (quotedChar c)]
  | .pointer address width => .node "Pointer" [address.outline, .leaf width.name]

end

def Loop.outline : Loop → Outline
  | .whileTrue condition => .node "While" [condition.outline]
  | .repeatUntil condition => .node "Repeat" [condition.outline]
  | .count target first last => .node "For" [target.outline, first.outline, last.outline]
  | .times n => .node "Times" [n.outline]

def Command.outline : Command → Outline
  | .exit => .leaf "Exit"
  | .help => .leaf "Help"
  | .about => .leaf "About"
  | .debug flag => .node "Debug" [flag.outline]

mutual

def Stmt.outline : Stmt → Outline
  | .effect span e => .node "Expression" [span.outline, e.outline]
  | .disp span values => .node "Disp" [span.outline, .items (values.map Expr.outline)]
  | .pause span e => .node "Pause" [span.outline, e.outline]
  | .draw span graphic surface arguments =>
    .node "Draw" [span.outline, .leaf graphic.name, .leaf surface.name,
      .items (arguments.map Expr.outline)]
  | .dispGraph span shade => .node "DispGraph" [span.outline, .leaf shade.name]
  | .cond span condition yes no =>
    .node "If" [span.outline, condition.outline, .items (outlines yes), .items (outlines no)]
  | .loop span kind body => .node "Loop" [span.outline, kind.outline, .items (outlines body)]
  | .label span name => .node "Label" [span.outline, .leaf (quotedString name)]
  | .goto span name => .node "Goto" [span.outline, .leaf (quotedString name)]
  | .command span c => .node "Meta" [span.outline, c.outline]

def outlines : List Stmt → List Outline
  | [] => []
  | s :: ss => s.outline :: outlines ss

end

end Handheld
