/-
# From statements to graphs

`Graph.ofBody?` lowers a body.  It keeps one open block, to which operations are
added; a statement that branches or jumps closes it and opens another.  Code
after a jump goes into a block that no edge leads to.
-/
import ShapeFlow.Fault
import ShapeFlow.Graph
import ShapeFlow.Lang.Stmt

namespace ShapeFlow
namespace Lower

variable {α : Type}

/-- The blocks made so far; a failing statement leaves none. -/
abbrev Draft (α : Type) := StateT (List (Block α)) (Except Fault)

/-- Where the jumps of a loop body lead. -/
structure Loop where
  header : Nat
  footer : Nat

/-- A new empty block. -/
def fresh : Draft α Nat := modifyGet fun bs => (bs.length, bs ++ [{}])

def update (b : Nat) (f : Block α → Block α) : Draft α Unit := modify (·.modify b f)

def addOp (b : Nat) (op : Op α) : Draft α Unit :=
  update b fun k => { k with ops := k.ops ++ [op] }

def setExit (b : Nat) (exit : Exit α) : Draft α Unit := update b fun k => { k with exit }

def addEdge (b dest : Nat) (label : Label) : Draft α Unit :=
  update b fun k => { k with succs := (dest, label) :: k.succs }

mutual

/-- Lowers a statement into the open block `b`; gives the block open after it. -/
def stmt (loop : Option Loop) : Stmt α → Nat → Draft α Nat
  | .eval e, b => do
    addOp b (.eval e)
    return b
  | .static name init, b => do
    addOp b (.static name init)
    return b
  | .global names, b => do
    addOp b (.global names)
    return b
  | .unset names, b => do
    addOp b (.unset names)
    return b
  | .block body, b => stmts loop body b
  | .branch cond yes no, b => do
    setExit b (.branch cond)
    let first ← fresh
    let last ← stmts loop yes first
    let after ← fresh
    addEdge b first .onTrue
    addEdge last after .always
    if no.isEmpty then
      addEdge b after .onFalse
    else
      let first ← fresh
      let last ← stmts loop no first
      addEdge b first .onFalse
      addEdge last after .always
    return after
  | .loop cond body, b => do
    let header ← fresh
    let footer ← fresh
    addEdge b header .always
    setExit header (.branch cond)
    let first ← fresh
    let last ← stmts (some ⟨header, footer⟩) body first
    addEdge header first .onTrue
    addEdge header footer .onFalse
    addEdge last header .always
    return footer
  | .each source key value body, b => do
    let header ← fresh
    let footer ← fresh
    addEdge b header .always
    setExit header (.each source key value)
    let first ← fresh
    let last ← stmts (some ⟨header, footer⟩) body first
    addEdge header first .onTrue
    addEdge header footer .onFalse
    addEdge last header .always
    return footer
  | .ret e, b => do
    setExit b (.ret e)
    fresh
  | .leave, b =>
    match loop with
    | some l => do
      addEdge b l.footer .always
      fresh
    | none => throw .breakOutsideLoop
  | .next, b =>
    match loop with
    | some l => do
      addEdge b l.header .always
      fresh
    | none => throw .continueOutsideLoop

/-- Lowers statements one after the other. -/
def stmts (loop : Option Loop) : List (Stmt α) → Nat → Draft α Nat
  | [], b => return b
  | s :: ss, b => do
    let b ← stmt loop s b
    stmts loop ss b

end

/-- Lowers a body; a block that falls off its end returns null. -/
def body (ss : List (Stmt α)) : Draft α Unit := do
  let first ← fresh
  let last ← stmts none ss first
  update last fun k =>
    match k.exit with
    | .fall => { k with exit := .ret none }
    | _ => k

end Lower

/-- The graph of a body.  Fails if a jump is in no loop. -/
def Graph.ofBody? {α : Type} (ss : List (Stmt α)) : Except Fault (Graph α) := do
  let ((), blocks) ← (Lower.body ss).run []
  return { blocks, exprCount := Stmt.sizeAll ss }

/-- The graph of a body, its expressions numbered in the order of the text. -/
def Graph.ofSource? (ss : List (Stmt Unit)) : Except Fault (Graph Nat) :=
  Graph.ofBody? (Stmt.numberAll 0 ss)

end ShapeFlow
