/-
# Control-flow graphs

The body of a routine as basic blocks.  A block runs its operations in order
and leaves by its exit; the edges out of it say where to, newest first.  Block 0
is the entry.
-/
import ShapeFlow.Lang.Expr

namespace ShapeFlow

/-- A step inside a block. -/
inductive Op (α : Type) where
  | eval (e : Expr α)
  | static (name : String) (init : Option (Expr α))
  | global (names : List String)
  | unset (names : List String)

/-- How control leaves a block. -/
inductive Exit (α : Type) where
  /-- Along the only edge. -/
  | fall
  /-- By the outcome of a condition. -/
  | branch (cond : Expr α)
  /-- Into the loop with the next key and value, or past it. -/
  | each (source : Expr α) (key : Option String) (value : String)
  /-- Out of the routine; without an expression the value is null. -/
  | ret (e : Option (Expr α))

/-- When an edge is taken. -/
inductive Label where
  | always | onTrue | onFalse
deriving DecidableEq, Inhabited

/-- A basic block. -/
structure Block (α : Type) where
  ops : List (Op α) := []
  exit : Exit α := .fall
  /-- The edges out of the block, the newest first. -/
  succs : List (Nat × Label) := []

instance {α : Type} : Inhabited (Block α) := ⟨{}⟩

/-- The blocks of a body, by index. -/
structure Graph (α : Type) where
  blocks : List (Block α) := []
  /-- How many expressions the body has, operands included. -/
  exprCount : Nat := 0

instance {α : Type} : Inhabited (Graph α) := ⟨{}⟩

namespace Op

variable {α : Type}

/-- The expressions of an operation. -/
def exprs : Op α → List (Expr α)
  | eval e => [e]
  | static _ init => init.toList
  | global _ | unset _ => []

/-- The variables an operation names, in order. -/
def names : Op α → List String
  | eval e => e.names
  | static name init => name :: init.toList.flatMap Expr.names
  | global names | unset names => names

end Op

namespace Exit

variable {α : Type}

def exprs : Exit α → List (Expr α)
  | fall => []
  | branch e => [e]
  | each source _ _ => [source]
  | ret e => e.toList

def names : Exit α → List String
  | fall => []
  | branch e => e.names
  | each source key value => source.names ++ key.toList ++ [value]
  | ret e => e.toList.flatMap Expr.names

end Exit

/-- The names of `l`, each where it is first mentioned. -/
def firstMentions (l : List String) : List String :=
  l.foldl (fun seen name => if seen.contains name then seen else seen ++ [name]) []

namespace Graph

variable {α : Type}

/-- Where every run starts. -/
def entry : Nat := 0

def size (g : Graph α) : Nat := g.blocks.length

/-- The edges out of a block. -/
def succs (g : Graph α) (b : Nat) : List (Nat × Label) := (g.blocks[b]?.map (·.succs)).getD []

/-- The expressions of the graph, block by block, without their operands. -/
def roots (g : Graph α) : List (Expr α) :=
  g.blocks.flatMap fun b => b.ops.flatMap Op.exprs ++ b.exit.exprs

/-- Every expression of the graph, a node before its operands. -/
def exprs (g : Graph α) : List (Expr α) := g.roots.flatMap Expr.walk

/-- The variables the graph names, in order of first mention. -/
def names (g : Graph α) : List String :=
  firstMentions (g.blocks.flatMap fun b => b.ops.flatMap Op.names ++ b.exit.names)

end Graph
end ShapeFlow
