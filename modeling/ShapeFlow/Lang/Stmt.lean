/-
# Statements and declarations

Bodies of routines as written.  Numbering a body numbers its expressions in
the order of the text.
-/
import ShapeFlow.Hint
import ShapeFlow.Lang.Expr

namespace ShapeFlow

/-- A statement over expressions tagged with an `α`. -/
inductive Stmt (α : Type) where
  | eval (e : Expr α)
  | block (body : List (Stmt α))
  | branch (cond : Expr α) (yes no : List (Stmt α))
  | loop (cond : Expr α) (body : List (Stmt α))
  /-- Runs the body for each element of `source`. -/
  | each (source : Expr α) (key : Option String) (value : String) (body : List (Stmt α))
  | ret (e : Option (Expr α))
  /-- Leaves the innermost loop. -/
  | leave
  /-- Goes on with the next turn of the innermost loop. -/
  | next
  /-- A variable that keeps its value from call to call. -/
  | static (name : String) (init : Option (Expr α))
  | global (names : List String)
  | unset (names : List String)

mutual

/-- The number of expression nodes in a statement. -/
def Stmt.size {α : Type} : Stmt α → Nat
  | .eval e => e.size
  | .block body => Stmt.sizeAll body
  | .branch c yes no => c.size + Stmt.sizeAll yes + Stmt.sizeAll no
  | .loop c body => c.size + Stmt.sizeAll body
  | .each s _ _ body => s.size + Stmt.sizeAll body
  | .ret e | .static _ e => (e.map Expr.size).getD 0
  | .leave | .next | .global _ | .unset _ => 0

def Stmt.sizeAll {α : Type} : List (Stmt α) → Nat
  | [] => 0
  | s :: ss => s.size + Stmt.sizeAll ss

end

mutual

/-- The statement with its expressions numbered from `n`. -/
def Stmt.number {α : Type} (n : Nat) : Stmt α → Stmt Nat
  | .eval e => .eval (e.number n)
  | .block body => .block (Stmt.numberAll n body)
  | .branch c yes no =>
    .branch (c.number n) (Stmt.numberAll (n + c.size) yes)
      (Stmt.numberAll (n + c.size + Stmt.sizeAll yes) no)
  | .loop c body => .loop (c.number n) (Stmt.numberAll (n + c.size) body)
  | .each s key value body => .each (s.number n) key value (Stmt.numberAll (n + s.size) body)
  | .ret e => .ret (e.map (Expr.number n))
  | .leave => .leave
  | .next => .next
  | .static name init => .static name (init.map (Expr.number n))
  | .global names => .global names
  | .unset names => .unset names

def Stmt.numberAll {α : Type} (n : Nat) : List (Stmt α) → List (Stmt Nat)
  | [] => []
  | s :: ss => s.number n :: Stmt.numberAll (n + s.size) ss

end

/-- A parameter as written. -/
structure ParamDecl where
  name : String
  hint : Option Hint := none
  /-- The type a comment gives it. -/
  doc : Option Hint := none
  byRef : Bool := false
  default : Option (Expr Unit) := none

/-- A routine as written. -/
structure RoutineDecl where
  name : String
  params : List ParamDecl := []
  body : List (Stmt Unit) := []
  /-- Code that is not part of the program may call it. -/
  exported : Bool := true

end ShapeFlow
