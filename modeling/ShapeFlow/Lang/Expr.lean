/-
# Expressions

Expressions of the analysed language.  Each node carries a tag: nothing in an
expression as written, its number once its routine has been numbered.  Numbers
go in the order of a walk that meets a node before its operands and the
operands in the order they are evaluated, so an expression that starts at `n`
uses exactly `n`, …, `n + size - 1`.

Key definitions: `Expr`, `Expr.size`, `Expr.number`, `Expr.walk`.
Key theorems: `size_number`, `tags_number`.
-/
import ShapeFlow.Lang.Operator
import ShapeFlow.TypeSet

namespace ShapeFlow

/-- A literal.  The analysis only asks which kind it is. -/
inductive Literal where
  | null | bool | int | float | string
deriving DecidableEq, Inhabited

def Literal.types : Literal → TypeSet
  | null => .null
  | bool => .bool
  | int => .int
  | float => .float
  | string => .string

mutual

/-- An expression whose nodes are tagged with an `α`. -/
inductive Expr (α : Type) where
  | lit (tag : α) (kind : Literal)
  | var (tag : α) (name : String)
  | assign (tag : α) (target value : Expr α)
  /-- As in `target op= value`. -/
  | update (tag : α) (op : BinOp) (target value : Expr α)
  | step (tag : α) (op : Step) (target : Expr α)
  | binary (tag : α) (op : BinOp) (left right : Expr α)
  | unary (tag : α) (op : UnOp) (operand : Expr α)
  | cast (tag : α) (kind : Cast) (operand : Expr α)
  /-- As in `cond ? yes : no`. -/
  | choose (tag : α) (cond yes no : Expr α)
  /-- As in `cond ?: no`, which is `cond` itself if that holds. -/
  | orElse (tag : α) (cond no : Expr α)
  | call (tag : α) (name : String) (args : List (Expr α))
  | method (tag : α) (object : Expr α) (name : String) (args : List (Expr α))
  | new (tag : α) (className : String) (args : List (Expr α))
  | field (tag : α) (object : Expr α) (name : String)
  /-- As in `array[key]`. -/
  | item (tag : α) (array key : Expr α)
  /-- As in `array[]`, the place after the last element. -/
  | append (tag : α) (array : Expr α)
  | array (tag : α) (entries : List (Entry α))
  | instanceOf (tag : α) (operand : Expr α) (className : String)
  | isset (tag : α) (operands : List (Expr α))
  | concat (tag : α) (parts : List (Expr α))

/-- An entry of an array as written. -/
inductive Entry (α : Type) where
  | value (value : Expr α)
  | pair (key value : Expr α)

end

namespace Expr

variable {α : Type}

def tag : Expr α → α
  | lit t .. | var t .. | assign t .. | update t .. | step t .. | binary t .. | unary t ..
  | cast t .. | choose t .. | orElse t .. | call t .. | method t .. | new t .. | field t ..
  | item t .. | append t .. | array t .. | instanceOf t .. | isset t .. | concat t .. => t

/-- The name of a plain variable. -/
def varName? : Expr α → Option String
  | var _ name => some name
  | _ => none

def isNull : Expr α → Bool
  | lit _ .null => true
  | _ => false

end Expr

def Entry.operands {α : Type} : Entry α → List (Expr α)
  | value v => [v]
  | pair k v => [k, v]

/-- The immediate operands, in the order they are evaluated. -/
def Expr.operands {α : Type} : Expr α → List (Expr α)
  | lit .. | var .. => []
  | assign _ a b | update _ _ a b | binary _ _ a b | orElse _ a b | item _ a b => [a, b]
  | step _ _ a | unary _ _ a | cast _ _ a | field _ a _ | instanceOf _ a _ | append _ a => [a]
  | choose _ a b c => [a, b, c]
  | call _ _ args | new _ _ args | isset _ args | concat _ args => args
  | method _ a _ args => a :: args
  | array _ entries => entries.flatMap Entry.operands

/-! ### Size, numbers and the walk -/

mutual

/-- The number of nodes. -/
def Expr.size {α : Type} : Expr α → Nat
  | .lit .. | .var .. => 1
  | .assign _ a b | .update _ _ a b | .binary _ _ a b | .orElse _ a b | .item _ a b =>
    1 + a.size + b.size
  | .step _ _ a | .unary _ _ a | .cast _ _ a | .field _ a _ | .instanceOf _ a _ | .append _ a =>
    1 + a.size
  | .choose _ a b c => 1 + a.size + b.size + c.size
  | .call _ _ args | .new _ _ args | .isset _ args | .concat _ args => 1 + Expr.sizeAll args
  | .method _ a _ args => 1 + a.size + Expr.sizeAll args
  | .array _ entries => 1 + Entry.sizeAll entries

def Expr.sizeAll {α : Type} : List (Expr α) → Nat
  | [] => 0
  | e :: es => e.size + Expr.sizeAll es

def Entry.sizeAll {α : Type} : List (Entry α) → Nat
  | [] => 0
  | .value v :: es => v.size + Entry.sizeAll es
  | .pair k v :: es => k.size + v.size + Entry.sizeAll es

end

mutual

/-- The expression with its nodes numbered from `n`. -/
def Expr.number {α : Type} (n : Nat) : Expr α → Expr Nat
  | .lit _ kind => .lit n kind
  | .var _ name => .var n name
  | .assign _ a b => .assign n (a.number (n + 1)) (b.number (n + 1 + a.size))
  | .update _ op a b => .update n op (a.number (n + 1)) (b.number (n + 1 + a.size))
  | .step _ op a => .step n op (a.number (n + 1))
  | .binary _ op a b => .binary n op (a.number (n + 1)) (b.number (n + 1 + a.size))
  | .unary _ op a => .unary n op (a.number (n + 1))
  | .cast _ kind a => .cast n kind (a.number (n + 1))
  | .choose _ a b c =>
    .choose n (a.number (n + 1)) (b.number (n + 1 + a.size)) (c.number (n + 1 + a.size + b.size))
  | .orElse _ a b => .orElse n (a.number (n + 1)) (b.number (n + 1 + a.size))
  | .call _ name args => .call n name (Expr.numberAll (n + 1) args)
  | .method _ a name args =>
    .method n (a.number (n + 1)) name (Expr.numberAll (n + 1 + a.size) args)
  | .new _ name args => .new n name (Expr.numberAll (n + 1) args)
  | .field _ a name => .field n (a.number (n + 1)) name
  | .item _ a b => .item n (a.number (n + 1)) (b.number (n + 1 + a.size))
  | .append _ a => .append n (a.number (n + 1))
  | .array _ entries => .array n (Entry.numberAll (n + 1) entries)
  | .instanceOf _ a name => .instanceOf n (a.number (n + 1)) name
  | .isset _ args => .isset n (Expr.numberAll (n + 1) args)
  | .concat _ args => .concat n (Expr.numberAll (n + 1) args)

def Expr.numberAll {α : Type} (n : Nat) : List (Expr α) → List (Expr Nat)
  | [] => []
  | e :: es => e.number n :: Expr.numberAll (n + e.size) es

def Entry.numberAll {α : Type} (n : Nat) : List (Entry α) → List (Entry Nat)
  | [] => []
  | .value v :: es => .value (v.number n) :: Entry.numberAll (n + v.size) es
  | .pair k v :: es =>
    .pair (k.number n) (v.number (n + k.size)) :: Entry.numberAll (n + k.size + v.size) es

end

mutual

/-- The expression and everything inside it, a node before its operands. -/
def Expr.walk {α : Type} : Expr α → List (Expr α)
  | e@(.lit ..) | e@(.var ..) => [e]
  | e@(.assign _ a b) | e@(.update _ _ a b) | e@(.binary _ _ a b) | e@(.orElse _ a b)
  | e@(.item _ a b) => e :: (a.walk ++ b.walk)
  | e@(.step _ _ a) | e@(.unary _ _ a) | e@(.cast _ _ a) | e@(.field _ a _)
  | e@(.instanceOf _ a _) | e@(.append _ a) => e :: a.walk
  | e@(.choose _ a b c) => e :: (a.walk ++ b.walk ++ c.walk)
  | e@(.call _ _ args) | e@(.new _ _ args) | e@(.isset _ args) | e@(.concat _ args) =>
    e :: Expr.walkAll args
  | e@(.method _ a _ args) => e :: (a.walk ++ Expr.walkAll args)
  | e@(.array _ entries) => e :: Entry.walkAll entries

def Expr.walkAll {α : Type} : List (Expr α) → List (Expr α)
  | [] => []
  | e :: es => e.walk ++ Expr.walkAll es

def Entry.walkAll {α : Type} : List (Entry α) → List (Expr α)
  | [] => []
  | .value v :: es => v.walk ++ Entry.walkAll es
  | .pair k v :: es => k.walk ++ v.walk ++ Entry.walkAll es

end

/-- The variables an expression names, in order, with repetitions. -/
def Expr.names {α : Type} (e : Expr α) : List String := e.walk.filterMap Expr.varName?

/-! ### Numbering keeps the size -/

mutual

theorem Expr.size_number {α : Type} : ∀ (e : Expr α) (n : Nat), (e.number n).size = e.size
  | .lit .., _ | .var .., _ => rfl
  | .assign _ a b, _ | .update _ _ a b, _ | .binary _ _ a b, _ | .orElse _ a b, _
  | .item _ a b, _ => by
    simp only [Expr.number, Expr.size, a.size_number, b.size_number]
  | .step _ _ a, _ | .unary _ _ a, _ | .cast _ _ a, _ | .field _ a _, _ | .instanceOf _ a _, _
  | .append _ a, _ => by
    simp only [Expr.number, Expr.size, a.size_number]
  | .choose _ a b c, _ => by
    simp only [Expr.number, Expr.size, a.size_number, b.size_number, c.size_number]
  | .call _ _ args, _ | .new _ _ args, _ | .isset _ args, _ | .concat _ args, _ => by
    simp only [Expr.number, Expr.size, Expr.sizeAll_number args]
  | .method _ a _ args, _ => by
    simp only [Expr.number, Expr.size, a.size_number, Expr.sizeAll_number args]
  | .array _ entries, _ => by
    simp only [Expr.number, Expr.size, Entry.sizeAll_number entries]

theorem Expr.sizeAll_number {α : Type} :
    ∀ (es : List (Expr α)) (n : Nat), Expr.sizeAll (Expr.numberAll n es) = Expr.sizeAll es
  | [], _ => rfl
  | e :: es, _ => by
    simp only [Expr.numberAll, Expr.sizeAll, e.size_number, Expr.sizeAll_number es]

theorem Entry.sizeAll_number {α : Type} :
    ∀ (es : List (Entry α)) (n : Nat), Entry.sizeAll (Entry.numberAll n es) = Entry.sizeAll es
  | [], _ => rfl
  | .value v :: es, _ => by
    simp only [Entry.numberAll, Entry.sizeAll, v.size_number, Entry.sizeAll_number es]
  | .pair k v :: es, _ => by
    simp only [Entry.numberAll, Entry.sizeAll, k.size_number, v.size_number,
      Entry.sizeAll_number es]

end

/-! ### An expression numbered from `n` uses exactly the next `size` numbers, in order -/

theorem cons_range' (n k : Nat) : n :: List.range' (n + 1) k = List.range' n (1 + k) := by
  rw [Nat.add_comm 1 k, List.range'_succ]

theorem cons_range'_two (n a b : Nat) :
    n :: (List.range' (n + 1) a ++ List.range' (n + 1 + a) b) = List.range' n (1 + a + b) := by
  rw [List.range'_append_1, cons_range', Nat.add_assoc]

theorem cons_range'_three (n a b c : Nat) :
    n :: (List.range' (n + 1) a ++ List.range' (n + 1 + a) b ++ List.range' (n + 1 + a + b) c) =
      List.range' n (1 + a + b + c) := by
  rw [List.range'_append_1, Nat.add_assoc (n + 1) a b, cons_range'_two, Nat.add_assoc 1 a b]

theorem range'_append_two (n a b c : Nat) :
    List.range' n a ++ List.range' (n + a) b ++ List.range' (n + a + b) c =
      List.range' n (a + b + c) := by
  rw [List.range'_append_1, Nat.add_assoc n a b, List.range'_append_1]

mutual

theorem Expr.tags_number {α : Type} :
    ∀ (e : Expr α) (n : Nat), (e.number n).walk.map Expr.tag = List.range' n e.size
  | .lit .., _ | .var .., _ => rfl
  | .assign _ a b, n | .update _ _ a b, n | .binary _ _ a b, n | .orElse _ a b, n
  | .item _ a b, n => by
    simp only [Expr.number, Expr.walk, Expr.size, List.map_cons, List.map_append, Expr.tag,
      a.tags_number, b.tags_number, cons_range'_two]
  | .step _ _ a, n | .unary _ _ a, n | .cast _ _ a, n | .field _ a _, n | .instanceOf _ a _, n
  | .append _ a, n => by
    simp only [Expr.number, Expr.walk, Expr.size, List.map_cons, Expr.tag, a.tags_number,
      cons_range']
  | .choose _ a b c, n => by
    simp only [Expr.number, Expr.walk, Expr.size, List.map_cons, List.map_append, Expr.tag,
      a.tags_number, b.tags_number, c.tags_number, cons_range'_three]
  | .call _ _ args, n | .new _ _ args, n | .isset _ args, n | .concat _ args, n => by
    simp only [Expr.number, Expr.walk, Expr.size, List.map_cons, Expr.tag,
      Expr.tagsAll_number args, cons_range']
  | .method _ a _ args, n => by
    simp only [Expr.number, Expr.walk, Expr.size, List.map_cons, List.map_append, Expr.tag,
      a.tags_number, Expr.tagsAll_number args, cons_range'_two]
  | .array _ entries, n => by
    simp only [Expr.number, Expr.walk, Expr.size, List.map_cons, Expr.tag,
      Entry.tagsAll_number entries, cons_range']

theorem Expr.tagsAll_number {α : Type} : ∀ (es : List (Expr α)) (n : Nat),
    (Expr.walkAll (Expr.numberAll n es)).map Expr.tag = List.range' n (Expr.sizeAll es)
  | [], _ => rfl
  | e :: es, n => by
    simp only [Expr.numberAll, Expr.walkAll, Expr.sizeAll, List.map_append, e.tags_number,
      Expr.tagsAll_number es, List.range'_append_1]

theorem Entry.tagsAll_number {α : Type} : ∀ (es : List (Entry α)) (n : Nat),
    (Entry.walkAll (Entry.numberAll n es)).map Expr.tag = List.range' n (Entry.sizeAll es)
  | [], _ => rfl
  | .value v :: es, n => by
    simp only [Entry.numberAll, Entry.walkAll, Entry.sizeAll, List.map_append, v.tags_number,
      Entry.tagsAll_number es, List.range'_append_1]
  | .pair k v :: es, n => by
    simp only [Entry.numberAll, Entry.walkAll, Entry.sizeAll, List.map_append, k.tags_number,
      v.tags_number, Entry.tagsAll_number es, range'_append_two]

end

end ShapeFlow
