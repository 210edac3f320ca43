import Lox.Proofs.Loops.Simulation

namespace Lox

open Resolve

structure ForLoop where
  initializer? : Option Stmt
  condition? : Option Expr
  increment? : Option Expr
  body : Stmt

namespace ForLoop

def tree (l : ForLoop) : Stmt := Parse.forLoop l.initializer? l.condition? l.increment? l.body

structure Written (l : ForLoop) : Prop where
  initial : ∀ s ∈ l.initializer?, s.Written
  tested : ∀ e ∈ l.condition?, e.Written
  counted : ∀ e ∈ l.increment?, e.Written
  repeated : l.body.Written
  bare : l.body.declares = false

/-- The scopes that the other clauses and the body stand in, as the statement is written: the scope of
    the initializer, if there is one, inside those around the statement. -/
def scopes (context : Context) (outer : List Names) (l : ForLoop) : List Names :=
  match l.initializer? with
  | none => outer
  | some initializer => (statement context ([] :: outer) initializer).scopes

def resolved (context : Context) (outer : List Names) (l : ForLoop) : ForLoop where
  initializer? := l.initializer?.map fun s => (statement context ([] :: outer) s).tree
  condition? := l.condition?.map fun e => (expression context (l.scopes context outer) e).1
  increment? := l.increment?.map fun e => (expression context (l.scopes context outer) e).1
  body := (statement context (l.scopes context outer) l.body).tree

section direct

variable (config : Config) (held : List Root) (l : ForLoop)

def test (steps : Nat) : Eval Bool :=
  match l.condition? with
  | none => pure true
  | some condition => do
    let value ← evaluate config steps held condition
    pure value.isTruthy

def advance (steps : Nat) : Eval Flow :=
  match l.increment? with
  | none => pure .normal
  | some increment => do
    let _ ← evaluate config steps held increment
    pure .normal

def round (steps : Nat) : Eval Flow := do
  match ← execute config steps held l.body with
  | .normal => l.advance config held steps
  | .returned value => pure (.returned value)

def rounds (l : ForLoop) : Nat → Eval Flow
  | 0 => Eval.cutOff
  | steps + 1 => do
    if ← l.test config held steps then
      match ← l.round config held steps with
      | .normal => rounds l steps
      | .returned value => pure (.returned value)
    else pure .normal

/-- Carries the statement out as it is written. The initializer runs once, in a scope that is made for
    it and left behind after the last round; all rounds run in that scope. -/
def run (steps : Nat) : Eval Flow :=
  match l.initializer? with
  | none => l.rounds config held steps
  | some initializer => do
    let scope ← Eval.innerScope []
    Eval.activation config held scope fun held => do
      match ← execute config steps held initializer with
      | .normal => l.rounds config held steps
      | .returned value => pure (.returned value)

end direct

/-- What the tree repeats in place of a body: the body, or a block of the body and the increment. -/
inductive Repeats (l : ForLoop) : Stmt → Prop where
  | body (none : l.increment? = none) : Repeats l l.body
  | both {increment increment' : Expr} {body : Stmt} (given : l.increment? = some increment)
      (repeated : body.Deepened (some 0) l.body) (counted : increment'.Deepened (some 0) increment) :
      Repeats l (.block [body, .expression increment'])

inductive Shape (l : ForLoop) : Stmt → Prop where
  | loop {body : Stmt} (none : l.initializer? = none) (repeats : l.Repeats body) :
      Shape l (.loop (l.condition?.getD (.literal (.bool true))) body)
  | block {initializer body : Stmt} (given : l.initializer? = some initializer)
      (repeats : l.Repeats body) :
      Shape l (.block [initializer, .loop (l.condition?.getD (.literal (.bool true))) body])

variable {l : ForLoop} {context : Context} {outer : List Names}

theorem plain_scopes (context : Context) (written : l.Written) (plain : Plain outer) :
    Plain (l.scopes context outer) := by
  unfold scopes
  cases given : l.initializer? with
  | none => exact plain
  | some initializer => exact plain_statement (written.initial _ given) (plain_inner outer)

def repeated (l : ForLoop) : Stmt :=
  match l.increment? with
  | none => l.body
  | some increment => .block [l.body, .expression increment]

theorem repeated_resolved (context : Context) (written : l.Written) (plain : Plain outer) :
    (l.resolved context outer).Repeats
      (statement context (l.scopes context outer) l.repeated).tree := by
  have inside := plain_scopes context written plain
  unfold repeated
  cases given : l.increment? with
  | none => exact .body (by simp [resolved, given])
  | some increment =>
    have bare := scopes_of_bare written.repeated written.bare context ([] :: l.scopes context outer)
    have body : (statement context ([] ++ [] :: l.scopes context outer) l.body).tree.Deepened _
        (statement context ([] ++ l.scopes context outer) l.body).tree :=
      statement_deepened written.repeated inside (.inr written.bare)
    have counted : (expression context ([] ++ [] :: l.scopes context outer) increment).1.Deepened _
        (expression context ([] ++ l.scopes context outer) increment).1 :=
      expression_deepened (written.counted increment given) inside
    rw [statement, statements, statements, statements]
    dsimp only
    rw [bare]
    exact .both (by simp [resolved, given]) body counted

theorem condition_resolved (l : ForLoop) (context : Context) (outer : List Names) : (expression context (l.scopes context outer)
    (l.condition?.getD (.literal (.bool true)))).1 =
      (l.resolved context outer).condition?.getD (.literal (.bool true)) := by
  unfold resolved
  cases l.condition? <;> rfl

/-- Each name in the tree of a `for` statement is resolved to what it is resolved to where it is
    written. -/
theorem tree_resolved (context : Context) (written : l.Written) (plain : Plain outer) :
    (l.resolved context outer).Shape (statement context outer l.tree).tree := by
  have repeats := repeated_resolved context written plain
  have tested := condition_resolved l context outer
  have whole : l.tree = match l.initializer? with
    | none => .loop (l.condition?.getD (.literal (.bool true))) l.repeated
    | some initializer =>
      .block [initializer, .loop (l.condition?.getD (.literal (.bool true))) l.repeated] := rfl
  rw [whole]
  cases given : l.initializer? with
  | none =>
    have same : l.scopes context outer = outer := by rw [scopes, given]
    rw [same] at repeats tested
    dsimp only
    rw [statement]
    dsimp only
    rw [tested]
    exact .loop (by simp [resolved, given]) repeats
  | some initializer =>
    have same : l.scopes context outer = (statement context ([] :: outer) initializer).scopes := by
      rw [scopes, given]
    rw [same] at repeats tested
    dsimp only
    rw [statement, statements, statements, statements, statement]
    dsimp only
    rw [tested]
    exact .block (by simp [resolved, given]) repeats

end ForLoop

namespace Parse

/-- The parser makes its tree of each `for` statement. -/
theorem forStatement_reads_tree (eof : Token) (s : List Token) :
    (forStatement eof s).Reads s fun ts t _ => Spelled ts → ∃ l : ForLoop, l.Written ∧ t = l.tree := by
  rw [forStatement]
  refine (expect_reads eof _ _ s).bind fun ts opening rest _ _ => ?_
  refine (forInitializer_reads eof rest).bind fun is initializer? rest _ initial => ?_
  refine (optionalExpression_reads eof _ _ rest).bind fun cs condition? rest _ tested => ?_
  refine (optionalExpression_reads eof _ _ rest).bind fun ns increment? rest _ counted => ?_
  refine (statement_reads eof True rest).map fun us body _ whole spelled => ?_
  obtain ⟨cs, semicolon, rfl, tested, -⟩ := tested
  obtain ⟨ns, closing, rfl, counted, -⟩ := counted
  obtain ⟨dangling, repeated, -⟩ := whole
  simp only [Spelled, List.forall_mem_append] at spelled
  obtain ⟨-, first, ⟨second, -⟩, ⟨third, -⟩, fourth⟩ := spelled
  have body := repeated.written fourth
  exact ⟨⟨initializer?, condition?, increment?, _⟩,
    ⟨initial.written first, tested.written second, counted.written third, body.1, body.2⟩, rfl⟩

end Parse
end Lox
