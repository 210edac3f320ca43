import Lox.Diagnostic
import Lox.Tree.Basic

namespace Lox

/-- The outcome of a rule. On success fewer than `bound` tokens are left, and never more than
    `bound`. Both outcomes hold the errors noted on the way, in order. -/
inductive Parsed (α : Type) (bound : Nat) where
  | ok (value : α) (rest : List Token) (noted : List SyntaxError) (lt : rest.length < bound)
  | error (cause : SyntaxError) (rest : List Token) (noted : List SyntaxError)
      (le : rest.length ≤ bound)

namespace Parsed

def within {α : Type} {m n : Nat} (h : m ≤ n) : Parsed α m → Parsed α n
  | ok value rest noted lt => .ok value rest noted (Nat.lt_of_lt_of_le lt h)
  | error cause rest noted le => .error cause rest noted (Nat.le_trans le h)

def after {α : Type} {n : Nat} (p : Parsed α n) : Parsed α (n + 1) := p.within (Nat.le_succ n)

def noting {α : Type} {n : Nat} (before : List SyntaxError) : Parsed α n → Parsed α n
  | ok value rest noted lt => .ok value rest (before ++ noted) lt
  | error cause rest noted le => .error cause rest (before ++ noted) le

def map {α β : Type} {n : Nat} (f : α → β) : Parsed α n → Parsed β n
  | ok value rest noted lt => .ok (f value) rest noted lt
  | error cause rest noted le => .error cause rest noted le

def mapNoting {α β : Type} {n : Nat} (f : α → β × List SyntaxError) : Parsed α n → Parsed β n
  | ok value rest noted lt => .ok (f value).1 rest (noted ++ (f value).2) lt
  | error cause rest noted le => .error cause rest noted le

/-- A rule, then one that takes at least one token more. -/
def bind {α β : Type} {n : Nat} (p : Parsed α n)
    (next : α → (rest : List Token) → rest.length < n → Parsed β rest.length) : Parsed β n :=
  match p with
  | ok value rest noted lt => ((next value rest lt).within (Nat.le_of_lt lt)).noting noted
  | error cause rest noted le => .error cause rest noted le

/-- A rule, then one that may take no token. -/
def extend {α β : Type} {n : Nat} (p : Parsed α n)
    (next : α → (rest : List Token) → rest.length < n → Parsed β (rest.length + 1)) :
    Parsed β n :=
  match p with
  | ok value rest noted lt => ((next value rest lt).within lt).noting noted
  | error cause rest noted le => .error cause rest noted le

end Parsed

def TokenKind.startsStatement (kind : TokenKind) : Bool :=
  kind ∈ [TokenKind.classWord, .funWord, .varWord, .forWord, .ifWord, .whileWord, .printWord,
    .returnWord]

/-- Passes over the token at fault and what follows it, up to the end of the statement or the start
    of another one. -/
def synchronize : List Token → List Token
  | [] => []
  | token :: rest =>
    if token.kind = .semicolon then rest
    else
      -- Only the tokens behind it are places to go on, even if this one starts a statement.
      match rest with
      | [] => []
      | next :: after =>
        if next.kind.startsStatement then next :: after else synchronize (next :: after)

theorem length_synchronize_le (tokens : List Token) :
    (synchronize tokens).length ≤ tokens.length - 1 := by
  fun_induction synchronize tokens with
  | case1 => simp
  | case2 => simp
  | case3 => simp
  | case4 => simp
  | case5 token _ next after _ ih => simp at ih ⊢; omega

/-- Turns a failure into an error noted; parsing goes on after the statement at fault, and there is
    at least one token less. -/
def Parsed.recover {α : Type} {n : Nat} (h : 0 < n) : Parsed α n → Parsed (Option α) n
  | ok value rest noted lt => .ok (some value) rest noted lt
  | error cause rest noted le =>
    .ok none (synchronize rest) (noted ++ [cause]) (by
      have := length_synchronize_le rest
      omega)

end Lox
