import Mathlib.Computability.Language
import Lox.Proofs.Syntax.Completeness

namespace Lox

inductive Rule where
  | program | declaration | classDeclaration | functionDeclaration | variableDeclaration
  | function | parameters
  | statement | expressionStatement | forStatement | ifStatement | printStatement
  | returnStatement | whileStatement | block
  | expression | assignment | level (level : Parse.Level) | unary | call | arguments | primary
  deriving DecidableEq

inductive Phrase where
  | empty
  | tokens (kinds : List TokenKind)
  | rule (name : Rule)
  | seq (first second : Phrase)
  | either (first second : Phrase)
  | many (inner : Phrase)
  deriving DecidableEq

namespace Phrase

abbrev token (kind : TokenKind) : Phrase := tokens [kind]

abbrev optional (p : Phrase) : Phrase := either p empty

def row : List Phrase → Phrase
  | [] => empty
  | [p] => p
  | p :: rest => seq p (row rest)

def oneOf : List Phrase → Phrase
  | [] => empty
  | [p] => p
  | p :: rest => either p (oneOf rest)

end Phrase

open Phrase (row oneOf token tokens rule many optional)

def Rule.body : Rule → Phrase
  | program => row [many (rule declaration), token .eof]
  | declaration => oneOf [rule classDeclaration, rule functionDeclaration,
      rule variableDeclaration, rule statement]
  | classDeclaration => row [token .classWord, token .identifier,
      optional (row [token .less, token .identifier]), token .leftBrace, many (rule function),
      token .rightBrace]
  | functionDeclaration => row [token .funWord, rule function]
  | variableDeclaration => row [token .varWord, token .identifier,
      optional (row [token .equal, rule expression]), token .semicolon]
  | function => row [token .identifier, token .leftParen, optional (rule parameters),
      token .rightParen, rule block]
  | parameters => row [token .identifier, many (row [token .comma, token .identifier])]
  | statement => oneOf [rule expressionStatement, rule forStatement, rule ifStatement,
      rule printStatement, rule returnStatement, rule whileStatement, rule block]
  | expressionStatement => row [rule expression, token .semicolon]
  | forStatement => row [token .forWord, token .leftParen,
      oneOf [rule variableDeclaration, rule expressionStatement, token .semicolon],
      optional (rule expression), token .semicolon, optional (rule expression), token .rightParen,
      rule statement]
  | ifStatement => row [token .ifWord, token .leftParen, rule expression, token .rightParen,
      rule statement, optional (row [token .elseWord, rule statement])]
  | printStatement => row [token .printWord, rule expression, token .semicolon]
  | returnStatement => row [token .returnWord, optional (rule expression), token .semicolon]
  | whileStatement => row [token .whileWord, token .leftParen, rule expression,
      token .rightParen, rule statement]
  | block => row [token .leftBrace, many (rule declaration), token .rightBrace]
  | expression => rule assignment
  | assignment => oneOf [row [rule (level .or), token .equal, rule assignment], rule (level .or)]
  | level .or => row [rule (level .and), many (row [token .orWord, rule (level .and)])]
  | level .and => row [rule (level .equality), many (row [token .andWord, rule (level .equality)])]
  | level .equality => row [rule (level .comparison),
      many (row [tokens [.bangEqual, .equalEqual], rule (level .comparison)])]
  | level .comparison => row [rule (level .term),
      many (row [tokens [.greater, .greaterEqual, .less, .lessEqual], rule (level .term)])]
  | level .term => row [rule (level .factor),
      many (row [tokens [.minus, .plus], rule (level .factor)])]
  | level .factor => row [rule unary, many (row [tokens [.slash, .star], rule unary])]
  | unary => oneOf [row [tokens [.bang, .minus], rule unary], rule call]
  | call => row [rule primary, many (oneOf [
      row [token .leftParen, optional (rule arguments), token .rightParen],
      row [token .dot, token .identifier]])]
  | arguments => row [rule expression, many (row [token .comma, rule expression])]
  | primary => oneOf [tokens [.number, .string, .trueWord, .falseWord, .nilWord, .thisWord,
      .identifier], row [token .leftParen, rule expression, token .rightParen],
      row [token .superWord, token .dot, token .identifier]]

inductive Derives : Phrase → List TokenKind → Prop where
  | empty : Derives .empty []
  | token {kinds : List TokenKind} {kind : TokenKind} (member : kind ∈ kinds) :
      Derives (.tokens kinds) [kind]
  | rule {name : Rule} {w : List TokenKind} (inner : Derives name.body w) : Derives (.rule name) w
  | seq {p q : Phrase} {v w : List TokenKind} (first : Derives p v) (second : Derives q w) :
      Derives (.seq p q) (v ++ w)
  | first {p q : Phrase} {w : List TokenKind} (chosen : Derives p w) : Derives (.either p q) w
  | second {p q : Phrase} {w : List TokenKind} (chosen : Derives q w) : Derives (.either p q) w
  | none {p : Phrase} : Derives (.many p) []
  | more {p : Phrase} {v w : List TokenKind} (first : Derives p v) (others : Derives (.many p) w) :
      Derives (.many p) (v ++ w)

namespace Phrase

def language (p : Phrase) : Language TokenKind := {w | Derives p w}

theorem mem_language {p : Phrase} {w : List TokenKind} : w ∈ p.language ↔ Derives p w := Iff.rfl

theorem language_empty : empty.language = 1 := by
  ext w
  rw [mem_language, Language.mem_one]
  constructor
  · rintro ⟨⟩
    rfl
  · rintro rfl
    exact .empty

theorem language_rule (name : Rule) : (rule name).language = name.body.language := by
  ext w
  rw [mem_language, mem_language]
  constructor
  · rintro ⟨⟩
    assumption
  · exact .rule

theorem language_seq (p q : Phrase) : (seq p q).language = p.language * q.language := by
  ext w
  rw [mem_language, Language.mem_mul]
  constructor
  · rintro ⟨⟩
    exact ⟨_, ‹_›, _, ‹_›, rfl⟩
  · rintro ⟨v, first, w, second, rfl⟩
    exact .seq first second

theorem language_seq_assoc {p q r : Phrase} :
    (seq (seq p q) r).language = (seq p (seq q r)).language := by
  simp only [language_seq, mul_assoc]

theorem language_either (p q : Phrase) : (either p q).language = p.language + q.language := by
  ext w
  rw [mem_language, Language.mem_add]
  constructor
  · rintro ⟨⟩
    · exact .inl ‹_›
    · exact .inr ‹_›
  · rintro (chosen | chosen)
    · exact .first chosen
    · exact .second chosen

theorem language_many (p : Phrase) :
    (many p).language = 1 + p.language * (many p).language := by
  ext w
  rw [mem_language, Language.mem_add, Language.mem_one, Language.mem_mul]
  constructor
  · rintro ⟨⟩
    · exact .inl rfl
    · exact .inr ⟨_, ‹_›, _, ‹_›, rfl⟩
  · rintro (rfl | ⟨v, first, w, others, rfl⟩)
    · exact .none
    · exact .more first others

theorem mem_oneOf {ps : List Phrase} {p : Phrase} (some : p ∈ ps) {w : List TokenKind} :
    w ∈ (oneOf ps).language ↔ ∃ q ∈ ps, w ∈ q.language := by
  induction ps generalizing p with
  | nil => cases some
  | cons first rest ih =>
    cases rest with
    | nil => simp [oneOf]
    | cons next rest =>
      have split : (oneOf (first :: next :: rest)).language =
          first.language + (oneOf (next :: rest)).language := language_either _ _
      rw [split, Language.mem_add, ih List.mem_cons_self]
      simp only [List.mem_cons, exists_eq_or_imp]

/-- Whether nothing makes up the phrase. No rule stands for nothing. -/
def nullable : Phrase → Bool
  | empty | many _ => true
  | tokens _ | rule _ => false
  | seq p q => p.nullable && q.nullable
  | either p q => p.nullable || q.nullable

end Phrase

namespace Rule

open TokenKind

def primaryStarts : List TokenKind :=
  [number, string, trueWord, falseWord, nilWord, thisWord, identifier, leftParen, superWord]

def expressionStarts : List TokenKind := bang :: minus :: primaryStarts

def statementStarts : List TokenKind :=
  [forWord, ifWord, printWord, returnWord, whileWord, leftBrace] ++ expressionStarts

def declarationStarts : List TokenKind := [classWord, funWord, varWord] ++ statementStarts

def starts : Rule → List TokenKind
  | program => eof :: declarationStarts
  | declaration => declarationStarts
  | classDeclaration => [classWord]
  | functionDeclaration => [funWord]
  | variableDeclaration => [varWord]
  | function | parameters => [identifier]
  | statement => statementStarts
  | forStatement => [forWord]
  | ifStatement => [ifWord]
  | printStatement => [printWord]
  | returnStatement => [returnWord]
  | whileStatement => [whileWord]
  | block => [leftBrace]
  | expressionStatement | expression | assignment | level _ | unary | arguments =>
    expressionStarts
  | call | primary => primaryStarts

end Rule

namespace Phrase

def starts : Phrase → List TokenKind
  | empty => []
  | tokens kinds => kinds
  | rule name => name.starts
  | seq p q => p.starts ++ if p.nullable then q.starts else []
  | either p q => p.starts ++ q.starts
  | many p => p.starts

end Phrase

namespace Rule

theorem starts_body (name : Rule) :
    name.body.nullable = false ∧ ∀ kind ∈ name.body.starts, kind ∈ name.starts := by
  cases name with
  | level l => cases l <;> decide
  | _ => decide

end Rule

theorem Derives.starts {p : Phrase} {w : List TokenKind} (derives : Derives p w) :
    (w = [] ∧ p.nullable = true) ∨ ∃ kind ∈ p.starts, ∃ v, w = kind :: v := by
  induction derives with
  | empty | none => exact .inl ⟨rfl, rfl⟩
  | token member => exact .inr ⟨_, member, [], rfl⟩
  | @rule name w inner ih =>
    obtain ⟨never, inside⟩ := name.starts_body
    rcases ih with ⟨-, null⟩ | ⟨kind, member, same⟩
    · rw [never] at null
      cases null
    · exact .inr ⟨kind, inside kind member, same⟩
  | seq first second ih ih' =>
    rcases ih with ⟨rfl, null⟩ | ⟨kind, member, v, rfl⟩
    · rcases ih' with ⟨rfl, null'⟩ | ⟨kind, member, v, rfl⟩
      · exact .inl ⟨rfl, by rw [Phrase.nullable, null, null']; rfl⟩
      · refine .inr ⟨kind, List.mem_append_right _ ?_, v, rfl⟩
        rwa [if_pos null]
    · exact .inr ⟨kind, List.mem_append_left _ member, _, rfl⟩
  | first chosen ih =>
    rcases ih with ⟨rfl, null⟩ | ⟨kind, member, same⟩
    · exact .inl ⟨rfl, by rw [Phrase.nullable, null]; rfl⟩
    · exact .inr ⟨kind, List.mem_append_left _ member, same⟩
  | second chosen ih =>
    rcases ih with ⟨rfl, null⟩ | ⟨kind, member, same⟩
    · exact .inl ⟨rfl, by rw [Phrase.nullable, null, Bool.or_true]⟩
    · exact .inr ⟨kind, List.mem_append_right _ member, same⟩
  | more first others ih ih' =>
    rcases ih with ⟨rfl, -⟩ | ⟨kind, member, v, rfl⟩
    · exact ih'
    · exact .inr ⟨kind, member, _, rfl⟩

namespace Phrase

/-- A phrase with something after it starts as the phrase does, or else the phrase is nothing. -/
theorem start_of_mem {p : Phrase} {kind : TokenKind} {w : List TokenKind} {K : Language TokenKind}
    (member : kind :: w ∈ p.language * K) :
    kind ∈ p.starts ∨ p.nullable = true ∧ kind :: w ∈ K := by
  obtain ⟨v, derives, w', after, whole⟩ := Language.mem_mul.mp member
  rcases Derives.starts derives with ⟨rfl, null⟩ | ⟨first, starts, v', rfl⟩
  · exact .inr ⟨null, whole ▸ after⟩
  · cases whole
    exact .inl starts

def isMade (known : List Rule) : Phrase → Bool
  | empty | many _ => true
  | tokens kinds => !kinds.isEmpty
  | rule name => name ∈ known
  | seq p q => p.isMade known && q.isMade known
  | either p q => p.isMade known || q.isMade known

theorem exists_of_isMade {known : List Rule} {p : Phrase}
    (before : ∀ name ∈ known, ∃ w, w ∈ (rule name).language) (made : p.isMade known = true) :
    ∃ w, w ∈ p.language := by
  induction p with
  | empty => exact ⟨[], .empty⟩
  | many p ih => exact ⟨[], .none⟩
  | tokens kinds =>
    cases kinds with
    | nil => cases made
    | cons kind rest => exact ⟨[kind], .token List.mem_cons_self⟩
  | rule name => exact before name (of_decide_eq_true made)
  | seq p q ih ih' =>
    obtain ⟨made, made'⟩ := Bool.and_eq_true_iff.mp made
    obtain ⟨v, first⟩ := ih made
    obtain ⟨w, second⟩ := ih' made'
    exact ⟨v ++ w, .seq first second⟩
  | either p q ih ih' =>
    rcases Bool.or_eq_true_iff.mp made with made | made
    · obtain ⟨w, chosen⟩ := ih made
      exact ⟨w, .first chosen⟩
    · obtain ⟨w, chosen⟩ := ih' made
      exact ⟨w, .second chosen⟩

def isOrdered (known : List Rule) : List Rule → Bool
  | [] => true
  | name :: rest => name.body.isMade known && isOrdered (name :: known) rest

theorem exists_of_isOrdered {known names : List Rule}
    (before : ∀ name ∈ known, ∃ w, w ∈ (rule name).language)
    (ordered : isOrdered known names = true) :
    ∀ name ∈ names, ∃ w, w ∈ (rule name).language := by
  induction names generalizing known with
  | nil => exact List.forall_mem_nil _
  | cons name rest ih =>
    obtain ⟨made, ordered⟩ := Bool.and_eq_true_iff.mp ordered
    obtain ⟨w, inner⟩ := exists_of_isMade before made
    have here : ∃ w, w ∈ (rule name).language := ⟨w, .rule inner⟩
    exact List.forall_mem_cons.mpr ⟨here, ih (List.forall_mem_cons.mpr ⟨here, before⟩) ordered⟩

end Phrase

def Rule.all : List Rule :=
  [primary, call, unary, level .factor, level .term, level .comparison, level .equality,
    level .and, level .or, assignment, expression, arguments, parameters, block, function,
    variableDeclaration, expressionStatement, printStatement, returnStatement, statement,
    whileStatement, ifStatement, forStatement, functionDeclaration, classDeclaration, declaration,
    program]

/-- Every rule can be made up. -/
theorem Rule.exists_word (name : Rule) : ∃ w, w ∈ (Phrase.rule name).language := by
  have ordered : Phrase.isOrdered [] all = true := by decide
  refine Phrase.exists_of_isOrdered (List.forall_mem_nil _) ordered name ?_
  cases name with
  | level l => cases l <;> decide
  | _ => decide

theorem Phrase.exists_word (p : Phrase) (made : p.isMade Rule.all = true) :
    ∃ w, w ∈ p.language :=
  exists_of_isMade (fun name _ => name.exists_word) made

end Lox
