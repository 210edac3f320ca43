import Lox.Program

namespace Lox

theorem mem_values_of_lookup {α β : Type} [BEq α] {entries : List (α × β)} {key : α} {value : β}
    (found : entries.lookup key = some value) : value ∈ entries.map Prod.snd := by
  induction entries with
  | nil => cases found
  | cons entry rest ih =>
    rw [List.lookup_cons] at found
    split at found
    · cases found
      exact List.mem_cons_self
    · exact List.mem_cons_of_mem _ (ih found)

namespace TokenKind

def isWord (kind : TokenKind) : Bool := kind ∈ identifier :: keywords.map Prod.snd

def symbols : List TokenKind :=
  [leftParen, rightParen, leftBrace, rightBrace, comma, dot, minus, plus, semicolon, slash, star,
    bang, bangEqual, equal, equalEqual, greater, greaterEqual, less, lessEqual]

theorem isWord_of_symbol : ∀ kind ∈ symbols, kind.isWord = false := by decide

theorem ofWord_ne_eof (word : String) : ofWord word ≠ eof := by
  have others : ∀ kind ∈ keywords.map Prod.snd, kind ≠ eof := by decide
  unfold ofWord
  cases found : keywords.lookup word with
  | none => decide
  | some kind => exact others kind (mem_values_of_lookup found)

end TokenKind

namespace Token

def Spelled (token : Token) : Prop :=
  token.kind.isWord = true → token.kind = .ofWord token.lexeme

def Plain (token : Token) : Prop := token.lexeme ≠ "this" ∧ token.lexeme ≠ "super"

variable {token : Token}

theorem spelled_of_kind (kind : token.kind.isWord = false) : token.Spelled := by
  intro word
  rw [kind] at word
  cases word

theorem Spelled.plain (spelled : token.Spelled) (kind : token.kind = .identifier) : token.Plain := by
  have same := spelled (by rw [kind]; decide)
  rw [kind] at same
  refine ⟨?_, ?_⟩ <;> intro word <;> rw [word] at same <;> revert same <;> decide

theorem Spelled.listed (spelled : token.Spelled) (word : token.kind.isWord = true)
    (keyword : token.kind ≠ .identifier) : (token.lexeme, token.kind) ∈ TokenKind.keywords := by
  have same := spelled word
  unfold TokenKind.ofWord at same
  cases found : TokenKind.keywords.lookup token.lexeme with
  | none =>
    rw [found] at same
    exact absurd same keyword
  | some kind =>
    rw [found] at same
    obtain ⟨before, after, whole, _⟩ := List.lookup_eq_some_iff.mp found
    rw [whole, same]
    exact List.mem_append_right _ List.mem_cons_self

theorem Spelled.this (spelled : token.Spelled) (kind : token.kind = .thisWord) :
    token.lexeme = "this" := by
  have listed := spelled.listed (by rw [kind]; decide) (by rw [kind]; decide)
  rw [kind] at listed
  simpa [TokenKind.keywords] using listed

theorem Spelled.super (spelled : token.Spelled) (kind : token.kind = .superWord) :
    token.lexeme = "super" := by
  have listed := spelled.listed (by rw [kind]; decide) (by rw [kind]; decide)
  rw [kind] at listed
  simpa [TokenKind.keywords] using listed

end Token

def Spelled (tokens : List Token) : Prop := ∀ token ∈ tokens, token.Spelled

theorem Spelled.head {token : Token} {rest : List Token} (spelled : Spelled (token :: rest)) :
    token.Spelled := spelled token List.mem_cons_self

theorem Spelled.tail {token : Token} {rest : List Token} (spelled : Spelled (token :: rest)) :
    Spelled rest := fun other member => spelled other (List.mem_cons_of_mem _ member)

namespace Scan

theorem single?_symbol {first : UInt8} {kind : TokenKind} (found : single? first = some kind) :
    kind ∈ TokenKind.symbols := by
  have member := mem_values_of_lookup found
  revert member
  generalize kind = k
  cases k <;> decide

theorem withEquals?_symbol {first : UInt8} {alone doubled : TokenKind}
    (found : withEquals? first = some (alone, doubled)) :
    alone ∈ TokenKind.symbols ∧ doubled ∈ TokenKind.symbols := by
  have member := mem_values_of_lookup found
  simp only [List.map_cons, List.map_nil, List.mem_cons, Prod.mk.injEq, List.not_mem_nil,
    or_false] at member
  rcases member with ⟨rfl, rfl⟩ | ⟨rfl, rfl⟩ | ⟨rfl, rfl⟩ | ⟨rfl, rfl⟩ <;> decide

/-- What is cut off as a token of a fixed kind is a symbol. -/
theorem front_symbol {first : UInt8} {rest : List UInt8} {kind : TokenKind} {length : Nat}
    (cut : front first rest = (.token kind, length)) : kind ∈ TokenKind.symbols := by
  unfold front at cut
  split at cut
  · rename_i found
    cases cut
    exact single?_symbol found
  · rename_i alone doubled _ found
    have symbols := withEquals?_symbol found
    split at cut <;> cases cut
    · exact symbols.2
    · exact symbols.1
  · dsimp only at cut
    repeat' split at cut
    all_goals cases cut
    decide

theorem yield_spelled {first : UInt8} {rest bytes : List UInt8} {piece : Piece} {length line : Nat}
    {token : Token} (cut : front first rest = (piece, length))
    (yields : piece.yield bytes line = some (.ok token)) : token.Spelled := by
  unfold Piece.yield at yields
  cases piece with
  | blank | newline | openString | stray => simp at yields
  | token kind =>
    cases yields
    exact Token.spelled_of_kind (TokenKind.isWord_of_symbol kind (front_symbol cut))
  | number | string =>
    cases yields
    exact Token.spelled_of_kind rfl
  | word =>
    cases yields
    exact fun _ => rfl

theorem scanFrom_spelled (line : Nat) (found : List Scanned) (source : List UInt8)
    (before : ∀ token, .ok token ∈ found → token.Spelled) :
    ∀ token, .ok token ∈ scanFrom line found source → token.Spelled := by
  fun_induction scanFrom line found source with
  | case1 line found =>
    intro token member
    rcases List.mem_cons.mp (List.mem_reverse.mp member) with same | old
    · cases same
      exact Token.spelled_of_kind rfl
    · exact before token old
  | case2 line found first rest piece length cut bytes line' found' ih =>
    refine ih fun token member => ?_
    dsimp only [found'] at member
    split at member
    · rename_i item yields
      rcases List.mem_cons.mp member with same | old
      · exact yield_spelled cut (yields.trans (congrArg some same.symm))
      · exact before token old
    · exact before token member

end Scan

theorem scanTokens_spelled (source : List UInt8) : Spelled (scanTokens source).1 := by
  intro token member
  obtain ⟨item, inside, same⟩ := List.mem_filterMap.mp member
  cases item with
  | error error => cases same
  | ok other =>
    cases same
    exact Scan.scanFrom_spelled 1 [] source (by simp) token inside

end Lox
