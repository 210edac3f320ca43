import Mathlib
import Lox.Proofs.Syntax.Followed

namespace Lox

open Phrase (token rule many)

def Closing : Language TokenKind → Prop := Heads (· = .eof)

/-- Some program starts with tokens of these kinds. -/
def Viable (ks : List TokenKind) : Prop := ∃ w, ks ++ w ∈ (rule .program).language

theorem Phrase.language_program : (rule .program).language =
    (many (rule .declaration)).language * (token .eof).language :=
  (language_rule .program).trans (language_seq _ _)

theorem closing_eof : Closing (token .eof).language := by
  rintro kind w ⟨⟩
  rename_i member
  exact List.mem_singleton.mp member

theorem Viable.of_append {ks : List TokenKind} (more : List TokenKind)
    (viable : Viable (ks ++ more)) : Viable ks := by
  obtain ⟨w, derives⟩ := viable
  exact ⟨more ++ w, List.append_assoc ks more w ▸ derives⟩

theorem mem_program {ks : List TokenKind} (declared : ks ∈ (many (rule .declaration)).language) :
    ks ++ [.eof] ∈ (rule .program).language := by
  rw [Phrase.language_program]
  exact Language.mem_mul.mpr ⟨ks, declared, [.eof], .token List.mem_cons_self, rfl⟩

theorem not_viable {ks : List TokenKind} {next : TokenKind}
    (stuck : Stuck Closing (many (rule .declaration)) ks next) : ¬ Viable (ks ++ [next]) := by
  rintro ⟨w, derives⟩
  rw [List.append_assoc, Phrase.language_program] at derives
  exact stuck.never _ closing_eof w derives

namespace Parse

/-- The loop over declarations follows the grammar up to the end of input. -/
theorem declarations_tracks {eof : Token} (ends : eof.kind = .eof) (s : List Token)
    (only : ∀ token ∈ s, token.kind ≠ .eof) :
    (Parsed.ok (declarations eof s).1 [] (declarations eof s).2 Nat.zero_lt_one :
      Parsed (List Stmt) 1).Tracks eof Closing (many (rule .declaration)) s := by
  rw [declarations.eq_def]
  split
  · exact .nothing (by rw [List.headD_nil, ends]; decide) .none
  · rename_i token rest
    obtain ⟨statement?, after, noted, lt, ended, forward⟩ := exists_turn eof token rest
    have first := (declaration_tracks ends (token :: rest)).recover (h := Nat.succ_pos _)
    rw [ended] at first ⊢
    have left : after <:+ token :: rest := forward.trans (List.suffix_cons token rest)
    have later := (declarations_tracks ends after fun other member =>
      only other (left.subset member)).map (f := (statement?.toList ++ ·))
    have inner (K : Language TokenKind) (closing : Closing K) :
        Elseless ((many (rule .declaration)).language * K) := by
      refine Phrase.heads_mul (by decide) fun _ kind w member => ?_
      rw [closing kind w member]
      decide
    refine .narrow (p := .seq (rule .declaration) (many (rule .declaration))) (fun valued => ?_)
      (.more fun K closing w member => only token List.mem_cons_self (closing _ w member))
    exact Parsed.Tracks.onward ((first valued).imp_left And.left) later rfl inner valued
termination_by s.length

end Parse

open Parse (Ended untilEnd_of_ended)

def syntaxErrors (tokens : List Token) : List SyntaxError :=
  match parse tokens with
  | .ok _ => []
  | .error errors => errors

theorem syntaxErrors_of_untilEnd {tokens before : List Token} {eof : Token}
    (read : Parse.untilEnd tokens = .ok (before, eof)) :
    syntaxErrors tokens = (Parse.declarations eof before).2 := by
  unfold syntaxErrors
  rw [parse_of_untilEnd read]
  by_cases none : (Parse.declarations eof before).2 = []
  · rw [if_pos none, none]
  · rw [if_neg none]

/-- The first structural error says that some program starts with the tokens before `next`, but none
    with those up to it. -/
structure Located (before : List Token) (first : SyntaxError) (done : List Token) (next : Token)
    (rest : List Token) : Prop where
  split : before = done ++ next :: rest
  viable : Viable (kinds done)
  ends : ¬ Viable (kinds (done ++ [next]))
  token : first.token = next

theorem headD_append_tail (eof : Token) (s : List Token) :
    s ++ [eof] = s.headD eof :: (s ++ [eof]).tail := by
  cases s <;> rfl

section

variable {eof : Token} {before rest : List Token} {errors : List SyntaxError}

theorem Went.mem_program (ends : eof.kind = .eof)
    (went : Went eof Closing (many (rule .declaration)) before errors []) :
    kinds (before ++ [eof]) ∈ (rule .program).language := by
  obtain ⟨ts, whole, -, passed⟩ := went
  rw [List.append_nil] at whole
  rw [whole, kinds_append]
  have declared := Lox.mem_program passed.mem
  rwa [← ends] at declared

/-- The first error at which the declarations got stuck is where no program goes on. -/
theorem Strayed.located
    (strayed : Strayed eof Closing (many (rule .declaration)) before errors rest) :
    ∃ first done next rest, errors.find? (·.isStructural) = some first ∧
      Located (before ++ [eof]) first done next rest ∧
      ∀ e ∈ errors, e.isStructural = true → e.token ∈ next :: rest := by
  obtain ⟨ts, here, e, rfl, fault, stuck, -⟩ := strayed
  have head := headD_append_tail eof here
  refine ⟨e, ts, here.headD eof, (here ++ [eof]).tail, fault.first, ⟨?_, ?_, ?_, fault.token⟩,
    head ▸ fault.inside⟩
  · rw [List.append_assoc, ← head]
  · obtain ⟨w, derives⟩ := stuck.viable
    exact ⟨w ++ [.eof], List.append_assoc _ w _ ▸ mem_program derives⟩
  · rw [kinds_append]
    exact not_viable stuck

/-- A viable start of the tokens ends before the error. -/
theorem Located.suffix {first : SyntaxError} {done started later : List Token} {next : Token}
    (located : Located before first done next rest) (whole : before = started ++ later)
    (viable : Viable (kinds started)) : next :: rest <:+ later := by
  obtain ⟨split, -, ends, -⟩ := located
  rw [split] at whole
  rcases List.append_eq_append_iff.mp whole with ⟨more, rfl, same⟩ | ⟨more, -, rfl⟩
  · cases more with
    | nil => exact ⟨[], same⟩
    | cons token more =>
      cases same
      refine absurd (Viable.of_append (kinds more) ?_) ends
      rwa [← kinds_append, List.append_assoc]
  · exact List.suffix_append more _

end

/-- Of all tokens up to the first end of input the parser finds a structural error if and only if
    they are no program of the grammar. The first such error is at the token before which some
    program goes on, but not after it, and says its line and place. No such error is among tokens
    that a program could start with. -/
theorem parse_locates (tokens : List Token) (ended : Ended tokens) (valued : Valued tokens) :
    ∃ before eof after, tokens = before ++ eof :: after ∧ eof.kind = .eof ∧
      (∀ token ∈ before, token.kind ≠ .eof) ∧
      ((∃ e ∈ syntaxErrors tokens, e.isStructural = true) ↔
        kinds (before ++ [eof]) ∉ (rule .program).language) ∧
      (∀ first ∈ (syntaxErrors tokens).find? (·.isStructural), ∃ done next rest,
        Located (before ++ [eof]) first done next rest ∧
        (StaticError.grammatical first).line = next.line ∧
        (StaticError.grammatical first).place = next.place) ∧
      ∀ started later, before ++ [eof] = started ++ later → Viable (kinds started) →
        ∀ e ∈ syntaxErrors tokens, e.isStructural = true → e.token ∈ later := by
  obtain ⟨before, eof, after, whole, ends, only, read⟩ := untilEnd_of_ended ended
  refine ⟨before, eof, after, whole, ends, only, ?_⟩
  rw [syntaxErrors_of_untilEnd read]
  have valued' : Valued before :=
    fun token member => valued token (whole ▸ List.mem_append_left _ member)
  -- The parser has gone through all tokens as through a program, or it has strayed somewhere.
  rcases Parse.declarations_tracks ends before only valued' with ⟨went, -⟩ | strayed
  · have program := went.mem_program ends
    obtain ⟨-, -, fine, -⟩ := went
    have none (e : SyntaxError) (member : e ∈ (Parse.declarations eof before).2) :
        ¬ e.isStructural = true := by
      rw [fine e member]
      decide
    refine ⟨⟨?_, fun outside => absurd program outside⟩, ?_, ?_⟩
    · rintro ⟨e, member, fault⟩
      exact absurd fault (none e member)
    · intro first found
      exact absurd (List.find?_some found) (none first (List.mem_of_find?_eq_some found))
    · exact fun _ _ _ _ e member fault => absurd fault (none e member)
  · obtain ⟨first, done, next, rest, found, located, inside⟩ := strayed.located
    refine ⟨⟨fun _ program => ?_, fun _ => ?_⟩, ?_, ?_⟩
    · refine located.ends (Viable.of_append (kinds rest) ?_)
      rw [← kinds_append, List.append_assoc, List.singleton_append, ← located.split]
      exact ⟨[], (List.append_nil _).symm ▸ program⟩
    · exact ⟨first, List.mem_of_find?_eq_some found, List.find?_some found⟩
    · intro other same
      obtain rfl := Option.some.inj (found.symm.trans same)
      exact ⟨done, next, rest, located, congrArg Token.line located.token,
        congrArg Token.place located.token⟩
    · intro started later whole viable e member fault
      exact (located.suffix whole viable).subset (inside e member fault)

private def lined (kind : TokenKind) (line : Nat) : Token := ⟨kind, "", some (.string ""), line⟩

private def faulty : List Token :=
  [lined .string 1, lined .equal 2, lined .string 3, lined .minus 4, lined .string 5,
    lined .semicolon 6, lined .leftBrace 7, lined .string 8, lined .star 9, lined .semicolon 10,
    lined .rightBrace 11, lined .rightBrace 12, lined .eof 13]

/-- The assignment is no structural error. The first one is at the semicolon in the block, where the
    right operand is missing; the last brace is another one. -/
theorem parse_locates_operand : Ended faulty ∧ Valued faulty ∧
    syntaxErrors faulty = [⟨.assignmentTarget, lined .equal 2⟩,
      ⟨.expression, lined .semicolon 10⟩, ⟨.expression, lined .rightBrace 12⟩] ∧
    ∃ before eof after, faulty = before ++ eof :: after ∧ eof.kind = .eof ∧
      kinds (before ++ [eof]) ∉ (rule .program).language ∧ ∃ done next rest,
        Located (before ++ [eof]) ⟨.expression, lined .semicolon 10⟩ done next rest ∧
        next.line = 10 := by
  have ended : Ended faulty := ⟨lined .eof 13, rfl, rfl⟩
  have valued : Valued faulty := by simp [Valued, faulty, lined]
  have errors : syntaxErrors faulty = [⟨.assignmentTarget, lined .equal 2⟩,
      ⟨.expression, lined .semicolon 10⟩, ⟨.expression, lined .rightBrace 12⟩] := by
    unfold faulty lined
    cbv
  obtain ⟨before, eof, after, whole, ends, -, found, located, -⟩ :=
    parse_locates faulty ended valued
  rw [errors] at found located
  obtain ⟨done, next, rest, here, line, -⟩ := located _ rfl
  exact ⟨ended, valued, errors, before, eof, after, whole, ends,
    found.mp ⟨_, List.mem_cons_of_mem _ List.mem_cons_self, rfl⟩, done, next, rest, here, line.symm⟩

end Lox
