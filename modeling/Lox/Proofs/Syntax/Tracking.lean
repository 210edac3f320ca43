import Lox.Proofs.Syntax.Bounds
import Lox.Proofs.Syntax.Residuals

namespace Lox

/-- Whether an error is about the order of the tokens, not about what stands left of an equals sign
    or about how many parameters or arguments there are. -/
def SyntaxError.Cause.isStructural (cause : SyntaxError.Cause) : Bool :=
  cause ∉ [assignmentTarget, tooManyParameters, tooManyArguments]

def SyntaxError.isStructural (e : SyntaxError) : Bool := e.cause.isStructural

def Valued (tokens : List Token) : Prop :=
  ∀ token ∈ tokens, token.kind = .number ∨ token.kind = .string → token.literal?.isSome = true

theorem Valued.suffix {s rest : List Token} (valued : Valued s) (left : rest <:+ s) :
    Valued rest :=
  fun token member => valued token (left.subset member)

def kinds (tokens : List Token) : List TokenKind := tokens.map (·.kind)

theorem kinds_append (ts us : List Token) : kinds (ts ++ us) = kinds ts ++ kinds us :=
  List.map_append

/-- The first token, or the end of input if there is none, comes first in what is taken and what
    is next. -/
theorem head?_kinds (eof : Token) (ts rest : List Token) :
    (kinds ts ++ [(rest.headD eof).kind]).head? = some ((ts ++ rest).headD eof).kind := by
  cases ts <;> rfl

inductive Went (eof : Token) (allowed : Language TokenKind → Prop) (p : Phrase) (s : List Token)
    (errors : List SyntaxError) (rest : List Token) : Prop where
  | intro (ts : List Token) (whole : s = ts ++ rest)
      (fine : ∀ e ∈ errors, e.isStructural = false)
      (passed : Passed allowed p (kinds ts) (rest.headD eof).kind)

structure FirstFault (eof : Token) (here : List Token) (errors : List SyntaxError) (e : SyntaxError) :
    Prop where
  first : errors.find? (·.isStructural) = some e
  token : e.token = here.headD eof
  inside : ∀ e ∈ errors, e.isStructural = true → e.token ∈ here ++ [eof]

inductive Strayed (eof : Token) (allowed : Language TokenKind → Prop) (p : Phrase) (s : List Token)
    (errors : List SyntaxError) (rest : List Token) : Prop where
  | intro (ts here : List Token) (e : SyntaxError) (whole : s = ts ++ here)
      (fault : FirstFault eof here errors e)
      (stuck : Stuck allowed p (kinds ts) (here.headD eof).kind) (left : rest <:+ here)

section

variable {eof : Token} {allowed before : Language TokenKind → Prop} {p q : Phrase}
  {s rest last here : List Token} {errors later : List SyntaxError} {e : SyntaxError}

/-- None of the errors is structural. -/
theorem none_of_fine (eof : Token) (fine : ∀ e ∈ errors, e.isStructural = false)
    (here : List Token) :
    errors.find? (·.isStructural) = none ∧
      ∀ e ∈ errors, e.isStructural = true → e.token ∈ here ++ [eof] := by
  constructor
  · refine List.find?_eq_none.mpr fun e member => ?_
    rw [fine e member]
    decide
  · intro e member fault
    rw [fine e member] at fault
    cases fault

/-- More errors are found later on. -/
theorem FirstFault.further (fault : FirstFault eof here errors e)
    (more : ∀ e ∈ later, e.isStructural = true → e.token ∈ here ++ [eof]) :
    FirstFault eof here (errors ++ later) e := by
  refine ⟨?_, fault.token, List.forall_mem_append.mpr ⟨fault.inside, more⟩⟩
  rw [List.find?_append, fault.first, Option.some_or]

theorem FirstFault.noting (fault : FirstFault eof here later e)
    (fine : ∀ e ∈ errors, e.isStructural = false) : FirstFault eof here (errors ++ later) e := by
  obtain ⟨none, absent⟩ := none_of_fine eof fine here
  refine ⟨?_, fault.token, List.forall_mem_append.mpr ⟨absent, fault.inside⟩⟩
  rw [List.find?_append, none, Option.none_or, fault.first]

theorem FirstFault.single (structural : e.isStructural = true) (token : e.token = here.headD eof) :
    FirstFault eof here [e] e := by
  refine ⟨List.find?_cons_of_pos structural, token, List.forall_mem_singleton.mpr fun _ => ?_⟩
  rw [token]
  exact headD_mem eof here

theorem Went.suffix (went : Went eof allowed p s errors rest) : rest <:+ s := by
  obtain ⟨ts, whole, -, -⟩ := went
  exact ⟨ts, whole.symm⟩

theorem Strayed.suffix (strayed : Strayed eof allowed p s errors rest) : rest <:+ s := by
  obtain ⟨ts, here, -, whole, -, -, left⟩ := strayed
  exact left.trans ⟨ts, whole.symm⟩

theorem Went.inside (went : Went eof allowed p s errors rest) :
    ∀ e ∈ errors, e.isStructural = true → e.token ∈ s ++ [eof] := by
  obtain ⟨-, -, fine, -⟩ := went
  exact (none_of_fine eof fine s).2

theorem Strayed.inside (strayed : Strayed eof allowed p s errors rest) :
    ∀ e ∈ errors, e.isStructural = true → e.token ∈ s ++ [eof] := by
  obtain ⟨ts, here, e, whole, fault, -, -⟩ := strayed
  exact fun e member structural =>
    mem_of_suffix (fault.inside e member structural) ⟨ts, whole.symm⟩

theorem Went.mono (went : Went eof before p s errors rest) (fewer : ∀ K, allowed K → before K) :
    Went eof allowed p s errors rest := by
  obtain ⟨ts, whole, fine, passed⟩ := went
  exact ⟨ts, whole, fine, passed.mono fewer⟩

theorem Strayed.mono (strayed : Strayed eof before p s errors rest)
    (fewer : ∀ K, allowed K → before K) : Strayed eof allowed p s errors rest := by
  obtain ⟨ts, here, e, whole, fault, stuck, left⟩ := strayed
  exact ⟨ts, here, e, whole, fault, stuck.mono fewer, left⟩

theorem Went.narrow (went : Went eof allowed p s errors rest)
    (narrows : Narrows allowed (s.headD eof).kind p q) : Went eof allowed q s errors rest := by
  obtain ⟨ts, rfl, fine, passed⟩ := went
  exact ⟨ts, rfl, fine, passed.narrow narrows (head?_kinds eof ts rest)⟩

theorem Strayed.narrow (strayed : Strayed eof allowed p s errors rest)
    (narrows : Narrows allowed (s.headD eof).kind p q) : Strayed eof allowed q s errors rest := by
  obtain ⟨ts, here, e, rfl, fault, stuck, left⟩ := strayed
  exact ⟨ts, here, e, rfl, fault, stuck.narrow narrows (head?_kinds eof ts here), left⟩

/-- One phrase has been passed, and then another one. -/
theorem Went.seq (went : Went eof before p s errors rest) (next : Went eof allowed q rest later last)
    (inner : ∀ K, allowed K → before (q.language * K)) :
    Went eof allowed (.seq p q) s (errors ++ later) last := by
  obtain ⟨ts, rfl, fine, passed⟩ := went
  obtain ⟨us, rfl, fine', passed'⟩ := next
  refine ⟨ts ++ us, (List.append_assoc ts us last).symm, List.forall_mem_append.mpr ⟨fine, fine'⟩,
    ?_⟩
  rw [kinds_append]
  exact passed.seq passed' (head?_kinds eof us last) inner

/-- One phrase has been passed, but then the next one got stuck. -/
theorem Went.strays (went : Went eof before p s errors rest)
    (next : Strayed eof allowed q rest later last)
    (inner : ∀ K, allowed K → before (q.language * K)) :
    Strayed eof allowed (.seq p q) s (errors ++ later) last := by
  obtain ⟨ts, rfl, fine, passed⟩ := went
  obtain ⟨us, here, e, rfl, fault, stuck, left⟩ := next
  refine ⟨ts ++ us, here, e, (List.append_assoc ts us here).symm, fault.noting fine, ?_, left⟩
  rw [kinds_append]
  exact passed.stuck stuck (head?_kinds eof us here) inner

theorem Strayed.seq (strayed : Strayed eof before p s errors rest) (some : ∃ w, w ∈ q.language)
    (inner : ∀ K, allowed K → before (q.language * K)) :
    Strayed eof allowed (.seq p q) s errors rest := by
  obtain ⟨ts, here, e, whole, fault, stuck, left⟩ := strayed
  exact ⟨ts, here, e, whole, fault, stuck.seq some inner, left⟩

theorem Strayed.further (strayed : Strayed eof allowed p s errors rest) (onward : last <:+ rest)
    (more : ∀ e ∈ later, e.isStructural = true → e.token ∈ rest ++ [eof]) :
    Strayed eof allowed p s (errors ++ later) last := by
  obtain ⟨ts, here, e, whole, fault, stuck, left⟩ := strayed
  have inside := fun e member structural => mem_of_suffix (more e member structural) left
  exact ⟨ts, here, e, whole, fault.further inside, stuck, onward.trans left⟩

/-- Errors that are not structural do not matter. -/
theorem Went.note (went : Went eof allowed p s errors rest)
    (fine : ∀ e ∈ later, e.isStructural = false) :
    Went eof allowed p s (errors ++ later) rest ∧ Went eof allowed p s (later ++ errors) rest := by
  obtain ⟨ts, whole, fine', passed⟩ := went
  exact ⟨⟨ts, whole, List.forall_mem_append.mpr ⟨fine', fine⟩, passed⟩,
    ⟨ts, whole, List.forall_mem_append.mpr ⟨fine, fine'⟩, passed⟩⟩

theorem Strayed.note (strayed : Strayed eof allowed p s errors rest)
    (fine : ∀ e ∈ later, e.isStructural = false) :
    Strayed eof allowed p s (errors ++ later) rest ∧
      Strayed eof allowed p s (later ++ errors) rest := by
  refine ⟨strayed.further List.suffix_rfl (none_of_fine eof fine rest).2, ?_⟩
  obtain ⟨ts, here, e, whole, fault, stuck, left⟩ := strayed
  exact ⟨ts, here, e, whole, fault.noting fine, stuck, left⟩

end

namespace Parsed

variable {α β : Type} {m n : Nat}

def Succeeds : Parsed α n → Prop
  | ok _ _ _ _ => True
  | error _ _ _ _ => False

/-- A rule for `s` follows the phrase: it passes it as a whole, or else it gets stuck where the
    phrase does. -/
def Tracks (eof : Token) (allowed : Language TokenKind → Prop) (p : Phrase) (s : List Token)
    (r : Parsed α n) : Prop :=
  Valued s → Went eof allowed p s r.errors r.rest ∧ r.Succeeds ∨
    Strayed eof allowed p s r.errors r.rest

variable {eof : Token} {allowed before : Language TokenKind → Prop} {p q : Phrase}
  {s rest : List Token} {r : Parsed α n}

theorem Tracks.mono (tracks : r.Tracks eof before p s) (fewer : ∀ K, allowed K → before K) :
    r.Tracks eof allowed p s :=
  fun valued => (tracks valued).imp (And.imp_left (·.mono fewer)) (·.mono fewer)

theorem Tracks.narrow (tracks : r.Tracks eof allowed p s)
    (narrows : Narrows allowed (s.headD eof).kind p q) : r.Tracks eof allowed q s :=
  fun valued => (tracks valued).imp (And.imp_left (·.narrow narrows)) (·.narrow narrows)

theorem Tracks.same (tracks : r.Tracks eof allowed p s) (same : p.language = q.language) :
    r.Tracks eof allowed q s :=
  tracks.narrow (.of_eq same)

theorem Tracks.within {h : n ≤ m} (tracks : r.Tracks eof allowed p s) :
    (r.within h).Tracks eof allowed p s := by
  cases r <;> exact tracks

theorem Tracks.map {f : α → β} (tracks : r.Tracks eof allowed p s) :
    (r.map f).Tracks eof allowed p s := by
  cases r <;> exact tracks

theorem Tracks.noting {noted : List SyntaxError} (tracks : r.Tracks eof allowed p s)
    (fine : ∀ e ∈ noted, e.isStructural = false) : (r.noting noted).Tracks eof allowed p s := by
  intro valued
  rw [errors_noting]
  rcases tracks valued with ⟨went, done⟩ | strayed
  · cases r with
    | ok => exact .inl ⟨(went.note fine).2, trivial⟩
    | error => exact done.elim
  · rw [rest_noting]
    exact .inr (strayed.note fine).2

theorem Tracks.mapNoting {f : α → β × List SyntaxError} (tracks : r.Tracks eof allowed p s)
    (fine : ∀ a, ∀ e ∈ (f a).2, e.isStructural = false) :
    (r.mapNoting f).Tracks eof allowed p s := by
  intro valued
  cases r with
  | error cause rest noted le => exact tracks valued
  | ok value rest noted lt =>
    rcases tracks valued with ⟨went, -⟩ | strayed
    · exact .inl ⟨(went.note (fine value)).1, trivial⟩
    · exact .inr (strayed.note (fine value)).1

theorem Tracks.token {token : Token} {value : α} {lt : s.length < n} {kinds : List TokenKind}
    (member : token.kind ∈ kinds) :
    (ok value s [] lt).Tracks eof allowed (.tokens kinds) (token :: s) :=
  fun _ => .inl ⟨⟨[token], rfl, List.forall_mem_nil _, .token member _⟩, trivial⟩

theorem Tracks.nothing {value : α} {lt : s.length < n} (other : (s.headD eof).kind ∉ p.starts)
    (null : [] ∈ p.language) : (ok value s [] lt).Tracks eof allowed p s :=
  fun _ => .inl ⟨⟨[], rfl, List.forall_mem_nil _, .nothing other null⟩, trivial⟩

theorem Tracks.fails {e : SyntaxError} {le : s.length ≤ n} (structural : e.isStructural = true)
    (here : e.token = s.headD eof) (other : (s.headD eof).kind ∉ p.starts)
    (never : p.nullable = false) (made : p.isMade Rule.all = true) :
    (error e s [] le : Parsed α n).Tracks eof allowed p s :=
  fun _ => .inr ⟨[], s, e, rfl, .single structural here,
    .start other never (p.exists_word made), List.suffix_rfl⟩

/-- After one rule another one goes on. -/
theorem Tracks.onward {noted : List SyntaxError} {r : Parsed β m}
    (first : Went eof before p s noted rest ∨ Strayed eof before p s noted rest)
    (later : r.Tracks eof allowed q rest) (made : q.isMade Rule.all = true)
    (inner : ∀ K, allowed K → before (q.language * K)) :
    (r.noting noted).Tracks eof allowed (.seq p q) s := by
  intro valued
  rw [errors_noting]
  have done : (r.noting noted).Succeeds ↔ r.Succeeds := by cases r <;> exact Iff.rfl
  rw [rest_noting, done]
  rcases first with went | strayed
  · rcases later (valued.suffix went.suffix) with ⟨went', ended⟩ | strayed
    · exact .inl ⟨went.seq went' inner, ended⟩
    · exact .inr (went.strays strayed inner)
  · refine .inr ?_
    -- What the later rule does is no longer about the phrase; only where its errors are counts.
    rcases later (valued.suffix strayed.suffix) with ⟨went, -⟩ | strayed'
    · exact (strayed.seq (q.exists_word made) inner).further went.suffix went.inside
    · exact (strayed.seq (q.exists_word made) inner).further strayed'.suffix strayed'.inside

theorem Tracks.bind {next : α → (rest : List Token) → rest.length < n → Parsed β rest.length}
    (tracks : r.Tracks eof before p s) (made : q.isMade Rule.all = true)
    (inner : ∀ K, allowed K → before (q.language * K))
    (then' : ∀ a rest lt, (next a rest lt).Tracks eof allowed q rest) :
    (r.bind next).Tracks eof allowed (.seq p q) s := by
  intro valued
  cases r with
  | ok value rest noted lt =>
    exact Tracks.onward ((tracks valued).imp_left And.left) (then' value rest lt).within made inner
      valued
  | error cause rest noted le =>
    rcases tracks valued with ⟨-, done⟩ | strayed
    · exact done.elim
    · exact .inr (strayed.seq (q.exists_word made) inner)

theorem Tracks.extend
    {next : α → (rest : List Token) → rest.length < n → Parsed β (rest.length + 1)}
    (tracks : r.Tracks eof before p s) (made : q.isMade Rule.all = true)
    (inner : ∀ K, allowed K → before (q.language * K))
    (then' : ∀ a rest lt, (next a rest lt).Tracks eof allowed q rest) :
    (r.extend next).Tracks eof allowed (.seq p q) s := by
  intro valued
  cases r with
  | ok value rest noted lt =>
    exact Tracks.onward ((tracks valued).imp_left And.left) (then' value rest lt).within made inner
      valued
  | error cause rest noted le =>
    rcases tracks valued with ⟨-, done⟩ | strayed
    · exact done.elim
    · exact .inr (strayed.seq (q.exists_word made) inner)

/-- Without any token a phrase that is not nothing gets stuck, whatever comes after it. -/
theorem Tracks.bare (tracks : r.Tracks eof before p []) (never : p.nullable = false)
    (made : q.isMade Rule.all = true) (inner : ∀ K, allowed K → before (q.language * K)) :
    r.Tracks eof allowed (.seq p q) [] := by
  intro valued
  rcases tracks valued with ⟨⟨ts, whole, -, passed⟩, -⟩ | strayed
  · obtain ⟨rfl, -⟩ := List.append_eq_nil_iff.mp whole.symm
    rcases Derives.starts passed.mem with ⟨-, null⟩ | ⟨kind, -, w, same⟩
    · rw [never] at null
      cases null
    · cases same
  · exact .inr (strayed.seq (q.exists_word made) inner)

/-- The token after a phrase that is left out. -/
theorem Tracks.closes {token : Token} {value : α} {lt : s.length < n} {kind : TokenKind}
    (here : token.kind = kind) (other : kind ∉ p.starts) (null : [] ∈ p.language) :
    (ok value s [] lt).Tracks eof allowed (.seq p (.token kind)) (token :: s) := by
  refine .narrow (p := .token kind) (.token (List.mem_singleton.mpr here)) (.skip ?_ null)
  rwa [List.headD_cons, here]

/-- The first token has been taken. -/
theorem Tracks.after {token : Token} {kinds : List TokenKind} (tracks : r.Tracks eof allowed p s)
    (member : token.kind ∈ kinds) (made : p.isMade Rule.all = true) :
    r.after.Tracks eof allowed (.seq (.tokens kinds) p) (token :: s) := by
  have first : Went eof (fun _ => True) (.tokens kinds) (token :: s) [] s :=
    ⟨[token], rfl, List.forall_mem_nil _, .token member _⟩
  have both := Tracks.onward (.inl first) (tracks.within (h := Nat.le_succ n)) made
    fun _ _ => trivial
  cases r <;> exact both

/-- A failure is an error like others once the rule goes on after it. -/
theorem Tracks.recover {h : 0 < n} (tracks : r.Tracks eof allowed p s) :
    (r.recover h).Tracks eof allowed p s := by
  intro valued
  cases r with
  | ok value rest noted lt => exact tracks valued
  | error cause rest noted le =>
    rcases tracks valued with ⟨-, done⟩ | strayed
    · exact done.elim
    · have onward := strayed.further (synchronize_suffix rest) (List.forall_mem_nil _)
      rw [List.append_nil] at onward
      exact .inr onward

end Parsed

end Lox
