import Mathlib.Tactic.ByContra
import Lox.Proofs.Store.Hops
import Lox.Proofs.Scoping.Resolution

namespace Lox

open Resolve

inductive InInitializer (config : Config) (turns : List Turn) (name : String) : Point → Prop where
  | initial {turn : Turn} {n : Nat} {held : List Root} {m : Machine} {declared : Token}
      {initializer : Expr} (member : turn ∈ turns)
      (passes : turn.Passes config
        ⟨n + 1, held, .statement (.varDecl declared (some initializer)), m⟩)
      (same : declared.lexeme = name) :
      InInitializer config turns name ⟨n, held, .expression initializer, m⟩
  | inner {p q : Point} (before : InInitializer config turns name p) (inner : Inner config p q) :
      InInitializer config turns name q

/-- What a task sees from scopes, and which scopes it leaves. -/
def Task.Sees (scopes after : List Names) : Task → Prop
  | expression e => e.Sees scopes ∧ after = scopes
  | expressions es => (∀ e ∈ es, e.Sees scopes) ∧ after = scopes
  | call _ _ _ => after = scopes
  | apply function _ arguments => arguments.length = function.arity ∧ after = scopes
  | statement s => Stmt.Sees scopes s after ∧ ∀ names ∈ scopes.head?, names.Settled
  | statements ss => SeesAll scopes ss after ∧ ∀ names ∈ scopes.head?, names.Settled
  | loop condition body =>
    condition.Sees scopes ∧ Stmt.Sees scopes body scopes ∧ after = scopes ∧
      ∀ names ∈ scopes.head?, names.Settled

theorem Task.Sees.inner {config : Config} {p q : Point} {scopes after : List Names}
    (sees : p.task.Sees scopes after) (inner : Inner config p q) : q.task.Sees scopes scopes := by
  cases inner with
  | grouping =>
    cases sees.1 with
    | grouping within => exact ⟨within, rfl⟩
  | unary =>
    cases sees.1 with
    | unary operand => exact ⟨operand, rfl⟩
  | binaryLeft =>
    cases sees.1 with
    | binary first second => exact ⟨first, rfl⟩
  | binaryRight _ =>
    cases sees.1 with
    | binary first second => exact ⟨second, rfl⟩
  | logicalLeft =>
    cases sees.1 with
    | logical first second => exact ⟨first, rfl⟩
  | logicalRight _ _ =>
    cases sees.1 with
    | logical first second => exact ⟨second, rfl⟩
  | assigned =>
    cases sees.1 with
    | assign assigned found => exact ⟨assigned, rfl⟩
  | callee =>
    cases sees.1 with
    | call called given => exact ⟨called, rfl⟩
  | arguments _ =>
    cases sees.1 with
    | call called given => exact ⟨given, rfl⟩
  | call _ _ => rfl
  | getObject =>
    cases sees.1 with
    | get owner => exact ⟨owner, rfl⟩
  | setObject =>
    cases sees.1 with
    | set owner assigned => exact ⟨owner, rfl⟩
  | setValue _ =>
    cases sees.1 with
    | set owner assigned => exact ⟨assigned, rfl⟩
  | head => exact ⟨sees.1 _ List.mem_cons_self, rfl⟩
  | tail _ => exact ⟨fun e member => sees.1 e (List.mem_cons_of_mem _ member), rfl⟩
  | function arity _ => exact ⟨arity, rfl⟩
  | initializer _ arity _ => exact ⟨arity, rfl⟩
  | expression =>
    cases sees.1 with
    | expression evaluated => exact ⟨evaluated, rfl⟩
  | print =>
    cases sees.1 with
    | print printed => exact ⟨printed, rfl⟩
  | condition =>
    cases sees.1 with
    | branch tested first second => exact ⟨tested, rfl⟩
  | returned =>
    cases sees.1 with
    | returns returned => exact ⟨returned _ rfl, rfl⟩
  | loopCondition => exact ⟨sees.1, rfl⟩

/-- A scope is known by the names that the resolver has seen in it: it binds those that are defined,
    and the innermost scope binds no others. An initializer that can be called is bound to `this`. -/
def DisciplineData.visibility (config : Config) (turns : List Turn) : DisciplineData where
  Layer := Names
  holds names _ bound := ∀ name, names.lookup name = some true → bound name
  limits scopes bound := ∀ names ∈ scopes.head?, ∀ name, bound name → names.lookup name = some true
  globals := Machine.start.globals
  fits p scopes after := p.task.Sees scopes after ∧ (∃ turn ∈ turns, turn.Passes config p) ∧
    ∀ names ∈ scopes.head?, ∀ name, names.lookup name = some false →
      InInitializer config turns name p
  function f scopes := CallSees scopes f.declaration ∧
    (f.isInitializer = true → scopes.head? = some [("this", true)])
  method f scopes := CallSees ([("this", true)] :: scopes) f.declaration

namespace Visibility

variable {config : Config} {turns : List Turn} {scopes after : List Names} {p q : Point}

theorem passes_next (passed : ∃ turn ∈ turns, turn.Passes config p) (calls : Calls config p q) :
    ∃ turn ∈ turns, turn.Passes config q := by
  obtain ⟨turn, member, start, starts, reaches⟩ := passed
  exact ⟨turn, member, start, starts, .step reaches calls⟩

/-- No name of settled scopes waits for its initializer. -/
theorem settled_waits (settled : ∀ names ∈ scopes.head?, names.Settled) :
    ∀ names ∈ scopes.head?, ∀ name, names.lookup name = some false →
      InInitializer config turns name p :=
  fun names member name waits => absurd waits (settled names member name)

theorem introduce_defines (scopes : List Names) (name : Token) :
    (DisciplineData.visibility config turns).Defines name.lexeme scopes (introduce scopes name).1 := by
  cases scopes with
  | nil => exact .inl ⟨rfl, rfl⟩
  | cons names scopes =>
    obtain ⟨names', same, here, others⟩ := introduce_cons names scopes name
    refine .inr ⟨names, names', scopes, rfl, same, ?_, ?_⟩
    · intro _ bound holds other found
      by_cases own : other = name.lexeme
      · exact .inl own
      · exact .inr (holds other ((others other own).symm.trans found))
    · intro bound limits
      rw [same]
      rintro _ ⟨⟩ other (own | old)
      · rw [own, here]
      · by_cases own : other = name.lexeme
        · rw [own, here]
        · rw [others other own]
          exact limits names rfl other old

theorem introduce_settled (name : Token) (settled : ∀ names ∈ scopes.head?, names.Settled) :
    ∀ names ∈ (introduce scopes name).1.head?, names.Settled := by
  cases scopes with
  | nil => exact fun _ member => nomatch member
  | cons names scopes =>
    obtain ⟨names', same, here, others⟩ := introduce_cons names scopes name
    rw [same]
    rintro _ ⟨⟩ other
    by_cases own : other = name.lexeme
    · rw [own, here]
      decide
    · rw [others other own]
      exact settled names rfl other

theorem sees_settled {s : Stmt} (sees : Stmt.Sees scopes s after)
    (settled : ∀ names ∈ scopes.head?, names.Settled) : ∀ names ∈ after.head?, names.Settled := by
  cases sees with
  | expression _ | print _ | block _ | branch _ _ _ | loop _ _ | returns _ => exact settled
  | varDecl _ _ | functionDecl _ | classDecl _ _ => exact introduce_settled _ settled

/-- What is known of the scopes around a variable stays known while it is initialized. -/
theorem declare_weakens (scopes : List Names) (name : Token) :
    (DisciplineData.visibility config turns).Weakens scopes (declare scopes name).1 := by
  cases scopes with
  | nil => exact DisciplineData.Weakens.refl _ _
  | cons names scopes =>
    obtain ⟨names', same, others, known, _⟩ := declare_cons names scopes name
    have defined : ∀ other, names'.lookup other = some true ↔ names.lookup other = some true := by
      intro other
      by_cases own : other = name.lexeme
      · rcases known with rfl | ⟨absent, waits⟩
        · rfl
        · rw [own, absent, waits]
          decide
      · rw [others other own]
    rw [same]
    refine ⟨fun s id chain => ?_, fun bound limits => ?_⟩
    · obtain ⟨_, _, found, around, holds, outer⟩ := chain.split
      exact .inner found around (fun other => holds other ∘ (defined other).mp) outer
    · rintro _ ⟨⟩ other here
      exact (defined other).mpr (limits names rfl other here)

/-- While a variable is initialized, only its own name waits. -/
theorem declare_waits {scopes : List Names} {name : Token} {other : String}
    (settled : ∀ names ∈ scopes.head?, names.Settled) :
    ∀ names ∈ (declare scopes name).1.head?, names.lookup other = some false →
      name.lexeme = other := by
  cases scopes with
  | nil => exact fun _ member => nomatch member
  | cons names scopes =>
    obtain ⟨names', same, others, _⟩ := declare_cons names scopes name
    rw [same]
    rintro _ ⟨⟩ waits
    by_contra own
    rw [others other (Ne.symm own)] at waits
    exact settled names rfl other waits

/-- While a variable is initialized, its own name waits unless it was declared before. -/
theorem own_waits {scopes : List Names} {name : Token} (fresh : (declare scopes name).2 = []) :
    ∀ names ∈ (declare scopes name).1.head?, names.lookup name.lexeme = some false := by
  cases scopes with
  | nil => exact fun _ member => nomatch member
  | cons names scopes =>
    obtain ⟨names', same, _, _, waits⟩ := declare_cons names scopes name
    rw [same]
    rintro _ ⟨⟩
    exact waits fresh

/-- An initializer fits in where its variable waits for a value. If the name was declared before, no
    distance in the initializer is known. -/
theorem initial_fits {n : Nat} {held : List Root} {m : Machine} {name : Token} {initializer : Expr}
    (fits : (DisciplineData.visibility config turns).fits
      ⟨n + 1, held, .statement (.varDecl name (some initializer)), m⟩ scopes after) :
    (DisciplineData.visibility config turns).fits ⟨n, held, .expression initializer, m⟩
        (declare scopes name).1 (declare scopes name).1 ∧
      ((declare scopes name).2 = [] ∨ initializer.Sees []) := by
  obtain ⟨⟨sees, settled⟩, passed, _⟩ := fits
  cases sees with
  | varDecl initial fresh =>
    refine ⟨⟨⟨initial _ rfl, rfl⟩, passes_next passed .initial, fun names member other found => ?_⟩,
      fresh.imp_right fun blank => blank _ rfl⟩
    obtain ⟨turn, listed, passes⟩ := passed
    exact .initial listed passes (declare_waits settled names member found)

theorem introduceAll_cons (names : Names) (scopes : List Names) (params : List Token) :
    ∃ names', (introduceAll (names :: scopes) params).1 = names' :: scopes ∧
      ∀ other, names'.lookup other =
        if other ∈ params.map Token.lexeme then some true else names.lookup other := by
  induction params generalizing names with
  | nil => exact ⟨names, rfl, fun other => by simp⟩
  | cons param rest ih =>
    obtain ⟨names', same, here, others⟩ := introduce_cons names scopes param
    obtain ⟨names'', more, all⟩ := ih names'
    refine ⟨names'', ?_, fun other => ?_⟩
    · show (introduceAll (introduce (names :: scopes) param).1 rest).1 = _
      rw [same, more]
    · rw [all other, List.map_cons]
      by_cases own : other = param.lexeme
      · rw [own, here]
        simp
      · rw [others other own]
        simp [own]

theorem lookup_parameters (params : List Token) (arguments : List Value) (bound : Bindings)
    (name : String) :
    (∃ value, ((params.zip arguments).foldl
        (fun bound (param, value) => Bindings.put param.lexeme value bound) bound).lookup name =
          some value) ↔
      (∃ value, bound.lookup name = some value) ∨
        ∃ entry ∈ params.zip arguments, entry.1.lexeme = name := by
  induction params.zip arguments generalizing bound with
  | nil => simp
  | cons entry rest ih =>
    obtain ⟨param, value⟩ := entry
    rw [List.foldl_cons, ih, Bindings.lookup_put]
    by_cases own : name = param.lexeme <;> simp [own, eq_comm]

theorem parameterBindings_binds {params : List Token} {arguments : List Value}
    (arity : arguments.length = params.length) (name : String) :
    (∃ value, (Eval.parameterBindings params arguments).lookup name = some value) ↔
      name ∈ params.map Token.lexeme := by
  have names : (params.zip arguments).map Prod.fst = params :=
    List.map_fst_zip (Nat.le_of_eq arity.symm)
  unfold Eval.parameterBindings
  rw [lookup_parameters]
  conv_rhs => rw [← names, List.map_map]
  simp

theorem block_fits {n : Nat} {held : List Root} {m : Machine} {body : List Stmt}
    (fits : (DisciplineData.visibility config turns).fits
      ⟨n + 1, held, .statement (.block body), m⟩ scopes after) :
    after = scopes ∧ ∃ inside, (DisciplineData.visibility config turns).fits
      ⟨n, .scope m.scope :: held, .statements body, m.enterBlock⟩ ([] :: scopes) inside := by
  obtain ⟨⟨sees, settled⟩, passed, _⟩ := fits
  have empty : ∀ names : Names, names ∈ ([] :: scopes).head? → names.Settled := by
    rintro _ ⟨⟩ name
    simp
  cases sees with
  | block within =>
    exact ⟨rfl, _, ⟨within, empty⟩, passes_next passed .block, settled_waits empty⟩

/-- The body of a function fits into a scope that has the parameters, which is what a call binds. -/
theorem body_fits {n : Nat} {held : List Root} {m : Machine} {f : Closure} {line : Nat}
    {arguments : List Value} {around : List Names}
    (fits : (DisciplineData.visibility config turns).fits
      ⟨n + 1, held, .apply f line arguments, m⟩ scopes after)
    (sees : CallSees around f.declaration) : ∃ (names : Names) (inside : List Names),
      (∀ name, names.lookup name =
        if name ∈ f.declaration.params.map Token.lexeme then some true else none) ∧
      (∀ bound : String → Prop,
        (∀ name, bound name ↔ ∃ value,
          (Eval.parameterBindings f.declaration.params arguments).lookup name = some value) →
        (DisciplineData.visibility config turns).holds names ⟨m.store.next⟩ bound ∧
          (DisciplineData.visibility config turns).limits (names :: around) bound) ∧
      (DisciplineData.visibility config turns).fits
        ⟨n, .scope m.scope :: .scope f.scope :: held, .statements f.declaration.body,
          m.enterFunction f arguments⟩ (names :: around) inside := by
  obtain ⟨⟨arity, _⟩, passed, _⟩ := fits
  obtain ⟨within⟩ := sees
  obtain ⟨names, same, found⟩ := introduceAll_cons [] around f.declaration.params
  have listed : ∀ name, names.lookup name =
      if name ∈ f.declaration.params.map Token.lexeme then some true else none := found
  have settled : ∀ other : Names, other ∈ (names :: around).head? → other.Settled := by
    rintro _ ⟨⟩ name
    rw [listed name]
    split <;> simp
  rw [same] at within
  refine ⟨names, _, listed, fun bound exact => ⟨fun name here => ?_, ?_⟩, ⟨within, settled⟩,
    passes_next passed .body, settled_waits settled⟩
  · rw [listed name] at here
    refine (exact name).mpr ((parameterBindings_binds arity name).mpr ?_)
    exact Classical.byContradiction fun missing => by simp [missing] at here
  · rintro _ ⟨⟩ name here
    rw [listed name, if_pos ((parameterBindings_binds arity name).mp ((exact name).mp here))]

theorem superclass_fits {n : Nat} {held : List Root} {m : Machine} {name : Token}
    {superclass : Expr} {methods : List FunctionDecl}
    (fits : (DisciplineData.visibility config turns).fits
      ⟨n + 1, held, .statement (.classDecl name (some superclass) methods), m⟩ scopes after) :
    (DisciplineData.visibility config turns).fits ⟨n, held, .expression superclass, m⟩
      scopes scopes := by
  obtain ⟨⟨sees, settled⟩, passed, _⟩ := fits
  cases sees with
  | classDecl above within =>
    exact ⟨⟨above _ rfl, rfl⟩, passes_next passed .superclass, settled_waits settled⟩

theorem elseBranch_fits {n : Nat} {held : List Root} {m m' : Machine} {condition : Expr}
    {thenBranch elseBranch : Stmt} {value : Value}
    (fits : (DisciplineData.visibility config turns).fits
      ⟨n + 1, held, .statement (.branch condition thenBranch (some elseBranch)), m⟩ scopes after)
    (first : evaluate config n held condition m = .done value m')
    (falsy : value.isTruthy = false) :
    (DisciplineData.visibility config turns).fits ⟨n, held, .statement elseBranch, m'⟩
      scopes after := by
  obtain ⟨⟨sees, settled⟩, passed, _⟩ := fits
  cases sees with
  | branch tested one two =>
    exact ⟨⟨two _ rfl, settled⟩, passes_next passed (.elseBranch first falsy),
      settled_waits settled⟩

end Visibility

namespace Discipline

open Visibility

def visibility (config : Config) (turns : List Turn) : Discipline config where
  toDisciplineData := .visibility config turns
  holds_mono names id before after more holds name found := more name (holds name found)
  limits_mono scopes before after fewer limits names member name bound :=
    limits names member name (fewer name bound)
  limits_globals _ _ member := nomatch member
  inner := by
    rintro p q scopes after ⟨sees, passed, waits⟩ inner
    exact ⟨sees.inner inner, passes_next passed (.inner inner),
      fun names member name found => .inner (waits names member name found) inner⟩
  initial fits := ⟨_, declare_weakens _ _, (initial_fits fits).1⟩
  initialized := by
    rintro n held m name initializer? scopes after ⟨⟨sees, _⟩, _⟩
    cases sees with
    | varDecl initial fresh => exact introduce_defines scopes name
  declared := by
    rintro n held m declaration scopes after ⟨⟨sees, _⟩, _⟩
    cases sees with
    | functionDecl within =>
      exact ⟨introduce_defines scopes declaration.name, fun _ => ⟨within, nofun⟩⟩
  superclass fits := ⟨_, .refl _ _, superclass_fits fits⟩
  named := by
    rintro n held m name superclass? methods scopes after ⟨⟨sees, _⟩, _⟩
    cases sees with
    | classDecl above within => exact introduce_defines scopes name
  methods := by
    rintro n held m name methods scopes after ⟨⟨sees, _⟩, _⟩ declaration member identity
    cases sees with
    | classDecl above within => exact within declaration member
  inherited := by
    rintro n held m name superclass methods m' type scopes after ⟨⟨sees, _⟩, _⟩ _
    cases sees with
    | classDecl above within =>
      refine ⟨[("super", true)], fun name found => ?_, fun declaration member _ =>
        within declaration member⟩
      rw [lookup_entry] at found
      split at found
      · assumption
      · cases found
  bound := by
    rintro p s method id type scopes after around _ _ fits _
    refine ⟨[("this", true)], fun name found => ?_, fits, fun _ => rfl⟩
    rw [lookup_entry] at found
    split at found
    · assumption
    · cases found
  block fits _ := by
    obtain ⟨rfl, inside, fit⟩ := block_fits fits
    refine ⟨.refl _ _, ([] : Names), inside, ?_, ?_, fit⟩
    · exact fun name found => nomatch found
    · exact fun _ _ name impossible => impossible.elim
  body fits sees _ := by
    obtain ⟨names, inside, _, exact, fit⟩ := body_fits fits sees.1
    exact ⟨names, inside, exact, fit⟩
  plain := by
    rintro n held m s scopes after ⟨⟨sees, _⟩, _⟩ shape
    rcases shape with ⟨value, rfl | rfl⟩ | ⟨keyword, value?, rfl⟩ <;> cases sees <;>
      exact .refl _ _
  thenBranch := by
    rintro n held m m' condition thenBranch elseBranch? value scopes after
      ⟨⟨sees, settled⟩, passed, _⟩ first truthy
    cases sees with
    | branch tested one two =>
      exact ⟨scopes, .refl _ _, ⟨one, settled⟩, passes_next passed (.thenBranch first truthy),
        settled_waits settled⟩
  elseBranch fits first falsy := ⟨_, .refl _ _, elseBranch_fits fits first falsy⟩
  skipped := by
    rintro n held m condition thenBranch scopes after ⟨⟨sees, _⟩, _⟩
    cases sees with
    | branch tested one two => exact .refl _ _
  loop := by
    rintro n held m condition body scopes after ⟨⟨sees, settled⟩, passed, _⟩
    cases sees with
    | loop tested repeated =>
      exact ⟨⟨tested, repeated, rfl, settled⟩, passes_next passed .loop, settled_waits settled⟩
  loopBody := by
    rintro n held m m' condition body value scopes after ⟨⟨tested, repeated, _, settled⟩, passed, _⟩
      first truthy
    exact ⟨scopes, .refl _ _, ⟨repeated, settled⟩, passes_next passed (.loopBody first truthy),
      settled_waits settled⟩
  loopAgain := by
    rintro n held m m' m'' condition body value scopes after ⟨sees, passed, waits⟩
      first truthy second
    exact ⟨sees, passes_next passed (.loopAgain first truthy second),
      settled_waits sees.2.2.2⟩
  loopEnd := by
    rintro n held m condition body scopes after ⟨⟨_, _, rfl, _⟩, _⟩
    exact .refl _ _
  first := by
    rintro n held m s rest scopes after ⟨⟨sees, settled⟩, passed, _⟩
    cases sees with
    | cons one others =>
      refine ⟨_, ⟨⟨one, settled⟩, passes_next passed .first, settled_waits settled⟩, ?_⟩
      intro m' ended
      have later := sees_settled one settled
      exact ⟨⟨others, later⟩, passes_next passed (.others ended), settled_waits later⟩
  last := by
    rintro n held m scopes after ⟨⟨sees, _⟩, _⟩
    cases sees with
    | nil => exact .refl _ _

end Discipline
end Lox
