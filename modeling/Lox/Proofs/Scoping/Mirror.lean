import Lox.Proofs.Machine.Restoration
import Lox.Proofs.Store.Hops
import Lox.Proofs.Scoping.Walk

namespace Lox

open Resolve

/-- An activation of a construct, known by the scope that it has opened. -/
structure Frame where
  construct : Construct
  scope : ScopeId

mutual

/-- A point runs inside activations, the innermost one first. -/
inductive Runs (config : Config) (turns : List Turn) : Point → List Frame → Prop where
  | start {turn : Turn} {p : Point} (member : turn ∈ turns) (starts : turn.Starts config p) :
      Runs config turns p []
  | stay {p q : Point} {frames : List Frame} (runs : Runs config turns p frames)
      (calls : Calls config p q) (same : q.machine.scope = p.machine.scope) :
      Runs config turns q frames
  | block {p q : Point} {frames : List Frame} {body : List Stmt} (runs : Runs config turns p frames)
      (calls : Calls config p q) (task : p.task = .statement (.block body)) :
      Runs config turns q (⟨.block body, q.machine.scope⟩ :: frames)
  | call {p q : Point} {before frames : List Frame} {function : Closure} {line : Nat}
      {arguments : List Value} (runs : Runs config turns p before) (calls : Calls config p q)
      (task : p.task = .apply function line arguments) (closes : Closes config turns function frames) :
      Runs config turns q (⟨.call function.declaration, q.machine.scope⟩ :: frames)

inductive Closes (config : Config) (turns : List Turn) : Closure → List Frame → Prop where
  | function {p : Point} {frames : List Frame} {declaration : FunctionDecl} {identity : Nat}
      (runs : Runs config turns p frames) (task : p.task = .statement (.functionDecl declaration)) :
      Closes config turns ⟨identity, declaration, p.machine.scope, false⟩ frames
  | bound {p : Point} {before frames : List Frame} {s : Store} {method : Closure} {id : InstanceId}
      {type : Class} {name : Token} {methods : List FunctionDecl}
      (declares : Declares config turns method name methods frames)
      (runs : Runs config turns p before) (binds : BindsMethod config p s method id type) :
      Closes config turns (s.bind method id type).1
        (⟨.receiver name methods, (s.bind method id type).1.scope⟩ :: frames)

inductive Declares (config : Config) (turns : List Turn) :
    Closure → Token → List FunctionDecl → List Frame → Prop where
  | base {p : Point} {frames : List Frame} {name : Token} {methods : List FunctionDecl}
      {declaration : FunctionDecl} {identity : Nat} {isInitializer : Bool}
      (runs : Runs config turns p frames)
      (task : p.task = .statement (.classDecl name none methods)) (member : declaration ∈ methods) :
      Declares config turns ⟨identity, declaration, p.machine.scope, isInitializer⟩ name methods
        frames
  | inherited {p : Point} {frames : List Frame} {name : Token} {superclass : Expr}
      {methods : List FunctionDecl} {declaration : FunctionDecl} {identity n : Nat}
      {isInitializer : Bool} {m : Machine} {type : Class} (runs : Runs config turns p frames)
      (task : p.task = .statement (.classDecl name (some superclass) methods))
      (steps : p.steps = n + 1)
      (above : evaluate config n p.held superclass p.machine = .done (.class type) m)
      (member : declaration ∈ methods) :
      Declares config turns ⟨identity, declaration, ⟨m.store.next⟩, isInitializer⟩ name methods
        (⟨.inheritance name methods, ⟨m.store.next⟩⟩ :: frames)

end

def constructsOf (frames : List Frame) : List Construct := frames.map Frame.construct

def Turn.Compiles (turn : Turn) (source : Work) : Prop :=
  source.Unresolved (fun _ => True) ∧ turn.work = source.resolved

def Task.IsPart : Task → Prop
  | call _ _ _ | apply _ _ _ => False
  | expression _ | expressions _ | statement _ | statements _ | loop _ _ => True

/-- The task is the resolved form of what the walk over a good source visits inside the constructs. -/
def Placed (good : Work → Prop) (constructs : List Construct) (task : Task) : Prop :=
  ∃ source context scopes node, good source ∧ Visits source context scopes constructs node ∧
    task = resolved context scopes node

def BodyPlaced (good : Work → Prop) (constructs : List Construct) (declaration : FunctionDecl) :
    Prop :=
  Placed good (.call declaration :: constructs) (.statements declaration.body)

def DisciplineData.mirror (config : Config) (turns : List Turn) (good : Work → Prop) :
    DisciplineData where
  Layer := Frame
  holds frame id _ := id = frame.scope
  limits _ _ := True
  globals := Machine.start.globals
  fits p frames after := after = frames ∧ Runs config turns p frames ∧
    (p.task.IsPart → Placed good (constructsOf frames) p.task)
  function f frames := Closes config turns f frames ∧
    BodyPlaced good (constructsOf frames) f.declaration
  method f frames := ∃ name methods, Declares config turns f name methods frames ∧
    BodyPlaced good (.receiver name methods :: constructsOf frames) f.declaration

namespace Mirror

variable {config : Config} {turns : List Turn} {good : Work → Prop} {p q : Point}
  {frames after : List Frame} {constructs : List Construct}

theorem scope_of_evaluate {n : Nat} {held : List Root} {e : Expr} {m m' : Machine} {value : Value}
    (ended : evaluate config n held e m = .done value m') : m'.scope = m.scope :=
  (((restoring config n).evaluate held e m).done_of_eq ended).scope

theorem scope_of_execute {n : Nat} {held : List Root} {s : Stmt} {m m' : Machine} {flow : Flow}
    (ended : execute config n held s m = .done flow m') : m'.scope = m.scope :=
  (((restoring config n).execute held s m).done_of_eq ended).scope

theorem scope_of_inner (inner : Inner config p q) : q.machine.scope = p.machine.scope := by
  cases inner with
  | binaryRight first | logicalRight first _ | arguments first | setValue first | tail first =>
    exact scope_of_evaluate first
  | @call n held m m' m'' callee paren arguments value values first second =>
    have given := (((restoring config n).evaluateAll _ arguments m').done_of_eq second).scope
    exact given.trans (scope_of_evaluate first)
  | _ => rfl

theorem stays (frames : List Frame) :
    (DisciplineData.mirror config turns good).Weakens frames frames :=
  DisciplineData.Weakens.refl (.mirror config turns good) frames

theorem defines (frames : List Frame) (name : String) :
    (DisciplineData.mirror config turns good).Defines name frames frames := by
  cases frames with
  | nil => exact .inl ⟨rfl, rfl⟩
  | cons frame frames =>
    exact .inr ⟨frame, frame, frames, rfl, rfl, fun _ _ same => same, fun _ _ => trivial⟩

theorem placed_part {e e' : Expr} (placed : Placed good constructs (.expression e))
    (part : e.Part e') : Placed good constructs (.expression e') := by
  obtain ⟨source, context, scopes, node, from', visited, same⟩ := placed
  cases node <;> cases same
  obtain ⟨x, within, rfl⟩ := part_of_resolved part
  exact ⟨source, context, scopes, _, from', visited.part within, rfl⟩

theorem placed_evaluated {s : Stmt} {e : Expr} (placed : Placed good constructs (.statement s))
    (evaluates : s.Evaluates e) : Placed good constructs (.expression e) := by
  obtain ⟨source, context, scopes, node, from', visited, same⟩ := placed
  cases node <;> cases same
  obtain ⟨x, within, rfl⟩ := evaluates_of_resolved evaluates
  exact ⟨source, context, scopes, _, from', visited.evaluated within, rfl⟩

/-- What an expression, or a statement in its scope, calls has its place there, too. -/
theorem placed_inner (placed : p.task.IsPart → Placed good constructs p.task)
    (inner : Inner config p q) : q.task.IsPart → Placed good constructs q.task := by
  intro part
  cases inner with
  | grouping => exact placed_part (placed trivial) .grouping
  | unary => exact placed_part (placed trivial) .unary
  | binaryLeft => exact placed_part (placed trivial) .binaryLeft
  | binaryRight _ => exact placed_part (placed trivial) .binaryRight
  | logicalLeft => exact placed_part (placed trivial) .logicalLeft
  | logicalRight _ _ => exact placed_part (placed trivial) .logicalRight
  | assigned => exact placed_part (placed trivial) .assigned
  | callee => exact placed_part (placed trivial) .callee
  | arguments _ =>
    obtain ⟨source, context, scopes, node, from', visited, same⟩ := placed trivial
    cases node <;> try cases same
    obtain ⟨callee, given, rfl, listed⟩ := call_of_resolved (Task.expression.inj same).symm
    exact ⟨source, context, scopes, _, from', visited.arguments, congrArg Task.expressions listed⟩
  | call _ _ => exact part.elim
  | getObject => exact placed_part (placed trivial) .getObject
  | setObject => exact placed_part (placed trivial) .setObject
  | setValue _ => exact placed_part (placed trivial) .setValue
  | head =>
    obtain ⟨source, context, scopes, node, from', visited, same⟩ := placed trivial
    obtain ⟨e, rest, rfl, rfl, rfl⟩ := cons_of_resolved same
    exact ⟨source, context, scopes, _, from', visited.head, rfl⟩
  | tail _ =>
    obtain ⟨source, context, scopes, node, from', visited, same⟩ := placed trivial
    obtain ⟨e, rest, rfl, rfl, rfl⟩ := cons_of_resolved same
    exact ⟨source, context, scopes, _, from', visited.tail, rfl⟩
  | function _ _ => exact part.elim
  | initializer _ _ _ => exact part.elim
  | expression => exact placed_evaluated (placed trivial) .expression
  | print => exact placed_evaluated (placed trivial) .print
  | condition => exact placed_evaluated (placed trivial) .branch
  | returned => exact placed_evaluated (placed trivial) .returns
  | loopCondition =>
    obtain ⟨source, context, scopes, node, from', visited, same⟩ := placed trivial
    cases node <;> cases same
    exact ⟨source, context, scopes, _, from', visited.condition, rfl⟩

theorem placed_initializer {name : Token} {value : Expr}
    (placed : Placed good constructs (.statement (.varDecl name (some value)))) :
    Placed good constructs (.expression value) := by
  obtain ⟨source, context, scopes, node, from', visited, same⟩ := placed
  cases node <;> try cases same
  obtain ⟨value, rfl, rfl⟩ := varDecl_of_resolved (Task.statement.inj same).symm
  exact ⟨source, context, _, _, from', visited.initializer, rfl⟩

theorem placed_superclass {name : Token} {superclass : Expr} {methods : List FunctionDecl}
    (placed : Placed good constructs (.statement (.classDecl name (some superclass) methods))) :
    Placed good constructs (.expression superclass) := by
  obtain ⟨source, context, scopes, node, from', visited, same⟩ := placed
  cases node <;> try cases same
  obtain ⟨_, declared, rfl, _, _, above⟩ := classDecl_of_resolved (Task.statement.inj same).symm
  obtain ⟨superclass, rfl, rfl⟩ := above _ rfl
  exact ⟨source, _, _, _, from', visited.superclass, rfl⟩

theorem placed_block {body : List Stmt}
    (placed : Placed good constructs (.statement (.block body))) :
    Placed good (.block body :: constructs) (.statements body) := by
  obtain ⟨source, context, scopes, node, from', visited, same⟩ := placed
  cases node <;> try cases same
  obtain ⟨body, rfl, rfl⟩ := block_of_resolved (Task.statement.inj same).symm
  exact ⟨source, context, _, _, from', visited.block, rfl⟩

theorem placed_thenBranch {condition : Expr} {thenBranch : Stmt} {elseBranch? : Option Stmt}
    (placed : Placed good constructs (.statement (.branch condition thenBranch elseBranch?))) :
    Placed good constructs (.statement thenBranch) := by
  obtain ⟨source, context, scopes, node, from', visited, same⟩ := placed
  cases node <;> try cases same
  obtain ⟨_, _, _, rfl, rfl, _⟩ := branch_of_resolved (Task.statement.inj same).symm
  exact ⟨source, context, _, _, from', visited.thenBranch, rfl⟩

theorem placed_elseBranch {condition : Expr} {thenBranch elseBranch : Stmt}
    (placed : Placed good constructs (.statement (.branch condition thenBranch (some elseBranch)))) :
    Placed good constructs (.statement elseBranch) := by
  obtain ⟨source, context, scopes, node, from', visited, same⟩ := placed
  cases node <;> try cases same
  obtain ⟨_, _, _, rfl, _, others⟩ := branch_of_resolved (Task.statement.inj same).symm
  obtain ⟨elseBranch, rfl, rfl⟩ := others _ rfl
  exact ⟨source, context, _, _, from', visited.elseBranch, rfl⟩

theorem placed_loop {condition : Expr} {body : Stmt}
    (placed : Placed good constructs (.statement (.loop condition body))) :
    Placed good constructs (.loop condition body) := by
  obtain ⟨source, context, scopes, node, from', visited, same⟩ := placed
  cases node <;> try cases same
  obtain ⟨_, _, rfl, whole⟩ := loop_of_resolved (Task.statement.inj same).symm
  exact ⟨source, context, _, _, from', visited.loop, whole⟩

theorem placed_repeated {condition : Expr} {body : Stmt}
    (placed : Placed good constructs (.loop condition body)) :
    Placed good constructs (.statement body) := by
  obtain ⟨source, context, scopes, node, from', visited, same⟩ := placed
  cases node <;> cases same
  exact ⟨source, context, scopes, _, from', visited.repeated, rfl⟩

theorem placed_cons {s : Stmt} {rest : List Stmt}
    (placed : Placed good constructs (.statements (s :: rest))) :
    Placed good constructs (.statement s) ∧ Placed good constructs (.statements rest) := by
  obtain ⟨source, context, scopes, node, from', visited, same⟩ := placed
  cases node <;> try cases same
  rename_i ss
  cases ss <;> cases same
  exact ⟨⟨source, context, scopes, _, from', visited.first, rfl⟩,
    ⟨source, context, _, _, from', visited.others, rfl⟩⟩

theorem placed_function {declaration : FunctionDecl}
    (placed : Placed good constructs (.statement (.functionDecl declaration))) :
    BodyPlaced good constructs declaration := by
  obtain ⟨source, context, scopes, node, from', visited, same⟩ := placed
  cases node <;> try cases same
  obtain ⟨declaration, rfl, rfl⟩ := functionDecl_of_resolved (Task.statement.inj same).symm
  exact ⟨source, _, _, _, from', visited.function, congrArg Task.statements (body_resolved _)⟩

theorem placed_method {name : Token} {superclass? : Option Expr} {methods : List FunctionDecl}
    (placed : Placed good constructs (.statement (.classDecl name superclass? methods)))
    {declaration : FunctionDecl} (member : declaration ∈ methods) :
    BodyPlaced good (classConstructs constructs name superclass?.isSome methods) declaration := by
  obtain ⟨source, context, scopes, node, from', visited, same⟩ := placed
  cases node <;> try cases same
  obtain ⟨_, declared, rfl, kept, rfl, _⟩ := classDecl_of_resolved (Task.statement.inj same).symm
  rw [← kept]
  obtain ⟨method, inside, rfl⟩ := mem_of_resolved member
  exact ⟨source, _, _, _, from', visited.method inside, congrArg Task.statements (body_resolved _)⟩

end Mirror

namespace Discipline

open Mirror

def mirror (config : Config) (turns : List Turn) (good : Work → Prop) : Discipline config where
  toDisciplineData := .mirror config turns good
  holds_mono _ _ _ _ _ same := same
  limits_mono _ _ _ _ _ := trivial
  limits_globals _ := trivial
  inner := by
    rintro p q frames _ ⟨rfl, runs, placed⟩ inner
    exact ⟨rfl, runs.stay (.inner inner) (scope_of_inner inner), placed_inner placed inner⟩
  initial := by
    rintro n held m name initializer frames _ ⟨rfl, runs, placed⟩
    exact ⟨_, stays _, rfl, runs.stay .initial rfl, fun _ => placed_initializer (placed trivial)⟩
  initialized := by
    rintro n held m name initializer? frames _ ⟨rfl, _⟩
    exact defines _ _
  declared := by
    rintro n held m declaration frames _ ⟨rfl, runs, placed⟩
    exact ⟨defines _ _, fun identity => ⟨.function runs rfl, placed_function (placed trivial)⟩⟩
  superclass := by
    rintro n held m name superclass methods frames _ ⟨rfl, runs, placed⟩
    exact ⟨_, stays _, rfl, runs.stay .superclass rfl, fun _ => placed_superclass (placed trivial)⟩
  named := by
    rintro n held m name superclass? methods frames _ ⟨rfl, _⟩
    exact defines _ _
  methods := by
    rintro n held m name methods frames _ ⟨rfl, runs, placed⟩ declaration member identity
    exact ⟨name, methods, .base runs rfl member, placed_method (placed trivial) member⟩
  inherited := by
    rintro n held m name superclass methods m' type frames _ ⟨rfl, runs, placed⟩ above
    refine ⟨⟨.inheritance name methods, ⟨m'.store.next⟩⟩, rfl, fun declaration member identity => ?_⟩
    exact ⟨name, methods, .inherited runs rfl rfl above member, placed_method (placed trivial) member⟩
  bound := by
    rintro p s method id type frames after around ⟨_, runs, _⟩ binds
      ⟨name, methods, declares, placed⟩ _
    exact ⟨⟨.receiver name methods, ⟨s.next⟩⟩, rfl, .bound declares runs binds, placed⟩
  block := by
    rintro n held m body frames _ ⟨rfl, runs, placed⟩ _
    exact ⟨stays _, ⟨.block body, ⟨m.store.next⟩⟩, _, rfl, trivial, rfl, runs.block .block rfl,
      fun _ => placed_block (placed trivial)⟩
  body := by
    rintro n held m f line arguments frames _ around ⟨rfl, runs, _⟩ ⟨closes, placed⟩ _
    exact ⟨⟨.call f.declaration, ⟨m.store.next⟩⟩, _, fun _ _ => ⟨rfl, trivial⟩, rfl,
      runs.call .body rfl closes, fun _ => placed⟩
  plain := by
    rintro n held m s frames _ ⟨rfl, _⟩ _
    exact stays _
  thenBranch := by
    rintro n held m m' condition thenBranch elseBranch? value frames _ ⟨rfl, runs, placed⟩ first
      truthy
    exact ⟨_, stays _, rfl, runs.stay (.thenBranch first truthy) (scope_of_evaluate first),
      fun _ => placed_thenBranch (placed trivial)⟩
  elseBranch := by
    rintro n held m m' condition thenBranch elseBranch value frames _ ⟨rfl, runs, placed⟩ first falsy
    exact ⟨_, stays _, rfl, runs.stay (.elseBranch first falsy) (scope_of_evaluate first),
      fun _ => placed_elseBranch (placed trivial)⟩
  skipped := by
    rintro n held m condition thenBranch frames _ ⟨rfl, _⟩
    exact stays _
  loop := by
    rintro n held m condition body frames _ ⟨rfl, runs, placed⟩
    exact ⟨rfl, runs.stay .loop rfl, fun _ => placed_loop (placed trivial)⟩
  loopBody := by
    rintro n held m m' condition body value frames _ ⟨rfl, runs, placed⟩ first truthy
    exact ⟨_, stays _, rfl, runs.stay (.loopBody first truthy) (scope_of_evaluate first),
      fun _ => placed_repeated (placed trivial)⟩
  loopAgain := by
    rintro n held m m' m'' condition body value frames _ ⟨rfl, runs, placed⟩ first truthy second
    exact ⟨rfl, runs.stay (.loopAgain first truthy second)
      ((scope_of_execute second).trans (scope_of_evaluate first)), placed⟩
  loopEnd := by
    rintro n held m condition body frames _ ⟨rfl, _⟩
    exact stays _
  first := by
    rintro n held m s rest frames _ ⟨rfl, runs, placed⟩
    refine ⟨_, ⟨rfl, runs.stay .first rfl, fun _ => (placed_cons (placed trivial)).1⟩, ?_⟩
    exact fun m' ended => ⟨rfl, runs.stay (.others ended) (scope_of_execute ended),
      fun _ => (placed_cons (placed trivial)).2⟩
  last := by
    rintro n held m frames _ ⟨rfl, _⟩
    exact stays _

end Discipline

namespace Mirror

variable {config : Config} {turns : List Turn} {good : Work → Prop} {turn : Turn} {p : Point}
  {m : Machine}

theorem placed_of_launches {steps : Nat} {keep : Flow → List Root} {held : List Root} {ss : List Stmt}
    (launches : Launches config steps keep held ss m p)
    (placed : Placed good [] (.statements ss)) : Placed good [] p.task := by
  induction launches with
  | first => exact (placed_cons placed).1
  | others _ _ ih => exact ih (placed_cons placed).2

/-- What a turn starts with has its place at the top level. -/
theorem fits_of_starts (member : turn ∈ turns) {source : Work} (from' : good source)
    (same : turn.work = source.resolved) (starts : turn.Starts config p) :
    (DisciplineData.mirror config turns good).fits p [] [] := by
  refine ⟨rfl, .start member starts, fun _ => ?_⟩
  cases starts with
  | program launches =>
    cases source <;> cases same
    exact placed_of_launches launches ⟨_, _, _, _, from', .program rfl, rfl⟩
  | expression =>
    cases source <;> cases same
    exact ⟨_, _, _, _, from', .expression rfl, rfl⟩
  | statements launches =>
    cases source <;> cases same
    exact placed_of_launches launches ⟨_, _, _, _, from', .statements rfl, rfl⟩

theorem ancestors_of_chain {s : Store} {id : ScopeId} {frames : List Frame}
    (chain : Store.Chain (fun (frame : Frame) id (_ : String → Prop) => id = frame.scope) s
      Machine.start.globals id frames) (nested : s.Nested) :
    (∀ k frame, frames[k]? = some frame →
      s.ancestor? id k = some frame.scope ∧ frame.scope ≠ Machine.start.globals) ∧
    s.ancestor? id frames.length = some Machine.start.globals := by
  refine ⟨fun k frame here => ?_, ?_⟩
  · obtain ⟨inside, rfl⟩ := List.getElem?_eq_some_iff.mp here
    obtain ⟨owner, hops, rest⟩ := chain.ancestor? nested (Nat.le_of_lt inside)
    rw [List.drop_eq_getElem_cons inside] at rest
    obtain ⟨parent, scope, found, around, same, _⟩ := rest.split
    cases same
    refine ⟨hops, fun globals => ?_⟩
    have older := nested _ _ _ found around
    rw [globals] at older
    exact absurd older (Nat.not_lt_zero _)
  · obtain ⟨owner, hops, rest⟩ := chain.ancestor? nested (Nat.le_refl _)
    rw [List.drop_length] at rest
    cases rest
    exact hops

end Mirror

namespace Session

open Mirror

variable {config : Config} {turns : List Turn} {turn : Turn} {held : List Root} {p : Point}

/-- At every point of a session, the scopes outward are those that the current activations of the
    constructs around the point have opened, and then the globals. The resolver had one scope open for
    each of them where it visited what the point carries out; so a distance leads to the activation of
    the construct whose scope the resolver has found the name in. -/
theorem scopes_mirrored (past : Past config turns turn.machine held) (fewer : turn.held ⊆ held)
    (sources : ∀ each ∈ turn :: turns, ∃ source, each.Compiles source)
    (passes : turn.Passes config p) :
    ∃ frames, Runs config (turn :: turns) p frames ∧
      (∀ k frame, frames[k]? = some frame →
        p.machine.store.ancestor? p.machine.scope k = some frame.scope ∧
          frame.scope ≠ p.machine.globals) ∧
      p.machine.store.ancestor? p.machine.scope frames.length = some p.machine.globals ∧
      (p.task.IsPart → ∃ source context scopes node, (∃ each ∈ turn :: turns, each.Compiles source) ∧
        Visits source context scopes (constructsOf frames) node ∧
        p.task = resolved context scopes node ∧ scopes.length = frames.length ∧
        ∀ e d name, p.task = .expression e → e.Resolves d name →
          distance? scopes name = some d ∧ d < frames.length) := by
  obtain ⟨frames, after, ready⟩ := Discipline.ready_of_passes
    (D := Discipline.mirror config (turn :: turns)
      fun source => ∃ each ∈ turn :: turns, each.Compiles source) rfl past fewer
    (fun each member p starts => by
      obtain ⟨source, compiles⟩ := sources each member
      exact fits_of_starts member ⟨each, member, compiles⟩ compiles.2 starts) passes
  obtain ⟨inside, outermost⟩ := ancestors_of_chain ready.around.chain ready.safe.sound.nested
  rw [show p.machine.globals = Machine.start.globals from ready.globals]
  refine ⟨frames, ready.fits.2.1, inside, outermost, fun part => ?_⟩
  obtain ⟨source, context, scopes, node, from', visited, same⟩ := ready.fits.2.2 part
  have length : scopes.length = frames.length :=
    visited.length_eq.trans (List.length_map Frame.construct)
  refine ⟨source, context, scopes, node, from', visited, same, length, ?_⟩
  intro e d name task resolves
  rw [task] at same
  cases node <;> cases same
  obtain ⟨each, _, unresolved, _⟩ := from'
  have found := distance?_of_resolves (visited.unresolved unresolved) resolves
  exact ⟨found, length ▸ distance?_lt found⟩

private def variableName : Token := ⟨.identifier, "a", none, 1⟩

/-- Where a block declares a variable and reads it, the globals are one scope out. -/
theorem scopes_mirrored_in_block :
    let body : List Stmt := [.varDecl variableName none, .expression (.variable variableName none)]
    let body' : List Stmt :=
      [.varDecl variableName none, .expression (.variable variableName (some 0))]
    let turn : Turn := ⟨9, [], .program [.block body'], .start⟩
    let point : Point := ⟨8, [.scope ⟨0⟩], .statements body', Machine.start.atRest.enterBlock⟩
    turn.Compiles (.program [.block body]) ∧ turn.Passes .standard point ∧
      ∃ frames, Runs .standard [turn] point frames ∧
        point.machine.store.ancestor? point.machine.scope frames.length = some point.machine.globals := by
  intro body body' turn point
  have compiles : turn.Compiles (.program [.block body]) :=
    ⟨fun s member => List.mem_singleton.mp member ▸ .block fun s member => by
      rcases List.mem_cons.mp member with rfl | later
      · exact .varDecl trivial (by simp)
      · exact List.mem_singleton.mp later ▸ .expression (.variable trivial), rfl⟩
  have passes : turn.Passes .standard point := ⟨_, .program .first, .step .refl .block⟩
  obtain ⟨frames, runs, _, outermost, _⟩ := scopes_mirrored .start (List.Subset.refl [])
    (fun each member => ⟨_, List.mem_singleton.mp member ▸ compiles⟩) passes
  exact ⟨compiles, passes, frames, runs, outermost⟩

end Session
end Lox
