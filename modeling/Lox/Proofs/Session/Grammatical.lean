import Lox.Proofs.Renaming.Walks
import Lox.Proofs.Machine.Changes

namespace Lox

open Resolve

theorem Expr.clearedAll_self {es : List Expr} (each : ∀ e ∈ es, e.cleared = e) :
    Expr.clearedAll es = es := by
  induction es with
  | nil => rfl
  | cons e rest ih =>
    obtain ⟨first, others⟩ := List.forall_mem_cons.mp each
    exact congrArg₂ List.cons first (ih others)

theorem Expr.Written.cleared {e : Expr} (written : e.Written) : e.cleared = e := by
  induction written with
  | literal | «variable» _ | this _ | super _ => rfl
  | unary _ ih => exact congrArg (Expr.unary _) ih
  | binary _ _ left right => exact congrArg₂ (Expr.binary · _ ·) left right
  | logical _ _ left right => exact congrArg₂ (Expr.logical · _ ·) left right
  | grouping _ ih => exact congrArg Expr.grouping ih
  | assign _ _ ih => exact congrArg (Expr.assign _ · none) ih
  | call _ _ callee arguments => exact congrArg₂ (Expr.call · _ ·) callee (clearedAll_self arguments)
  | get _ ih => exact congrArg (Expr.get · _) ih
  | set _ _ object value => exact congrArg₂ (Expr.set · _ ·) object value

theorem Expr.cleared_optional {e? : Option Expr} (written : ∀ e ∈ e?, e.Written) :
    e?.map Expr.cleared = e? := by
  cases e? with
  | none => rfl
  | some e => exact congrArg some (written e rfl).cleared

theorem Stmt.clearedAll_self {ss : List Stmt} (each : ∀ s ∈ ss, s.cleared = s) :
    Stmt.clearedAll ss = ss := by
  induction ss with
  | nil => rfl
  | cons s rest ih =>
    obtain ⟨first, others⟩ := List.forall_mem_cons.mp each
    exact congrArg₂ List.cons first (ih others)

theorem FunctionDecl.clearedAll_eq (declarations : List FunctionDecl) :
    FunctionDecl.clearedAll declarations = declarations.map FunctionDecl.cleared := by
  induction declarations with
  | nil => rfl
  | cons declaration rest ih => exact congrArg (List.cons _) ih

theorem FunctionDecl.cleared_body (declaration : FunctionDecl) :
    declaration.cleared.body = Stmt.clearedAll declaration.body := by
  cases declaration
  rfl

theorem FunctionDecl.clearedAll_self {declarations : List FunctionDecl}
    (each : ∀ declaration ∈ declarations, ∀ s ∈ declaration.body, s.cleared = s) :
    FunctionDecl.clearedAll declarations = declarations := by
  have same : ∀ declaration ∈ declarations, declaration.cleared = id declaration := by
    rintro ⟨name, params, body⟩ member
    exact congrArg (FunctionDecl.mk name params) (Stmt.clearedAll_self (each _ member))
  rw [clearedAll_eq, List.map_congr_left same, List.map_id]

theorem Stmt.Written.cleared {s : Stmt} (written : s.Written) : s.cleared = s := by
  induction written with
  | expression evaluated => exact congrArg Stmt.expression evaluated.cleared
  | print printed => exact congrArg Stmt.print printed.cleared
  | varDecl _ initial => exact congrArg (Stmt.varDecl _) (Expr.cleared_optional initial)
  | block _ ih => exact congrArg Stmt.block (clearedAll_self ih)
  | @branch condition thenBranch elseBranch? tested _ _ _ _ first second =>
    cases elseBranch? with
    | none => exact congrArg₂ (Stmt.branch · · none) tested.cleared first
    | some elseBranch =>
      show Stmt.branch _ _ (some _) = _
      rw [tested.cleared, first, second elseBranch rfl]
  | loop tested _ _ ih => exact congrArg₂ Stmt.loop tested.cleared ih
  | functionDecl _ _ _ ih =>
    exact congrArg (Stmt.functionDecl ∘ FunctionDecl.mk _ _) (clearedAll_self ih)
  | returns returned => exact congrArg (Stmt.returns _) (Expr.cleared_optional returned)
  | @classDecl name superclass? methods _ above _ _ ih =>
    have parents : ∀ e ∈ superclass?, e.Written := by
      intro e same
      obtain ⟨parent, plain, rfl⟩ := above e same
      exact .variable plain
    exact congrArg₂ (Stmt.classDecl name) (Expr.cleared_optional parents)
      (FunctionDecl.clearedAll_self ih)

def Task.Written : Task → Prop
  | expression e => e.cleared.Written
  | expressions es => ∀ e ∈ Expr.clearedAll es, e.Written
  | statement s => s.cleared.Written
  | statements ss => ∀ s ∈ Stmt.clearedAll ss, s.Written
  | loop condition body => condition.cleared.Written ∧ body.cleared.Written
  | call _ _ _ | apply _ _ _ => True

def Closure.Written (function : Closure) : Prop :=
  (Task.statements function.declaration.body).Written

namespace Task

variable {config : Config} {p q : Point}

theorem Written.inner (written : p.task.Written) (inner : Inner config p q) : q.task.Written := by
  cases inner with
  | grouping => cases written with | grouping within => exact within
  | unary => cases written with | unary operand => exact operand
  | binaryLeft => cases written with | binary left _ => exact left
  | binaryRight => cases written with | binary _ right => exact right
  | logicalLeft => cases written with | logical left _ => exact left
  | logicalRight => cases written with | logical _ right => exact right
  | assigned => cases written with | assign _ assigned => exact assigned
  | callee => cases written with | call called _ => exact called
  | arguments => cases written with | call _ given => exact given
  | getObject => cases written with | get owner => exact owner
  | setObject => cases written with | set owner _ => exact owner
  | setValue => cases written with | set _ assigned => exact assigned
  | head => exact (List.forall_mem_cons.mp written).1
  | tail => exact (List.forall_mem_cons.mp written).2
  | call | function | initializer => trivial
  | expression => cases written with | expression evaluated => exact evaluated
  | print => cases written with | print printed => exact printed
  | @condition _ _ _ _ _ elseBranch? =>
    cases elseBranch? <;> cases written with | branch tested => exact tested
  | returned => cases written with | returns returned => exact returned _ rfl
  | loopCondition => exact written.1

theorem Written.binds {task : Task} (written : task.Written) {name : Token}
    (binds : task.Binds name) : name.Plain := by
  cases binds with
  | assign => cases written with | assign plain _ => exact plain
  | varDecl => cases written with | varDecl plain _ => exact plain
  | @functionDecl declaration =>
    cases declaration
    cases written with | functionDecl plain _ _ => exact plain
  | classDecl => cases written with | classDecl plain _ _ _ => exact plain

end Task

theorem Stmt.Written.method {name : Token} {superclass? : Option Expr} {methods : List FunctionDecl}
    (written : (Stmt.classDecl name superclass? methods).cleared.Written) {declaration : FunctionDecl}
    (member : declaration ∈ methods) : (Task.statements declaration.body).Written := by
  cases written with
  | classDecl _ _ _ inside =>
    have listed : declaration.cleared ∈ FunctionDecl.clearedAll methods := by
      rw [FunctionDecl.clearedAll_eq]
      exact List.mem_map_of_mem member
    have written := inside _ listed
    rwa [declaration.cleared_body] at written

theorem Stmt.Written.superclass {name : Token} {superclass : Expr} {methods : List FunctionDecl}
    (written : (Stmt.classDecl name (some superclass) methods).cleared.Written) :
    superclass.cleared.Written := by
  cases written with
  | classDecl _ above _ _ =>
    obtain ⟨parent, plain, same⟩ := above _ rfl
    exact same ▸ .variable plain

theorem Stmt.Written.branches {condition : Expr} {thenBranch : Stmt} {elseBranch? : Option Stmt}
    (written : (Stmt.branch condition thenBranch elseBranch?).cleared.Written) :
    thenBranch.cleared.Written ∧ ∀ s ∈ elseBranch?, s.cleared.Written := by
  cases elseBranch? with
  | none =>
    cases written with
    | branch _ first => exact ⟨first, fun s same => absurd same (Option.not_mem_none s)⟩
  | some elseBranch =>
    cases written with
    | branch _ first _ second => exact ⟨first, fun _ same => Option.some.inj same ▸ second _ rfl⟩

def DisciplineData.written : DisciplineData where
  Layer := Unit
  holds _ _ _ := True
  limits _ _ := True
  globals := Machine.start.globals
  fits p layers after := after = layers ∧ p.task.Written
  function f _ := f.Written
  method f _ := f.Written

namespace Discipline

theorem written_defines (name : String) (layers : List Unit) :
    DisciplineData.written.Defines name layers layers := by
  cases layers with
  | nil => exact .inl ⟨rfl, rfl⟩
  | cons layer outer =>
    exact .inr ⟨layer, layer, outer, rfl, rfl, fun _ _ _ => trivial, fun _ _ => trivial⟩

def written (config : Config) : Discipline config where
  toDisciplineData := .written
  holds_mono _ _ _ _ _ _ := trivial
  limits_mono _ _ _ _ _ := trivial
  limits_globals _ := trivial
  inner fits inner := ⟨rfl, fits.2.inner inner⟩
  initial := by
    rintro n held m name initializer layers _ ⟨rfl, written⟩
    cases written with | varDecl _ initial => exact ⟨_, .refl _ _, rfl, initial _ rfl⟩
  initialized := by
    rintro n held m name initializer? layers _ ⟨rfl, _⟩
    exact written_defines _ _
  declared := by
    rintro n held m ⟨name, params, body⟩ layers _ ⟨rfl, written⟩
    cases written with
    | functionDecl _ _ inside => exact ⟨written_defines _ _, fun _ => inside⟩
  superclass fits := ⟨_, .refl _ _, rfl, fits.2.superclass⟩
  named := by
    rintro n held m name superclass? methods layers _ ⟨rfl, _⟩
    exact written_defines _ _
  methods fits _ member _ := fits.2.method member
  inherited fits _ := ⟨(), trivial, fun _ member _ => fits.2.method member⟩
  bound _ _ written _ := ⟨(), trivial, written⟩
  block := by
    rintro n held m body layers _ ⟨rfl, written⟩ _
    cases written with
    | block inside => exact ⟨.refl _ _, (), _, trivial, trivial, rfl, inside⟩
  body _ written _ := ⟨(), _, fun _ _ => ⟨trivial, trivial⟩, rfl, written⟩
  plain := by
    rintro n held m s layers _ ⟨rfl, _⟩ _
    exact .refl _ _
  thenBranch := by
    rintro n held m m' condition thenBranch elseBranch? value layers _ ⟨rfl, written⟩ _ _
    exact ⟨_, .refl _ _, rfl, written.branches.1⟩
  elseBranch := by
    rintro n held m m' condition thenBranch elseBranch value layers _ ⟨rfl, written⟩ _ _
    exact ⟨_, .refl _ _, rfl, written.branches.2 _ rfl⟩
  skipped := by
    rintro n held m condition thenBranch layers _ ⟨rfl, _⟩
    exact .refl _ _
  loop := by
    rintro n held m condition body layers _ ⟨rfl, written⟩
    cases written with | loop tested repeated => exact ⟨rfl, tested, repeated⟩
  loopBody := by
    rintro n held m m' condition body value layers _ ⟨rfl, written⟩ _ _
    exact ⟨_, .refl _ _, rfl, written.2⟩
  loopAgain fits _ _ _ := fits
  loopEnd := by
    rintro n held m condition body layers _ ⟨rfl, _⟩
    exact .refl _ _
  first := by
    rintro n held m s rest layers _ ⟨rfl, written⟩
    obtain ⟨first, others⟩ := List.forall_mem_cons.mp written
    exact ⟨_, ⟨rfl, first⟩, fun _ _ => ⟨rfl, others⟩⟩
  last := by
    rintro n held m layers _ ⟨rfl, _⟩
    exact .refl _ _

end Discipline

def Work.Written : Work → Prop
  | program ss | statements ss => ∀ s ∈ Stmt.clearedAll ss, s.Written
  | expression e => e.cleared.Written

theorem compile_written {source : List UInt8} {program : List Stmt}
    (compiled : compile source = .ok program) : ∀ s ∈ Stmt.clearedAll program, s.Written := by
  obtain ⟨tree, parsed, resolved⟩ := compile_eq_ok.mp compiled
  have written := parseProgram_written parsed
  have same : Stmt.clearedAll program = tree := (Prod.mk.inj resolved).1 ▸
    statements_cleared fun s member => statement_cleared (written s member)
  exact same ▸ written

theorem parsed_written {source : List UInt8} {program : List Stmt}
    (parsed : parseProgram source = .ok program) : ∀ s ∈ Stmt.clearedAll program, s.Written := by
  have written := parseProgram_written parsed
  rw [Stmt.clearedAll_self fun s member => (written s member).cleared]
  exact written

theorem Session.Request.work_written {request : Session.Request} {work : Work}
    (compiled : request.work = .ok work) : work.Written := by
  cases request with
  | run source =>
    obtain ⟨program, found, rfl⟩ := exists_of_map_ok compiled
    exact compile_written found
  | runUnresolved source =>
    obtain ⟨program, found, rfl⟩ := exists_of_map_ok compiled
    exact parsed_written found
  | evaluate source =>
    obtain ⟨e, found, rfl⟩ := exists_of_map_ok compiled
    obtain ⟨tree, written, resolved⟩ := compileExpression_written found
    have same : e.cleared = tree := (Prod.mk.inj resolved).1 ▸ expression_cleared written
    show e.cleared.Written
    exact same ▸ written
  | execute resolved source =>
    obtain ⟨ss, found, rfl⟩ := exists_of_map_ok compiled
    cases resolved with
    | true => exact compile_written found
    | false => exact parsed_written found

namespace Grammatical

variable {config : Config} {p : Point}

theorem fits_of_launches {steps : Nat} {keep : Flow → List Root} {held : List Root} {ss : List Stmt}
    {m : Machine} (launches : Launches config steps keep held ss m p)
    (written : ∀ s ∈ Stmt.clearedAll ss, s.Written) :
    (Discipline.written config).fits p [] [] := by
  induction launches with
  | first => exact ⟨rfl, written _ List.mem_cons_self⟩
  | others ended later ih => exact ih fun s member => written s (List.mem_cons_of_mem _ member)

theorem fits_of_starts {turn : Turn} (starts : turn.Starts config p) (written : turn.work.Written) :
    (Discipline.written config).fits p [] [] := by
  cases starts with
  | program launches => exact fits_of_launches launches written
  | expression => exact ⟨rfl, written⟩
  | statements launches => exact fits_of_launches launches written

/-- Whatever turns start from, their sources have been compiled to it. -/
theorem fits_of_sources (config : Config) {turns : List Turn}
    (sources : ∀ turn ∈ turns, ∃ request : Session.Request, request.work = .ok turn.work) :
    ∀ turn ∈ turns, ∀ p, turn.Starts config p → (Discipline.written config).fits p [] [] := by
  intro turn member p starts
  obtain ⟨request, compiled⟩ := sources turn member
  exact fits_of_starts starts (request.work_written compiled)

theorem ready_called {q : Point}
    (ready : ∃ layers after, (Discipline.written config).Ready p layers after)
    (calls : Calls config p q) :
    ∃ layers after, (Discipline.written config).Ready q layers after := by
  obtain ⟨layers, after, here⟩ := ready
  exact Discipline.ready_of_calls here calls

end Grammatical

end Lox
