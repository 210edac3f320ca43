import Lox.Proofs.Session.Turns

namespace Lox

namespace Machine

structure SamePlace (m m' : Machine) : Prop where
  globals : m'.globals = m.globals
  scope : m'.scope = m.scope
  depth : m'.depth = m.depth

variable {m m' m'' : Machine}

theorem SamePlace.refl (m : Machine) : m.SamePlace m := ⟨rfl, rfl, rfl⟩

theorem SamePlace.trans (first : m.SamePlace m') (second : m'.SamePlace m'') : m.SamePlace m'' :=
  ⟨second.globals.trans first.globals, second.scope.trans first.scope,
    second.depth.trans first.depth⟩

theorem samePlace_pause (config : Config) (held : List Root) (m : Machine) :
    m.SamePlace (m.pause config held) := by
  unfold pause
  simp only
  split <;> exact ⟨rfl, rfl, rfl⟩

theorem samePlace_letGo (config : Config) (held : List Root) (scope : ScopeId) (m : Machine) :
    m.SamePlace (m.letGo config held scope) := by
  unfold letGo
  split <;> exact ⟨rfl, rfl, rfl⟩

theorem samePlace_release (config : Config) (held : List Root) (scope : ScopeId) (m : Machine) :
    m.SamePlace (m.release config held scope) := by
  unfold release
  simp only
  split
  · exact (samePlace_letGo config held scope m).trans (samePlace_pause config held _)
  · have freed : m.SamePlace { m with store := m.store.free scope } := ⟨rfl, rfl, rfl⟩
    exact freed.trans (samePlace_pause config held _)

/-- Whoever leaves a scope for the one that was there before is back in it. -/
theorem samePlace_leave (config : Config) (held : List Root) {scope : ScopeId}
    (inside : SamePlace { m with scope := scope } m') :
    m.SamePlace (m'.leave config held m.scope) := by
  have back : m.SamePlace { m' with scope := m.scope } := ⟨inside.globals, rfl, inside.depth⟩
  exact back.trans (samePlace_release config held m'.scope _)

def AtTop (m : Machine) : Prop := m.scope = m.globals ∧ m.depth = 0

theorem AtTop.of_samePlace (top : m.AtTop) (same : m.SamePlace m') : m'.AtTop :=
  ⟨same.scope.trans (top.1.trans same.globals.symm), same.depth.trans top.2⟩

theorem atTop_atRest (m : Machine) : m.atRest.AtTop := ⟨rfl, rfl⟩

theorem AtTop.atRest_eq (top : m.AtTop) : m.atRest = m := by
  obtain ⟨scope, depth⟩ := top
  cases m
  cases scope
  cases depth
  rfl

end Machine

def Outcome.Restores {α : Type} (m : Machine) (outcome : Outcome α) : Prop :=
  outcome.Sat (fun _ m' => m.SamePlace m') m.SamePlace

namespace Eval

def Restores {α : Type} (x : Eval α) : Prop := ∀ m, (x m).Restores m

variable {α β : Type} {config : Config} {held : List Root}

theorem Restores.pure (value : α) : Restores (pure value) := fun m => .refl m

theorem Restores.fail (fault : Fault) : Restores (fail fault : Eval α) := fun m => .refl m

theorem Restores.cutOff : Restores (cutOff : Eval α) := fun _ => trivial

theorem Restores.get : Restores get := fun m => .refl m

theorem Restores.bind {x : Eval α} {next : α → Eval β} (first : x.Restores)
    (rest : ∀ value, (next value).Restores) : (x >>= next).Restores := fun m =>
  Outcome.Sat.bind (first m) fun value m' _ there =>
    (rest value m').mono (fun _ _ => there.trans) fun _ => there.trans

theorem Restores.onStore (f : Store → α × Store) : (onStore f).Restores := fun _ => ⟨rfl, rfl, rfl⟩

theorem Restores.ofExcept (result : Except Fault α) : (ofExcept result).Restores := fun m =>
  .ofExcept (fun _ _ => .refl m) (.refl m)

theorem Restores.setStore (result : Except Fault Store) : (setStore result).Restores := fun m =>
  .setStore (fun _ _ => ⟨rfl, rfl, rfl⟩) (.refl m)

theorem Restores.lookUp (name : Token) (distance : Distance) : (lookUp name distance).Restores := by
  intro m
  cases distance with
  | none => exact Restores.ofExcept _ m
  | some distance => exact Restores.ofExcept _ m

theorem Restores.assign (name : Token) (distance : Distance) (value : Value) :
    (assign name distance value).Restores := by
  intro m
  cases distance with
  | none => exact Restores.setStore _ m
  | some distance => exact Restores.setStore _ m

theorem Restores.define (name : Token) (value : Value) : (define name value).Restores :=
  fun _ => ⟨rfl, rfl, rfl⟩

theorem Restores.property (id : InstanceId) (type : Class) (name : Token) :
    (property id type name).Restores := by
  intro m
  unfold Eval.property
  split
  · exact ⟨rfl, rfl, rfl⟩
  · exact .refl m

theorem Restores.superMethod (keyword method : Token) (distance : Distance) :
    (superMethod keyword method distance).Restores := by
  cases distance with
  | none => exact .fail _
  | some distance =>
    refine .bind .get fun m => .bind (.ofExcept _) fun above => ?_
    cases above with
    | «class» superclass =>
      refine .bind (.ofExcept _) fun receiver => ?_
      cases receiver with
      | «instance» id type =>
        simp only
        split
        · exact .bind (.onStore _) fun _ => .pure _
        · exact .fail _
      | _ => exact .fail _
    | _ => exact .fail _

theorem Restores.write (bytes : ByteArray) : Restores (Machine.write config bytes) := by
  intro m
  unfold Machine.write
  split
  · exact ⟨rfl, rfl, rfl⟩
  · simp only
    split <;> exact ⟨rfl, rfl, rfl⟩

theorem Restores.asCall {body : Eval α} (inside : body.Restores) : (asCall body).Restores := by
  intro m
  have called := inside { m with depth := m.depth + 1 }
  have back : ∀ {m' : Machine}, Machine.SamePlace { m with depth := m.depth + 1 } m' →
      m.SamePlace { m' with depth := m'.depth - 1 } := fun same =>
    ⟨same.globals, same.scope, congrArg (· - 1) same.depth⟩
  unfold Eval.asCall
  cases ended : body { m with depth := m.depth + 1 } with
  | done value m' =>
    rw [ended] at called
    exact back called
  | failed fault m' =>
    rw [ended] at called
    exact back called
  | unfinished => trivial

theorem Restores.invoke {line arity count : Nat} {body : Eval Value} (inside : body.Restores) :
    (invoke config line arity count body).Restores := by
  intro m
  rw [Discipline.invoke_eq]
  split
  · split
    · exact inside.asCall m
    · exact .refl m
  · exact .refl m

theorem Restores.activation {scope : ScopeId} {body : List Root → Eval Flow}
    (inside : ∀ held, (body held).Restores) : (activation config held scope body).Restores := by
  intro m
  have ran := inside (.scope m.scope :: held) { m with scope := scope }
  unfold Eval.activation
  cases ended : body (.scope m.scope :: held) { m with scope := scope } with
  | done flow m' =>
    rw [ended] at ran
    exact Machine.samePlace_leave config _ ran
  | failed fault m' =>
    rw [ended] at ran
    exact Machine.samePlace_leave config _ ran
  | unfinished => trivial

theorem Restores.closeMethods (scope : ScopeId) (methods : List FunctionDecl)
    (found : List (String × Closure)) : (closeMethods scope found methods).Restores := by
  induction methods generalizing found with
  | nil => exact .pure found
  | cons method rest ih => exact .bind (.onStore _) fun _ => ih _

theorem Restores.declareClass (name : Token) (superclass? : Option Class)
    (methods : List FunctionDecl) : (declareClass name superclass? methods).Restores := by
  have made : ∀ scope, Restores (do
      let methods ← Eval.closeMethods scope [] methods
      let identity ← Eval.onStore Store.newIdentity
      let m ← Eval.get
      Eval.setStore (m.store.assign m.scope name.lexeme
        (.class (.mk identity name.lexeme superclass? methods)) name.line)) := fun scope =>
    .bind (.closeMethods _ _ _) fun _ => .bind (.onStore _) fun _ => .bind .get fun _ => .setStore _
  refine .bind (.define _ _) fun _ => .bind .get fun m => ?_
  cases superclass? with
  | none => exact .bind (.pure m.scope) made
  | some superclass => exact .bind (fun _ => ⟨rfl, rfl, rfl⟩) made

end Eval

open Eval

structure Restoring (config : Config) (n : Nat) : Prop where
  evaluate : ∀ held e, (evaluate config n held e).Restores
  evaluateAll : ∀ held es, (evaluateAll config n held es).Restores
  call : ∀ held callee line arguments, (call config n held callee line arguments).Restores
  apply : ∀ held function line arguments, (apply config n held function line arguments).Restores
  execute : ∀ held s, (execute config n held s).Restores
  executeAll : ∀ held ss, (executeAll config n held ss).Restores
  repeatWhile : ∀ held condition body, (repeatWhile config n held condition body).Restores

namespace Restoring

variable {config : Config} {n : Nat}

theorem zero (config : Config) : Restoring config 0 where
  evaluate _ _ := .cutOff
  evaluateAll _ _ := .cutOff
  call _ _ _ _ := .cutOff
  apply _ _ _ _ := .cutOff
  execute _ _ := .cutOff
  executeAll _ _ := .cutOff
  repeatWhile _ _ _ := .cutOff

theorem expression (below : Restoring config n) (held : List Root) (e : Expr) :
    (Lox.evaluate config (n + 1) held e).Restores := by
  cases e with
  | literal value => exact .pure _
  | grouping inner => exact below.evaluate held inner
  | unary operator right => exact .bind (below.evaluate held right) fun _ => .ofExcept _
  | binary left operator right =>
    exact .bind (below.evaluate held left) fun _ => .bind (below.evaluate _ right) fun _ =>
      .ofExcept _
  | logical left operator right =>
    refine .bind (below.evaluate held left) fun value => ?_
    split
    · exact .pure value
    · exact below.evaluate held right
  | «variable» name distance => exact .lookUp name distance
  | assign name value distance =>
    exact .bind (below.evaluate held value) fun _ => .bind (.assign name distance _) fun _ =>
      .pure _
  | call callee paren arguments =>
    exact .bind (below.evaluate held callee) fun _ => .bind (below.evaluateAll _ arguments) fun _ =>
      below.call _ _ _ _
  | get object name =>
    refine .bind (below.evaluate held object) fun value => ?_
    cases value with
    | «instance» id type => exact .property id type name
    | _ => exact .fail _
  | set object name value =>
    refine .bind (below.evaluate held object) fun receiver => ?_
    cases receiver with
    | «instance» id type => exact .bind (below.evaluate _ value) fun _ => .onStore _
    | _ => exact .fail _
  | this keyword distance => exact .lookUp keyword distance
  | super keyword method distance => exact .superMethod keyword method distance

theorem calling (below : Restoring config n) (held : List Root) (callee : Value) (line : Nat)
    (arguments : List Value) : (Lox.call config (n + 1) held callee line arguments).Restores := by
  cases callee with
  | native function =>
    cases function
    exact .invoke fun _ => ⟨rfl, rfl, rfl⟩
  | closure function => exact .invoke (below.apply held function line arguments)
  | «class» type =>
    refine .invoke (.bind (fun _ => ⟨rfl, rfl, rfl⟩) fun id => ?_)
    split
    · exact .bind (.onStore _) fun _ => .bind (below.apply _ _ _ _) fun _ => .pure _
    · exact .pure _
  | _ => exact .fail _

theorem applying (below : Restoring config n) (held : List Root) (function : Closure) (line : Nat)
    (arguments : List Value) :
    (Lox.apply config (n + 1) held function line arguments).Restores := by
  refine .bind (.onStore _) fun scope => .bind (.activation fun _ => below.executeAll _ _)
    fun flow => ?_
  split
  · exact .bind .get fun _ => .ofExcept _
  · exact .pure _

theorem statement (below : Restoring config n) (held : List Root) (s : Stmt) :
    (Lox.execute config (n + 1) held s).Restores := by
  cases s with
  | expression value => exact .bind (below.evaluate held value) fun _ => .pure _
  | print value =>
    exact .bind (below.evaluate held value) fun _ => .bind (.write _) fun _ => .pure _
  | varDecl name initializer? =>
    cases initializer? with
    | none => exact .bind (.define name _) fun _ => .pure _
    | some initializer =>
      exact .bind (below.evaluate held initializer) fun _ => .bind (.define name _) fun _ => .pure _
  | block body =>
    exact .bind (fun _ => ⟨rfl, rfl, rfl⟩) fun _ => .activation fun _ => below.executeAll _ _
  | branch condition thenBranch elseBranch? =>
    refine .bind (below.evaluate held condition) fun value => ?_
    split
    · exact below.execute held thenBranch
    · cases elseBranch? with
      | none => exact .pure _
      | some elseBranch => exact below.execute held elseBranch
  | loop condition body => exact below.repeatWhile held condition body
  | functionDecl declaration =>
    exact .bind .get fun _ => .bind (.onStore _) fun _ => .bind (.define _ _) fun _ => .pure _
  | returns keyword value? =>
    cases value? with
    | none => exact .pure _
    | some value => exact .bind (below.evaluate held value) fun _ => .pure _
  | classDecl name superclass? methods =>
    cases superclass? with
    | none => exact .bind (.declareClass name none methods) fun _ => .pure _
    | some superclass =>
      refine .bind (below.evaluate held superclass) fun value => ?_
      cases value with
      | «class» type => exact .bind (.declareClass name (some type) methods) fun _ => .pure _
      | _ => exact .fail _

theorem succ (below : Restoring config n) : Restoring config (n + 1) where
  evaluate := below.expression
  evaluateAll held es := by
    cases es with
    | nil => exact .pure _
    | cons e rest =>
      exact .bind (below.evaluate held e) fun _ => .bind (below.evaluateAll _ rest) fun _ => .pure _
  call := below.calling
  apply := below.applying
  execute := below.statement
  executeAll held ss := by
    cases ss with
    | nil => exact .pure _
    | cons s rest =>
      refine .bind (below.execute held s) fun flow => ?_
      cases flow with
      | normal => exact below.executeAll held rest
      | returned value => exact .pure _
  repeatWhile held condition body := by
    refine .bind (below.evaluate held condition) fun value => ?_
    split
    · refine .bind (below.execute held body) fun flow => ?_
      cases flow with
      | normal => exact below.repeatWhile held condition body
      | returned value => exact .pure _
    · exact .pure _

end Restoring

theorem restoring (config : Config) (n : Nat) : Restoring config n := by
  induction n with
  | zero => exact .zero config
  | succ n ih => exact ih.succ

namespace Session

variable {config : Config} {steps : Nat} {held : List Root} {m m' : Machine}

theorem restores_executeProgram (program : List Stmt) (held : List Root) :
    (executeProgram config steps held program).Restores := by
  induction program with
  | nil => exact .pure _
  | cons s rest ih => exact .bind ((restoring config steps).execute held s) fun _ => ih

theorem restores_executeEach (ss : List Stmt) (held : List Root) :
    (executeEach config steps held ss).Restores := by
  induction ss generalizing held with
  | nil => exact .pure _
  | cons s rest ih =>
    exact .bind ((restoring config steps).execute held s) fun _ => .bind (ih _) fun _ => .pure _

theorem atTop_interpret (program : List Stmt) (m : Machine) :
    (interpret config steps held program m).Sat (fun _ m' => m'.AtTop) Machine.AtTop := by
  unfold interpret
  refine .of_done rfl ?_
  have ran : (executeProgram config steps held program m.atRest).Sat (fun _ m' => m'.AtTop)
      Machine.AtTop :=
    (restores_executeProgram program held m.atRest).mono
      (fun _ _ => m.atTop_atRest.of_samePlace) fun _ => m.atTop_atRest.of_samePlace
  exact .bind ran fun _ m' _ top => top.of_samePlace (Machine.samePlace_pause config held m')

theorem atTop_perform (work : Work) (top : m.AtTop) :
    (work.perform config steps held m).Sat (fun _ m' => m'.AtTop) Machine.AtTop := by
  cases work with
  | program program => exact .bind (atTop_interpret program m) fun _ _ _ after => after
  | expression e =>
    refine Outcome.Sat.bind (Outcome.Sat.mono ((restoring config steps).evaluate held e m)
      (fun _ _ => top.of_samePlace) fun _ => top.of_samePlace) fun _ _ _ after => after
  | statements ss =>
    exact Outcome.Sat.bind (Outcome.Sat.mono (restores_executeEach ss held m)
      (fun _ _ => top.of_samePlace) fun _ => top.of_samePlace) fun _ _ _ after => after

theorem atTop_of_past {turns : List Turn} (past : Past config turns m held) : m.AtTop := by
  induction past with
  | start => exact ⟨rfl, rfl⟩
  | done past fewer ended ih => exact (atTop_perform _ ih).done_of_eq ended
  | @failed _ _ _ _ held _ _ _ past fewer ended ih =>
    exact (atTop_perform _ ih).failed_of_eq ended

theorem atTop_of_launches {keep : Flow → List Root} {ss : List Stmt} {p : Point}
    (launches : Launches config steps keep held ss m p) (top : m.AtTop) : p.machine.AtTop := by
  induction launches with
  | first => exact top
  | @others held s rest m m' flow p ended later ih =>
    exact ih (top.of_samePlace (((restoring config steps).execute held s m).done_of_eq ended))

theorem atTop_of_starts {turn : Turn} {p : Point} (starts : turn.Starts config p)
    (top : turn.machine.AtTop) : p.machine.AtTop := by
  cases starts with
  | program launches => exact atTop_of_launches launches (Machine.atTop_atRest _)
  | expression => exact top
  | statements launches => exact atTop_of_launches launches top

/-- A source that is answered at the top level, or refused, leaves the machine there. -/
theorem atTop_of_answer {request : Request} (top : m.AtTop)
    (ended : (∃ result, answer config steps held request m = .done result m') ∨
      ∃ error, answer config steps held request m = .failed error m') : m'.AtTop := by
  rcases ended with ⟨result, done⟩ | ⟨error, failed⟩
  · obtain ⟨work, _, ended⟩ := answer_done_iff.mp done
    exact (atTop_perform work top).done_of_eq ended
  · rcases answer_failed_iff.mp failed with ⟨_, _, _, rfl⟩ | ⟨work, fault, _, ended, _⟩
    · exact top
    · exact (atTop_perform work top).failed_of_eq ended

/-- However a computation ends, the program is then in the scope where it was, with as many calls
    active as before. So between any two steps of a session, and between the statements of a step,
    the program is at the top level and no call is active: every step starts as on a machine that
    has been brought to rest. -/
theorem place_restored (config : Config) :
    (∀ (steps : Nat) (held : List Root) (m : Machine),
      (∀ e, (Lox.evaluate config steps held e m).Restores m) ∧
      (∀ s, (Lox.execute config steps held s m).Restores m) ∧
      (∀ scope body, (activation config held scope
        (fun held => executeAll config steps held body) m).Restores m) ∧
      (∀ callee line arguments, (call config steps held callee line arguments m).Restores m) ∧
      ∀ function line arguments, (apply config steps held function line arguments m).Restores m) ∧
    ∀ (turns : List Turn) (m : Machine) (held : List Root), Past config turns m held →
      m.AtTop ∧
      (∀ steps held work p, Turn.Starts config ⟨steps, held, work, m⟩ p → p.machine.AtTop) ∧
      ∀ steps held request,
        answer config steps held request m = answer config steps held request m.atRest ∧
        ∀ m', ((∃ result, answer config steps held request m = .done result m') ∨
          ∃ error, answer config steps held request m = .failed error m') → m'.AtTop := by
  refine ⟨fun steps held m => ?_, fun turns m held past => ?_⟩
  · have here := restoring config steps
    exact ⟨fun e => here.evaluate held e m, fun s => here.execute held s m,
      fun scope body => Restores.activation (fun held => here.executeAll held body) m,
      fun callee line arguments => here.call held callee line arguments m,
      fun function line arguments => here.apply held function line arguments m⟩
  · have top := atTop_of_past past
    refine ⟨top, fun steps held work p starts => atTop_of_starts starts top,
      fun steps held request => ⟨?_, fun m' ended => atTop_of_answer top ended⟩⟩
    rw [top.atRest_eq]

/-- After a fault inside a block the program is at the top level. -/
theorem atTop_after_fault : ∃ (turns : List Turn) (m : Machine) (held : List Root) (fault : Fault),
    (Past .standard turns m held ∧ turns.map (Turn.outcome .standard) = [.failed fault m]) ∧
    m.AtTop := by
  have past : Past .standard [⟨6, [], .program
      [.block [.expression (.call (.literal .nil) ⟨.rightParen, "", none, 1⟩ [])]], .start⟩] _ _ :=
    .failed .start (List.Subset.refl []) rfl
  exact ⟨_, _, _, _, ⟨past, rfl⟩, ((place_restored .standard).2 _ _ _ past).1⟩

end Session
end Lox
