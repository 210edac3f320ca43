import Lox.Proofs.Session.Turns
import Lox.Proofs.Scoping.Sight

namespace Lox

open Resolve

namespace Resolve

variable {scopes : List Names} {context : Context}

theorem expressions_see {es : List Expr}
    (each : ∀ e ∈ es, (expression context scopes e).2 = [] →
      (expression context scopes e).1.Sees scopes)
    (accepted : (expressions context scopes es).2 = []) :
    ∀ e ∈ (expressions context scopes es).1, e.Sees scopes := by
  induction es with
  | nil => exact fun _ member => nomatch member
  | cons e rest ih =>
    obtain ⟨head, tail⟩ := List.forall_mem_cons.mp each
    rw [expressions] at accepted ⊢
    obtain ⟨first, others⟩ := List.append_eq_nil_iff.mp accepted
    exact List.forall_mem_cons.mpr ⟨head first, ih tail others⟩

theorem expression_sees {e : Expr} (written : e.Written) (orderly : Orderly scopes)
    (settled : ∀ names ∈ scopes.tail, names.Settled)
    (accepted : (expression context scopes e).2 = []) :
    (expression context scopes e).1.Sees scopes := by
  induction written with
  | literal => exact .literal
  | unary _ ih => exact .unary (ih accepted)
  | grouping _ ih => exact .grouping (ih accepted)
  | binary _ _ left right =>
    rw [expression] at accepted ⊢
    obtain ⟨first, second⟩ := List.append_eq_nil_iff.mp accepted
    exact .binary (left first) (right second)
  | logical _ _ left right =>
    rw [expression] at accepted ⊢
    obtain ⟨first, second⟩ := List.append_eq_nil_iff.mp accepted
    exact .logical (left first) (right second)
  | @«variable» name _ =>
    refine .variable fun d bound => defined_of_distance? settled ?_ (.inr ?_)
    · simpa [bind] using bound
    · intro names innermost waits
      -- In its own initializer the use would have been an error.
      obtain ⟨outer, rfl⟩ := List.head?_eq_some_iff.mp innermost
      cases (if_pos waits).symm.trans (show readErrors (names :: outer) name = [] from accepted)
  | @assign name value _ _ ih =>
    refine .assign (ih accepted) fun d bound => ?_
    have found : distance? scopes name.lexeme = some d := by simpa [bind] using bound
    exact ⟨found, fun outer => defined_of_distance? settled found (.inl outer)⟩
  | call _ _ callee arguments =>
    rw [expression] at accepted ⊢
    obtain ⟨first, second⟩ := List.append_eq_nil_iff.mp accepted
    exact .call (callee first) (expressions_see arguments second)
  | get _ ih => exact .get (ih accepted)
  | set _ _ object value =>
    rw [expression] at accepted ⊢
    obtain ⟨first, second⟩ := List.append_eq_nil_iff.mp accepted
    exact .set (object second) (value first)
  | @this keyword spelled =>
    rw [expression] at accepted ⊢
    split at accepted
    · cases accepted
    · refine .this fun d bound => ?_
      rw [spelled]
      exact orderly.distance?_this (by simpa [bind, spelled] using bound)
  | @super keyword method spelled =>
    rw [expression] at accepted ⊢
    split at accepted
    · refine .super fun d bound => orderly.distance?_super ?_
      simpa [bind, spelled] using bound
    · rename_i wrong
      exact absurd accepted wrong

theorem optionalExpression_sees {e? : Option Expr} (written : ∀ e ∈ e?, e.Written)
    (orderly : Orderly scopes) (settled : ∀ names ∈ scopes.tail, names.Settled)
    (accepted : (optionalExpression context scopes e?).2 = []) :
    ∀ e ∈ (optionalExpression context scopes e?).1, e.Sees scopes := by
  cases e? with
  | none => exact fun _ same => nomatch same
  | some e =>
    intro e' same
    cases same
    exact expression_sees (written e rfl) orderly settled accepted

theorem Tidy.tail (tidy : Tidy scopes) : ∀ names ∈ scopes.tail, names.Settled :=
  fun names member => tidy.settled names (List.mem_of_mem_tail member)

structure Resolved (scopes : List Names) (walked : Walked Stmt) (declares : Bool) : Prop where
  sees : Stmt.Sees scopes walked.tree walked.scopes
  tidy : Tidy walked.scopes
  bare : declares = false → walked.scopes = scopes

/-- The scopes of a body are those of the statement that it belongs to. -/
theorem Resolved.body {walked : Walked Stmt} {declares : Bool}
    (resolved : Resolved scopes walked declares) (bare : declares = false) :
    walked.scopes = scopes ∧ Stmt.Sees scopes walked.tree scopes := by
  obtain ⟨tree, after, errors⟩ := walked
  cases resolved.bare bare
  exact ⟨rfl, resolved.sees⟩

theorem statements_see {ss : List Stmt}
    (each : ∀ s ∈ ss, ∀ {context scopes}, Tidy scopes → (statement context scopes s).errors = [] →
      Resolved scopes (statement context scopes s) s.declares)
    (tidy : Tidy scopes) (accepted : (statements context scopes ss).errors = []) :
    SeesAll scopes (statements context scopes ss).tree (statements context scopes ss).scopes ∧
      Tidy (statements context scopes ss).scopes := by
  induction ss generalizing scopes with
  | nil => exact ⟨.nil, tidy⟩
  | cons s rest ih =>
    obtain ⟨head, tail⟩ := List.forall_mem_cons.mp each
    rw [statements] at accepted ⊢
    obtain ⟨first, others⟩ := List.append_eq_nil_iff.mp accepted
    have resolved := head tidy first
    obtain ⟨sees, after⟩ := ih tail resolved.tidy others
    exact ⟨.cons resolved.sees sees, after⟩

theorem function_sees {declaration : FunctionDecl}
    (each : ∀ s ∈ declaration.body, ∀ {context scopes}, Tidy scopes →
      (statement context scopes s).errors = [] →
      Resolved scopes (statement context scopes s) s.declares)
    (plain : ∀ param ∈ declaration.params, param.Plain) (tidy : Tidy scopes)
    (accepted : (function context scopes declaration).2 = []) :
    CallSees scopes (function context scopes declaration).1 := by
  obtain ⟨name, params, body⟩ := declaration
  rw [function] at accepted ⊢
  obtain ⟨_, inside⟩ := List.append_eq_nil_iff.mp accepted
  exact .intro (statements_see each (tidy.inner.introduceAll params plain) inside).1

theorem methods_see {declared : List FunctionDecl}
    (each : ∀ method ∈ declared, ∀ s ∈ method.body, ∀ {context scopes}, Tidy scopes →
      (statement context scopes s).errors = [] →
      Resolved scopes (statement context scopes s) s.declares)
    (plain : ∀ method ∈ declared, ∀ param ∈ method.params, param.Plain) (tidy : Tidy scopes)
    (accepted : (methods context scopes declared).2 = []) :
    ∀ method ∈ (methods context scopes declared).1, CallSees scopes method := by
  induction declared with
  | nil => exact fun _ member => nomatch member
  | cons method rest ih =>
    obtain ⟨name, params, body⟩ := method
    obtain ⟨bodies, others⟩ := List.forall_mem_cons.mp each
    obtain ⟨named, names⟩ := List.forall_mem_cons.mp plain
    rw [methods] at accepted ⊢
    obtain ⟨first, later⟩ := List.append_eq_nil_iff.mp accepted
    exact List.forall_mem_cons.mpr
      ⟨function_sees bodies named tidy first, ih others names later⟩

theorem distance?_introduce {name : Token} {other : String} (differs : other ≠ name.lexeme) :
    distance? (introduce scopes name).1 other = distance? scopes other := by
  cases scopes with
  | nil => rfl
  | cons names scopes =>
    obtain ⟨names', same, _, others⟩ := introduce_cons names scopes name
    rw [same, distance?_cons, distance?_cons, Names.declares, Names.declares, others other differs]

/-- A superclass is seen from outside its class, since no class inherits from itself. -/
theorem superclass_sees {name parent : Token} (tidy : Tidy scopes)
    (accepted : inheritanceErrors name (.variable parent none) = []) :
    (expression context (introduce scopes name).1 (.variable parent none)).1.Sees scopes := by
  have differs : parent.lexeme ≠ name.lexeme := by
    intro same
    rw [inheritanceErrors, if_pos same] at accepted
    cases accepted
  refine .variable fun d bound => ?_
  have found : distance? scopes parent.lexeme = some d := by
    rw [← distance?_introduce differs]
    simpa [bind] using bound
  refine defined_of_distance? tidy.tail found (.inr fun names innermost => ?_)
  exact tidy.settled names (List.mem_of_head? innermost) _

/-- A statement that the resolver accepts sees all that it uses. -/
theorem statement_sees {s : Stmt} (written : s.Written) {context : Context} {scopes : List Names}
    (tidy : Tidy scopes) (accepted : (statement context scopes s).errors = []) :
    Resolved scopes (statement context scopes s) s.declares := by
  induction written generalizing context scopes with
  | expression evaluated =>
    exact ⟨.expression (expression_sees evaluated tidy.orderly tidy.tail accepted), tidy,
      fun _ => rfl⟩
  | print printed =>
    exact ⟨.print (expression_sees printed tidy.orderly tidy.tail accepted), tidy, fun _ => rfl⟩
  | @varDecl name initializer? plain initial =>
    rw [statement] at accepted ⊢
    obtain ⟨fresh, inside⟩ := List.append_eq_nil_iff.mp accepted
    obtain ⟨orderly, settled⟩ := orderly_declare tidy plain
    exact ⟨.varDecl (optionalExpression_sees initial orderly settled inside) (.inl fresh),
      tidy.introduce plain, by simp [Stmt.declares]⟩
  | block _ ih =>
    rw [statement] at accepted ⊢
    exact ⟨.block (statements_see ih tidy.inner accepted).1, tidy, fun _ => rfl⟩
  | @branch condition thenBranch elseBranch? tested _ bare _ others first second =>
    cases elseBranch? with
    | none =>
      rw [statement] at accepted ⊢
      obtain ⟨test, one⟩ := List.append_eq_nil_iff.mp accepted
      obtain ⟨same, sees⟩ := (first tidy one).body bare
      refine ⟨?_, (first tidy one).tidy, fun _ => same⟩
      rw [same]
      exact .branch (expression_sees tested tidy.orderly tidy.tail test) sees (by simp)
    | some elseBranch =>
      rw [statement] at accepted ⊢
      obtain ⟨before, two⟩ := List.append_eq_nil_iff.mp accepted
      obtain ⟨test, one⟩ := List.append_eq_nil_iff.mp before
      -- The first alternative declares nothing, so the second one is resolved in the same scopes.
      obtain ⟨same, sees⟩ := (first tidy one).body bare
      simp only [same] at two ⊢
      obtain ⟨same', sees'⟩ := (second elseBranch rfl tidy two).body (others elseBranch rfl)
      refine ⟨?_, (second elseBranch rfl tidy two).tidy, fun _ => same'⟩
      rw [same']
      exact .branch (expression_sees tested tidy.orderly tidy.tail test) sees
        fun _ other => Option.some.inj other ▸ sees'
  | @loop condition body tested _ bare ih =>
    rw [statement] at accepted ⊢
    obtain ⟨test, inside⟩ := List.append_eq_nil_iff.mp accepted
    obtain ⟨same, sees⟩ := (ih tidy inside).body bare
    refine ⟨?_, (ih tidy inside).tidy, fun _ => same⟩
    rw [same]
    exact .loop (expression_sees tested tidy.orderly tidy.tail test) sees
  | functionDecl plain named _ ih =>
    rw [statement] at accepted ⊢
    obtain ⟨_, inside⟩ := List.append_eq_nil_iff.mp accepted
    have after := tidy.introduce plain
    exact ⟨.functionDecl (function_sees ih named after inside), after, by simp [Stmt.declares]⟩
  | @returns keyword value? returned =>
    rw [statement] at accepted ⊢
    obtain ⟨_, inside⟩ := List.append_eq_nil_iff.mp accepted
    exact ⟨.returns (optionalExpression_sees returned tidy.orderly tidy.tail inside), tidy,
      fun _ => rfl⟩
  | @classDecl name superclass? declared plain above named _ ih =>
    have after := tidy.introduce plain
    cases superclass? with
    | none =>
      rw [statement] at accepted ⊢
      obtain ⟨_, inside⟩ := List.append_eq_nil_iff.mp accepted
      exact ⟨.classDecl (by simp) (methods_see ih named (after.classScopes _) inside), after,
        by simp [Stmt.declares]⟩
    | some superclass =>
      obtain ⟨parent, _, rfl⟩ := above superclass rfl
      rw [statement] at accepted ⊢
      obtain ⟨before, inside⟩ := List.append_eq_nil_iff.mp accepted
      obtain ⟨before, _⟩ := List.append_eq_nil_iff.mp before
      obtain ⟨_, other⟩ := List.append_eq_nil_iff.mp before
      refine ⟨.classDecl ?_ (methods_see ih named (after.classScopes _) inside), after,
        by simp [Stmt.declares]⟩
      exact fun _ same => Option.some.inj same ▸ superclass_sees tidy other

end Resolve

theorem Expr.Written.sees {e : Expr} (written : e.Written) (scopes : List Names) :
    e.Sees scopes := by
  induction written with
  | literal => exact .literal
  | unary _ ih => exact .unary ih
  | binary _ _ left right => exact .binary left right
  | logical _ _ left right => exact .logical left right
  | grouping _ ih => exact .grouping ih
  | «variable» _ => exact .variable fun _ none => nomatch none
  | assign _ _ ih => exact .assign ih fun _ none => nomatch none
  | call _ _ callee arguments => exact .call callee arguments
  | get _ ih => exact .get ih
  | set _ _ object value => exact .set object value
  | this _ => exact .this fun _ none => nomatch none
  | super _ => exact .super fun _ none => nomatch none

theorem seesAll_of_each {ss : List Stmt}
    (each : ∀ s ∈ ss, ∀ scopes, ∃ after, Stmt.Sees scopes s after) (scopes : List Names) :
    ∃ after, SeesAll scopes ss after := by
  induction ss generalizing scopes with
  | nil => exact ⟨scopes, .nil⟩
  | cons s rest ih =>
    obtain ⟨head, tail⟩ := List.forall_mem_cons.mp each
    obtain ⟨middle, first⟩ := head scopes
    obtain ⟨after, others⟩ := ih tail middle
    exact ⟨after, .cons first others⟩

theorem Stmt.Written.sees_body {s : Stmt} (written : s.Written) (scopes : List Names) :
    ∃ after, Stmt.Sees scopes s after ∧ (s.declares = false → after = scopes) := by
  induction written generalizing scopes with
  | expression evaluated => exact ⟨scopes, .expression (evaluated.sees scopes), fun _ => rfl⟩
  | print printed => exact ⟨scopes, .print (printed.sees scopes), fun _ => rfl⟩
  | varDecl _ initial =>
    exact ⟨_, .varDecl (fun e same => (initial e same).sees _)
      (.inr fun e same => (initial e same).sees _), fun bare => nomatch bare⟩
  | block _ ih =>
    obtain ⟨inside, within⟩ := seesAll_of_each
      (fun s member scopes => (ih s member scopes).imp fun _ => And.left) ([] :: scopes)
    exact ⟨scopes, .block within, fun _ => rfl⟩
  | branch tested _ bare _ others first second =>
    obtain ⟨after, sees, same⟩ := first scopes
    cases same bare
    refine ⟨_, .branch (tested.sees _) sees fun s chosen => ?_, fun _ => rfl⟩
    obtain ⟨after, sees, same⟩ := second s chosen scopes
    cases same (others s chosen)
    exact sees
  | loop tested _ bare ih =>
    obtain ⟨after, sees, same⟩ := ih scopes
    cases same bare
    exact ⟨_, .loop (tested.sees _) sees, fun _ => rfl⟩
  | functionDecl _ _ _ ih =>
    obtain ⟨inside, within⟩ := seesAll_of_each
      (fun s member scopes => (ih s member scopes).imp fun _ => And.left) _
    exact ⟨_, .functionDecl (.intro within), fun bare => nomatch bare⟩
  | returns returned =>
    exact ⟨scopes, .returns fun e same => (returned e same).sees _, fun _ => rfl⟩
  | classDecl _ above _ _ ih =>
    refine ⟨_, .classDecl (fun e same => ?_) fun method member => ?_, fun bare => nomatch bare⟩
    · obtain ⟨parent, plain, rfl⟩ := above e same
      exact (Expr.Written.variable plain).sees _
    · obtain ⟨inside, within⟩ := seesAll_of_each
        (fun s inner scopes => (ih method member s inner scopes).imp fun _ => And.left) _
      exact .intro within

def Work.Sees : Work → Prop
  | program ss | statements ss => ∃ after, SeesAll [] ss after
  | expression e => e.Sees []

theorem compile_sees {source : List UInt8} {program : List Stmt}
    (compiled : compile source = .ok program) : ∃ after, SeesAll [] program after := by
  obtain ⟨tree, parsed, resolved⟩ := compile_eq_ok.mp compiled
  have written := parseProgram_written parsed
  obtain ⟨rfl, none⟩ := Prod.mk.inj resolved
  exact ⟨_, (statements_see (fun s member => statement_sees (written s member)) .globals none).1⟩

theorem parseProgram_sees {source : List UInt8} {program : List Stmt}
    (parsed : parseProgram source = .ok program) : ∃ after, SeesAll [] program after :=
  seesAll_of_each (fun s member scopes =>
    ((parseProgram_written parsed s member).sees_body scopes).imp fun _ => And.left) []

theorem compileExpression_sees {source : List UInt8} {e : Expr}
    (compiled : compileExpression source = .ok e) : e.Sees [] := by
  obtain ⟨tree, written, resolved⟩ := compileExpression_written compiled
  obtain ⟨rfl, accepted⟩ := Prod.mk.inj resolved
  exact expression_sees written .globals (fun _ member => nomatch member) accepted

theorem exists_of_map_ok {ε α β : Type} {x : Except ε α} {f : α → β} {b : β}
    (same : x.map f = .ok b) : ∃ a, x = .ok a ∧ f a = b := by
  cases x with
  | error => cases same
  | ok a => exact ⟨a, rfl, Except.ok.inj same⟩

/-- What a source is compiled to sees all that it uses, resolved or not. -/
theorem Session.Request.work_sees {request : Session.Request} {work : Work}
    (compiled : request.work = .ok work) : work.Sees := by
  cases request with
  | run source =>
    obtain ⟨program, found, rfl⟩ := exists_of_map_ok compiled
    exact compile_sees found
  | runUnresolved source =>
    obtain ⟨program, found, rfl⟩ := exists_of_map_ok compiled
    exact parseProgram_sees found
  | evaluate source =>
    obtain ⟨e, found, rfl⟩ := exists_of_map_ok compiled
    exact compileExpression_sees found
  | execute resolved source =>
    obtain ⟨ss, found, rfl⟩ := exists_of_map_ok compiled
    cases resolved with
    | true => exact compile_sees found
    | false => exact parseProgram_sees found

theorem Session.sees_of_sources {turns : List Turn}
    (sources : ∀ turn ∈ turns, ∃ request : Request, request.work = .ok turn.work) :
    ∀ turn ∈ turns, turn.work.Sees := by
  intro turn member
  obtain ⟨request, compiled⟩ := sources turn member
  exact request.work_sees compiled

end Lox
