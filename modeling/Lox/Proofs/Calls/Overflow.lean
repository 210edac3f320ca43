import Lox.Proofs.Machine.Unwinding

namespace Lox

/-- A fault of another kind than calls that nest too deeply. -/
def Fault.Flat : Fault → Prop
  | stackOverflow _ => False
  | broken _ _ | outputFull => True

def Eval.Flat {α : Type} (x : Eval α) : Prop := ∀ m fault m', x m = .failed fault m' → fault.Flat

def Plan.Flat {α : Type} : Plan α → Prop
  | .ends outcome => ∀ fault m, outcome = .failed fault m → fault.Flat
  | .calls _ resume _ => ∀ value m, (resume value m).Flat

/-- A call that takes its arguments is attempted while as many calls are active as may be. -/
def Point.Overflows (config : Config) (line : Nat) (p : Point) : Prop :=
  0 < p.steps ∧ config.maxDepth ≤ p.machine.depth ∧
    ∃ callee arguments, p.task = .call callee line arguments ∧
      callee.arity? = some arguments.length

namespace Eval

variable {α β : Type}

theorem Flat.pure (value : α) : Flat (pure value) := fun _ _ _ impossible => nomatch impossible

theorem Flat.fail {fault : Fault} (flat : fault.Flat) : Flat (fail fault : Eval α) := by
  intro m fault' m' same
  cases same
  exact flat

theorem Flat.bind {x : Eval α} {next : α → Eval β} (first : x.Flat)
    (rest : ∀ value, (next value).Flat) : (x >>= next).Flat := by
  intro m fault m' failed
  change andThen x next m = .failed fault m' at failed
  unfold andThen at failed
  cases ended : x m with
  | done value m₁ =>
    rw [ended] at failed
    exact rest value m₁ fault m' failed
  | failed fault' m₁ =>
    rw [ended] at failed
    cases failed
    exact first m fault m' ended
  | unfinished =>
    rw [ended] at failed
    cases failed

theorem Flat.get : Flat get := fun _ _ _ impossible => nomatch impossible

theorem Flat.onStore (f : Store → α × Store) : Flat (onStore f) :=
  fun _ _ _ impossible => nomatch impossible

theorem Flat.ofExcept {result : Except Fault α} (flat : ∀ fault, result = .error fault → fault.Flat) :
    Flat (ofExcept result) := by
  cases result with
  | ok value => exact .pure value
  | error fault => exact .fail (flat fault rfl)

theorem Flat.setStore {result : Except Fault Store}
    (flat : ∀ fault, result = .error fault → fault.Flat) : Flat (setStore result) := by
  intro m fault m' failed
  cases result with
  | ok store => cases failed
  | error fault' =>
    cases failed
    exact flat fault rfl

end Eval

namespace Store

variable {s : Store} {id : ScopeId} {distance line : Nat} {name : String} {value : Value}
  {fault : Fault}

theorem read_flat (failed : s.read id name line = .error fault) : fault.Flat := by
  unfold read at failed
  split at failed <;> cases failed
  trivial

theorem readAt_flat (failed : s.readAt id distance name line = .error fault) : fault.Flat := by
  unfold readAt at failed
  split at failed <;> cases failed
  trivial

theorem assign_flat (failed : s.assign id name value line = .error fault) : fault.Flat := by
  unfold assign at failed
  split at failed <;> cases failed
  trivial

theorem assignAt_flat (failed : s.assignAt id distance name value line = .error fault) :
    fault.Flat := by
  unfold assignAt at failed
  split at failed <;> cases failed
  trivial

end Store

theorem applyUnary_flat {operator : Token} {right : Value} {fault : Fault}
    (failed : applyUnary operator right = .error fault) : fault.Flat := by
  unfold applyUnary at failed
  split at failed
  · split at failed <;> cases failed
    trivial
  · cases failed
  · cases failed
    trivial

theorem applyNumeric_flat {operator : Token} {a b : Float} {fault : Fault}
    (failed : applyNumeric operator a b = .error fault) : fault.Flat := by
  unfold applyNumeric at failed
  split at failed <;> cases failed
  trivial

theorem applyBinary_flat {operator : Token} {left right : Value} {fault : Fault}
    (failed : applyBinary operator left right = .error fault) : fault.Flat := by
  unfold applyBinary at failed
  split at failed
  · cases failed
  · cases failed
  · split at failed <;> cases failed
    trivial
  · split at failed
    · exact applyNumeric_flat failed
    · cases failed
      trivial

namespace Eval

theorem Flat.lookUp (name : Token) (distance : Distance) : Flat (lookUp name distance) := by
  intro m fault m' failed
  cases distance with
  | none => exact Flat.ofExcept (fun _ => Store.read_flat) m fault m' failed
  | some distance => exact Flat.ofExcept (fun _ => Store.readAt_flat) m fault m' failed

theorem Flat.assign (name : Token) (distance : Distance) (value : Value) :
    Flat (assign name distance value) := by
  intro m fault m' failed
  cases distance with
  | none => exact Flat.setStore (fun _ => Store.assign_flat) m fault m' failed
  | some distance => exact Flat.setStore (fun _ => Store.assignAt_flat) m fault m' failed

theorem Flat.property (id : InstanceId) (type : Class) (name : Token) :
    Flat (property id type name) := by
  intro m fault m' failed
  unfold Eval.property Store.property at failed
  split at failed
  · cases failed
  · rename_i caught
    cases failed
    split at caught
    · cases caught
    · split at caught <;> cases caught
      trivial

theorem Flat.superMethod (keyword method : Token) (distance : Distance) :
    Flat (superMethod keyword method distance) := by
  cases distance with
  | none => exact .fail trivial
  | some distance =>
    refine .bind .get fun m => .bind (.ofExcept fun _ => Store.readAt_flat) fun above => ?_
    cases above with
    | «class» superclass =>
      refine .bind (.ofExcept fun _ => Store.readAt_flat) fun receiver => ?_
      cases receiver with
      | «instance» id type =>
        simp only
        split
        · exact .bind (.onStore _) fun _ => .pure _
        · exact .fail trivial
      | _ => exact .fail trivial
    | _ => exact .fail trivial

theorem Flat.write {config : Config} (bytes : ByteArray) : Flat (Machine.write config bytes) := by
  intro m fault m' failed
  unfold Machine.write at failed
  split at failed
  · cases failed
  · simp only at failed
    split at failed <;> cases failed
    trivial

theorem Flat.closeMethods (scope : ScopeId) (methods : List FunctionDecl)
    (found : List (String × Closure)) : (closeMethods scope found methods).Flat := by
  induction methods generalizing found with
  | nil => exact .pure found
  | cons method rest ih => exact .bind (.onStore _) fun _ => ih _

theorem Flat.declareClass (name : Token) (superclass? : Option Class)
    (methods : List FunctionDecl) : (declareClass name superclass? methods).Flat := by
  have made : ∀ scope, Flat (do
      let methods ← Eval.closeMethods scope [] methods
      let identity ← Eval.onStore Store.newIdentity
      let m ← Eval.get
      Eval.setStore (m.store.assign m.scope name.lexeme
        (.class (.mk identity name.lexeme superclass? methods)) name.line)) := fun scope =>
    .bind (.closeMethods _ _ _) fun _ => .bind (.onStore _) fun _ => .bind .get fun _ =>
      .setStore fun _ => Store.assign_flat
  refine .bind (fun _ _ _ impossible => nomatch impossible) fun _ => .bind .get fun m => ?_
  cases superclass? with
  | none => exact .bind (.pure m.scope) made
  | some superclass => exact .bind (fun _ _ _ impossible => nomatch impossible) made

end Eval

namespace Machine

variable (config : Config) (held : List Root) (m : Machine)

theorem output_pause : (m.pause config held).output = m.output := by
  unfold pause
  simp only
  split <;> rfl

theorem output_letGo (scope : ScopeId) : (m.letGo config held scope).output = m.output := by
  unfold letGo
  split <;> rfl

theorem output_leave (previous : ScopeId) : (m.leave config held previous).output = m.output := by
  unfold leave release
  rw [output_pause]
  split
  · rw [output_letGo]
  · rfl

end Machine

theorem Unwinding.output_run (config : Config) (unwinding : Unwinding) (m : Machine) :
    (unwinding.run config m).output = m.output := by
  cases unwinding with
  | nothing | counted => rfl
  | back held previous => exact m.output_leave config held previous

namespace Plan

open Eval

variable {config : Config} {α : Type} {n : Nat} {held : List Root} {m : Machine}

theorem flat_done {value : α} : (done value m).Flat := fun _ _ impossible => nomatch impossible

theorem flat_ends {x : Eval α} (flat : x.Flat) : (ends (x m)).Flat := fun fault m' => flat m fault m'

theorem flat_last {q : Point} : (ask q done).Flat := fun _ _ => flat_done

theorem flat_planExpression (e : Expr) : (planExpression n held m e).Flat := by
  cases e with
  | literal value => exact flat_done
  | grouping inner => exact flat_last
  | unary operator right =>
    exact fun _ _ => flat_ends (.ofExcept fun _ => applyUnary_flat)
  | binary left operator right =>
    exact fun _ _ _ _ => flat_ends (.ofExcept fun _ => applyBinary_flat)
  | logical left operator right =>
    intro left m
    simp only
    split
    · exact flat_done
    · exact flat_last
  | «variable» name distance => exact flat_ends (.lookUp name distance)
  | assign name value distance =>
    exact fun value _ => flat_ends (.bind (.assign name distance value) fun _ => .pure _)
  | call callee paren arguments => exact fun _ _ _ _ => flat_last
  | get object name =>
    intro object m
    cases object with
    | «instance» id type => exact flat_ends (.property id type name)
    | _ => exact flat_ends (.fail trivial)
  | set object name value =>
    intro object m
    cases object with
    | «instance» id type => exact fun _ _ => flat_done
    | _ => exact flat_ends (.fail trivial)
  | this keyword distance => exact flat_ends (.lookUp keyword distance)
  | super keyword method distance => exact flat_ends (.superMethod keyword method distance)

theorem flat_planExpressions (es : List Expr) : (planExpressions n held m es).Flat := by
  cases es with
  | nil => exact flat_done
  | cons e rest => exact fun _ _ _ _ => flat_done

theorem flat_planActivity {line : Nat} {arguments : List Value} (callee : Value) :
    (planActivity config n held m line arguments callee).Flat := by
  cases callee with
  | native function =>
    cases function
    exact fun _ _ impossible => nomatch impossible
  | closure function => exact fun _ _ => flat_done
  | «class» type =>
    cases declared : type.findMethod? initializerName with
    | none =>
      simp only [planActivity, declared]
      exact flat_done
    | some method =>
      simp only [planActivity, declared]
      exact fun _ _ => flat_done
  | _ => exact flat_ends (.fail trivial)

theorem flat_planCallee {line : Nat} {arguments : List Value} {callee : Value}
    (other : ¬(callee.arity? = some arguments.length ∧ config.maxDepth ≤ m.depth)) :
    (planCallee config n held m line arguments callee).Flat := by
  unfold planCallee
  cases arity : callee.arity? with
  | none => exact flat_ends (.fail trivial)
  | some count =>
    simp only
    unfold planCall
    split
    · rename_i same
      split
      · exact flat_planActivity callee
      · rename_i full
        exact absurd ⟨same ▸ arity, Nat.not_lt.mp full⟩ other
    · exact flat_ends (.fail trivial)

theorem flat_planBody {function : Closure} {line : Nat} {arguments : List Value} :
    (planBody config n held m function line arguments).Flat := by
  intro flow m'
  simp only
  split
  · exact flat_ends (.ofExcept fun _ => Store.readAt_flat)
  · exact flat_done

theorem flat_planStatement (s : Stmt) : (planStatement config n held m s).Flat := by
  cases s with
  | expression value => exact fun _ _ => flat_done
  | print value => exact fun _ _ => flat_ends (.bind (.write _) fun _ => .pure _)
  | varDecl name initializer? =>
    cases initializer? with
    | none => exact flat_done
    | some initializer => exact fun _ _ => flat_done
  | block body => exact fun _ _ => flat_done
  | branch condition thenBranch elseBranch? =>
    intro value m
    simp only
    split
    · exact flat_last
    · cases elseBranch? with
      | none => exact flat_done
      | some elseBranch => exact flat_last
  | loop condition body => exact flat_last
  | functionDecl declaration => exact flat_done
  | returns keyword value? =>
    cases value? with
    | none => exact flat_done
    | some value => exact fun _ _ => flat_done
  | classDecl name superclass? methods =>
    cases superclass? with
    | none => exact flat_ends (.bind (.declareClass name none methods) fun _ => .pure _)
    | some superclass =>
      intro above m
      cases above with
      | «class» type =>
        exact flat_ends (.bind (.declareClass name (some type) methods) fun _ => .pure _)
      | _ => exact flat_ends (.fail trivial)

theorem flat_planStatements (ss : List Stmt) : (planStatements n held m ss).Flat := by
  cases ss with
  | nil => exact flat_done
  | cons s rest =>
    intro flow m
    cases flow with
    | normal => exact flat_last
    | returned value => exact flat_done

theorem flat_planLoop (condition : Expr) (body : Stmt) : (planLoop n held m condition body).Flat := by
  intro value m
  simp only
  split
  · intro flow m
    cases flow with
    | normal => exact flat_last
    | returned value => exact flat_done
  · exact flat_done

theorem fault_of_run {fault : Fault} {plan : Plan α} (failed : plan.run config = .failed fault m)
    (other : ¬fault.Flat) (flat : plan.Flat) :
    ∃ q ∈ plan.asked config, ∃ m', q.outcome config = .failed fault m' := by
  induction plan with
  | ends outcome => exact absurd (flat fault m failed) other
  | calls q resume unwinding ih =>
    rw [run] at failed
    cases ended : q.outcome config with
    | done value m₁ =>
      rw [ended] at failed
      obtain ⟨r, asked, later⟩ := ih value m₁ failed (flat value m₁)
      exact ⟨r, mem_asked_calls.mpr (.inr ⟨value, m₁, ended, asked⟩), later⟩
    | failed fault' m₁ =>
      rw [ended] at failed
      cases failed
      exact ⟨q, mem_asked_calls.mpr (.inl rfl), m₁, ended⟩
    | unfinished =>
      rw [ended] at failed
      cases failed

end Plan

namespace Point

variable {config : Config} {p q : Point} {line : Nat} {fault : Fault} {m : Machine}

theorem failed_of_calls (calls : Calls config p q) (failed : q.outcome config = .failed fault m) :
    ∃ m', p.outcome config = .failed fault m' ∧ m'.output = m.output := by
  exact ⟨_, unwound_of_calls calls failed, p.unwinding.output_run config m⟩

theorem failed_of_reaches (reaches : Reaches config p q)
    (failed : q.outcome config = .failed fault m) :
    ∃ m', p.outcome config = .failed fault m' ∧ m'.output = m.output := by
  induction reaches generalizing m with
  | refl => exact ⟨m, failed, rfl⟩
  | step _ calls ih =>
    obtain ⟨m₁, here, same⟩ := failed_of_calls calls failed
    obtain ⟨m₂, before, same'⟩ := ih here
    exact ⟨m₂, before, same'.trans same⟩

theorem outcome_of_overflows (overflows : p.Overflows config line) :
    p.outcome config = .failed (.stackOverflow line) p.machine := by
  obtain ⟨steps, held, task, m⟩ := p
  obtain ⟨more, full, callee, arguments, same, arity⟩ := overflows
  cases same
  cases steps with
  | zero => exact absurd more (Nat.lt_irrefl 0)
  | succ n =>
    rw [← run_plan]
    show (Eval.planCallee config n held m line arguments callee).run config = _
    unfold Eval.planCallee Eval.planCall
    rw [arity]
    simp only [if_true]
    rw [if_neg (Nat.not_lt.mpr full)]
    rfl

theorem overflows_or_calls (failed : p.outcome config = .failed (.stackOverflow line) m) :
    p.Overflows config line ∨
      ∃ q m', Calls config p q ∧ q.outcome config = .failed (.stackOverflow line) m' := by
  have inside (flat : (p.plan config).Flat) :
      ∃ q m', Calls config p q ∧ q.outcome config = .failed (.stackOverflow line) m' := by
    rw [← run_plan] at failed
    obtain ⟨q, asked, m', there⟩ := Plan.fault_of_run failed (fun impossible => impossible) flat
    exact ⟨q, m', mem_parts.mp asked, there⟩
  obtain ⟨steps, held, task, machine⟩ := p
  cases steps with
  | zero => cases task <;> cases failed
  | succ n =>
    cases task with
    | call callee line' arguments =>
      by_cases limit : callee.arity? = some arguments.length ∧ config.maxDepth ≤ machine.depth
      · have overflows : Point.Overflows config line' ⟨n + 1, held, .call callee line' arguments, machine⟩ :=
          ⟨Nat.succ_pos n, limit.2, callee, arguments, rfl, limit.1⟩
        rw [outcome_of_overflows overflows] at failed
        cases failed
        exact .inl overflows
      · exact .inr (inside (Plan.flat_planCallee limit))
    | expression e => exact .inr (inside (Plan.flat_planExpression e))
    | expressions es => exact .inr (inside (Plan.flat_planExpressions es))
    | apply function line arguments => exact .inr (inside Plan.flat_planBody)
    | statement s => exact .inr (inside (Plan.flat_planStatement s))
    | statements ss => exact .inr (inside (Plan.flat_planStatements ss))
    | loop condition body => exact .inr (inside (Plan.flat_planLoop condition body))

/-- Calls nest too deeply just where one of them is attempted that may not be active. -/
theorem overflow_iff : (∃ m, p.outcome config = .failed (.stackOverflow line) m) ↔
    ∃ q, Reaches config p q ∧ q.Overflows config line := by
  constructor
  · rintro ⟨m, failed⟩
    induction steps : p.steps generalizing p m with
    | zero =>
      rcases overflows_or_calls failed with ⟨more, _⟩ | ⟨q, _, calls, _⟩
      · exact absurd more (by omega)
      · exact absurd calls.steps_eq (by omega)
    | succ n ih =>
      rcases overflows_or_calls failed with overflows | ⟨q, m', calls, there⟩
      · exact ⟨p, .refl, overflows⟩
      · have fewer := calls.steps_eq
        obtain ⟨r, reaches, overflows⟩ := ih m' there (by omega)
        exact ⟨r, reaches.head calls, overflows⟩
  · rintro ⟨q, reaches, overflows⟩
    obtain ⟨m, failed, _⟩ := failed_of_reaches reaches (outcome_of_overflows overflows)
    exact ⟨m, failed⟩

end Point

end Lox
