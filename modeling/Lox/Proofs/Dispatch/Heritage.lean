import Mathlib
import Lox.Proofs.Machine.Tracking
import Lox.Proofs.Session.Moments

namespace Lox

open Outcome Plan Eval

namespace Class

def declared (type : Class) : List FunctionDecl := (type.methods.map (·.2.declaration)).reverse

/-- Each method is found by its own name, and only the one that sets up instances is an initializer. -/
def Formed (type : Class) : Prop := ∀ entry ∈ type.methods,
  entry.1 = entry.2.name ∧ entry.2.isInitializer = (entry.1 == initializerName)

structure Follows (type : Class) (name : Token) (methods : List FunctionDecl) : Prop where
  named : type.name = name.lexeme
  declared : type.declared = methods
  formed : type.Formed

end Class

theorem Eval.closeMethods_follows (scope : ScopeId) (methods : List FunctionDecl)
    (found : List (String × Closure)) (m : Machine) :
    ∃ made s, closeMethods scope found methods m = .done made { m with store := s } ∧
      (made.map (·.2.declaration)).reverse = (found.map (·.2.declaration)).reverse ++ methods ∧
      ∀ entry ∈ made, entry ∈ found ∨
        entry.1 = entry.2.name ∧ entry.2.isInitializer = (entry.1 == initializerName) := by
  induction methods generalizing found m with
  | nil => exact ⟨found, m.store, rfl, (List.append_nil _).symm, fun _ member => .inl member⟩
  | cons method rest ih =>
    obtain ⟨made, s, ends, declared, entries⟩ := ih ((method.name.lexeme,
        (m.store.close scope method (method.name.lexeme == initializerName)).1) :: found)
      { m with store := (m.store.close scope method (method.name.lexeme == initializerName)).2 }
    refine ⟨made, s, ends, ?_, fun entry member => ?_⟩
    · rw [declared, List.map_cons, List.reverse_cons, List.append_assoc]
      rfl
    · rcases entries entry member with new | own
      · rcases List.mem_cons.mp new with rfl | old
        · exact .inr ⟨rfl, rfl⟩
        · exact .inl old
      · exact .inr own

variable {good : Class → Prop}

def Value.Within (good : Class → Prop) : Value → Prop
  | .class type | .instance _ type => good type
  | .nil | .bool _ | .number _ | .string _ | .native _ | .closure _ => True

def Root.Within (good : Class → Prop) : Root → Prop
  | scope _ => True
  | value v => v.Within good

def Flow.Within (good : Class → Prop) : Flow → Prop
  | normal => True
  | returned v => v.Within good

def Store.Within (good : Class → Prop) (s : Store) : Prop := ∀ v, s.Carries [] v → v.Within good

structure Point.Within (good : Class → Prop) (p : Point) : Prop where
  store : p.machine.store.Within good
  inputs : ∀ root ∈ p.task.inputs, root.Within good
  held : ∀ root ∈ p.held, root.Within good

def Task.Yields (good : Class → Prop) : (task : Task) → task.Result → Prop
  | expression _, v | call _ _ _, v | apply _ _ _, v => v.Within good
  | expressions _, vs => ∀ v ∈ vs, v.Within good
  | statement _, flow | statements _, flow | loop _ _, flow => flow.Within good

theorem Value.within_of_atom {v : Value} (atom : v.objects = []) : v.Within good := by
  cases v with
  | «class» type =>
    have member := type.mem_objects
    rw [show type.objects = [] from atom] at member
    cases member
  | «instance» id type => cases atom
  | _ => trivial

theorem Root.within_cons {v : Value} {held : List Root} (known : v.Within good)
    (kept : ∀ root ∈ held, root.Within good) : ∀ root ∈ .value v :: held, root.Within good :=
  List.forall_mem_cons.mpr ⟨known, kept⟩

theorem Point.Within.bare {n : Nat} {held : List Root} {task : Task} {m : Machine}
    (none : task.inputs = []) (store : m.store.Within good) (kept : ∀ root ∈ held, root.Within good) :
    Point.Within good ⟨n, held, task, m⟩ := by
  refine ⟨store, fun root member => ?_, kept⟩
  change root ∈ task.inputs at member
  rw [none] at member
  cases member

theorem Flow.Within.result {flow : Flow} (within : flow.Within good) : flow.result.Within good := by
  cases flow with
  | normal => trivial
  | returned v => exact within

theorem Flow.Within.roots {flow : Flow} (within : flow.Within good) :
    ∀ root ∈ flow.roots, root.Within good := by
  cases flow with
  | normal => exact nofun
  | returned v => exact List.forall_mem_singleton.mpr within

namespace Store

variable {s : Store} {v value : Value}

theorem carries_define {id : ScopeId} {name : String}
    (carries : (s.define id name value).Carries [] v) : s.Carries [] v ∨ v = value := by
  rcases carries with ⟨other, scope, key, found, member⟩ | inFields | held
  · rw [scope?_define] at found
    obtain ⟨before, atOther, rfl⟩ := Option.map_eq_some_iff.mp found
    split at member
    · exact (mem_put member).imp_left fun ⟨key, old⟩ => .inl ⟨other, before, key, atOther, old⟩
    · exact .inl (.inl ⟨other, before, key, atOther, member⟩)
  · exact .inl (.inr (.inl inFields))
  · cases held

theorem carries_setField {id : InstanceId} {name : String}
    (carries : (s.setField id name value).Carries [] v) : s.Carries [] v ∨ v = value := by
  rcases carries with inScope | ⟨other, fields, key, found, member⟩ | held
  · exact .inl (.inl inScope)
  · rw [fields?_setField] at found
    obtain ⟨before, atOther, rfl⟩ := Option.map_eq_some_iff.mp found
    split at member
    · exact (mem_put member).imp_left fun ⟨key, old⟩ => .inr (.inl ⟨other, before, key, atOther, old⟩)
    · exact .inl (.inr (.inl ⟨other, before, key, atOther, member⟩))
  · cases held

theorem carries_newScope {enclosing? : Option ScopeId} {bindings : Bindings}
    (carries : (s.newScope enclosing? bindings).2.Carries [] v) :
    s.Carries [] v ∨ ∃ entry ∈ bindings, entry.2 = v := by
  rcases carries with ⟨id, scope, key, found, member⟩ | inFields | held
  · rcases bindings_newScope found with ⟨_, same⟩ | before
    · exact .inr ⟨_, same ▸ member, rfl⟩
    · exact .inl (.inl ⟨id, scope, key, before, member⟩)
  · exact .inl (.inr (.inl inFields))
  · cases held

theorem carries_newInstance (carries : s.newInstance.2.Carries [] v) : s.Carries [] v := by
  rcases carries with inScope | ⟨id, fields, key, found, member⟩ | held
  · exact .inl inScope
  · rw [fields?_newInstance] at found
    split at found
    · cases found
      cases member
    · exact .inr (.inl ⟨id, fields, key, found, member⟩)
  · cases held

theorem carries_capture {id : ScopeId} (carries : (s.capture id).Carries [] v) : s.Carries [] v := by
  rcases carries with ⟨other, scope, key, found, member⟩ | ⟨other, fields, key, found, member⟩ | held
  · obtain ⟨before, atOther, same⟩ := bindings_capture found
    exact .inl ⟨other, before, key, atOther, same ▸ member⟩
  · rw [fields?_capture] at found
    exact .inr (.inl ⟨other, fields, key, found, member⟩)
  · cases held

theorem carries_free {id : ScopeId} (carries : (s.free id).Carries [] v) : s.Carries [] v := by
  rcases carries with ⟨other, scope, key, found, member⟩ | inFields | held
  · exact .inl ⟨other, scope, key, scope?_of_free found, member⟩
  · exact .inr (.inl inFields)
  · cases held

theorem carries_collect {l : Ledger} {roots : List Root}
    (carries : (collect s l roots).1.Carries [] v) : s.Carries [] v := by
  rcases carries with ⟨id, scope, key, found, member⟩ | ⟨id, fields, key, found, member⟩ | held
  · obtain ⟨before, atId, same | empty⟩ := bindings_collect found
    · exact .inl ⟨id, before, key, atId, same ▸ member⟩
    · rw [empty] at member
      cases member
  · obtain ⟨before, atId, rfl | rfl⟩ := fields_collect found
    · exact .inr (.inl ⟨id, fields, key, atId, member⟩)
    · cases member
  · cases held

namespace Within

variable {id : ScopeId} {name : String} (within : s.Within good)
include within

theorem define (new : value.Within good) : (s.define id name value).Within good := fun v carries =>
  (carries_define carries).elim (within v) fun same => same ▸ new

theorem setField (id : InstanceId) (new : value.Within good) : (s.setField id name value).Within good :=
  fun v carries => (carries_setField carries).elim (within v) fun same => same ▸ new

theorem newScope (enclosing? : Option ScopeId) {bindings : Bindings}
    (new : ∀ entry ∈ bindings, entry.2.Within good) :
    (s.newScope enclosing? bindings).2.Within good := fun v carries =>
  (carries_newScope carries).elim (within v) fun ⟨entry, member, same⟩ => same ▸ new entry member

theorem close (scope : ScopeId) (declaration : FunctionDecl) (isInitializer : Bool) :
    (s.close scope declaration isInitializer).2.Within good := fun v carries =>
  within v (carries_capture (s := s.newIdentity.2) carries)

theorem bind (method : Closure) (id : InstanceId) {type : Class} (known : good type) :
    (s.bind method id type).2.Within good := by
  have receiver : ∀ entry ∈ [("this", Value.instance id type)], entry.2.Within good :=
    fun entry member => List.mem_singleton.mp member ▸ known
  have opened := within.newScope (some method.scope) receiver
  exact fun v carries => opened v (carries_capture (s := (s.newScope (some method.scope) _).2.newIdentity.2)
    carries)

end Within
end Store

/-- A computation leaves only values of good classes, and a result that is as told. -/
def Outcome.Within {α : Type} (good : Class → Prop) (yields : α → Prop) (outcome : Outcome α) : Prop :=
  outcome.Sat (fun value m => yields value ∧ m.store.Within good) (·.store.Within good)

/-- A plan calls points with values of good classes and leaves such values, if what it calls does. -/
def Plan.Within {α : Type} (good : Class → Prop) (yields : α → Prop) : Plan α → Prop
  | .ends outcome => outcome.Within good yields
  | .calls q resume _ => q.Within good ∧ ∀ value m, q.task.Yields good value → m.store.Within good →
      (resume value m).Within good yields

section steps

variable {config : Config} {m : Machine} {n : Nat} {held : List Root} {α β : Type}
  {yields : α → Prop}

theorem Machine.within_pause (held : List Root) (within : m.store.Within good) :
    (m.pause config held).store.Within good := by
  unfold Machine.pause
  simp only
  split
  · exact fun v carries => within v (Store.carries_collect carries)
  · exact within

theorem Machine.within_letGo (held : List Root) (scope : ScopeId) (within : m.store.Within good) :
    (m.letGo config held scope).store.Within good := by
  unfold Machine.letGo
  split
  · exact within
  · exact fun v carries => within v (Store.carries_collect carries)

theorem Machine.within_leave (held : List Root) (previous : ScopeId) (within : m.store.Within good) :
    (m.leave config held previous).store.Within good := by
  unfold Machine.leave Machine.release
  simp only
  split
  · exact Machine.within_pause held (Machine.within_letGo held _ within)
  · exact Machine.within_pause held fun v carries => within v (Store.carries_free carries)

theorem Unwinding.within_run (unwinding : Unwinding) (within : m.store.Within good) :
    (unwinding.run config m).store.Within good := by
  cases unwinding with
  | nothing | counted => exact within
  | back held previous => exact Machine.within_leave held previous within

theorem Outcome.Within.bind {x : Eval β} {next : β → Eval α} {middle : β → Prop}
    (first : (x m).Within good middle)
    (rest : ∀ value m', x m = .done value m' → middle value → m'.store.Within good →
      (next value m').Within good yields) : ((x >>= next) m).Within good yields :=
  Sat.bind first fun value m' ended known => rest value m' ended known.1 known.2

theorem Eval.within_ofExcept {result : Except Fault α} (known : ∀ value, result = .ok value → yields value)
    (within : m.store.Within good) : (Eval.ofExcept result m).Within good yields := by
  cases result with
  | ok value => exact ⟨known value rfl, within⟩
  | error fault => exact within

theorem Eval.within_setStore {result : Except Fault Store} {yields : Unit → Prop} (known : yields ())
    (within : m.store.Within good) (changed : ∀ s, result = .ok s → s.Within good) :
    (setStore result m).Within good yields := by
  cases result with
  | ok s => exact ⟨known, changed s rfl⟩
  | error fault => exact within

theorem Eval.within_lookUp (name : Token) (distance : Distance) (within : m.store.Within good) :
    (lookUp name distance m).Within good (Value.Within good) := by
  cases distance with
  | none => exact within_ofExcept (fun v found => within v (Store.carries_of_read found)) within
  | some distance => exact within_ofExcept (fun v found => within v (Store.carries_of_readAt found)) within

theorem Eval.within_assign (name : Token) (distance : Distance) {v : Value} (known : v.Within good)
    (within : m.store.Within good) : (Eval.assign name distance v m).Within good fun _ => True := by
  cases distance with
  | none =>
    refine within_setStore trivial within fun s assigned => ?_
    obtain ⟨owner, rfl, _⟩ := Store.assign_eq_ok assigned
    exact within.define known
  | some distance =>
    refine within_setStore trivial within fun s assigned => ?_
    obtain ⟨owner, rfl, _⟩ := Store.assignAt_eq_ok assigned
    exact within.define known

theorem Eval.within_property {id : InstanceId} {type : Class} (name : Token) (known : good type)
    (within : m.store.Within good) : (property id type name m).Within good (Value.Within good) := by
  unfold property Store.property
  cases field : (m.store.fields? id).bind (·.lookup name.lexeme) with
  | some v =>
    obtain ⟨fields, found, listed⟩ := Option.bind_eq_some_iff.mp field
    exact ⟨within v (.inr (.inl ⟨id, fields, _, found, mem_of_lookup listed⟩)), within⟩
  | none =>
    cases type.findMethod? name.lexeme with
    | some method => exact ⟨trivial, within.bind method id known⟩
    | none => exact within

theorem Eval.within_superMethod (keyword method : Token) (distance : Distance)
    (within : m.store.Within good) :
    (superMethod keyword method distance m).Within good (Value.Within good) := by
  cases distance with
  | none => exact within
  | some distance =>
    refine Sat.of_done rfl (Sat.bind_ofExcept (fun above _ => ?_) within)
    cases above with
    | «class» superclass =>
      refine Sat.bind_ofExcept (fun receiver found => ?_) within
      have known := within receiver (Store.carries_of_readAt found)
      cases receiver with
      | «instance» id type =>
        cases superclass.findMethod? method.lexeme with
        | some method => exact ⟨trivial, within.bind method id known⟩
        | none => exact within
      | _ => exact within
    | _ => exact within

theorem Eval.within_write {bytes : ByteArray} (within : m.store.Within good) :
    (Machine.write config bytes m).Within good fun _ => True := by
  unfold Machine.write
  split
  · exact ⟨trivial, within⟩
  · simp only
    split
    · exact ⟨trivial, within⟩
    · exact within

theorem Eval.within_closeMethods (scope : ScopeId) (methods : List FunctionDecl)
    (found : List (String × Closure)) {made : List (String × Closure)} {m' : Machine}
    (within : m.store.Within good) (ends : closeMethods scope found methods m = .done made m') :
    m'.store.Within good := by
  induction methods generalizing found m with
  | nil =>
    cases ends
    exact within
  | cons method rest ih =>
    exact ih _ (within.close scope method (method.name.lexeme == initializerName)) ends

/-- A declaration gives its class to its name; everything else it does makes no value of a class. -/
theorem Eval.within_declareClass (name : Token) (superclass? : Option Class)
    (methods : List FunctionDecl) (above : ∀ superclass ∈ superclass?, good superclass)
    (declared : ∀ type : Class, type.Follows name methods → type.superclass? = superclass? → good type)
    (within : m.store.Within good) :
    (declareClass name superclass? methods m).Within good fun _ => True := by
  have made : ∀ (scope : ScopeId) (m : Machine), m.store.Within good → ((do
      let methods ← Eval.closeMethods scope [] methods
      let identity ← Eval.onStore Store.newIdentity
      let m ← Eval.get
      Eval.setStore (m.store.assign m.scope name.lexeme
        (.class (.mk identity name.lexeme superclass? methods)) name.line) : Eval Unit) m).Within good
      fun _ => True := by
    intro scope m within
    obtain ⟨made, s, ends, same, entries⟩ := closeMethods_follows scope methods [] m
    have closed := within_closeMethods scope methods [] within ends
    refine Sat.of_done ends (Sat.of_done rfl (Sat.of_done rfl ?_))
    refine within_setStore trivial closed fun s' assigned => ?_
    obtain ⟨owner, rfl, _⟩ := Store.assign_eq_ok assigned
    have closed' : s.newIdentity.2.Within good := closed
    exact closed'.define (declared _ ⟨rfl, same, fun entry member =>
      (entries entry member).resolve_left (List.not_mem_nil)⟩ rfl)
  refine Sat.of_done rfl (Sat.of_done rfl ?_)
  have named : (m.store.define m.scope name.lexeme .nil).Within good := within.define trivial
  cases superclass? with
  | none => exact Sat.of_done rfl (made m.scope _ named)
  | some superclass =>
    refine Sat.of_done rfl (made _ _ (named.newScope (some m.scope) fun entry member => ?_))
    exact List.mem_singleton.mp member ▸ above superclass rfl

end steps

/-- Something that holds of every class: of a declared one, as long as it holds of its superclass. -/
structure Heritage (config : Config) where
  /-- The points of whose declarations this is known. -/
  ok : Point → Prop
  good : Class → Prop
  calls : ∀ {p q : Point}, ok p → Calls config p q → ok q
  declared : ∀ {p : Point} {name : Token} {superclass? : Option Expr} {methods : List FunctionDecl}
    {type : Class}, ok p → p.task = .statement (.classDecl name superclass? methods) →
    type.Follows name methods → (type.superclass? = none ↔ superclass? = none) →
    (∀ above ∈ type.superclass?, good above) → good type

namespace Plan.Within

variable {config : Config} {α : Type} {yields : α → Prop} {n : Nat} {held : List Root} {m : Machine}

/-- As long as what a plan calls leaves values of good classes, so does the plan, and it calls all
    points with such values. -/
theorem run {plan : Plan α} (within : plan.Within good yields)
    (parts : ∀ q ∈ plan.asked config, q.Within good →
      (q.outcome config).Within good (q.task.Yields good)) :
    (plan.run config).Within good yields ∧ ∀ q ∈ plan.asked config, q.Within good := by
  induction plan with
  | ends outcome => exact ⟨within, List.forall_mem_nil _⟩
  | calls q resume unwinding ih =>
    obtain ⟨first, rest⟩ := within
    have here := parts q (mem_asked_calls.mpr (.inl rfl)) first
    rw [Plan.run, Plan.asked]
    cases ended : q.outcome config with
    | done value m =>
      rw [ended] at here
      obtain ⟨whole, others⟩ := ih value m (rest value m here.1 here.2) fun r asked =>
        parts r (mem_asked_calls.mpr (.inr ⟨value, m, ended, asked⟩))
      exact ⟨whole, List.forall_mem_cons.mpr ⟨first, others⟩⟩
    | failed fault m =>
      rw [ended] at here
      exact ⟨unwinding.within_run here, List.forall_mem_singleton.mpr first⟩
    | unfinished => exact ⟨trivial, List.forall_mem_singleton.mpr first⟩

theorem last {q : Point} (within : q.Within good) : (ask q done).Within good (q.task.Yields good) :=
  ⟨within, fun _ _ known after => ⟨known, after⟩⟩

theorem planExpression (e : Expr) (store : m.store.Within good) (kept : ∀ root ∈ held, root.Within good) :
    (Eval.planExpression n held m e).Within good (Value.Within good) := by
  cases e with
  | literal value =>
    refine ⟨?_, store⟩
    cases value <;> trivial
  | grouping inner => exact last (.bare rfl store kept)
  | unary operator right =>
    exact ⟨.bare rfl store kept, fun right m known store => within_ofExcept (fun v found =>
      Value.within_of_atom (applyUnary_atom found)) store⟩
  | binary left operator right =>
    exact ⟨.bare rfl store kept, fun left m known store =>
      ⟨.bare rfl store (Root.within_cons known kept), fun right m known store =>
        within_ofExcept (fun v found => Value.within_of_atom (applyBinary_atom found)) store⟩⟩
  | logical left operator right =>
    refine ⟨.bare rfl store kept, fun left m known store => ?_⟩
    simp only
    split
    · exact ⟨known, store⟩
    · exact last (.bare rfl store kept)
  | «variable» name distance => exact within_lookUp name distance store
  | assign name value distance =>
    exact ⟨.bare rfl store kept, fun value m known store =>
      .bind (within_assign name distance known store) fun _ _ _ _ after => ⟨known, after⟩⟩
  | call callee paren arguments =>
    refine ⟨.bare rfl store kept, fun callee m known store => ?_⟩
    have kept' := Root.within_cons known kept
    refine ⟨.bare rfl store kept', fun arguments m given store => last ⟨store, ?_, kept'⟩⟩
    exact List.forall_mem_cons.mpr ⟨known, List.forall_mem_map.mpr given⟩
  | get object name =>
    refine ⟨.bare rfl store kept, fun object m known store => ?_⟩
    cases object with
    | «instance» id type => exact within_property name known store
    | _ => exact store
  | set object name value =>
    refine ⟨.bare rfl store kept, fun object m known store => ?_⟩
    cases object with
    | «instance» id type =>
      exact ⟨.bare rfl store (Root.within_cons known kept), fun value m new store =>
        ⟨new, store.setField id new⟩⟩
    | _ => exact store
  | this keyword distance => exact within_lookUp keyword distance store
  | super keyword method distance => exact within_superMethod keyword method distance store

theorem planExpressions (es : List Expr) (store : m.store.Within good)
    (kept : ∀ root ∈ held, root.Within good) :
    (Eval.planExpressions n held m es).Within good fun vs => ∀ v ∈ vs, v.Within good := by
  cases es with
  | nil => exact ⟨nofun, store⟩
  | cons e rest =>
    exact ⟨.bare rfl store kept, fun v m known store =>
      ⟨.bare rfl store (Root.within_cons known kept), fun vs m others after =>
        ⟨List.forall_mem_cons.mpr ⟨known, others⟩, after⟩⟩⟩

theorem planActivity (line : Nat) {arguments : List Value} {callee : Value} (store : m.store.Within good)
    (given : ∀ v ∈ arguments, v.Within good) (known : callee.Within good)
    (kept : ∀ root ∈ held, root.Within good) :
    (Eval.planActivity config n held m line arguments callee).Within good (Value.Within good) := by
  have inputs (function : Closure) :
      ∀ root ∈ (Task.apply function line arguments).inputs, root.Within good :=
    Root.within_cons trivial (List.forall_mem_map.mpr given)
  cases callee with
  | native function =>
    cases function
    exact ⟨trivial, store⟩
  | closure function => exact ⟨⟨store, inputs function, kept⟩, fun v m result after => ⟨result, after⟩⟩
  | «class» type =>
    have made : m.store.newInstance.2.Within good := fun v carries =>
      store v (Store.carries_newInstance carries)
    cases found : type.findMethod? initializerName with
    | none =>
      simp only [Eval.planActivity, found]
      exact ⟨known, made⟩
    | some method =>
      simp only [Eval.planActivity, found]
      exact ⟨⟨made.bind method _ known, inputs _, Root.within_cons known kept⟩,
        fun v m _ after => ⟨known, after⟩⟩
  | _ => exact store

theorem planCallee (line : Nat) {arguments : List Value} {callee : Value} (store : m.store.Within good)
    (given : ∀ v ∈ arguments, v.Within good) (known : callee.Within good)
    (kept : ∀ root ∈ held, root.Within good) :
    (Eval.planCallee config n held m line arguments callee).Within good (Value.Within good) := by
  unfold Eval.planCallee Eval.planCall
  cases callee.arity? with
  | none => exact store
  | some arity =>
    simp only
    split
    · split
      · exact planActivity line store given known kept
      · exact store
    · exact store

theorem planBody (function : Closure) (line : Nat) {arguments : List Value}
    (store : m.store.Within good) (given : ∀ v ∈ arguments, v.Within good)
    (kept : ∀ root ∈ held, root.Within good) :
    (Eval.planBody config n held m function line arguments).Within good (Value.Within good) := by
  have entered : (m.enterFunction function arguments).store.Within good :=
    store.newScope (some function.scope) fun entry member =>
      given entry.2 (Discipline.mem_parameterBindings member)
  refine ⟨.bare rfl entered (List.forall_mem_cons.mpr ⟨trivial, List.forall_mem_cons.mpr
    ⟨trivial, kept⟩⟩), fun flow m' known after => ?_⟩
  have left : (m'.leave config (flow.roots ++ .scope function.scope :: held) m.scope).store.Within good :=
    Machine.within_leave _ _ after
  simp only
  split
  · exact within_ofExcept (fun v found => left v (Store.carries_of_readAt found)) left
  · exact ⟨known.result, left⟩

theorem planStatement {s : Stmt} (store : m.store.Within good) (kept : ∀ root ∈ held, root.Within good)
    (declared : ∀ name superclass? methods (type : Class), s = .classDecl name superclass? methods →
      type.Follows name methods → (type.superclass? = none ↔ superclass? = none) →
      (∀ above ∈ type.superclass?, good above) → good type) :
    (Eval.planStatement config n held m s).Within good (Flow.Within good) := by
  cases s with
  | expression value => exact ⟨.bare rfl store kept, fun _ _ _ after => ⟨trivial, after⟩⟩
  | print value =>
    exact ⟨.bare rfl store kept, fun _ _ _ store =>
      .bind (within_write store) fun _ _ _ _ after => ⟨trivial, after⟩⟩
  | varDecl name initializer? =>
    cases initializer? with
    | none => exact ⟨trivial, store.define trivial⟩
    | some initializer =>
      exact ⟨.bare rfl store kept, fun v m known store => ⟨trivial, store.define known⟩⟩
  | block body =>
    have entered : m.enterBlock.store.Within good := store.newScope (some m.scope) nofun
    exact ⟨.bare rfl entered (List.forall_mem_cons.mpr ⟨trivial, kept⟩), fun flow m' known after =>
      ⟨known, Machine.within_leave _ _ after⟩⟩
  | branch condition thenBranch elseBranch? =>
    refine ⟨.bare rfl store kept, fun v m _ store => ?_⟩
    simp only
    split
    · exact last (.bare rfl store kept)
    · cases elseBranch? with
      | none => exact ⟨trivial, store⟩
      | some elseBranch => exact last (.bare rfl store kept)
  | loop condition body => exact last (.bare rfl store kept)
  | functionDecl declaration =>
    exact ⟨trivial, (store.close m.scope declaration false).define trivial⟩
  | returns keyword value? =>
    cases value? with
    | none => exact ⟨trivial, store⟩
    | some value => exact ⟨.bare rfl store kept, fun v m known after => ⟨known, after⟩⟩
  | classDecl name superclass? methods =>
    cases superclass? with
    | none =>
      refine .bind (within_declareClass name none methods (by simp) (fun type follows same => ?_) store)
        fun _ _ _ _ after => ⟨trivial, after⟩
      exact declared name none methods type rfl follows (by simp [same]) (by simp [same])
    | some superclass =>
      refine ⟨.bare rfl store kept, fun above m known store => ?_⟩
      cases above with
      -- Only a class can be inherited from; with anything else nothing is declared.
      | «class» above =>
        refine .bind (within_declareClass name (some above) methods ?_ (fun type follows same => ?_)
          store) fun _ _ _ _ after => ⟨trivial, after⟩
        · exact fun _ same => Option.some.inj same ▸ known
        · refine declared name (some superclass) methods type rfl follows (by simp [same]) ?_
          rw [same]
          exact fun _ same => Option.some.inj same ▸ known
      | _ => exact store

theorem planStatements (ss : List Stmt) (store : m.store.Within good)
    (kept : ∀ root ∈ held, root.Within good) :
    (Eval.planStatements n held m ss).Within good (Flow.Within good) := by
  cases ss with
  | nil => exact ⟨trivial, store⟩
  | cons s rest =>
    refine ⟨.bare rfl store kept, fun flow m known store => ?_⟩
    cases flow with
    | normal => exact last (.bare rfl store kept)
    | returned v => exact ⟨known, store⟩

theorem planLoop (condition : Expr) (body : Stmt) (store : m.store.Within good)
    (kept : ∀ root ∈ held, root.Within good) :
    (Eval.planLoop n held m condition body).Within good (Flow.Within good) := by
  refine ⟨.bare rfl store kept, fun v m _ store => ?_⟩
  simp only
  split
  · refine ⟨.bare rfl store kept, fun flow m known store => ?_⟩
    cases flow with
    | normal => exact last (.bare rfl store kept)
    | returned v => exact ⟨known, store⟩
  · exact ⟨trivial, store⟩

end Plan.Within

namespace Heritage

variable {config : Config} (H : Heritage config) {p q : Point}

theorem plan (ok : H.ok p) (within : p.Within H.good) :
    (p.plan config).Within H.good (p.task.Yields H.good) := by
  obtain ⟨steps, held, task, m⟩ := p
  obtain ⟨store, inputs, kept⟩ := within
  cases steps with
  | zero => cases task <;> exact trivial
  | succ n =>
    cases task with
    | expression e => exact Plan.Within.planExpression e store kept
    | expressions es => exact Plan.Within.planExpressions es store kept
    | call callee line arguments =>
      obtain ⟨known, given⟩ := List.forall_mem_cons.mp inputs
      exact Plan.Within.planCallee line store (fun v member => given _ (List.mem_map_of_mem member))
        known kept
    | apply function line arguments =>
      obtain ⟨_, given⟩ := List.forall_mem_cons.mp inputs
      exact Plan.Within.planBody function line store (fun v member => given _ (List.mem_map_of_mem member))
        kept
    | statement s =>
      refine Plan.Within.planStatement store kept fun name superclass? methods type same => ?_
      exact H.declared ok (congrArg Task.statement same)
    | statements ss => exact Plan.Within.planStatements ss store kept
    | loop condition body => exact Plan.Within.planLoop condition body store kept

theorem point (ok : H.ok p) (within : p.Within H.good) :
    (p.outcome config).Within H.good (p.task.Yields H.good) ∧
      ∀ q, Calls config p q → q.Within H.good := by
  induction steps : p.steps using Nat.strongRecOn generalizing p with
  | ind n ih =>
    have parts : ∀ q ∈ p.parts config, q.Within H.good →
        (q.outcome config).Within H.good (q.task.Yields H.good) := fun q asked inside => by
      have calls := Point.calls_of_mem_parts asked
      have fewer := calls.steps_eq
      exact (ih q.steps (by omega) (H.calls ok calls) inside rfl).1
    have whole := (H.plan ok within).run parts
    rw [Point.run_plan] at whole
    exact ⟨whole.1, fun q calls => whole.2 q (Point.mem_parts.mpr calls)⟩

theorem of_reaches (ok : H.ok p) (within : p.Within H.good) (reaches : Reaches config p q) :
    q.Within H.good := by
  have both : H.ok q ∧ q.Within H.good := by
    induction reaches with
    | refl => exact ⟨ok, within⟩
    | step _ calls ih => exact ⟨H.calls ih.1 calls, (H.point ih.1 ih.2).2 _ calls⟩
  exact both.2

variable {steps : Nat} {held : List Root} {m : Machine}

theorem of_launches {keep : Flow → List Root} {ss : List Stmt}
    (yielded : ∀ flow : Flow, flow.Within H.good → ∀ root ∈ keep flow, root.Within H.good)
    (launches : Launches config steps keep held ss m p)
    (ok : ∀ p, Launches config steps keep held ss m p → H.ok p) (store : m.store.Within H.good)
    (kept : ∀ root ∈ held, root.Within H.good) : p.Within H.good := by
  induction launches with
  | first => exact .bare rfl store kept
  | others ended later ih =>
    obtain ⟨known, after⟩ := Sat.done_of_eq (H.point (ok _ .first) (.bare rfl store kept)).1 ended
    refine ih (fun p launches => ok p (.others ended launches)) after fun root member => ?_
    exact (List.mem_append.mp member).elim (yielded _ known root) (kept root)

theorem program (ss : List Stmt) (ok : ∀ p, Launches config steps (fun _ => []) held ss m p → H.ok p)
    (store : m.store.Within H.good) (kept : ∀ root ∈ held, root.Within H.good) :
    (executeProgram config steps held ss m).Within H.good fun _ => True := by
  induction ss generalizing m with
  | nil => exact ⟨trivial, store⟩
  | cons s rest ih =>
    refine .bind (H.point (ok _ .first) (.bare rfl store kept)).1 fun flow m' ended _ after => ?_
    exact ih (fun p launches => ok p (.others ended launches)) after

theorem each (ss : List Stmt) (ok : ∀ p, Launches config steps Flow.roots held ss m p → H.ok p)
    (store : m.store.Within H.good) (kept : ∀ root ∈ held, root.Within H.good) :
    (Session.executeEach config steps held ss m).Within H.good
      fun flows => ∀ root ∈ flows.flatMap Flow.roots, root.Within H.good := by
  induction ss generalizing m held with
  | nil => exact ⟨nofun, store⟩
  | cons s rest ih =>
    refine .bind (H.point (ok _ .first) (.bare rfl store kept)).1 fun flow m' ended known after => ?_
    have yielded := Flow.Within.roots known
    refine .bind (ih (fun p launches => ok p (.others ended launches)) after
      (List.forall_mem_append.mpr ⟨yielded, kept⟩)) fun flows m'' _ others last => ⟨?_, last⟩
    show ∀ root ∈ (flow :: flows).flatMap Flow.roots, root.Within H.good
    rw [List.flatMap_cons]
    exact List.forall_mem_append.mpr ⟨yielded, others⟩

theorem turn {turn : Turn} (ok : ∀ p, turn.Starts config p → H.ok p)
    (store : turn.machine.store.Within H.good) (kept : ∀ root ∈ turn.held, root.Within H.good) :
    (turn.outcome config).Within H.good fun result => ∀ root ∈ result.roots, root.Within H.good := by
  obtain ⟨steps, held, work, m⟩ := turn
  cases work with
  | program ss =>
    have ran : (interpret config steps held ss m).Within H.good fun _ => True := by
      refine Sat.of_done rfl ?_
      exact Sat.bind (H.program ss (fun p launches => ok p (.program launches)) store kept)
        fun _ m' _ left => ⟨trivial, Machine.within_pause held left.2⟩
    exact .bind ran fun _ _ _ _ after => ⟨nofun, after⟩
  | expression e =>
    refine .bind (H.point (ok _ .expression) (.bare rfl store kept)).1 fun v m' _ known after => ?_
    exact ⟨List.forall_mem_singleton.mpr known, after⟩
  | statements ss =>
    exact .bind (H.each ss (fun p launches => ok p (.statements launches)) store kept)
      fun _ _ _ known after => ⟨known, after⟩

theorem of_past {turns : List Turn} (past : Past config turns m held)
    (ok : ∀ turn ∈ turns, ∀ p, turn.Starts config p → H.ok p) :
    m.store.Within H.good ∧ ∀ root ∈ held, root.Within H.good := by
  induction past with
  | start =>
    refine ⟨fun v carries => ?_, nofun⟩
    rcases Store.carries_newScope carries with empty | ⟨entry, member, rfl⟩
    · rcases empty with ⟨id, scope, name, found, _⟩ | ⟨id, fields, name, found, _⟩ | held
      · simp [Store.empty, Store.scope?] at found
      · simp [Store.empty, Store.fields?] at found
      · cases held
    · obtain ⟨function, _, rfl⟩ := List.mem_map.mp member
      trivial
  | done past fewer ended ih =>
    obtain ⟨store, kept⟩ := ih fun turn old => ok turn (List.mem_cons_of_mem _ old)
    have held := fun root member => kept root (fewer member)
    obtain ⟨known, after⟩ := Sat.done_of_eq (H.turn (ok _ List.mem_cons_self) store held) ended
    exact ⟨after, List.forall_mem_append.mpr ⟨known, held⟩⟩
  | failed past fewer ended ih =>
    obtain ⟨store, kept⟩ := ih fun turn old => ok turn (List.mem_cons_of_mem _ old)
    have held := fun root member => kept root (fewer member)
    exact ⟨Sat.failed_of_eq (H.turn (ok _ List.mem_cons_self) store held) ended, held⟩

theorem of_passes {turns : List Turn} {turn : Turn} (past : Past config turns turn.machine held)
    (fewer : turn.held ⊆ held) (ok : ∀ each ∈ turn :: turns, ∀ p, each.Starts config p → H.ok p)
    (passes : turn.Passes config p) : p.Within H.good := by
  obtain ⟨start, starts, reaches⟩ := passes
  obtain ⟨store, kept⟩ := H.of_past past fun each old => ok each (List.mem_cons_of_mem _ old)
  have held := fun root member => kept root (fewer member)
  have here := ok turn List.mem_cons_self
  refine H.of_reaches (here start starts) ?_ reaches
  cases starts with
  | program launches =>
    exact H.of_launches (fun _ _ _ => List.not_mem_nil.elim) launches (fun p launches => here p (.program launches)) store held
  | expression => exact .bare rfl store held
  | statements launches =>
    exact H.of_launches (fun _ known => known.roots) launches
      (fun p launches => here p (.statements launches)) store held

end Heritage
end Lox
