import Mathlib.Data.List.Forall2
import Lox.Proofs.Loops.Deepened
import Lox.Proofs.Machine.Plans

namespace Lox

/-- What exists in two runs, side by side. -/
structure World where
  /-- The numbers stand for the same. -/
  pairs : Nat → Nat → Prop
  /-- What is in the first scope in one run is in the second scope in the other one, and the one run
      has an additional scope at the depth. At the depth zero the first scope is the additional one. -/
  places : ScopeId → ScopeId → Depth → Prop

def Entries {α β : Type} (related : α → β → Prop) (a : String × α) (b : String × β) : Prop :=
  a.1 = b.1 ∧ related a.2 b.2

theorem lookup_related {α β : Type} {related : α → β → Prop} {table : List (String × α)}
    {table' : List (String × β)} (all : List.Forall₂ (Entries related) table table') (name : String) :
    Option.Rel related (table.lookup name) (table'.lookup name) := by
  induction all with
  | nil => exact .none
  | @cons a b rest rest' first others ih =>
    obtain ⟨key, value⟩ := a
    obtain ⟨key', value'⟩ := b
    obtain ⟨rfl, here⟩ := first
    rw [lookup_entry, lookup_entry]
    split
    · exact .some here
    · exact ih

namespace World

structure Later (w w' : World) : Prop where
  pairs : ∀ {x y : Nat}, w.pairs x y → w'.pairs x y
  places : ∀ {a b : ScopeId} {depth : Depth}, w.places a b depth → w'.places a b depth

theorem Later.refl (w : World) : w.Later w := ⟨id, id⟩

theorem Later.trans {w w' w'' : World} (first : w.Later w') (second : w'.Later w'') : w.Later w'' :=
  ⟨fun pair => second.pairs (first.pairs pair), fun place => second.places (first.places place)⟩

/-- Two functions whose code runs inside `within` scopes, besides that of the call, in the scope that
    they close over. -/
structure Closures (w : World) (within : Nat) (f f' : Closure) : Prop where
  identity : w.pairs f.identity f'.identity
  isInitializer : f.isInitializer = f'.isInitializer
  placed : ∃ depth, w.places f.scope f'.scope depth ∧ depth ≠ some 0 ∧
    FunctionDecl.Deepened (depth.inside within) f.declaration f'.declaration

/-- Two classes. Their methods run inside the scope that a method gets when it is bound. -/
inductive Classes (w : World) : Class → Class → Prop where
  | base {identity identity' : Nat} {name : String} {methods methods' : List (String × Closure)}
      (same : w.pairs identity identity')
      (declared : List.Forall₂ (Entries (w.Closures 1)) methods methods') :
      Classes w (.mk identity name none methods) (.mk identity' name none methods')
  | subclass {identity identity' : Nat} {name : String} {superclass superclass' : Class}
      {methods methods' : List (String × Closure)} (same : w.pairs identity identity')
      (above : Classes w superclass superclass')
      (declared : List.Forall₂ (Entries (w.Closures 1)) methods methods') :
      Classes w (.mk identity name (some superclass) methods)
        (.mk identity' name (some superclass') methods')

inductive Values (w : World) : Value → Value → Prop where
  | nil : Values w .nil .nil
  | bool {value : Bool} : Values w (.bool value) (.bool value)
  | number {value : Float} : Values w (.number value) (.number value)
  | string {text : String} : Values w (.string text) (.string text)
  | native {function : NativeFunction} : Values w (.native function) (.native function)
  | closure {f f' : Closure} (code : w.Closures 0 f f') : Values w (.closure f) (.closure f')
  | class {type type' : Class} (code : w.Classes type type') : Values w (.class type) (.class type')
  | instance {id id' : InstanceId} {type type' : Class} (same : w.pairs id.index id'.index)
      (code : w.Classes type type') : Values w (.instance id type) (.instance id' type')

abbrev Bound (w : World) : Bindings → Bindings → Prop := List.Forall₂ (Entries w.Values)

structure Exact (w : World) : Prop where
  right : ∀ {x y y' : Nat}, w.pairs x y → w.pairs x y' → y = y'
  left : ∀ {x x' y : Nat}, w.pairs x y → w.pairs x' y → x = x'

section later

variable {w w' : World} (after : w.Later w')
include after

theorem Closures.later {within : Nat} {f f' : Closure} (closures : w.Closures within f f') :
    w'.Closures within f f' := by
  obtain ⟨depth, place, code⟩ := closures.placed
  exact ⟨after.pairs closures.identity, closures.isInitializer, depth, after.places place, code⟩

theorem methods_later {methods methods' : List (String × Closure)}
    (declared : List.Forall₂ (Entries (w.Closures 1)) methods methods') :
    List.Forall₂ (Entries (w'.Closures 1)) methods methods' :=
  declared.imp fun _ _ entries => ⟨entries.1, entries.2.later after⟩

theorem Classes.later {type type' : Class} (classes : w.Classes type type') :
    w'.Classes type type' := by
  induction classes with
  | base same declared => exact .base (after.pairs same) (methods_later after declared)
  | subclass same _ declared ih =>
    exact .subclass (after.pairs same) ih (methods_later after declared)

theorem Values.later {v v' : Value} (values : w.Values v v') : w'.Values v v' := by
  cases values with
  | nil => exact .nil
  | bool => exact .bool
  | number => exact .number
  | string => exact .string
  | native => exact .native
  | closure code => exact .closure (code.later after)
  | «class» code => exact .class (code.later after)
  | «instance» same code => exact .instance (after.pairs same) (code.later after)

theorem bound_later {bindings bindings' : Bindings} (bound : w.Bound bindings bindings') :
    w'.Bound bindings bindings' :=
  bound.imp fun _ _ entries => ⟨entries.1, entries.2.later after⟩

end later

variable {w : World}

theorem Classes.identity {type type' : Class} (classes : w.Classes type type') :
    w.pairs type.identity type'.identity := by
  cases classes <;> assumption

theorem Classes.name {type type' : Class} (classes : w.Classes type type') :
    type.name = type'.name := by
  cases classes <;> rfl

theorem Closures.name {within : Nat} {f f' : Closure} (closures : w.Closures within f f') :
    f.name = f'.name := by
  obtain ⟨_, _, _, code⟩ := closures.placed
  exact congrArg Token.lexeme code.name

theorem Closures.arity {within : Nat} {f f' : Closure} (closures : w.Closures within f f') :
    f.arity = f'.arity := by
  obtain ⟨_, _, _, code⟩ := closures.placed
  exact congrArg List.length code.params

theorem Classes.findMethod? {type type' : Class} (classes : w.Classes type type') (name : String) :
    Option.Rel (w.Closures 1) (type.findMethod? name) (type'.findMethod? name) := by
  induction classes with
  | base _ declared =>
    rw [Class.findMethod?, Class.findMethod?]
    exact lookup_related declared name
  | subclass _ _ declared ih =>
    have own := lookup_related declared name
    rw [Class.findMethod?, Class.findMethod?]
    generalize List.lookup name _ = here at own
    generalize List.lookup name _ = there at own
    cases own with
    | some closures => exact .some closures
    | none => exact ih

theorem Classes.arity {type type' : Class} (classes : w.Classes type type') :
    type.arity = type'.arity := by
  have found := classes.findMethod? initializerName
  unfold Class.arity
  generalize type.findMethod? initializerName = here at found
  generalize type'.findMethod? initializerName = there at found
  cases found with
  | some closures => exact closures.arity
  | none => rfl

theorem Values.arity? {v v' : Value} (values : w.Values v v') : v.arity? = v'.arity? := by
  cases values with
  | closure code => exact congrArg some code.arity
  | «class» code => exact congrArg some code.arity
  | _ => rfl

theorem Values.text {v v' : Value} (values : w.Values v v') : v.text = v'.text := by
  cases values with
  | closure code =>
    unfold Value.text
    dsimp only
    rw [code.name]
  | «class» code =>
    unfold Value.text
    dsimp only
    rw [code.name]
  | «instance» _ code =>
    unfold Value.text
    dsimp only
    rw [code.name]
  | _ => rfl

theorem Values.isTruthy {v v' : Value} (values : w.Values v v') : v.isTruthy = v'.isTruthy := by
  cases values <;> rfl

theorem Values.ofConstant (value : Constant) :
    w.Values (Value.ofConstant value) (Value.ofConstant value) := by
  cases value with
  | number => exact .number
  | string => exact .string
  | bool => exact .bool
  | nil => exact .nil

theorem Values.atom {v : Value} (atom : v.objects = []) : w.Values v v := by
  cases v with
  | nil => exact .nil
  | bool value => exact .bool
  | number value => exact .number
  | string text => exact .string
  | native function => exact .native
  | closure function => cases atom
  | «class» type => exact absurd atom (List.ne_nil_of_mem type.mem_objects)
  | «instance» id type => cases atom

theorem Exact.beq (exact' : w.Exact) {x x' y y' : Nat} (first : w.pairs x x')
    (second : w.pairs y y') : (x == y) = (x' == y') := by
  by_cases same : x = y
  · subst same
    rw [exact'.right first second, beq_self_eq_true, beq_self_eq_true]
  · have differs : x' ≠ y' := by
      rintro rfl
      exact same (exact'.left first second)
    rw [beq_false_of_ne same, beq_false_of_ne differs]

theorem Values.equals (exact' : w.Exact) {u u' v v' : Value} (left : w.Values u u')
    (right : w.Values v v') : u.equals v = u'.equals v' := by
  cases left with
  | closure code =>
    cases right with
    | closure code' => exact exact'.beq code.identity code'.identity
    | _ => rfl
  | «class» code =>
    cases right with
    | «class» code' => exact exact'.beq code.identity code'.identity
    | _ => rfl
  | «instance» same _ =>
    cases right with
    | «instance» same' _ => exact exact'.beq same same'
    | _ => rfl
  | _ => cases right <;> rfl

theorem Values.applyUnary {v v' : Value} (values : w.Values v v') (operator : Token) :
    applyUnary operator v = applyUnary operator v' := by
  unfold Lox.applyUnary
  rw [values.isTruthy]
  split
  · cases values <;> rfl
  · rfl
  · rfl

theorem Values.applyBinary (exact' : w.Exact) {u u' v v' : Value} (left : w.Values u u')
    (right : w.Values v v') (operator : Token) :
    applyBinary operator u v = applyBinary operator u' v' := by
  unfold Lox.applyBinary
  rw [left.equals exact' right]
  split
  · rfl
  · rfl
  · cases left <;> cases right <;> rfl
  · cases left <;> cases right <;> rfl

theorem Values.decidesAlone {v v' : Value} (values : w.Values v v') (operator : Token) :
    decidesAlone operator v = decidesAlone operator v' := by
  unfold Lox.decidesAlone
  rw [values.isTruthy]

theorem Bound.put {bindings bindings' : Bindings} (bound : w.Bound bindings bindings') (name : String)
    {v v' : Value} (values : w.Values v v') :
    w.Bound (Bindings.put name v bindings) (Bindings.put name v' bindings') := by
  induction bound with
  | nil => exact .cons ⟨rfl, values⟩ .nil
  | @cons a b rest rest' first others ih =>
    obtain ⟨key, old⟩ := a
    obtain ⟨key', old'⟩ := b
    obtain ⟨rfl, here⟩ := first
    rw [Bindings.put, Bindings.put]
    split
    · exact .cons ⟨rfl, values⟩ others
    · exact .cons ⟨rfl, here⟩ ih

theorem bound_parameters (params : List Token) {arguments arguments' : List Value}
    (values : List.Forall₂ w.Values arguments arguments') :
    w.Bound (Eval.parameterBindings params arguments) (Eval.parameterBindings params arguments') := by
  have folded : ∀ (bindings bindings' : Bindings), w.Bound bindings bindings' →
      w.Bound
        ((params.zip arguments).foldl (fun bound entry => Bindings.put entry.1.lexeme entry.2 bound)
          bindings)
        ((params.zip arguments').foldl (fun bound entry => Bindings.put entry.1.lexeme entry.2 bound)
          bindings') := by
    induction values generalizing params with
    | nil =>
      intro bindings bindings' bound
      rw [List.zip_nil_right]
      exact bound
    | cons first others ih =>
      intro bindings bindings' bound
      cases params with
      | nil => exact bound
      | cons param rest => exact ih rest _ _ (Bound.put bound param.lexeme first)
  exact folded [] [] .nil

end World
end Lox
