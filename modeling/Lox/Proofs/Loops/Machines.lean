import Lox.Proofs.Agreement.Simulation
import Lox.Proofs.Loops.Operations
import Lox.Proofs.Rewording.Machines

namespace Lox

open DisciplineData

abbrev Machine.Sound (m : Machine) (held : List Root) : Prop :=
  DisciplineData.unrestricted.Safe m.store (m.roots held)

namespace World

/-- Two machines, of which the first one has an additional scope at the depth. -/
structure Machines (w : World) (depth : Depth) (m m' : Machine) : Prop where
  globals : w.places m.globals m'.globals none
  scope : w.places m.scope m'.scope depth
  active : m.depth = m'.depth
  output : m.output = m'.output
  readings : m.readings = m'.readings
  stores : w.Stores m.store m'.store

inductive Outcomes {α α' : Type} (w : World) (depth : Depth) (related : World → α → α' → Prop) :
    Outcome α → Outcome α' → Prop where
  | done {w' : World} {v : α} {v' : α'} {m m' : Machine} (after : w.Later w')
      (value : related w' v v') (machines : w'.Machines depth m m') :
      Outcomes w depth related (.done v m) (.done v' m')
  | failed {w' : World} {fault : Fault} {m m' : Machine} (after : w.Later w')
      (machines : w'.Machines depth m m') : Outcomes w depth related (.failed fault m) (.failed fault m')
  | unfinished : Outcomes w depth related .unfinished .unfinished

inductive Flows (w : World) : Flow → Flow → Prop where
  | normal : Flows w .normal .normal
  | returned {v v' : Value} (values : w.Values v v') : Flows w (.returned v) (.returned v')

variable {w w' : World} {depth : Depth} {m m' : Machine} {held : List Root}

theorem Flows.result {flow flow' : Flow} (flows : w.Flows flow flow') :
    w.Values flow.result flow'.result := by
  cases flows with
  | normal => exact .nil
  | returned values => exact values

theorem Machines.replace (machines : w.Machines depth m m') (after : w.Later w') {s t : Store}
    (stores : w'.Stores s t) : w'.Machines depth { m with store := s } { m' with store := t } :=
  ⟨after.places machines.globals, after.places machines.scope, machines.active, machines.output,
    machines.readings, stores⟩

theorem Machines.deepen (machines : w.Machines depth m m') :
    w.Machines depth { m with depth := m.depth + 1 } { m' with depth := m'.depth + 1 } :=
  ⟨machines.globals, machines.scope, congrArg (· + 1) machines.active, machines.output,
    machines.readings, machines.stores⟩

theorem Machines.surface (machines : w.Machines depth m m') :
    w.Machines depth { m with depth := m.depth - 1 } { m' with depth := m'.depth - 1 } :=
  ⟨machines.globals, machines.scope, congrArg (· - 1) machines.active, machines.output,
    machines.readings, machines.stores⟩

theorem Machines.move (machines : w.Machines depth m m') {a b : ScopeId} {there : Depth}
    (place : w.places a b there) : w.Machines there { m with scope := a } { m' with scope := b } :=
  ⟨machines.globals, place, machines.active, machines.output, machines.readings, machines.stores⟩

namespace Outcomes

variable {α α' β β' : Type} {related : World → α → α' → Prop} {related' : World → β → β' → Prop}

theorem later {o : Outcome α} {o' : Outcome α'} (outcomes : w'.Outcomes depth related o o')
    (after : w.Later w') : w.Outcomes depth related o o' := by
  cases outcomes with
  | done after' value machines => exact .done (after.trans after') value machines
  | failed after' machines => exact .failed (after.trans after') machines
  | unfinished => exact .unfinished

theorem andThen {x : Eval α} {y : Eval α'} {next : α → Eval β} {next' : α' → Eval β'}
    (first : w.Outcomes depth related (x m) (y m'))
    (rest : ∀ {w' v v' n n'}, w.Later w' → x m = .done v n → related w' v v' →
      w'.Machines depth n n' → w'.Outcomes depth related' (next v n) (next' v' n')) :
    w.Outcomes depth related' (Eval.andThen x next m) (Eval.andThen y next' m') := by
  unfold Eval.andThen
  generalize here : x m = ends at first
  generalize y m' = ends' at first
  cases first with
  | done after value machines => exact (rest after here value machines).later after
  | failed after machines => exact .failed after machines
  | unfinished => exact .unfinished

/-- Only what the operation leaves matters, not what it yields. -/
theorem andThen_result {x : Eval α} {y : Eval α'} {v : β} {v' : β'}
    (first : w.Outcomes depth related (x m) (y m'))
    (value : ∀ {w'}, w.Later w' → related' w' v v') :
    w.Outcomes depth related' (Eval.andThen x (fun _ => Eval.result v) m)
      (Eval.andThen y (fun _ => Eval.result v') m') :=
  andThen first fun after _ _ machines => .done (.refl _) (value after) machines

theorem ofExcept (machines : w.Machines depth m m') {attempt : Except Fault α}
    {attempt' : Except Fault α'} (attempts : Attempts (related w) attempt attempt') :
    w.Outcomes depth related (Eval.ofExcept attempt m) (Eval.ofExcept attempt' m') := by
  cases attempts with
  | ok done => exact .done (.refl w) done machines
  | error => exact .failed (.refl w) machines

theorem bind_ofExcept (machines : w.Machines depth m m') {attempt : Except Fault α}
    {attempt' : Except Fault α'} {next : α → Eval β} {next' : α' → Eval β'}
    (attempts : Attempts (related w) attempt attempt')
    (rest : ∀ v v', attempt = .ok v → related w v v' →
      w.Outcomes depth related' (next v m) (next' v' m')) :
    w.Outcomes depth related' ((Eval.ofExcept attempt >>= next) m)
      ((Eval.ofExcept attempt' >>= next') m') := by
  cases attempts with
  | ok done => exact rest _ _ rfl done
  | error => exact .failed (.refl w) machines

theorem setStore (machines : w.Machines depth m m') {attempt attempt' : Except Fault Store}
    (attempts : Attempts w.Stores attempt attempt') :
    w.Outcomes depth (fun _ _ _ => True) (Eval.setStore attempt m) (Eval.setStore attempt' m') := by
  cases attempts with
  | ok stores => exact .done (.refl w) trivial (machines.replace (.refl w) stores)
  | error => exact .failed (.refl w) machines

theorem asCall {x : Eval α} {y : Eval α'}
    (called : w.Outcomes depth related (x { m with depth := m.depth + 1 })
      (y { m' with depth := m'.depth + 1 })) :
    w.Outcomes depth related (Eval.asCall x m) (Eval.asCall y m') := by
  unfold Eval.asCall
  generalize x { m with depth := m.depth + 1 } = o at called
  generalize y { m' with depth := m'.depth + 1 } = o' at called
  cases called with
  | done after value machines => exact .done after value machines.surface
  | failed after machines => exact .failed after machines.surface
  | unfinished => exact .unfinished

end Outcomes

section standing

theorem stands_scope (sound : m.Sound held) : m.store.Stands m.scope :=
  sound.stands _ (List.mem_cons_of_mem _ List.mem_cons_self)

theorem stands_globals (sound : m.Sound held) : m.store.Stands m.globals :=
  sound.stands _ List.mem_cons_self

/-- The scope that a method of a class in use closes over exists, with all around it. -/
theorem stands_method (sound : m.Sound held) {v : Value}
    (carries : m.store.Carries (m.roots held) v) {type : Class}
    (known : v = .class type ∨ ∃ id, v = .instance id type) {name : String} {method : Closure}
    (declared : type.findMethod? name = some method) : m.store.Stands method.scope := by
  have member := Class.closure_mem_of_findMethod? declared
  have admits := sound.admits v carries
  have closed : m.store.Captured method.scope := by
    rcases known with rfl | ⟨id, rfl⟩ <;> exact (admits method member).1
  exact sound.closed.stands sound.sound.nested closed

end standing

namespace Machines

variable (machines : w.Machines depth m m')
include machines

theorem lookUp (sound : m.Sound held) (name : Token) (slot : Distance) :
    w.Outcomes depth World.Values (Eval.lookUp name (slot.map depth.shift) m)
      (Eval.lookUp name slot m') := by
  cases slot with
  | some d =>
    exact .ofExcept machines
      (machines.stores.readAt machines.scope (stands_scope sound) d name.lexeme name.line)
  | none =>
    exact .ofExcept machines
      (machines.stores.read machines.globals (stands_globals sound) name.lexeme name.line)

theorem assign (sound : m.Sound held) (name : Token) (slot : Distance) {v v' : Value}
    (values : w.Values v v') :
    w.Outcomes depth (fun _ _ _ => True) (Eval.assign name (slot.map depth.shift) v m)
      (Eval.assign name slot v' m') := by
  cases slot with
  | some d =>
    exact .setStore machines (machines.stores.assignAt machines.scope (stands_scope sound) d
      name.lexeme values name.line)
  | none =>
    exact .setStore machines (machines.stores.assign machines.globals (stands_globals sound)
      name.lexeme values name.line)

theorem define (declaring : depth ≠ some 0) (name : Token) {v v' : Value} (values : w.Values v v') :
    w.Outcomes depth (fun _ _ _ => True) (Eval.define name v m) (Eval.define name v' m') :=
  .done (.refl w) trivial (machines.replace (.refl w)
    (machines.stores.define (machines.stores.regular machines.scope declaring).1 name.lexeme values))

theorem property {id id' : InstanceId} {type type' : Class}
    (sound : m.Sound (.value (.instance id type) :: held))
    (receiver : w.Values (.instance id type) (.instance id' type')) (name : Token) :
    w.Outcomes depth World.Values (Eval.property id type name m) (Eval.property id' type' name m') := by
  cases receiver with
  | «instance» same code =>
    have owned : Option.Rel w.Values ((m.store.fields? id).bind (·.lookup name.lexeme))
        ((m'.store.fields? id').bind (·.lookup name.lexeme)) := by
      have fields := machines.stores.fields same
      generalize m.store.fields? id = here at fields ⊢
      generalize m'.store.fields? id' = there at fields ⊢
      cases fields with
      | none => exact .none
      | some bound => exact lookup_related bound name.lexeme
    have inherited := code.findMethod? name.lexeme
    unfold Eval.property Store.property
    generalize (m.store.fields? id).bind (·.lookup name.lexeme) = field at owned ⊢
    generalize (m'.store.fields? id').bind (·.lookup name.lexeme) = field' at owned ⊢
    cases owned with
    | some values => exact .done (.refl w) values machines
    | none =>
      generalize declared : type.findMethod? name.lexeme = method? at inherited ⊢
      generalize type'.findMethod? name.lexeme = method'? at inherited ⊢
      cases inherited with
      | none => exact .failed (.refl w) machines
      | some method =>
        have carries : m.store.Carries (m.roots (.value (.instance id type) :: held))
            (.instance id type) :=
          .inr (.inr (List.mem_cons_of_mem _ (List.mem_cons_of_mem _ List.mem_cons_self)))
        obtain ⟨w', after, bound, stores⟩ := machines.stores.bind sound.sound.numbered method
          (.instance same code) (stands_method sound carries (.inr ⟨id, rfl⟩) declared)
        exact .done after (.closure bound) (machines.replace after stores)

/-- A method of a superclass, bound to `this`. The scope that holds `this` is the one just inside. -/
theorem superMethod (sound : m.Sound held) (keyword method : Token) (slot : Distance)
    (apart : ∀ d, slot = some d → depth ≠ some d) :
    w.Outcomes depth World.Values (Eval.superMethod keyword method (slot.map depth.shift) m)
      (Eval.superMethod keyword method slot m') := by
  cases slot with
  | none => exact .failed (.refl w) machines
  | some d =>
    have stands := stands_scope sound
    have above := machines.stores.readAt machines.scope stands d "super" keyword.line
    have receiver := machines.stores.readAt machines.scope stands (d - 1) "this" keyword.line
    rw [Depth.shift_pred (apart d rfl)] at receiver
    refine .bind_ofExcept machines above fun v v' found values => ?_
    have carries : m.store.Carries (m.roots held) v := Store.carries_of_readAt found
    cases values with
    | @«class» superclass superclass' code =>
      refine .bind_ofExcept machines receiver fun u u' _ instances => ?_
      cases instances with
      | «instance» same code' =>
        have inherited := code.findMethod? method.lexeme
        dsimp only
        generalize declared : superclass.findMethod? method.lexeme = method? at inherited ⊢
        generalize superclass'.findMethod? method.lexeme = method'? at inherited ⊢
        cases inherited with
        | none => exact .failed (.refl w) machines
        | some found =>
          obtain ⟨w', later, bound, stores⟩ := machines.stores.bind sound.sound.numbered found
            (.instance same code') (stands_method sound carries (.inl rfl) declared)
          exact .done later (.closure bound) (machines.replace later stores)
      | _ => exact .failed (.refl w) machines
    | _ => exact .failed (.refl w) machines

theorem write (config : Config) (bytes : ByteArray) :
    w.Outcomes depth (fun _ _ _ => True) (Machine.write config bytes m)
      (Machine.write config bytes m') := by
  have printed : ∀ output, w.Machines depth { m with output := output } { m' with output := output } :=
    fun output => ⟨machines.globals, machines.scope, machines.active, rfl, machines.readings,
      machines.stores⟩
  unfold Machine.write
  rw [← machines.output]
  cases config.capacity? with
  | none => exact .done (.refl w) trivial (printed _)
  | some capacity =>
    dsimp only
    split
    · exact .done (.refl w) trivial (printed _)
    · exact .failed (.refl w) (printed _)

theorem readClock (config : Config) :
    w.Outcomes depth World.Values (Eval.readClock config m) (Eval.readClock config m') := by
  have read : w.Machines depth { m with readings := m.readings + 1 }
      { m' with readings := m'.readings + 1 } :=
    ⟨machines.globals, machines.scope, machines.active, machines.output,
      congrArg (· + 1) machines.readings, machines.stores⟩
  show w.Outcomes depth World.Values
    (.done (Value.number (config.clock m.readings)) { m with readings := m.readings + 1 })
    (.done (Value.number (config.clock m'.readings)) { m' with readings := m'.readings + 1 })
  rw [show config.clock m'.readings = config.clock m.readings by rw [machines.readings]]
  exact .done (.refl w) .number read

theorem close {a b : ScopeId} {inner : Depth} (place : w.places a b inner) (matched : inner ≠ some 0)
    (stands : m.store.Stands a) {declaration declaration' : FunctionDecl} {within : Nat}
    (code : declaration.Deepened (inner.inside within) declaration') (isInitializer : Bool) :
    w.Outcomes depth (fun w => w.Closures within) (Eval.close a declaration isInitializer m)
      (Eval.close b declaration' isInitializer m') := by
  obtain ⟨closures, stores⟩ := machines.stores.close place matched stands code isInitializer
  have after := later_number w m.store.next m'.store.next
  exact .done after closures (machines.replace after stores)

omit machines in
theorem closeMethods {a b : ScopeId} {inner : Depth} {methods methods' : List FunctionDecl}
    {found found' : List (String × Closure)} (machines : w.Machines depth m m')
    (place : w.places a b inner) (matched : inner ≠ some 0) (stands : m.store.Stands a)
    (code : Methods.Deepened (inner.inside 1) methods methods')
    (before : List.Forall₂ (Entries (w.Closures 1)) found found') :
    w.Outcomes depth (fun w => List.Forall₂ (Entries (w.Closures 1)))
      (Eval.closeMethods a found methods m) (Eval.closeMethods b found' methods' m') := by
  induction methods generalizing w m m' found found' methods' with
  | nil =>
    cases code
    exact .done (.refl w) before machines
  | cons method rest ih =>
    cases code with
    | @cons _ _ method' _ rest' first others =>
    unfold Eval.closeMethods
    rw [first.name]
    refine .andThen (machines.close place matched stands first _)
      fun {w₁ f f' n n'} after ended closures inside => ?_
    refine ih inside (after.places place) ?_ others ?_
    · cases ended
      exact stands.extend (Store.extends_close m.store a method (method'.name.lexeme == initializerName))
    · exact .cons ⟨rfl, closures⟩ (methods_later after before)

end Machines

theorem Classes.mk {identity identity' : Nat} {name : String} {superclass? superclass'? : Option Class}
    {methods methods' : List (String × Closure)} (same : w.pairs identity identity')
    (above : Option.Rel w.Classes superclass? superclass'?)
    (declared : List.Forall₂ (Entries (w.Closures 1)) methods methods') :
    w.Classes (.mk identity name superclass? methods) (.mk identity' name superclass'? methods') := by
  cases above with
  | none => exact .base same declared
  | some code => exact .subclass same code declared

theorem closeMethods_extends (scope : ScopeId) (methods : List FunctionDecl)
    (found : List (String × Closure)) (m : Machine) :
    ∃ made s, Eval.closeMethods scope found methods m = .done made { m with store := s } ∧
      m.store.Extends s := by
  induction methods generalizing found m with
  | nil => exact ⟨found, m.store, rfl, .refl _⟩
  | cons method rest ih =>
    obtain ⟨made, s, ends, extend⟩ := ih
      ((method.name.lexeme,
        (m.store.close scope method (method.name.lexeme == initializerName)).1) :: found)
      { m with store := (m.store.close scope method (method.name.lexeme == initializerName)).2 }
    have first := m.store.extends_close scope method (method.name.lexeme == initializerName)
    exact ⟨made, s, ends, first.trans extend⟩

namespace Machines

/-- A class is made of methods that close over scopes that correspond, and bound to its name. -/
theorem makeClass (machines : w.Machines depth m m') {a b : ScopeId} {inner : Depth}
    (place : w.places a b inner) (matched : inner ≠ some 0) (stands : m.store.Stands a)
    (standing : m.store.Stands m.scope) {methods methods' : List FunctionDecl}
    (code : Methods.Deepened (inner.inside 1) methods methods') {superclass? superclass'? : Option Class}
    (above : Option.Rel w.Classes superclass? superclass'?) (name : Token) :
    w.Outcomes depth (fun _ _ _ => True)
      (Eval.andThen (Eval.closeMethods a [] methods) (fun methods =>
        Eval.andThen (Eval.onStore Store.newIdentity) fun identity =>
        Eval.andThen Eval.get fun m => Eval.setStore (m.store.assign m.scope name.lexeme
          (.class (.mk identity name.lexeme superclass? methods)) name.line)) m)
      (Eval.andThen (Eval.closeMethods b [] methods') (fun methods =>
        Eval.andThen (Eval.onStore Store.newIdentity) fun identity =>
        Eval.andThen Eval.get fun m => Eval.setStore (m.store.assign m.scope name.lexeme
          (.class (.mk identity name.lexeme superclass'? methods)) name.line)) m') := by
  refine .andThen (machines.closeMethods place matched stands code .nil)
    fun {w₁ made made' n n'} after ended declared inside => ?_
  obtain ⟨_, s, ends, extend⟩ := closeMethods_extends a methods [] m
  cases ended.symm.trans ends
  have counted := inside.stores.newIdentity
  have later := later_number w₁ s.next n'.store.next
  have numbered := inside.replace later counted
  have types : (w₁.number s.next n'.store.next).Values
      (.class (.mk s.next name.lexeme superclass? made))
      (.class (.mk n'.store.next name.lexeme superclass'? made')) :=
    .class (.mk (.inl ⟨rfl, rfl⟩) (rel_mono above fun _ _ code => (code.later after).later later)
      (methods_later later declared))
  have standing' : s.newIdentity.2.Stands m.scope :=
    (standing.extend extend).extend (Store.extends_newIdentity s)
  exact (Outcomes.setStore numbered
    (counted.assign numbered.scope standing' name.lexeme types name.line)).later later

theorem declareClass (machines : w.Machines depth m m') (sound : m.Sound held)
    (declaring : depth ≠ some 0) (name : Token) {methods methods' : List FunctionDecl}
    {superclass? superclass'? : Option Class} (above : Option.Rel w.Classes superclass? superclass'?)
    (code : Methods.Deepened (depth.inside (if superclass?.isSome then 2 else 1)) methods methods') :
    w.Outcomes depth (fun _ _ _ => True) (Eval.declareClass name superclass? methods m)
      (Eval.declareClass name superclass'? methods' m') := by
  have defined := machines.stores.define (machines.stores.regular machines.scope declaring).1
    name.lexeme .nil
  have inside := machines.replace (.refl w) defined
  have standing : (m.store.define m.scope name.lexeme .nil).Stands m.scope :=
    (stands_scope sound).extend (Store.extends_define m.scope name.lexeme .nil)
  cases above with
  | none => exact inside.makeClass inside.scope declaring standing standing code .none name
  | @some superclass superclass' types =>
    have bound : w.Bound [("super", .class superclass)] [("super", .class superclass')] :=
      .cons ⟨rfl, .class types⟩ .nil
    have opened := defined.newScope inside.scope (defined.place_below' inside.scope declaring) bound
    have after : w.Later _ := (later_number w m.store.next m'.store.next).trans
      (later_place _ ⟨m.store.next⟩ ⟨m'.store.next⟩ (depth.inside 1))
    have extend := Store.extends_newScope
      (sound.sound.numbered.define m.scope name.lexeme .nil) (some m.scope)
      [("super", Value.class superclass)]
    have stands : ((m.store.define m.scope name.lexeme .nil).newScope (some m.scope)
        [("super", .class superclass)]).2.Stands ⟨m.store.next⟩ := by
      refine .intro (Store.scope?_newScope_self _ (some m.scope) [("super", Value.class superclass)]) ?_
      exact fun parent around => Option.some.inj around ▸ standing.extend extend
    have deeper : Methods.Deepened ((depth.inside 1).inside 1) methods methods' := by
      rw [Depth.inside_inside]
      exact code
    exact ((inside.replace after opened).makeClass (a := ⟨m.store.next⟩) (b := ⟨m'.store.next⟩)
      (.inl ⟨rfl, rfl, rfl⟩) (depth.inside_ne_zero 0) stands (standing.extend extend) deeper
      (.some (types.later after)) name).later after

end Machines

theorem Layout.place_below_of_stands {s t : Store} (layout : w.Layout s t) {a b : ScopeId}
    (place : w.places a b depth) (stands : s.Stands a) : b.index < t.next := by
  by_cases extra : depth = some 0
  · subst extra
    obtain ⟨p, older, around, beyond, _⟩ := layout.outward?_additional place stands
    exact layout.place_below' beyond fun impossible => by cases impossible
  · exact layout.place_below' place extra

namespace Machines

theorem withInstance (machines : w.Machines depth m m') :
    (w.number m.store.next m'.store.next).Machines depth m.withInstance m'.withInstance :=
  ⟨machines.globals, machines.scope, congrArg (· + 1) machines.active, machines.output,
    machines.readings, machines.stores.newInstance⟩

theorem withInitializer (machines : w.Machines depth m m') {type type' : Class}
    (sound : m.Sound (.value (.class type) :: held)) (code : w.Classes type type')
    {method method' : Closure} (closures : w.Closures 1 method method')
    (declared : type.findMethod? initializerName = some method) :
    ∃ w', (w.number m.store.next m'.store.next).Later w' ∧
      w'.Closures 0 (m.store.newInstance.2.bind method m.store.newInstance.1 type).1
        (m'.store.newInstance.2.bind method' m'.store.newInstance.1 type').1 ∧
      w'.Machines depth (m.withInitializer method type) (m'.withInitializer method' type') := by
  have after := later_number w m.store.next m'.store.next
  have carries : m.store.Carries (m.roots (.value (.class type) :: held)) (.class type) :=
    .inr (.inr (List.mem_cons_of_mem _ (List.mem_cons_of_mem _ List.mem_cons_self)))
  have stands := stands_method sound carries (.inl rfl) declared
  have made := machines.withInstance
  have receiver : (w.number m.store.next m'.store.next).Values
      (.instance m.store.newInstance.1 type) (.instance m'.store.newInstance.1 type') :=
    .instance (.inl ⟨rfl, rfl⟩) (code.later after)
  have numbered : m.store.newInstance.2.Numbered := fun id scope found =>
    Nat.lt_succ_of_lt (sound.sound.numbered id scope found)
  obtain ⟨w', later, bound, stores⟩ := made.stores.bind numbered (closures.later after) receiver
    (stands.extend m.store.extends_newInstance)
  exact ⟨w', later, bound, made.replace later stores⟩

theorem enterBlock (machines : w.Machines depth m m') (sound : m.Sound held) :
    ∃ w', w.Later w' ∧ w'.Machines (depth.inside 1) m.enterBlock m'.enterBlock := by
  have nothing : w.Bound [] [] := .nil
  have opened := machines.stores.newScope machines.scope
    (machines.stores.place_below_of_stands machines.scope (stands_scope sound)) nothing
  have after : w.Later _ := (later_number w m.store.next m'.store.next).trans
    (later_place _ ⟨m.store.next⟩ ⟨m'.store.next⟩ (depth.inside 1))
  exact ⟨_, after, (machines.replace after opened).move (.inl ⟨rfl, rfl, rfl⟩)⟩

theorem enterFunction (machines : w.Machines depth m m') {f f' : Closure} (code : w.Closures 0 f f')
    {arguments arguments' : List Value} (values : List.Forall₂ w.Values arguments arguments') :
    ∃ w' inner, w.Later w' ∧ Stmts.Deepened inner f.declaration.body f'.declaration.body ∧
      inner ≠ some 0 ∧
      w'.Machines inner (m.enterFunction f arguments) (m'.enterFunction f' arguments') := by
  obtain ⟨outer, place, matched, body⟩ := code.placed
  rw [Depth.inside_zero] at body
  have bound := bound_parameters f.declaration.params values
  have opened := machines.stores.newScope place (machines.stores.place_below' place matched) bound
  have after : w.Later _ := (later_number w m.store.next m'.store.next).trans
    (later_place _ ⟨m.store.next⟩ ⟨m'.store.next⟩ (outer.inside 1))
  have inside := (machines.replace after opened).move (a := ⟨m.store.next⟩) (b := ⟨m'.store.next⟩)
    (.inl ⟨rfl, rfl, rfl⟩)
  refine ⟨_, outer.inside 1, after, body.body, outer.inside_ne_zero 0, ?_⟩
  unfold Machine.enterFunction
  rw [← body.params]
  exact inside

theorem enterAdditional (machines : w.Machines none m m') :
    ∃ w', w.Later w' ∧ w'.Machines (some 0) m.enterBlock m' := by
  have opened := machines.stores.newScope_additional machines.scope
  have after := later_place w ⟨m.store.next⟩ m'.scope (some 0)
  exact ⟨_, after, after.places machines.globals, .inl ⟨rfl, rfl, rfl⟩, machines.active,
    machines.output, machines.readings, opened⟩

variable {config : Config} {n n' : Machine} {held' : List Root} {a b : ScopeId} {outer : Depth}

/-- What a machine does when it leaves its scope, if it never collects. -/
theorem leave_eq (idle : config.Idle) (held : List Root) (previous : ScopeId) (n : Machine) :
    ∃ ledger pauses, n.leave config held previous =
      { n with
        store := if n.store.isCaptured n.scope then n.store else n.store.free n.scope
        scope := previous
        ledger := ledger
        pauses := pauses } := by
  unfold Machine.leave Machine.release Machine.pause
  simp only [Machine.letGo_idle idle, idle.collects, Bool.false_eq_true, if_false]
  split <;> exact ⟨_, _, rfl⟩

theorem leave (idle : config.Idle) (held held' : List Root) (machines : w.Machines depth n n')
    (matched : depth ≠ some 0) (back : w.places a b outer) :
    w.Machines outer (n.leave config held a) (n'.leave config held' b) := by
  obtain ⟨ledger, pauses, same⟩ := leave_eq idle held a n
  obtain ⟨ledger', pauses', same'⟩ := leave_eq idle held' b n'
  rw [same, same', ← machines.stores.isCaptured machines.scope matched]
  refine ⟨machines.globals, back, machines.active, machines.output, machines.readings, ?_⟩
  dsimp only
  split
  · exact machines.stores
  · rename_i uncaptured
    exact machines.stores.free (machines.stores.regular machines.scope matched).1
      (eq_false_of_ne_true uncaptured)

/-- The first run leaves a scope that the second one has not entered. -/
theorem leaveAdditional (idle : config.Idle) (machines : w.Machines (some 0) n n')
    (back : w.places a n'.scope none) : w.Machines none (n.leave config held a) n' := by
  obtain ⟨ledger, pauses, same⟩ := leave_eq idle held a n
  rw [same]
  refine ⟨machines.globals, back, machines.active, machines.output, machines.readings, ?_⟩
  dsimp only
  split
  · exact machines.stores
  · exact machines.stores.free_additional machines.scope

end Machines

end World
end Lox
