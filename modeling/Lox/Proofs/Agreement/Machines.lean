import Lox.Machine.Eval
import Lox.Proofs.Agreement.Stores
import Lox.Proofs.Machine.Preservation

namespace Lox

/-- The machines are in the same state, but for what cannot be reached, for the ledger and for the
    number of pauses. -/
structure Machine.Agree (held : List Root) (m m' : Machine) : Prop where
  globals : m.globals = m'.globals
  scope : m.scope = m'.scope
  depth : m.depth = m'.depth
  output : m.output = m'.output
  readings : m.readings = m'.readings
  store : ∃ within, m.store.Match within m'.store ∧ ∀ root ∈ m.roots held, root.Inside within

inductive Outcome.Agree {α : Type} (results : α → List Root) (held : List Root) :
    Outcome α → Outcome α → Prop where
  | done {value : α} {m m' : Machine} (agree : m.Agree (results value ++ held) m') :
      Agree results held (.done value m) (.done value m')
  | failed {fault : Fault} {m m' : Machine} (agree : m.Agree held m') :
      Agree results held (.failed fault m) (.failed fault m')
  | unfinished : Agree results held .unfinished .unfinished

namespace Machine

variable {held held' : List Root} {m m' : Machine}

theorem Agree.refl (held : List Root) (m : Machine) : m.Agree held m := by
  refine ⟨rfl, rfl, rfl, rfl, rfl, _, .refl m.store, fun root _ => ?_⟩
  cases root with
  | scope id => trivial
  | value v => exact Store.inside_all v

theorem Agree.symm (agree : m.Agree held m') : m'.Agree held m := by
  obtain ⟨within, same, inside⟩ := agree.store
  refine ⟨agree.globals.symm, agree.scope.symm, agree.depth.symm, agree.output.symm,
    agree.readings.symm, within, same.symm, fun root member => inside root ?_⟩
  unfold Machine.roots
  rw [agree.globals, agree.scope]
  exact member

theorem Agree.weaken (agree : m.Agree held m') (fewer : held' ⊆ held) : m.Agree held' m' := by
  obtain ⟨within, same, inside⟩ := agree.store
  exact ⟨agree.globals, agree.scope, agree.depth, agree.output, agree.readings, within, same,
    fun root member => inside root
      (List.cons_subset_cons _ (List.cons_subset_cons _ fewer) member)⟩

/-- What consists of no objects can be held at any time. -/
theorem Agree.hold (agree : m.Agree held m') {v : Value} (atom : v.objects = []) :
    m.Agree (.value v :: held) m' := by
  obtain ⟨within, same, inside⟩ := agree.store
  refine ⟨agree.globals, agree.scope, agree.depth, agree.output, agree.readings, within, same, ?_⟩
  intro root member
  simp only [Machine.roots, List.mem_cons] at member inside
  rcases member with old | old | rfl | old
  · exact inside root (.inl old)
  · exact inside root (.inr (.inl old))
  · exact Value.Inside.atom atom
  · exact inside root (.inr (.inr old))

theorem Agree.scope_inside {within : Node → Prop}
    (inside : ∀ root ∈ m.roots held, root.Inside within) : within (.scope m.scope) :=
  inside (.scope m.scope) (List.mem_cons_of_mem _ List.mem_cons_self)

theorem Agree.held_inside {within : Node → Prop}
    (inside : ∀ root ∈ m.roots held, root.Inside within) {root : Root} (member : root ∈ held) :
    root.Inside within :=
  inside root (List.mem_cons_of_mem _ (List.mem_cons_of_mem _ member))

theorem roots_inside {within : Node → Prop} (globals : within (.scope m.globals))
    (scope : within (.scope m.scope)) (rest : ∀ root ∈ held, root.Inside within) :
    ∀ root ∈ m.roots held, root.Inside within := by
  intro root member
  rcases List.mem_cons.mp member with rfl | later
  · exact globals
  · rcases List.mem_cons.mp later with rfl | old
    · exact scope
    · exact rest root old

theorem Agree.replace (agree : m.Agree held m') {s s' : Store} {within : Node → Prop}
    (same : s.Match within s') (inside : ∀ root ∈ m.roots held', root.Inside within) :
    Machine.Agree held' { m with store := s } { m' with store := s' } :=
  ⟨agree.globals, agree.scope, agree.depth, agree.output, agree.readings, within, same, inside⟩

theorem Agree.made (agree : m.Agree held m') {s s' : Store} {within within' : Node → Prop}
    (inside : ∀ root ∈ m.roots held, root.Inside within)
    (wider : ∀ node, within node → within' node) (same : s.Match within' s') {root : Root}
    (new : root.Inside within') :
    Machine.Agree (root :: held) { m with store := s } { m' with store := s' } := by
  refine agree.replace same (roots_inside ?_ ?_ ?_)
  · exact wider _ (inside (.scope m.globals) List.mem_cons_self)
  · exact wider _ (Agree.scope_inside inside)
  · intro other member
    rcases List.mem_cons.mp member with rfl | old
    · exact new
    · exact (Agree.held_inside inside old).mono wider

theorem Agree.found (agree : m.Agree held m') {within : Node → Prop}
    (same : m.store.Match within m'.store) (inside : ∀ root ∈ m.roots held, root.Inside within)
    {v : Value} (known : v.Inside within) : m.Agree (.value v :: held) m' :=
  agree.made inside (fun _ old => old) same known

theorem Agree.holdScope (agree : m.Agree held m') {function : Closure}
    (known : .value (.closure function) ∈ held) : m.Agree (.scope function.scope :: held) m' := by
  obtain ⟨within, same, inside⟩ := agree.store
  have scope : within (.scope function.scope) :=
    held_inside inside known (.closure function) (List.mem_singleton_self _)
  exact agree.made inside (fun _ old => old) same scope

theorem Agree.collected {l : Ledger} (agree : m.Agree held m') (sound : m.store.Sound (m.roots held)) :
    ∃ within, (collect m.store l (m.roots held)).1.Match within m'.store ∧
      ∀ root ∈ m.roots held, root.Inside within := by
  obtain ⟨within, same, inside⟩ := agree.store
  exact ⟨_, same.collect sound, fun root member => sound.root_remains member (inside root member)⟩

theorem Agree.pause (agree : m.Agree held m') (config : Config)
    (sound : m.store.Sound (m.roots held)) : (m.pause config held).Agree held m' := by
  unfold Machine.pause
  simp only
  split
  · exact ⟨agree.globals, agree.scope, agree.depth, agree.output, agree.readings,
      agree.collected sound⟩
  · exact ⟨agree.globals, agree.scope, agree.depth, agree.output, agree.readings, agree.store⟩

theorem Agree.pauses (agree : m.Agree held m') (config config' : Config)
    (sound : m.store.Sound (m.roots held)) (sound' : m'.store.Sound (m'.roots held)) :
    (m.pause config held).Agree held (m'.pause config' held) :=
  ((agree.pause config sound).symm.pause config' sound').symm

theorem Agree.letGo (agree : m.Agree held m') (config : Config)
    (sound : m.store.Sound (m.roots held)) (id : ScopeId) :
    (m.letGo config held id).Agree held m' := by
  unfold Machine.letGo
  split
  · exact ⟨agree.globals, agree.scope, agree.depth, agree.output, agree.readings, agree.store⟩
  · exact ⟨agree.globals, agree.scope, agree.depth, agree.output, agree.readings,
      agree.collected sound⟩

theorem sound_letGo (config : Config) (sound : m.store.Sound (m.roots held)) (id : ScopeId) :
    (m.letGo config held id).store.Sound ((m.letGo config held id).roots held) := by
  unfold Machine.letGo
  split
  · exact sound
  · exact sound.collected (by simp)

theorem Agree.release {id : ScopeId} (agree : m.Agree (.scope id :: held) m') (config config' : Config)
    (sound : m.store.Sound (m.roots held)) (sound' : m'.store.Sound (m'.roots held)) :
    (m.release config held id).Agree held (m'.release config' held id) := by
  obtain ⟨within, same, inside⟩ := agree.store
  have captured : m.store.isCaptured id = m'.store.isCaptured id :=
    same.isCaptured (held_inside inside List.mem_cons_self)
  have older : ∀ root ∈ m.roots held, root.Inside within := fun root member =>
    inside root (List.cons_subset_cons _ (List.cons_subset_cons _ (List.subset_cons_self _ _)) member)
  unfold Machine.release
  simp only [captured]
  split
  · have outside : m.Agree held m' := agree.weaken (List.subset_cons_self _ _)
    have both : (m.letGo config held id).Agree held (m'.letGo config' held id) :=
      ((outside.letGo config sound id).symm.letGo config' sound' id).symm
    exact both.pauses config config' (sound_letGo config sound id) (sound_letGo config' sound' id)
  · refine Agree.pauses ?_ config config' (sound.step (.free id)) (sound'.step (.free id))
    exact ⟨agree.globals, agree.scope, agree.depth, agree.output, agree.readings, within,
      same.free id, older⟩

end Machine

namespace Outcome

variable {α β : Type} {results : α → List Root} {held : List Root}

theorem Agree.bind {x y : Eval α} {next next' : α → Eval β} {m m' : Machine}
    {results' : β → List Root} (first : Agree results held (x m) (y m'))
    (rest : ∀ value n n', x m = .done value n → y m' = .done value n' →
      n.Agree (results value ++ held) n' → Agree results' held (next value n) (next' value n')) :
    Agree results' held ((x >>= next) m) ((y >>= next') m') := by
  show Agree results' held (Eval.andThen x next m) (Eval.andThen y next' m')
  unfold Eval.andThen
  generalize here : x m = ends at first
  generalize there : y m' = ends' at first
  cases first with
  | done agree => exact rest _ _ _ here there agree
  | failed agree => exact .failed agree
  | unfinished => exact .unfinished

theorem Agree.of_done {x y : Eval α} {next next' : α → Eval β} {m m' n n' : Machine}
    {value value' : α} {results' : β → List Root} (here : x m = .done value n)
    (there : y m' = .done value' n') (rest : Agree results' held (next value n) (next' value' n')) :
    Agree results' held ((x >>= next) m) ((y >>= next') m') := by
  show Agree results' held (Eval.andThen x next m) (Eval.andThen y next' m')
  unfold Eval.andThen
  rw [here, there]
  exact rest

theorem Agree.mono {held' : List Root} {results' : α → List Root} {x y : Outcome α}
    (agree : Agree results held x y) (fewer : held' ⊆ held)
    (fewerResults : ∀ value, results' value ++ held' ⊆ results value ++ held) :
    Agree results' held' x y := by
  cases agree with
  | done agree => exact .done (agree.weaken (fewerResults _))
  | failed agree => exact .failed (agree.weaken fewer)
  | unfinished => exact .unfinished

theorem Agree.ofExcept {result : Except Fault α} {m m' : Machine} (agree : m.Agree held m')
    (ok : ∀ value, result = .ok value → m.Agree (results value ++ held) m') :
    Agree results held (Eval.ofExcept result m) (Eval.ofExcept result m') := by
  cases result with
  | ok value => exact .done (ok value rfl)
  | error fault => exact .failed agree

theorem Agree.bind_ofExcept {result : Except Fault β} {next next' : β → Eval α} {m m' : Machine}
    (agree : m.Agree held m') (rest : ∀ value, result = .ok value →
      Agree results held (next value m) (next' value m')) :
    Agree results held ((Eval.ofExcept result >>= next) m) ((Eval.ofExcept result >>= next') m') := by
  cases result with
  | ok value => exact rest value rfl
  | error fault => exact .failed agree

theorem Agree.onStore {f : Store → α × Store} {m m' : Machine}
    (equal : (f m.store).1 = (f m'.store).1)
    (agree : Machine.Agree (results (f m.store).1 ++ held) { m with store := (f m.store).2 }
      { m' with store := (f m'.store).2 }) :
    Agree results held (Eval.onStore f m) (Eval.onStore f m') := by
  show Agree results held (.done (f m.store).1 { m with store := (f m.store).2 })
    (.done (f m'.store).1 { m' with store := (f m'.store).2 })
  rw [← equal]
  exact .done agree

theorem Agree.setStore {attempt attempt' : Except Fault Store} {m m' : Machine}
    {results : Unit → List Root} {within : Node → Prop} (agree : m.Agree held m')
    (same : Store.Attempts within attempt attempt')
    (inside : ∀ root ∈ m.roots (results () ++ held), root.Inside within) :
    Agree results held (Eval.setStore attempt m) (Eval.setStore attempt' m') := by
  rcases same with ⟨s, s', rfl, rfl, changed⟩ | ⟨fault, rfl, rfl⟩
  · exact .done (agree.replace changed inside)
  · exact .failed agree

end Outcome

namespace Machine

open Outcome

variable {held : List Root} {m m' : Machine}

theorem Agree.lookUp (agree : m.Agree held m') (name : Token) (distance : Distance) :
    Outcome.Agree (fun v => [.value v]) held (Eval.lookUp name distance m)
      (Eval.lookUp name distance m') := by
  obtain ⟨within, same, inside⟩ := agree.store
  cases distance with
  | some distance =>
    obtain ⟨equal, found⟩ := same.readAt (scope_inside inside) distance name.lexeme name.line
    show Outcome.Agree _ _ (Eval.ofExcept (m.store.readAt m.scope _ _ _) m)
      (Eval.ofExcept (m'.store.readAt m'.scope _ _ _) m')
    rw [← agree.scope, ← equal]
    exact .ofExcept agree fun v ok => agree.found same inside (found v ok)
  | none =>
    have globals : within (.scope m.globals) := inside (.scope m.globals) List.mem_cons_self
    obtain ⟨equal, found⟩ := same.read globals name.lexeme name.line
    show Outcome.Agree _ _ (Eval.ofExcept (m.store.read m.globals _ _) m)
      (Eval.ofExcept (m'.store.read m'.globals _ _) m')
    rw [← agree.globals, ← equal]
    exact .ofExcept agree fun v ok => agree.found same inside (found v ok)

theorem Agree.assign {v : Value} (agree : m.Agree (.value v :: held) m') (name : Token)
    (distance : Distance) :
    Outcome.Agree (fun _ => [.value v]) held (Eval.assign name distance v m)
      (Eval.assign name distance v m') := by
  obtain ⟨within, same, inside⟩ := agree.store
  have value : v.Inside within := held_inside inside List.mem_cons_self
  have before : m.Agree held m' := agree.weaken (List.subset_cons_self _ _)
  cases distance with
  | some distance =>
    unfold Eval.assign
    simp only [← agree.scope]
    exact .setStore before (same.assignAt (scope_inside inside) distance _ value _) inside
  | none =>
    unfold Eval.assign
    simp only [← agree.globals]
    exact .setStore before (same.assign (inside (.scope m.globals) List.mem_cons_self) _ value _)
      inside

theorem Agree.define {v : Value} (name : Token) (agree : m.Agree (.value v :: held) m') :
    Outcome.Agree (fun _ => []) held (Eval.define name v m) (Eval.define name v m') := by
  obtain ⟨within, same, inside⟩ := agree.store
  have value : v.Inside within := held_inside inside List.mem_cons_self
  have changed := same.define m.scope name.lexeme value
  unfold Eval.define
  rw [show m'.store.define m'.scope name.lexeme v = m'.store.define m.scope name.lexeme v by
    rw [agree.scope]]
  exact .done ((agree.replace changed inside).weaken (List.subset_cons_self _ _))

theorem Agree.newScope (agree : m.Agree held m') (parent : ScopeId) (bindings : Bindings)
    (around : .scope parent ∈ m.roots held)
    (values : ∀ entry ∈ bindings, .value entry.2 ∈ held) :
    (m.store.newScope (some parent) bindings).1 = (m'.store.newScope (some parent) bindings).1 ∧
      Machine.Agree (.scope (m.store.newScope (some parent) bindings).1 :: held)
        { m with store := (m.store.newScope (some parent) bindings).2 }
        { m' with store := (m'.store.newScope (some parent) bindings).2 } := by
  obtain ⟨within, same, inside⟩ := agree.store
  have made := same.newScope (some parent) bindings
    (fun other equal => by cases equal; exact inside _ around)
    (fun entry member => held_inside inside (values entry member))
  refine ⟨congrArg ScopeId.mk same.next, ?_⟩
  exact agree.made inside (fun _ => .inr) made (.inl rfl)

theorem Agree.innerScope (agree : m.Agree held m') (bindings : Bindings)
    (values : ∀ entry ∈ bindings, .value entry.2 ∈ held) :
    Outcome.Agree (fun id => [.scope id]) held (Eval.innerScope bindings m)
      (Eval.innerScope bindings m') := by
  obtain ⟨equal, made⟩ := agree.newScope m.scope bindings
    (List.mem_cons_of_mem _ List.mem_cons_self) values
  show Outcome.Agree _ _ (Eval.onStore (·.newScope (some m.scope) bindings) m)
    (Eval.onStore (·.newScope (some m'.scope) bindings) m')
  rw [← agree.scope]
  exact .onStore equal made

theorem Agree.close {id : ScopeId} (agree : m.Agree held m') (around : .scope id ∈ m.roots held)
    (declaration : FunctionDecl) (isInitializer : Bool) :
    Outcome.Agree (fun function => [.value (.closure function)]) held
      (Eval.close id declaration isInitializer m) (Eval.close id declaration isInitializer m') := by
  obtain ⟨within, same, inside⟩ := agree.store
  have known : within (.scope id) := inside _ around
  obtain ⟨equal, changed⟩ := same.close known declaration isInitializer
  refine .onStore equal (agree.made inside (fun _ old => old) changed fun object part => ?_)
  cases List.mem_singleton.mp part
  exact known

/-- A method that is bound to an instance on one machine is so on the other. -/
theorem Agree.bind (agree : m.Agree held m') {within : Node → Prop}
    (same : m.store.Match within m'.store) (inside : ∀ root ∈ m.roots held, root.Inside within)
    {method : Closure} {id : InstanceId} {type : Class} (known : within (.scope method.scope))
    (receiver : (Value.instance id type).Inside within) :
    (m.store.bind method id type).1 = (m'.store.bind method id type).1 ∧
      Machine.Agree (.value (.closure (m.store.bind method id type).1) :: held)
        { m with store := (m.store.bind method id type).2 }
        { m' with store := (m'.store.bind method id type).2 } := by
  obtain ⟨equal, changed⟩ := same.bind known receiver
  refine ⟨equal, agree.made inside (fun _ => .inr) changed fun object part => ?_⟩
  cases List.mem_singleton.mp part
  exact .inl rfl

theorem Agree.property {id : InstanceId} {type : Class} (name : Token)
    (agree : m.Agree (.value (.instance id type) :: held) m') :
    Outcome.Agree (fun v => [.value v]) held (Eval.property id type name m)
      (Eval.property id type name m') := by
  obtain ⟨within, same, inside⟩ := agree.store
  have receiver : (Value.instance id type).Inside within := held_inside inside List.mem_cons_self
  have known : within (.instance id) := receiver (.instance id type) List.mem_cons_self
  unfold Eval.property Store.property
  rw [← same.fields id known]
  cases field : (m.store.fields? id).bind (·.lookup name.lexeme) with
  | some v =>
    obtain ⟨fields, found, bound⟩ := Option.bind_eq_some_iff.mp field
    have value := agree.found same inside ((same.fields_inside id fields known found).lookup bound)
    exact .done (value.weaken (List.cons_subset_cons _ (List.subset_cons_self _ _)))
  | none =>
    cases declared : type.findMethod? name.lexeme with
    | none => exact .failed (agree.weaken (List.subset_cons_self _ _))
    | some method =>
      obtain ⟨equal, bound⟩ :=
        agree.bind same inside (Class.Inside.method receiver.type declared) receiver
      simp only [← equal]
      exact .done (bound.weaken (List.cons_subset_cons _ (List.subset_cons_self _ _)))

theorem Agree.setField {id : InstanceId} {v : Value} {extra : List Root}
    (agree : m.Agree (.value v :: extra ++ held) m') (name : String) :
    Machine.Agree ([.value v] ++ held) { m with store := m.store.setField id name v }
      { m' with store := m'.store.setField id name v } := by
  obtain ⟨within, same, inside⟩ := agree.store
  have value : v.Inside within := held_inside inside List.mem_cons_self
  refine Agree.weaken (agree.replace (same.setField id name value) inside) ?_
  exact List.cons_subset_cons _ (List.subset_append_right _ _)

theorem Agree.superMethod (agree : m.Agree held m') (keyword method : Token) (distance : Distance) :
    Outcome.Agree (fun v => [.value v]) held (Eval.superMethod keyword method distance m)
      (Eval.superMethod keyword method distance m') := by
  unfold Eval.superMethod
  cases distance with
  | none => exact .failed agree
  | some distance =>
    obtain ⟨within, same, inside⟩ := agree.store
    obtain ⟨equal, found⟩ := same.readAt (scope_inside inside) distance "super" keyword.line
    obtain ⟨equal', found'⟩ := same.readAt (scope_inside inside) (distance - 1) "this" keyword.line
    refine .of_done rfl rfl ?_
    rw [← agree.scope, ← equal, ← equal']
    refine .bind_ofExcept agree fun above read => ?_
    cases above with
    | «class» superclass =>
      refine .bind_ofExcept agree fun receiver read' => ?_
      cases receiver with
      | «instance» id type =>
        cases declared : superclass.findMethod? method.lexeme with
        | none => exact .failed agree
        | some method =>
          obtain ⟨equal, bound⟩ := agree.bind same inside
            (Class.Inside.method (found _ read) declared) (found' _ read')
          have made : Outcome.Agree (fun bound => [.value (.closure bound)]) held
              (Eval.onStore (·.bind method id type) m) (Eval.onStore (·.bind method id type) m') :=
            .onStore equal bound
          exact .bind made fun _ _ _ _ _ agree₁ => .done agree₁
      | nil | bool _ | number _ | string _ | native _ | closure _ | «class» _ =>
        exact .failed agree
    | nil | bool _ | number _ | string _ | native _ | closure _ | «instance» _ _ =>
      exact .failed agree

theorem Agree.closeMethods {scope : ScopeId} (methods : List FunctionDecl)
    (found : List (String × Closure))
    (agree : m.Agree (DisciplineData.methodRoots found ++ held) m')
    (around : .scope scope ∈ m.roots held) :
    Outcome.Agree DisciplineData.methodRoots held (Eval.closeMethods scope found methods m)
      (Eval.closeMethods scope found methods m') := by
  induction methods generalizing found m m' with
  | nil => exact .done agree
  | cons method rest ih =>
    have here : .scope scope ∈ m.roots (DisciplineData.methodRoots found ++ held) :=
      List.cons_subset_cons _ (List.cons_subset_cons _ (List.subset_append_right _ _)) around
    have closed := agree.close here method (method.name.lexeme == initializerName)
    have kept : Outcome.Agree
        (fun function => .value (.closure function) :: DisciplineData.methodRoots found) held
        (Eval.close scope method (method.name.lexeme == initializerName) m)
        (Eval.close scope method (method.name.lexeme == initializerName) m') :=
      closed.mono (List.subset_append_right _ _) fun _ => List.Subset.refl _
    unfold Eval.closeMethods
    refine .bind kept fun function n n' ended _ agree₁ => ?_
    refine ih _ agree₁ ?_
    cases ended
    exact around

theorem class_inside {within : Node → Prop} {identity : Nat} {name : String}
    {superclass? : Option Class} {made : List (String × Closure)}
    (methods : ∀ root ∈ DisciplineData.methodRoots made, root.Inside within)
    (above : ∀ superclass, superclass? = some superclass → (Value.class superclass).Inside within) :
    (Value.class (.mk identity name superclass? made)).Inside within := by
  intro object part
  rcases Class.mem_objects_iff.mp part with rfl | ⟨entry, member, rfl⟩ | ⟨superclass, same, inner⟩
  · trivial
  · exact methods _ (DisciplineData.mem_methodRoots member) _ (List.mem_singleton_self _)
  · exact above superclass same object inner

theorem Agree.makeClass {scope : ScopeId} {name : Token} {superclass? : Option Class}
    (methods : List FunctionDecl) (agree : m.Agree held m') (around : .scope scope ∈ m.roots held)
    (above : ∀ superclass, superclass? = some superclass → .value (.class superclass) ∈ held) :
    Outcome.Agree (fun _ => []) held
      ((do
        let methods ← Eval.closeMethods scope [] methods
        let identity ← Eval.onStore Store.newIdentity
        let m ← Eval.get
        Eval.setStore (m.store.assign m.scope name.lexeme
          (.class (.mk identity name.lexeme superclass? methods)) name.line) : Eval Unit) m)
      ((do
        let methods ← Eval.closeMethods scope [] methods
        let identity ← Eval.onStore Store.newIdentity
        let m ← Eval.get
        Eval.setStore (m.store.assign m.scope name.lexeme
          (.class (.mk identity name.lexeme superclass? methods)) name.line) : Eval Unit) m') := by
  refine .bind (Agree.closeMethods methods [] agree around) fun made n n' _ _ agree₁ => ?_
  obtain ⟨within, same, inside⟩ := agree₁.store
  have inside' : ∀ root ∈ n.roots held, root.Inside within := fun root member => inside root
    (List.cons_subset_cons _ (List.cons_subset_cons _ (List.subset_append_right _ _)) member)
  have numbered : Machine.Agree held { n with store := n.store.newIdentity.2 }
      { n' with store := n'.store.newIdentity.2 } :=
    agree₁.replace same.newIdentity inside'
  have attempts : ∀ identity identity' : Nat, identity = identity' → Store.Attempts within
      (n.store.newIdentity.2.assign n.scope name.lexeme
        (.class (.mk identity name.lexeme superclass? made)) name.line)
      (n'.store.newIdentity.2.assign n'.scope name.lexeme
        (.class (.mk identity' name.lexeme superclass? made)) name.line) := by
    rintro identity _ rfl
    have type : (Value.class (.mk identity name.lexeme superclass? made)).Inside within :=
      class_inside (fun root member => held_inside inside (List.mem_append_left _ member))
        fun superclass equal => held_inside inside' (above superclass equal)
    rw [← agree₁.scope]
    exact same.newIdentity.assign (scope_inside inside) name.lexeme type name.line
  exact .of_done rfl rfl (.of_done rfl rfl
    (.setStore numbered (attempts _ _ same.next) inside'))

theorem Agree.declareClass (name : Token) (superclass? : Option Class) (methods : List FunctionDecl)
    (agree : m.Agree held m')
    (above : ∀ superclass, superclass? = some superclass → .value (.class superclass) ∈ held) :
    Outcome.Agree (fun _ => []) held (Eval.declareClass name superclass? methods m)
      (Eval.declareClass name superclass? methods m') := by
  unfold Eval.declareClass
  refine .bind ((agree.hold (v := .nil) rfl).define name) fun _ n n' _ _ agree₁ => ?_
  refine .of_done rfl rfl ?_
  cases superclass? with
  | none =>
    refine .of_done rfl rfl ?_
    rw [← agree₁.scope]
    exact Agree.makeClass methods agree₁ (List.mem_cons_of_mem _ List.mem_cons_self) above
  | some superclass =>
    have inner := agree₁.innerScope [("super", .class superclass)]
      (by simpa using above superclass rfl)
    refine .bind inner fun id n₁ n₁' _ _ agree₂ => ?_
    refine Outcome.Agree.mono (Agree.makeClass methods agree₂ ?_ ?_)
      (List.subset_cons_self _ _) fun _ => List.subset_cons_self _ _
    · exact List.mem_cons_of_mem _ (List.mem_cons_of_mem _ List.mem_cons_self)
    · exact fun other same => List.mem_cons_of_mem _ (above other same)

theorem Agree.deepen (agree : m.Agree held m') :
    Machine.Agree held { m with depth := m.depth + 1 } { m' with depth := m'.depth + 1 } :=
  ⟨agree.globals, agree.scope, congrArg (· + 1) agree.depth, agree.output, agree.readings,
    agree.store⟩

theorem Agree.enter (agree : m.Agree held m') {id : ScopeId} (known : .scope id ∈ m.roots held) :
    Machine.Agree (.scope m.scope :: held) { m with scope := id } { m' with scope := id } := by
  obtain ⟨within, same, inside⟩ := agree.store
  refine ⟨agree.globals, rfl, agree.depth, agree.output, agree.readings, within, same,
    roots_inside (inside (.scope m.globals) List.mem_cons_self) (inside _ known) ?_⟩
  intro root member
  rcases List.mem_cons.mp member with rfl | old
  · exact scope_inside inside
  · exact held_inside inside old

theorem Agree.withInstance (agree : m.Agree held m') {type : Class}
    (known : .value (.class type) ∈ held) :
    m.withInstance.Agree (.value (.instance m.store.newInstance.1 type) :: held)
      m'.withInstance := by
  obtain ⟨within, same, inside⟩ := agree.store
  have class_inside : (Value.class type).Inside within := held_inside inside known
  have made : Machine.Agree (.value (.instance m.store.newInstance.1 type) :: held)
      { m with store := m.store.newInstance.2 } { m' with store := m'.store.newInstance.2 } :=
    agree.made inside (fun _ => .inr) same.newInstance
      (Value.Inside.ofClass (Value.Inside.mono (fun _ => .inr) class_inside) (.inl rfl))
  exact ⟨made.globals, made.scope, congrArg (· + 1) made.depth, made.output, made.readings,
    made.store⟩

theorem Agree.write (agree : m.Agree held m') {config config' : Config}
    (capacity : config.capacity? = config'.capacity?) (bytes : ByteArray) :
    Outcome.Agree (fun _ => []) held (Machine.write config bytes m)
      (Machine.write config' bytes m') := by
  have printed : ∀ output, Machine.Agree held { m with output := output }
      { m' with output := output } := fun _ =>
    ⟨agree.globals, agree.scope, agree.depth, rfl, agree.readings, agree.store⟩
  unfold Machine.write
  rw [← capacity, ← agree.output]
  cases config.capacity? with
  | none => exact .done (printed _)
  | some room =>
    simp only
    split
    · exact .done (printed _)
    · exact .failed (printed _)

theorem Agree.readClock (agree : m.Agree held m') {config config' : Config}
    (clock : config.clock = config'.clock) :
    Outcome.Agree (fun v => [.value v]) held (Eval.readClock config m) (Eval.readClock config' m') := by
  have read : Machine.Agree held { m with readings := m.readings + 1 }
      { m' with readings := m'.readings + 1 } :=
    ⟨agree.globals, agree.scope, agree.depth, agree.output, congrArg (· + 1) agree.readings,
      agree.store⟩
  show Outcome.Agree _ _
    (.done (Value.number (config.clock m.readings)) { m with readings := m.readings + 1 })
    (.done (Value.number (config'.clock m'.readings)) { m' with readings := m'.readings + 1 })
  rw [← clock, show config.clock m'.readings = config.clock m.readings by rw [agree.readings]]
  exact .done (read.hold rfl)

theorem Agree.invoke {config config' : Config} {line arity count : Nat} {body body' : Eval Value}
    {results : Value → List Root} (agree : m.Agree held m')
    (limit : config.maxDepth = config'.maxDepth)
    (ends : count = arity → m.depth < config.maxDepth → m'.depth < config'.maxDepth →
      Outcome.Agree results held (body { m with depth := m.depth + 1 })
        (body' { m' with depth := m'.depth + 1 })) :
    Outcome.Agree results held (Eval.invoke config line arity count body m)
      (Eval.invoke config' line arity count body' m') := by
  rw [Discipline.invoke_eq, Discipline.invoke_eq, ← limit, ← agree.depth]
  split
  · rename_i matching
    split
    · rename_i room
      have called := ends matching room (by rw [← limit, ← agree.depth]; exact room)
      unfold Eval.asCall
      generalize body { m with depth := m.depth + 1 } = ends at called
      generalize body' { m' with depth := m'.depth + 1 } = ends' at called
      cases called with
      | done after =>
        exact .done ⟨after.globals, after.scope, congrArg (· - 1) after.depth, after.output,
          after.readings, after.store⟩
      | failed after =>
        exact .failed ⟨after.globals, after.scope, congrArg (· - 1) after.depth, after.output,
          after.readings, after.store⟩
      | unfinished => exact .unfinished
    · exact .failed agree
  · exact .failed agree

/-- What a body leaves when it has run in a scope: it is still in that scope, and what it holds is
    sound. -/
def Within (id : ScopeId) (held : List Root) (m : Machine) : Prop :=
  m.scope = id ∧ m.store.Sound (m.roots held)

theorem Agree.leave {n n' : Machine} {id : ScopeId} {results : List Root} (config config' : Config)
    (same : m.scope = m'.scope) (agree : n.Agree (results ++ .scope m.scope :: held) n')
    (sound : n.Within id (results ++ .scope m.scope :: held))
    (sound' : n'.Within id (results ++ .scope m.scope :: held)) :
    Machine.Agree (results ++ held)
      (Machine.leave config (results ++ held) m.scope n)
      (Machine.leave config' (results ++ held) m'.scope n') := by
  unfold Machine.leave
  rw [← same, sound.1, sound'.1]
  have known : .scope m.scope ∈ n.roots (results ++ .scope m.scope :: held) :=
    List.mem_cons_of_mem _ (List.mem_cons_of_mem _ (List.mem_append_right _ List.mem_cons_self))
  have fewer : results ++ held ⊆ results ++ .scope m.scope :: held := by
    intro root member
    rcases List.mem_append.mp member with new | old
    · exact List.mem_append_left _ new
    · exact List.mem_append_right _ (List.mem_cons_of_mem _ old)
  have narrow : ∀ n : Machine, n.Within id (results ++ .scope m.scope :: held) →
      n.store.Sound (Machine.roots { n with scope := m.scope } (results ++ held)) := by
    rintro n ⟨_, sound⟩
    refine sound.weaken fun root member => ?_
    rcases List.mem_cons.mp member with rfl | later
    · exact List.mem_cons_self
    · refine List.mem_cons_of_mem _ (List.mem_cons_of_mem _ ?_)
      rcases List.mem_cons.mp later with rfl | old
      · exact List.mem_append_right _ List.mem_cons_self
      · exact fewer old
  have back := agree.enter known
  rw [sound.1] at back
  exact (back.weaken (List.cons_subset_cons _ fewer)).release config config' (narrow n sound)
    (narrow n' sound')

/-- What bodies that agree leave in a scope made for them they leave outside, too. -/
theorem Agree.activation {config config' : Config} {id id' : ScopeId}
    {body body' : List Root → Eval Flow} (same : m.scope = m'.scope) (equal : id = id')
    (ends : Outcome.Agree Flow.roots (.scope m.scope :: held)
      (body (.scope m.scope :: held) { m with scope := id })
      (body' (.scope m'.scope :: held) { m' with scope := id' }))
    (sound : (body (.scope m.scope :: held) { m with scope := id }).Sat
      (fun flow => Within id (flow.roots ++ .scope m.scope :: held))
      (Within id (.scope m.scope :: held)))
    (sound' : (body' (.scope m'.scope :: held) { m' with scope := id' }).Sat
      (fun flow => Within id' (flow.roots ++ .scope m'.scope :: held))
      (Within id' (.scope m'.scope :: held))) :
    Outcome.Agree Flow.roots held (Eval.activation config held id body m)
      (Eval.activation config' held id' body' m') := by
  subst equal
  unfold Eval.activation
  generalize body (.scope m.scope :: held) { m with scope := id } = left at ends sound
  generalize body' (.scope m'.scope :: held) { m' with scope := id } = right at ends sound'
  rw [← same] at sound'
  cases ends with
  | @done flow n n' agree =>
    exact .done (agree.leave config config' same sound sound')
  | failed agree =>
    have after : Machine.Agree ([] ++ held) _ _ :=
      Agree.leave config config' same agree sound sound'
    exact .failed after
  | unfinished => exact .unfinished

end Machine
end Lox
