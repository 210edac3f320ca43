import Lox.Proofs.Machine.Readiness

namespace Lox

namespace Store

variable {s : Store} {roots : List Root}

theorem local?_eq_some {id : ScopeId} {name : String} {v : Value}
    (found : s.local? id name = some v) :
    ∃ scope, s.scope? id = some scope ∧ scope.bindings.lookup name = some v :=
  Option.bind_eq_some_iff.mp found

theorem carries_of_local? {id : ScopeId} {name : String} {v : Value}
    (found : s.local? id name = some v) : s.Carries roots v := by
  obtain ⟨scope, atId, bound⟩ := local?_eq_some found
  exact .inl ⟨id, scope, name, atId, mem_of_lookup bound⟩

theorem carries_of_read {id : ScopeId} {name : String} {line : Nat} {v : Value}
    (found : s.read id name line = .ok v) : s.Carries roots v := by
  unfold read at found
  split at found
  · rename_i value present
    cases found
    obtain ⟨owner, _, bound⟩ := Option.bind_eq_some_iff.mp present
    exact carries_of_local? bound
  · cases found

theorem carries_of_readAt {id : ScopeId} {distance : Nat} {name : String} {line : Nat} {v : Value}
    (found : s.readAt id distance name line = .ok v) : s.Carries roots v := by
  unfold readAt at found
  split at found
  · rename_i value present
    cases found
    obtain ⟨owner, _, bound⟩ := Option.bind_eq_some_iff.mp present
    exact carries_of_local? bound
  · cases found

theorem binds_of_owner? {id owner : ScopeId} {name : String} (found : s.owner? id name = some owner) :
    ∃ scope, s.scope? owner = some scope ∧ scope.Binds name := by
  fun_induction owner? s id name with
  | case1 id value present =>
    cases found
    obtain ⟨scope, atId, bound⟩ := local?_eq_some present
    exact ⟨scope, atId, value, bound⟩
  | case2 id absent parent older around ih => exact ih found
  | case3 id absent around => cases found

theorem binds_of_ownerAt? {id owner : ScopeId} {distance : Nat} {name : String}
    (found : s.ownerAt? id distance name = some owner) :
    ∃ scope, s.scope? owner = some scope ∧ scope.Binds name := by
  obtain ⟨scope, _, bound⟩ := Option.bind_eq_some_iff.mp found
  obtain ⟨value, present, same⟩ := Option.map_eq_some_iff.mp bound
  cases same
  obtain ⟨at', atScope, named⟩ := local?_eq_some present
  exact ⟨at', atScope, value, named⟩

theorem assign_eq_ok {s' : Store} {id : ScopeId} {name : String} {value : Value} {line : Nat}
    (assigned : s.assign id name value line = .ok s') :
    ∃ owner, s' = s.define owner name value ∧
      ∃ scope, s.scope? owner = some scope ∧ scope.Binds name := by
  unfold assign at assigned
  split at assigned
  · rename_i owner found
    cases assigned
    exact ⟨owner, rfl, binds_of_owner? found⟩
  · cases assigned

theorem assignAt_eq_ok {s' : Store} {id : ScopeId} {distance : Nat} {name : String} {value : Value}
    {line : Nat} (assigned : s.assignAt id distance name value line = .ok s') :
    ∃ owner, s' = s.define owner name value ∧
      ∃ scope, s.scope? owner = some scope ∧ scope.Binds name := by
  unfold assignAt at assigned
  split at assigned
  · rename_i owner found
    cases assigned
    exact ⟨owner, rfl, binds_of_ownerAt? found⟩
  · cases assigned

end Store

namespace Outcome

theorem Sat.of_done {α β : Type} {x : Eval α} {next : α → Eval β} {m m' : Machine} {value : α}
    {done : β → Machine → Prop} {failed : Machine → Prop} (first : x m = .done value m')
    (rest : (next value m').Sat done failed) : ((x >>= next) m).Sat done failed := by
  show (Eval.andThen x next m).Sat done failed
  unfold Eval.andThen
  rw [first]
  exact rest

theorem Sat.ofExcept {α : Type} {result : Except Fault α} {m : Machine}
    {done : α → Machine → Prop} {failed : Machine → Prop}
    (good : ∀ value, result = .ok value → done value m) (bad : failed m) :
    (Eval.ofExcept result m).Sat done failed := by
  cases result with
  | ok value => exact good value rfl
  | error fault => exact bad

theorem Sat.bind_ofExcept {α β : Type} {result : Except Fault α} {next : α → Eval β} {m : Machine}
    {done : β → Machine → Prop} {failed : Machine → Prop}
    (good : ∀ value, result = .ok value → (next value m).Sat done failed) (bad : failed m) :
    ((Eval.ofExcept result >>= next) m).Sat done failed := by
  cases result with
  | ok value => exact .of_done rfl (good value rfl)
  | error fault => exact bad

theorem Sat.setStore {result : Except Fault Store} {m : Machine} {done : Unit → Machine → Prop}
    {failed : Machine → Prop} (good : ∀ s, result = .ok s → done () { m with store := s })
    (bad : failed m) : (Eval.setStore result m).Sat done failed := by
  cases result with
  | ok store => exact good store rfl
  | error fault => exact bad

end Outcome

namespace DisciplineData

variable {config : Config} {D : Discipline config} {m m' : Machine} {held : List Root}
  {changing : ScopeId → Prop} {results : List Root} {layers after : List D.Layer}

theorem held_subset {results held : List Root} : results ⊆ m.roots (results ++ held) :=
  fun _ member => List.mem_cons_of_mem _ (List.mem_cons_of_mem _ (List.mem_append_left _ member))

theorem lookUp_sat (safe : D.Safe m.store (m.roots held)) (name : Token) (distance : Distance) :
    (Eval.lookUp name distance m).Sat (fun value => D.Left m held nowhere [.value value])
      (D.Left m held nowhere []) := by
  have start : D.Left m held nowhere [] m := .start safe
  cases distance with
  | none =>
    exact .ofExcept (fun value found => start.carried (Store.carries_of_read found)) start
  | some distance =>
    exact .ofExcept (fun value found => start.carried (Store.carries_of_readAt found)) start

theorem Left.rebind (left : D.Left m held changing results m') {v : Value}
    (member : .value v ∈ results) {owner : ScopeId} {name : String}
    (known : ∃ scope, m'.store.scope? owner = some scope ∧ scope.Binds name) :
    D.Left m held changing results { m' with store := m'.store.define owner name v } := by
  have present : .value v ∈ m'.roots (results ++ held) := held_subset member
  refine ⟨left.later.trans ⟨rfl, rfl, rfl, Store.since_define owner name v (.inr known)⟩, ?_⟩
  refine left.safe.define (left.safe.sound.weaken ?_) owner name ?_
  · exact List.cons_subset.mpr ⟨present, List.Subset.refl _⟩
  · exact D.admits_extend (left.safe.admits v (.inr (.inr present)))
      (Store.extends_define owner name v)

theorem assign_sat {v : Value} (left : D.Left m held changing [.value v] m') (name : Token)
    (distance : Distance) :
    (Eval.assign name distance v m').Sat (fun _ => D.Left m held changing [.value v])
      (D.Left m held changing []) := by
  have member : Root.value v ∈ [Root.value v] := List.mem_singleton_self _
  cases distance with
  | none =>
    refine .setStore (fun store assigned => ?_) left.none
    obtain ⟨owner, rfl, known⟩ := Store.assign_eq_ok assigned
    exact left.rebind member known
  | some distance =>
    refine .setStore (fun store assigned => ?_) left.none
    obtain ⟨owner, rfl, known⟩ := Store.assignAt_eq_ok assigned
    exact left.rebind member known

theorem Left.setField (left : D.Left m held changing results m') {v : Value}
    (member : .value v ∈ results) (id : InstanceId) (name : String) :
    D.Left m held changing results { m' with store := m'.store.setField id name v } := by
  refine ⟨left.later.trans ⟨rfl, rfl, rfl, ?_⟩, left.safe.setField (held_subset member) id name⟩
  exact Store.since_of_eq (fun _ _ => rfl) (Nat.le_refl _)

theorem Around.define (around : D.Around m layers) {name : String} (defines : D.Defines name layers after) (v : Value) :
    D.Around { m with store := m.store.define m.scope name v } after := by
  obtain ⟨chain, limits⟩ := around
  have extend := Store.extends_define m.scope name v (s := m.store)
  rcases defines with ⟨rfl, rfl⟩ | ⟨layer, layer', outer, rfl, rfl, holds, limit⟩
  · have same := chain.at_globals
    refine ⟨?_, D.limits_globals _⟩
    show D.Chain _ m.scope []
    rw [same]
    exact .globals
  · obtain ⟨parent, scope, found, outside, known, rest⟩ := chain.split
    have defined := m.store.scope?_define m.scope name v m.scope
    rw [found, Option.map_some, if_pos rfl] at defined
    refine ⟨.inner defined outside ?_ (D.chain_extend rest extend), ?_⟩
    · exact D.holds_mono _ _ _ _ (fun other bound => Scope.binds_put.mpr bound) (holds _ _ known)
    · refine D.limits_mono _ _ _ ?_ (limit _ limits)
      rintro other ⟨later, atScope, bound⟩
      rw [defined] at atScope
      cases atScope
      exact (Scope.binds_put.mp bound).imp_right fun old => ⟨scope, found, old⟩

theorem Left.define {v : Value} (left : D.Left m held nowhere results m')
    (member : .value v ∈ results) (name : String) :
    D.Left m held (· = m.scope) results
      { m' with store := m'.store.define m'.scope name v } := by
  refine ⟨left.quiet.later.trans ⟨rfl, rfl, rfl, Store.since_define _ name v (.inl left.later.scope)⟩,
    ?_⟩
  refine left.safe.define (left.safe.sound.weaken ?_) m'.scope name ?_
  · exact List.cons_subset.mpr ⟨held_subset member, List.Subset.refl _⟩
  · exact D.admits_extend (left.safe.admits v (.inr (.inr (held_subset member))))
      (Store.extends_define m'.scope name v)

theorem Left.pause (left : D.Left m held changing results m') :
    D.Left m held changing results (m'.pause config (results ++ held)) := by
  unfold Machine.pause
  simp only
  split
  · refine ⟨left.later.trans ⟨rfl, rfl, rfl, ?_⟩, left.safe.collected⟩
    exact Store.since_collect left.safe.sound changing
  · exact ⟨left.later.trans ⟨rfl, rfl, rfl, .refl _ _⟩, left.safe⟩

theorem Left.letGo (left : D.Left m held changing results m') (id : ScopeId) :
    D.Left m held changing results (m'.letGo config (results ++ held) id) := by
  unfold Machine.letGo
  split
  · exact ⟨left.later.trans ⟨rfl, rfl, rfl, .refl _ _⟩, left.safe⟩
  · refine ⟨left.later.trans ⟨rfl, rfl, rfl, ?_⟩, left.safe.collected⟩
    exact Store.since_collect left.safe.sound changing

theorem not_captured {s : Store} {id : ScopeId} (unmarked : s.isCaptured id = false) :
    ¬ s.Captured id := by
  rintro ⟨scope, found, marked⟩
  simp [Store.isCaptured, found, marked] at unmarked

theorem Left.release (left : D.Left m held changing results m') {id : ScopeId}
    (older : ∀ other, .scope other ∈ m'.roots (results ++ held) → other.index < id.index) :
    D.Left m held changing results (m'.release config (results ++ held) id) := by
  unfold Machine.release
  simp only
  split
  · exact (left.letGo id).pause
  · rename_i unmarked
    refine Left.pause ⟨left.later.trans ⟨rfl, rfl, rfl, Store.since_free id _⟩, ?_⟩
    exact left.safe.free (not_captured (Bool.eq_false_iff.mpr unmarked)) older

theorem activation_sat {id : ScopeId} {body : List Root → Eval Flow}
    (older : ∀ other, .scope other ∈ m.roots held → other.index < id.index)
    (sat : (body (.scope m.scope :: held) { m with scope := id }).Sat
      (fun flow => D.Left { m with scope := id } (.scope m.scope :: held) changing flow.roots)
      (D.Left { m with scope := id } (.scope m.scope :: held) changing [])) :
    (Eval.activation config held id body m).Sat
      (fun flow => D.Left m held changing flow.roots) (D.Left m held changing []) := by
  have outside : ∀ {results : List Root} {m' : Machine}, (∀ other, .scope other ∉ results) →
      D.Left { m with scope := id } (.scope m.scope :: held) changing results m' →
      D.Left m held changing results
        (Machine.leave config (results ++ held) m.scope m') := by
    intro results m' values left
    show D.Left m held changing results (Machine.release config _ m'.scope _)
    rw [show m'.scope = id from left.later.scope]
    have back : D.Left m held changing results { m' with scope := m.scope } := by
      refine ⟨⟨left.later.globals, rfl, left.later.depth, left.later.since⟩, left.safe.weaken ?_⟩
      intro root member
      simp only [Machine.roots, List.mem_cons, List.mem_append] at member ⊢
      rcases member with same | same | new | old
      · exact .inl same
      · exact .inr (.inr (.inr (.inl same)))
      · exact .inr (.inr (.inl new))
      · exact .inr (.inr (.inr (.inr old)))
    refine back.release fun other member => older other ?_
    simp only [Machine.roots, List.mem_cons, List.mem_append] at member ⊢
    rcases member with same | same | new | old
    · exact .inl (same.trans (by rw [show m'.globals = m.globals from left.later.globals]))
    · exact .inr (.inl same)
    · exact absurd new (values other)
    · exact .inr (.inr old)
  unfold Eval.activation
  cases ended : body (.scope m.scope :: held) { m with scope := id } with
  | done flow m' =>
    rw [ended] at sat
    refine outside ?_ sat
    cases flow <;> simp [Flow.roots]
  | failed fault m' =>
    rw [ended] at sat
    exact outside (by simp) sat
  | unfinished => trivial

theorem Left.bindMethod (left : D.Left m held changing results m') {method : Closure}
    {id : InstanceId} {type : Class} (closed : D.Closed D.method m'.store method)
    (receiver : m'.store.Carries (m'.roots (results ++ held)) (.instance id type))
    (bound : ∀ around, D.method method around → D.Chain m'.store method.scope around →
      ∃ layer, D.holds layer ⟨m'.store.next⟩ (fun name => name = "this") ∧
        D.function (m'.store.bind method id type).1 (layer :: around)) :
    D.Left m held changing (.value (.closure (m'.store.bind method id type).1) :: results)
      { m' with store := (m'.store.bind method id type).2 } := by
  obtain ⟨captured, around, chain, fits⟩ := closed
  obtain ⟨layer, holds, function⟩ := bound around fits chain
  refine ⟨left.later.trans ⟨rfl, rfl, rfl, m'.store.since_bind method id type changing⟩, ?_⟩
  exact (left.safe.bind captured chain receiver holds function).weaken Machine.roots_cons_subset

def methodRoots (found : List (String × Closure)) : List Root :=
  found.map fun entry => .value (.closure entry.2)

theorem closeMethods_spec {roots : List Root} {scope : ScopeId} (methods : List FunctionDecl)
    (found : List (String × Closure)) (m : Machine) (safe : D.Safe m.store roots)
    (sound : m.store.Sound (methodRoots found ++ roots)) (stands : m.store.Stands scope) :
    ∃ made s, Eval.closeMethods scope found methods m = .done made { m with store := s } ∧
      m.store.Extends s ∧ m.store.Since s nowhere ∧ D.Safe s roots ∧
      s.Sound (methodRoots made ++ roots) ∧
      ∀ entry ∈ made, entry ∈ found ∨ s.Captured scope ∧ ∃ declaration ∈ methods, ∃ identity,
        entry.2 = ⟨identity, declaration, scope, declaration.name.lexeme == initializerName⟩ := by
  -- The methods that have been made are not bound yet, so `found` is held meanwhile.
  induction methods generalizing found m with
  | nil =>
    exact ⟨found, m.store, rfl, .refl _, .refl _ _, safe, sound, fun _ member => .inl member⟩
  | cons method rest ih =>
    obtain ⟨closed, captured⟩ := safe.close stands method (method.name.lexeme == initializerName)
    have extend := m.store.extends_close scope method (method.name.lexeme == initializerName)
    have since :=
      m.store.since_close scope method (method.name.lexeme == initializerName) nowhere
    obtain ⟨made, s, ends, extends', since', safe', sound', entries⟩ :=
      ih ((method.name.lexeme,
          (m.store.close scope method (method.name.lexeme == initializerName)).1) :: found)
        { m with store := (m.store.close scope method (method.name.lexeme == initializerName)).2 }
        closed (sound.close method _ (.occurs stands.occurs)) (stands.extend extend)
    refine ⟨made, s, ends, extend.trans extends', since.trans since', safe', sound', ?_⟩
    intro entry member
    rcases entries entry member with new | ⟨caught, declaration, inside, identity, same⟩
    · rcases List.mem_cons.mp new with rfl | old
      · exact .inr ⟨captured.extend extends', method, List.mem_cons_self, m.store.next, rfl⟩
      · exact .inl old
    · exact .inr ⟨caught, declaration, List.mem_cons_of_mem _ inside, identity, same⟩

theorem mem_methodRoots {made : List (String × Closure)} {entry : String × Closure}
    (member : entry ∈ made) : .value (.closure entry.2) ∈ methodRoots made :=
  List.mem_map.mpr ⟨entry, member, rfl⟩

/-- The methods of a class close over a scope that they fit into, so the class is admitted. -/
theorem makeClass_sat {scope : ScopeId} {inside : List D.Layer} {name : Token}
    {superclass? : Option Class} {methods : List FunctionDecl}
    (safe : D.Safe m.store (m.roots held)) (stands : m.store.Stands scope)
    (chain : D.Chain m.store scope inside)
    (fits : ∀ declaration ∈ methods, ∀ identity, D.method
      ⟨identity, declaration, scope, declaration.name.lexeme == initializerName⟩ inside)
    (above : ∀ superclass, superclass? = some superclass → .value (.class superclass) ∈ held) :
    ((do
      let methods ← Eval.closeMethods scope [] methods
      let identity ← Eval.onStore Store.newIdentity
      let m ← Eval.get
      Eval.setStore (m.store.assign m.scope name.lexeme
        (.class (.mk identity name.lexeme superclass? methods)) name.line) : Eval Unit) m).Sat
      (fun _ => D.Left m held nowhere []) (D.Left m held nowhere []) := by
  have rooted : ∀ superclass, superclass? = some superclass →
      .value (.class superclass) ∈ m.roots held := fun superclass same =>
    List.mem_cons_of_mem _ (List.mem_cons_of_mem _ (above superclass same))
  obtain ⟨made, s, ends, extend, since, safe', sound, entries⟩ :=
    closeMethods_spec methods [] m safe safe.sound stands
  refine .of_done ends (.of_done rfl (.of_done rfl ?_))
  -- Until it is bound, the new class is held with its methods, and its superclass is held by the
  -- caller.
  have numbered : s.newIdentity.2.Sound
      (.value (.class (.mk s.newIdentity.1 name.lexeme superclass? made)) ::
        (methodRoots made ++ m.roots held)) :=
    sound.step (.newClass name.lexeme
      (fun superclass same => Store.occurs_of_root
        (List.mem_append_right _ (rooted superclass same)) superclass.mem_objects)
      (fun entry member => Store.occurs_of_root
        (List.mem_append_left _ (mem_methodRoots member)) (List.mem_singleton_self _)))
  have admits : D.Admits s (.class (.mk s.newIdentity.1 name.lexeme superclass? made)) := by
    intro method member
    rcases Class.mem_objects_iff.mp member with same | ⟨entry, inMade, same⟩ |
      ⟨superclass, same, deeper⟩
    · cases same
    · cases same
      rcases entries entry inMade with impossible | ⟨caught, declaration, declared, identity, equal⟩
      · cases impossible
      · rw [equal]
        exact ⟨caught, inside, D.chain_extend chain extend, fits declaration declared identity⟩
    · exact safe'.admits (.class superclass) (.inr (.inr (rooted superclass same))) method deeper
  have later : m.Later nowhere { m with store := s.newIdentity.2 } :=
    ⟨rfl, rfl, rfl, since.trans (s.since_newIdentity nowhere)⟩
  have left : D.Left m held nowhere [] { m with store := s.newIdentity.2 } :=
    ⟨later, safe'.newIdentity⟩
  refine .setStore (fun store assigned => ?_) left
  obtain ⟨owner, rfl, known⟩ := Store.assign_eq_ok assigned
  have bound : D.Safe (s.newIdentity.2.define owner name.lexeme
      (.class (.mk s.newIdentity.1 name.lexeme superclass? made))) (m.roots held) := by
    refine safe'.newIdentity.define (numbered.weaken ?_) owner name.lexeme ?_
    · exact List.cons_subset_cons _ (List.subset_append_right _ _)
    · exact D.admits_extend admits
        (s.extends_newIdentity.trans (Store.extends_define owner name.lexeme _))
  exact ⟨later.trans ⟨rfl, rfl, rfl, Store.since_define owner _ _ (.inr known)⟩, bound⟩

end DisciplineData
end Lox
