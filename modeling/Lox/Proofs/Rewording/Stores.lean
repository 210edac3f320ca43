import Lox.Proofs.Rewording.Trees
import Lox.Proofs.Store.Chains

namespace Lox

namespace Rewording

variable (w : Rewording) {rename : String → String} {bound : Bindings} {name : String}

theorem binds_of_mem {entry : String × Value} (member : entry ∈ bound) :
    ∃ v, bound.lookup entry.1 = some v := by
  induction bound with
  | nil => cases member
  | cons first rest ih =>
    rw [List.lookup_cons]
    split
    · exact ⟨_, rfl⟩
    · rename_i other
      rcases List.mem_cons.mp member with rfl | later
      · simp at other
      · exact ih later

theorem lookup_bindings
    (apart : ∀ entry ∈ bound, rename entry.1 = rename name → entry.1 = name) :
    (w.bindings rename bound).lookup (rename name) = (bound.lookup name).map w.value := by
  induction bound with
  | nil => rfl
  | cons entry rest ih =>
    obtain ⟨key, v⟩ := entry
    have rest := ih fun entry member => apart entry (List.mem_cons_of_mem _ member)
    have here := apart (key, v) List.mem_cons_self
    unfold bindings at rest ⊢
    rw [List.map_cons, lookup_entry, lookup_entry, rest]
    by_cases same : name = key
    · rw [if_pos (congrArg rename same), if_pos same]
      rfl
    · rw [if_neg fun equal => same (here equal.symm).symm, if_neg same]

theorem put_bindings (v : Value)
    (apart : ∀ entry ∈ bound, rename entry.1 = rename name → entry.1 = name) :
    Bindings.put (rename name) (w.value v) (w.bindings rename bound) =
      w.bindings rename (Bindings.put name v bound) := by
  induction bound with
  | nil => rfl
  | cons entry rest ih =>
    obtain ⟨key, old⟩ := entry
    have rest := ih fun entry member => apart entry (List.mem_cons_of_mem _ member)
    have here := apart (key, old) List.mem_cons_self
    unfold bindings at rest ⊢
    rw [List.map_cons, Bindings.put, Bindings.put]
    by_cases same : key = name
    · rw [if_pos (congrArg rename same), if_pos same]
      rfl
    · rw [if_neg fun equal => same (here equal), if_neg same, rest]
      rfl

theorem lookup_fields (name : String) :
    (w.fields bound).lookup name = (bound.lookup name).map w.value :=
  @lookup_bindings w (fun key => key) bound name fun _ _ same => same

def Tells (bound : Bindings) : Prop :=
  ∀ name other v v', bound.lookup name = some v → bound.lookup other = some v' →
    w.name other = w.name name → other = name

theorem tells_nil : w.Tells [] := fun _ _ _ _ found => nomatch found

theorem tells_singleton (key : String) (v : Value) : w.Tells [(key, v)] := by
  intro name other _ _ first second _
  rw [lookup_entry] at first second
  split at first <;> split at second <;> simp_all

theorem tells_put {w : Rewording} (tells : w.Tells bound)
    (apart : ∀ other v, bound.lookup other = some v → w.name other = w.name name → other = name)
    (v : Value) : w.Tells (Bindings.put name v bound) := by
  intro key other _ _ first second same
  rw [Bindings.lookup_put] at first second
  by_cases here : key = name <;> by_cases there : other = name
  · rw [here, there]
  · rw [if_neg there] at second
    exact (apart other _ second (here ▸ same)).trans here.symm
  · rw [if_neg here] at first
    exact there.trans (apart key _ first (there ▸ same.symm)).symm
  · rw [if_neg here] at first
    rw [if_neg there] at second
    exact tells key other _ _ first second same

end Rewording

namespace Store

def Told (w : Rewording) (globals : ScopeId) (s : Store) : Prop :=
  ∀ id scope, id ≠ globals → s.scope? id = some scope → w.Tells scope.bindings

structure Reworded (w : Rewording) (globals : ScopeId) (s t : Store) : Prop where
  next : t.next = s.next
  scopes : ∀ id, t.scope? id = (s.scope? id).map (w.scope globals id)
  fields : ∀ id, t.fields? id = (s.fields? id).map w.fields
  outermost : ∀ scope, s.scope? globals = some scope → scope.enclosing? = none
  old : globals.index < s.next
  told : s.Told w globals

def Apart (w : Rewording) (globals : ScopeId) (s : Store) (id : ScopeId) (name : String) : Prop :=
  w.key globals id name = w.name name ∧ ∀ scope, s.scope? id = some scope →
    ∀ other, scope.Binds other → w.key globals id other = w.name name → other = name

def Attempted (w : Rewording) (globals : ScopeId) : Except Fault Store → Except Fault Store → Prop
  | .ok s, .ok t => s.Reworded w globals t
  | .error fault, .error fault' => fault' = w.fault fault
  | _, _ => False

variable {w : Rewording} {globals : ScopeId} {s t : Store} {id : ScopeId} {name : String}

theorem Apart.of_mem (apart : s.Apart w globals id name) {scope : Scope}
    (found : s.scope? id = some scope) :
    ∀ entry ∈ scope.bindings, w.key globals id entry.1 = w.key globals id name → entry.1 = name :=
  fun _ member same =>
    apart.2 scope found _ (Rewording.binds_of_mem member) (same.trans apart.1)

theorem Told.of_bindings (told : s.Told w globals)
    (kept : ∀ id scope, t.scope? id = some scope →
      ∃ before, s.scope? id = some before ∧ scope.bindings = before.bindings) :
    t.Told w globals := by
  intro id scope inner found
  obtain ⟨before, there, same⟩ := kept id scope found
  rw [same]
  exact told id before inner there

theorem Told.define (told : s.Told w globals) (apart : s.Apart w globals id name) (v : Value) :
    (s.define id name v).Told w globals := by
  intro other scope inner found
  rw [scope?_define] at found
  obtain ⟨before, there, rfl⟩ := Option.map_eq_some_iff.mp found
  split
  · rename_i here
    subst here
    refine Rewording.tells_put (told other before inner there) (fun key v bound same => ?_) v
    exact apart.2 before there key ⟨v, bound⟩ ((if_neg inner).trans same)
  · exact told other before inner there

/-- What is told apart stays so, as long as the scope binds the same. -/
theorem Apart.change (apart : s.Apart w globals id name)
    (kept : (t.scope? id).map Scope.bindings = (s.scope? id).map Scope.bindings) :
    t.Apart w globals id name := by
  refine ⟨apart.1, fun scope found other bound => ?_⟩
  rw [found] at kept
  obtain ⟨before, atId, equal⟩ := Option.map_eq_some_iff.mp kept.symm
  refine apart.2 before atId other ?_
  unfold Scope.Binds at bound ⊢
  rwa [equal]

theorem bindings_close (s : Store) (id other : ScopeId) (declaration : FunctionDecl)
    (isInitializer : Bool) :
    ((s.close id declaration isInitializer).2.scope? other).map Scope.bindings =
      (s.scope? other).map Scope.bindings := by
  show ((s.newIdentity.2.capture id).scope? other).map Scope.bindings = _
  rcases s.newIdentity.2.scope?_capture id other with same | ⟨scope, before, after⟩
  · rw [same, scope?_newIdentity]
  · rw [after, ← scope?_newIdentity, before]
    rfl

theorem apart_reserved (fixed : ∀ key, w.name key = name ↔ key = name) :
    s.Apart w globals id name := by
  have same : w.name name = name := (fixed name).mpr rfl
  unfold Apart Rewording.key
  split
  · exact ⟨same.symm, fun _ _ other _ equal => equal.trans same⟩
  · exact ⟨rfl, fun _ _ other _ equal => (fixed other).mp (equal.trans same)⟩

section read

theorem Reworded.local? (same : s.Reworded w globals t) (apart : s.Apart w globals id name) :
    t.local? id (w.name name) = (s.local? id name).map w.value := by
  unfold Store.local?
  rw [same.scopes, ← apart.1]
  cases found : s.scope? id with
  | none => rfl
  | some scope => exact w.lookup_bindings (apart.of_mem found)

theorem Reworded.outward? (same : s.Reworded w globals t) (id : ScopeId) :
    t.outward? id = s.outward? id := by
  have around : (t.scope? id).bind Scope.enclosing? = (s.scope? id).bind Scope.enclosing? := by
    rw [same.scopes]
    cases s.scope? id <;> rfl
  unfold Store.outward?
  rw [around]

theorem Reworded.isCaptured (same : s.Reworded w globals t) (id : ScopeId) :
    t.isCaptured id = s.isCaptured id := by
  unfold Store.isCaptured
  rw [same.scopes]
  cases s.scope? id <;> rfl

theorem Reworded.ancestor? (same : s.Reworded w globals t) (id : ScopeId) (distance : Nat) :
    t.ancestor? id distance = s.ancestor? id distance := by
  induction distance generalizing id with
  | zero => rfl
  | succ distance ih =>
    rw [Store.ancestor?, Store.ancestor?, same.outward?]
    cases s.outward? id with
    | none => rfl
    | some outer => exact ih outer.1

theorem Reworded.outward_globals (same : s.Reworded w globals t) : s.outward? globals = none := by
  cases found : s.scope? globals with
  | none =>
    unfold Store.outward?
    rw [found]
    rfl
  | some scope => exact outward?_eq_none found (same.outermost scope found)

theorem Reworded.owner_of_local (same : s.Reworded w globals t)
    (apart : s.Apart w globals id name) (ends : (s.local? id name).isSome ∨ id = globals) :
    t.owner? id (w.name name) = s.owner? id name := by
  rw [Store.owner?.eq_def t, Store.owner?.eq_def s, same.local? apart, same.outward?]
  cases here : s.local? id name with
  | some v => rfl
  | none =>
    rcases ends with bound | rfl
    · rw [here] at bound
      cases bound
    · rw [same.outward_globals]
      rfl

theorem Reworded.ownerAt? (same : s.Reworded w globals t) {distance : Nat}
    (apart : ∀ outer, s.ancestor? id distance = some outer → s.Apart w globals outer name) :
    t.ownerAt? id distance (w.name name) = s.ownerAt? id distance name := by
  unfold Store.ownerAt?
  rw [same.ancestor?]
  cases found : s.ancestor? id distance with
  | none => rfl
  | some outer =>
    show (t.local? outer _).map _ = (s.local? outer _).map _
    rw [same.local? (apart outer found), Option.map_map]
    rfl

theorem apart_ownerAt {distance : Nat} {owner : ScopeId}
    (apart : ∀ outer, s.ancestor? id distance = some outer → s.Apart w globals outer name)
    (found : s.ownerAt? id distance name = some owner) : s.Apart w globals owner name := by
  obtain ⟨outer, atOuter, bound⟩ := Option.bind_eq_some_iff.mp found
  obtain ⟨_, _, rfl⟩ := Option.map_eq_some_iff.mp bound
  exact apart outer atOuter

theorem owner_self (ends : (s.local? id name).isSome ∨ s.outward? id = none) {owner : ScopeId}
    (found : s.owner? id name = some owner) : owner = id := by
  rw [Store.owner?.eq_def] at found
  split at found
  · exact (Option.some.inj found).symm
  · rename_i missing
    rcases ends with bound | alone
    · rw [missing] at bound
      cases bound
    · rw [alone] at found
      cases found

theorem Reworded.read (same : s.Reworded w globals t) (apart : s.Apart w globals globals name)
    (line : Nat) : t.read globals (w.name name) (w.line line) =
      w.attempt w.value (s.read globals name line) := by
  have bound : (s.owner? globals name).bind (t.local? · (w.name name)) =
      ((s.owner? globals name).bind (s.local? · name)).map w.value := by
    cases found : s.owner? globals name with
    | none => rfl
    | some owner =>
      cases owner_self (.inr same.outward_globals) found
      exact same.local? apart
  unfold Store.read
  rw [same.owner_of_local apart (.inr rfl), bound]
  cases (s.owner? globals name).bind (s.local? · name) <;> rfl

theorem Reworded.readAt (same : s.Reworded w globals t) {distance : Nat}
    (apart : ∀ outer, s.ancestor? id distance = some outer → s.Apart w globals outer name)
    (line : Nat) : t.readAt id distance (w.name name) (w.line line) =
      w.attempt w.value (s.readAt id distance name line) := by
  have bound : (s.ownerAt? id distance name).bind (t.local? · (w.name name)) =
      ((s.ownerAt? id distance name).bind (s.local? · name)).map w.value := by
    cases found : s.ownerAt? id distance name with
    | none => rfl
    | some owner => exact same.local? (apart_ownerAt apart found)
  unfold Store.readAt
  rw [same.ownerAt? apart, bound]
  cases (s.ownerAt? id distance name).bind (s.local? · name) <;> rfl

end read

section change

theorem Reworded.newScope (same : s.Reworded w globals t) (enclosing? : Option ScopeId)
    {bound : Bindings} (tells : w.Tells bound) : (s.newScope enclosing? bound).2.Reworded w globals
      (t.newScope enclosing? (w.bindings w.name bound)).2 := by
  have other : (⟨s.next⟩ : ScopeId) ≠ globals := by
    rintro rfl
    exact absurd same.old (Nat.lt_irrefl _)
  refine ⟨congrArg (· + 1) same.next, ?_, same.fields, ?_, Nat.lt_succ_of_lt same.old, ?_⟩
  · intro id
    rw [scope?_newScope, scope?_newScope, same.next]
    split
    · rename_i here
      have equal : id = ⟨s.next⟩ := ScopeId.index_inj.mp here
      have inner : w.key globals id = w.name := by
        funext key
        exact if_neg (equal ▸ other)
      simp only [Option.map_some, Rewording.scope, inner]
    · exact same.scopes id
  · intro scope found
    rw [scope?_newScope, if_neg (Nat.ne_of_lt same.old)] at found
    exact same.outermost scope found
  · intro id scope inner found
    rw [scope?_newScope] at found
    split at found
    · cases found
      exact tells
    · exact same.told id scope inner found

theorem Reworded.newInstance (same : s.Reworded w globals t) :
    s.newInstance.2.Reworded w globals t.newInstance.2 := by
  refine ⟨congrArg (· + 1) same.next, same.scopes, ?_, same.outermost, Nat.lt_succ_of_lt same.old,
    same.told⟩
  intro id
  rw [fields?_newInstance, fields?_newInstance, same.next]
  split
  · rfl
  · exact same.fields id

theorem Reworded.newIdentity (same : s.Reworded w globals t) :
    s.newIdentity.2.Reworded w globals t.newIdentity.2 :=
  ⟨congrArg (· + 1) same.next, same.scopes, same.fields, same.outermost,
    Nat.lt_succ_of_lt same.old, same.told⟩

theorem Reworded.define (same : s.Reworded w globals t) (apart : s.Apart w globals id name)
    (v : Value) : (s.define id name v).Reworded w globals (t.define id (w.name name) (w.value v)) := by
  refine ⟨same.next, ?_, same.fields, ?_, same.old, same.told.define apart v⟩
  · intro other
    rw [scope?_define, scope?_define, same.scopes]
    cases found : s.scope? other with
    | none => rfl
    | some scope =>
      simp only [Option.map_some]
      by_cases here : other = id
      · subst here
        rw [if_pos rfl, if_pos rfl, ← apart.1]
        have put := w.put_bindings v (apart.of_mem found)
        unfold Rewording.scope
        simp only [put]
      · rw [if_neg here, if_neg here]
  · intro scope found
    rw [scope?_define] at found
    obtain ⟨before, atGlobals, rfl⟩ := Option.map_eq_some_iff.mp found
    have alone := same.outermost before atGlobals
    split <;> exact alone

theorem Reworded.setField (same : s.Reworded w globals t) (id : InstanceId) (name : String)
    (v : Value) : (s.setField id name v).Reworded w globals (t.setField id name (w.value v)) := by
  refine ⟨same.next, same.scopes, ?_, same.outermost, same.old, same.told⟩
  intro other
  rw [fields?_setField, fields?_setField, same.fields]
  cases s.fields? other with
  | none => rfl
  | some bound =>
    simp only [Option.map_some]
    split
    · exact congrArg some (@Rewording.put_bindings w (fun key => key) bound name v fun _ _ same => same)
    · rfl

theorem Reworded.free (same : s.Reworded w globals t) (id : ScopeId) :
    (s.free id).Reworded w globals (t.free id) := by
  refine ⟨same.next, ?_, same.fields, fun scope found => same.outermost scope (scope?_of_free found),
    same.old, same.told.of_bindings fun other scope found => ⟨scope, scope?_of_free found, rfl⟩⟩
  intro other
  rw [scope?_free, scope?_free, same.scopes]
  split <;> rfl

theorem Reworded.mark (same : s.Reworded w globals t) {scope : Scope}
    (found : s.scope? id = some scope) :
    ({ s with scopes := s.scopes.insert id.index { scope with captured := true } } : Store).Reworded
      w globals
      { t with
        scopes := t.scopes.insert id.index { (w.scope globals id scope) with captured := true } } := by
  refine ⟨same.next, ?_, same.fields, ?_, same.old, same.told.of_bindings ?_⟩
  · intro other
    rw [scope?_mark, scope?_mark, same.scopes]
    split
    · rename_i here
      rw [here]
      rfl
    · rfl
  · intro after atGlobals
    rw [scope?_mark] at atGlobals
    split at atGlobals
    · rename_i here
      cases atGlobals
      exact same.outermost scope (here ▸ found)
    · exact same.outermost after atGlobals
  · intro other after atOther
    rw [scope?_mark] at atOther
    split at atOther
    · rename_i here
      cases atOther
      exact ⟨scope, here ▸ found, rfl⟩
    · exact ⟨after, atOther, rfl⟩

theorem Reworded.capture (same : s.Reworded w globals t) (id : ScopeId) :
    (s.capture id).Reworded w globals (t.capture id) := by
  fun_induction Store.capture s id generalizing t with
  | case1 s id absent =>
    rw [Store.capture.eq_def t, same.scopes, absent]
    exact same
  | case2 s id scope found captured =>
    have marked : (w.scope globals id scope).captured = true := captured
    rw [Store.capture.eq_def t, same.scopes, found]
    simp only [Option.map_some, marked, if_true]
    exact same
  | case3 s id scope found fresh =>
    rename_i marked parent older around ih
    have unmarked : (w.scope globals id scope).captured = false := Bool.eq_false_iff.mpr fresh
    rw [Store.capture.eq_def t, same.scopes, found]
    simp only [Option.map_some, unmarked, Bool.false_eq_true, if_false, same.outward?]
    rw [around]
    exact ih (same.mark found)
  | case4 s id scope found fresh =>
    rename_i marked around
    have unmarked : (w.scope globals id scope).captured = false := Bool.eq_false_iff.mpr fresh
    rw [Store.capture.eq_def t, same.scopes, found]
    simp only [Option.map_some, unmarked, Bool.false_eq_true, if_false, same.outward?]
    rw [around]
    exact same.mark found

theorem Reworded.close (same : s.Reworded w globals t) (id : ScopeId) (declaration : FunctionDecl)
    (isInitializer : Bool) :
    (t.close id (w.function declaration) isInitializer).1 =
      w.closure (s.close id declaration isInitializer).1 ∧
    (s.close id declaration isInitializer).2.Reworded w globals
      (t.close id (w.function declaration) isInitializer).2 := by
  refine ⟨?_, same.newIdentity.capture id⟩
  show (⟨t.next, w.function declaration, id, isInitializer⟩ : Closure) =
    ⟨s.next, w.function declaration, id, isInitializer⟩
  rw [same.next]

theorem Reworded.bind (same : s.Reworded w globals t) (method : Closure) (id : InstanceId)
    (type : Class) :
    (t.bind (w.closure method) id (w.type type)).1 = w.closure (s.bind method id type).1 ∧
    (s.bind method id type).2.Reworded w globals (t.bind (w.closure method) id (w.type type)).2 := by
  have held : w.bindings w.name [("this", .instance id type)] =
      [("this", .instance id (w.type type))] := by
    unfold Rewording.bindings
    simp only [List.map_cons, List.map_nil, w.name_this, Rewording.value]
  have made := (same.newScope (some method.scope)
    (w.tells_singleton "this" (.instance id type))).newIdentity
  rw [held] at made
  constructor
  · show ({ w.closure method with identity := t.next + 1, scope := ⟨t.next⟩ } : Closure) =
      { w.closure method with identity := s.next + 1, scope := ⟨s.next⟩ }
    rw [same.next]
  · have captured := made.capture ⟨s.next⟩
    have there : (t.bind (w.closure method) id (w.type type)).2 =
        ((t.newScope (some method.scope) [("this", .instance id (w.type type))]).2.newIdentity.2.capture
          ⟨s.next⟩) := by
      rw [← same.next]
      rfl
    rw [there]
    exact captured

theorem Reworded.assignAt (same : s.Reworded w globals t) {distance : Nat}
    (apart : ∀ outer, s.ancestor? id distance = some outer → s.Apart w globals outer name)
    (v : Value) (line : Nat) : Attempted w globals (s.assignAt id distance name v line)
      (t.assignAt id distance (w.name name) (w.value v) (w.line line)) := by
  unfold Store.assignAt
  rw [same.ownerAt? apart]
  cases found : s.ownerAt? id distance name with
  | none => rfl
  | some owner => exact same.define (apart_ownerAt apart found) v

theorem Reworded.assign (same : s.Reworded w globals t) (apart : s.Apart w globals id name)
    (ends : (s.local? id name).isSome ∨ id = globals) (v : Value) (line : Nat) :
    Attempted w globals (s.assign id name v line)
      (t.assign id (w.name name) (w.value v) (w.line line)) := by
  have alone : (s.local? id name).isSome ∨ s.outward? id = none :=
    ends.imp_right fun top => by rw [top]; exact same.outward_globals
  unfold Store.assign
  rw [same.owner_of_local apart ends]
  cases found : s.owner? id name with
  | none => rfl
  | some owner =>
    cases owner_self alone found
    exact same.define apart v

end change

end Store
end Lox
