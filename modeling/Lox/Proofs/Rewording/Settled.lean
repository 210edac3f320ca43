import Lox.Proofs.Rewording.Machines

namespace Lox

namespace Rewording

def Fixes (w : Rewording) (bound : Nat) : Prop :=
  (∀ line ≤ bound, w.line line = line) ∧ ∀ name : String, name.length ≤ bound → w.name name = name

theorem Fixes.mono {w : Rewording} {bound bound' : Nat} (fixes : w.Fixes bound') (le : bound ≤ bound') :
    w.Fixes bound :=
  ⟨fun line early => fixes.1 line (Nat.le_trans early le),
    fun name short => fixes.2 name (Nat.le_trans short le)⟩

def Settles (property : Rewording → Prop) : Prop := ∃ bound, ∀ w : Rewording, w.Fixes bound → property w

variable {property other : Rewording → Prop}

theorem Settles.always (all : ∀ w, property w) : Settles property := ⟨0, fun w _ => all w⟩

theorem Settles.mono (settles : Settles property) (weaker : ∀ w, property w → other w) :
    Settles other := by
  obtain ⟨bound, all⟩ := settles
  exact ⟨bound, fun w fixes => weaker w (all w fixes)⟩

theorem Settles.and (first : Settles property) (second : Settles other) :
    Settles fun w => property w ∧ other w := by
  obtain ⟨bound, all⟩ := first
  obtain ⟨bound', all'⟩ := second
  exact ⟨max bound bound', fun w fixes =>
    ⟨all w (fixes.mono (Nat.le_max_left _ _)), all' w (fixes.mono (Nat.le_max_right _ _))⟩⟩

theorem Settles.forall_mem {α : Type} {each : α → Rewording → Prop} (items : List α)
    (settles : ∀ item ∈ items, Settles (each item)) :
    Settles fun w => ∀ item ∈ items, each item w := by
  induction items with
  | nil => exact .always fun w item impossible => by cases impossible
  | cons item rest ih =>
    have later := ih fun other member => settles other (List.mem_cons_of_mem _ member)
    refine ((settles item List.mem_cons_self).and later).mono fun w => ?_
    exact fun ⟨here, rest⟩ => List.forall_mem_cons.mpr ⟨here, rest⟩

theorem settles_name (name : String) : Settles fun w => w.name name = name :=
  ⟨name.length, fun _ fixes => fixes.2 name (Nat.le_refl _)⟩

theorem settles_line (line : Nat) : Settles fun w => w.line line = line :=
  ⟨line, fun _ fixes => fixes.1 line (Nat.le_refl _)⟩

theorem settles_token (t : Token) : Settles fun w => w.token t = t :=
  (settles_line t.line).mono fun w same => by rw [token, same]

theorem settles_named (t : Token) : Settles fun w => w.named t = t :=
  ((settles_name t.lexeme).and (settles_line t.line)).mono fun w ⟨name, line⟩ => by
    rw [named, name, line]

theorem settles_option {α : Type} {f : Rewording → α → α} :
    (item? : Option α) → (∀ item ∈ item?, Settles fun w => f w item = item) →
      Settles fun w => item?.map (f w) = item?
  | none, _ => .always fun _ => rfl
  | some item, settles => (settles item rfl).mono fun _ same => congrArg some same

theorem settles_map {α : Type} {f : Rewording → α → α} (items : List α)
    (settles : ∀ item ∈ items, Settles fun w => f w item = item) :
    Settles fun w => items.map (f w) = items :=
  (Settles.forall_mem items settles).mono fun _ same =>
    (List.map_congr_left (g := id) same).trans (List.map_id _)

mutual

theorem settles_expression : (e : Expr) → Settles fun w => w.expression e = e
  | .literal _ => .always fun _ => rfl
  | .unary operator right =>
    ((settles_token operator).and (settles_expression right)).mono fun w ⟨first, second⟩ => by
      rw [expression, first, second]
  | .binary left operator right =>
    ((settles_expression left).and ((settles_token operator).and (settles_expression right))).mono
      fun w ⟨first, second, third⟩ => by rw [expression, first, second, third]
  | .logical left operator right =>
    ((settles_expression left).and ((settles_token operator).and (settles_expression right))).mono
      fun w ⟨first, second, third⟩ => by rw [expression, first, second, third]
  | .grouping inner => (settles_expression inner).mono fun w same => by rw [expression, same]
  | .variable name _ => (settles_named name).mono fun w same => by rw [expression, same]
  | .assign name value _ =>
    ((settles_named name).and (settles_expression value)).mono fun w ⟨first, second⟩ => by
      rw [expression, first, second]
  | .call callee paren arguments =>
    ((settles_expression callee).and
      ((settles_token paren).and (settles_expressions arguments))).mono
      fun w ⟨first, second, third⟩ => by rw [expression, first, second, third]
  | .get object name =>
    ((settles_expression object).and (settles_token name)).mono fun w ⟨first, second⟩ => by
      rw [expression, first, second]
  | .set object name value =>
    ((settles_expression object).and ((settles_token name).and (settles_expression value))).mono
      fun w ⟨first, second, third⟩ => by rw [expression, first, second, third]
  | .this keyword _ => (settles_named keyword).mono fun w same => by rw [expression, same]
  | .super keyword method _ =>
    ((settles_token keyword).and (settles_token method)).mono fun w ⟨first, second⟩ => by
      rw [expression, first, second]

theorem settles_expressions : (es : List Expr) → Settles fun w => w.expressions es = es
  | [] => .always fun _ => rfl
  | e :: rest =>
    ((settles_expression e).and (settles_expressions rest)).mono fun w ⟨first, second⟩ => by
      rw [expressions, first, second]

end

mutual

theorem settles_statement : (s : Stmt) → Settles fun w => w.statement s = s
  | .expression value => (settles_expression value).mono fun w same => by rw [statement, same]
  | .print value => (settles_expression value).mono fun w same => by rw [statement, same]
  | .varDecl name initializer? =>
    ((settles_named name).and
      (settles_option initializer? fun e _ => settles_expression e)).mono
      fun w ⟨first, second⟩ => by rw [statement, first, second]
  | .block body => (settles_statements body).mono fun w same => by rw [statement, same]
  | .branch condition thenBranch none =>
    ((settles_expression condition).and (settles_statement thenBranch)).mono
      fun w ⟨first, second⟩ => by rw [statement, first, second]
  | .branch condition thenBranch (some elseBranch) =>
    ((settles_expression condition).and
      ((settles_statement thenBranch).and (settles_statement elseBranch))).mono
      fun w ⟨first, second, third⟩ => by rw [statement, first, second, third]
  | .loop condition body =>
    ((settles_expression condition).and (settles_statement body)).mono fun w ⟨first, second⟩ => by
      rw [statement, first, second]
  | .functionDecl declaration =>
    (settles_function declaration).mono fun w same => by rw [statement, same]
  | .returns keyword value? =>
    ((settles_token keyword).and (settles_option value? fun e _ => settles_expression e)).mono
      fun w ⟨first, second⟩ => by rw [statement, first, second]
  | .classDecl name superclass? methods =>
    ((settles_token name).and ((settles_option superclass? fun e _ => settles_expression e).and
      (settles_functions methods))).mono
      fun w ⟨first, second, third⟩ => by rw [statement, first, second, third]

theorem settles_statements : (ss : List Stmt) → Settles fun w => w.statements ss = ss
  | [] => .always fun _ => rfl
  | s :: rest =>
    ((settles_statement s).and (settles_statements rest)).mono fun w ⟨first, second⟩ => by
      rw [statements, first, second]

theorem settles_function : (declaration : FunctionDecl) →
    Settles fun w => w.function declaration = declaration
  | .mk name params body =>
    ((settles_token name).and ((settles_map params fun param _ => settles_named param).and
      (settles_statements body))).mono
      fun w ⟨first, second, third⟩ => by rw [function, first, second, third]

theorem settles_functions : (declarations : List FunctionDecl) →
    Settles fun w => w.functions declarations = declarations
  | [] => .always fun _ => rfl
  | declaration :: rest =>
    ((settles_function declaration).and (settles_functions rest)).mono
      fun w ⟨first, second⟩ => by rw [functions, first, second]

end

theorem settles_closure (c : Closure) : Settles fun w => w.closure c = c :=
  (settles_function c.declaration).mono fun w same => by rw [closure, same]

theorem settles_methods (declared : List (String × Closure)) :
    Settles fun w => w.methods declared = declared :=
  settles_map declared fun entry _ =>
    (settles_closure entry.2).mono fun _ same => congrArg (Prod.mk entry.1) same

theorem settles_type : (c : Class) → Settles fun w => w.type c = c
  | .mk _ _ none declared => (settles_methods declared).mono fun w same => by rw [type, same]
  | .mk _ _ (some superclass) declared =>
    ((settles_type superclass).and (settles_methods declared)).mono fun w ⟨first, second⟩ => by
      rw [type, first, second]

theorem settles_value (v : Value) : Settles fun w => w.value v = v := by
  cases v with
  | closure function => exact (settles_closure function).mono fun w same => by rw [value, same]
  | «class» type => exact (settles_type type).mono fun w same => by rw [value, same]
  | «instance» id type => exact (settles_type type).mono fun w same => by rw [value, same]
  | nil | bool _ | number _ | string _ | native _ => exact .always fun _ => rfl

theorem settles_bindings (globals id : ScopeId) (bound : Bindings) :
    Settles fun w => w.bindings (w.key globals id) bound = bound :=
  settles_map bound fun entry _ =>
    ((settles_name entry.1).and (settles_value entry.2)).mono fun w ⟨name, value⟩ => by
      have same : w.key globals id entry.1 = entry.1 := by
        unfold key
        split
        · rfl
        · exact name
      exact Prod.ext same value

theorem settles_fields (bound : Bindings) : Settles fun w => w.fields bound = bound :=
  settles_map bound fun entry _ =>
    (settles_value entry.2).mono fun _ same => congrArg (Prod.mk entry.1) same

theorem names_of_bindings {w : Rewording} {globals id : ScopeId} (inner : id ≠ globals)
    {bound : Bindings} (same : w.bindings (w.key globals id) bound = bound) :
    ∀ entry ∈ bound, w.name entry.1 = entry.1 := by
  intro entry member
  have each := List.map_inj_left.mp (same.trans (List.map_id bound).symm) entry member
  exact (if_neg inner).symm.trans (congrArg Prod.fst each)

end Rewording

open Rewording

/-- A machine is what it is itself, reworded, if only names and lines change that it does not
    contain. -/
theorem Machine.settles (m : Machine)
    (outermost : ∀ scope, m.store.scope? m.globals = some scope → scope.enclosing? = none)
    (old : m.globals.index < m.store.next) : Settles fun w => m.Reworded w m := by
  have scopes := Settles.forall_mem m.store.scopes.toList fun entry _ =>
    settles_bindings m.globals ⟨entry.1⟩ entry.2.bindings
  have fields := Settles.forall_mem m.store.instances.toList fun entry _ => settles_fields entry.2
  refine (scopes.and fields).mono fun w ⟨scopes, fields⟩ => ?_
  refine ⟨rfl, rfl, rfl, rfl, rfl, rfl, fun id => ?_, fun id => ?_, outermost, old, ?_⟩
  · cases found : m.store.scope? id with
    | none => rfl
    | some scope =>
      have member := Std.TreeMap.mem_toList_iff_getElem?_eq_some.mpr found
      have same : w.bindings (w.key m.globals id) scope.bindings = scope.bindings :=
        scopes (id.index, scope) member
      exact congrArg some (by rw [Rewording.scope, same])
  · cases found : m.store.fields? id with
    | none => rfl
    | some bound =>
      have member := Std.TreeMap.mem_toList_iff_getElem?_eq_some.mpr found
      exact congrArg some (fields (id.index, bound) member).symm
  · intro id scope inner found name other v v' first second mixed
    have member := Std.TreeMap.mem_toList_iff_getElem?_eq_some.mpr found
    have same : w.bindings (w.key m.globals id) scope.bindings = scope.bindings :=
      scopes (id.index, scope) member
    have kept := names_of_bindings inner same
    rwa [kept (name, v) (mem_of_lookup first), kept (other, v') (mem_of_lookup second)] at mixed

end Lox
