import Lox.Proofs.Scoping.Resolution
import Lox.Proofs.Renaming.Scopes

namespace Lox

open Resolve

namespace Resolve

variable {context : Context} {scopes : List Names}

theorem expressions_cleared {es : List Expr}
    (each : ∀ e ∈ es, (expression context scopes e).1.cleared = e) :
    Expr.clearedAll (expressions context scopes es).1 = es := by
  induction es with
  | nil => rfl
  | cons e rest ih =>
    obtain ⟨first, others⟩ := List.forall_mem_cons.mp each
    show (expression context scopes e).1.cleared :: Expr.clearedAll _ = _
    rw [first, ih others]

theorem expression_cleared {e : Expr} (written : e.Written) :
    (expression context scopes e).1.cleared = e := by
  induction written with
  | literal | «variable» _ => rfl
  | unary _ ih => exact congrArg (Expr.unary _) ih
  | binary _ _ left right => exact congrArg₂ (Expr.binary · _ ·) left right
  | logical _ _ left right => exact congrArg₂ (Expr.logical · _ ·) left right
  | grouping _ ih => exact congrArg Expr.grouping ih
  | assign _ _ ih => exact congrArg (Expr.assign _ · none) ih
  | call _ _ callee arguments =>
    exact congrArg₂ (Expr.call · _ ·) callee (expressions_cleared arguments)
  | get _ ih => exact congrArg (Expr.get · _) ih
  | set _ _ object value => exact congrArg₂ (Expr.set · _ ·) object value
  | this _ =>
    rw [expression]
    split <;> rfl
  | super _ =>
    rw [expression]
    split <;> rfl

theorem optional_cleared {e? : Option Expr} (written : ∀ e ∈ e?, e.Written) :
    (optionalExpression context scopes e?).1.map Expr.cleared = e? := by
  cases e? with
  | none => rfl
  | some e => exact congrArg some (expression_cleared (written e rfl))

theorem statements_cleared {ss : List Stmt}
    (each : ∀ s ∈ ss, ∀ {context scopes}, (statement context scopes s).tree.cleared = s) :
    Stmt.clearedAll (statements context scopes ss).tree = ss := by
  induction ss generalizing scopes with
  | nil => rfl
  | cons s rest ih =>
    obtain ⟨first, others⟩ := List.forall_mem_cons.mp each
    show (statement context scopes s).tree.cleared :: Stmt.clearedAll _ = _
    rw [first, ih others]

theorem function_cleared {name : Token} {params : List Token} {body : List Stmt}
    (each : ∀ s ∈ body, ∀ {context scopes}, (statement context scopes s).tree.cleared = s) :
    (function context scopes (.mk name params body)).1.cleared = .mk name params body :=
  congrArg (FunctionDecl.mk name params) (statements_cleared each)

theorem methods_cleared {declared : List FunctionDecl}
    (each : ∀ method ∈ declared, ∀ s ∈ method.body, ∀ {context scopes},
      (statement context scopes s).tree.cleared = s) :
    FunctionDecl.clearedAll (methods context scopes declared).1 = declared := by
  induction declared with
  | nil => rfl
  | cons method rest ih =>
    obtain ⟨name, params, body⟩ := method
    obtain ⟨first, others⟩ := List.forall_mem_cons.mp each
    show (function _ scopes (.mk name params body)).1.cleared :: FunctionDecl.clearedAll _ = _
    rw [ih others]
    exact congrArg (· :: rest) (function_cleared first)

theorem statement_cleared {s : Stmt} (written : s.Written) {context : Context}
    {scopes : List Names} : (statement context scopes s).tree.cleared = s := by
  induction written generalizing context scopes with
  | expression evaluated => exact congrArg Stmt.expression (expression_cleared evaluated)
  | print printed => exact congrArg Stmt.print (expression_cleared printed)
  | varDecl _ initial => exact congrArg (Stmt.varDecl _) (optional_cleared initial)
  | block _ ih => exact congrArg Stmt.block (statements_cleared ih)
  | @branch condition thenBranch elseBranch? tested _ _ _ _ first second =>
    cases elseBranch? with
    | none => exact congrArg₂ (Stmt.branch · · none) (expression_cleared tested) first
    | some elseBranch =>
      show Stmt.branch _ _ (some _) = _
      rw [expression_cleared tested, first, second elseBranch rfl]
  | loop tested _ _ ih => exact congrArg₂ Stmt.loop (expression_cleared tested) ih
  | functionDecl _ _ _ ih => exact congrArg Stmt.functionDecl (function_cleared ih)
  | returns returned => exact congrArg (Stmt.returns _) (optional_cleared returned)
  | @classDecl name superclass? declared _ above _ _ ih =>
    cases superclass? with
    | none => exact congrArg (Stmt.classDecl _ none) (methods_cleared ih)
    | some superclass =>
      obtain ⟨parent, _, rfl⟩ := above superclass rfl
      exact congrArg (Stmt.classDecl _ _) (methods_cleared ih)

theorem bare_leaves {s : Stmt} (written : s.Written) (silent : s.declares = false)
    {context : Context} {scopes : List Names} : (statement context scopes s).scopes = scopes ∧
      (statement context scopes s).tree.made = [] := by
  induction written generalizing context scopes with
  | expression _ | print _ | block _ _ | returns _ => exact ⟨rfl, rfl⟩
  | varDecl _ _ | functionDecl _ _ _ _ | classDecl _ _ _ _ _ => cases silent
  | @branch condition thenBranch elseBranch? _ _ bare _ others first second =>
    cases elseBranch? with
    | none => exact first bare
    | some elseBranch =>
      obtain ⟨same, none⟩ := @first bare context scopes
      obtain ⟨same', none'⟩ := @second elseBranch rfl (others elseBranch rfl) context
        (statement context scopes thenBranch).scopes
      refine ⟨same'.trans same, ?_⟩
      show Stmt.made _ ++ Stmt.made _ = []
      rw [none, none', List.append_nil]
  | loop _ _ bare ih => exact ih bare

theorem spare_after {old new : String} {s : Stmt} (written : s.Written)
    (spare : Spare old new scopes) (absent : new ∉ (statement context scopes s).tree.names) :
    Spare old new (statement context scopes s).scopes := by
  cases silent : s.declares with
  | false =>
    rw [(bare_leaves written silent).1]
    exact spare
  | true =>
    cases written with
    | expression _ | print _ | block _ | branch _ _ _ _ _ | loop _ _ _ | returns _ => cases silent
    | varDecl _ _ => exact spare.introduce fun same => absent (same ▸ List.mem_cons_self)
    | functionDecl _ _ _ => exact spare.introduce fun same => absent (same ▸ List.mem_cons_self)
    | @classDecl name superclass? methods _ _ _ _ =>
      cases superclass? <;>
        exact spare.introduce fun same => absent (same ▸ List.mem_cons_self)

section renamed

variable {old new : String} {depth : Nat}

theorem readErrors_eq_nil {name : Token} : readErrors scopes name = [] ↔
    ∀ names ∈ scopes.head?, names.lookup name.lexeme ≠ some false := by
  cases scopes with
  | nil => exact ⟨fun _ => nofun, fun _ => rfl⟩
  | cons names scopes =>
    show (if names.lookup name.lexeme = some false then _ else _) = [] ↔ _
    by_cases waits : names.lookup name.lexeme = some false <;> simp [waits]

def renamedUse (old new : String) (depth : Nat) (scopes : List Names) (name : Token) : Token :=
  if distance? scopes name.lexeme = some depth then name.renamed old new else name

theorem bind_renamed (spare : Spare old new scopes) {name : Token} (other : name.lexeme ≠ new) :
    bind (renamedAt old new depth scopes) (renamedUse old new depth scopes name) none =
      bind scopes name none := by
  unfold bind renamedUse
  rw [lexeme_renamed, spare.distance?_renamed depth other]

theorem bind_keyword (spare : Spare old new scopes) {keyword : Token}
    (first : keyword.lexeme ≠ old) (second : keyword.lexeme ≠ new) :
    bind (renamedAt old new depth scopes) keyword none = bind scopes keyword none := by
  have found := spare.distance?_renamed depth second
  rw [renamedName_of_ne old new _ first] at found
  unfold bind
  rw [found]

theorem plain_renamed (spare : Spare old new scopes) (here : Prop) [Decidable here] {name : Token}
    (plain : name.Plain) : (if here then name.renamed old new else name).Plain := by
  unfold Token.Plain
  rw [lexeme_renamed]
  rcases renamedName_eq_or old new here name.lexeme with same | same <;> rw [same]
  · exact plain
  · exact spare.new_plain

theorem variable_renamed (context : Context) (depth : Nat) (spare : Spare old new scopes)
    {name : Token} (other : name.lexeme ≠ new) (accepted : readErrors scopes name = []) :
    expression context (renamedAt old new depth scopes)
        (.variable (renamedUse old new depth scopes name) none) =
      ((expression context scopes (.variable name none)).1.renamed old new depth, []) := by
  have bound : bind scopes name none = distance? scopes name.lexeme := by simp [bind]
  have ready := spare.ready_renamed depth other (readErrors_eq_nil.mp accepted)
  rw [← lexeme_renamed] at ready
  have errors : readErrors (renamedAt old new depth scopes)
      (renamedUse old new depth scopes name) = [] := readErrors_eq_nil.mpr ready
  rw [expression, expression, bind_renamed spare other, errors, Expr.renamed, bound]
  rfl

theorem expressions_renamed {es : List Expr}
    (each : ∀ e ∈ es, (expression context scopes e).2 = [] →
      new ∉ (expression context scopes e).1.names →
      ∃ e' : Expr, e'.Written ∧ expression context (renamedAt old new depth scopes) e' =
        ((expression context scopes e).1.renamed old new depth, []))
    (accepted : (expressions context scopes es).2 = [])
    (absent : new ∉ Expr.namesAll (expressions context scopes es).1) :
    ∃ es' : List Expr, (∀ e ∈ es', e.Written) ∧
      expressions context (renamedAt old new depth scopes) es' =
        (Expr.renamedAll old new depth (expressions context scopes es).1, []) := by
  induction es with
  | nil => exact ⟨[], List.forall_mem_nil _, rfl⟩
  | cons e rest ih =>
    obtain ⟨head, tail⟩ := List.forall_mem_cons.mp each
    obtain ⟨one, others⟩ := List.append_eq_nil_iff.mp accepted
    obtain ⟨out, outside⟩ := not_or.mp (absent ∘ List.mem_append.mpr)
    obtain ⟨e', first, same⟩ := head one out
    obtain ⟨rest', later, same'⟩ := ih tail others outside
    refine ⟨e' :: rest', List.forall_mem_cons.mpr ⟨first, later⟩, ?_⟩
    rw [expressions, same, same']
    rfl

theorem expression_renamed {e : Expr} (written : e.Written) (spare : Spare old new scopes)
    (accepted : (expression context scopes e).2 = [])
    (absent : new ∉ (expression context scopes e).1.names) :
    ∃ e' : Expr, e'.Written ∧ expression context (renamedAt old new depth scopes) e' =
      ((expression context scopes e).1.renamed old new depth, []) := by
  induction written with
  | literal => exact ⟨_, .literal, rfl⟩
  | @unary operator right _ ih =>
    obtain ⟨right', written, same⟩ := ih accepted absent
    refine ⟨.unary operator right', .unary written, ?_⟩
    rw [expression, same]
    rfl
  | @binary left right operator _ _ ihLeft ihRight =>
    obtain ⟨one, two⟩ := List.append_eq_nil_iff.mp accepted
    obtain ⟨out, out'⟩ := not_or.mp (absent ∘ List.mem_append.mpr)
    obtain ⟨left', first, same⟩ := ihLeft one out
    obtain ⟨right', second, same'⟩ := ihRight two out'
    refine ⟨.binary left' operator right', .binary first second, ?_⟩
    rw [expression, same, same']
    rfl
  | @logical left right operator _ _ ihLeft ihRight =>
    obtain ⟨one, two⟩ := List.append_eq_nil_iff.mp accepted
    obtain ⟨out, out'⟩ := not_or.mp (absent ∘ List.mem_append.mpr)
    obtain ⟨left', first, same⟩ := ihLeft one out
    obtain ⟨right', second, same'⟩ := ihRight two out'
    refine ⟨.logical left' operator right', .logical first second, ?_⟩
    rw [expression, same, same']
    rfl
  | @grouping inner _ ih =>
    obtain ⟨inner', within, same⟩ := ih accepted absent
    refine ⟨.grouping inner', .grouping within, ?_⟩
    rw [expression, same]
    rfl
  | @«variable» name plain =>
    exact ⟨_, .variable (plain_renamed spare _ plain), variable_renamed context depth spare
      (fun same => absent (List.mem_singleton.mpr same.symm)) accepted⟩
  | @assign name value plain _ ih =>
    obtain ⟨own, out⟩ := not_or.mp (absent ∘ List.mem_cons.mpr)
    obtain ⟨value', assigned, same⟩ := ih accepted out
    refine ⟨.assign (renamedUse old new depth scopes name) value' none,
      .assign (plain_renamed spare _ plain) assigned, ?_⟩
    -- The slot of the target tells whether it was the renamed variable that was meant.
    have bound : bind scopes name none = distance? scopes name.lexeme := by simp [bind]
    rw [expression, same, bind_renamed spare (Ne.symm own)]
    show _ = (Expr.assign (if bind scopes name none = some depth then _ else _) _ _, _)
    rw [bound]
    rfl
  | @call callee paren arguments _ _ ihCallee ihArguments =>
    obtain ⟨one, two⟩ := List.append_eq_nil_iff.mp accepted
    obtain ⟨out, out'⟩ := not_or.mp (absent ∘ List.mem_append.mpr)
    obtain ⟨callee', called, same⟩ := ihCallee one out
    obtain ⟨arguments', given, same'⟩ := expressions_renamed ihArguments two out'
    refine ⟨.call callee' paren arguments', .call called given, ?_⟩
    rw [expression, same, same']
    rfl
  | @get object name _ ih =>
    obtain ⟨object', owner, same⟩ := ih accepted absent
    refine ⟨.get object' name, .get owner, ?_⟩
    rw [expression, same]
    rfl
  | @set object value name _ _ ihObject ihValue =>
    -- The walk looks at the value first.
    obtain ⟨two, one⟩ := List.append_eq_nil_iff.mp accepted
    obtain ⟨out, out'⟩ := not_or.mp (absent ∘ List.mem_append.mpr)
    obtain ⟨object', owner, same⟩ := ihObject one out
    obtain ⟨value', assigned, same'⟩ := ihValue two out'
    refine ⟨.set object' name value', .set owner assigned, ?_⟩
    rw [expression, same, same']
    rfl
  | @this keyword spelled =>
    refine ⟨.this keyword none, .this spelled, ?_⟩
    -- Neither of the two names is the keyword, so it is found in the same scope.
    have bound : bind (renamedAt old new depth scopes) keyword none = bind scopes keyword none :=
      bind_keyword spare (spelled ▸ spare.old_plain.1.symm) (spelled ▸ spare.new_plain.1.symm)
    rw [expression] at accepted ⊢
    rw [expression]
    split at accepted
    · cases accepted
    · rw [bound]
      rfl
  | @super keyword method spelled =>
    refine ⟨.super keyword method none, .super spelled, ?_⟩
    have bound : bind (renamedAt old new depth scopes) keyword none = bind scopes keyword none :=
      bind_keyword spare (spelled ▸ spare.old_plain.2.symm) (spelled ▸ spare.new_plain.2.symm)
    rw [expression] at accepted ⊢
    rw [expression]
    split at accepted
    · rw [bound]
      rfl
    · rename_i wrong
      exact absurd accepted wrong

theorem optional_renamed {e? : Option Expr} (written : ∀ e ∈ e?, e.Written)
    (spare : Spare old new scopes) (accepted : (optionalExpression context scopes e?).2 = [])
    (absent : new ∉ (optionalExpression context scopes e?).1.elim [] Expr.names) :
    ∃ e'? : Option Expr, (∀ e ∈ e'?, e.Written) ∧ e'?.isSome = e?.isSome ∧
      optionalExpression context (renamedAt old new depth scopes) e'? =
        ((optionalExpression context scopes e?).1.map (Expr.renamed old new depth), []) := by
  cases e? with
  | none => exact ⟨none, by simp, rfl, rfl⟩
  | some e =>
    obtain ⟨e', within, same⟩ := expression_renamed (written e rfl) spare accepted absent
    refine ⟨some e', fun _ here => Option.some.inj here ▸ within, rfl, ?_⟩
    rw [optionalExpression, same]
    rfl

/-- A statement is resolved to its renamed form in the renamed scopes. In the renamed scope itself
    no function and no class has the old name. -/
def Carries (old new : String) (s : Stmt) : Prop :=
  ∀ {context : Context} {scopes : List Names} {depth : Nat}, Spare old new scopes →
    (statement context scopes s).errors = [] → new ∉ (statement context scopes s).tree.names →
    (depth = 0 → old ∉ (statement context scopes s).tree.made) →
    ∃ s' : Stmt, s'.Written ∧ s'.declares = s.declares ∧
      statement context (renamedAt old new depth scopes) s' =
        ⟨(statement context scopes s).tree.renamed old new depth,
          renamedAt old new depth (statement context scopes s).scopes, []⟩

theorem statements_renamed {ss : List Stmt} (written : ∀ s ∈ ss, s.Written)
    (each : ∀ s ∈ ss, Carries old new s) (spare : Spare old new scopes)
    (accepted : (statements context scopes ss).errors = [])
    (absent : new ∉ Stmt.namesAll (statements context scopes ss).tree)
    (others : depth = 0 → ∀ s ∈ (statements context scopes ss).tree, old ∉ s.made) :
    ∃ ss' : List Stmt, (∀ s ∈ ss', s.Written) ∧
      statements context (renamedAt old new depth scopes) ss' =
        ⟨Stmt.renamedAll old new depth (statements context scopes ss).tree,
          renamedAt old new depth (statements context scopes ss).scopes, []⟩ := by
  induction ss generalizing scopes with
  | nil => exact ⟨[], List.forall_mem_nil _, rfl⟩
  | cons s rest ih =>
    obtain ⟨head, tail⟩ := List.forall_mem_cons.mp each
    obtain ⟨first, later⟩ := List.forall_mem_cons.mp written
    obtain ⟨one, two⟩ := List.append_eq_nil_iff.mp accepted
    obtain ⟨out, out'⟩ := not_or.mp (absent ∘ List.mem_append.mpr)
    obtain ⟨s', good, _, same⟩ :=
      head spare one out fun here => others here _ List.mem_cons_self
    obtain ⟨rest', goods, same'⟩ := ih later tail (spare_after first spare out) two out'
      fun here s member => others here s (List.mem_cons_of_mem _ member)
    refine ⟨s' :: rest', List.forall_mem_cons.mpr ⟨good, goods⟩, ?_⟩
    rw [statements, same]
    dsimp only
    rw [same']
    rfl

section function

variable {name : Token} {params : List Token} {body : List Stmt}

theorem function_eq (context : Context) (scopes : List Names) (name : Token) (params : List Token)
    (body : List Stmt) : function context scopes (.mk name params body) =
      (.mk name params (statements context (introduceAll ([] :: scopes) params).1 body).tree,
        (introduceAll ([] :: scopes) params).2 ++
          (statements context (introduceAll ([] :: scopes) params).1 body).errors) := rfl

theorem function_renamed (written : ∀ s ∈ body, s.Written)
    (each : ∀ s ∈ body, Carries old new s) (spare : Spare old new scopes)
    (accepted : (function context scopes (.mk name params body)).2 = [])
    (absent : new ∉ (function context scopes (.mk name params body)).1.names) :
    ∃ body' : List Stmt, (∀ s ∈ body', s.Written) ∧
      function context (renamedAt old new depth scopes) (.mk name params body') =
        ((function context scopes (.mk name params body)).1.renamed old new depth, []) := by
  obtain ⟨one, two⟩ := List.append_eq_nil_iff.mp accepted
  obtain ⟨out, out'⟩ := not_or.mp (absent ∘ List.mem_append.mpr)
  obtain ⟨_, out⟩ := not_or.mp (out ∘ List.mem_cons.mpr)
  have other : ∀ param ∈ params, param.lexeme ≠ new := fun param member same =>
    out (same ▸ List.mem_map_of_mem member)
  have inner : Spare old new ([] :: scopes) := spare.cons rfl
  have named : introduceAll ([] :: renamedAt old new depth scopes) (params.map id) = _ :=
    introduceAll_renamed inner (depth + 1) other one
  rw [List.map_id] at named
  obtain ⟨body', goods, same⟩ :=
    statements_renamed written each (inner.introduceAll other) two out'
      fun here : depth + 1 = 0 => absurd here (Nat.succ_ne_zero depth)
  refine ⟨body', goods, ?_⟩
  rw [function_eq, named, same]
  rfl

theorem function_renamed_own (written : ∀ s ∈ body, s.Written)
    (each : ∀ s ∈ body, Carries old new s) (spare : Spare old new scopes)
    (accepted : (function context scopes (.mk name params body)).2 = [])
    (absent : new ∉ (function context scopes (.mk name params body)).1.names)
    (others : ∀ s ∈ (function context scopes (.mk name params body)).1.body, old ∉ s.made) :
    ∃ body' : List Stmt, (∀ s ∈ body', s.Written) ∧
      function context scopes (.mk name (params.map (Token.renamed old new)) body') =
        (.mk name (params.map (Token.renamed old new)) (Stmt.renamedAll old new 0
          (function context scopes (.mk name params body)).1.body), []) := by
  obtain ⟨one, two⟩ := List.append_eq_nil_iff.mp accepted
  obtain ⟨out, out'⟩ := not_or.mp (absent ∘ List.mem_append.mpr)
  obtain ⟨_, out⟩ := not_or.mp (out ∘ List.mem_cons.mpr)
  have other : ∀ param ∈ params, param.lexeme ≠ new := fun param member same =>
    out (same ▸ List.mem_map_of_mem member)
  have inner : Spare old new ([] :: scopes) := spare.cons rfl
  have named : introduceAll ([] :: scopes) (params.map (Token.renamed old new)) = _ :=
    introduceAll_renamed inner 0 other one
  obtain ⟨body', goods, same⟩ :=
    statements_renamed written each (inner.introduceAll other) two out'
      fun _ : 0 = 0 => others
  refine ⟨body', goods, ?_⟩
  rw [function_eq, named, same]
  rfl

end function

theorem methods_renamed {declared : List FunctionDecl}
    (written : ∀ method ∈ declared, ∀ s ∈ method.body, s.Written)
    (each : ∀ method ∈ declared, ∀ s ∈ method.body, Carries old new s)
    (plain : ∀ method ∈ declared, ∀ param ∈ method.params, param.Plain)
    (spare : Spare old new scopes) (accepted : (methods context scopes declared).2 = [])
    (absent : new ∉ FunctionDecl.namesAll (methods context scopes declared).1) :
    ∃ declared' : List FunctionDecl,
      (∀ method ∈ declared', ∀ param ∈ method.params, param.Plain) ∧
      (∀ method ∈ declared', ∀ s ∈ method.body, s.Written) ∧
      methods context (renamedAt old new depth scopes) declared' =
        (FunctionDecl.renamedAll old new depth (methods context scopes declared).1, []) := by
  induction declared with
  | nil => exact ⟨[], List.forall_mem_nil _, List.forall_mem_nil _, rfl⟩
  | cons method rest ih =>
    obtain ⟨name, params, body⟩ := method
    obtain ⟨first, later⟩ := List.forall_mem_cons.mp written
    obtain ⟨head, tail⟩ := List.forall_mem_cons.mp each
    obtain ⟨named, names⟩ := List.forall_mem_cons.mp plain
    obtain ⟨one, two⟩ := List.append_eq_nil_iff.mp accepted
    obtain ⟨out, out'⟩ := not_or.mp (absent ∘ List.mem_append.mpr)
    obtain ⟨body', good, same⟩ := function_renamed first head spare one out
    obtain ⟨rest', plain', goods, same'⟩ := ih later tail names two out'
    refine ⟨.mk name params body' :: rest', List.forall_mem_cons.mpr ⟨named, plain'⟩,
      List.forall_mem_cons.mpr ⟨good, goods⟩, ?_⟩
    rw [methods, same, same']
    rfl

theorem inheritanceErrors_renamed {name parent : Token} (other : name.lexeme ≠ new)
    (accepted : inheritanceErrors name (.variable parent none) = []) :
    inheritanceErrors name (.variable (renamedUse old new depth scopes parent) none) = [] := by
  have differs : parent.lexeme ≠ name.lexeme := by
    intro same
    rw [inheritanceErrors, if_pos same] at accepted
    cases accepted
  refine if_neg ?_
  unfold renamedUse
  rw [lexeme_renamed]
  rcases renamedName_eq_or old new (distance? scopes parent.lexeme = some depth) parent.lexeme
    with same | same <;> rw [same]
  · exact differs
  · exact other.symm

theorem branch_carries {condition : Expr} {thenBranch : Stmt} {elseBranch? : Option Stmt}
    (tested : condition.Written) (written : thenBranch.Written) (bare : thenBranch.declares = false)
    (bare' : ∀ s ∈ elseBranch?, s.declares = false) (first : Carries old new thenBranch)
    (second : ∀ s ∈ elseBranch?, Carries old new s) :
    Carries old new (.branch condition thenBranch elseBranch?) := by
  intro context scopes depth spare accepted absent others
  cases elseBranch? with
  | none =>
    obtain ⟨test, one⟩ := List.append_eq_nil_iff.mp accepted
    obtain ⟨out, out'⟩ := not_or.mp (absent ∘ List.mem_append.mpr)
    obtain ⟨condition', good, same⟩ := expression_renamed tested spare test out
    obtain ⟨thenBranch', goods, thin, same'⟩ := first spare one out' others
    refine ⟨.branch condition' thenBranch' none,
      .branch good goods (thin.trans bare) (by simp) (by simp), rfl, ?_⟩
    rw [statement, same, same']
    rfl
  | some elseBranch =>
    obtain ⟨before, two⟩ := List.append_eq_nil_iff.mp accepted
    obtain ⟨test, one⟩ := List.append_eq_nil_iff.mp before
    obtain ⟨out, out₂⟩ := not_or.mp (absent ∘ List.mem_append.mpr)
    obtain ⟨out, out₁⟩ := not_or.mp (out ∘ List.mem_append.mpr)
    obtain ⟨condition', good, same⟩ := expression_renamed tested spare test out
    obtain ⟨thenBranch', goods, thin, same₁⟩ := first spare one out₁ fun here member =>
      others here (List.mem_append_left _ member)
    obtain ⟨elseBranch', goods', thin', same₂⟩ := second elseBranch rfl
      (spare_after written spare out₁) two out₂ fun here member =>
        others here (List.mem_append_right _ member)
    refine ⟨.branch condition' thenBranch' (some elseBranch'), .branch good goods
      (thin.trans bare) (fun _ here => Option.some.inj here ▸ goods')
      (fun _ here => Option.some.inj here ▸ thin'.trans (bare' elseBranch rfl)), rfl, ?_⟩
    rw [statement, same, same₁]
    dsimp only
    rw [same₂]
    rfl

theorem classDecl_carries {name : Token} {superclass? : Option Expr} {declared : List FunctionDecl}
    (plain : name.Plain)
    (above : ∀ e ∈ superclass?, ∃ parent : Token, parent.Plain ∧ e = .variable parent none)
    (named : ∀ method ∈ declared, ∀ param ∈ method.params, param.Plain)
    (written : ∀ method ∈ declared, ∀ s ∈ method.body, s.Written)
    (each : ∀ method ∈ declared, ∀ s ∈ method.body, Carries old new s) :
    Carries old new (.classDecl name superclass? declared) := by
  intro context scopes depth spare accepted absent others
  cases superclass? with
  | none =>
    obtain ⟨fresh, inside⟩ := List.append_eq_nil_iff.mp accepted
    obtain ⟨own, out⟩ := not_or.mp (absent ∘ List.mem_cons.mpr)
    have declares := introduce_other spare (Ne.symm own)
      (fun here same => others here (same ▸ List.mem_cons_self)) fresh
    obtain ⟨declared', plain', within, same⟩ := methods_renamed written each named
      ((spare.introduce (Ne.symm own)).classScopes false) inside out
    refine ⟨.classDecl name none declared', .classDecl plain (by simp) plain' within, rfl, ?_⟩
    rw [statement, declares]
    dsimp only
    rw [classScopes_renamed, same]
    rfl
  | some superclass =>
    obtain ⟨parent, plainParent, rfl⟩ := above superclass rfl
    obtain ⟨before, inside⟩ := List.append_eq_nil_iff.mp accepted
    obtain ⟨before, reads⟩ := List.append_eq_nil_iff.mp before
    obtain ⟨fresh, inherits⟩ := List.append_eq_nil_iff.mp before
    obtain ⟨own, out⟩ := not_or.mp (absent ∘ List.mem_cons.mpr)
    obtain ⟨out', out⟩ := not_or.mp (out ∘ List.mem_append.mpr)
    -- The class is declared before its superclass is used.
    have declares := introduce_other spare (Ne.symm own)
      (fun here same => others here (same ▸ List.mem_cons_self)) fresh
    have after := spare.introduce (Ne.symm own)
    obtain ⟨declared', plain', within, same⟩ := methods_renamed written each named
      (after.classScopes true) inside out
    have used := variable_renamed { context with enclosing := .subclass } depth after
      (fun same => out' (List.mem_singleton.mpr same.symm)) reads
    refine ⟨.classDecl name (some (.variable
        (renamedUse old new depth (introduce scopes name).1 parent) none)) declared',
      .classDecl plain (fun _ here => ⟨_, plain_renamed after _ plainParent,
        (Option.some.inj here).symm⟩) plain' within, rfl, ?_⟩
    rw [statement, declares]
    dsimp only
    rw [classScopes_renamed, same, used, inheritanceErrors_renamed (Ne.symm own) inherits]
    rfl

theorem statement_carries {s : Stmt} (written : s.Written) : Carries old new s := by
  induction written with
  | @expression value evaluated =>
    intro context scopes depth spare accepted absent others
    obtain ⟨value', within, same⟩ := expression_renamed evaluated spare accepted absent
    refine ⟨.expression value', .expression within, rfl, ?_⟩
    rw [statement, same]
    rfl
  | @print value printed =>
    intro context scopes depth spare accepted absent others
    obtain ⟨value', within, same⟩ := expression_renamed printed spare accepted absent
    refine ⟨.print value', .print within, rfl, ?_⟩
    rw [statement, same]
    rfl
  | @varDecl name initializer? plain initial =>
    intro context scopes depth spare accepted absent others
    obtain ⟨fresh, inside⟩ := List.append_eq_nil_iff.mp accepted
    obtain ⟨own, out⟩ := not_or.mp (absent ∘ List.mem_cons.mpr)
    obtain ⟨initializer', within, _, same⟩ :=
      optional_renamed initial (spare.declare (Ne.symm own)) inside out
    refine ⟨.varDecl (if depth = 0 then name.renamed old new else name) initializer',
      .varDecl (plain_renamed spare _ plain) within, rfl, ?_⟩
    rw [statement, declare_renamed spare depth (Ne.symm own) fresh]
    dsimp only
    rw [same, define_renamed]
    rfl
  | @block body written ih =>
    intro context scopes depth spare accepted absent others
    -- Inside the block the scope meant lies one further out, so no declaration there is the one meant.
    have inner : Spare old new ([] :: scopes) := spare.cons rfl
    obtain ⟨body', within, same⟩ := statements_renamed written ih inner accepted absent
      fun here : depth + 1 = 0 => absurd here (Nat.succ_ne_zero depth)
    replace same : statements context ([] :: renamedAt old new depth scopes) body' = _ := same
    refine ⟨.block body', .block within, rfl, ?_⟩
    rw [statement, same]
    rfl
  | branch tested written bare _ bare' first second =>
    exact branch_carries tested written bare bare' first second
  | @loop condition body tested written bare ih =>
    intro context scopes depth spare accepted absent others
    obtain ⟨test, one⟩ := List.append_eq_nil_iff.mp accepted
    obtain ⟨out, out'⟩ := not_or.mp (absent ∘ List.mem_append.mpr)
    obtain ⟨condition', good, same⟩ := expression_renamed tested spare test out
    obtain ⟨body', goods, thin, same'⟩ := ih spare one out' others
    refine ⟨.loop condition' body', .loop good goods (thin.trans bare), rfl, ?_⟩
    rw [statement, same, same']
    rfl
  | @functionDecl name params body plain named written ih =>
    intro context scopes depth spare accepted absent others
    obtain ⟨fresh, inside⟩ := List.append_eq_nil_iff.mp accepted
    have own : name.lexeme ≠ new := fun same => absent (same ▸ List.mem_cons_self)
    have declared := introduce_other spare own
      (fun here same => others here (same ▸ List.mem_cons_self)) fresh
    obtain ⟨body', within, same⟩ :=
      function_renamed written ih (spare.introduce own) inside absent
    refine ⟨.functionDecl (.mk name params body'), .functionDecl plain named within, rfl, ?_⟩
    rw [statement, declared]
    dsimp only
    rw [same]
    rfl
  | @returns keyword value? returned =>
    intro context scopes depth spare accepted absent others
    obtain ⟨fits, inside⟩ := List.append_eq_nil_iff.mp accepted
    obtain ⟨value', within, present, same⟩ := optional_renamed returned spare inside absent
    refine ⟨.returns keyword value', .returns within, rfl, ?_⟩
    rw [statement, same, present, fits]
    rfl
  | classDecl plain above named written each =>
    exact classDecl_carries plain above named written each

end renamed

end Resolve

end Lox
