import Lox.Proofs.Scoping.Walk
import Lox.Proofs.Scoping.Resolution

namespace Lox

open Resolve

/-- How many scopes lie inside an additional one, if there is one further out. -/
abbrev Depth := Option Nat

namespace Depth

def shift : Depth → Nat → Nat
  | some depth, d => if d < depth then d else d + 1
  | none, d => d

def inside (depth : Depth) (scopes : Nat) : Depth := depth.map (· + scopes)

variable (depth : Depth) (d : Nat)

@[simp] theorem shift_none : shift none d = d := rfl

@[simp] theorem inside_none (scopes : Nat) : inside none scopes = none := rfl

@[simp] theorem inside_zero : depth.inside 0 = depth := by cases depth <;> rfl

theorem shift_zero : shift (some 0) d = d + 1 := rfl

theorem shift_of_ne {depth : Depth} (differs : depth ≠ some 0) : shift depth 0 = 0 := by
  cases depth with
  | none => rfl
  | some k =>
    have positive : 0 < k := Nat.pos_of_ne_zero fun same => differs (congrArg some same)
    exact if_pos positive

theorem shift_succ : ∃ k, shift depth (d + 1) = k + 1 := by
  cases depth with
  | none => exact ⟨d, rfl⟩
  | some k =>
    unfold shift
    dsimp only
    split
    · exact ⟨d, rfl⟩
    · exact ⟨d + 1, rfl⟩

theorem shift_inside_succ : shift (depth.inside 1) (d + 1) = shift depth d + 1 := by
  cases depth with
  | none => rfl
  | some k =>
    show (if d + 1 < k + 1 then d + 1 else d + 1 + 1) = (if d < k then d else d + 1) + 1
    split <;> split <;> omega

/-- What is just inside a scope stays so, if the additional scope does not lie between. -/
theorem shift_pred {depth : Depth} {d : Nat} (apart : depth ≠ some d) :
    shift depth (d - 1) = shift depth d - 1 := by
  cases depth with
  | none => rfl
  | some k =>
    have differs : k ≠ d := fun same => apart (congrArg some same)
    unfold shift
    dsimp only
    split <;> split <;> omega

theorem inside_ne_zero (scopes : Nat) : depth.inside (scopes + 1) ≠ some 0 := by
  cases depth with
  | none => exact fun impossible => by cases impossible
  | some k => exact fun impossible => by cases impossible

theorem inside_inside (scopes more : Nat) :
    (depth.inside scopes).inside more = depth.inside (scopes + more) := by
  cases depth with
  | none => rfl
  | some k => exact congrArg some (Nat.add_assoc k scopes more)

end Depth

/-- The first expression is the second one, below an additional scope. A `super` does not have that
    scope between itself and the scope that holds `this`. -/
inductive Expr.Deepened (depth : Depth) : Expr → Expr → Prop where
  | literal {value : Constant} : Deepened depth (.literal value) (.literal value)
  | unary {operator : Token} {right right' : Expr} (operand : Deepened depth right right') :
      Deepened depth (.unary operator right) (.unary operator right')
  | binary {left left' right right' : Expr} {operator : Token} (first : Deepened depth left left')
      (second : Deepened depth right right') :
      Deepened depth (.binary left operator right) (.binary left' operator right')
  | logical {left left' right right' : Expr} {operator : Token} (first : Deepened depth left left')
      (second : Deepened depth right right') :
      Deepened depth (.logical left operator right) (.logical left' operator right')
  | grouping {inner inner' : Expr} (within : Deepened depth inner inner') :
      Deepened depth (.grouping inner) (.grouping inner')
  | variable {name : Token} {slot : Distance} :
      Deepened depth (.variable name (slot.map depth.shift)) (.variable name slot)
  | assign {name : Token} {value value' : Expr} {slot : Distance}
      (assigned : Deepened depth value value') :
      Deepened depth (.assign name value (slot.map depth.shift)) (.assign name value' slot)
  | call {callee callee' : Expr} {paren : Token} {arguments arguments' : List Expr}
      (called : Deepened depth callee callee')
      (given : List.Forall₂ (Deepened depth) arguments arguments') :
      Deepened depth (.call callee paren arguments) (.call callee' paren arguments')
  | get {object object' : Expr} {name : Token} (owner : Deepened depth object object') :
      Deepened depth (.get object name) (.get object' name)
  | set {object object' value value' : Expr} {name : Token} (owner : Deepened depth object object')
      (assigned : Deepened depth value value') :
      Deepened depth (.set object name value) (.set object' name value')
  | this {keyword : Token} {slot : Distance} :
      Deepened depth (.this keyword (slot.map depth.shift)) (.this keyword slot)
  | super {keyword method : Token} {slot : Distance} (apart : ∀ d, slot = some d → depth ≠ some d) :
      Deepened depth (.super keyword method (slot.map depth.shift)) (.super keyword method slot)

mutual

/-- The first statement is the second one, below an additional scope. In that scope itself nothing is
    declared. -/
inductive Stmt.Deepened : Depth → Stmt → Stmt → Prop where
  | expression {depth : Depth} {value value' : Expr} (evaluated : value.Deepened depth value') :
      Stmt.Deepened depth (.expression value) (.expression value')
  | print {depth : Depth} {value value' : Expr} (printed : value.Deepened depth value') :
      Stmt.Deepened depth (.print value) (.print value')
  | varDecl {depth : Depth} {name : Token} {initializer? initializer'? : Option Expr}
      (declaring : depth ≠ some 0)
      (initial : Option.Rel (Expr.Deepened depth) initializer? initializer'?) :
      Stmt.Deepened depth (.varDecl name initializer?) (.varDecl name initializer'?)
  | block {depth : Depth} {body body' : List Stmt} (inside : Stmts.Deepened (depth.inside 1) body body') :
      Stmt.Deepened depth (.block body) (.block body')
  | branch {depth : Depth} {condition condition' : Expr} {thenBranch thenBranch' : Stmt}
      (tested : condition.Deepened depth condition')
      (first : Stmt.Deepened depth thenBranch thenBranch') :
      Stmt.Deepened depth (.branch condition thenBranch none) (.branch condition' thenBranch' none)
  | choice {depth : Depth} {condition condition' : Expr}
      {thenBranch thenBranch' elseBranch elseBranch' : Stmt}
      (tested : condition.Deepened depth condition')
      (first : Stmt.Deepened depth thenBranch thenBranch')
      (second : Stmt.Deepened depth elseBranch elseBranch') :
      Stmt.Deepened depth (.branch condition thenBranch (some elseBranch))
        (.branch condition' thenBranch' (some elseBranch'))
  | loop {depth : Depth} {condition condition' : Expr} {body body' : Stmt}
      (tested : condition.Deepened depth condition') (repeated : Stmt.Deepened depth body body') :
      Stmt.Deepened depth (.loop condition body) (.loop condition' body')
  | functionDecl {depth : Depth} {declaration declaration' : FunctionDecl}
      (declaring : depth ≠ some 0) (within : FunctionDecl.Deepened depth declaration declaration') :
      Stmt.Deepened depth (.functionDecl declaration) (.functionDecl declaration')
  | returns {depth : Depth} {keyword : Token} {value? value'? : Option Expr}
      (returned : Option.Rel (Expr.Deepened depth) value? value'?) :
      Stmt.Deepened depth (.returns keyword value?) (.returns keyword value'?)
  | classDecl {depth : Depth} {name : Token} {methods methods' : List FunctionDecl}
      (declaring : depth ≠ some 0) (within : Methods.Deepened (depth.inside 1) methods methods') :
      Stmt.Deepened depth (.classDecl name none methods) (.classDecl name none methods')
  | subclass {depth : Depth} {name : Token} {superclass superclass' : Expr}
      {methods methods' : List FunctionDecl} (declaring : depth ≠ some 0)
      (line : Eval.superclassLine name superclass = Eval.superclassLine name superclass')
      (above : superclass.Deepened depth superclass')
      (within : Methods.Deepened (depth.inside 2) methods methods') :
      Stmt.Deepened depth (.classDecl name (some superclass) methods)
        (.classDecl name (some superclass') methods')

inductive Stmts.Deepened : Depth → List Stmt → List Stmt → Prop where
  | nil {depth : Depth} : Stmts.Deepened depth [] []
  | cons {depth : Depth} {s s' : Stmt} {rest rest' : List Stmt} (first : Stmt.Deepened depth s s')
      (others : Stmts.Deepened depth rest rest') : Stmts.Deepened depth (s :: rest) (s' :: rest')

inductive FunctionDecl.Deepened : Depth → FunctionDecl → FunctionDecl → Prop where
  | mk {depth : Depth} {name : Token} {params : List Token} {body body' : List Stmt}
      (inside : Stmts.Deepened (depth.inside 1) body body') :
      FunctionDecl.Deepened depth (.mk name params body) (.mk name params body')

inductive Methods.Deepened : Depth → List FunctionDecl → List FunctionDecl → Prop where
  | nil {depth : Depth} : Methods.Deepened depth [] []
  | cons {depth : Depth} {method method' : FunctionDecl} {rest rest' : List FunctionDecl}
      (first : FunctionDecl.Deepened depth method method')
      (others : Methods.Deepened depth rest rest') :
      Methods.Deepened depth (method :: rest) (method' :: rest')

end

section head

variable {depth : Depth} {declaration declaration' : FunctionDecl}

theorem FunctionDecl.Deepened.name (deepened : declaration.Deepened depth declaration') :
    declaration.name = declaration'.name := by
  cases deepened
  rfl

theorem FunctionDecl.Deepened.params (deepened : declaration.Deepened depth declaration') :
    declaration.params = declaration'.params := by
  cases deepened
  rfl

theorem FunctionDecl.Deepened.body (deepened : declaration.Deepened depth declaration') :
    Stmts.Deepened (depth.inside 1) declaration.body declaration'.body := by
  cases deepened
  assumption

end head

section alone

theorem map_shift_none (slot : Distance) : slot.map (Depth.shift none) = slot := by
  cases slot <;> rfl

mutual

theorem Expr.deepened_none : (e : Expr) → e.Deepened none e
  | .literal _ => .literal
  | .unary _ right => .unary right.deepened_none
  | .binary left _ right => .binary left.deepened_none right.deepened_none
  | .logical left _ right => .logical left.deepened_none right.deepened_none
  | .grouping inner => .grouping inner.deepened_none
  | .variable name slot => by
    have same : Expr.Deepened none (.variable name (slot.map (Depth.shift none))) _ := .variable
    rwa [map_shift_none] at same
  | .assign name value slot => by
    have same : Expr.Deepened none (.assign name value (slot.map (Depth.shift none))) _ :=
      .assign value.deepened_none
    rwa [map_shift_none] at same
  | .call callee _ arguments => .call callee.deepened_none (Expr.all_deepened_none arguments)
  | .get object _ => .get object.deepened_none
  | .set object _ value => .set object.deepened_none value.deepened_none
  | .this keyword slot => by
    have same : Expr.Deepened none (.this keyword (slot.map (Depth.shift none))) _ := .this
    rwa [map_shift_none] at same
  | .super keyword method slot => by
    have same : Expr.Deepened none (.super keyword method (slot.map (Depth.shift none)))
        (.super keyword method slot) := .super fun _ _ impossible => by cases impossible
    rwa [map_shift_none] at same

theorem Expr.all_deepened_none : (es : List Expr) → List.Forall₂ (Expr.Deepened none) es es
  | [] => .nil
  | e :: rest => .cons e.deepened_none (Expr.all_deepened_none rest)

end

theorem Expr.option_deepened_none (e? : Option Expr) : Option.Rel (Expr.Deepened none) e? e? := by
  cases e? with
  | none => exact .none
  | some e => exact .some e.deepened_none

mutual

theorem Stmt.deepened_none : (s : Stmt) → s.Deepened none s
  | .expression value => .expression value.deepened_none
  | .print value => .print value.deepened_none
  | .varDecl _ initializer? =>
    .varDecl (fun impossible => by cases impossible) (Expr.option_deepened_none initializer?)
  | .block body => .block (Stmts.deepened_none body)
  | .branch condition thenBranch none => .branch condition.deepened_none thenBranch.deepened_none
  | .branch condition thenBranch (some elseBranch) =>
    .choice condition.deepened_none thenBranch.deepened_none elseBranch.deepened_none
  | .loop condition body => .loop condition.deepened_none body.deepened_none
  | .functionDecl declaration =>
    .functionDecl (fun impossible => by cases impossible) declaration.deepened_none
  | .returns _ value? => .returns (Expr.option_deepened_none value?)
  | .classDecl _ none methods =>
    .classDecl (fun impossible => by cases impossible) (Methods.deepened_none methods)
  | .classDecl _ (some superclass) methods =>
    .subclass (fun impossible => by cases impossible) rfl superclass.deepened_none
      (Methods.deepened_none methods)

theorem Stmts.deepened_none : (ss : List Stmt) → Stmts.Deepened none ss ss
  | [] => .nil
  | s :: rest => .cons s.deepened_none (Stmts.deepened_none rest)

theorem FunctionDecl.deepened_none : (declaration : FunctionDecl) → declaration.Deepened none declaration
  | .mk _ _ body => .mk (Stmts.deepened_none body)

theorem Methods.deepened_none : (methods : List FunctionDecl) → Methods.Deepened none methods methods
  | [] => .nil
  | method :: rest => .cons method.deepened_none (Methods.deepened_none rest)

end

end alone

namespace Resolve

section scopes

variable {inner : List Names} (outer : List Names)

theorem declare_append (nonempty : inner ≠ []) (name : Token) :
    declare (inner ++ outer) name = ((declare inner name).1 ++ outer, (declare inner name).2) := by
  cases inner with
  | nil => exact absurd rfl nonempty
  | cons names rest =>
    rw [List.cons_append, declare, declare]
    split <;> rfl

theorem ne_nil_of_length_eq {later : List Names} (same : later.length = inner.length)
    (nonempty : inner ≠ []) : later ≠ [] :=
  List.ne_nil_of_length_pos (same ▸ List.length_pos_iff.mpr nonempty)

theorem declare_ne_nil (nonempty : inner ≠ []) (name : Token) : (declare inner name).1 ≠ [] :=
  ne_nil_of_length_eq (length_declare inner name) nonempty

theorem introduce_append (nonempty : inner ≠ []) (name : Token) :
    introduce (inner ++ outer) name =
      ((introduce inner name).1 ++ outer, (introduce inner name).2) := by
  have later := declare_ne_nil nonempty name
  show (define (declare (inner ++ outer) name).1 name, (declare (inner ++ outer) name).2) =
    (define (declare inner name).1 name ++ outer, (declare inner name).2)
  rw [declare_append outer nonempty]
  generalize (declare inner name).1 = declared at later
  cases declared with
  | nil => exact absurd rfl later
  | cons names rest => rfl

theorem introduce_ne_nil (nonempty : inner ≠ []) (name : Token) : (introduce inner name).1 ≠ [] :=
  ne_nil_of_length_eq (length_introduce inner name) nonempty

theorem introduceAll_append (nonempty : inner ≠ []) (params : List Token) :
    (introduceAll (inner ++ outer) params).1 = (introduceAll inner params).1 ++ outer := by
  induction params generalizing inner with
  | nil => rfl
  | cons param rest ih =>
    show (introduceAll (introduce (inner ++ outer) param).1 rest).1 = _
    rw [introduce_append outer nonempty]
    exact ih (introduce_ne_nil nonempty param)

theorem introduceAll_ne_nil (nonempty : inner ≠ []) (params : List Token) :
    (introduceAll inner params).1 ≠ [] :=
  ne_nil_of_length_eq (length_introduceAll params inner) nonempty

theorem scopes_append (context : Context) {inner : List Names} (nonempty : inner ≠ []) : (s : Stmt) →
    (statement context (inner ++ outer) s).scopes = (statement context inner s).scopes ++ outer
  | .expression _ | .print _ | .block _ | .returns _ _ => rfl
  | .varDecl name _ => congrArg Prod.fst (introduce_append outer nonempty name)
  | .branch _ thenBranch none => scopes_append context nonempty thenBranch
  | .branch _ thenBranch (some elseBranch) => by
    have later : (statement context inner thenBranch).scopes ≠ [] :=
      ne_nil_of_length_eq (length_statement context inner thenBranch) nonempty
    show (statement context (statement context (inner ++ outer) thenBranch).scopes elseBranch).scopes = _
    rw [scopes_append context nonempty thenBranch]
    exact scopes_append context later elseBranch
  | .loop _ body => scopes_append context nonempty body
  | .functionDecl (.mk name _ _) => congrArg Prod.fst (introduce_append outer nonempty name)
  | .classDecl name none _ | .classDecl name (some _) _ =>
    congrArg Prod.fst (introduce_append outer nonempty name)

theorem scopes_of_bare {s : Stmt} (written : s.Written) (bare : s.declares = false) (context : Context)
    (scopes : List Names) : (statement context scopes s).scopes = scopes := by
  induction written generalizing scopes with
  | expression | print | block | returns => rfl
  | varDecl | functionDecl | classDecl => cases bare
  | @branch _ _ elseBranch? _ _ first _ others one two =>
    cases elseBranch? with
    | none => exact one first scopes
    | some elseBranch =>
      show (statement context (statement context scopes _).scopes elseBranch).scopes = scopes
      rw [one first scopes]
      exact two elseBranch rfl (others elseBranch rfl) scopes
  | loop _ _ inside ih => exact ih inside scopes

end scopes

def Plain (scopes : List Names) : Prop := ∀ names ∈ scopes.head?, names.lookup "super" = none

variable {context : Context} {inner outer : List Names}

theorem distance?_deepened (name : String) : distance? (inner ++ [] :: outer) name =
    (distance? (inner ++ outer) name).map (Depth.shift (some inner.length)) := by
  induction inner with
  | nil =>
    rw [List.nil_append, distance?_cons]
    exact congrFun (congrArg Option.map (funext fun d => (Depth.shift_zero d).symm)) _
  | cons names rest ih =>
    rw [List.cons_append, List.cons_append, distance?_cons, distance?_cons, ih]
    split
    · rfl
    · rw [Option.map_map, Option.map_map]
      refine congrFun (congrArg Option.map (funext fun d => ?_)) _
      exact (Depth.shift_inside_succ (some rest.length) d).symm

theorem super_apart (plain : Plain outer) {d : Nat}
    (found : distance? (inner ++ outer) "super" = some d) : inner.length ≠ d := by
  rintro rfl
  obtain ⟨names, value, here, listed⟩ := declared_of_distance? found
  rw [List.getElem?_append_right (Nat.le_refl _), Nat.sub_self] at here
  rw [plain names (List.head?_eq_getElem?.trans here)] at listed
  cases listed

theorem bind_deepened (name : Token) : bind (inner ++ [] :: outer) name none =
    (bind (inner ++ outer) name none).map (Depth.shift (some inner.length)) := by
  rw [bind, bind, Option.or_none, Option.or_none, distance?_deepened]

theorem expressions_deepened {es : List Expr} (each : ∀ e ∈ es,
    (expression context (inner ++ [] :: outer) e).1.Deepened (some inner.length)
      (expression context (inner ++ outer) e).1) :
    List.Forall₂ (Expr.Deepened (some inner.length))
      (expressions context (inner ++ [] :: outer) es).1 (expressions context (inner ++ outer) es).1 := by
  induction es with
  | nil => exact .nil
  | cons e rest ih =>
    obtain ⟨head, tail⟩ := List.forall_mem_cons.mp each
    exact .cons head (ih tail)

theorem expression_deepened {e : Expr} (written : e.Written) (plain : Plain outer) :
    (expression context (inner ++ [] :: outer) e).1.Deepened (some inner.length)
      (expression context (inner ++ outer) e).1 := by
  induction written with
  | literal => exact .literal
  | unary _ ih => exact .unary ih
  | grouping _ ih => exact .grouping ih
  | binary _ _ left right => exact .binary left right
  | logical _ _ left right => exact .logical left right
  | «variable» =>
    rw [expression, expression, bind_deepened]
    exact .variable
  | assign _ _ ih =>
    rw [expression, expression, bind_deepened]
    exact .assign ih
  | call _ _ callee arguments => exact .call callee (expressions_deepened arguments)
  | get _ ih => exact .get ih
  | set _ _ object value => exact .set object value
  | @this keyword =>
    rw [expression, expression]
    split
    · exact @Expr.Deepened.this _ keyword none
    · rw [bind_deepened]
      exact .this
  | @super keyword method spelled =>
    rw [expression, expression]
    split
    · rw [bind_deepened]
      refine .super fun d bound => ?_
      rw [bind, Option.or_none, spelled] at bound
      exact fun same => super_apart plain bound (Option.some.inj same)
    · exact @Expr.Deepened.super _ keyword method none fun _ impossible => by cases impossible

theorem optionalExpression_deepened {e? : Option Expr} (written : ∀ e ∈ e?, e.Written)
    (plain : Plain outer) : Option.Rel (Expr.Deepened (some inner.length))
      (optionalExpression context (inner ++ [] :: outer) e?).1
      (optionalExpression context (inner ++ outer) e?).1 := by
  cases e? with
  | none => exact .none
  | some e => exact .some (expression_deepened (written e rfl) plain)

/-- What is declared outside the additional scope is declared there without it, too. -/
theorem length_ne_zero (nonempty : inner ≠ []) : some inner.length ≠ some 0 :=
  fun same => nonempty (List.eq_nil_of_length_eq_zero (Option.some.inj same))

def Deepens (outer : List Names) (s : Stmt) : Prop :=
  ∀ {context : Context} {inner : List Names}, inner ≠ [] ∨ s.declares = false →
    Stmt.Deepened (some inner.length) (statement context (inner ++ [] :: outer) s).tree
      (statement context (inner ++ outer) s).tree

theorem statements_deepened (inner : List Names) {ss : List Stmt} (each : ∀ s ∈ ss, Deepens outer s)
    (nonempty : inner ≠ []) :
    Stmts.Deepened (some inner.length) (statements context (inner ++ [] :: outer) ss).tree
      (statements context (inner ++ outer) ss).tree := by
  induction ss generalizing inner with
  | nil => exact .nil
  | cons s rest ih =>
    obtain ⟨head, tail⟩ := List.forall_mem_cons.mp each
    rw [statements, statements]
    refine .cons (head (.inl nonempty)) ?_
    have length := length_statement context inner s
    have later := ne_nil_of_length_eq length nonempty
    rw [scopes_append _ context nonempty, scopes_append _ context nonempty, ← length]
    exact ih _ tail later

theorem function_deepened (declaration : FunctionDecl)
    (each : ∀ s ∈ declaration.body, Deepens outer s) :
    (function context (inner ++ [] :: outer) declaration).1.Deepened (some inner.length)
      (function context (inner ++ outer) declaration).1 := by
  obtain ⟨name, params, body⟩ := declaration
  rw [function, function]
  have opened : ([] :: inner : List Names) ≠ [] := List.cons_ne_nil _ _
  have length : (introduceAll ([] :: inner) params).1.length = inner.length + 1 :=
    length_introduceAll params _
  refine .mk ?_
  show Stmts.Deepened (some (inner.length + 1))
    (statements context (introduceAll ([] :: inner ++ [] :: outer) params).1 body).tree
    (statements context (introduceAll ([] :: inner ++ outer) params).1 body).tree
  rw [introduceAll_append _ opened, introduceAll_append _ opened, ← length]
  exact statements_deepened _ each (introduceAll_ne_nil opened params)

theorem methods_deepened (inner : List Names) {declared : List FunctionDecl}
    (each : ∀ method ∈ declared, ∀ s ∈ method.body, Deepens outer s) :
    Methods.Deepened (some inner.length) (methods context (inner ++ [] :: outer) declared).1
      (methods context (inner ++ outer) declared).1 := by
  induction declared with
  | nil => exact .nil
  | cons method rest ih =>
    obtain ⟨bodies, others⟩ := List.forall_mem_cons.mp each
    obtain ⟨name, params, body⟩ := method
    exact .cons (function_deepened _ bodies) (ih others)

theorem statement_deepened {s : Stmt} (written : s.Written) (plain : Plain outer) : Deepens outer s := by
  induction written with
  | expression evaluated => exact fun _ => .expression (expression_deepened evaluated plain)
  | print printed => exact fun _ => .print (expression_deepened printed plain)
  | @varDecl name initializer? _ initial =>
    intro context inner fits
    have nonempty : inner ≠ [] := fits.resolve_right fun bare => by cases bare
    rw [statement, statement, declare_append _ nonempty, declare_append _ nonempty]
    dsimp only
    rw [← length_declare inner name]
    exact .varDecl (length_ne_zero (declare_ne_nil nonempty name))
      (optionalExpression_deepened initial plain)
  | block _ ih =>
    intro context inner _
    exact .block (statements_deepened ([] :: inner) ih (List.cons_ne_nil _ _))
  | @branch condition thenBranch elseBranch? tested first bare _ others one two =>
    intro context inner _
    have bareScopes : ∀ scopes, (statement context scopes thenBranch).scopes = scopes :=
      scopes_of_bare first bare context
    cases elseBranch? with
    | none => exact .branch (expression_deepened tested plain) (one (.inr bare))
    | some elseBranch =>
      rw [statement, statement]
      dsimp only
      rw [bareScopes, bareScopes]
      exact .choice (expression_deepened tested plain) (one (.inr bare))
        (two elseBranch rfl (.inr (others elseBranch rfl)))
  | loop tested _ bare ih =>
    exact fun _ => .loop (expression_deepened tested plain) (ih (.inr bare))
  | @functionDecl name params body _ _ _ ih =>
    intro context inner fits
    have nonempty : inner ≠ [] := fits.resolve_right fun bare => by cases bare
    rw [statement, statement, introduce_append _ nonempty, introduce_append _ nonempty]
    dsimp only
    rw [← length_introduce inner name]
    exact .functionDecl (length_ne_zero (introduce_ne_nil nonempty name))
      (function_deepened (.mk name params body) ih)
  | returns returned => exact fun _ => .returns (optionalExpression_deepened returned plain)
  | @classDecl name superclass? declared _ above _ _ ih =>
    intro context inner fits
    have nonempty : inner ≠ [] := fits.resolve_right fun bare => by cases bare
    have declaring := length_ne_zero (introduce_ne_nil nonempty name)
    cases superclass? with
    | none =>
      rw [statement, statement, introduce_append _ nonempty, introduce_append _ nonempty]
      dsimp only
      rw [← length_introduce inner name]
      exact .classDecl declaring
        (methods_deepened ([("this", true)] :: (introduce inner name).1) ih)
    | some superclass =>
      obtain ⟨parent, plainly, rfl⟩ := above superclass rfl
      rw [statement, statement, introduce_append _ nonempty, introduce_append _ nonempty]
      dsimp only
      rw [← length_introduce inner name]
      exact .subclass declaring rfl (expression_deepened (.variable plainly) plain)
        (methods_deepened ([("this", true)] :: [("super", true)] :: (introduce inner name).1) ih)

variable {scopes : List Names} {name : Token}

theorem plain_inner (scopes : List Names) : Plain ([] :: scopes) := fun names innermost => by
  cases innermost
  rfl

theorem plain_introduce (plain : Plain scopes) (named : name.Plain) :
    Plain (introduce scopes name).1 := by
  cases scopes with
  | nil => exact plain
  | cons names scopes =>
    obtain ⟨introduced, same, _, others⟩ := introduce_cons names scopes name
    rw [same]
    intro innermost first
    cases first
    exact (others _ named.2.symm).trans (plain names rfl)

theorem plain_statement {context : Context} {s : Stmt} (written : s.Written) (plain : Plain scopes) :
    Plain (statement context scopes s).scopes := by
  induction written generalizing scopes with
  | expression | print | block | returns => exact plain
  | varDecl named => exact plain_introduce plain named
  | @branch _ _ elseBranch? _ _ _ _ _ first second =>
    cases elseBranch? with
    | none => exact first plain
    | some elseBranch => exact second elseBranch rfl (first plain)
  | loop _ _ _ ih => exact ih plain
  | functionDecl named => exact plain_introduce plain named
  | @classDecl _ superclass? _ named =>
    cases superclass? with
    | none => exact plain_introduce plain named
    | some superclass => exact plain_introduce plain named

end Resolve

end Lox
