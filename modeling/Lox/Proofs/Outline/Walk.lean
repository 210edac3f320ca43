import Lox.Proofs.Outline.Basic
import Mathlib.Data.List.Forall2
import Lox.Proofs.Syntax.Regular
import Lox.Proofs.Scoping.Sight

namespace Lox

namespace Outline

open Resolve hiding declare distance?

def declare (layers : List Layer) (name : String) : List Layer :=
  layers.modifyHead fun layer => { layer with declared := layer.declared ++ [name] }

def advance (layers : List Layer) (entry : OutlineEntry) : List Layer :=
  (declared? entry).elim layers (declare layers)

def advanceAll (layers : List Layer) (entries : List OutlineEntry) : List Layer :=
  entries.foldl advance layers

def distance? (layers : List Layer) (name : String) : Distance :=
  layers.findIdx? (name ∈ ·.declared)

def violation? (layers : List Layer) : OutlineEntry → Option BindingError
  | .declares name =>
    if name.lexeme ∈ nearest layers then some ⟨.alreadyDeclared, name⟩ else none
  | .use owner? ⟨.read, name, _⟩ =>
    if owner?.map Token.lexeme = some name.lexeme ∧ (nearest layers).count name.lexeme = 1 then
      some ⟨.readInOwnInitializer, name⟩
    else none
  | .use _ ⟨.write, _, _⟩ => none
  | .use _ ⟨.this, keyword, _⟩ =>
    match class? layers with
    | none => some ⟨.thisOutsideClass, keyword⟩
    | some _ => none
  | .use _ ⟨.super, keyword, _⟩ =>
    match class? layers with
    | none => some ⟨.superOutsideClass, keyword⟩
    | some false => some ⟨.superWithoutSuperclass, keyword⟩
    | some true => none
  | .returns keyword hasValue =>
    match function? layers with
    | none => some ⟨.returnOutsideFunction, keyword⟩
    | some (.method name) =>
      if name.lexeme = initializerName ∧ hasValue = true then
        some ⟨.returnFromInitializer, keyword⟩
      else none
    | some _ => none
  | .inherits name parent =>
    if parent.lexeme = name.lexeme then some ⟨.inheritsFromItself, parent⟩ else none
  | .scope _ _ => none

def Misplaced (layers : List Layer) (use : Use) : Prop :=
  use.kind = .this ∧ class? layers = none ∨ use.kind = .super ∧ class? layers ≠ some true

instance (layers : List Layer) (use : Use) : Decidable (Misplaced layers use) := by
  unfold Misplaced
  infer_instance

def fillUse (layers : List Layer) (use : Use) : Use :=
  { use with slot := if Misplaced layers use then none else distance? layers use.token.lexeme }

mutual

def fill (layers : List Layer) : OutlineEntry → OutlineEntry
  | .use owner? use => .use owner? (fillUse layers use)
  | .scope kind inside => .scope kind (fillAll (.after kind [] :: layers) inside)
  | .declares name => .declares name
  | .returns keyword hasValue => .returns keyword hasValue
  | .inherits name parent => .inherits name parent

def fillAll (layers : List Layer) : List OutlineEntry → List OutlineEntry
  | [] => []
  | entry :: rest => fill layers entry :: fillAll (advance layers entry) rest

end

mutual

def reports (layers : List Layer) : OutlineEntry → List BindingError
  | .scope kind inside => reportsAll (.after kind [] :: layers) inside
  | entry => (violation? layers entry).toList

def reportsAll (layers : List Layer) : List OutlineEntry → List BindingError
  | [] => []
  | entry :: rest => reports layers entry ++ reportsAll (advance layers entry) rest

end

variable {layers : List Layer}

theorem Violation.found {entry : OutlineEntry} {error : BindingError}
    (violation : Violation layers entry error) : violation? layers entry = some error := by
  cases violation with
  | alreadyDeclared before => exact if_pos before
  | readInOwnInitializer own single => exact if_pos ⟨congrArg some own, single⟩
  | returnOutsideFunction outside | thisOutsideClass outside | superOutsideClass outside
  | superWithoutSuperclass outside =>
    unfold violation?
    rw [outside]
  | returnFromInitializer inside initializer =>
    unfold violation?
    rw [inside]
    exact if_pos ⟨initializer, rfl⟩
  | inheritsFromItself same => exact if_pos same

theorem violation_of_violation? {entry : OutlineEntry} {error : BindingError}
    (found : violation? layers entry = some error) : Violation layers entry error := by
  unfold violation? at found
  split at found
  case h_1 =>
    split at found <;> cases found
    exact .alreadyDeclared ‹_›
  case h_2 =>
    split at found <;> cases found
    rename_i own
    obtain ⟨owner, rfl, same⟩ := Option.map_eq_some_iff.mp own.1
    exact .readInOwnInitializer same own.2
  case h_4 =>
    split at found <;> cases found
    exact .thisOutsideClass ‹_›
  case h_5 =>
    split at found <;> cases found
    · exact .superOutsideClass ‹_›
    · exact .superWithoutSuperclass ‹_›
  case h_6 =>
    split at found
    · cases found
      exact .returnOutsideFunction ‹_›
    · split at found <;> cases found
      rename_i inside initializer
      obtain ⟨named, rfl⟩ := initializer
      exact .returnFromInitializer inside named
    · cases found
  case h_7 =>
    split at found <;> cases found
    exact .inheritsFromItself ‹_›
  all_goals cases found

theorem violation?_eq_some {entry : OutlineEntry} {error : BindingError} :
    violation? layers entry = some error ↔ Violation layers entry error :=
  ⟨violation_of_violation?, Violation.found⟩

theorem advanceAll_append (first second : List OutlineEntry) :
    advanceAll layers (first ++ second) = advanceAll (advanceAll layers first) second :=
  List.foldl_append

theorem fillAll_append (first second : List OutlineEntry) :
    fillAll layers (first ++ second) =
      fillAll layers first ++ fillAll (advanceAll layers first) second := by
  induction first generalizing layers with
  | nil => rfl
  | cons entry rest ih => exact congrArg (fill layers entry :: ·) ih

theorem reportsAll_append (first second : List OutlineEntry) :
    reportsAll layers (first ++ second) =
      reportsAll layers first ++ reportsAll (advanceAll layers first) second := by
  induction first generalizing layers with
  | nil => rfl
  | cons entry rest ih =>
    show reports layers entry ++ reportsAll _ (rest ++ second) = reports layers entry ++ _ ++ _
    rw [ih, List.append_assoc]
    rfl

theorem advanceAll_uses (owner? : Option Token) (uses : List Use) :
    advanceAll layers (uses.map (.use owner?)) = layers := by
  induction uses with
  | nil => rfl
  | cons use rest ih => exact ih

theorem fillAll_uses (owner? : Option Token) (uses : List Use) :
    fillAll layers (uses.map (.use owner?)) = (uses.map (fillUse layers)).map (.use owner?) := by
  induction uses with
  | nil => rfl
  | cons use rest ih => exact congrArg (OutlineEntry.use owner? (fillUse layers use) :: ·) ih

theorem reportsAll_uses (owner? : Option Token) (uses : List Use) :
    reportsAll layers (uses.map (.use owner?)) =
      uses.flatMap fun use => (violation? layers (.use owner? use)).toList := by
  induction uses with
  | nil => rfl
  | cons use rest ih => exact congrArg (_ ++ ·) ih

def Declared (scopes : List Names) (layers : List Layer) : Prop :=
  List.Forall₂ (fun names layer => ∀ name, names.declares name = true ↔ name ∈ layer.declared)
    scopes layers

def classContext : Option Bool → ClassContext
  | none => .none
  | some false => .base
  | some true => .subclass

def functionContext : Option ScopeKind → FunctionContext
  | none => .none
  | some (.method name) => methodContext name
  | some _ => .function

/-- The resolver looks at an expression with the layers around the expression in view. -/
structure Views (context : Context) (scopes : List Names) (layers : List Layer)
    (owner? : Option Token) : Prop where
  declared : Declared scopes layers
  enclosing : context.enclosing = classContext (class? layers)
  reads : ∀ name slot,
    readErrors scopes name = (violation? layers (.use owner? ⟨.read, name, slot⟩)).toList

structure Settled (layers : List Layer) (owner? : Option Token) (uses uses' : List Use)
    (errors : List BindingError) : Prop where
  slots : uses' = uses.map (fillUse layers)
  reported : errors = uses.flatMap fun use => (violation? layers (.use owner? use)).toList

section expressions

variable {owner? : Option Token}

theorem Settled.nil : Settled layers owner? [] [] [] := ⟨rfl, rfl⟩

theorem Settled.append {uses uses' more more' : List Use} {errors others : List BindingError}
    (first : Settled layers owner? uses uses' errors)
    (second : Settled layers owner? more more' others) :
    Settled layers owner? (uses ++ more) (uses' ++ more') (errors ++ others) := by
  refine ⟨?_, ?_⟩
  · rw [first.slots, second.slots, List.map_append]
  · rw [first.reported, second.reported, List.flatMap_append]

theorem distance?_eq {scopes : List Names} (declared : Declared scopes layers) (name : String) :
    Resolve.distance? scopes name = distance? layers name := by
  induction declared with
  | nil => rfl
  | @cons names layer scopes layers here _ ih =>
    rw [distance?_cons, ih]
    unfold distance?
    rw [List.findIdx?_cons]
    simp only [here name, decide_eq_true_eq]

theorem bind_eq {scopes : List Names} (declared : Declared scopes layers) (token : Token) :
    Resolve.bind scopes token none = distance? layers token.lexeme := by
  rw [Resolve.bind, Option.or_none, distance?_eq declared]

variable {context : Context} {scopes : List Names}

theorem settled_this (views : Views context scopes layers owner?) (keyword : Token) :
    Settled layers owner? [⟨.this, keyword, none⟩]
      (expression context scopes (.this keyword none)).1.uses
      (expression context scopes (.this keyword none)).2 := by
  rw [expression, views.enclosing]
  cases around : class? layers with
  | none =>
    refine ⟨?_, ?_⟩
    · simp [fillUse, Misplaced, around, Expr.uses, classContext]
    · simp [violation?, around, classContext]
  | some hasSuperclass =>
    refine ⟨?_, ?_⟩
    · cases hasSuperclass <;>
        simp [fillUse, Misplaced, around, Expr.uses, classContext, bind_eq views.declared]
    · cases hasSuperclass <;> simp [violation?, around, classContext]

theorem settled_super (views : Views context scopes layers owner?) (keyword method : Token) :
    Settled layers owner? [⟨.super, keyword, none⟩]
      (expression context scopes (.super keyword method none)).1.uses
      (expression context scopes (.super keyword method none)).2 := by
  rw [expression, views.enclosing]
  cases around : class? layers with
  | none =>
    refine ⟨?_, ?_⟩
    · simp [fillUse, Misplaced, around, Expr.uses, classContext, superErrors]
    · simp [violation?, around, classContext, superErrors]
  | some hasSuperclass =>
    cases hasSuperclass with
    | false =>
      refine ⟨?_, ?_⟩
      · simp [fillUse, Misplaced, around, Expr.uses, classContext, superErrors]
      · simp [violation?, around, classContext, superErrors]
    | true =>
      refine ⟨?_, ?_⟩
      · simp [fillUse, Misplaced, around, Expr.uses, classContext, superErrors,
          bind_eq views.declared]
      · simp [violation?, around, classContext, superErrors]

theorem expressions_settled {es : List Expr}
    (each : ∀ e ∈ es, Settled layers owner? e.uses (expression context scopes e).1.uses
      (expression context scopes e).2) :
    Settled layers owner? (Expr.usesAll es) (Expr.usesAll (expressions context scopes es).1)
      (expressions context scopes es).2 := by
  induction es with
  | nil => exact .nil
  | cons e rest ih =>
    obtain ⟨first, others⟩ := List.forall_mem_cons.mp each
    exact first.append (ih others)

theorem expression_settled (views : Views context scopes layers owner?) {e : Expr}
    (unbound : e.Unbound) :
    Settled layers owner? e.uses (expression context scopes e).1.uses
      (expression context scopes e).2 := by
  induction unbound with
  | literal => exact .nil
  | unary _ _ ih | grouping _ ih | get _ _ ih => exact ih
  | binary _ _ _ left right | logical _ _ _ left right => exact left.append right
  | @«variable» name _ =>
    refine ⟨?_, ?_⟩
    · simp [expression, Expr.uses, fillUse, Misplaced, bind_eq views.declared]
    · simp [expression, Expr.uses, views.reads name none]
  | @assign name value _ _ ih =>
    have target : Settled layers owner? [⟨.write, name, none⟩]
        [⟨.write, name, Resolve.bind scopes name none⟩] [] := by
      refine ⟨?_, rfl⟩
      simp [fillUse, Misplaced, bind_eq views.declared]
    have whole := ih.append target
    rwa [List.append_nil] at whole
  | call _ _ _ callee arguments => exact callee.append (expressions_settled arguments)
  | set _ _ _ object value => exact value.append object
  | this _ => exact settled_this views _
  | super _ _ => exact settled_super views _ _

end expressions

/-- The resolver is at a place of an outline: it knows the declarations in all scopes, none of
    which waits for its initializer, and what is around the place. -/
structure Agrees (context : Context) (scopes : List Names) (layers : List Layer) : Prop where
  declared : List.Forall₂ (fun names layer =>
    ∀ name, names.lookup name = if name ∈ layer.declared then some true else none) scopes layers
  function : context.function = functionContext (function? layers)
  enclosing : context.enclosing = classContext (class? layers)

structure Outlined (context : Context) (layers : List Layer) (entries entries' : List OutlineEntry)
    (errors : List BindingError) (after : List Names) : Prop where
  filled : entries' = fillAll layers entries
  reported : errors = reportsAll layers entries
  agrees : Agrees context after (advanceAll layers entries)

section statements

variable {context : Context} {scopes : List Names} {name : Token}

theorem Agrees.globals : Agrees .topLevel [] [] := ⟨.nil, rfl, rfl⟩

theorem declares_iff {names : Names} {declared : List String} {name : String}
    (known : names.lookup name = if name ∈ declared then some true else none) :
    names.declares name = true ↔ name ∈ declared := by
  unfold Names.declares
  rw [known]
  split <;> simp_all

theorem Agrees.views (agrees : Agrees context scopes layers) :
    Views context scopes layers none := by
  refine ⟨agrees.declared.imp fun _ _ known name => declares_iff (known name), agrees.enclosing,
    fun name slot => ?_⟩
  show readErrors scopes name = []
  cases agrees.declared with
  | nil => rfl
  | cons here _ =>
    refine if_neg ?_
    rw [here name.lexeme]
    split <;> simp

theorem mem_declared_iff {names names' : Names} {declared : List String}
    (known : ∀ name, names.lookup name = if name ∈ declared then some true else none)
    (here : names'.lookup name.lexeme = some true)
    (others : ∀ other, other ≠ name.lexeme → names'.lookup other = names.lookup other)
    (other : String) :
    names'.lookup other = if other ∈ declared ++ [name.lexeme] then some true else none := by
  by_cases own : other = name.lexeme
  · rw [own, here]
    simp
  · rw [others other own, known other]
    simp [own]

theorem class?_declare (layers : List Layer) (name : String) :
    class? (declare layers name) = class? layers := by
  cases layers <;> rfl

theorem function?_declare (layers : List Layer) (name : String) :
    function? (declare layers name) = function? layers := by
  cases layers <;> rfl

theorem Agrees.introduced (agrees : Agrees context scopes layers) (name : Token) :
    Agrees context (introduce scopes name).1 (declare layers name.lexeme) := by
  obtain ⟨declared, function, enclosing⟩ := agrees
  rw [← function?_declare layers name.lexeme] at function
  rw [← class?_declare layers name.lexeme] at enclosing
  refine ⟨?_, function, enclosing⟩
  cases declared with
  | nil => exact .nil
  | @cons names layer scopes layers here outer =>
    obtain ⟨names', same, own, others⟩ := introduce_cons names scopes name
    rw [same]
    exact .cons (mem_declared_iff here own others) outer

theorem declare_reports (agrees : Agrees context scopes layers) (name : Token) :
    (Resolve.declare scopes name).2 = (violation? layers (.declares name)).toList := by
  obtain ⟨declared, -, -⟩ := agrees
  cases declared with
  | nil => rfl
  | @cons names layer scopes layers here outer =>
    have known := declares_iff (here name.lexeme)
    show (if names.declares name.lexeme then _ else _ : List Names × List BindingError).2 =
      (if name.lexeme ∈ layer.declared then _ else _ : Option BindingError).toList
    by_cases before : name.lexeme ∈ layer.declared
    · rw [if_pos (known.mpr before), if_pos before]
      rfl
    · rw [if_neg (mt known.mp before), if_neg before]
      rfl

/-- In the initializer of a variable the names declared are those before it and its own. A read of
    the variable is an error, unless another variable of its name has been declared before. -/
theorem Agrees.initial (agrees : Agrees context scopes layers) (name : Token) :
    Views context (Resolve.declare scopes name).1 (declare layers name.lexeme) (some name) := by
  obtain ⟨declared, -, enclosing⟩ := agrees
  rw [← class?_declare layers name.lexeme] at enclosing
  cases declared with
  | nil =>
    refine ⟨.nil, enclosing, fun read slot => ?_⟩
    simp [violation?, nearest, declare, Resolve.declare, readErrors]
  | @cons names layer scopes layers here outer =>
    have outer : Declared scopes layers := outer.imp fun _ _ known name => declares_iff (known name)
    have known := declares_iff (here name.lexeme)
    have violated (read : Token) (slot : Distance) :
        violation? (declare (layer :: layers) name.lexeme) (.use (some name) ⟨.read, read, slot⟩) =
          if read.lexeme = name.lexeme ∧ name.lexeme ∉ layer.declared then
            some ⟨.readInOwnInitializer, read⟩ else none := by
      by_cases own : read.lexeme = name.lexeme
      · simp [violation?, nearest, declare, own, List.count_eq_zero]
      · simp [violation?, own, Ne.symm own]
    by_cases before : names.declares name.lexeme = true
    -- A second declaration leaves the scope alone, so the first one's value may be read.
    · have listed := known.mp before
      rw [show Resolve.declare (names :: scopes) name = (names :: scopes, _) from if_pos before]
      refine ⟨.cons (fun other => ?_) outer, enclosing, fun read slot => ?_⟩
      · rw [declares_iff (here other), List.mem_append, List.mem_singleton]
        exact ⟨.inl, fun member => member.elim id fun own => own ▸ listed⟩
      · rw [violated, if_neg fun fresh => fresh.2 listed]
        refine if_neg ?_
        rw [here read.lexeme]
        split <;> simp
    · have fresh := mt known.mpr before
      rw [show Resolve.declare (names :: scopes) name =
        (((name.lexeme, false) :: names) :: scopes, _) from if_neg before]
      refine ⟨.cons (fun other => ?_) outer, enclosing, fun read slot => ?_⟩
      · have others := declares_iff (here other)
        unfold Names.declares at others ⊢
        rw [lookup_entry, List.mem_append, List.mem_singleton]
        split
        · simp_all
        · rw [others]
          simp_all
      · show (if ((name.lexeme, false) :: names).lookup read.lexeme = some false then _ else _ :
          List BindingError) = _
        rw [violated, lookup_entry]
        by_cases own : read.lexeme = name.lexeme
        · simp [own, fresh]
        · rw [if_neg own, here read.lexeme]
          simp [own]

theorem Agrees.scope {names : Names} {kind : ScopeKind} {inner : Context}
    (agrees : Agrees context scopes layers)
    (known : ∀ name, names.lookup name =
      if name ∈ (keyword? kind).toList then some true else none)
    (function : inner.function = functionContext (function? (.after kind [] :: layers)))
    (enclosing : inner.enclosing = classContext (class? (.after kind [] :: layers))) :
    Agrees inner (names :: scopes) (.after kind [] :: layers) := by
  refine ⟨.cons (fun name => ?_) agrees.declared, function, enclosing⟩
  rw [known name]
  simp [Layer.after]

theorem Outlined.append {entries entries' more more' : List OutlineEntry}
    {errors others : List BindingError} {after later : List Names}
    (first : Outlined context layers entries entries' errors after)
    (second : Outlined context (advanceAll layers entries) more more' others later) :
    Outlined context layers (entries ++ more) (entries' ++ more') (errors ++ others) later := by
  refine ⟨?_, ?_, ?_⟩
  · rw [first.filled, second.filled, fillAll_append]
  · rw [first.reported, second.reported, reportsAll_append]
  · rw [advanceAll_append]
    exact second.agrees

theorem Agrees.nothing (agrees : Agrees context scopes layers) :
    Outlined context layers [] [] [] scopes := ⟨rfl, rfl, agrees⟩

theorem Agrees.declares (agrees : Agrees context scopes layers) (name : Token) :
    Outlined context layers [.declares name] [.declares name] (introduce scopes name).2
      (introduce scopes name).1 := by
  refine ⟨rfl, ?_, agrees.introduced name⟩
  show (Resolve.declare scopes name).2 = (violation? layers (.declares name)).toList ++ []
  rw [declare_reports agrees, List.append_nil]

theorem Agrees.parameters (params : List Token) (agrees : Agrees context scopes layers) :
    Outlined context layers (params.map .declares) (params.map .declares)
      (introduceAll scopes params).2 (introduceAll scopes params).1 := by
  induction params generalizing scopes layers with
  | nil => exact agrees.nothing
  | cons param rest ih =>
    have first := agrees.declares param
    exact first.append (ih first.agrees)

theorem Outlined.scope {kind : ScopeKind} {inner : Context} {inside inside' : List OutlineEntry}
    {errors : List BindingError} {after : List Names}
    (within : Outlined inner (.after kind [] :: layers) inside inside' errors after)
    (agrees : Agrees context scopes layers) :
    Outlined context layers [.scope kind inside] [.scope kind inside'] errors scopes := by
  refine ⟨congrArg (fun entries => [OutlineEntry.scope kind entries]) within.filled, ?_, agrees⟩
  rw [within.reported]
  exact (List.append_nil _).symm

theorem Views.entries? {owner? : Option Token} {after : List Names} {e? : Option Expr}
    (views : Views context scopes layers owner?) (agrees : Agrees context after layers)
    (unbound : ∀ e ∈ e?, e.Unbound) :
    Outlined context layers (Expr.entries? owner? e?)
      (Expr.entries? owner? (optionalExpression context scopes e?).1)
      (optionalExpression context scopes e?).2 after := by
  cases e? with
  | none => exact agrees.nothing
  | some e =>
    have settled := expression_settled views (unbound e rfl)
    refine ⟨?_, ?_, ?_⟩
    · show List.map _ _ = fillAll layers (e.uses.map _)
      rw [fillAll_uses, ← settled.slots]
    · show _ = reportsAll layers (e.uses.map _)
      rw [reportsAll_uses, ← settled.reported]
      rfl
    · show Agrees context after (advanceAll layers (e.uses.map _))
      rwa [advanceAll_uses]

theorem Agrees.value {e : Expr} (agrees : Agrees context scopes layers) (unbound : e.Unbound) :
    Outlined context layers (e.entries none) ((expression context scopes e).1.entries none)
      (expression context scopes e).2 scopes := by
  have every : ∀ value ∈ some e, value.Unbound := by
    rintro _ ⟨⟩
    exact unbound
  exact agrees.views.entries? agrees every

theorem Agrees.returns (agrees : Agrees context scopes layers) (keyword : Token)
    (hasValue : Bool) :
    Outlined context layers [.returns keyword hasValue] [.returns keyword hasValue]
      (returnErrors context.function keyword hasValue) scopes := by
  refine ⟨rfl, ?_, agrees⟩
  show _ = (violation? layers (.returns keyword hasValue)).toList ++ []
  rw [agrees.function, List.append_nil]
  cases around : function? layers with
  | none => simp [violation?, around, functionContext, returnErrors]
  | some kind =>
    cases kind with
    | method name =>
      by_cases initializer : name.lexeme = initializerName <;> cases hasValue <;>
        simp [violation?, around, functionContext, returnErrors, methodContext, initializer]
    | block | function | receiver hasSuperclass | inheritance =>
      simp [violation?, around, functionContext, returnErrors]

theorem Agrees.inherits (agrees : Agrees context scopes layers) (name parent : Token) :
    Outlined context layers [.inherits name parent] [.inherits name parent]
      (inheritanceErrors name (.variable parent none)) scopes := by
  refine ⟨rfl, ?_, agrees⟩
  show (if parent.lexeme = name.lexeme then _ else _ : List BindingError) =
    (if parent.lexeme = name.lexeme then _ else _ : Option BindingError).toList ++ []
  split <;> rfl

def Follows (s : Stmt) : Prop :=
  ∀ {context : Context} {scopes : List Names} {layers : List Layer},
    Agrees context scopes layers →
      Outlined context layers s.entries (statement context scopes s).tree.entries
        (statement context scopes s).errors (statement context scopes s).scopes

theorem statements_outlined {ss : List Stmt} (each : ∀ s ∈ ss, Follows s)
    (agrees : Agrees context scopes layers) :
    Outlined context layers (Stmt.entriesAll ss)
      (Stmt.entriesAll (statements context scopes ss).tree) (statements context scopes ss).errors
      (statements context scopes ss).scopes := by
  induction ss generalizing scopes layers with
  | nil => exact agrees.nothing
  | cons s rest ih =>
    obtain ⟨here, others⟩ := List.forall_mem_cons.mp each
    have first := here agrees
    exact first.append (ih others first.agrees)

theorem function_outlined (name : Token) (params : List Token) {kind : ScopeKind}
    {inner : Context} {body : List Stmt} (each : ∀ s ∈ body, Follows s)
    (inside : Agrees inner ([] :: scopes) (.after kind [] :: layers))
    (agrees : Agrees context scopes layers) :
    Outlined context layers [.scope kind (params.map .declares ++ Stmt.entriesAll body)]
      [.scope kind (params.map .declares ++
        Stmt.entriesAll (function inner scopes (.mk name params body)).1.body)]
      (function inner scopes (.mk name params body)).2 scopes := by
  have given := inside.parameters params
  exact (given.append (statements_outlined each given.agrees)).scope agrees

theorem methods_outlined {declared : List FunctionDecl}
    (each : ∀ method ∈ declared, ∀ s ∈ method.body, Follows s)
    (agrees : Agrees context scopes layers) :
    Outlined context layers (Stmt.methodEntries declared)
      (Stmt.methodEntries (methods context scopes declared).1) (methods context scopes declared).2
      scopes := by
  induction declared with
  | nil => exact agrees.nothing
  | cons method rest ih =>
    obtain ⟨name, params, body⟩ := method
    obtain ⟨here, others⟩ := List.forall_mem_cons.mp each
    have inside : Agrees { context with function := methodContext name } ([] :: scopes)
        (.after (.method name) [] :: layers) :=
      agrees.scope (fun name => by simp [keyword?]) rfl agrees.enclosing
    have first := function_outlined name params here inside agrees
    exact first.append (ih others)

theorem base_outlined {declared : List FunctionDecl}
    (each : ∀ method ∈ declared, ∀ s ∈ method.body, Follows s)
    (agrees : Agrees context scopes layers) :
    let resolved := methods { context with enclosing := .base } (classScopes scopes false) declared
    Outlined context layers [.scope (.receiver false) (Stmt.methodEntries declared)]
      [.scope (.receiver false) (Stmt.methodEntries resolved.1)] resolved.2 scopes := by
  have inside : Agrees { context with enclosing := .base } (classScopes scopes false)
      (.after (.receiver false) [] :: layers) :=
    agrees.scope (fun name => by simp [lookup_entry, keyword?]) agrees.function rfl
  exact (methods_outlined each inside).scope agrees

theorem subclass_outlined {declared : List FunctionDecl}
    (each : ∀ method ∈ declared, ∀ s ∈ method.body, Follows s)
    (agrees : Agrees context scopes layers) :
    let resolved :=
      methods { context with enclosing := .subclass } (classScopes scopes true) declared
    Outlined context layers
      [.scope .inheritance [.scope (.receiver true) (Stmt.methodEntries declared)]]
      [.scope .inheritance [.scope (.receiver true) (Stmt.methodEntries resolved.1)]] resolved.2
      scopes := by
  have above : Agrees context ([("super", true)] :: scopes) (.after .inheritance [] :: layers) :=
    agrees.scope (fun name => by simp [lookup_entry, keyword?]) agrees.function agrees.enclosing
  have inside : Agrees { context with enclosing := .subclass } (classScopes scopes true)
      (.after (.receiver true) [] :: .after .inheritance [] :: layers) :=
    above.scope (fun name => by simp [lookup_entry, keyword?]) agrees.function rfl
  exact ((methods_outlined each inside).scope above).scope agrees

theorem statement_outlined {s : Stmt} (regular : s.Regular) : Follows s := by
  induction regular with
  | expression evaluated => exact fun agrees => agrees.value evaluated
  | print printed => exact fun agrees => agrees.value printed
  | @varDecl name initializer? initial =>
    intro context scopes layers agrees
    -- The initializer is walked after its name has been declared, and before it may be read.
    exact (agrees.declares name).append
      ((agrees.initial name).entries? (agrees.introduced name) initial)
  | block _ ih =>
    intro context scopes layers agrees
    have inside : Agrees context ([] :: scopes) (.after .block [] :: layers) :=
      agrees.scope (fun name => by simp [keyword?]) agrees.function agrees.enclosing
    exact (statements_outlined ih inside).scope agrees
  | @branch condition thenBranch elseBranch? tested _ _ first second =>
    intro context scopes layers agrees
    have condition := agrees.value tested
    have either := condition.append (first condition.agrees)
    cases elseBranch? with
    | none => exact either
    | some elseBranch => exact either.append (second elseBranch rfl either.agrees)
  | loop tested _ ih =>
    intro context scopes layers agrees
    have condition := agrees.value tested
    exact condition.append (ih condition.agrees)
  | @functionDecl name params body _ ih =>
    intro context scopes layers agrees
    have named := agrees.introduced name
    have inside : Agrees { context with function := .function } ([] :: (introduce scopes name).1)
        (.after .function [] :: declare layers name.lexeme) :=
      named.scope (fun name => by simp [keyword?]) rfl named.enclosing
    exact (agrees.declares name).append
      (function_outlined name params ih inside named)
  | @returns keyword value? returned =>
    intro context scopes layers agrees
    have whole := (agrees.returns keyword value?.isSome).append
      (agrees.views.entries? agrees returned)
    cases value? <;> exact whole
  | @classDecl name superclass? declared above _ ih =>
    intro context scopes layers agrees
    have named := agrees.declares name
    cases superclass? with
    | none => exact named.append (base_outlined ih named.agrees)
    | some superclass =>
      obtain ⟨parent, rfl⟩ := above superclass rfl
      have inherits := named.append (named.agrees.inherits name parent)
      have unbound : (Expr.variable parent none).Unbound := .variable trivial
      -- The superclass is read with the class declared, but outside of the scope of `super`.
      have whole := inherits.append (inherits.agrees.value unbound)
      exact whole.append (subclass_outlined ih whole.agrees)

end statements

theorem program_outlined {tokens : List Token} {program : List Stmt}
    (parsed : parse tokens = .ok program) :
    Outlined .topLevel [] (outline program) (outline (resolve program).1) (resolve program).2
      (statements .topLevel [] program).scopes :=
  statements_outlined (fun s member => statement_outlined (parse_regular parsed s member)) .globals

end Outline
end Lox
