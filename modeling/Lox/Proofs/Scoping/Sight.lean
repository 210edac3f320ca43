import Lox.Proofs.Source.Written
import Lox.Proofs.Store.Chains

namespace Lox

namespace Resolve

def Names.Settled (names : Names) : Prop := ∀ name, names.lookup name ≠ some false

def Defined (scopes : List Names) (distance : Nat) (name : String) : Prop :=
  ∃ names, scopes[distance]? = some names ∧ names.lookup name = some true

end Resolve

open Resolve

inductive Expr.Sees (scopes : List Names) : Expr → Prop where
  | literal {value : Constant} : Sees scopes (.literal value)
  | unary {operator : Token} {right : Expr} (operand : Sees scopes right) :
      Sees scopes (.unary operator right)
  | binary {left right : Expr} {operator : Token} (first : Sees scopes left)
      (second : Sees scopes right) : Sees scopes (.binary left operator right)
  | logical {left right : Expr} {operator : Token} (first : Sees scopes left)
      (second : Sees scopes right) : Sees scopes (.logical left operator right)
  | grouping {inner : Expr} (within : Sees scopes inner) : Sees scopes (.grouping inner)
  | variable {name : Token} {distance : Distance}
      (found : ∀ d ∈ distance, Defined scopes d name.lexeme) : Sees scopes (.variable name distance)
  | assign {name : Token} {value : Expr} {distance : Distance} (assigned : Sees scopes value)
      (found : ∀ d ∈ distance, distance? scopes name.lexeme = some d ∧
        (d ≠ 0 → Defined scopes d name.lexeme)) : Sees scopes (.assign name value distance)
  | call {callee : Expr} {paren : Token} {arguments : List Expr} (called : Sees scopes callee)
      (given : ∀ e ∈ arguments, Sees scopes e) : Sees scopes (.call callee paren arguments)
  | get {object : Expr} {name : Token} (owner : Sees scopes object) :
      Sees scopes (.get object name)
  | set {object value : Expr} {name : Token} (owner : Sees scopes object)
      (assigned : Sees scopes value) : Sees scopes (.set object name value)
  | this {keyword : Token} {distance : Distance}
      (found : ∀ d ∈ distance, Defined scopes d keyword.lexeme) : Sees scopes (.this keyword distance)
  | super {keyword method : Token} {distance : Distance}
      (found : ∀ d ∈ distance, Defined scopes d "super" ∧ 0 < d ∧ Defined scopes (d - 1) "this") :
      Sees scopes (.super keyword method distance)

mutual

inductive Stmt.Sees : List Names → Stmt → List Names → Prop where
  | expression {scopes : List Names} {value : Expr} (evaluated : value.Sees scopes) :
      Stmt.Sees scopes (.expression value) scopes
  | print {scopes : List Names} {value : Expr} (printed : value.Sees scopes) :
      Stmt.Sees scopes (.print value) scopes
  | varDecl {scopes : List Names} {name : Token} {initializer? : Option Expr}
      (initial : ∀ e ∈ initializer?, e.Sees (declare scopes name).1)
      (fresh : (declare scopes name).2 = [] ∨ ∀ e ∈ initializer?, e.Sees []) :
      Stmt.Sees scopes (.varDecl name initializer?) (introduce scopes name).1
  | block {scopes inside : List Names} {body : List Stmt}
      (within : SeesAll ([] :: scopes) body inside) : Stmt.Sees scopes (.block body) scopes
  | branch {scopes : List Names} {condition : Expr} {thenBranch : Stmt} {elseBranch? : Option Stmt}
      (tested : condition.Sees scopes) (first : Stmt.Sees scopes thenBranch scopes)
      (second : ∀ s ∈ elseBranch?, Stmt.Sees scopes s scopes) :
      Stmt.Sees scopes (.branch condition thenBranch elseBranch?) scopes
  | loop {scopes : List Names} {condition : Expr} {body : Stmt} (tested : condition.Sees scopes)
      (repeated : Stmt.Sees scopes body scopes) : Stmt.Sees scopes (.loop condition body) scopes
  | functionDecl {scopes : List Names} {declaration : FunctionDecl}
      (within : CallSees (introduce scopes declaration.name).1 declaration) :
      Stmt.Sees scopes (.functionDecl declaration) (introduce scopes declaration.name).1
  | returns {scopes : List Names} {keyword : Token} {value? : Option Expr}
      (returned : ∀ e ∈ value?, e.Sees scopes) : Stmt.Sees scopes (.returns keyword value?) scopes
  | classDecl {scopes : List Names} {name : Token} {superclass? : Option Expr}
      {methods : List FunctionDecl} (above : ∀ e ∈ superclass?, e.Sees scopes)
      (within : ∀ method ∈ methods,
        CallSees (classScopes (introduce scopes name).1 superclass?.isSome) method) :
      Stmt.Sees scopes (.classDecl name superclass? methods) (introduce scopes name).1

inductive SeesAll : List Names → List Stmt → List Names → Prop where
  | nil {scopes : List Names} : SeesAll scopes [] scopes
  | cons {scopes middle after : List Names} {s : Stmt} {rest : List Stmt}
      (first : Stmt.Sees scopes s middle) (others : SeesAll middle rest after) :
      SeesAll scopes (s :: rest) after

inductive CallSees : List Names → FunctionDecl → Prop where
  | intro {scopes inside : List Names} {declaration : FunctionDecl}
      (body : SeesAll (introduceAll ([] :: scopes) declaration.params).1 declaration.body inside) :
      CallSees scopes declaration

end

namespace Resolve

/-- No scope waits for a value of `this`, and one that holds `super` lies around one that holds
    `this`. -/
inductive Orderly : List Names → Prop where
  | globals : Orderly []
  | inner {names : Names} {scopes : List Names} (outer : Orderly scopes)
      (this : names.lookup "this" ≠ some false) (super : names.lookup "super" = none) :
      Orderly (names :: scopes)
  | subclass {names above : Names} {scopes : List Names} (outer : Orderly scopes)
      (this : names.lookup "this" = some true) (super : names.lookup "super" = none)
      (inherited : above.lookup "super" = some true) : Orderly (names :: above :: scopes)

variable {scopes : List Names} {names : Names}

theorem distance?_cons (names : Names) (scopes : List Names) (name : String) :
    distance? (names :: scopes) name =
      if names.declares name then some 0 else (distance? scopes name).map (· + 1) := by
  unfold distance?
  rw [List.findIdx?_cons]

theorem distance?_succ {name : String} {d : Nat} (undeclared : names.lookup name = none)
    (found : distance? (names :: scopes) name = some d) :
    ∃ d', distance? scopes name = some d' ∧ d = d' + 1 := by
  rw [distance?_cons, if_neg (by simp [Names.declares, undeclared])] at found
  obtain ⟨d', outside, same⟩ := Option.map_eq_some_iff.mp found
  exact ⟨d', outside, same.symm⟩

theorem distance?_zero {name : String} {d : Nat} {value : Bool}
    (declared : names.lookup name = some value)
    (found : distance? (names :: scopes) name = some d) : d = 0 := by
  rw [distance?_cons, if_pos (by simp [Names.declares, declared])] at found
  exact (Option.some.inj found).symm

theorem Defined.succ {d : Nat} {name : String} (defined : Defined scopes d name) :
    Defined (names :: scopes) (d + 1) name := defined

theorem declared_of_distance? {name : String} {d : Nat} (found : distance? scopes name = some d) :
    ∃ names value, scopes[d]? = some names ∧ names.lookup name = some value := by
  obtain ⟨inside, declares, _⟩ := List.findIdx?_eq_some_iff_getElem.mp found
  obtain ⟨value, listed⟩ := Option.isSome_iff_exists.mp declares
  exact ⟨scopes[d], value, List.getElem?_eq_getElem inside, listed⟩

/-- What is found has been defined, unless the innermost scope is about to define it. -/
theorem defined_of_distance? {name : String} {d : Nat}
    (settled : ∀ names ∈ scopes.tail, names.Settled) (found : distance? scopes name = some d)
    (ready : d ≠ 0 ∨ ∀ names ∈ scopes.head?, names.lookup name ≠ some false) :
    Defined scopes d name := by
  obtain ⟨names, value, here, listed⟩ := declared_of_distance? found
  refine ⟨names, here, listed.trans (congrArg some ?_)⟩
  cases value with
  | true => rfl
  | false =>
    exfalso
    cases d with
    | zero =>
      rcases ready with inner | waits
      · exact inner rfl
      · exact waits names (List.head?_eq_getElem?.trans here) listed
    | succ d => exact settled names (List.mem_of_getElem? (List.getElem?_tail.trans here)) name listed

namespace Orderly

theorem distance?_this {scopes : List Names} (orderly : Orderly scopes) {d : Nat}
    (found : distance? scopes "this" = some d) : Defined scopes d "this" := by
  induction orderly generalizing d with
  | globals => cases found
  | @inner names scopes outer this super ih =>
    cases declared : names.lookup "this" with
    | none =>
      obtain ⟨d, outside, rfl⟩ := distance?_succ declared found
      exact (ih outside).succ
    | some value =>
      cases distance?_zero declared found
      cases value with
      | true => exact ⟨names, rfl, declared⟩
      | false => exact absurd declared this
  | @subclass names above scopes outer this super inherited ih =>
    cases distance?_zero this found
    exact ⟨names, rfl, this⟩

theorem distance?_super {scopes : List Names} (orderly : Orderly scopes) {d : Nat}
    (found : distance? scopes "super" = some d) :
    Defined scopes d "super" ∧ 0 < d ∧ Defined scopes (d - 1) "this" := by
  induction orderly generalizing d with
  | globals => cases found
  | @inner names scopes outer this super ih =>
    obtain ⟨d, outside, rfl⟩ := distance?_succ super found
    obtain ⟨here, inside, beneath⟩ := ih outside
    refine ⟨here.succ, Nat.succ_pos _, ?_⟩
    cases d with
    | zero => exact absurd inside (Nat.lt_irrefl _)
    | succ d => exact beneath.succ
  | @subclass names above scopes outer this super inherited ih =>
    obtain ⟨d, outside, rfl⟩ := distance?_succ super found
    cases distance?_zero inherited outside
    exact ⟨⟨above, rfl, inherited⟩, Nat.one_pos, ⟨names, rfl, this⟩⟩

theorem head {names' : Names} (orderly : Orderly (names :: scopes))
    (this : names'.lookup "this" = names.lookup "this")
    (super : names'.lookup "super" = names.lookup "super") : Orderly (names' :: scopes) := by
  cases orderly with
  | inner outer own none => exact .inner outer (this ▸ own) (super.trans none)
  | subclass outer own none inherited =>
    exact .subclass outer (this.trans own) (super.trans none) inherited

end Orderly

theorem declare_cons (names : Names) (scopes : List Names) (name : Token) :
    ∃ names', (declare (names :: scopes) name).1 = names' :: scopes ∧
      (∀ other, other ≠ name.lexeme → names'.lookup other = names.lookup other) ∧
      (names' = names ∨
        names.lookup name.lexeme = none ∧ names'.lookup name.lexeme = some false) ∧
      ((declare (names :: scopes) name).2 = [] → names'.lookup name.lexeme = some false) := by
  by_cases known : names.declares name.lexeme = true
  · have same : declare (names :: scopes) name = (names :: scopes, [⟨.alreadyDeclared, name⟩]) :=
      if_pos known
    rw [same]
    exact ⟨names, rfl, fun _ _ => rfl, .inl rfl, fun none => nomatch none⟩
  · have same : declare (names :: scopes) name = (((name.lexeme, false) :: names) :: scopes, []) :=
      if_neg known
    have here : ((name.lexeme, false) :: names).lookup name.lexeme = some false := by
      rw [lookup_entry, if_pos rfl]
    rw [same]
    refine ⟨(name.lexeme, false) :: names, rfl, fun other differs => ?_, .inr ⟨?_, here⟩,
      fun _ => here⟩
    · rw [lookup_entry, if_neg differs]
    · exact Option.not_isSome_iff_eq_none.mp known

theorem introduce_cons (names : Names) (scopes : List Names) (name : Token) :
    ∃ names', (introduce (names :: scopes) name).1 = names' :: scopes ∧
      names'.lookup name.lexeme = some true ∧
      ∀ other, other ≠ name.lexeme → names'.lookup other = names.lookup other := by
  obtain ⟨declared, same, others, _⟩ := declare_cons names scopes name
  refine ⟨(name.lexeme, true) :: declared, ?_, ?_, fun other differs => ?_⟩
  · show define (declare (names :: scopes) name).1 name = _
    rw [same]
    rfl
  · rw [lookup_entry, if_pos rfl]
  · rw [lookup_entry, if_neg differs, others other differs]

structure Tidy (scopes : List Names) : Prop where
  orderly : Orderly scopes
  settled : ∀ names ∈ scopes, names.Settled

namespace Tidy

variable {name : Token}

theorem globals : Tidy [] := ⟨.globals, fun _ member => nomatch member⟩

theorem inner (tidy : Tidy scopes) : Tidy ([] :: scopes) := by
  refine ⟨.inner tidy.orderly (by simp) rfl, ?_⟩
  exact List.forall_mem_cons.mpr ⟨fun _ => by simp, tidy.settled⟩

theorem introduce (tidy : Tidy scopes) (plain : name.Plain) : Tidy (introduce scopes name).1 := by
  cases scopes with
  | nil => exact globals
  | cons names scopes =>
    obtain ⟨names', same, here, others⟩ := introduce_cons names scopes name
    obtain ⟨settled, outer⟩ := List.forall_mem_cons.mp tidy.settled
    rw [same]
    refine ⟨tidy.orderly.head (others _ plain.1.symm) (others _ plain.2.symm), ?_⟩
    refine List.forall_mem_cons.mpr ⟨fun other => ?_, outer⟩
    by_cases own : other = name.lexeme
    · rw [own, here]
      decide
    · rw [others other own]
      exact settled other

theorem introduceAll (params : List Token) (tidy : Tidy scopes)
    (plain : ∀ param ∈ params, param.Plain) : Tidy (introduceAll scopes params).1 := by
  induction params generalizing scopes with
  | nil => exact tidy
  | cons param rest ih =>
    obtain ⟨first, others⟩ := List.forall_mem_cons.mp plain
    exact ih (tidy.introduce first) others

theorem classScopes (tidy : Tidy scopes) (hasSuperclass : Bool) :
    Tidy (classScopes scopes hasSuperclass) := by
  have one (word : String) : Names.Settled [(word, true)] := by
    intro name
    rw [lookup_entry]
    split <;> simp
  cases hasSuperclass with
  | false =>
    exact ⟨.inner tidy.orderly (by decide) rfl, List.forall_mem_cons.mpr ⟨one _, tidy.settled⟩⟩
  | true =>
    refine ⟨.subclass tidy.orderly rfl rfl rfl, List.forall_mem_cons.mpr ⟨one _, ?_⟩⟩
    exact List.forall_mem_cons.mpr ⟨one _, tidy.settled⟩

end Tidy

/-- While a variable is initialized, the scopes are orderly, but only those further out are
    settled. -/
theorem orderly_declare {name : Token} (tidy : Tidy scopes) (plain : name.Plain) :
    Orderly (declare scopes name).1 ∧ ∀ names ∈ (declare scopes name).1.tail, names.Settled := by
  cases scopes with
  | nil => exact ⟨.globals, fun _ member => nomatch member⟩
  | cons names scopes =>
    obtain ⟨names', same, others, _⟩ := declare_cons names scopes name
    rw [same]
    exact ⟨tidy.orderly.head (others _ plain.1.symm) (others _ plain.2.symm),
      (List.forall_mem_cons.mp tidy.settled).2⟩

end Resolve
end Lox
