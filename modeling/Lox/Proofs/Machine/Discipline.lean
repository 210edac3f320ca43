import Lox.Proofs.Machine.Points
import Lox.Proofs.Store.Chains

namespace Lox

/-- Layers, what they say about scopes, and what fits into them. A task runs in the scopes of some
    layers and leaves, if it ends normally, the scopes of some others. -/
structure DisciplineData where
  Layer : Type
  /-- What a layer says of a scope that binds some names. It says nothing of names that are not
      bound. -/
  holds : Layer → ScopeId → (String → Prop) → Prop
  /-- What layers say of the names that are not bound in the innermost scope. -/
  limits : List Layer → (String → Prop) → Prop
  globals : ScopeId
  fits : Point → List Layer → List Layer → Prop
  /-- The function can be called; its scope has the layers. -/
  function : Closure → List Layer → Prop
  /-- The method can be bound; the scope around its class has the layers. -/
  method : Closure → List Layer → Prop

namespace DisciplineData

variable (D : DisciplineData)

def Chain (s : Store) (id : ScopeId) (layers : List D.Layer) : Prop :=
  s.Chain D.holds D.globals id layers

structure Weakens (strong weak : List D.Layer) : Prop where
  chain : ∀ s id, D.Chain s id strong → D.Chain s id weak
  limits : ∀ names, D.limits strong names → D.limits weak names

/-- When `name` gets bound in the innermost scope, the first layers turn into the second. -/
def Defines (name : String) (before after : List D.Layer) : Prop :=
  (before = [] ∧ after = []) ∨
    ∃ layer layer' outer, before = layer :: outer ∧ after = layer' :: outer ∧
      (∀ id names, D.holds layer id names →
        D.holds layer' id fun other => other = name ∨ names other) ∧
      ∀ names, D.limits before names → D.limits after fun other => other = name ∨ names other

theorem Weakens.refl (layers : List D.Layer) : D.Weakens layers layers :=
  ⟨fun _ _ chain => chain, fun _ limits => limits⟩

end DisciplineData

/-- A discipline for a configuration: from what it says of a point follows what it says of the
    points that this one calls. -/
structure Discipline (config : Config) extends DisciplineData where
  holds_mono : ∀ layer id before after, (∀ name, before name → after name) →
    holds layer id before → holds layer id after
  limits_mono : ∀ layers before after, (∀ name, after name → before name) →
    limits layers before → limits layers after
  limits_globals : ∀ names, limits [] names
  inner : ∀ {p q : Point} {layers after}, fits p layers after → Inner config p q →
    fits q layers layers
  initial : ∀ {n held m name initializer layers after},
    fits ⟨n + 1, held, .statement (.varDecl name (some initializer)), m⟩ layers after →
    ∃ inside, toDisciplineData.Weakens layers inside ∧
      fits ⟨n, held, .expression initializer, m⟩ inside inside
  initialized : ∀ {n held m name initializer? layers after},
    fits ⟨n + 1, held, .statement (.varDecl name initializer?), m⟩ layers after →
    toDisciplineData.Defines name.lexeme layers after
  declared : ∀ {n held m declaration layers after},
    fits ⟨n + 1, held, .statement (.functionDecl declaration), m⟩ layers after →
    toDisciplineData.Defines declaration.name.lexeme layers after ∧
      ∀ identity, function ⟨identity, declaration, m.scope, false⟩ after
  superclass : ∀ {n held m name superclass methods layers after},
    fits ⟨n + 1, held, .statement (.classDecl name (some superclass) methods), m⟩ layers after →
    ∃ inside, toDisciplineData.Weakens layers inside ∧
      fits ⟨n, held, .expression superclass, m⟩ inside inside
  named : ∀ {n held m name superclass? methods layers after},
    fits ⟨n + 1, held, .statement (.classDecl name superclass? methods), m⟩ layers after →
    toDisciplineData.Defines name.lexeme layers after
  methods : ∀ {n held m name methods layers after},
    fits ⟨n + 1, held, .statement (.classDecl name none methods), m⟩ layers after →
    ∀ declaration ∈ methods, ∀ identity, method
      ⟨identity, declaration, m.scope, declaration.name.lexeme == initializerName⟩ after
  inherited : ∀ {n held m name superclass methods m' type layers after},
    fits ⟨n + 1, held, .statement (.classDecl name (some superclass) methods), m⟩ layers after →
    evaluate config n held superclass m = .done (.class type) m' →
    ∃ layer, holds layer ⟨m'.store.next⟩ (fun name => name = "super") ∧
      ∀ declaration ∈ methods, ∀ identity, method
        ⟨identity, declaration, ⟨m'.store.next⟩, declaration.name.lexeme == initializerName⟩
        (layer :: after)
  bound : ∀ {p s method' id type layers after around}, fits p layers after →
    BindsMethod config p s method' id type → method method' around →
    toDisciplineData.Chain s method'.scope around →
    ∃ layer, holds layer ⟨s.next⟩ (fun name => name = "this") ∧
      function (s.bind method' id type).1 (layer :: around)
  block : ∀ {n held m body layers after},
    fits ⟨n + 1, held, .statement (.block body), m⟩ layers after →
    toDisciplineData.Chain m.store m.scope layers →
    toDisciplineData.Weakens layers after ∧
    ∃ layer inside, holds layer ⟨m.store.next⟩ (fun _ => False) ∧
      limits (layer :: layers) (fun _ => False) ∧
      fits ⟨n, .scope m.scope :: held, .statements body, m.enterBlock⟩ (layer :: layers) inside
  body : ∀ {n held m function' line arguments layers after around},
    fits ⟨n + 1, held, .apply function' line arguments, m⟩ layers after →
    function function' around → toDisciplineData.Chain m.store function'.scope around →
    ∃ layer inside,
      (∀ names : String → Prop,
        (∀ name, names name ↔ ∃ value, (Eval.parameterBindings function'.declaration.params
          arguments).lookup name = some value) →
        holds layer ⟨m.store.next⟩ names ∧ limits (layer :: around) names) ∧
      fits ⟨n, .scope m.scope :: .scope function'.scope :: held,
        .statements function'.declaration.body, m.enterFunction function' arguments⟩
        (layer :: around) inside
  plain : ∀ {n held m s layers after}, fits ⟨n + 1, held, .statement s, m⟩ layers after →
    (∃ value, s = .expression value ∨ s = .print value) ∨ (∃ keyword value?, s = .returns keyword value?) →
    toDisciplineData.Weakens layers after
  thenBranch : ∀ {n held m m' condition thenBranch elseBranch? value layers after},
    fits ⟨n + 1, held, .statement (.branch condition thenBranch elseBranch?), m⟩ layers after →
    evaluate config n held condition m = .done value m' → value.isTruthy = true →
    ∃ inside, toDisciplineData.Weakens inside after ∧
      fits ⟨n, held, .statement thenBranch, m'⟩ layers inside
  elseBranch : ∀ {n held m m' condition thenBranch elseBranch value layers after},
    fits ⟨n + 1, held, .statement (.branch condition thenBranch (some elseBranch)), m⟩ layers after →
    evaluate config n held condition m = .done value m' → value.isTruthy = false →
    ∃ inside, toDisciplineData.Weakens layers inside ∧
      fits ⟨n, held, .statement elseBranch, m'⟩ inside after
  skipped : ∀ {n held m condition thenBranch layers after},
    fits ⟨n + 1, held, .statement (.branch condition thenBranch none), m⟩ layers after →
    toDisciplineData.Weakens layers after
  loop : ∀ {n held m condition body layers after},
    fits ⟨n + 1, held, .statement (.loop condition body), m⟩ layers after →
    fits ⟨n, held, .loop condition body, m⟩ layers after
  loopBody : ∀ {n held m m' condition body value layers after},
    fits ⟨n + 1, held, .loop condition body, m⟩ layers after →
    evaluate config n held condition m = .done value m' → value.isTruthy = true →
    ∃ inside, toDisciplineData.Weakens inside layers ∧
      fits ⟨n, held, .statement body, m'⟩ layers inside
  loopAgain : ∀ {n held m m' m'' condition body value layers after},
    fits ⟨n + 1, held, .loop condition body, m⟩ layers after →
    evaluate config n held condition m = .done value m' → value.isTruthy = true →
    execute config n held body m' = .done .normal m'' →
    fits ⟨n, held, .loop condition body, m''⟩ layers after
  loopEnd : ∀ {n held m condition body layers after},
    fits ⟨n + 1, held, .loop condition body, m⟩ layers after →
    toDisciplineData.Weakens layers after
  first : ∀ {n held m s rest layers after},
    fits ⟨n + 1, held, .statements (s :: rest), m⟩ layers after →
    ∃ middle, fits ⟨n, held, .statement s, m⟩ layers middle ∧
      ∀ m', execute config n held s m = .done .normal m' →
        fits ⟨n, held, .statements rest, m'⟩ middle after
  last : ∀ {n held m layers after}, fits ⟨n + 1, held, .statements [], m⟩ layers after →
    toDisciplineData.Weakens layers after

end Lox
