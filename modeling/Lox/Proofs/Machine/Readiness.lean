import Lox.Proofs.Machine.Pauses

namespace Lox

namespace Outcome

def Sat {α : Type} (outcome : Outcome α) (done : α → Machine → Prop) (failed : Machine → Prop) :
    Prop :=
  match outcome with
  | .done value m => done value m
  | .failed _ m => failed m
  | .unfinished => True

variable {α β : Type} {done : β → Machine → Prop} {failed : Machine → Prop} {m : Machine}

theorem Sat.mono {outcome : Outcome β} {done' : β → Machine → Prop} {failed' : Machine → Prop}
    (sat : outcome.Sat done failed) (good : ∀ value m, done value m → done' value m)
    (bad : ∀ m, failed m → failed' m) : outcome.Sat done' failed' := by
  cases outcome with
  | done value m => exact good value m sat
  | failed fault m => exact bad m sat
  | unfinished => trivial

theorem Sat.bind {x : Eval α} {next : α → Eval β} {middle : α → Machine → Prop}
    (first : (x m).Sat middle failed)
    (rest : ∀ value m', x m = .done value m' → middle value m' → (next value m').Sat done failed) :
    ((x >>= next) m).Sat done failed := by
  show (Eval.andThen x next m).Sat done failed
  unfold Eval.andThen
  cases ended : x m with
  | done value m' =>
    rw [ended] at first
    exact rest value m' ended first
  | failed fault m' =>
    rw [ended] at first
    exact first
  | unfinished => trivial

end Outcome

namespace Machine

theorem roots_cons_subset {m : Machine} {root : Root} {held : List Root} :
    m.roots (root :: held) ⊆ root :: m.roots held := by
  intro other member
  simp only [roots, List.mem_cons] at member ⊢
  rcases member with same | same | same | old
  · exact .inr (.inl same)
  · exact .inr (.inr (.inl same))
  · exact .inl same
  · exact .inr (.inr (.inr old))

def names (m : Machine) (name : String) : Prop :=
  ∃ scope, m.store.scope? m.scope = some scope ∧ scope.Binds name

structure Later (changing : ScopeId → Prop) (m m' : Machine) : Prop where
  globals : m'.globals = m.globals
  scope : m'.scope = m.scope
  depth : m'.depth = m.depth
  since : m.store.Since m'.store changing

theorem Later.refl (changing : ScopeId → Prop) (m : Machine) : m.Later changing m :=
  ⟨rfl, rfl, rfl, .refl m.store changing⟩

theorem Later.trans {changing : ScopeId → Prop} {a b c : Machine} (first : a.Later changing b)
    (second : b.Later changing c) : a.Later changing c :=
  ⟨second.globals.trans first.globals, second.scope.trans first.scope,
    second.depth.trans first.depth, first.since.trans second.since⟩

theorem Later.mono {changing changing' : ScopeId → Prop} {m m' : Machine}
    (later : m.Later changing m') (weaker : ∀ id, changing id → changing' id) :
    m.Later changing' m' :=
  ⟨later.globals, later.scope, later.depth, later.since.mono fun id _ => weaker id⟩

end Machine

namespace Task

def inputs : Task → List Root
  | call callee _ arguments => .value callee :: arguments.map .value
  | apply function _ arguments => .value (.closure function) :: arguments.map .value
  | expression _ | expressions _ | statement _ | statements _ | loop _ _ => []

end Task

def nowhere (_ : ScopeId) : Prop := False

namespace DisciplineData

variable (D : DisciplineData)

/-- What a computation leaves: its results are held besides what was held before. -/
structure Left (m : Machine) (held : List Root) (changing : ScopeId → Prop) (results : List Root)
    (m' : Machine) : Prop where
  later : m.Later changing m'
  safe : D.Safe m'.store (m'.roots (results ++ held))

structure Around (m : Machine) (layers : List D.Layer) : Prop where
  chain : D.Chain m.store m.scope layers
  limits : D.limits layers m.names

structure Ready (p : Point) (layers after : List D.Layer) : Prop where
  globals : p.machine.globals = D.globals
  safe : D.Safe p.machine.store (p.machine.roots (p.task.inputs ++ p.held))
  around : D.Around p.machine layers
  fits : D.fits p layers after

structure Finished (m : Machine) (held : List Root) (after : List D.Layer) (flow : Flow)
    (m' : Machine) : Prop extends D.Left m held (· = m.scope) flow.roots m' where
  around : flow = .normal → D.Around m' after

def Ends (config : Config) (p : Point) (after : List D.Layer) : Prop :=
  match p.task with
  | .expression e =>
    (evaluate config p.steps p.held e p.machine).Sat
      (fun value => D.Left p.machine p.held nowhere [.value value])
      (D.Left p.machine p.held nowhere [])
  | .expressions es =>
    (evaluateAll config p.steps p.held es p.machine).Sat
      (fun values => D.Left p.machine p.held nowhere (values.map .value))
      (D.Left p.machine p.held nowhere [])
  | .call callee line arguments =>
    (call config p.steps p.held callee line arguments p.machine).Sat
      (fun value => D.Left p.machine p.held nowhere [.value value])
      (D.Left p.machine p.held nowhere [])
  | .apply function line arguments =>
    (apply config p.steps p.held function line arguments p.machine).Sat
      (fun value => D.Left p.machine p.held nowhere [.value value])
      (D.Left p.machine p.held nowhere [])
  | .statement s =>
    (execute config p.steps p.held s p.machine).Sat (D.Finished p.machine p.held after)
      (D.Left p.machine p.held (· = p.machine.scope) [])
  | .statements ss =>
    (executeAll config p.steps p.held ss p.machine).Sat (D.Finished p.machine p.held after)
      (D.Left p.machine p.held (· = p.machine.scope) [])
  | .loop condition body =>
    (repeatWhile config p.steps p.held condition body p.machine).Sat
      (D.Finished p.machine p.held after) (D.Left p.machine p.held (· = p.machine.scope) [])

end DisciplineData

namespace DisciplineData

variable {config : Config} {D : Discipline config} {m m' m'' : Machine} {held : List Root}
  {changing : ScopeId → Prop} {results : List Root} {layers after : List D.Layer}

theorem Left.mono {changing' : ScopeId → Prop} (left : D.Left m held changing results m')
    (weaker : ∀ id, changing id → changing' id) : D.Left m held changing' results m' :=
  ⟨left.later.mono weaker, left.safe⟩

theorem Left.quiet (left : D.Left m held nowhere results m') : D.Left m held changing results m' :=
  left.mono fun _ impossible => impossible.elim

theorem roots_subset {held held' : List Root} (fewer : held ⊆ held') :
    m.roots held ⊆ m.roots held' :=
  List.cons_subset_cons _ (List.cons_subset_cons _ fewer)

/-- A computation leaves what a part of it leaves, once the rest has been carried out. -/
theorem Left.trans {held' results' : List Root} {results'' : List Root}
    (first : D.Left m held changing results m') (second : D.Left m' held' changing results' m'')
    (fewer : results'' ++ held ⊆ results' ++ held') : D.Left m held changing results'' m'' :=
  ⟨first.later.trans second.later, second.safe.weaken (roots_subset fewer)⟩

/-- Other results, if they were held or consist of no objects. -/
theorem Left.replace {results' : List Root} (left : D.Left m held changing results m')
    (known : ∀ root ∈ results', root ∈ results ∨ ∃ v, root = .value v ∧ v.objects = []) :
    D.Left m held changing results' m' := by
  have kept : ∀ root ∈ m'.roots (results' ++ held), root ∈ m'.roots (results ++ held) ∨
      ∃ v, root = .value v ∧ v.objects = [] := by
    intro root member
    simp only [Machine.roots, List.mem_cons, List.mem_append] at member ⊢
    rcases member with same | same | new | old
    · exact .inl (.inl same)
    · exact .inl (.inr (.inl same))
    · rcases known root new with inside | atom
      · exact .inl (.inr (.inr (.inl inside)))
      · exact .inr atom
    · exact .inl (.inr (.inr (.inr old)))
  refine ⟨left.later, left.safe.hold ?_ ?_⟩
  · intro id member
    rcases kept _ member with inside | ⟨v, same, _⟩
    · exact left.safe.stands id inside
    · cases same
  · intro v member
    rcases kept _ member with inside | ⟨other, same, atom⟩
    · exact .inl (.inr (.inr inside))
    · cases same
      exact .inr atom

theorem Left.none (left : D.Left m held changing results m') : D.Left m held changing [] m' :=
  left.replace (by simp)

theorem Left.atom (left : D.Left m held changing results m') {v : Value} (atom : v.objects = []) :
    D.Left m held changing [.value v] m' :=
  left.replace fun _ member => .inr ⟨v, List.mem_singleton.mp member, atom⟩

theorem Left.carried (left : D.Left m held changing results m') {v : Value}
    (carries : m'.store.Carries (m'.roots (results ++ held)) v) :
    D.Left m held changing [.value v] m' := by
  refine ⟨left.later, left.safe.hold ?_ ?_⟩
  · intro id member
    refine left.safe.stands id ?_
    simp only [Machine.roots, List.mem_cons, List.mem_append, reduceCtorEq, false_or,
      List.not_mem_nil, or_false] at member ⊢
    rcases member with same | same | old
    · exact .inl same
    · exact .inr (.inl same)
    · exact .inr (.inr (.inr old))
  · intro other member
    simp only [Machine.roots, List.mem_cons, List.mem_append, Root.value.injEq, reduceCtorEq,
      false_or, List.not_mem_nil, or_false] at member
    rcases member with rfl | old
    · exact .inl carries
    · refine .inl (.inr (.inr ?_))
      simp only [Machine.roots, List.mem_cons, List.mem_append]
      exact .inr (.inr (.inr old))

theorem Left.start (safe : D.Safe m.store (m.roots (results ++ held))) :
    D.Left m held changing results m := ⟨.refl changing m, safe⟩

theorem chain_since {s s' : Store} {id : ScopeId} (numbered : s.Numbered)
    (chain : D.Chain s id layers) (since : s.Since s' changing) (stands : s'.Stands id) :
    D.Chain s' id layers := by
  induction chain with
  | globals => exact .globals
  | inner found around known _ ih =>
    obtain ⟨later, atId, above⟩ := stands.exists
    obtain ⟨before, atBefore, grows, _⟩ := since.scopes _ later (numbered _ _ found) atId
    rw [found] at atBefore
    cases atBefore
    have same := grows.enclosing.trans around
    exact .inner atId same (D.holds_mono _ _ _ _ grows.binds known) (ih (above _ same))

theorem Left.around (left : D.Left m held nowhere results m') (numbered : m.store.Numbered)
    (around : D.Around m layers) : D.Around m' layers := by
  have stands : m'.store.Stands m'.scope :=
    left.safe.stands _ (List.mem_cons_of_mem _ List.mem_cons_self)
  obtain ⟨chain, limits⟩ := around
  refine ⟨?_, ?_⟩
  · rw [left.later.scope] at stands ⊢
    exact chain_since numbered chain left.later.since stands
  · cases layers with
    | nil => exact D.limits_globals _
    | cons layer layers =>
      obtain ⟨_, _, found, _⟩ := chain.split
      refine D.limits_mono _ _ _ ?_ limits
      rintro name ⟨later, atScope, bound⟩
      rw [left.later.scope] at atScope
      obtain ⟨before, atBefore, _, names⟩ :=
        left.later.since.scopes _ later (numbered _ _ found) atScope
      rcases names name bound with old | impossible
      · exact ⟨before, atBefore, old⟩
      · exact impossible.elim

end DisciplineData
end Lox
